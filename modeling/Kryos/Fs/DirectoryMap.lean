import Kryos.Fs.KfsRun

/-! Directories as ordered lists of entries: what the operations do to the list, and
what they answer. -/
namespace Kryos.Fs

open Function Trace Word

variable {r : Record} {count : Nat} {records : List Record}

/-- An entry of a directory as its users see it. -/
structure Entry where
  name : List UInt8
  inode : Nat
  type : Nat
  deriving DecidableEq, Repr

def Record.entry (r : Record) : Entry := ⟨r.ent.name, r.ent.inode, r.ent.type⟩

/-- The volume is well-formed, and the bytes of the directory `d` decode to these
entries. -/
def Volume.Listed (s : Volume) (d : Nat) (entries : List Entry) : Prop :=
  ∃ dirs, s.WellFormed True dirs ∧ kindOf s.files d = some kfsTypeDir ∧
    entries = (dirs d).map Record.entry

variable {s : Volume} {d : Nat} {entries : List Entry} {dirs : Nat → List Record} {name : CString}

theorem Volume.Listed.unique {entries' : List Entry} (h : s.Listed d entries)
    (h' : s.Listed d entries') : entries = entries' := by
  obtain ⟨dirs, hWell, hDir, hEntries⟩ := h
  obtain ⟨dirs', hWell', _, hEntries'⟩ := h'
  have hHolds := hWell.holds hDir
  have hHolds' := hWell'.holds hDir
  rw [Volume.Holds, hHolds, Option.some.injEq, File.mk.injEq] at hHolds'
  rw [hEntries, hEntries', encodeDir_injective hHolds'.2]

section Records

theorem Linked.record_unique {kind : Nat → Option Nat} (h : Linked kind dirs) {q : Record}
    (hr : EntryOf kind dirs d r) (hq : EntryOf kind dirs d q) (hName : r.ent.name = q.ent.name) :
    r = q :=
  List.inj_on_of_nodup_map (h.unique d hr.dir) (List.mem_filter.mpr ⟨hr.mem, hr.entry⟩)
    (List.mem_filter.mpr ⟨hq.mem, hq.entry⟩) hName

theorem entryOf_of_name (hDir : kindOf s.files d = some kfsTypeDir) (hMem : r ∈ dirs d)
    (hName : r.ent.name = name.bytes) (hValid : name.Valid) : EntryOf (kindOf s.files) dirs d r :=
  ⟨hDir, hMem, by simp [Record.isEntry, hName, hValid.ne_dot, hValid.ne_dotDot]⟩

/-- An entry of the list splits the directory at the first record of its name, and that
is the record of the entry. -/
theorem split_at_entry (h : s.WellFormed True dirs) (hDir : kindOf s.files d = some kfsTypeDir)
    (hValid : name.Valid) (hMem : r ∈ dirs d) (hName : r.ent.name = name.bytes) :
    ∃ before after, dirs d = before ++ r :: after ∧ (∀ q ∈ before, q.ent.name ≠ r.ent.name) ∧
      EntryOf (kindOf s.files) dirs d r := by
  obtain ⟨before, q, after, hSplit, hq, hBefore⟩ := exists_first ⟨r, hMem, hName⟩
  have hr := entryOf_of_name hDir hMem hName hValid
  have hqMem : q ∈ dirs d := by
    rw [hSplit]
    simp
  have hSame : q = r := h.tree.linked.record_unique (entryOf_of_name hDir hqMem hq hValid) hr
    (hq.trans hName.symm)
  subst hSame
  exact ⟨before, after, hSplit, by rw [hName]; exact hBefore, hr⟩

end Records

section Getdents

/-- `getdents` at the start of a record returns it and moves behind it. -/
theorem kfsVnodeGetdents_at {full : Prop} {first rest : List Record} (h : s.Consistent full)
    (hReliable : s.mount.Reliable) (hHeap : s.mount.HeapServes)
    (hHolds : s.Holds d (first ++ r :: rest)) (hCount : count ≠ 0) :
    kfsVnodeGetdents s d (encodeDir first).length count =
      (.ok (some ⟨r.ent.inode, if r.ent.type = kfsTypeDir then dtDir else dtReg, direntBytes,
        r.ent.name.take 255⟩), (encodeDir (first ++ [r])).length) := by
  have hLength := hHolds.length_le h
  have hMin := r.eight_le_reclen
  have hEnd : (encodeDir (first ++ [r])).length = (encodeDir first).length + r.ent.reclen := by
    rw [encodeDir_append, encodeDir_cons, encodeDir_nil, List.append_nil, List.length_append,
      r.length_bytes]
  have hAll : (encodeDir (first ++ r :: rest)).length =
      (encodeDir (first ++ [r])).length + (encodeDir rest).length := by
    rw [← List.length_append, ← encodeDir_append, List.append_assoc, List.singleton_append]
  have hBefore : ¬(encodeDir first).length ≥ (s.table d).size := by
    rw [hHolds.size]
    omega
  have hSize : (s.table d).size ≠ 0 := by
    omega
  have hSane : ¬(r.ent.reclen = 0 ∨ u64 ((encodeDir first).length + r.ent.reclen) >
      (s.table d).size) := by
    rw [u64_of_lt (by omega), hHolds.size]
    omega
  rw [kfsVnodeGetdents, if_neg hCount, kfsReadInode_eq h.mounted hReliable hHolds.live]
  simp only [hHolds.type, ne_eq, not_true_eq_false, if_false, hBefore,
    Volume.kmalloc_eq hHeap hSize, Bool.not_true, Bool.false_eq_true, hHolds.read h hReliable,
    ofBytes_drop r rfl, hSane]
  rw [u64_of_lt (by omega), hEnd]

theorem kfsVnodeGetdents_end {full : Prop} (h : s.Consistent full) (hReliable : s.mount.Reliable)
    (hHolds : s.Holds d records) {offset : Nat} (hOffset : (encodeDir records).length ≤ offset)
    (hCount : count ≠ 0) : kfsVnodeGetdents s d offset count = (.ok none, offset) := by
  have hEnd : offset ≥ (s.table d).size := by
    rw [hHolds.size]
    exact hOffset
  rw [kfsVnodeGetdents, if_neg hCount, kfsReadInode_eq h.mounted hReliable hHolds.live]
  simp only [hHolds.type, ne_eq, not_true_eq_false, if_false, hEnd, if_true]

/-- The entry as `getdents` returns it. -/
def Entry.dirent (e : Entry) : Dirent :=
  ⟨e.inode, if e.type = kfsTypeDir then dtDir else dtReg, direntBytes, e.name.take 255⟩

end Getdents

section Answers

/-- What the operations on a directory answer, in terms of its entries. -/
structure Answers (s : Volume) (d : Nat) (entries : List Entry) : Prop where
  lookup : ∀ name : CString, name.Valid → ∀ v, kfsVnodeLookup s d name = .ok v ↔
    ∃ e ∈ entries, e.name = name.bytes ∧ v = ⟨e.inode, vnodeTypeOf e.type⟩
  unlink_file : ∀ name : CString, name.Valid → (∃ e ∈ entries, e.name = name.bytes ∧
    e.type = kfsTypeFile) → (kfsVnodeUnlink s d name).1 = .ok ()
  unlink_dir : ∀ name : CString, name.Valid → (∃ e ∈ entries, e.name = name.bytes ∧
    e.type = kfsTypeDir) → (kfsVnodeUnlink s d name).1 = .error (-eisdir)
  unlink_absent : ∀ name : CString, name.Valid → (∀ e ∈ entries, e.name ≠ name.bytes) →
    (kfsVnodeUnlink s d name).1 = .error (-enoent)
  rmdir_empty : ∀ name : CString, name.Valid → ∀ e ∈ entries, e.name = name.bytes →
    e.type = kfsTypeDir → ∀ sub, s.Listed e.inode sub →
      (∀ x ∈ sub, x.name = dot ∨ x.name = dotDot) → (kfsVnodeRmdir s d name).1 = .ok ()
  rmdir_nonempty : ∀ name : CString, name.Valid → ∀ e ∈ entries, e.name = name.bytes →
    e.type = kfsTypeDir → ∀ sub, s.Listed e.inode sub →
      (∃ x ∈ sub, ¬(x.name = dot ∨ x.name = dotDot)) →
        (kfsVnodeRmdir s d name).1 = .error (-enotempty)
  rmdir_file : ∀ name : CString, name.Valid → (∃ e ∈ entries, e.name = name.bytes ∧
    e.type = kfsTypeFile) → (kfsVnodeRmdir s d name).1 = .error (-enotdir)
  rmdir_absent : ∀ name : CString, name.Valid → (∀ e ∈ entries, e.name ≠ name.bytes) →
    (kfsVnodeRmdir s d name).1 = .error (-enoent)
  /-- A name that is there is not created again: a file is answered with the entry's vnode. -/
  create_existing : ∀ name : CString, name.Valid → ∀ e ∈ entries, e.name = name.bytes → ∀ type,
    kfsVnodeCreate s d name type =
      if type = vnodeTypeDir then (.error (-eexist), s) else (.ok ⟨e.inode, vnodeTypeOf e.type⟩, s)
  types : ∀ e ∈ entries, e.type = kfsTypeFile ∨ e.type = kfsTypeDir ∧ ∃ sub, s.Listed e.inode sub
  getdents : ∀ count, count ≠ 0 → ∃ offsets : Nat → Nat, offsets 0 = 0 ∧
    (∀ k (hk : k < entries.length), kfsVnodeGetdents s d (offsets k) count =
      (.ok (some (entries.get ⟨k, hk⟩).dirent), offsets (k + 1))) ∧
    kfsVnodeGetdents s d (offsets entries.length) count = (.ok none, offsets entries.length)

theorem mem_entries {e : Entry} :
    e ∈ records.map Record.entry ↔ ∃ r ∈ records, r.entry = e := List.mem_map

theorem Record.isEntry_iff (r : Record) :
    r.isEntry = true ↔ ¬(r.entry.name = dot ∨ r.entry.name = dotDot) := by
  constructor
  · intro hTrue hDots
    rw [Record.not_isEntry_of_dot hDots] at hTrue
    cases hTrue
  · intro hNot
    by_contra hFalse
    exact hNot (Record.eq_dots_of_not_isEntry (Bool.not_eq_true _ ▸ hFalse))

theorem entry_record (h : s.WellFormed True dirs) (hDir : kindOf s.files d = some kfsTypeDir)
    {e : Entry} (he : e ∈ (dirs d).map Record.entry) (hValid : name.Valid)
    (hName : e.name = name.bytes) :
    ∃ before r after, s.Holds d (before ++ r :: after) ∧ (∀ q ∈ before, q.ent.name ≠ r.ent.name) ∧
      r.ent.name = name.bytes ∧ r.isEntry = true ∧ r.ent.inode ≠ 0 ∧
      kindOf s.files r.ent.inode = some r.ent.type ∧ r.entry = e := by
  obtain ⟨r, hr, rfl⟩ := mem_entries.mp he
  obtain ⟨before, after, hSplit, hBefore, hEntry⟩ := split_at_entry h hDir hValid hr hName
  refine ⟨before, r, after, hSplit ▸ h.holds hDir, hBefore, hName, hEntry.entry,
    h.tree.linked.rootless d r hEntry, h.tree.linked.named d hDir r hr, rfl⟩

/-- The entries are those of the directory `i`, so the records are. -/
theorem listed_records (h : s.WellFormed True dirs) {i : Nat} {sub : List Entry}
    (hListed : s.Listed i sub) : s.Holds i (dirs i) ∧ sub = (dirs i).map Record.entry := by
  have hSubdir : kindOf s.files i = some kfsTypeDir := hListed.choose_spec.2.1
  exact ⟨h.holds hSubdir, hListed.unique ⟨dirs, h, hSubdir, rfl⟩⟩

variable (h : s.WellFormed True dirs) (hReliable : s.mount.Reliable)
  (hHeap : s.mount.HeapServes) (hDir : kindOf s.files d = some kfsTypeDir)

include h hReliable hHeap hDir

theorem lookup_answers (name : CString) (hValid : name.Valid) (v : Vnode) :
    kfsVnodeLookup s d name = .ok v ↔ ∃ e ∈ (dirs d).map Record.entry, e.name = name.bytes ∧
      v = ⟨e.inode, vnodeTypeOf e.type⟩ := by
  have hHolds := h.holds hDir
  constructor
  · intro hLookup
    rcases h.browsable.lookup_cases hReliable hHeap hDir hValid.ne_dots with ⟨_, err, hErr⟩ |
      ⟨_, r, _, _, hName, _, hEntry, hFound⟩
    · cases hErr.symm.trans hLookup
    · cases hFound.symm.trans hLookup
      exact ⟨r.entry, List.mem_map_of_mem hEntry.mem, hName, rfl⟩
  · rintro ⟨e, he, hName, rfl⟩
    obtain ⟨r, hr, rfl⟩ := mem_entries.mp he
    obtain ⟨before, after, hSplit, hBefore, _⟩ := split_at_entry h hDir hValid hr hName
    rw [hSplit] at hHolds
    exact kfsVnodeLookup_present h.consistent hReliable hHeap hHolds hBefore hName hValid.ne_dot
      (fun hRoot => hValid.ne_dotDot hRoot.2)

theorem getdents_answers (hCount : count ≠ 0) :
    ∃ offsets : Nat → Nat, offsets 0 = 0 ∧
      (∀ k (hk : k < ((dirs d).map Record.entry).length), kfsVnodeGetdents s d (offsets k) count =
        (.ok (some (((dirs d).map Record.entry).get ⟨k, hk⟩).dirent), offsets (k + 1))) ∧
      kfsVnodeGetdents s d (offsets ((dirs d).map Record.entry).length) count =
        (.ok none, offsets ((dirs d).map Record.entry).length) := by
  have hHolds := h.holds hDir
  refine ⟨fun k => (encodeDir ((dirs d).take k)).length, by simp, ?_, ?_⟩
  · intro k hk
    rw [List.length_map] at hk
    have hSplit : dirs d = (dirs d).take k ++ (dirs d)[k] :: (dirs d).drop (k + 1) := by
      rw [← List.drop_eq_getElem_cons hk, List.take_append_drop]
    have hNext : (dirs d).take (k + 1) = (dirs d).take k ++ [(dirs d)[k]] :=
      List.take_succ_eq_append_getElem hk
    have hAt : s.Holds d ((dirs d).take k ++ (dirs d)[k] :: (dirs d).drop (k + 1)) := by
      rw [← hSplit]
      exact hHolds
    simp only [List.get_eq_getElem, List.getElem_map]
    rw [kfsVnodeGetdents_at h.consistent hReliable hHeap hAt hCount, hNext]
    rfl
  · simp only [List.length_map, List.take_length]
    exact kfsVnodeGetdents_end h.consistent hReliable hHolds (le_refl _) hCount

theorem Volume.WellFormed.answers : Answers s d ((dirs d).map Record.entry) where
  lookup := lookup_answers h hReliable hHeap hDir
  unlink_file := by
    rintro name hValid ⟨e, he, hName, hType⟩
    obtain ⟨before, r, after, hHolds, hBefore, hr, hEntry, hRoot, hKind, rfl⟩ :=
      entry_record h hDir he hValid hName
    obtain ⟨s', hRun, _⟩ := kfsVnodeUnlink_file h.consistent hReliable hHeap hHolds hBefore hr
      hEntry (hKind.trans (congrArg some hType)) hRoot
    rw [hRun]
  unlink_dir := by
    rintro name hValid ⟨e, he, hName, hType⟩
    obtain ⟨before, r, after, hHolds, hBefore, hr, hEntry, _, hKind, rfl⟩ :=
      entry_record h hDir he hValid hName
    rw [kfsVnodeUnlink_dir h.consistent hReliable hHeap hHolds hBefore hr hEntry
      (hKind.trans (congrArg some hType))]
  unlink_absent := by
    intro name hValid hAbsent
    rw [kfsVnodeUnlink_absent h.consistent hReliable hHeap (h.holds hDir)
      (fun q hq => hAbsent q.entry (List.mem_map_of_mem hq)) hValid.ne_dots]
  rmdir_empty := by
    intro name hValid e he hName hType sub hSub hDots
    obtain ⟨before, r, after, hHolds, hBefore, hr, hEntry, hRoot, hKind, rfl⟩ :=
      entry_record h hDir he hValid hName
    obtain ⟨hTarget, rfl⟩ := listed_records h hSub
    have hEmpty : ∀ q ∈ dirs r.ent.inode, q.isEntry = false := fun q hq =>
      Record.not_isEntry_of_dot (hDots q.entry (List.mem_map_of_mem hq))
    obtain ⟨s', hRun, _⟩ := kfsVnodeRmdir_empty h.consistent hReliable hHeap hHolds hBefore hr
      hEntry hTarget hEmpty hRoot
    rw [hRun]
  rmdir_nonempty := by
    rintro name hValid e he hName hType sub hSub ⟨x, hx, hNot⟩
    obtain ⟨before, r, after, hHolds, hBefore, hr, hEntry, _, hKind, rfl⟩ :=
      entry_record h hDir he hValid hName
    obtain ⟨hTarget, rfl⟩ := listed_records h hSub
    obtain ⟨q, hq, rfl⟩ := mem_entries.mp hx
    rw [kfsVnodeRmdir_nonempty h.consistent hReliable hHeap hHolds hBefore hr hEntry hTarget
      ⟨q, hq, q.isEntry_iff.mpr hNot⟩]
  rmdir_file := by
    rintro name hValid ⟨e, he, hName, hType⟩
    obtain ⟨before, r, after, hHolds, hBefore, hr, hEntry, _, hKind, rfl⟩ :=
      entry_record h hDir he hValid hName
    rw [kfsVnodeRmdir_file h.consistent hReliable hHeap hHolds hBefore hr hEntry
      (hKind.trans (congrArg some hType))]
  rmdir_absent := by
    intro name hValid hAbsent
    rw [kfsVnodeRmdir_absent h.consistent hReliable hHeap (h.holds hDir)
      (fun q hq => hAbsent q.entry (List.mem_map_of_mem hq)) hValid.ne_dots]
  create_existing := by
    intro name hValid e he hName type
    obtain ⟨before, r, after, hHolds, hBefore, hr, _, _, _, rfl⟩ :=
      entry_record h hDir he hValid hName
    exact kfsVnodeCreate_existing h.consistent hReliable hHeap hHolds hBefore hr hValid type
  types := by
    intro e he
    obtain ⟨r, hr, rfl⟩ := mem_entries.mp he
    have hNamed := h.tree.linked.named d hDir r hr
    rcases h.tree.linked.kinds _ _ hNamed with hFile | hSubdir
    · exact .inl hFile
    · exact .inr ⟨hSubdir, _, dirs, h, hSubdir ▸ hNamed, rfl⟩
  getdents := fun _ => getdents_answers h hReliable hHeap hDir

end Answers

section Run

/-- The calls that change a directory. -/
inductive DirCall where
  | create (name : CString) (type : Nat)
  | unlink (name : CString)
  | rmdir (name : CString)

def DirCall.target : DirCall → CString
  | .create name _ => name
  | .unlink name => name
  | .rmdir name => name

/-- The call on the directory `d`: the inode number of the vnode that a creation
returns, and the volume. -/
def DirCall.run (s : Volume) (d : Nat) : DirCall → Except Int (Option Nat) × Volume
  | .create name type =>
    ((kfsVnodeCreate s d name type).1.map (fun v => some v.ino), (kfsVnodeCreate s d name type).2)
  | .unlink name => ((kfsVnodeUnlink s d name).1.map (fun _ => none), (kfsVnodeUnlink s d name).2)
  | .rmdir name => ((kfsVnodeRmdir s d name).1.map (fun _ => none), (kfsVnodeRmdir s d name).2)

/-- What a call with that result does to the list. Creating a name that is there
changes nothing. -/
def DirCall.effect (entries : List Entry) : DirCall → Except Int (Option Nat) → List Entry
  | .create name type, .ok (some ino) =>
    if entries.any (fun e => e.name == name.bytes) then entries
    else entries ++ [⟨name.bytes, ino, kfsTypeFor type⟩]
  | .unlink name, .ok _ => entries.eraseP (fun e => e.name == name.bytes)
  | .rmdir name, .ok _ => entries.eraseP (fun e => e.name == name.bytes)
  | _, _ => entries

/-- A volume next to the list of entries of one of its directories. -/
def dirStep (d : Nat) (x : Volume × List Entry) (call : DirCall) : Volume × List Entry :=
  ((call.run x.1 d).2, call.effect x.2 (call.run x.1 d).1)

/-- The name is one that can be created, and there is room for its record. -/
def DirCall.Fitting (d : Nat) (x : Volume × List Entry) (call : DirCall) : Prop :=
  call.target.Valid ∧ match call with
    | .create name _ => RoomFor x.1 d name
    | _ => True

theorem eraseP_entry {before after : List Record} {name : List UInt8}
    (hBefore : ∀ q ∈ before, q.ent.name ≠ name) (hName : r.ent.name = name) :
    ((before ++ r :: after).map Record.entry).eraseP (fun e => e.name == name) =
      (before ++ after).map Record.entry := by
  induction before with
  | nil => simp [Record.entry, hName]
  | cons q before ih =>
    have hq : (q.entry.name == name) = false := by
      rw [beq_eq_false_iff_ne]
      exact hBefore q List.mem_cons_self
    rw [List.cons_append, List.map_cons, List.eraseP_cons_of_neg (by simp [hq]),
      ih (fun x hx => hBefore x (List.mem_cons_of_mem _ hx)), List.cons_append, List.map_cons]

theorem any_name_iff {name : List UInt8} :
    (records.map Record.entry).any (fun e => e.name == name) = true ↔
      ∃ q ∈ records, q.ent.name = name := by
  simp [Record.entry]

theorem Removed.listed {result : Except Int Unit × Volume} (h : s.WellFormed True dirs)
    (hDir : kindOf s.files d = some kfsTypeDir) (hRemoved : Removed s dirs d name result) :
    result.2.mount = s.mount ∧ match result.1 with
      | .ok _ => result.2.Listed d
          (((dirs d).map Record.entry).eraseP (fun e => e.name == name.bytes))
      | .error _ => result.2.Listed d ((dirs d).map Record.entry) := by
  cases hRemoved with
  | refused _ => exact ⟨rfl, dirs, h, hDir, rfl⟩
  | @gone s' r before after hEntry hName hDirs hBefore hWell hFrame hFiles =>
    refine ⟨hFrame.mount, _, hWell, ?_, ?_⟩
    · rw [hFiles, kindOf, update_self]
      rfl
    · rw [update_self, hDirs, ← hName, eraseP_entry hBefore rfl]

theorem Made.listed {type : Nat} {result : Except Int Vnode × Volume} (h : s.WellFormed True dirs)
    (hDir : kindOf s.files d = some kfsTypeDir) (hMade : Made s dirs d name type result) :
    result.2.mount = s.mount ∧ match result.1 with
      | .ok v => result.2.Listed d
          (if ((dirs d).map Record.entry).any (fun e => e.name == name.bytes) then
            (dirs d).map Record.entry
          else (dirs d).map Record.entry ++ [⟨name.bytes, v.ino, kfsTypeFor type⟩])
      | .error _ => result.2.Listed d ((dirs d).map Record.entry) := by
  cases hMade with
  | refused _ hWell hFrame hFiles =>
    exact ⟨hFrame.mount, dirs, hWell, by rw [hFiles]; exact hDir, rfl⟩
  | existing _ hEntry hName =>
    refine ⟨rfl, ?_⟩
    simp only [any_name_iff.mpr ⟨_, hEntry.mem, hName⟩, if_true]
    exact ⟨dirs, h, hDir, rfl⟩
  | @made s' n r dots _ _ _ hFresh hEnt hWell hFrame hFiles =>
    have hNone : ¬((dirs d).map Record.entry).any (fun e => e.name == name.bytes) = true := by
      rw [any_name_iff]
      rintro ⟨q, hq, hEq⟩
      exact hFresh q hq hEq
    refine ⟨hFrame.mount, ?_⟩
    simp only [hNone]
    refine ⟨_, hWell, ?_, ?_⟩
    · rw [hFiles, kindOf, update_self]
      rfl
    · simp [Record.entry, hEnt]

/-- One call keeps the volume in line with the list. -/
theorem dirStep_listed (hListed : s.Listed d entries) (hReliable : s.mount.Reliable)
    (hHeap : s.mount.HeapServes) {call : DirCall} (hFitting : call.Fitting d (s, entries)) :
    (dirStep d (s, entries) call).1.mount = s.mount ∧
      (dirStep d (s, entries) call).1.Listed d (dirStep d (s, entries) call).2 := by
  obtain ⟨dirs, h, hDir, rfl⟩ := hListed
  cases call with
  | create name type =>
    obtain ⟨hMount, hResult⟩ := (h.create hReliable hHeap d name type hFitting.2).listed h hDir
    refine ⟨hMount, ?_⟩
    simp only [dirStep, DirCall.run]
    cases hRun : (kfsVnodeCreate s d name type).1 with
    | error err => simpa [hRun, Except.map, DirCall.effect] using hResult
    | ok v => simpa [hRun, Except.map, DirCall.effect] using hResult
  | unlink name =>
    obtain ⟨hMount, hResult⟩ := (h.unlink hReliable hHeap d name).listed h hDir
    refine ⟨hMount, ?_⟩
    simp only [dirStep, DirCall.run]
    cases hRun : (kfsVnodeUnlink s d name).1 with
    | error err => simpa [hRun, Except.map, DirCall.effect] using hResult
    | ok v => simpa [hRun, Except.map, DirCall.effect] using hResult
  | rmdir name =>
    obtain ⟨hMount, hResult⟩ := (h.rmdir hReliable hHeap d name).listed h hDir
    refine ⟨hMount, ?_⟩
    simp only [dirStep, DirCall.run]
    cases hRun : (kfsVnodeRmdir s d name).1 with
    | error err => simpa [hRun, Except.map, DirCall.effect] using hResult
    | ok v => simpa [hRun, Except.map, DirCall.effect] using hResult

/-- After any calls on a directory, its bytes decode to the list with the effects of
the calls, and the operations answer by this list. -/
theorem directory_refines_list {s : Volume} {d : Nat} {entries : List Entry}
    (hListed : s.Listed d entries) (hReliable : s.mount.Reliable) (hHeap : s.mount.HeapServes)
    {calls : List DirCall}
    (hFitting : EachStep (dirStep d) (DirCall.Fitting d) (s, entries) calls) :
    (calls.foldl (dirStep d) (s, entries)).1.Listed d (calls.foldl (dirStep d) (s, entries)).2 ∧
      Answers (calls.foldl (dirStep d) (s, entries)).1 d
        (calls.foldl (dirStep d) (s, entries)).2 := by
  induction calls generalizing s entries with
  | nil =>
    obtain ⟨dirs, h, hDir, rfl⟩ := id hListed
    exact ⟨hListed, h.answers hReliable hHeap hDir⟩
  | cons call calls ih =>
    obtain ⟨hFirst, hRest⟩ := hFitting
    obtain ⟨hMount, hNext⟩ := dirStep_listed hListed hReliable hHeap hFirst
    have hReliable' : (dirStep d (s, entries) call).1.mount.Reliable := by
      rw [hMount]
      exact hReliable
    have hHeap' : (dirStep d (s, entries) call).1.mount.HeapServes := by
      rw [hMount]
      exact hHeap
    exact ih hNext hReliable' hHeap' hRest

/-- A file is created and removed. -/
def createUnlink : List DirCall :=
  [.create fileA vnodeTypeFile, .unlink fileA]

theorem directory_refines_list_of_root :
    (createUnlink.foldl (dirStep 0) (mkfsVolume, [])).1.Listed 0
        (createUnlink.foldl (dirStep 0) (mkfsVolume, [])).2 ∧
      Answers (createUnlink.foldl (dirStep 0) (mkfsVolume, [])).1 0
        (createUnlink.foldl (dirStep 0) (mkfsVolume, [])).2 := by
  have hRoot : kindOf mkfsVolume.files 0 = some kfsTypeDir := by
    rfl
  have hValid := @letter_valid 97 (by decide) (by decide)
  refine directory_refines_list ⟨_, mkfsVolume_wellFormed, hRoot, rfl⟩ mkfsVolume_reliable
    mkfsVolume_heapServes ⟨⟨hValid, .inl ?_⟩, ⟨hValid, trivial⟩, trivial⟩
  decide

/-- Creating a file whose name is there succeeds and adds no entry. -/
theorem kfsVnodeCreate_existing_adds_nothing :
    ∃ (s : Volume) (entries : List Entry) (name : CString) (v : Vnode), s.Listed 0 entries ∧
      s.mount.Reliable ∧ s.mount.HeapServes ∧ name.Valid ∧
      (kfsVnodeCreate s 0 name vnodeTypeFile).1 = .ok v ∧
      ∀ e, ¬(kfsVnodeCreate s 0 name vnodeTypeFile).2.Listed 0 (entries ++ [e]) := by
  obtain ⟨dirs, r, hWell, hDirs, hEnt, _⟩ := fileVolume_wellFormed
  have hDir : kindOf fileVolume.files 0 = some kfsTypeDir := by decide +kernel
  have hListed : fileVolume.Listed 0 [r.entry] := ⟨dirs, hWell, hDir, by rw [hDirs]; rfl⟩
  have hValid := @letter_valid 97 (by decide) (by decide)
  have hRun := @kfsVnodeCreate_existing _ _ _ _ fileA [] [] r hWell.consistent fileVolume_reliable
    fileVolume_heapServes (hDirs ▸ hWell.holds hDir) (fun _ hq => nomatch hq)
      (by rw [hEnt]; rfl) hValid
    vnodeTypeFile
  refine ⟨fileVolume, [r.entry], fileA, _, hListed, fileVolume_reliable,
    fileVolume_heapServes, hValid, congrArg Prod.fst hRun, fun e hAdded => ?_⟩
  have hLength := congrArg List.length (hListed.unique hAdded)
  simp at hLength

end Run

end Kryos.Fs
