import Kryos.Fs.MkfsMount
import Kryos.Fs.ReopenedPath

/-! Names that a directory does not have, in every volume that comes from an image by
creations and removals. -/
namespace Kryos.Fs

open Bitmap Function

variable {kind : Nat → Option Nat} {dirs : Nat → List Record}

/-- What creations and removals keep, although files of an image may share a name: every
entry has an inode of its own, the records are short, and there are at most two dots. -/
structure Numbered (kind : Nat → Option Nat) (dirs : Nat → List Record) : Prop where
  kinds : ∀ d r, EntryOf kind dirs d r →
    kind r.ent.inode = some kfsTypeFile ∨ kind r.ent.inode = some kfsTypeDir
  rootless : ∀ d r, EntryOf kind dirs d r → r.ent.inode ≠ 0
  distinct : ∀ d, kind d = some kfsTypeDir →
    (((dirs d).filter Record.isEntry).map fun r => r.ent.inode).Nodup
  apart : ∀ d r d' r', EntryOf kind dirs d r → EntryOf kind dirs d' r' →
    r.ent.inode = r'.ent.inode → d = d'
  short : ∀ d, kind d = some kfsTypeDir → ∀ r ∈ dirs d, r.ent.reclen ≤ 264
  dots : ∀ d, kind d = some kfsTypeDir → ((dirs d).filter fun r => !r.isEntry).length ≤ 2

namespace Numbered

variable {d n ty : Nat} {r first second : Record} {before after : List Record}

/-- Behind and before an entry, no other has its inode. -/
theorem inode_ne_rest (h : Numbered kind dirs) (hr : EntryOf kind dirs d r)
    (hDirs : dirs d = before ++ r :: after) {q : Record} (hq : q ∈ before ++ after)
    (hEntry : q.isEntry = true) : q.ent.inode ≠ r.ent.inode := by
  have hNodup := h.distinct d hr.dir
  rw [hDirs, List.filter_append, List.filter_cons_of_pos hr.entry, List.map_append, List.map_cons,
    List.nodup_middle, List.nodup_cons] at hNodup
  intro hEq
  refine hNodup.1 ?_
  rw [← hEq, ← List.map_append, ← List.filter_append]
  exact List.mem_map_of_mem (List.mem_filter.mpr ⟨hq, hEntry⟩)

theorem remove (h : Numbered kind dirs) (hr : EntryOf kind dirs d r)
    (hDirs : dirs d = before ++ r :: after) :
    Numbered (update kind r.ent.inode none) (update dirs d (before ++ after)) := by
  have hSub : ∀ x, (update dirs d (before ++ after) x).Sublist (dirs x) := by
    intro x
    by_cases hx : x = d
    · rw [hx, update_self, hDirs]
      exact (List.sublist_cons_self r after).append_left before
    · rw [update_of_ne hx]
  have hKind : ∀ x t, update kind r.ent.inode none x = some t → kind x = some t :=
    fun x t hx => (eq_some_of_update_none hx).2
  have hOld : ∀ x q, EntryOf (update kind r.ent.inode none)
      (update dirs d (before ++ after)) x q →
        EntryOf kind dirs x q ∧ q.ent.inode ≠ r.ent.inode := by
    intro x q hq
    have hEntry : EntryOf kind dirs x q := ⟨hKind x _ hq.dir, (hSub x).mem hq.mem, hq.entry⟩
    refine ⟨hEntry, fun hEq => ?_⟩
    have hx := h.apart x q d r hEntry hr hEq
    have hMem := hq.mem
    rw [hx, update_self] at hMem
    exact h.inode_ne_rest hr hDirs hMem hq.entry hEq
  refine ⟨fun x q hq => ?_, fun x q hq => h.rootless x q (hOld x q hq).1, fun x hx => ?_,
    fun x q x' q' hq hq' => h.apart x q x' q' (hOld x q hq).1 (hOld x' q' hq').1,
    fun x hx q hq => h.short x (hKind x _ hx) q ((hSub x).mem hq), fun x hx => ?_⟩
  · rw [update_of_ne (hOld x q hq).2]
    exact h.kinds x q (hOld x q hq).1
  · exact (h.distinct x (hKind x _ hx)).sublist (((hSub x).filter _).map _)
  · exact ((hSub x).filter _).length_le.trans (h.dots x (hKind x _ hx))

theorem create (h : Numbered kind dirs) (hd : kind d = some kfsTypeDir) (hn : kind n = none)
    (hRoot : n ≠ 0) (hType : ty = kfsTypeFile ∨ ty = kfsTypeDir) (hDots : NewDots n d first second)
    (hEntry : r.isEntry = true) (hInode : r.ent.inode = n) (hShort : r.ent.reclen ≤ 264)
    (hShortDots : first.ent.reclen ≤ 264 ∧ second.ent.reclen ≤ 264) :
    Numbered (update kind n (some ty)) (withCreated dirs d n first second r) := by
  have hEntries := @entryOf_create kind dirs d n ty r first second hd hn hDots hEntry
  have hNotNew : ∀ x q, EntryOf kind dirs x q → q.ent.inode ≠ n := by
    intro x q hq hEq
    have hKinds := h.kinds x q hq
    rw [hEq, hn] at hKinds
    exact hKinds.elim (fun hNone => nomatch hNone) (fun hNone => nomatch hNone)
  have hFirst : first.isEntry = false := Record.not_isEntry_of_dot (.inl hDots.first.1)
  have hSecond : second.isEntry = false := Record.not_isEntry_of_dot (.inr hDots.second.1)
  -- a directory is the one that grew, the new one, or as before
  have hCases : ∀ x, update kind n (some ty) x = some kfsTypeDir → x = d ∨
      (x = n ∧ withCreated dirs d n first second r x = [first, second]) ∨
      (kind x = some kfsTypeDir ∧ withCreated dirs d n first second r x = dirs x) := by
    intro x hx
    by_cases hxd : x = d
    · exact .inl hxd
    by_cases hxn : x = n
    · exact .inr (.inl ⟨hxn, by rw [withCreated, update_of_ne hxd, hxn, update_self]⟩)
    · exact .inr (.inr ⟨by rwa [update_of_ne hxn] at hx,
        by rw [withCreated, update_of_ne hxd, update_of_ne hxn]⟩)
  refine ⟨fun x q hq => ?_, fun x q hq => ?_, fun x hx => ?_, fun x q x' q' hq hq' hEq => ?_,
    fun x hx q hq => ?_, fun x hx => ?_⟩
  · rcases hEntries.mp hq with hOld | ⟨_, rfl⟩
    · rw [update_of_ne (hNotNew x q hOld)]
      exact h.kinds x q hOld
    · rw [hInode, update_self]
      exact hType.imp (congrArg some) (congrArg some)
  · rcases hEntries.mp hq with hOld | ⟨_, rfl⟩
    · exact h.rootless x q hOld
    · rwa [hInode]
  · rcases hCases x hx with rfl | ⟨_, hNew⟩ | ⟨hDir, hOld⟩
    · rw [withCreated, update_self, List.filter_append, List.filter_singleton,
        hEntry, List.map_append, List.nodup_append]
      refine ⟨h.distinct x hd, List.nodup_singleton _, ?_⟩
      intro i hi j hj hEq
      obtain ⟨q, hq, rfl⟩ := List.mem_map.mp hi
      obtain ⟨hMem, hqEntry⟩ := List.mem_filter.mp hq
      have hLast : j = r.ent.inode := List.mem_singleton.mp hj
      exact hNotNew x q ⟨hd, hMem, hqEntry⟩ (hEq.trans (hLast.trans hInode))
    · rw [hNew]
      simp [hFirst, hSecond]
    · rw [hOld]
      exact h.distinct x hDir
  · rcases hEntries.mp hq with hOld | ⟨rfl, rfl⟩ <;> rcases hEntries.mp hq' with hOld' | ⟨rfl, rfl⟩
    · exact h.apart x q x' q' hOld hOld' hEq
    · exact absurd (hEq.trans hInode) (hNotNew x q hOld)
    · exact absurd (hEq.symm.trans hInode) (hNotNew x' q' hOld')
    · rfl
  · rcases (mem_withCreated (ne_of_free hd hn)).mp hq with ⟨_, rfl | rfl⟩ | ⟨hxn, hMem | ⟨_, rfl⟩⟩
    · exact hShortDots.1
    · exact hShortDots.2
    · exact h.short x (by rwa [update_of_ne hxn] at hx) q hMem
    · exact hShort
  · rcases hCases x hx with rfl | ⟨_, hNew⟩ | ⟨hDir, hOld⟩
    · have hNone : [r].filter (fun q => !q.isEntry) = [] := by simp [hEntry]
      rw [withCreated, update_self, List.filter_append, hNone, List.append_nil]
      exact h.dots x hd
    · rw [hNew]
      simp [hFirst, hSecond]
    · rw [hOld]
      exact h.dots x hDir

end Numbered

/-- A volume with its directories, as creations and removals leave it. -/
structure Volume.Catalogued (s : Volume) (dirs : Nat → List Record) : Prop where
  consistent : s.Consistent True
  encodes : Encodes s.files dirs
  numbered : Numbered (kindOf s.files) dirs

namespace Volume.Catalogued

variable {s : Volume} {d : Nat} {name : CString}

theorem browsable (h : s.Catalogued dirs) : s.Browsable dirs :=
  ⟨h.consistent, h.encodes, h.numbered.kinds, h.numbered.rootless⟩

theorem length_encodeDir_le {records : List Record} (hShort : ∀ r ∈ records, r.ent.reclen ≤ 264) :
    (encodeDir records).length ≤ records.length * 264 := by
  induction records with
  | nil => exact Nat.le_refl 0
  | cons r records ih =>
    have hFirst := hShort r List.mem_cons_self
    have hRest := ih fun q hq => hShort q (List.mem_cons_of_mem _ hq)
    rw [encodeDir_cons, List.length_append, r.length_bytes, List.length_cons]
    omega

/-- There are 127 inodes besides the root, so a directory is far from its largest size. -/
theorem length_le (h : s.Catalogued dirs) (hDir : kindOf s.files d = some kfsTypeDir) :
    (encodeDir (dirs d)).length ≤ 129 * 264 := by
  have hInodes :
      ((dirs d).filter Record.isEntry).map (fun r => r.ent.inode) ⊆ List.range' 1 127 := by
    intro i hi
    obtain ⟨r, hr, rfl⟩ := List.mem_map.mp hi
    obtain ⟨hMem, hEntry⟩ := List.mem_filter.mp hr
    have hr : EntryOf (kindOf s.files) dirs d r := ⟨hDir, hMem, hEntry⟩
    have hRoot := h.numbered.rootless d r hr
    have hLive : ∃ t, kindOf s.files r.ent.inode = some t :=
      (h.numbered.kinds d r hr).elim (fun hKind => ⟨_, hKind⟩) (fun hKind => ⟨_, hKind⟩)
    obtain ⟨t, hKind⟩ := hLive
    have hBound := Volume.live_lt (Volume.table_of_kind hKind).1
    rw [List.mem_range'_1]
    omega
  have hEntries := (h.numbered.distinct d hDir).length_le_of_subset hInodes
  rw [List.length_map, List.length_range'] at hEntries
  have hDots := h.numbered.dots d hDir
  have hCount : (dirs d).length ≤ 129 := by
    have hSplit := List.length_eq_length_filter_add (l := dirs d) Record.isEntry
    omega
  calc (encodeDir (dirs d)).length
      ≤ (dirs d).length * 264 := length_encodeDir_le (h.numbered.short d hDir)
    _ ≤ 129 * 264 := Nat.mul_le_mul_right 264 hCount

theorem roomFor (h : s.Catalogued dirs) (hDir : kindOf s.files d = some kfsTypeDir)
    (hValid : name.Valid) :
    (encodeDir (dirs d)).length + reclenOf name.bytes.length ≤ 138 * 512 := by
  have hLength := h.length_le hDir
  have hName := hValid.length_le
  rw [reclenOf_eq hName]
  omega

theorem create (h : s.Catalogued dirs) (hReliable : s.mount.Reliable) (hHeap : s.mount.HeapServes)
    (d : Nat) (name : CString) (type : Nat) :
    (kfsVnodeCreate s d name type).2.mount = s.mount ∧
      ∃ dirs', (kfsVnodeCreate s d name type).2.Catalogued dirs' := by
  have hCreation := h.browsable.create_of_room hReliable hHeap d name type fun hDir hValid => by
    left
    rw [(h.browsable.holds hDir).size]
    exact h.roomFor hDir hValid
  generalize kfsVnodeCreate s d name type = result at hCreation ⊢
  cases hCreation with
  | refused _ hConsistent hFrame hFiles =>
    exact ⟨hFrame.mount, dirs, hConsistent, by rw [hFiles]; exact h.encodes,
      by rw [hFiles]; exact h.numbered⟩
  | existing => exact ⟨rfl, dirs, h⟩
  | @made s' n hValid hInode hParent hRoot hDir _ hFree _ hConsistent hFrame hFiles =>
    have hKind : kindOf s.files n = none := by simp [kindOf, hFree]
    have hLength := hValid.length_le
    refine ⟨hFrame.mount, update (update dirs n (newDots n d hInode hParent)) d
      (dirs d ++ [newRecord n type name hValid hInode]), hConsistent, ?_, ?_⟩
    · rw [hFiles]
      exact (h.encodes.put (newContent_dots hInode hParent)).put fun _ => rfl
    · rw [hFiles, kindOf_create hDir (ne_of_free hDir hKind)]
      refine h.numbered.create hDir hKind hRoot (kfsTypeFor_cases type)
        (newDots_spec hInode hParent)
        (newRecord_isEntry type hValid hInode) (by rw [newRecord_ent]) ?_ ?_
      · rw [newRecord_ent, reclenOf_eq hLength]
        dsimp only
        omega
      · exact ⟨show 12 ≤ 264 by decide, show 12 ≤ 264 by decide⟩

theorem removed (h : s.Catalogued dirs) {result : Except Int Unit × Volume}
    (hRemoval : Removal s dirs d name result) :
    result.2.mount = s.mount ∧ ∃ dirs', result.2.Catalogued dirs' := by
  cases hRemoval with
  | refused => exact ⟨rfl, dirs, h⟩
  | @gone s' r before after hEntry _ hDirs _ hEmpty hConsistent hFrame hFiles =>
    refine ⟨hFrame.mount, update dirs d (before ++ after), hConsistent, ?_, ?_⟩
    · rw [hFiles]
      exact (h.encodes.drop _).put fun _ => rfl
    · rw [hFiles, kindOf_remove hEntry.dir (hEntry.inode_ne hEmpty)]
      exact h.numbered.remove hEntry hDirs

end Volume.Catalogued

section Runs

variable {s : Volume}

/-- The calls that create and remove entries. -/
def KfsCall.OnDirectory : KfsCall → Prop
  | .create _ _ _ => True
  | .unlink _ _ => True
  | .rmdir _ _ => True
  | .write _ _ _ => False
  | .truncate _ => False

theorem Volume.Catalogued.step (h : s.Catalogued dirs) (hReliable : s.mount.Reliable)
    (hHeap : s.mount.HeapServes) {call : KfsCall} (hCall : call.OnDirectory) :
    (kfsStep s call).mount = s.mount ∧ ∃ dirs', (kfsStep s call).Catalogued dirs' := by
  cases call with
  | create d name type => exact h.create hReliable hHeap d name type
  | unlink d name => exact h.removed (h.browsable.unlink hReliable hHeap d name)
  | rmdir d name => exact h.removed (h.browsable.rmdir hReliable hHeap d name)
  | write => exact hCall.elim
  | truncate => exact hCall.elim

theorem Volume.Catalogued.run (h : s.Catalogued dirs) (hReliable : s.mount.Reliable)
    (hHeap : s.mount.HeapServes) {calls : List KfsCall}
    (hCalls : ∀ call ∈ calls, call.OnDirectory) :
    (calls.foldl kfsStep s).mount = s.mount ∧
      ∃ dirs', (calls.foldl kfsStep s).Catalogued dirs' := by
  induction calls generalizing s dirs with
  | nil => exact ⟨rfl, dirs, h⟩
  | cons call calls ih =>
    obtain ⟨hMount, dirs', hStep⟩ := h.step hReliable hHeap (hCalls call List.mem_cons_self)
    obtain ⟨hMountRest, hRest⟩ := ih hStep (by rw [hMount]; exact hReliable)
      (by rw [hMount]; exact hHeap) fun c hc => hCalls c (List.mem_cons_of_mem _ hc)
    exact ⟨hMountRest.trans hMount, hRest⟩

end Runs

section Image

variable {inputs : List MkfsInput}

theorem rootEnts_inodes (ino : Nat) (inputs : List MkfsInput) :
    (rootEnts ino inputs).map KfsDirent.inode = List.range' ino inputs.length := by
  induction inputs generalizing ino with
  | nil => rfl
  | cons f inputs ih => rw [rootEnts, List.map_cons, ih, List.length_cons, List.range'_succ]

theorem MkfsVolume.catalogued {s : Volume} {records : List Record} (h : MkfsVolume inputs s records)
    (hOpens : ∀ f ∈ inputs, f.opens = true) :
    s.Catalogued fun d => if d = 0 then records else [] := by
  have hOnly : ∀ d, kindOf s.files d = some kfsTypeDir → d = 0 := by
    intro d hDir
    by_contra hd
    by_cases hStored : d ∈ (storedInputs 1 inputs).map Stored.ino
    · obtain ⟨e, he, rfl⟩ := List.mem_map.mp hStored
      rw [kindOf, h.stored e he] at hDir
      cases hDir
    · rw [kindOf, h.others d hd hStored] at hDir
      cases hDir
  have hEnts : ∀ r ∈ records, r.ent ∈ rootEnts 1 inputs := by
    intro r hr
    rw [← h.ents]
    exact List.mem_map_of_mem hr
  have hNames : ∀ r ∈ records, r.ent.reclen ≤ 264 ∧ r.isEntry = true := by
    intro r hr
    obtain ⟨_, ⟨f, hf, hName, hReclen⟩, _⟩ := mem_rootEnts (hEnts r hr)
    have hValid := MkfsInput.cstring_valid (hOpens f hf)
    have hLength : f.name.length ≤ 255 := hValid.length_le
    constructor
    · rw [hReclen, reclenOf_eq hLength]
      omega
    · have hDot : f.name ≠ dot := hValid.ne_dot
      have hDotDot : f.name ≠ dotDot := hValid.ne_dotDot
      simp [Record.isEntry, hName, hDot, hDotDot]
  refine ⟨h.consistent, ?_, ?_⟩
  · intro d file hFile hDir
    have hd := hOnly d (kindOf_eq_some.mpr ⟨file, hFile, hDir⟩)
    have hRoot := h.root
    rw [hd, hRoot, Option.some.injEq] at hFile
    dsimp only
    rw [if_pos hd, ← hFile]
  · constructor
    · intro d r hr
      have hMem := hr.mem
      rw [if_pos (hOnly d hr.dir)] at hMem
      obtain ⟨_, _, stored, hStored, hIno⟩ := mem_rootEnts (hEnts r hMem)
      rw [kindOf, ← hIno, h.stored stored hStored]
      exact .inl rfl
    · intro d r hr
      have hMem := hr.mem
      rw [if_pos (hOnly d hr.dir)] at hMem
      have hIno := (mem_rootEnts (hEnts r hMem)).1
      omega
    · intro d hDir
      rw [if_pos (hOnly d hDir)]
      have hNodup : (records.map fun r => r.ent.inode).Nodup := by
        have hAll : records.map (fun r => r.ent.inode) = List.range' 1 inputs.length := by
          rw [← rootEnts_inodes, ← h.ents, List.map_map]
          rfl
        rw [hAll]
        exact List.nodup_range'
      exact hNodup.sublist (List.filter_sublist.map _)
    · intro d r d' r' hr hr' _
      rw [hOnly d hr.dir, hOnly d' hr'.dir]
    · intro d hDir r hr
      rw [if_pos (hOnly d hDir)] at hr
      exact (hNames r hr).1
    · intro d hDir
      rw [if_pos (hOnly d hDir), List.filter_eq_nil_iff.mpr]
      · exact Nat.zero_le 2
      · intro r hr
        simp [(hNames r hr).2]

end Image

section Absent

variable {s : Volume} {d : Nat} {records : List Record} {name path : CString} {flags : Nat}

/-- The path leads to the directory `d` and then names `name`. -/
def NamesIn (s : Volume) (path : CString) (d : Nat) (name : CString) : Prop :=
  ∃ dir v, components path.bytes = dir ++ [name.bytes] ∧
    dir.foldlM s.tree.lookupIn s.tree.root = .ok (.kfs v) ∧ v.ino = d ∧ v.type = vnodeTypeDir

/-- An absent name is reported as missing exactly if the directory is not empty: for an
empty one a buffer of no bytes is asked for. -/
theorem lookup_absent_eq (hConsistent : s.Consistent True) (hReliable : s.mount.Reliable)
    (hHeap : s.mount.HeapServes) (hHolds : s.Holds d records)
    (hDots : ¬(name.bytes = dot ∨ name.bytes = dotDot))
    (hAbsent : ∀ q ∈ records, q.ent.name ≠ name.bytes) :
    kfsVnodeLookup s d name = .error (if records = [] then -enomem else -enoent) := by
  have hLength := hHolds.length_le hConsistent
  have hNone := @findDirent_none records _ rfl (by omega) name.bytes hAbsent
  have hOther : ¬(name.bytes = dot ∨ d = 0 ∧ name.bytes = dotDot) :=
    fun h => hDots (h.imp id And.right)
  rw [kfsVnodeLookup_file hConsistent hReliable hHeap hHolds, lookupFile, if_neg (not_not.mpr rfl),
    if_neg hOther]
  cases records with
  | nil => rfl
  | cons r records =>
    have hSome : ¬(encodeDir (r :: records)).length = 0 := encodeDir_ne_zero [] records r
    rw [if_neg hSome, if_neg (List.cons_ne_nil _ _)]
    rw [hNone]

theorem leadsTo_named (h : NamesIn s path d name) :
    leadsTo s path.bytes =
      if name.bytes.length ≥ 256 then .error (-enametoolong)
      else (kfsVnodeLookup s d name).map .kfs := by
  obtain ⟨dir, v, hSplit, hDir, rfl, hType⟩ := h
  have hName : CString.ofBytes name.bytes = name := CString.ext_bytes (bytes_ofBytes name.nul_free)
  rw [leadsTo, hSplit, List.foldlM_append, hDir]
  change List.foldlM s.tree.lookupIn (.kfs v) [name.bytes] = _
  rw [List.foldlM_cons]
  by_cases hLong : name.bytes.length ≥ 256
  · rw [if_pos hLong, Tree.lookupIn, if_pos hLong]
    rfl
  · rw [if_neg hLong, lookupIn_tree (by omega) (not_not.mpr hType), hName]
    cases kfsVnodeLookup s v.ino name <;> rfl

/-- A device is opened, unless the file was to be new. -/
theorem vfsOpen_device_iff (hHeap : s.mount.HeapServes) {node : Node}
    (hDevice : deviceNode s (path.bytes.dropWhile (· == slash)) = some node) :
    (∃ f s', vfsOpen s path flags = (.ok f, s')) ↔
      flags &&& (oCreat ||| oExcl) ≠ oCreat ||| oExcl := by
  have hNode : node.truncate s = (.ok (), s) ∧ node.type = vnodeTypeFile := by
    rw [deviceNode] at hDevice
    split at hDevice
    · cases hDevice
      exact ⟨rfl, rfl⟩
    · split at hDevice
      · cases hDevice
        exact ⟨rfl, rfl⟩
      · cases hDevice
  have hHandle : newHandle s node flags = .ok ⟨node, ⟨0, flags⟩⟩ := by
    rw [newHandle, if_neg fun h => h.1 hNode.2, if_pos (Volume.kmalloc_eq hHeap (by decide))]
  rw [vfsOpen, vfsResolvePath_device hDevice]
  dsimp only
  rw [openExisting]
  by_cases hExcl : flags &&& (oCreat ||| oExcl) = oCreat ||| oExcl
  · rw [if_pos hExcl]
    exact iff_of_false (by rintro ⟨_, _, hOk⟩; cases hOk) (not_not.mpr hExcl)
  · rw [if_neg hExcl, hNode.1]
    dsimp only
    rw [hHandle, ite_self]
    exact iff_of_true ⟨_, _, rfl⟩ hExcl

/-- When `vfs_open` with `O_CREAT` succeeds on a name that the directory does not have. -/
def Creatable (s : Volume) (path : CString) (flags : Nat) (records : List Record) (name : CString) :
    Prop :=
  match deviceNode s (path.bytes.dropWhile (· == slash)) with
  | some _ => flags &&& (oCreat ||| oExcl) ≠ oCreat ||| oExcl
  | none => records ≠ [] ∧ ¬Reserved name ∧ ∃ parent, vfsResolveParent s path = .ok (parent, name)

theorem vfsOpen_absent_iff (h : s.Catalogued dirs) (hReliable : s.mount.Reliable)
    (hHeap : s.mount.HeapServes) (hDir : kindOf s.files d = some kfsTypeDir)
    (hDots : ¬(name.bytes = dot ∨ name.bytes = dotDot))
    (hAbsent : ∀ q ∈ dirs d, q.ent.name ≠ name.bytes) (hNames : NamesIn s path d name)
    (hCreat : flags &&& oCreat ≠ 0) {i : Nat} (hLo : 0 < i) (hHi : i < 128)
    (hFree : s.files i = none) :
    (∃ f s', vfsOpen s path flags = (.ok f, s')) ↔ Creatable s path flags (dirs d) name := by
  rw [Creatable]
  cases hDevice : deviceNode s (path.bytes.dropWhile (· == slash)) with
  | some node => exact vfsOpen_device_iff hHeap hDevice
  | none =>
    have hLookup :=
      lookup_absent_eq h.consistent hReliable hHeap (h.browsable.holds hDir) hDots hAbsent
    have hPath : vfsResolvePath s path = .error (if name.bytes.length ≥ 256 then -enametoolong
        else if dirs d = [] then -enomem else -enoent) := by
      rw [vfsResolvePath_leadsTo hDevice, leadsTo_named hNames, hLookup]
      by_cases hLong : name.bytes.length ≥ 256
      · rw [if_pos hLong, if_pos hLong]
      · rw [if_neg hLong, if_neg hLong]
        rfl
    constructor
    · rintro ⟨f, s', hOpen⟩
      cases opened_of_vfsOpen hOpen with
      | plain hOk =>
        rw [hOk] at hPath
        cases hPath
      | emptied hOk =>
        rw [hOk] at hPath
        cases hPath
      | @created parent v name' hMissing hParent hName hRun hNode =>
        have hSame : name' = name := by
          obtain ⟨_, _, _, dir', hSplit', _⟩ :=
            vfsResolveParent_components hParent fun hDot => hName (.inl (.inl hDot))
          obtain ⟨dir, _, hSplit, _⟩ := hNames
          have hLast := List.append_inj_right' (hSplit'.symm.trans hSplit) rfl
          exact CString.ext_bytes (List.singleton_inj.mp hLast)
        refine ⟨fun hEmpty => ?_, hSame ▸ hName, parent, hSame ▸ hParent⟩
        rw [hMissing, if_pos hEmpty, Except.error.injEq] at hPath
        split at hPath <;> exact absurd hPath (by decide)
    · rintro ⟨hSome, hName, parent, hParent⟩
      obtain ⟨hType, hShort, _, dir', hSplit', hDir', _⟩ :=
        vfsResolveParent_components hParent fun hDot => hDots (.inl hDot)
      have hNonempty := @component_ne_nil path name.bytes (by rw [hSplit']; simp)
      have hValid : name.Valid :=
        ⟨fun hZero => hNonempty (List.length_eq_zero_iff.mp hZero), Nat.le_of_lt_succ hShort, hDots⟩
      have hParentIno : parent.ino = d := by
        obtain ⟨dir, v, hSplit, hFold, hIno, _⟩ := hNames
        have hEq := List.append_inj_left' (hSplit'.symm.trans hSplit) rfl
        rw [hEq, hFold] at hDir'
        cases hDir'
        exact hIno
      rw [if_neg (by omega), if_neg hSome] at hPath
      obtain ⟨v, hOk, hVnode, _⟩ := h.browsable.create_made hReliable hHeap hDir hValid hAbsent
        vnodeTypeFile hLo hHi hFree (h.roomFor hDir hValid)
      obtain ⟨hMount, _⟩ := h.create hReliable hHeap d name vnodeTypeFile
      rw [vfsOpen_of_missing hPath hCreat, openCreate_eq hParent hName, createHandle, hParentIno]
      generalize kfsVnodeCreate s d name vnodeTypeFile = result at hOk hMount
      obtain ⟨_, s'⟩ := result
      cases hOk
      refine ⟨⟨.kfs v, ⟨0, flags⟩⟩, s', ?_⟩
      dsimp only
      rw [newHandle_eq (by rw [hMount]; exact hHeap) (.inl hVnode)]

end Absent

section Samples

/-- One empty file `a`. -/
def emptyA : MkfsInput := ⟨[97], []⟩

/-- The image with that file. -/
def imageA : Bytes := (mkfs [emptyA]).toOption.getD (fun _ => 0)

theorem mkfs_imageA : mkfs [emptyA] = .ok imageA := by
  obtain ⟨img, hImg⟩ := @exists_image [emptyA] (by decide +kernel)
  rw [imageA, hImg]
  rfl

/-- The volume of that image. -/
def volumeA : Volume := (Device.ofImage imageA).mounted

/-- The root directory of that image has one record. -/
theorem volumeA_holds : ∃ r : Record, r.ent = ⟨1, 12, kfsTypeFile, [97]⟩ ∧ volumeA.Holds 0 [r] := by
  obtain ⟨_, records, hVolume⟩ :=
    mkfs_mounts mkfs_imageA (Device.ofImage_works imageA) (Device.ofImage_carries imageA)
  have hEnts : records.map Record.ent = [⟨1, 12, kfsTypeFile, [97]⟩] := hVolume.ents
  obtain ⟨r, rfl, hEnt⟩ := List.map_eq_singleton_iff.mp hEnts
  exact ⟨r, hEnt, hVolume.root⟩

end Samples

/-- In every volume that comes from an image by creations and removals, a directory is a
list of records, a name that none of them has is reported as missing exactly if there is
a record, and a path to such a name opens with `O_CREAT` exactly under the conditions of
`Creatable` while an inode is free. A block is always free. -/
theorem absent_name_iff {inputs : List MkfsInput} {img : Bytes} {dev : Device}
    (hRun : mkfs inputs = .ok img) (hWorks : dev.Works) (hImg : dev.Carries img)
    {calls : List KfsCall} (hCalls : ∀ call ∈ calls, call.OnDirectory) {s : Volume}
    (hState : s = calls.foldl kfsStep dev.mounted) {d : Nat}
    (hDir : kindOf s.files d = some kfsTypeDir) :
    kfsMount dev = .ok dev.mounted ∧ ∃ records, s.Holds d records ∧
      ∀ name : CString, ¬(name.bytes = dot ∨ name.bytes = dotDot) →
        (∀ q ∈ records, q.ent.name ≠ name.bytes) →
        (kfsVnodeLookup s d name = .error (-enoent) ↔ records ≠ []) ∧
        ∀ path flags, NamesIn s path d name → flags &&& oCreat ≠ 0 →
          (∃ i, 0 < i ∧ i < 128 ∧ s.files i = none) →
          ((∃ f s', vfsOpen s path flags = (.ok f, s')) ↔ Creatable s path flags records name) := by
  obtain ⟨hMounts, records, hVolume⟩ := mkfs_mounts hRun hWorks hImg
  have hReliable := Device.mounted_reliable hWorks
  have hHeap := Device.mounted_heapServes hWorks
  obtain ⟨hMount, dirs, hCatalogued⟩ :=
    (hVolume.catalogued (mkfs_laid hRun).2.1).run hReliable hHeap hCalls
  rw [← hState] at hMount hCatalogued
  rw [← hMount] at hReliable hHeap
  have hHolds := hCatalogued.browsable.holds hDir
  refine ⟨hMounts, dirs d, hHolds, fun name hDots hAbsent => ⟨?_, ?_⟩⟩
  · rw [lookup_absent_eq hCatalogued.consistent hReliable hHeap hHolds hDots hAbsent]
    by_cases hEmpty : dirs d = []
    · rw [if_pos hEmpty]
      exact iff_of_false (by decide) (not_not.mpr hEmpty)
    · rw [if_neg hEmpty]
      exact iff_of_true rfl hEmpty
  · rintro path flags hNames hCreat ⟨i, hLo, hHi, hFree⟩
    exact vfsOpen_absent_iff hCatalogued hReliable hHeap hDir hDots hAbsent hNames
      hCreat hLo hHi hFree

/-- In the root directory with the file `a`, the name `b` is missing and can be created. -/
theorem absent_name_imageA :
    ∃ img, mkfs [emptyA] = .ok img ∧
      kfsVnodeLookup (Device.ofImage img).mounted 0 (letter 98 (by decide)) = .error (-enoent) ∧
      ∃ f s', vfsOpen (Device.ofImage img).mounted (letter 98 (by decide)) oCreat =
        (.ok f, s') := by
  obtain ⟨r, hEnt, hRoot⟩ := volumeA_holds
  obtain ⟨_, records, hHolds, hAbsent⟩ := @absent_name_iff [emptyA] imageA (Device.ofImage imageA)
    mkfs_imageA (Device.ofImage_works imageA) (Device.ofImage_carries imageA) []
    (fun _ hCall => nomatch hCall) volumeA rfl 0 (by decide +kernel)
  have hRecords : records = [r] := by
    have hSame := hHolds.symm.trans hRoot
    rw [Option.some.injEq, File.mk.injEq] at hSame
    exact encodeDir_injective hSame.2
  rw [hRecords] at hAbsent
  obtain ⟨hLookup, hOpen⟩ := hAbsent (letter 98 (by decide)) (by decide) (by
    intro q hq
    rw [List.mem_singleton.mp hq, hEnt]
    decide)
  refine ⟨imageA, mkfs_imageA, hLookup.mpr (List.cons_ne_nil _ _),
    (hOpen _ oCreat ?_ (by decide) ?_).mpr ?_⟩
  · exact ⟨[], ⟨0, vnodeTypeDir⟩, rfl, by decide +kernel, rfl, rfl⟩
  · exact ⟨2, by decide, by decide, by decide +kernel⟩
  · refine ⟨List.cons_ne_nil _ _, ?_, ⟨0, vnodeTypeDir⟩, by decide +kernel⟩
    unfold Reserved
    decide

/-- The file `a`, the only one of the image, is removed. The lookup of `b` then asks for
a buffer of no bytes, and `vfs_open` does not create the file although an inode is free. -/
theorem absent_name_missed :
    ∃ img s, mkfs [emptyA] = .ok img ∧
      kfsMount (Device.ofImage img) = .ok (Device.ofImage img).mounted ∧
      s = [KfsCall.unlink 0 fileA].foldl kfsStep (Device.ofImage img).mounted ∧ s.Holds 0 [] ∧
      s.files 1 = none ∧ kfsVnodeLookup s 0 (letter 98 (by decide)) = .error (-enomem) ∧
      vfsOpen s (letter 98 (by decide)) oCreat = (.error (-enomem), s) := by
  have hMounts := (mkfs_mounts mkfs_imageA (Device.ofImage_works imageA)
    (Device.ofImage_carries imageA)).1
  have hPath :
      vfsResolvePath ([KfsCall.unlink 0 fileA].foldl kfsStep volumeA) (letter 98 (by decide)) =
      .error (-enomem) := by decide +kernel
  refine ⟨imageA, _, mkfs_imageA, hMounts, rfl, ?_, ?_, ?_, vfsOpen_of_error hPath (by decide)⟩
  · unfold Volume.Holds
    decide +kernel
  · decide +kernel
  · decide +kernel

end Kryos.Fs
