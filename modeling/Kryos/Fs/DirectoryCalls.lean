import Kryos.Fs.DirectoryCreate

/-! What the calls that change a directory come to, from the little that they rely on. -/
namespace Kryos.Fs

open Function

variable {s : Volume} {d : Nat} {dirs : Nat → List Record} {name : CString}

section NotDirectory

theorem Volume.files_of_live {ino : Nat} (hLive : s.live ino = true) :
    s.files ino = some ⟨(s.table ino).type, fileContent s.disk (s.table ino)⟩ :=
  Volume.files_eq_some.mpr ⟨hLive, rfl, rfl⟩

/-- What is not a directory is refused by the operations on directories. -/
theorem kfsReadInode_not_dir (hMounted : s.Mounted) (hReliable : s.mount.Reliable)
    (hNot : kindOf s.files d ≠ some kfsTypeDir) :
    (∃ err, err ≠ -eio ∧ kfsReadInode s d = .error err) ∨
      kfsReadInode s d = .ok (s.table d) ∧ (s.table d).type ≠ kfsTypeDir := by
  cases hLive : s.live d with
  | false => exact .inl (kfsReadInode_dead hMounted hLive)
  | true =>
    refine .inr ⟨kfsReadInode_eq hMounted hReliable hLive, fun hType => hNot ?_⟩
    simp [kindOf, Volume.files, hLive, hType]

theorem findTarget_not_dir (hMounted : s.Mounted) (hReliable : s.mount.Reliable)
    (hNot : kindOf s.files d ≠ some kfsTypeDir) :
    ∃ err, err ≠ -eio ∧ findTarget s d name = .error err := by
  rw [findTarget]
  split
  · exact ⟨_, by decide, rfl⟩
  · rcases kfsReadInode_not_dir hMounted hReliable hNot with ⟨err, hNe, hErr⟩ | ⟨hRead, hType⟩
    · rw [hErr]
      exact ⟨_, hNe, rfl⟩
    · rw [hRead]
      exact ⟨-enotdir, by decide, if_pos hType⟩

theorem kfsVnodeCreate_not_dir (hMounted : s.Mounted) (hReliable : s.mount.Reliable)
    (hNot : kindOf s.files d ≠ some kfsTypeDir) (type : Nat) :
    ∃ err, err ≠ -eio ∧ kfsVnodeCreate s d name type = (.error err, s) := by
  rw [kfsVnodeCreate]
  rcases kfsReadInode_not_dir hMounted hReliable hNot with ⟨err, hNe, hErr⟩ | ⟨hRead, hType⟩
  · rw [hErr]
    exact ⟨_, hNe, rfl⟩
  · rw [hRead]
    exact ⟨-enotdir, by decide, if_pos hType⟩

end NotDirectory

/-- What the calls on directories rely on: blocks are in order, directories are made of
records, and an entry names a file or a directory other than the root. -/
structure Volume.Browsable (s : Volume) (dirs : Nat → List Record) : Prop where
  consistent : s.Consistent True
  content : ∀ d file, s.files d = some file → file.type = kfsTypeDir →
    file.content = encodeDir (dirs d)
  kinds : ∀ d r, EntryOf (kindOf s.files) dirs d r →
    kindOf s.files r.ent.inode = some kfsTypeFile ∨ kindOf s.files r.ent.inode = some kfsTypeDir
  rootless : ∀ d r, EntryOf (kindOf s.files) dirs d r → r.ent.inode ≠ 0

theorem Volume.Browsable.holds (h : s.Browsable dirs) (hDir : kindOf s.files d = some kfsTypeDir) :
    s.Holds d (dirs d) := by
  obtain ⟨file, hFile, hType⟩ := kindOf_eq_some.mp hDir
  have hContent := h.content d file hFile hType
  cases file with
  | mk type content =>
    simp only at hType hContent
    rw [Volume.Holds, hFile, hType, hContent]

section Remove

/-- What unlink and rmdir come to. -/
inductive Removal (s : Volume) (dirs : Nat → List Record) (d : Nat) (name : CString) :
    Except Int Unit × Volume → Prop where
  | refused {err : Int} (hErr : err ≠ -eio) : Removal s dirs d name (.error err, s)
  | gone {s' : Volume} {r : Record} {before after : List Record}
      (hEntry : EntryOf (kindOf s.files) dirs d r) (hName : r.ent.name = name.bytes)
      (hDirs : dirs d = before ++ r :: after) (hBefore : ∀ q ∈ before, q.ent.name ≠ r.ent.name)
      (hEmpty : kindOf s.files r.ent.inode = some kfsTypeDir →
        ∀ q ∈ dirs r.ent.inode, q.isEntry = false)
      (hConsistent : s'.Consistent True) (hFrame : s.Frame s' [r.ent.inode, d])
      (hFiles : s'.files = update (update s.files r.ent.inode none) d
        (some ⟨kfsTypeDir, encodeDir (before ++ after)⟩)) :
      Removal s dirs d name (.ok (), s')

/-- A name other than the dots is either the name of an entry or not there at all. -/
theorem name_cases (hDir : kindOf s.files d = some kfsTypeDir)
    (hDots : ¬(name.bytes = dot ∨ name.bytes = dotDot)) :
    (∀ q ∈ dirs d, q.ent.name ≠ name.bytes) ∨
      ∃ before r after, dirs d = before ++ r :: after ∧ r.ent.name = name.bytes ∧
        (∀ q ∈ before, q.ent.name ≠ r.ent.name) ∧ EntryOf (kindOf s.files) dirs d r := by
  by_cases hSome : ∃ q ∈ dirs d, q.ent.name = name.bytes
  · right
    obtain ⟨before, r, after, hSplit, hName, hBefore⟩ := exists_first hSome
    refine ⟨before, r, after, hSplit, hName, by rw [hName]; exact hBefore, hDir, ?_, ?_⟩
    · rw [hSplit]
      simp
    · rw [not_or] at hDots
      simp [Record.isEntry, hName, hDots]
  · left
    intro q hq hEq
    exact hSome ⟨q, hq, hEq⟩

theorem Volume.Browsable.lookup_cases (h : s.Browsable dirs) (hReliable : s.mount.Reliable)
    (hHeap : s.mount.HeapServes) (hDir : kindOf s.files d = some kfsTypeDir)
    (hDots : ¬(name.bytes = dot ∨ name.bytes = dotDot)) :
    (∀ q ∈ dirs d, q.ent.name ≠ name.bytes) ∧ (∃ err, kfsVnodeLookup s d name = .error err) ∨
      ∃ before r after, dirs d = before ++ r :: after ∧ r.ent.name = name.bytes ∧
        (∀ q ∈ before, q.ent.name ≠ r.ent.name) ∧ EntryOf (kindOf s.files) dirs d r ∧
        kfsVnodeLookup s d name = .ok ⟨r.ent.inode, vnodeTypeOf r.ent.type⟩ := by
  have hHolds := h.holds hDir
  have hDot : name.bytes ≠ dot := fun hEq => hDots (.inl hEq)
  have hDotDot : ¬(d = 0 ∧ name.bytes = dotDot) := fun hBoth => hDots (.inr hBoth.2)
  rcases @name_cases s d dirs name hDir hDots with hAbsent |
    ⟨before, r, after, hSplit, hName, hBefore, hEntry⟩
  · exact .inl ⟨hAbsent, kfsVnodeLookup_absent h.consistent hReliable hHolds hAbsent hDot hDotDot⟩
  · rw [hSplit] at hHolds
    exact .inr ⟨before, r, after, hSplit, hName, hBefore, hEntry,
      kfsVnodeLookup_present h.consistent hReliable hHeap hHolds hBefore hName hDot hDotDot⟩

/-- Unlink and rmdir give up before they change anything, or find an entry of that name. -/
theorem Volume.Browsable.findTarget_cases (h : s.Browsable dirs) (hReliable : s.mount.Reliable)
    (hHeap : s.mount.HeapServes) (d : Nat) (name : CString) :
    (∃ err, err ≠ -eio ∧ findTarget s d name = .error err) ∨
      ∃ before r after, dirs d = before ++ r :: after ∧ r.ent.name = name.bytes ∧
        (∀ q ∈ before, q.ent.name ≠ r.ent.name) ∧ EntryOf (kindOf s.files) dirs d r ∧
        s.Holds d (before ++ r :: after) := by
  by_cases hDots : name.bytes = dot ∨ name.bytes = dotDot
  · exact .inl ⟨_, by decide, if_pos hDots⟩
  by_cases hDir : kindOf s.files d = some kfsTypeDir
  · have hHolds := h.holds hDir
    rcases @name_cases s d dirs name hDir hDots with hAbsent |
      ⟨before, r, after, hSplit, hName, hBefore, hEntry⟩
    · exact .inl ⟨_, by decide,
        findTarget_absent h.consistent hReliable hHeap hHolds hAbsent hDots⟩
    · exact .inr ⟨before, r, after, hSplit, hName, hBefore, hEntry, hSplit ▸ hHolds⟩
  · exact .inl (findTarget_not_dir h.consistent.mounted hReliable hDir)

theorem Volume.Browsable.unlink (h : s.Browsable dirs) (hReliable : s.mount.Reliable)
    (hHeap : s.mount.HeapServes) (d : Nat) (name : CString) :
    Removal s dirs d name (kfsVnodeUnlink s d name) := by
  rcases h.findTarget_cases hReliable hHeap d name with ⟨err, hNe, hErr⟩ |
    ⟨before, r, after, hSplit, hName, hBefore, hEntry, hHolds⟩
  · rw [kfsVnodeUnlink, hErr]
    exact .refused hNe
  rcases h.kinds d r hEntry with hFile | hSubdir
  · obtain ⟨s', hRun, hConsistent, hFrame, hFiles⟩ :=
      kfsVnodeUnlink_file h.consistent hReliable hHeap hHolds hBefore hName hEntry.entry hFile
        (h.rootless d r hEntry)
    rw [hRun]
    refine .gone hEntry hName hSplit hBefore (fun hSubdir => ?_) hConsistent hFrame hFiles
    rw [hFile] at hSubdir
    cases hSubdir
  · rw [kfsVnodeUnlink_dir h.consistent hReliable hHeap hHolds hBefore hName hEntry.entry hSubdir]
    exact .refused (by decide)

theorem Volume.Browsable.rmdir (h : s.Browsable dirs) (hReliable : s.mount.Reliable)
    (hHeap : s.mount.HeapServes) (d : Nat) (name : CString) :
    Removal s dirs d name (kfsVnodeRmdir s d name) := by
  rcases h.findTarget_cases hReliable hHeap d name with ⟨err, hNe, hErr⟩ |
    ⟨before, r, after, hSplit, hName, hBefore, hEntry, hHolds⟩
  · rw [kfsVnodeRmdir, hErr]
    exact .refused hNe
  rcases h.kinds d r hEntry with hFile | hSubdir
  · rw [kfsVnodeRmdir_file h.consistent hReliable hHeap hHolds hBefore hName hEntry.entry hFile]
    exact .refused (by decide)
  have hTarget := h.holds hSubdir
  by_cases hSome : ∃ q ∈ dirs r.ent.inode, q.isEntry = true
  · rw [kfsVnodeRmdir_nonempty h.consistent hReliable hHeap hHolds hBefore hName hEntry.entry
      hTarget hSome]
    exact .refused (by decide)
  · have hEmpty : ∀ q ∈ dirs r.ent.inode, q.isEntry = false := fun q hq =>
      Bool.eq_false_iff.mpr (fun hTrue => hSome ⟨q, hq, hTrue⟩)
    obtain ⟨s', hRun, hConsistent, hFrame, hFiles⟩ :=
      kfsVnodeRmdir_empty h.consistent hReliable hHeap hHolds hBefore hName hEntry.entry
        hTarget hEmpty (h.rootless d r hEntry)
    rw [hRun]
    exact .gone hEntry hName hSplit hBefore (fun _ => hEmpty) hConsistent hFrame hFiles

end Remove

section Create

/-- The record of a new name is either written whole, or the directory has the largest
size already and the creation fails. -/
def RoomFor (s : Volume) (d : Nat) (name : CString) : Prop :=
  (s.table d).size + reclenOf name.bytes.length ≤ 138 * 512 ∨ (s.table d).size = 138 * 512

instance (s : Volume) (d : Nat) (name : CString) : Decidable (RoomFor s d name) :=
  inferInstanceAs (Decidable (_ ∨ _))

/-- What a creation comes to. -/
inductive Creation (s : Volume) (dirs : Nat → List Record) (d : Nat) (name : CString) (type : Nat) :
    Except Int Vnode × Volume → Prop where
  | refused {s' : Volume} {err : Int} (hErr : err ≠ -eio) (hConsistent : s'.Consistent True)
      (hFrame : s.Frame s' []) (hFiles : s'.files = s.files) :
      Creation s dirs d name type (.error err, s')
  | existing {r : Record} (hType : type ≠ vnodeTypeDir) (hEntry : EntryOf (kindOf s.files) dirs d r)
      (hName : r.ent.name = name.bytes) :
      Creation s dirs d name type (.ok ⟨r.ent.inode, vnodeTypeOf r.ent.type⟩, s)
  | made {s' : Volume} {n : Nat} (hValid : name.Valid) (hInode : n < 128) (hParent : d < 128)
      (hRoot : n ≠ 0) (hDir : kindOf s.files d = some kfsTypeDir)
      (hFirst : firstClear s.inodeBitmap 1 128 = some n) (hFree : s.files n = none)
      (hFresh : ∀ q ∈ dirs d, q.ent.name ≠ name.bytes)
      (hConsistent : s'.Consistent True) (hFrame : s.Frame s' [n, d])
      (hFiles : s'.files = update
        (update s.files n (some ⟨kfsTypeFor type, newContent (kfsTypeFor type) n d⟩)) d
        (some ⟨kfsTypeDir, encodeDir (dirs d ++ [newRecord n type name hValid hInode])⟩)) :
      Creation s dirs d name type (.ok ⟨n, vnodeTypeOf (kfsTypeFor type)⟩, s')

theorem newDots_spec {n : Nat} (hInode : n < 128) (hDir : d < 128) :
    NewDots n d (dotRecord n dot hInode (by decide) (by decide))
      (dotRecord d dotDot hDir (by decide) (by decide)) := by
  constructor
  · rw [dotRecord_ent]
    exact ⟨rfl, rfl, rfl⟩
  · rw [dotRecord_ent]
    exact ⟨rfl, rfl, rfl⟩

theorem newContent_dots {n ty : Nat} (hInode : n < 128) (hDir : d < 128) (hType : ty = kfsTypeDir) :
    newContent ty n d = encodeDir (newDots n d hInode hDir) := by
  rw [newContent, if_pos hType, encodeDir_newDots]

/-- The record of a creation goes in whole where there is room for it. -/
theorem Created.creation {type : Nat} {result : Except Int Vnode × Volume} (h : s.Browsable dirs)
    (hCreated : Created 32768 s d (dirs d) name type result)
    (hDir : kindOf s.files d = some kfsTypeDir) (hValid : name.Valid) (hRoom : RoomFor s d name)
    (hFresh : ∀ q ∈ dirs d, q.ent.name ≠ name.bytes) : Creation s dirs d name type result := by
  have hHolds := h.holds hDir
  cases hCreated with
  | noInode _ => exact .refused (by decide) h.consistent (Volume.Frame.refl s []) rfl
  | full _ hConsistent hFrame hFiles => exact .refused (by decide) hConsistent hFrame hFiles
  | @made n s' hFirst hRoot hInode hFree hInside hConsistent hFrame hFiles =>
    have hLength : (direntRecord n (reclenOf name.bytes.length) (kfsTypeFor type)
        name.bytes).length = reclenOf name.bytes.length := by
      rw [length_direntRecord]
      rw [reclenOf_eq hValid.length_le]
      omega
    have hWhole : (direntRecord n (reclenOf name.bytes.length) (kfsTypeFor type)
        name.bytes).take (138 * 512 - (encodeDir (dirs d)).length) =
          (newRecord n type name hValid hInode).bytes := by
      apply List.take_of_length_le
      rw [RoomFor, hHolds.size] at hRoom
      omega
    have hBytes : encodeDir (dirs d) ++ (newRecord n type name hValid hInode).bytes =
        encodeDir (dirs d ++ [newRecord n type name hValid hInode]) := by
      rw [encodeDir_append, encodeDir_cons, encodeDir_nil, List.append_nil]
    rw [hWhole, hBytes] at hFiles
    exact .made hValid hInode (Volume.live_lt hHolds.live) (by omega) hDir hFirst hFree hFresh
      hConsistent hFrame hFiles

section

variable (h : s.Browsable dirs) (hReliable : s.mount.Reliable) (hHeap : s.mount.HeapServes)

include h hReliable hHeap

theorem Volume.Browsable.create_of_room (d : Nat) (name : CString) (type : Nat)
    (hRoom : kindOf s.files d = some kfsTypeDir → name.Valid → RoomFor s d name) :
    Creation s dirs d name type (kfsVnodeCreate s d name type) := by
  by_cases hDir : kindOf s.files d = some kfsTypeDir
  · have hHolds := h.holds hDir
    by_cases hValid : name.Valid
    · rcases @name_cases s d dirs name hDir hValid.ne_dots with hAbsent | hPresent
      · have hCreated := kfsVnodeCreate_new h.consistent hReliable hHeap hHolds hValid
          (le_trans (by decide) h.consistent.room) hAbsent type
        exact hCreated.creation h hDir hValid (hRoom hDir hValid) hAbsent
      · obtain ⟨before, r, after, hSplit, hName, hBefore, hEntry⟩ := hPresent
        rw [hSplit] at hHolds
        rw [kfsVnodeCreate_existing h.consistent hReliable hHeap hHolds hBefore hName hValid]
        split
        · exact .refused (by decide) h.consistent (Volume.Frame.refl s []) rfl
        · rename_i hType
          exact .existing hType hEntry hName
    · obtain ⟨err, hNe, hErr⟩ := kfsVnodeCreate_invalid h.consistent hReliable hHolds hValid type
      rw [hErr]
      exact .refused hNe h.consistent (Volume.Frame.refl s []) rfl
  · obtain ⟨err, hNe, hErr⟩ :=
      @kfsVnodeCreate_not_dir s d name h.consistent.mounted hReliable hDir type
    rw [hErr]
    exact .refused hNe h.consistent (Volume.Frame.refl s []) rfl

theorem Volume.Browsable.create (d : Nat) (name : CString) (type : Nat) (hRoom : RoomFor s d name) :
    Creation s dirs d name type (kfsVnodeCreate s d name type) :=
  h.create_of_room hReliable hHeap d name type fun _ _ => hRoom

theorem Volume.Browsable.create_made (hDir : kindOf s.files d = some kfsTypeDir)
    (hValid : name.Valid) (hFresh : ∀ q ∈ dirs d, q.ent.name ≠ name.bytes) (type : Nat) {i : Nat}
    (hLo : 0 < i) (hHi : i < 128) (hInode : s.files i = none)
    (hRoom : (encodeDir (dirs d)).length + reclenOf name.bytes.length ≤ 138 * 512) :
    ∃ v, (kfsVnodeCreate s d name type).1 = .ok v ∧ v.type = vnodeTypeOf (kfsTypeFor type) ∧
      Creation s dirs d name type (kfsVnodeCreate s d name type) := by
  have hHolds := h.holds hDir
  have hCreated := kfsVnodeCreate_new h.consistent hReliable hHeap hHolds hValid
    (le_trans (by decide) h.consistent.room) hFresh type
  have hFits : RoomFor s d name := .inl (by rw [hHolds.size]; exact hRoom)
  have hCreation := hCreated.creation h hDir hValid hFits hFresh
  generalize kfsVnodeCreate s d name type = result at hCreated hCreation
  cases hCreated with
  | noInode hNone =>
    rw [Volume.files_of_live (hNone i hLo hHi)] at hInode
    cases hInode
  | full hFull =>
    have hMin := reclenOf_eq hValid.length_le
    omega
  | made => exact ⟨_, rfl, rfl, hCreation⟩

end

end Create

end Kryos.Fs
