import Kryos.Fs.PathResolution
import Kryos.Fs.VfsRun

/-! Slashes behind names: what they ask of a path, and what the calls make of them. -/
namespace Kryos.Fs

open Segments

variable {rest front : List UInt8} {node : Node} {parent v : Vnode} {name : CString}

variable {s : Volume} {path : CString} {flags : Nat}

/-- The vnode that a text leads to from the root, component by component. -/
def leadsTo (s : Volume) (p : List UInt8) : Except Int Node :=
  (components p).foldlM s.tree.lookupIn s.tree.root

/-- A component of the path names a regular file, and a slash follows it. -/
def FileThenSlash (s : Volume) (path : CString) : Prop :=
  ∃ front rest v, path.bytes = front ++ slash :: rest ∧ leadsTo s front = .ok (.kfs v) ∧
    v.type = vnodeTypeFile

/-- `O_CREAT` is given, the last component is not there yet, and a slash follows it. Only
more slashes and `.` stand behind that. -/
def CreatedThenSlash (s : Volume) (path : CString) (flags : Nat) : Prop :=
  flags &&& oCreat ≠ 0 ∧ ∃ front rest dir name parent, path.bytes = front ++ slash :: rest ∧
    components rest = [] ∧ components front = dir ++ [name] ∧
    dir.foldlM s.tree.lookupIn s.tree.root = .ok parent ∧
    s.tree.lookupIn parent name = .error (-enoent)

/-- The call fails, and no file is created, emptied or removed. -/
def Refused {α : Type} (s : Volume) (result : Except Int α × Volume) : Prop :=
  (∃ err, result.1 = .error err) ∧ result.2.files = s.files

/-- A slash behind a regular file, or behind a name that `vfs_open` is to create, is
refused by every call. -/
def SlashRefused (s : Volume) (path : CString) (flags : Nat) : Prop :=
  FileThenSlash s path ∨ CreatedThenSlash s path flags →
    (∃ err, vfsResolvePath s path = .error err) ∧ Refused s (vfsOpen s path flags) ∧
      Refused s (vfsUnlink s path)

theorem refused_error {α : Type} (err : Int) : @Refused α s (.error err, s) :=
  ⟨⟨err, rfl⟩, rfl⟩

section Paths

theorem components_append_cons (front rest : List UInt8) :
    components (front ++ slash :: rest) = components front ++ components rest := by
  rw [components, segments_append_cons, List.filter_append]
  rfl

theorem components_concat (front : List UInt8) :
    components (front ++ [slash]) = components front := by
  rw [components_append_cons, components_nil, List.append_nil]

theorem component_ne_nil {comp : List UInt8} (h : comp ∈ components path.bytes) : comp ≠ [] := by
  obtain ⟨hMem, _⟩ := List.mem_filter.mp h
  obtain ⟨_, hSome⟩ := List.mem_filter.mp hMem
  simpa using hSome

/-- A text without components behind a slash ends in a slash or in `/.`. -/
theorem ends_of_no_components (h : components rest = []) :
    (slash :: rest).getLast? = some slash ∨ [slash, 46] <:+ slash :: rest := by
  induction hLength : rest.length using Nat.strong_induction_on generalizing rest with
  | _ n ih =>
    have hWhole := List.takeWhile_append_dropWhile (p := (· != slash)) (l := rest)
    have hHead := @List.head_dropWhile_not _ (· != slash) rest
    rw [components_split, components_dropWhile, List.append_eq_nil_iff] at h
    obtain ⟨hFirst, hRest⟩ := h
    have hComp : rest.takeWhile (· != slash) = [] ∨ rest.takeWhile (· != slash) = dot := by
      by_contra hNot
      rw [if_neg hNot] at hFirst
      cases hFirst
    generalize rest.takeWhile (· != slash) = comp at hWhole hComp
    cases hTail : rest.dropWhile (· != slash) with
    | nil =>
      rw [hTail, List.append_nil] at hWhole
      rcases hComp with rfl | rfl
      · exact .inl (by rw [← hWhole]; rfl)
      · exact .inr (by rw [← hWhole]; exact List.suffix_rfl)
    | cons c tail =>
      have hc :
          c = slash := by simpa [hTail] using hHead (by rw [hTail]; exact List.cons_ne_nil _ _)
      subst hc
      rw [hTail] at hWhole hRest
      have hRest' : components tail = [] := by
        rwa [← List.nil_append (slash :: tail), components_append_cons] at hRest
      have hShorter : tail.length < n := by
        rw [← hLength, ← hWhole, List.length_append, List.length_cons]
        omega
      have hSuffix : slash :: tail <:+ slash :: rest := ⟨slash :: comp, by rw [← hWhole]; rfl⟩
      rcases ih tail.length hShorter hRest' rfl with hSlash | hDot
      · left
        rw [← hSlash, ← hWhole, ← List.cons_append, List.getLast?_append_cons]
      · exact .inr (hDot.trans hSuffix)

theorem getLast?_dropWhile {l : List UInt8} (h : l.dropWhile (· == slash) ≠ []) :
    (l.dropWhile (· == slash)).getLast? = l.getLast? := by
  have hWhole := List.takeWhile_append_dropWhile (p := (· == slash)) (l := l)
  obtain ⟨c, p, hp⟩ := List.exists_cons_of_ne_nil h
  rw [← hWhole, hp, List.getLast?_append_cons]
  rw [hp] at hWhole
  rw [hWhole, hp]

/-- The path of a device ends in a digit or a letter. -/
theorem device_last {p : List UInt8} (h : deviceNode s p = some node) :
    ∃ c, p.getLast? = some c ∧ c ≠ slash ∧ c ≠ 46 := by
  rw [deviceNode] at h
  split at h
  case isTrue hTty =>
    obtain ⟨_, hLength, hLow, _⟩ := hTty
    refine ⟨p.getD 7 0, ?_, ?_, ?_⟩
    · rw [List.getLast?_eq_getElem?, hLength, List.getElem?_eq_getElem (by omega),
        List.getD_eq_getElem _ _ (by omega)]
    · rintro hEq
      rw [hEq] at hLow
      exact absurd hLow (by decide)
    · rintro hEq
      rw [hEq] at hLow
      exact absurd hLow (by decide)
  · split at h
    case isTrue hHda =>
      rw [hHda.1]
      exact ⟨97, rfl, by decide, by decide⟩
    · cases h

/-- So a path that ends in a slash or a dot is looked up in the tree. -/
theorem deviceNode_of_last (h : path.bytes.getLast? = some slash ∨ path.bytes.getLast? = some 46) :
    deviceNode s (path.bytes.dropWhile (· == slash)) = none := by
  cases hDevice : deviceNode s (path.bytes.dropWhile (· == slash)) with
  | none => rfl
  | some node =>
    obtain ⟨c, hLast, hSlash, hDot⟩ := device_last hDevice
    rw [getLast?_dropWhile fun hNil => by rw [hNil] at hLast; cases hLast] at hLast
    rw [hLast, Option.some.injEq, Option.some.injEq] at h
    exact (h.elim hSlash hDot).elim

theorem vfsResolvePath_device
    (hDevice : deviceNode s (path.bytes.dropWhile (· == slash)) = some node) :
    vfsResolvePath s path = .ok node := by
  have hSome : path.bytes.dropWhile (· == slash) ≠ [] := fun hNil => by
    rw [hNil] at hDevice
    cases hDevice
  rw [vfsResolvePath, if_neg hSome, hDevice]

theorem vfsResolvePath_leadsTo (hDevice : deviceNode s (path.bytes.dropWhile (· == slash)) = none) :
    vfsResolvePath s path =
      match leadsTo s path.bytes with
      | .error err => .error err
      | .ok node =>
        if path.bytes.getLast? = some slash ∧ node.type ≠ vnodeTypeDir then .error (-enotdir)
        else .ok node := by
  rw [vfsResolvePath_tree, Tree.vfsResolvePath_of_no_device (by rw [device_tree]; exact hDevice),
    Tree.resolve, leadsTo]
  cases (components path.bytes).foldlM s.tree.lookupIn s.tree.root <;> rfl

/-- A component behind a regular file is refused, but not as a missing one. -/
theorem lookupIn_file {v : Vnode} (hFile : v.type = vnodeTypeFile) (comp : List UInt8) :
    ∃ err, err ≠ -enoent ∧ s.tree.lookupIn (.kfs v) comp = .error err := by
  have hType : s.tree.type (.kfs v) ≠ vnodeTypeDir := fun hDir => by
    have hEq : vnodeTypeFile = vnodeTypeDir := hFile.symm.trans hDir
    cases hEq
  by_cases hLong : comp.length ≥ 256
  · exact ⟨-enametoolong, by decide, by rw [Tree.lookupIn, if_pos hLong]⟩
  · exact ⟨-enotdir, by decide, Tree.lookupIn_of_file (Nat.lt_of_not_le hLong) hType⟩

theorem foldlM_file {v : Vnode} (hFile : v.type = vnodeTypeFile) {comps : List (List UInt8)}
    (hSome : comps ≠ []) :
    ∃ err, err ≠ -enoent ∧ comps.foldlM s.tree.lookupIn (.kfs v) = .error err := by
  obtain ⟨comp, comps, rfl⟩ := List.exists_cons_of_ne_nil hSome
  obtain ⟨err, hNe, hErr⟩ := @lookupIn_file s v hFile comp
  refine ⟨err, hNe, ?_⟩
  rw [List.foldlM_cons, hErr]
  rfl

theorem leadsTo_append_cons (hFront : leadsTo s front = .ok node) :
    leadsTo s (front ++ slash :: rest) = (components rest).foldlM s.tree.lookupIn node := by
  rw [leadsTo, components_append_cons, List.foldlM_append]
  rw [leadsTo] at hFront
  rw [hFront]
  rfl

end Paths

section Parent

/-- The directory and the name that `vfs_resolve_parent` finds are those of the
components. -/
theorem vfsResolveParent_components (h : vfsResolveParent s path = .ok (parent, name))
    (hDot : name.bytes ≠ dot) :
    parent.type = vnodeTypeDir ∧ name.bytes.length < 256 ∧
      (segments slash path.bytes).getLast? = some name.bytes ∧
        ∃ dir, components path.bytes = dir ++ [name.bytes] ∧
        dir.foldlM s.tree.lookupIn s.tree.root = .ok (.kfs parent) ∧
        s.tree.lookupIn (.kfs parent) name.bytes = (kfsVnodeLookup s parent.ino name).map .kfs := by
  have hTree : s.tree.vfsResolveParent path = .ok (.kfs parent, name) := by
    rw [vfsResolveParent_tree, h]
    rfl
  have hDevices : ∀ p v, s.tree.device p = some v → s.tree.type v ≠ vnodeTypeDir := by
    intro p v hDevice
    have hFile : vnodeTypeFile ≠ vnodeTypeDir := by decide
    rw [device_tree, deviceNode] at hDevice
    split at hDevice
    · cases hDevice
      exact hFile
    · split at hDevice
      · cases hDevice
        exact hFile
      · cases hDevice
  obtain ⟨front, text, hSplit, hNul, hShort, hParent⟩ := Tree.vfsResolveParent_ok hDevices hTree
  obtain ⟨hFront, hType, rfl⟩ := Tree.parentOf_eq_ok hParent
  have hBytes := bytes_ofBytes hNul
  rw [hBytes] at hDot
  refine ⟨hType, by rwa [hBytes], by rw [hSplit, hBytes, List.getLast?_concat], _, ?_, hFront, ?_⟩
  · rw [components, hSplit, List.filter_append, hBytes]
    simp [hDot]
  · rw [hBytes]
    exact lookupIn_tree (by omega) (not_not.mpr hType)

/-- What the path leads to is what the lookup of the name answers. -/
theorem leadsTo_of_parent (h : vfsResolveParent s path = .ok (parent, name))
    (hDot : name.bytes ≠ dot) :
    leadsTo s path.bytes = (kfsVnodeLookup s parent.ino name).map .kfs := by
  obtain ⟨_, _, _, dir, hComponents, hDir, hLookup⟩ := vfsResolveParent_components h hDot
  rw [leadsTo, hComponents, List.foldlM_append, hDir]
  change List.foldlM s.tree.lookupIn (.kfs parent) [name.bytes] = _
  rw [List.foldlM_cons, hLookup]
  cases kfsVnodeLookup s parent.ino name <;> rfl

end Parent

section Calls

variable {parent : Vnode} {name : CString}

/-- The end of `vfs_open` for a new name: the file is created and opened. -/
def createHandle (s : Volume) (parent : Vnode) (name : CString) (flags : Nat) :
    Except Int Handle × Volume :=
  match kfsVnodeCreate s parent.ino name vnodeTypeFile with
  | (.error err, s) => (.error err, s)
  | (.ok v, s) => (newHandle s (.kfs v) flags, s)

/-- The names that `vfs_open` does not create. -/
def Reserved (name : CString) : Prop :=
  (name.bytes = dot ∨ name.bytes = dotDot) ∨
    (devName ++ [slash]).isPrefixOf name.bytes ∨ name.bytes = devName

theorem openCreate_eq (hParent : vfsResolveParent s path = .ok (parent, name))
    (hName : ¬Reserved name) : openCreate s path flags = createHandle s parent name flags := by
  rw [Reserved, not_or] at hName
  rw [openCreate, hParent]
  dsimp only
  rw [if_neg hName.1, if_neg hName.2]
  rfl

theorem openCreate_cases (s : Volume) (path : CString) (flags : Nat) :
    (∃ err, openCreate s path flags = (.error err, s)) ∨
      ∃ parent name, vfsResolveParent s path = .ok (parent, name) ∧ ¬Reserved name := by
  cases hParent : vfsResolveParent s path with
  | error err => exact .inl ⟨err, by rw [openCreate, hParent]⟩
  | ok found =>
    obtain ⟨parent, name⟩ := found
    by_cases hDots : name.bytes = dot ∨ name.bytes = dotDot
    · exact .inl ⟨-einval, by rw [openCreate, hParent]; exact if_pos hDots⟩
    by_cases hDev : (devName ++ [slash]).isPrefixOf name.bytes ∨ name.bytes = devName
    · refine .inl ⟨-eacces, ?_⟩
      rw [openCreate, hParent]
      exact (if_neg hDots).trans (if_pos hDev)
    · exact .inr ⟨parent, name, rfl, fun h => h.elim hDots hDev⟩

theorem vfsUnlink_eq (hParent : vfsResolveParent s path = .ok (parent, name))
    (hDots : ¬(name.bytes = dot ∨ name.bytes = dotDot)) :
    vfsUnlink s path = kfsVnodeUnlink s parent.ino name := by
  rw [vfsUnlink, hParent]
  exact if_neg hDots

theorem vfsUnlink_cases (s : Volume) (path : CString) :
    (∃ err, vfsUnlink s path = (.error err, s)) ∨
      ∃ parent name, vfsResolveParent s path = .ok (parent, name) ∧
        ¬(name.bytes = dot ∨ name.bytes = dotDot) := by
  cases hParent : vfsResolveParent s path with
  | error err => exact .inl ⟨err, by rw [vfsUnlink, hParent]⟩
  | ok found =>
    obtain ⟨parent, name⟩ := found
    by_cases hDots : name.bytes = dot ∨ name.bytes = dotDot
    · exact .inl ⟨-einval, by rw [vfsUnlink, hParent]; exact if_pos hDots⟩
    · exact .inr ⟨parent, name, rfl, hDots⟩

theorem vfsOpen_of_error {err : Int} (hPath : vfsResolvePath s path = .error err)
    (hNe : err ≠ -enoent) : vfsOpen s path flags = (.error err, s) := by
  rw [vfsOpen, hPath]
  exact if_neg fun h => hNe h.1

theorem vfsOpen_of_missing (hPath : vfsResolvePath s path = .error (-enoent))
    (hCreat : flags &&& oCreat ≠ 0) : vfsOpen s path flags = openCreate s path flags := by
  rw [vfsOpen, hPath]
  exact if_pos ⟨rfl, hCreat⟩

/-- What the lookup does not find is not removed. -/
theorem kfsVnodeUnlink_of_missing {d : Nat} (h : kfsVnodeLookup s d name = .error (-enoent)) :
    ∃ err, kfsVnodeUnlink s d name = (.error err, s) := by
  suffices hTarget : ∃ err, findTarget s d name = .error err by
    obtain ⟨err, hErr⟩ := hTarget
    exact ⟨err, by rw [kfsVnodeUnlink, hErr]⟩
  rw [findTarget]
  by_cases hDots : name.bytes = dot ∨ name.bytes = dotDot
  · exact ⟨_, if_pos hDots⟩
  have hRoot : ¬(d = s.sb.rootInode ∧ name.bytes = dotDot) := fun hBoth => hDots (.inr hBoth.2)
  rw [if_neg hDots]
  rw [kfsVnodeLookup] at h
  cases hInode : kfsReadInode s d with
  | error err => exact ⟨err, rfl⟩
  | ok inode =>
    rw [hInode] at h
    dsimp only at h ⊢
    by_cases hType : inode.type ≠ kfsTypeDir
    · exact ⟨_, if_pos hType⟩
    by_cases hSize : inode.size = 0
    · exact ⟨_, (if_neg hType).trans (if_pos hSize)⟩
    rw [if_neg hType, if_neg fun hDot => hDots (.inl hDot), if_neg hRoot] at h
    rw [if_neg hType, if_neg hSize]
    by_cases hHeap : (!s.kmalloc inode.size) = true
    · exact ⟨_, if_pos hHeap⟩
    rw [if_neg hHeap] at h ⊢
    generalize kfsVnodeRead s d 0 inode.size = read at h ⊢
    obtain ⟨err | dirData, _⟩ := read
    · exact ⟨err, rfl⟩
    · dsimp only at h ⊢
      cases hFind : findDirent dirData inode.size name.bytes inode.size 0 with
      | none => exact ⟨_, rfl⟩
      | some offset =>
        -- a record of that name is never answered with `-ENOENT`
        rw [hFind] at h
        dsimp only [newVnode] at h
        split at h
        · cases h
        · cases h

end Calls

/-- A file can be created in the directory: an inode is free, and the directory is not as
large as a file can be. -/
def CanCreate (s : Volume) (d : Nat) : Prop :=
  kindOf s.files d = some kfsTypeDir ∧ (∃ i, 0 < i ∧ i < 128 ∧ s.files i = none) ∧
    (s.table d).size < 138 * 512

/-- When the slash is refused by every call. -/
structure SlashSafe (s : Volume) (path : CString) (flags : Nat) : Prop where
  /-- A regular file `dev` is not hidden by the path of a device. -/
  device : FileThenSlash s path → deviceNode s (path.bytes.dropWhile (· == slash)) = none
  /-- The path is not that of a regular file with `/.` behind it. -/
  dotted : [slash, 46] <:+ path.bytes → ∀ v, leadsTo s path.bytes = .ok (.kfs v) →
    v.type ≠ vnodeTypeFile
  /-- The path is not that of a regular file with a slash behind it, unless the inode of
  that file is a directory. -/
  unlink : path.bytes.getLast? = some slash → ∀ parent name v,
    vfsResolveParent s path = .ok (parent, name) → ¬(name.bytes = dot ∨ name.bytes = dotDot) →
    kfsVnodeLookup s parent.ino name = .ok v → v.type = vnodeTypeFile →
      kindOf s.files v.ino ≠ some kfsTypeFile
  /-- The path is not that of a new file with a slash behind it, unless there is no inode
  for the file or no space in its directory. -/
  create : path.bytes.getLast? = some slash → flags &&& oCreat ≠ 0 → ∀ parent name,
    vfsResolveParent s path = .ok (parent, name) → ¬Reserved name →
    kfsVnodeLookup s parent.ino name = .error (-enoent) → ¬CanCreate s parent.ino

section Kfs

variable {dirs : Nat → List Record} {d : Nat} (h : s.Browsable dirs)
  (hReliable : s.mount.Reliable) (hHeap : s.mount.HeapServes)

include h hReliable hHeap

/-- What the lookup finds is removed exactly if it is a regular file. -/
theorem unlink_refused_iff (hDots : ¬(name.bytes = dot ∨ name.bytes = dotDot))
    (hLookup : kfsVnodeLookup s d name = .ok v) :
    Refused s (kfsVnodeUnlink s d name) ↔ kindOf s.files v.ino ≠ some kfsTypeFile := by
  by_cases hDir : kindOf s.files d = some kfsTypeDir
  · rcases h.lookup_cases hReliable hHeap hDir hDots with ⟨_, err, hErr⟩ |
      ⟨before, r, after, hSplit, hName, hBefore, hEntry, hFound⟩
    · cases hErr.symm.trans hLookup
    · cases hFound.symm.trans hLookup
      have hHolds := h.holds hDir
      rw [hSplit] at hHolds
      rcases h.kinds d r hEntry with hFile | hSubdir
      · obtain ⟨s', hRun, _⟩ :=
          kfsVnodeUnlink_file h.consistent hReliable hHeap hHolds hBefore hName
          hEntry.entry hFile (h.rootless d r hEntry)
        rw [hRun]
        refine iff_of_false ?_ (not_not.mpr hFile)
        rintro ⟨⟨_, hErr⟩, _⟩
        cases hErr
      · rw [kfsVnodeUnlink_dir h.consistent hReliable hHeap hHolds hBefore hName
          hEntry.entry hSubdir]
        exact iff_of_true (refused_error _) (by rw [hSubdir]; decide)
  · rw [kfsVnodeLookup] at hLookup
    rcases kfsReadInode_not_dir h.consistent.mounted hReliable hDir with ⟨err, _, hErr⟩ |
      ⟨hRead, hType⟩
    · rw [hErr] at hLookup
      cases hLookup
    · rw [hRead] at hLookup
      cases (if_pos hType).symm.trans hLookup

/-- A missing name is created exactly if that is possible. -/
theorem create_refused_iff {parent : Vnode} (hValid : name.Valid) (flags : Nat)
    (hMissing : kfsVnodeLookup s parent.ino name = .error (-enoent)) :
    Refused s (createHandle s parent name flags) ↔ ¬CanCreate s parent.ino := by
  rw [createHandle]
  by_cases hDir : kindOf s.files parent.ino = some kfsTypeDir
  · rcases h.lookup_cases hReliable hHeap hDir hValid.ne_dots with ⟨hFresh, _⟩ |
      ⟨_, _, _, _, _, _, _, hFound⟩
    · have hSize := (h.holds hDir).size
      have hCreated := kfsVnodeCreate_new h.consistent hReliable hHeap (h.holds hDir) hValid
        (le_trans (by decide) h.consistent.room) hFresh vnodeTypeFile
      generalize kfsVnodeCreate s parent.ino name vnodeTypeFile = result at hCreated
      cases hCreated with
      | noInode hNone =>
        refine iff_of_true (refused_error _) ?_
        rintro ⟨_, ⟨i, hLo, hHi, hFree⟩, _⟩
        rw [Volume.files_of_live (hNone i hLo hHi)] at hFree
        cases hFree
      | full hFull _ _ hFiles =>
        exact iff_of_true ⟨⟨_, rfl⟩, hFiles⟩ (fun hCan => absurd hCan.2.2 (by omega))
      | @made n s' _ hRoot hInode hFree hInside _ hFrame =>
        refine iff_of_false (fun hRefused => ?_)
          (not_not.mpr ⟨hDir, ⟨n, hRoot, hInode, hFree⟩, by omega⟩)
        obtain ⟨⟨err, hErr⟩, _⟩ := hRefused
        dsimp only at hErr
        rw [newHandle_eq (by rw [hFrame.mount]; exact hHeap) (.inl rfl) flags] at hErr
        cases hErr
    · cases hFound.symm.trans hMissing
  · obtain ⟨err, _, hErr⟩ :=
      @kfsVnodeCreate_not_dir s parent.ino name h.consistent.mounted hReliable hDir vnodeTypeFile
    rw [hErr]
    exact iff_of_true (refused_error _) (fun hCan => hDir hCan.1)

end Kfs

theorem vfsResolveParent_valid (hParent : vfsResolveParent s path = .ok (parent, name))
    (hName : ¬Reserved name) : name.Valid := by
  have hDots : ¬(name.bytes = dot ∨ name.bytes = dotDot) := fun hDots => hName (.inl hDots)
  obtain ⟨_, hShort, _, dir, hSplit, _⟩ :=
    vfsResolveParent_components hParent fun hDot => hDots (.inl hDot)
  have hNonempty := @component_ne_nil path name.bytes (by rw [hSplit]; simp)
  exact ⟨fun hZero => hNonempty (List.length_eq_zero_iff.mp hZero), Nat.le_of_lt_succ hShort, hDots⟩

section Refusal

variable {parent : Vnode} {name : CString} {dirs : Nat → List Record}
  (hTree : s.Browsable dirs) (hReliable : s.mount.Reliable) (hHeap : s.mount.HeapServes)

/-- A path that ends in a slash is the path before it and that slash. -/
theorem exists_before_slash (hEnds : path.bytes.getLast? = some slash) :
    ∃ front, path.bytes = front ++ [slash] ∧ components front = components path.bytes := by
  obtain ⟨front, hFront⟩ := List.getLast?_eq_some_iff.mp hEnds
  exact ⟨front, hFront, by rw [hFront, components_concat]⟩

include hTree hReliable hHeap in
theorem SlashRefused.safe (h : SlashRefused s path flags) : SlashSafe s path flags where
  device hFile := by
    obtain ⟨⟨err, hErr⟩, _⟩ := h (.inl hFile)
    cases hDevice : deviceNode s (path.bytes.dropWhile (· == slash)) with
    | none => rfl
    | some node =>
      rw [vfsResolvePath_device hDevice] at hErr
      cases hErr
  dotted := by
    rintro ⟨front, hFront⟩ v hLeads hFile
    have hComponents : components front = components path.bytes := by
      rw [← hFront, show front ++ [slash, 46] = front ++ slash :: [46] from rfl,
        components_append_cons]
      exact (List.append_nil _).symm
    have hLast : path.bytes.getLast? = some 46 := by
      rw [← hFront, List.getLast?_append_cons]
      rfl
    obtain ⟨⟨err, hErr⟩, _⟩ := h (.inl ⟨front, [46], v, hFront.symm, by
      rw [leadsTo, hComponents]; exact hLeads, hFile⟩)
    have hNot : ¬(path.bytes.getLast? = some slash ∧ (Node.kfs v).type ≠ vnodeTypeDir) := by
      rw [hLast]
      exact fun hBoth => absurd hBoth.1 (by decide)
    rw [vfsResolvePath_leadsTo (deviceNode_of_last (.inr hLast)), hLeads] at hErr
    dsimp only at hErr
    rw [if_neg hNot] at hErr
    cases hErr
  unlink hEnds parent name v hParent hDots hLookup hFile := by
    obtain ⟨front, hFront, hComponents⟩ := exists_before_slash hEnds
    have hLeads := leadsTo_of_parent hParent fun hDot => hDots (.inl hDot)
    obtain ⟨_, _, hUnlink⟩ := h (.inl ⟨front, [], v, hFront, by
      rw [leadsTo, hComponents]; exact hLeads.trans (by rw [hLookup]; rfl), hFile⟩)
    rw [vfsUnlink_eq hParent hDots,
      unlink_refused_iff hTree hReliable hHeap hDots hLookup] at hUnlink
    exact hUnlink
  create hEnds hCreat parent name hParent hName hLookup := by
    have hDot : name.bytes ≠ dot := fun hDot => hName (.inl (.inl hDot))
    obtain ⟨front, hFront, hComponents⟩ := exists_before_slash hEnds
    obtain ⟨_, _, _, dir, hSplit, hDir, hIn⟩ := vfsResolveParent_components hParent hDot
    have hLeads := leadsTo_of_parent hParent hDot
    rw [hLookup] at hIn hLeads
    obtain ⟨_, hOpen, _⟩ := h (.inr ⟨hCreat, front, [], dir, name.bytes, _, hFront, rfl,
      hComponents.trans hSplit, hDir, hIn⟩)
    have hPath : vfsResolvePath s path = .error (-enoent) := by
      rw [vfsResolvePath_leadsTo (deviceNode_of_last (.inl hEnds)), hLeads]
      rfl
    rw [vfsOpen_of_missing hPath hCreat, openCreate_eq hParent hName, create_refused_iff hTree
      hReliable hHeap (vfsResolveParent_valid hParent hName) flags hLookup] at hOpen
    exact hOpen

/-- Behind a regular file no directory is found. -/
theorem no_parent_behind_file (hPath : path.bytes = front ++ slash :: rest)
    (hFront : leadsTo s front = .ok (.kfs v)) (hFile : v.type = vnodeTypeFile)
    (hRest : components rest ≠ []) (hParent : vfsResolveParent s path = .ok (parent, name)) :
    name.bytes = dot := by
  by_contra hDot
  obtain ⟨hType, _, _, dir, hSplit, hDir, _⟩ := vfsResolveParent_components hParent hDot
  obtain ⟨more, last, hMore⟩ := (List.eq_nil_or_concat (components rest)).resolve_left hRest
  rw [hPath, components_append_cons, hMore, List.concat_eq_append, ← List.append_assoc] at hSplit
  have hEq := List.append_inj_left' hSplit rfl
  rw [← hEq, List.foldlM_append] at hDir
  rw [leadsTo] at hFront
  rw [hFront] at hDir
  change more.foldlM s.tree.lookupIn (.kfs v) = _ at hDir
  by_cases hNil : more = []
  · rw [hNil] at hDir
    cases hDir
    rw [hFile] at hType
    cases hType
  · obtain ⟨err, _, hErr⟩ := @foldlM_file s v hFile more hNil
    rw [hErr] at hDir
    cases hDir

theorem lookup_of_map {result : Except Int Vnode} (h : result.map Node.kfs = .ok (.kfs v)) :
    result = .ok v := by
  cases result with
  | error err => cases h
  | ok u =>
    cases h
    rfl

include hTree hReliable hHeap

theorem SlashSafe.refuses_file (h : SlashSafe s path flags) (hFile : FileThenSlash s path) :
    (∃ err, vfsResolvePath s path = .error err) ∧ Refused s (vfsOpen s path flags) ∧
      Refused s (vfsUnlink s path) := by
  have hDevice := h.device hFile
  obtain ⟨front, rest, v, hPath, hFront, hType⟩ := hFile
  have hLeads : leadsTo s path.bytes = (components rest).foldlM s.tree.lookupIn (.kfs v) := by
    rw [hPath, leadsTo_append_cons hFront]
  -- the error of the path is not that of a missing file, so nothing is created
  suffices hCalls : (∃ err, err ≠ -enoent ∧ vfsResolvePath s path = .error err) ∧
      Refused s (vfsUnlink s path) by
    obtain ⟨⟨err, hNe, hErr⟩, hUnlink⟩ := hCalls
    refine ⟨⟨err, hErr⟩, ?_, hUnlink⟩
    rw [vfsOpen_of_error hErr hNe]
    exact refused_error err
  by_cases hRest : components rest = []
  · rw [hRest] at hLeads
    have hEnds : path.bytes.getLast? = some slash := by
      rcases ends_of_no_components hRest with hSlash | hDot
      · rw [hPath, List.getLast?_append_cons, hSlash]
      · exact absurd hType (h.dotted (hPath ▸ hDot.trans (List.suffix_append front _)) v hLeads)
    have hRefuse : path.bytes.getLast? = some slash ∧ (Node.kfs v).type ≠ vnodeTypeDir :=
      ⟨hEnds, fun hDir => absurd (hType.symm.trans hDir) (by decide)⟩
    constructor
    · refine ⟨-enotdir, by decide, ?_⟩
      rw [vfsResolvePath_leadsTo hDevice, hLeads]
      exact if_pos hRefuse
    · rcases vfsUnlink_cases s path with ⟨err, hErr⟩ | ⟨parent, name, hParent, hDots⟩
      · rw [hErr]
        exact refused_error err
      · rw [leadsTo_of_parent hParent fun hDot => hDots (.inl hDot)] at hLeads
        have hLookup := lookup_of_map hLeads
        rw [vfsUnlink_eq hParent hDots, unlink_refused_iff hTree hReliable hHeap hDots hLookup]
        exact h.unlink hEnds parent name v hParent hDots hLookup hType
  · obtain ⟨err, hNe, hErr⟩ := @foldlM_file s v hType _ hRest
    rw [hErr] at hLeads
    constructor
    · refine ⟨err, hNe, ?_⟩
      rw [vfsResolvePath_leadsTo hDevice, hLeads]
    · rcases vfsUnlink_cases s path with ⟨err, hErr⟩ | ⟨parent, name, hParent, hDots⟩
      · rw [hErr]
        exact refused_error err
      · exact absurd (.inl (no_parent_behind_file hPath hFront hType hRest hParent)) hDots

theorem SlashSafe.refuses_new (h : SlashSafe s path flags) (hNew : CreatedThenSlash s path flags) :
    (∃ err, vfsResolvePath s path = .error err) ∧ Refused s (vfsOpen s path flags) ∧
      Refused s (vfsUnlink s path) := by
  obtain ⟨hCreat, front, rest, dir, text, node, hPath, hRest, hFront, hDir, hMissing⟩ := hNew
  have hLeads : leadsTo s path.bytes = .error (-enoent) := by
    rw [hPath, leadsTo, components_append_cons, hRest, List.append_nil, hFront,
      List.foldlM_append, hDir]
    change List.foldlM s.tree.lookupIn node [text] = _
    rw [List.foldlM_cons, hMissing]
    rfl
  have hEnds : path.bytes.getLast? = some slash ∨ [slash, 46] <:+ path.bytes := by
    rw [hPath, List.getLast?_append_cons]
    exact (ends_of_no_components hRest).imp id fun hDot => hDot.trans (List.suffix_append front _)
  have hLast : path.bytes.getLast? = some slash ∨ path.bytes.getLast? = some 46 := by
    refine hEnds.imp id fun hDot => ?_
    obtain ⟨start, hStart⟩ := hDot
    rw [← hStart, List.getLast?_append_cons]
    rfl
  have hResolve : vfsResolvePath s path = .error (-enoent) := by
    rw [vfsResolvePath_leadsTo (deviceNode_of_last hLast), hLeads]
  -- a name in front of `/.` is taken for a directory
  have hSlash : ∀ parent name, vfsResolveParent s path = .ok (parent, name) → name.bytes ≠ dot →
      path.bytes.getLast? = some slash ∧ kfsVnodeLookup s parent.ino name = .error (-enoent) := by
    intro parent name hParent hDot
    refine ⟨hEnds.resolve_right fun hSuffix => hDot ?_, ?_⟩
    · obtain ⟨start, hStart⟩ := hSuffix
      obtain ⟨_, _, hSegment, _⟩ := vfsResolveParent_components hParent hDot
      have hLastSegment : segments slash [46] = [dot] := rfl
      rw [← hStart, show start ++ [slash, 46] = start ++ slash :: [46] from rfl,
        segments_append_cons, hLastSegment, List.getLast?_concat] at hSegment
      exact (Option.some.inj hSegment).symm
    · rw [leadsTo_of_parent hParent hDot] at hLeads
      cases hLookup : kfsVnodeLookup s parent.ino name with
      | error err =>
        rw [hLookup] at hLeads
        cases hLeads
        rfl
      | ok v =>
        rw [hLookup] at hLeads
        cases hLeads
  refine ⟨⟨_, hResolve⟩, ?_, ?_⟩
  · rw [vfsOpen_of_missing hResolve hCreat]
    rcases openCreate_cases s path flags with ⟨err, hErr⟩ | ⟨parent, name, hParent, hName⟩
    · rw [hErr]
      exact refused_error err
    · obtain ⟨hEnd, hLookup⟩ := hSlash parent name hParent fun hDot => hName (.inl (.inl hDot))
      rw [openCreate_eq hParent hName, create_refused_iff hTree hReliable hHeap
        (vfsResolveParent_valid hParent hName) flags hLookup]
      exact h.create hEnd hCreat parent name hParent hName hLookup
  · rcases vfsUnlink_cases s path with ⟨err, hErr⟩ | ⟨parent, name, hParent, hDots⟩
    · rw [hErr]
      exact refused_error err
    · obtain ⟨_, hLookup⟩ := hSlash parent name hParent fun hDot => hDots (.inl hDot)
      obtain ⟨err, hErr⟩ := kfsVnodeUnlink_of_missing hLookup
      rw [vfsUnlink_eq hParent hDots, hErr]
      exact refused_error err

theorem slashRefused_iff : SlashRefused s path flags ↔ SlashSafe s path flags :=
  ⟨SlashRefused.safe hTree hReliable hHeap, fun h hSlash => hSlash.elim
    (h.refuses_file hTree hReliable hHeap) (h.refuses_new hTree hReliable hHeap)⟩

end Refusal

end Kryos.Fs
