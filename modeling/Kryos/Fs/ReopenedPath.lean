import Kryos.Fs.TrailingSlash

/-! A path that was opened, looked up again. -/
namespace Kryos.Fs

open Function Segments Trace

variable {file : File} {v : Vnode} {node : Node} {comp : List UInt8}

variable {s s' : Volume} {path : CString} {flags : Nat}

/-- What `vfs_open` returns is what the same path leads to right afterwards. -/
def FoundAgain (s : Volume) (path : CString) (flags : Nat) : Prop :=
  ∀ f s', vfsOpen s path flags = (.ok f, s') → vfsResolvePath s' path = .ok f.node

/-- The flags with which `vfs_open` empties what the path leads to. -/
def Truncates (flags : Nat) : Prop :=
  flags &&& (oCreat ||| oExcl) ≠ oCreat ||| oExcl ∧ flags &&& oTrunc ≠ 0 ∧
    flags &&& (oWronly ||| oRdwr) ≠ 0

/-- A component is looked up in the inode, other than `..` in the root, for which the
directory is not read. -/
def ReadsDirectory (ino : Nat) (node : Node) (comp : List UInt8) : Prop :=
  ∃ v, node = .kfs v ∧ v.ino = ino ∧ ¬(ino = 0 ∧ comp = dotDot)

/-- The path goes through the inode on its way. -/
def PassesThrough (s : Volume) (path : CString) (ino : Nat) : Prop :=
  ∃ front comp rest node, components path.bytes = front ++ comp :: rest ∧
    front.foldlM s.tree.lookupIn s.tree.root = .ok node ∧ ReadsDirectory ino node comp

section Lookup

variable {total : Nat} {full : Prop} {d : Nat} {name : CString}

/-- What a lookup answers by the content of the directory. -/
def lookupFile (d : Nat) (file : File) (name : CString) : Except Int Vnode :=
  if file.type ≠ kfsTypeDir then .error (-enotdir)
  else if name.bytes = dot ∨ d = 0 ∧ name.bytes = dotDot then .ok ⟨d, vnodeTypeDir⟩
  else if file.content.length = 0 then .error (-enomem)
  else
    match findDirent file.content file.content.length name.bytes file.content.length 0 with
    | none => .error (-enoent)
    | some offset =>
      let ent := KfsDirent.ofBytes (file.content.drop offset)
      .ok ⟨ent.inode, vnodeTypeOf ent.type⟩

theorem lookupFile_dots (hType : file.type = kfsTypeDir)
    (hDots : name.bytes = dot ∨ d = 0 ∧ name.bytes = dotDot) :
    lookupFile d file name = .ok ⟨d, vnodeTypeDir⟩ := by
  rw [lookupFile, if_neg (not_not.mpr hType), if_pos hDots]

theorem kfsVnodeLookup_file (hConsistent : s.ConsistentAt total full) (hReliable : s.mount.Reliable)
    (hHeap : s.mount.HeapServes) (hFile : s.files d = some file) :
    kfsVnodeLookup s d name = lookupFile d file name := by
  obtain ⟨hLive, hType, hContent⟩ := Volume.files_eq_some.mp hFile
  have hSized := hConsistent.sized d hLive
  have hBound := hSized.bound
  have hSize : file.content.length = (s.table d).size := by rw [← hContent, length_fileContent]
  have hRoot := hConsistent.mounted.rootInode
  have hRead : kfsVnodeRead s d 0 (s.table d).size = (.ok file.content, file.content.length) := by
    rw [kfsVnodeRead_sized hConsistent.mounted hReliable hLive hSized (by omega), hContent,
      List.drop_zero, ← hSize, List.take_length, Nat.zero_add]
  rw [kfsVnodeLookup, kfsReadInode_eq hConsistent.mounted hReliable hLive, lookupFile, ← hType]
  dsimp only
  by_cases hDir : (s.table d).type ≠ kfsTypeDir
  · rw [if_pos hDir, if_pos hDir]
  rw [if_neg hDir, if_neg hDir, hRoot]
  by_cases hDot : name.bytes = dot
  · rw [if_pos hDot, if_pos (.inl hDot), newVnode_eq hHeap]
  by_cases hDotDot : d = 0 ∧ name.bytes = dotDot
  · rw [if_neg hDot, if_pos hDotDot, if_pos (.inr hDotDot), newVnode_eq hHeap]
  have hDots : ¬(name.bytes = dot ∨ d = 0 ∧ name.bytes = dotDot) := fun h => h.elim hDot hDotDot
  rw [if_neg hDot, if_neg hDotDot, if_neg hDots, hSize]
  by_cases hEmpty : (s.table d).size = 0
  · have hNone : (!s.kmalloc (s.table d).size) = true := by simp [Volume.kmalloc, hEmpty]
    rw [if_pos hEmpty, if_pos hNone]
  have hServed : ¬(!s.kmalloc (s.table d).size) = true := by simp [Volume.kmalloc_eq hHeap hEmpty]
  rw [if_neg hEmpty, if_neg hServed, hRead]
  dsimp only
  cases findDirent file.content (s.table d).size name.bytes (s.table d).size 0 with
  | none => rfl
  | some offset => exact newVnode_eq hHeap _ _

theorem files_of_lookup (hMounted : s.MountedAt total) (h : kfsVnodeLookup s d name = .ok v) :
    ∃ file, s.files d = some file := by
  cases hLive : s.live d with
  | true => exact ⟨_, Volume.files_of_live hLive⟩
  | false =>
    obtain ⟨err, _, hErr⟩ := kfsReadInode_dead hMounted hLive
    rw [kfsVnodeLookup, hErr] at h
    cases h

theorem kfsVnodeLookup_kept (hConsistent : s.ConsistentAt total full)
    (hConsistent' : s'.ConsistentAt total full) (hReliable : s.mount.Reliable)
    (hHeap : s.mount.HeapServes) (hMount : s'.mount = s.mount) (hSame : s'.files d = s.files d)
    (h : kfsVnodeLookup s d name = .ok v) : kfsVnodeLookup s' d name = .ok v := by
  obtain ⟨file, hFile⟩ := files_of_lookup hConsistent.mounted h
  rw [kfsVnodeLookup_file hConsistent hReliable hHeap hFile] at h
  rw [kfsVnodeLookup_file hConsistent' (by rw [hMount]; exact hReliable)
    (by rw [hMount]; exact hHeap) (hSame.trans hFile), h]

theorem lookupIn_ok {node' : Node} (h : s.tree.lookupIn node comp = .ok node') :
    ∃ w u, node = .kfs w ∧ node' = .kfs u ∧ comp.length < 256 ∧ w.type = vnodeTypeDir ∧
      kfsVnodeLookup s w.ino (.ofBytes comp) = .ok u := by
  by_cases hLong : comp.length ≥ 256
  · rw [Tree.lookupIn, if_pos hLong] at h
    cases h
  by_cases hType : s.tree.type node ≠ vnodeTypeDir
  · rw [Tree.lookupIn_of_file (Nat.lt_of_not_le hLong) hType] at h
    cases h
  cases node with
  | kfs w =>
    rw [lookupIn_tree (by omega) hType] at h
    cases hLookup : kfsVnodeLookup s w.ino (.ofBytes comp) with
    | error err =>
      rw [hLookup] at h
      cases h
    | ok u =>
      rw [hLookup] at h
      cases h
      exact ⟨w, u, rfl, rfl, Nat.lt_of_not_le hLong, not_not.mp hType, hLookup⟩
  | tty number => exact absurd (show vnodeTypeFile ≠ vnodeTypeDir by decide) hType
  | blk => exact absurd (show vnodeTypeFile ≠ vnodeTypeDir by decide) hType

theorem lookupIn_of_lookup {w u : Vnode} (hShort : comp.length < 256)
    (hType : w.type = vnodeTypeDir) (h : kfsVnodeLookup s w.ino (.ofBytes comp) = .ok u) :
    s.tree.lookupIn (.kfs w) comp = .ok (.kfs u) := by
  rw [lookupIn_tree (by omega) (not_not.mpr hType), h]
  rfl

theorem component_spec {comp : List UInt8} (h : comp ∈ components path.bytes) :
    comp ≠ dot ∧ (CString.ofBytes comp).bytes = comp := by
  obtain ⟨hMem, hDot⟩ := List.mem_filter.mp h
  exact ⟨of_decide_eq_true hDot, bytes_ofBytes fun hNul =>
    path.nul_free (mem_of_mem_segments hMem hNul)⟩

theorem deviceNode_mount (hMount : s'.mount = s.mount) (p : List UInt8) :
    deviceNode s' p = deviceNode s p := by
  rw [deviceNode, deviceNode, Volume.kmalloc, Volume.kmalloc, hMount]

theorem vfsResolvePath_kfs_iff :
    vfsResolvePath s path = .ok (.kfs v) ↔
      deviceNode s (path.bytes.dropWhile (· == slash)) = none ∧
        leadsTo s path.bytes = .ok (.kfs v) ∧
        ¬(path.bytes.getLast? = some slash ∧ v.type ≠ vnodeTypeDir) := by
  cases hDevice : deviceNode s (path.bytes.dropWhile (· == slash)) with
  | some node =>
    rw [vfsResolvePath_device hDevice]
    refine ⟨fun h => ?_, fun h => by cases h.1⟩
    rw [deviceNode] at hDevice
    cases h
    split at hDevice
    · cases hDevice
    · split at hDevice <;> cases hDevice
  | none =>
    rw [vfsResolvePath_leadsTo hDevice]
    cases leadsTo s path.bytes with
    | error err => exact ⟨fun h => (by cases h), fun h => by cases h.2.1⟩
    | ok node =>
      dsimp only
      split
      case isTrue hRefuse =>
        refine ⟨fun h => (by cases h), fun h => ?_⟩
        obtain ⟨_, hNode, hNot⟩ := h
        cases hNode
        exact absurd hRefuse hNot
      case isFalse hNot =>
        constructor
        · intro h
          cases h
          exact ⟨rfl, rfl, hNot⟩
        · exact fun h => h.2.1

end Lookup

section Truncate

/-- Once a directory is emptied, a path no longer goes through it. -/
theorem leadsTo_truncated_iff (hConsistent : s.Consistent True) (hReliable : s.mount.Reliable)
    (hHeap : s.mount.HeapServes) {ino : Nat} {s' : Volume} (hConsistent' : s'.Consistent True)
    (hMount : s'.mount = s.mount)
    (hFiles : s'.files = update s.files ino (some ⟨(s.table ino).type, []⟩))
    (hLeads : leadsTo s path.bytes = .ok node) :
    leadsTo s' path.bytes = .ok node ↔ ¬PassesThrough s path ino := by
  have hReliable' : s'.mount.Reliable := by rw [hMount]; exact hReliable
  have hHeap' : s'.mount.HeapServes := by rw [hMount]; exact hHeap
  have hEmptied : s'.files ino = some ⟨(s.table ino).type, []⟩ := by
    rw [hFiles, update_self]
  have hRoot : s'.tree.root = s.tree.root := by
    change Node.kfs (rootVnode s') = Node.kfs (rootVnode s)
    rw [rootVnode_eq hConsistent.mounted, rootVnode_eq hConsistent'.mounted]
  have hSame : ∀ comp ∈ components path.bytes, ∀ a b, s.tree.lookupIn a comp = .ok b →
      ¬ReadsDirectory ino a comp → s'.tree.lookupIn a comp = .ok b := by
    intro comp hComp a b hOk hNot
    obtain ⟨_, hBytes⟩ := component_spec hComp
    obtain ⟨w, u, rfl, rfl, hShort, hType, hLookup⟩ := lookupIn_ok hOk
    refine lookupIn_of_lookup hShort hType ?_
    by_cases hIno : w.ino = ino
    · -- only `..` in the root is left, which is answered without reading it
      have hDotDot : ino = 0 ∧ comp = dotDot := by
        by_contra hOther
        exact hNot ⟨w, rfl, hIno, hOther⟩
      obtain ⟨file, hFile⟩ := files_of_lookup hConsistent.mounted hLookup
      obtain ⟨_, hTable, _⟩ := Volume.files_eq_some.mp hFile
      rw [kfsVnodeLookup_file hConsistent hReliable hHeap hFile, lookupFile] at hLookup
      rw [hIno] at hLookup hTable ⊢
      rw [kfsVnodeLookup_file hConsistent' hReliable' hHeap' hEmptied, lookupFile]
      have hAnswer : (CString.ofBytes comp).bytes = dot ∨
          ino = 0 ∧ (CString.ofBytes comp).bytes = dotDot := by
        rw [hBytes]
        exact .inr hDotDot
      rw [if_pos hAnswer] at hLookup ⊢
      rw [hTable]
      exact hLookup
    · exact kfsVnodeLookup_kept hConsistent hConsistent' hReliable hHeap hMount
        (by rw [hFiles, update_of_ne hIno]) hLookup
  have hFails : ∀ comp ∈ components path.bytes, ∀ a, ReadsDirectory ino a comp →
      ∃ err, s'.tree.lookupIn a comp = .error err := by
    rintro comp hComp a ⟨w, rfl, rfl, hNot⟩
    obtain ⟨hDot, hBytes⟩ := component_spec hComp
    cases hResult : s'.tree.lookupIn (.kfs w) comp with
    | error err => exact ⟨err, rfl⟩
    | ok b =>
      obtain ⟨w', u, hEq, _, _, _, hLookup⟩ := lookupIn_ok hResult
      cases hEq
      have hOther : ¬((CString.ofBytes comp).bytes = dot ∨
          w.ino = 0 ∧ (CString.ofBytes comp).bytes = dotDot) := by
        rw [hBytes]
        exact fun h => h.elim hDot hNot
      rw [kfsVnodeLookup_file hConsistent' hReliable' hHeap' hEmptied, lookupFile,
        if_neg hOther] at hLookup
      split at hLookup
      · cases hLookup
      · cases hLookup
  rw [leadsTo, hRoot, foldlM_replay_iff hSame hFails hLeads, PassesThrough]
  constructor
  · rintro hNone ⟨front, comp, rest, u, hSplit, hFront, hReads⟩
    exact hNone front comp rest u hSplit hFront hReads
  · intro hNone front comp rest u hSplit hFront hReads
    exact hNone ⟨front, comp, rest, u, hSplit, hFront, hReads⟩

end Truncate

section Create

variable {dirs : Nat → List Record} {parent v : Vnode} {name : CString}

/-- A record more does not hide the others. -/
theorem kfsVnodeLookup_appended {d : Nat} {records : List Record} {r : Record}
    (hConsistent : s.Consistent True) (hConsistent' : s'.Consistent True)
    (hReliable : s.mount.Reliable) (hHeap : s.mount.HeapServes) (hMount : s'.mount = s.mount)
    (hHolds : s.Holds d records) (hHolds' : s'.Holds d (records ++ [r])) (hDot : name.bytes ≠ dot)
    (h : kfsVnodeLookup s d name = .ok v) : kfsVnodeLookup s' d name = .ok v := by
  have hReliable' : s'.mount.Reliable := by rw [hMount]; exact hReliable
  have hHeap' : s'.mount.HeapServes := by rw [hMount]; exact hHeap
  by_cases hDotDot : d = 0 ∧ name.bytes = dotDot
  · rw [kfsVnodeLookup_file hConsistent hReliable hHeap hHolds,
      lookupFile_dots rfl (.inr hDotDot)] at h
    rw [kfsVnodeLookup_file hConsistent' hReliable' hHeap' hHolds',
      lookupFile_dots rfl (.inr hDotDot), h]
  by_cases hSome : ∃ q ∈ records, q.ent.name = name.bytes
  · obtain ⟨before, q, after, rfl, hName, hBefore⟩ := exists_first hSome
    rw [← hName] at hBefore
    rw [kfsVnodeLookup_present hConsistent hReliable hHeap hHolds hBefore hName hDot hDotDot] at h
    rw [List.append_assoc, List.cons_append] at hHolds'
    rw [kfsVnodeLookup_present hConsistent' hReliable' hHeap' hHolds' hBefore hName hDot hDotDot, h]
  · obtain ⟨err, hErr⟩ := kfsVnodeLookup_absent hConsistent hReliable hHolds
      (fun q hq hName => hSome ⟨q, hq, hName⟩) hDot hDotDot
    rw [hErr] at h
    cases h

/-- A file that was created is what its path leads to. -/
theorem leadsTo_created (h : s.Browsable dirs) (hReliable : s.mount.Reliable)
    (hHeap : s.mount.HeapServes) (hParent : vfsResolveParent s path = .ok (parent, name))
    (hDots : ¬(name.bytes = dot ∨ name.bytes = dotDot))
    (hMissing : kfsVnodeLookup s parent.ino name = .error (-enoent))
    (hCreation : Creation s dirs parent.ino name vnodeTypeFile (.ok v, s')) :
    s'.mount = s.mount ∧ v.type = vnodeTypeFile ∧ leadsTo s' path.bytes = .ok (.kfs v) := by
  have hDot : name.bytes ≠ dot := fun hEq => hDots (.inl hEq)
  have hDotDot : ¬(parent.ino = 0 ∧ name.bytes = dotDot) := fun hBoth => hDots (.inr hBoth.2)
  obtain ⟨hType, _, _, dir, hSplit, hDir, _⟩ := vfsResolveParent_components hParent hDot
  cases hCreation with
  | @existing r _ hEntry hName =>
    -- the lookup would have found the record
    rcases h.lookup_cases hReliable hHeap hEntry.dir hDots with ⟨hFresh, _⟩ |
      ⟨_, _, _, _, _, _, _, hFound⟩
    · exact absurd hName (hFresh r hEntry.mem)
    · cases hFound.symm.trans hMissing
  | @made _ n hValid hInode _ _ hKind _ hFree hFresh hConsistent hFrame hFiles =>
    have hMount := hFrame.mount
    have hHolds : s.Holds parent.ino (dirs parent.ino) := h.holds hKind
    have hHolds' : s'.Holds parent.ino
        (dirs parent.ino ++ [newRecord n vnodeTypeFile name hValid hInode]) := by
      rw [Volume.Holds, hFiles, update_self]
    have hRoot : s'.tree.root = s.tree.root := by
      change Node.kfs (rootVnode s') = Node.kfs (rootVnode s)
      rw [rootVnode_eq h.consistent.mounted, rootVnode_eq hConsistent.mounted]
    have hSame : ∀ comp ∈ dir, ∀ a b, s.tree.lookupIn a comp = .ok b → ¬False →
        s'.tree.lookupIn a comp = .ok b := by
      intro comp hComp a b hOk _
      obtain ⟨hCompDot, hBytes⟩ := @component_spec path comp (by
        rw [hSplit]
        exact List.mem_append_left _ hComp)
      obtain ⟨w, u, rfl, rfl, hShort, hDirType, hLookup⟩ := lookupIn_ok hOk
      refine lookupIn_of_lookup hShort hDirType ?_
      by_cases hIno : w.ino = parent.ino
      · rw [hIno] at hLookup ⊢
        exact kfsVnodeLookup_appended h.consistent hConsistent hReliable hHeap hMount hHolds hHolds'
          (by rw [hBytes]; exact hCompDot) hLookup
      · have hNew : w.ino ≠ n := by
          intro hEq
          obtain ⟨file, hFile⟩ := files_of_lookup h.consistent.mounted hLookup
          rw [hEq, hFree] at hFile
          cases hFile
        exact kfsVnodeLookup_kept h.consistent hConsistent hReliable hHeap hMount
          (by rw [hFiles, update_of_ne hIno, update_of_ne hNew]) hLookup
    have hFound : kfsVnodeLookup s' parent.ino name =
        .ok ⟨n, vnodeTypeOf (kfsTypeFor vnodeTypeFile)⟩ := by
      have hPresent := @kfsVnodeLookup_present 32768 True s' parent.ino (dirs parent.ino) []
        (newRecord n vnodeTypeFile name hValid hInode) name hConsistent
        (by rw [hMount]; exact hReliable) (by rw [hMount]; exact hHeap) hHolds'
        (by rw [newRecord_ent]; exact hFresh) (by rw [newRecord_ent]) hDot hDotDot
      rw [newRecord_ent] at hPresent
      exact hPresent
    have hDir' : dir.foldlM s'.tree.lookupIn s.tree.root = .ok (.kfs parent) :=
      (foldlM_replay_iff hSame (fun _ _ _ hFalse => hFalse.elim) hDir).mpr fun _ _ _ _ _ _ => id
    have hShort : name.bytes.length < 256 := Nat.lt_succ_of_le hValid.length_le
    have hLast : s'.tree.lookupIn (.kfs parent) name.bytes =
        .ok (.kfs ⟨n, vnodeTypeOf (kfsTypeFor vnodeTypeFile)⟩) := by
      refine lookupIn_of_lookup hShort hType ?_
      rw [show CString.ofBytes name.bytes = name
        from CString.ext_bytes (bytes_ofBytes name.nul_free)]
      exact hFound
    refine ⟨hMount, rfl, ?_⟩
    rw [leadsTo, hSplit, List.foldlM_append, hRoot, hDir']
    change List.foldlM s'.tree.lookupIn (.kfs parent) [name.bytes] = _
    rw [List.foldlM_cons, hLast]
    rfl

end Create

/-- When an opened path leads to the same vnode again: a file that was created has no
slash behind it, and the path does not go through a directory that was emptied. -/
def ReopenSafe (s : Volume) (path : CString) (flags : Nat) : Prop :=
  (∃ f s', vfsOpen s path flags = (.ok f, s')) →
    (vfsResolvePath s path = .error (-enoent) → path.bytes.getLast? ≠ some slash) ∧
      ∀ v, vfsResolvePath s path = .ok (.kfs v) → Truncates flags → ¬PassesThrough s path v.ino

section Reopen

variable {dirs : Nat → List Record} {f : Handle}

theorem newHandle_node (h : newHandle s node flags = .ok f) : f.node = node := by
  rw [newHandle] at h
  split at h
  · cases h
  · split at h
    · cases h
      rfl
    · cases h

/-- What a successful `vfs_open` has done. -/
inductive Opened (s : Volume) (path : CString) (flags : Nat) (f : Handle) (s' : Volume) : Prop where
  | plain (hPath : vfsResolvePath s path = .ok f.node) (hFlags : ¬Truncates flags) (hSame : s' = s)
  | emptied (hPath : vfsResolvePath s path = .ok f.node) (hFlags : Truncates flags)
      (hRun : f.node.truncate s = (.ok (), s'))
  | created {parent v : Vnode} {name : CString} (hPath : vfsResolvePath s path = .error (-enoent))
      (hParent : vfsResolveParent s path = .ok (parent, name))
      (hName : ¬Reserved name) (hRun : kfsVnodeCreate s parent.ino name vnodeTypeFile = (.ok v, s'))
      (hNode : f.node = .kfs v)

theorem opened_of_existing (hPath : vfsResolvePath s path = .ok node)
    (h : openExisting s node flags = (.ok f, s')) : Opened s path flags f s' := by
  rw [openExisting] at h
  by_cases hExcl : flags &&& (oCreat ||| oExcl) = oCreat ||| oExcl
  · rw [if_pos hExcl] at h
    cases h
  rw [if_neg hExcl] at h
  by_cases hTrunc : flags &&& oTrunc ≠ 0 ∧ flags &&& (oWronly ||| oRdwr) ≠ 0
  · rw [if_pos hTrunc] at h
    generalize hRun : node.truncate s = result at h
    obtain ⟨err | _, t⟩ := result
    · cases h
    · obtain ⟨hHandle, rfl⟩ := Prod.mk.inj h
      have hNode := newHandle_node hHandle
      exact .emptied (hNode ▸ hPath) ⟨hExcl, hTrunc⟩ (hNode ▸ hRun)
  · rw [if_neg hTrunc] at h
    obtain ⟨hHandle, hSame⟩ := Prod.mk.inj h
    exact .plain (newHandle_node hHandle ▸ hPath) (fun hFlags => hTrunc hFlags.2) hSame.symm

theorem opened_of_create (hPath : vfsResolvePath s path = .error (-enoent))
    (h : openCreate s path flags = (.ok f, s')) : Opened s path flags f s' := by
  rcases openCreate_cases s path flags with ⟨err, hErr⟩ | ⟨parent, name, hParent, hName⟩
  · rw [hErr] at h
    cases h
  rw [openCreate_eq hParent hName, createHandle] at h
  generalize hRun : kfsVnodeCreate s parent.ino name vnodeTypeFile = result at h
  obtain ⟨err | v, t⟩ := result
  · cases h
  · obtain ⟨hHandle, rfl⟩ := Prod.mk.inj h
    exact .created hPath hParent hName hRun (newHandle_node hHandle)

theorem opened_of_vfsOpen (h : vfsOpen s path flags = (.ok f, s')) : Opened s path flags f s' := by
  cases hPath : vfsResolvePath s path with
  | ok node =>
    rw [vfsOpen, hPath] at h
    exact opened_of_existing hPath h
  | error err =>
    rw [vfsOpen, hPath] at h
    dsimp only at h
    split at h
    case isTrue hMissing =>
      rw [hMissing.1] at hPath
      exact opened_of_create hPath h
    · cases h

/-- An emptied vnode, looked up by the path that led to it. -/
theorem found_emptied_iff (hConsistent : s.Consistent True) (hReliable : s.mount.Reliable)
    (hHeap : s.mount.HeapServes) (hPath : vfsResolvePath s path = .ok (.kfs v))
    (hRun : kfsVnodeTruncate s v.ino = (.ok (), s')) :
    vfsResolvePath s' path = .ok (.kfs v) ↔ ¬PassesThrough s path v.ino := by
  obtain ⟨hDevice, hLeads, hNot⟩ := vfsResolvePath_kfs_iff.mp hPath
  cases hLive : s.live v.ino with
  | false =>
    obtain ⟨err, _, hErr⟩ := kfsReadInode_dead hConsistent.mounted hLive
    rw [kfsVnodeTruncate, hErr] at hRun
    cases hRun
  | true =>
    obtain ⟨t, hRun', hConsistent', hFrame, _, hFiles⟩ :=
      kfsVnodeTruncate_spec hConsistent hReliable hLive
    obtain ⟨_, rfl⟩ := Prod.mk.inj (hRun.symm.trans hRun')
    rw [vfsResolvePath_kfs_iff, deviceNode_mount hFrame.mount,
      leadsTo_truncated_iff hConsistent hReliable hHeap hConsistent' hFrame.mount hFiles hLeads]
    exact ⟨fun h => h.2.1, fun h => ⟨hDevice, h, hNot⟩⟩

/-- A new file, looked up by the path that it was created with. -/
theorem found_created_iff (h : s.Browsable dirs) (hReliable : s.mount.Reliable)
    (hHeap : s.mount.HeapServes) {parent : Vnode} {name : CString}
    (hPath : vfsResolvePath s path = .error (-enoent))
    (hParent : vfsResolveParent s path = .ok (parent, name))
    (hDots : ¬(name.bytes = dot ∨ name.bytes = dotDot)) (hRoom : RoomFor s parent.ino name)
    (hRun : kfsVnodeCreate s parent.ino name vnodeTypeFile = (.ok v, s')) :
    vfsResolvePath s' path = .ok (.kfs v) ↔ path.bytes.getLast? ≠ some slash := by
  have hDevice : deviceNode s (path.bytes.dropWhile (· == slash)) = none := by
    cases hDevice : deviceNode s (path.bytes.dropWhile (· == slash)) with
    | none => rfl
    | some node =>
      rw [vfsResolvePath_device hDevice] at hPath
      cases hPath
  have hMissing : kfsVnodeLookup s parent.ino name = .error (-enoent) := by
    rw [vfsResolvePath_leadsTo hDevice, leadsTo_of_parent hParent fun hDot =>
      hDots (.inl hDot)] at hPath
    cases hLookup : kfsVnodeLookup s parent.ino name with
    | error err =>
      rw [hLookup] at hPath
      cases hPath
      rfl
    | ok u =>
      rw [hLookup] at hPath
      change (if _ then Except.error (-enotdir) else Except.ok (Node.kfs u)) = _ at hPath
      split at hPath <;> cases hPath
  have hCreation := h.create hReliable hHeap parent.ino name vnodeTypeFile hRoom
  rw [hRun] at hCreation
  obtain ⟨hMount, hType, hLeads⟩ :=
    leadsTo_created h hReliable hHeap hParent hDots hMissing hCreation
  rw [vfsResolvePath_kfs_iff, deviceNode_mount hMount]
  constructor
  · rintro ⟨_, _, hNot⟩ hEnds
    exact hNot ⟨hEnds, fun hDir => absurd (hType.symm.trans hDir) (by decide)⟩
  · exact fun hNot => ⟨hDevice, hLeads, fun hBoth => hNot hBoth.1⟩

theorem foundAgain_iff (h : s.Browsable dirs) (hReliable : s.mount.Reliable)
    (hHeap : s.mount.HeapServes)
    (hRoom : ∀ parent name, vfsResolveParent s path = .ok (parent, name) →
      RoomFor s parent.ino name) :
    FoundAgain s path flags ↔ ReopenSafe s path flags := by
  suffices hEach : ∀ f s', vfsOpen s path flags = (.ok f, s') →
      (vfsResolvePath s' path = .ok f.node ↔
        (vfsResolvePath s path = .error (-enoent) → path.bytes.getLast? ≠ some slash) ∧
          ∀ v, vfsResolvePath s path = .ok (.kfs v) → Truncates flags →
            ¬PassesThrough s path v.ino) by
    constructor
    · rintro hFound ⟨f, s', hOpen⟩
      exact (hEach f s' hOpen).mp (hFound f s' hOpen)
    · intro hSafe f s' hOpen
      exact (hEach f s' hOpen).mpr (hSafe ⟨f, s', hOpen⟩)
  intro f s' hOpen
  cases opened_of_vfsOpen hOpen with
  | plain hPath hFlags hSame =>
    rw [hSame, hPath]
    exact ⟨fun _ =>
      ⟨fun hErr => (nomatch hErr), fun _ _ hTrunc => absurd hTrunc hFlags⟩, fun _ => rfl⟩
  | emptied hPath hFlags hRun =>
    rw [hPath]
    cases hNode : f.node with
    | kfs v =>
      rw [hNode] at hPath hRun
      rw [found_emptied_iff h.consistent hReliable hHeap hPath hRun]
      constructor
      · intro hNot
        refine ⟨fun hErr => (nomatch hErr), fun u hEq _ => ?_⟩
        cases hEq
        exact hNot
      · exact fun hBoth => hBoth.2 v rfl hFlags
    | tty number =>
      rw [hNode] at hPath hRun
      obtain ⟨_, rfl⟩ := Prod.mk.inj hRun
      exact ⟨fun _ => ⟨fun hErr => (nomatch hErr), fun u hEq => (nomatch hEq)⟩, fun _ => hPath⟩
    | blk =>
      rw [hNode] at hPath hRun
      obtain ⟨_, rfl⟩ := Prod.mk.inj hRun
      exact ⟨fun _ => ⟨fun hErr => (nomatch hErr), fun u hEq => (nomatch hEq)⟩, fun _ => hPath⟩
  | created hPath hParent hName hRun hNode =>
    rw [hNode, found_created_iff h hReliable hHeap hPath hParent (fun hDots => hName (.inl hDots))
      (hRoom _ _ hParent) hRun, hPath]
    exact ⟨fun hNot => ⟨fun _ => hNot, fun u hEq => (nomatch hEq)⟩, fun hBoth => hBoth.1 rfl⟩

end Reopen

/-- The calls refuse a slash behind a file exactly under these conditions, and an opened
path leads to the same vnode again exactly under those. -/
theorem slash_means_directory_iff {dirs : Nat → List Record} (h : s.Browsable dirs)
    (hReliable : s.mount.Reliable) (hHeap : s.mount.HeapServes) (path : CString) (flags : Nat) :
    (SlashRefused s path flags ↔ SlashSafe s path flags) ∧
      ((∀ parent name, vfsResolveParent s path = .ok (parent, name) → RoomFor s parent.ino name) →
        (FoundAgain s path flags ↔ ReopenSafe s path flags)) :=
  ⟨slashRefused_iff h hReliable hHeap, foundAgain_iff h hReliable hHeap⟩

/-- The path of a letter and a slash. -/
def slashed (c : UInt8) (hc : c ≠ 0) : CString := ⟨[c, slash], by simp [slash, hc.symm]⟩

/-- The file `a` is not passed through by the path `a/b`, and found again after it was
opened with `O_TRUNC`. -/
theorem slash_means_directory_fileA :
    ∃ (s : Volume) (dirs : Nat → List Record), s.Browsable dirs ∧
      s.files 1 = some ⟨kfsTypeFile, []⟩ ∧ FileThenSlash s ⟨[97, 47, 98], by decide⟩ ∧
      SlashRefused s ⟨[97, 47, 98], by decide⟩ 0 ∧ FoundAgain s fileA (oTrunc ||| oWronly) := by
  obtain ⟨dirs, _, hWell, _⟩ := fileVolume_wellFormed
  have hBoth := slash_means_directory_iff hWell.browsable fileVolume_reliable fileVolume_heapServes
  have hLeads : leadsTo fileVolume [97] = .ok (.kfs ⟨1, vnodeTypeFile⟩) := by decide +kernel
  have hPath : vfsResolvePath fileVolume fileA = .ok (.kfs ⟨1, vnodeTypeFile⟩) := by decide +kernel
  refine ⟨fileVolume, dirs, hWell.browsable, by decide +kernel, ⟨[97], [98], _, rfl, hLeads, rfl⟩,
    ?_, ?_⟩
  · refine (hBoth _ 0).1.mpr ⟨fun _ => rfl, fun hSuffix => ?_, ?_, ?_⟩
    · exact absurd hSuffix (by decide)
    · exact fun hEnds => absurd hEnds (by decide)
    · exact fun hEnds => absurd hEnds (by decide)
  · refine ((hBoth fileA (oTrunc ||| oWronly)).2 ?_).mpr fun _ =>
      ⟨fun hErr => (nomatch hPath.symm.trans hErr), fun v hv _ => ?_⟩
    · intro parent name hParent
      have hRoot : vfsResolveParent fileVolume fileA = .ok (⟨0, vnodeTypeDir⟩, fileA) := by
        decide +kernel
      cases hRoot.symm.trans hParent
      decide +kernel
    · cases hPath.symm.trans hv
      rintro ⟨front, comp, rest, node, hSplit, hFront, w, hNode, hIno, _⟩
      -- only the root is on the way
      have hComponents : components fileA.bytes = [[97]] := rfl
      rw [hComponents] at hSplit
      cases front with
      | cons first front => simp at hSplit
      | nil =>
        cases hFront
        have hRoot : fileVolume.tree.root = .kfs ⟨0, vnodeTypeDir⟩ := by decide +kernel
        cases hRoot.symm.trans hNode
        cases hIno

/-- The root directory holds the empty file `a`. The path `a/.` is that of the file,
`vfs_unlink` of `a/` removes it, and `vfs_open` of `b/` creates a file that the same path
does not lead to. -/
theorem slash_not_refused :
    ∃ (s : Volume) (dirs : Nat → List Record) (r : Record), s.Browsable dirs ∧
      r.ent = ⟨1, 12, kfsTypeFile, [97]⟩ ∧ s.files 0 = some ⟨kfsTypeDir, encodeDir [r]⟩ ∧
      s.files 1 = some ⟨kfsTypeFile, []⟩ ∧ ¬SlashRefused s ⟨[97, 47, 46], by decide⟩ 0 ∧
      ¬SlashRefused s (slashed 97 (by decide)) 0 ∧
      ¬SlashRefused s (slashed 98 (by decide)) oCreat ∧
      ¬FoundAgain s (slashed 98 (by decide)) oCreat := by
  obtain ⟨dirs, r, hWell, hDirs, hEnt, _⟩ := fileVolume_wellFormed
  have hName : ¬Reserved (letter 98 (by decide)) := by
    unfold Reserved
    decide
  have hSafe {path : CString} {flags : Nat} (h : SlashRefused fileVolume path flags) :=
    h.safe hWell.browsable fileVolume_reliable fileVolume_heapServes
  refine ⟨fileVolume, dirs, r, hWell.browsable, hEnt, hDirs ▸ hWell.holds (by decide +kernel),
    by decide +kernel, fun h => ?_, fun h => ?_, fun h => ?_, fun h => ?_⟩
  · exact (hSafe h).dotted (by decide) ⟨1, vnodeTypeFile⟩ (by decide +kernel) rfl
  · exact (hSafe h).unlink rfl ⟨0, vnodeTypeDir⟩ fileA ⟨1, vnodeTypeFile⟩ (by decide +kernel)
      (by decide) (by decide +kernel) rfl (by decide +kernel)
  · exact (hSafe h).create rfl (by decide) ⟨0, vnodeTypeDir⟩ (letter 98 (by decide))
      (by decide +kernel) hName (by decide +kernel)
      ⟨by decide +kernel, ⟨2, by decide, by decide, by decide +kernel⟩, by decide +kernel⟩
  · have hOpen : (vfsOpen fileVolume (slashed 98 (by decide)) oCreat).1 =
        .ok ⟨.kfs ⟨2, vnodeTypeFile⟩, ⟨0, oCreat⟩⟩ := by decide +kernel
    have hFound := h _ _ (Prod.ext hOpen rfl)
    revert hFound
    decide +kernel

end Kryos.Fs
