import Kryos.Fs.KfsRun
import Kryos.Fs.Vfs

/-! What the calls of the virtual file system do to the volume, and the runs that keep
it well-formed. -/
namespace Kryos.Fs

open Function Trace

/-- The operations of KFS and of the block device that a call comes to. -/
inductive VolumeChange (x : Vfs) : VfsCall → Volume → Prop where
  | same {call : VfsCall} : VolumeChange x call x.volume
  | truncated {path : CString} {flags : Nat} {v : Vnode}
      (hPath : vfsResolvePath x.volume path = .ok (.kfs v))
      (hFlags : flags &&& oTrunc ≠ 0 ∧ flags &&& (oWronly ||| oRdwr) ≠ 0) :
      VolumeChange x (.open path flags) (kfsVnodeTruncate x.volume v.ino).2
  | created {path name : CString} {flags : Nat} {parent : Vnode}
      (hPath : vfsResolvePath x.volume path = .error (-enoent)) (hFlags : flags &&& oCreat ≠ 0)
      (hParent : vfsResolveParent x.volume path = .ok (parent, name)) :
      VolumeChange x (.open path flags) (kfsVnodeCreate x.volume parent.ino name vnodeTypeFile).2
  | written {file : Nat} {data : List UInt8} {f : Handle} {v : Vnode}
      (hFile : x.handles file = some f) (hNode : f.node = .kfs v) :
      VolumeChange x (.write file data) (kfsVnodeWrite x.volume v.ino f.file data).2.2
  | raw {file : Nat} {data : List UInt8} {f : Handle} (hFile : x.handles file = some f)
      (hNode : f.node = .blk) :
      VolumeChange x (.write file data)
        (blkVnodeWrite x.sectorCount data.length x.volume 0 f.file.offset data).2.2
  | madeDir {path name : CString} {parent : Vnode}
      (hParent : vfsResolveParent x.volume path = .ok (parent, name)) :
      VolumeChange x (.mkdir path) (kfsVnodeCreate x.volume parent.ino name vnodeTypeDir).2
  | unlinked {path name : CString} {parent : Vnode}
      (hParent : vfsResolveParent x.volume path = .ok (parent, name)) :
      VolumeChange x (.unlink path) (kfsVnodeUnlink x.volume parent.ino name).2
  | removedDir {path name : CString} {parent : Vnode}
      (hParent : vfsResolveParent x.volume path = .ok (parent, name)) :
      VolumeChange x (.rmdir path) (kfsVnodeRmdir x.volume parent.ino name).2

section Change

variable {s : Volume} {path : CString} {flags : Nat}

theorem openExisting_volume (node : Node) :
    (openExisting s node flags).2 = s ∨ ∃ v, node = .kfs v ∧
      (flags &&& oTrunc ≠ 0 ∧ flags &&& (oWronly ||| oRdwr) ≠ 0) ∧
      (openExisting s node flags).2 = (kfsVnodeTruncate s v.ino).2 := by
  rw [openExisting]
  split
  · exact .inl rfl
  split
  · rename_i hFlags
    cases node with
    | tty number => exact .inl rfl
    | blk => exact .inl rfl
    | kfs v =>
      refine .inr ⟨v, rfl, hFlags, ?_⟩
      simp only [Node.truncate]
      cases hRun : kfsVnodeTruncate s v.ino with
      | mk result s' => cases result <;> rfl
  · exact .inl rfl

theorem openCreate_volume :
    (openCreate s path flags).2 = s ∨ ∃ parent name,
      vfsResolveParent s path = .ok (parent, name) ∧
      (openCreate s path flags).2 = (kfsVnodeCreate s parent.ino name vnodeTypeFile).2 := by
  rw [openCreate]
  cases hParent : vfsResolveParent s path with
  | error err => exact .inl rfl
  | ok pair =>
    obtain ⟨parent, name⟩ := pair
    simp only
    split
    · exact .inl rfl
    · split
      · exact .inl rfl
      · refine .inr ⟨parent, name, rfl, ?_⟩
        cases hRun : kfsVnodeCreate s parent.ino name vnodeTypeFile with
        | mk result s' => cases result <;> rfl

theorem vfsOpen_change (x : Vfs) (path : CString) (flags : Nat) :
    VolumeChange x (.open path flags) (vfsOpen x.volume path flags).2 := by
  rw [vfsOpen]
  cases hPath : vfsResolvePath x.volume path with
  | ok node =>
    rcases @openExisting_volume x.volume flags node with hSame | ⟨v, rfl, hFlags, hRun⟩
    · simp only [hSame]
      exact .same
    · simp only [hRun]
      exact .truncated hPath hFlags
  | error err =>
    simp only
    split
    · rename_i hCreate
      rcases @openCreate_volume x.volume path flags with hSame | ⟨parent, name, hParent, hRun⟩
      · rw [hSame]
        exact .same
      · rw [hRun]
        exact .created (hCreate.1 ▸ hPath) hCreate.2 hParent
    · exact .same

theorem vfsStep_change (x : Vfs) (call : VfsCall) :
    VolumeChange x call (vfsStep x call).volume := by
  cases call with
  | «open» path flags =>
    have hChange := vfsOpen_change x path flags
    simp only [vfsStep]
    cases hRun : vfsOpen x.volume path flags with
    | mk result s =>
      rw [hRun] at hChange
      cases result <;> exact hChange
  | read file count typed =>
    simp only [vfsStep]
    split <;> exact .same
  | write file data =>
    simp only [vfsStep]
    cases hFile : x.handles file with
    | none => exact .same
    | some f =>
      simp only [vfsWrite]
      cases hNode : f.node with
      | kfs v => exact .written hFile hNode
      | tty number => exact .same
      | blk => exact .raw hFile hNode
  | getdents file count =>
    simp only [vfsStep]
    split <;> exact .same
  | close file => exact .same
  | mkdir path =>
    simp only [vfsStep, vfsMkdir]
    cases hParent : vfsResolveParent x.volume path with
    | error err => exact .same
    | ok pair =>
      obtain ⟨parent, name⟩ := pair
      simp only
      split
      · exact .same
      · cases hLookup : kfsVnodeLookup x.volume parent.ino name with
        | ok v => exact .same
        | error err =>
          have hChange := @VolumeChange.madeDir x path name parent hParent
          cases hRun : kfsVnodeCreate x.volume parent.ino name vnodeTypeDir with
          | mk result s =>
            rw [hRun] at hChange
            cases result <;> exact hChange
  | unlink path =>
    simp only [vfsStep, vfsUnlink]
    cases hParent : vfsResolveParent x.volume path with
    | error err => exact .same
    | ok pair =>
      simp only
      split
      · exact .same
      · exact .unlinked hParent
  | rmdir path =>
    simp only [vfsStep, vfsRmdir]
    cases hParent : vfsResolveParent x.volume path with
    | error err => exact .same
    | ok pair =>
      simp only
      split
      · exact .same
      · exact .removedDir hParent

end Change

section Directories

variable {s : Volume} {d : Nat} {dirs : Nat → List Record}

/-- The bytes, and with them the size, and the blocks of the file are as before. -/
def Untouched (s s' : Volume) (d : Nat) : Prop := s'.files d = s.files d ∧ s'.blocks d = s.blocks d

theorem Untouched.refl (s : Volume) (d : Nat) : Untouched s s d := ⟨rfl, rfl⟩

theorem Rewritten.untouched {ino : Nat} {s' : Volume} (h : Rewritten s dirs ino s')
    (hDir : kindOf s.files d = some kfsTypeDir) : Untouched s s' d := by
  cases h with
  | same => exact Untouched.refl s d
  | changed _ hFile hType _ hFrame hFiles =>
    have hNe : d ≠ ino := by
      rintro rfl
      rw [kindOf, hFile, Option.map_some, Option.some.injEq] at hDir
      exact hType hDir
    exact ⟨by rw [hFiles, update_of_ne hNe], hFrame.blocks d (by simp [hNe])⟩

theorem Made.untouched {parent type : Nat} {name : CString} {result : Except Int Vnode × Volume}
    (h : Made s dirs parent name type result) (hDir : kindOf s.files d = some kfsTypeDir)
    (hNe : d ≠ parent) : Untouched s result.2 d := by
  cases h with
  | refused _ _ hFrame hFiles => exact ⟨by rw [hFiles], hFrame.blocks d (by simp)⟩
  | existing _ _ _ => exact Untouched.refl s d
  | @made s' n _ _ _ _ hFree _ _ _ hFrame hFiles =>
    have hNew : d ≠ n := by
      rintro rfl
      rw [kindOf, hFree] at hDir
      cases hDir
    exact ⟨by rw [hFiles, update_of_ne hNe, update_of_ne hNew],
      hFrame.blocks d (by simp [hNe, hNew])⟩

/-- The call cuts off no record, starts no write beyond the end of a file, does not
write to a directory or truncate it, and does not write to the raw disk. -/
def VfsCall.Orderly (x : Vfs) : VfsCall → Prop
  | .open path flags =>
    (∀ v, vfsResolvePath x.volume path = .ok (.kfs v) → flags &&& oTrunc ≠ 0 →
      flags &&& (oWronly ||| oRdwr) ≠ 0 → x.volume.live v.ino = true →
        (x.volume.table v.ino).type ≠ kfsTypeDir) ∧
    (∀ parent name, vfsResolvePath x.volume path = .error (-enoent) → flags &&& oCreat ≠ 0 →
      vfsResolveParent x.volume path = .ok (parent, name) → RoomFor x.volume parent.ino name)
  | .write file _ => ∀ f, x.handles file = some f →
      f.node ≠ .blk ∧ ∀ v, f.node = .kfs v → WriteInside x.volume v.ino f.file
  | .mkdir path => ∀ parent name,
      vfsResolveParent x.volume path = .ok (parent, name) → RoomFor x.volume parent.ino name
  | _ => True

/-- The call creates an entry in the directory `d`. -/
def VfsCall.CreatesIn (x : Vfs) (d : Nat) : VfsCall → Prop
  | .open path flags =>
    vfsResolvePath x.volume path = .error (-enoent) ∧ flags &&& oCreat ≠ 0 ∧
      ∃ parent name, vfsResolveParent x.volume path = .ok (parent, name) ∧ parent.ino = d
  | _ => False

/-- Opening, reading, writing and closing leave every directory as it is, unless an
entry is created in it. The other calls are operations on directories. -/
def KeepsDirectories (x : Vfs) : VfsCall → Prop
  | .mkdir _ => True
  | .unlink _ => True
  | .rmdir _ => True
  | call => ∀ d, kindOf x.volume.files d = some kfsTypeDir → ¬call.CreatesIn x d →
      Untouched x.volume (vfsStep x call).volume d

variable {x : Vfs}

theorem keepsDirectories_of_all {call : VfsCall}
    (h : ∀ d, kindOf x.volume.files d = some kfsTypeDir → ¬call.CreatesIn x d →
      Untouched x.volume (vfsStep x call).volume d) : KeepsDirectories x call := by
  cases call <;> first | exact h | trivial

/-- A call that meets the condition keeps the volume well-formed and the directories as
they are. -/
theorem VfsCall.Orderly.step {call : VfsCall} (hOrderly : call.Orderly x)
    (h : x.volume.WellFormed True dirs) (hReliable : x.volume.mount.Reliable)
    (hHeap : x.volume.mount.HeapServes) :
    (vfsStep x call).volume.mount = x.volume.mount ∧
      (∃ dirs', (vfsStep x call).volume.WellFormed True dirs') ∧ KeepsDirectories x call := by
  have hChange := vfsStep_change x call
  generalize hVolume : (vfsStep x call).volume = s' at hChange
  cases hChange with
  | same =>
    refine ⟨rfl, ⟨dirs, h⟩, keepsDirectories_of_all (fun d _ _ => ?_)⟩
    rw [hVolume]
    exact Untouched.refl _ d
  | truncated hPath hFlags =>
    have hRewritten := h.truncate hReliable _ (hOrderly.1 _ hPath hFlags.1 hFlags.2)
    obtain ⟨hMount, hWell⟩ := hRewritten.keeps h
    refine ⟨hMount, ⟨dirs, hWell⟩, keepsDirectories_of_all (fun d hDir _ => ?_)⟩
    rw [hVolume]
    exact hRewritten.untouched hDir
  | @created path name flags parent hPath hFlags hParent =>
    have hMade := h.create hReliable hHeap parent.ino name vnodeTypeFile
      (hOrderly.2 _ _ hPath hFlags hParent)
    obtain ⟨hMount, hWell⟩ := hMade.keeps h
    refine ⟨hMount, hWell, keepsDirectories_of_all (fun d hDir hElse => ?_)⟩
    rw [hVolume]
    exact hMade.untouched hDir
      (fun hEq => hElse ⟨hPath, hFlags, parent, name, hParent, hEq.symm⟩)
  | @written file data f v hFile hNode =>
    have hRewritten := h.write hReliable v.ino f.file data ((hOrderly f hFile).2 v hNode)
    obtain ⟨hMount, hWell⟩ := hRewritten.keeps h
    refine ⟨hMount, ⟨dirs, hWell⟩, keepsDirectories_of_all (fun d hDir _ => ?_)⟩
    rw [hVolume]
    exact hRewritten.untouched hDir
  | raw hFile hNode => exact absurd hNode (hOrderly _ hFile).1
  | @madeDir path name parent hParent =>
    obtain ⟨hMount, hWell⟩ := (h.create hReliable hHeap parent.ino name vnodeTypeDir
      (hOrderly parent name hParent)).keeps h
    exact ⟨hMount, hWell, trivial⟩
  | @unlinked path name parent hParent =>
    obtain ⟨hMount, hWell⟩ := (h.unlink hReliable hHeap parent.ino name).keeps h
    exact ⟨hMount, hWell, trivial⟩
  | @removedDir path name parent hParent =>
    obtain ⟨hMount, hWell⟩ := (h.rmdir hReliable hHeap parent.ino name).keeps h
    exact ⟨hMount, hWell, trivial⟩

/-- In a run whose calls all meet the condition, the directories change only by the
operations on directories. -/
theorem directories_kept_of_orderly {x : Vfs} {dirs : Nat → List Record}
    (h : x.volume.WellFormed True dirs) (hReliable : x.volume.mount.Reliable)
    (hHeap : x.volume.mount.HeapServes) {calls : List VfsCall}
    (hOrderly : EachStep vfsStep (fun x call => call.Orderly x) x calls) :
    EachStep vfsStep KeepsDirectories x calls := by
  induction calls generalizing x dirs with
  | nil => trivial
  | cons call calls ih =>
    obtain ⟨hFirst, hRest⟩ := hOrderly
    obtain ⟨hMount, ⟨dirs', hWell⟩, hKeeps⟩ := hFirst.step h hReliable hHeap
    exact ⟨hKeeps, ih hWell (by rw [hMount]; exact hReliable) (by rw [hMount]; exact hHeap) hRest⟩

/-- A mounted volume without files and without handles. -/
def freshVfs : Vfs := ⟨mkfsVolume, 32768, fun _ => none, 0⟩

theorem CString.ext_bytes {a b : CString} (h : a.bytes = b.bytes) : a = b := by
  cases a
  cases b
  simp only [CString.mk.injEq]
  exact h

instance : DecidableEq CString := fun a b =>
  decidable_of_iff (a.bytes = b.bytes) ⟨CString.ext_bytes, congrArg CString.bytes⟩

theorem rootVnode_eq (hMounted : s.Mounted) : rootVnode s = ⟨0, vnodeTypeDir⟩ := by
  rw [rootVnode, hMounted.superblock]
  rfl

/-- The vnodes of KFS are files and directories. -/
def Vnode.Openable (v : Vnode) : Prop := v.type = vnodeTypeFile ∨ v.type = vnodeTypeDir

theorem newHandle_eq {s : Volume} {v : Vnode} (hHeap : s.mount.HeapServes) (hType : v.Openable)
    (flags : Nat) : newHandle s (.kfs v) flags = .ok ⟨.kfs v, ⟨0, flags⟩⟩ := by
  have hNot : ¬((Node.kfs v).type ≠ vnodeTypeFile ∧ (Node.kfs v).type ≠ vnodeTypeDir) := by
    rintro ⟨hFile, hDir⟩
    exact hType.elim hFile hDir
  rw [newHandle, if_neg hNot, if_pos (Volume.kmalloc_eq hHeap (by decide))]

/-- The path `/`. -/
def rootPath : CString := letter slash (by decide)

/-- Runs in which a directory changes although no entry is created or removed: it is
opened with `O_TRUNC`, or it is written to. -/
theorem directories_not_kept :
    ¬EachStep vfsStep KeepsDirectories freshVfs
        [.mkdir (letter 100 (by decide)), .open rootPath (oTrunc ||| oWronly)] ∧
      ¬EachStep vfsStep KeepsDirectories freshVfs
        [.mkdir (letter 100 (by decide)), .open rootPath oWronly,
          .write 0 (List.replicate 100 0)] := by
  constructor
  · rintro ⟨_, hKeeps, _⟩
    have hPath :
        vfsResolvePath (vfsStep freshVfs (.mkdir (letter 100 (by decide)))).volume rootPath =
        .ok (.kfs ⟨0, vnodeTypeDir⟩) := by decide +kernel
    have hSame :=
      (hKeeps 0 (by decide +kernel) (fun hCreates => nomatch hPath.symm.trans hCreates.1)).1
    revert hSame
    decide +kernel
  · rintro ⟨_, _, hKeeps, _⟩
    have hSame := (hKeeps 0 (by decide +kernel) id).1
    revert hSame
    decide +kernel

/-- A directory is created, opened, read and closed. -/
theorem directories_kept_of_listing :
    EachStep vfsStep KeepsDirectories freshVfs
      [.mkdir (letter 100 (by decide)), .open (letter 100 (by decide)) 0, .read 0 16 [],
        .close 0] := by
  refine directories_kept_of_orderly mkfsVolume_wellFormed mkfsVolume_reliable
    mkfsVolume_heapServes ⟨?_, ⟨?_, ?_⟩, trivial, trivial, trivial⟩
  · intro parent name hParent
    have hRoot : vfsResolveParent mkfsVolume (letter 100 (by decide)) =
        .ok (⟨0, vnodeTypeDir⟩, letter 100 (by decide)) := by decide +kernel
    cases hRoot.symm.trans hParent
    decide +kernel
  · intro v _ hTrunc
    exact absurd (Nat.zero_and oTrunc) hTrunc
  · intro parent name _ hCreat
    exact absurd (Nat.zero_and oCreat) hCreat

end Directories

end Kryos.Fs
