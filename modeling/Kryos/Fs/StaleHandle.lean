import Kryos.Fs.VfsRun

/-! Handles on files that have been removed. A vnode holds only an inode number, so such
a handle is harmless for as long as that number stays unused. -/
namespace Kryos.Fs

open Bitmap Function Trace

variable {call : VfsCall} {x : Vfs} {file ino : Nat} {s : Volume}

theorem blkVnodeWrite_marks (sectorCount fuel : Nat) (s : Volume) (total offset : Nat)
    (buf : List UInt8) :
    s.MarksNoInode (blkVnodeWrite sectorCount fuel s total offset buf).2.2 := by
  induction fuel generalizing s total offset buf with
  | zero => exact .refl s
  | succ fuel ih =>
    rw [blkVnodeWrite]
    split
    · split
      · exact .refl s
      · rename_i bounce _
        have hStore := s.writeSectors_marks (offset / 512) (copyInto bounce (offset % 512)
          (buf.take (min (512 - offset % 512) buf.length)))
        simp only
        generalize s.writeSectors (offset / 512) (copyInto bounce (offset % 512)
          (buf.take (min (512 - offset % 512) buf.length))) = written at hStore
        obtain ⟨_ | _, s₁⟩ := written
        · exact hStore
        · exact hStore.trans (ih ..)
    · exact .refl s

/-- Only a call that creates a file or a directory takes an inode into use. -/
def VfsCall.Creates : VfsCall → Prop
  | .open _ flags => flags &&& oCreat ≠ 0
  | .mkdir _ => True
  | _ => False

/-- Such a call takes only the first free inode. -/
theorem vfsStep_unmarked (x : Vfs) (hFree : isSet x.volume.inodeBitmap ino = false)
    (hSpared : call.Creates → firstClear x.volume.inodeBitmap 1 x.volume.sb.inodeCount ≠ some ino) :
    isSet (vfsStep x call).volume.inodeBitmap ino = false := by
  have hChange := vfsStep_change x call
  generalize (vfsStep x call).volume = s at hChange
  cases hChange with
  | same => exact hFree
  | truncated => exact (kfsVnodeTruncate_marks ..).unmarked ino hFree
  | created _ hFlags => exact (kfsVnodeCreate_marks ..).unmarked ino (hSpared hFlags) hFree
  | written => exact (kfsVnodeWrite_marks ..).unmarked ino hFree
  | raw => exact (blkVnodeWrite_marks ..).unmarked ino hFree
  | madeDir => exact (kfsVnodeCreate_marks ..).unmarked ino (hSpared trivial) hFree
  | unlinked => exact (kfsVnodeUnlink_marks ..).unmarked ino hFree
  | removedDir => exact (kfsVnodeRmdir_marks ..).unmarked ino hFree

/-- An open handle on the inode `ino`. -/
def Vfs.Refers (x : Vfs) (file ino : Nat) : Prop :=
  ∃ f v, x.handles file = some f ∧ f.node = .kfs v ∧ v.ino = ino

/-- Before a call that creates, no handle refers to the first free inode. -/
def VfsCall.SparesHeld (x : Vfs) (call : VfsCall) : Prop :=
  call.Creates → ∀ file ino, x.Refers file ino →
    firstClear x.volume.inodeBitmap 1 x.volume.sb.inodeCount ≠ some ino

/-- An open handle has the vnode it had, and a number given out is not used again. -/
structure Vfs.KeepsHandles (x x' : Vfs) : Prop where
  next_le : x.next ≤ x'.next
  kept : ∀ file < x.next, ∀ f', x'.handles file = some f' →
    ∃ f, x.handles file = some f ∧ f'.node = f.node

namespace Vfs.KeepsHandles

variable {x : Vfs} {s : Volume} {file : Nat} {f : Handle}

theorem same : x.KeepsHandles { x with volume := s } :=
  ⟨le_rfl, fun _ _ f' hFile => ⟨f', hFile, rfl⟩⟩

theorem opened :
    x.KeepsHandles ⟨s, x.sectorCount, update x.handles x.next (some f), x.next + 1⟩ := by
  refine ⟨Nat.le_succ _, fun file hIssued f' hFile => ?_⟩
  exact ⟨f', (update_of_ne hIssued.ne ..).symm.trans hFile, rfl⟩

theorem moved (hFile : x.handles file = some f) (offset : Nat) :
    x.KeepsHandles { x with
      volume := s, handles := update x.handles file (some (f.moveTo offset)) } := by
  refine ⟨le_rfl, fun other _ f' hOther => ?_⟩
  rcases eq_or_ne other file with rfl | hNe
  · have hMoved := (update_self ..).symm.trans hOther
    rw [Option.some.injEq] at hMoved
    exact ⟨f, hFile, hMoved ▸ rfl⟩
  · exact ⟨f', (update_of_ne hNe ..).symm.trans hOther, rfl⟩

theorem closed (file : Nat) :
    x.KeepsHandles { x with handles := update x.handles file none } := by
  refine ⟨le_rfl, fun other _ f' hOther => ?_⟩
  rcases eq_or_ne other file with rfl | hNe
  · cases (update_self ..).symm.trans hOther
  · exact ⟨f', (update_of_ne hNe ..).symm.trans hOther, rfl⟩

end Vfs.KeepsHandles

theorem vfsStep_keepsHandles (x : Vfs) (call : VfsCall) : x.KeepsHandles (vfsStep x call) := by
  cases call with
  | «open» path flags =>
    simp only [vfsStep]
    split
    · exact .opened
    · exact .same
  | read file count typed =>
    simp only [vfsStep]
    split
    · exact .same
    · exact .moved ‹_› _
  | write file data =>
    simp only [vfsStep]
    split
    · exact .same
    · exact .moved ‹_› _
  | getdents file count =>
    simp only [vfsStep]
    split
    · exact .same
    · exact .moved ‹_› _
  | close file => exact .closed file
  | mkdir path => exact .same
  | unlink path => exact .same
  | rmdir path => exact .same

/-- The handle `file` is closed, or it is on the inode `ino`, which is not in use. -/
structure Vfs.Stale (x : Vfs) (file ino : Nat) : Prop where
  issued : file < x.next
  unused : ∀ f, x.handles file = some f →
    (∃ v, f.node = .kfs v ∧ v.ino = ino) ∧ isSet x.volume.inodeBitmap ino = false

theorem Vfs.Stale.step (h : x.Stale file ino) (hCall : call.SparesHeld x) :
    (vfsStep x call).Stale file ino := by
  have hKeeps := vfsStep_keepsHandles x call
  refine ⟨h.issued.trans_le hKeeps.next_le, fun f' hFile' => ?_⟩
  obtain ⟨f, hFile, hNode⟩ := hKeeps.kept file h.issued f' hFile'
  obtain ⟨⟨v, hVnode, hIno⟩, hFree⟩ := h.unused f hFile
  exact ⟨⟨v, hNode.trans hVnode, hIno⟩, vfsStep_unmarked x hFree fun hCreates =>
    hCall hCreates file ino ⟨f, v, hFile, hVnode, hIno⟩⟩

theorem Vfs.Stale.run (h : x.Stale file ino) {calls : List VfsCall}
    (hRun : EachStep vfsStep (fun x call => call.SparesHeld x) x calls) :
    (calls.foldl vfsStep x).Stale file ino := by
  induction calls generalizing x with
  | nil => exact h
  | cons call rest ih => exact ih (h.step hRun.1) hRun.2

theorem kfsReadInode_unused (hFree : isSet s.inodeBitmap ino = false) :
    ∃ err, kfsReadInode s ino = .error err := by
  rw [kfsReadInode]
  split
  · exact ⟨_, rfl⟩
  · rw [hFree]
    exact ⟨_, rfl⟩

theorem kfsVnodeWrite_unused (hFree : isSet s.inodeBitmap ino = false) (f : OpenFile)
    (buf : List UInt8) : (kfsVnodeWrite s ino f buf).2.2 = s := by
  obtain ⟨err, hRead⟩ := kfsReadInode_unused hFree
  rw [kfsVnodeWrite, hRead]
  split
  · rfl
  split <;> rfl

/-- After the file of a handle has been removed, the handle reaches no file in any run in
which no call takes an inode into use that a handle is on: a read fails and a write leaves
the volume as it is. -/
theorem stale_handle_reaches_nothing {x : Vfs} {file : Nat} {f : Handle} {v : Vnode}
    (hIssued : file < x.next) (hFile : x.handles file = some f) (hNode : f.node = .kfs v)
    (hRemoved : isSet x.volume.inodeBitmap v.ino = false) {calls : List VfsCall}
    (hRun : EachStep vfsStep (fun x call => call.SparesHeld x) x calls) {y : Vfs}
    (hEnd : calls.foldl vfsStep x = y) {f' : Handle} (hOpen : y.handles file = some f') :
    (∀ count typed, ∃ err, (vfsRead y.volume y.sectorCount f' count typed).1 = .error err) ∧
      ∀ data, (vfsWrite y.volume y.sectorCount f' data).2.2 = y.volume := by
  have hStale : x.Stale file v.ino := by
    refine ⟨hIssued, fun g hg => ⟨⟨v, ?_, rfl⟩, hRemoved⟩⟩
    rw [hFile, Option.some.injEq] at hg
    exact hg ▸ hNode
  obtain ⟨⟨v', hNode', hIno⟩, hFree⟩ := (hEnd ▸ hStale.run hRun).unused f' hOpen
  constructor
  · intro count typed
    obtain ⟨err, hRead⟩ := kfsReadInode_unused hFree
    refine ⟨err, ?_⟩
    simp only [vfsRead, hNode', hIno, kfsVnodeRead, hRead]
  · intro data
    simp only [vfsWrite, hNode', hIno, kfsVnodeWrite_unused hFree]

/-- A file is opened and removed, and a directory is created, which gets its inode. The
handle then reads the records of the directory, and a write through it changes them. -/
theorem stale_handle_reaches_new_directory :
    ∃ (s : Volume) (dirs : Nat → List Record) (x y : Vfs) (f : Handle) (v : Vnode)
      (content : List UInt8), s.WellFormed True dirs ∧ s.mount.Reliable ∧ s.mount.HeapServes ∧
      [.open fileA oRdwr, .unlink fileA].foldl vfsStep ⟨s, 32768, fun _ => none, 0⟩ = x ∧
      x.handles 0 = some f ∧ f.node = .kfs v ∧ isSet x.volume.inodeBitmap v.ino = false ∧
      vfsStep x (.mkdir dirB) = y ∧ y.handles 0 = some f ∧ content ≠ [] ∧
      y.volume.files v.ino = some ⟨kfsTypeDir, content⟩ ∧
      (vfsRead y.volume y.sectorCount f 24 []).1 = .ok content ∧
      (vfsWrite y.volume y.sectorCount f (List.replicate 100 0)).2.2.files v.ino ≠
        y.volume.files v.ino := by
  obtain ⟨dirs, _, hWell, _⟩ := fileVolume_wellFormed
  refine ⟨fileVolume, dirs, _, _, ⟨.kfs ⟨1, vnodeTypeFile⟩, ⟨0, oRdwr⟩⟩, ⟨1, vnodeTypeFile⟩,
    dotsBlock 1 0, hWell, fileVolume_reliable, fileVolume_heapServes, rfl, ?_, rfl, ?_, rfl, ?_,
    by decide, ?_, ?_, ?_⟩ <;> decide +kernel

theorem handles_open (x : Vfs) {path : CString} {flags : Nat} {f : Handle}
    (hOpen : (vfsOpen x.volume path flags).1 = .ok f) :
    (vfsStep x (.open path flags)).handles = update x.handles x.next (some f) := by
  rw [vfsStep]
  generalize vfsOpen x.volume path flags = opened at hOpen
  obtain ⟨_, s⟩ := opened
  cases hOpen
  rfl

/-- The file `b` is created through a handle and removed, then the file `a`. -/
def bothRemoved : Vfs :=
  [.open dirB (oCreat ||| oRdwr), .unlink dirB, .unlink fileA].foldl vfsStep
    ⟨fileVolume, 32768, fun _ => none, 0⟩

/-- The handle on `b`. -/
def handleB : Handle := ⟨.kfs ⟨2, vnodeTypeFile⟩, ⟨0, oCreat ||| oRdwr⟩⟩

theorem eq_zero_of_bothRemoved (h : bothRemoved.handles file ≠ none) : file = 0 := by
  have hOpen : (vfsOpen fileVolume dirB (oCreat ||| oRdwr)).1 = .ok handleB := by decide +kernel
  by_contra hNe
  refine h ?_
  change (vfsStep ⟨fileVolume, 32768, fun _ => none, 0⟩ (.open dirB (oCreat ||| oRdwr))).handles
    file = none
  rw [@handles_open ⟨fileVolume, 32768, fun _ => none, 0⟩ _ _ _ hOpen, update_of_ne hNe]

/-- A new directory gets the inode of `a`, and the handle on `b` does not reach it. -/
theorem stale_handle_reaches_nothing_unlinked :
    ∃ y : Vfs, [.mkdir fileA].foldl vfsStep bothRemoved = y ∧ y.handles 0 = some handleB ∧
      y.volume.files 1 ≠ none ∧
      (∀ count typed, ∃ err, (vfsRead y.volume y.sectorCount handleB count typed).1 = .error err) ∧
      ∀ data, (vfsWrite y.volume y.sectorCount handleB data).2.2 = y.volume := by
  have hFile : bothRemoved.handles 0 = some handleB := by decide +kernel
  have hFirst : firstClear bothRemoved.volume.inodeBitmap 1 bothRemoved.volume.sb.inodeCount =
      some 1 := by decide +kernel
  refine ⟨_, rfl, by decide +kernel, by decide +kernel, @stale_handle_reaches_nothing _ 0 _
    ⟨2, vnodeTypeFile⟩ (by decide +kernel) hFile rfl (by decide +kernel) [.mkdir fileA]
    ⟨?_, trivial⟩ _ rfl handleB (by decide +kernel)⟩
  rintro _ file ino ⟨f, v, hOpen, hNode, rfl⟩ hTaken
  obtain rfl := eq_zero_of_bothRemoved (by rw [hOpen]; exact Option.some_ne_none f)
  rw [hFile, Option.some.injEq] at hOpen
  rw [← hOpen, handleB, Node.kfs.injEq] at hNode
  rw [hFirst, ← hNode] at hTaken
  cases hTaken

end Kryos.Fs
