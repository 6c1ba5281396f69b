import Kryos.Fs.BlockMap

/-! What the bitmaps are. The bits of blocks and inodes say which are held, so two volumes
with the same files have the same bits; the bits that belong to no block and no inode are
changed by no operation of KFS, on any device. -/
namespace Kryos.Fs

open Bitmap LittleEndian Word

namespace Volume

variable {s s' s'' : Volume}

/-- What stands in the bitmaps behind the last block and the last inode is kept. -/
structure Beyond (s s' : Volume) : Prop where
  mount : s'.mount = s.mount
  blockBits : ∀ b, s.sb.totalBlocks ≤ b → isSet s'.blockBitmap b = isSet s.blockBitmap b
  inodeBits : ∀ i, s.sb.inodeCount ≤ i → isSet s'.inodeBitmap i = isSet s.inodeBitmap i

theorem Beyond.refl (s : Volume) : s.Beyond s := ⟨rfl, fun _ _ => rfl, fun _ _ => rfl⟩

theorem Beyond.trans (h : s.Beyond s') (h' : s'.Beyond s'') : s.Beyond s'' := by
  have hSb : s'.sb = s.sb := congrArg Mount.sb h.mount
  constructor
  · exact h'.mount.trans h.mount
  · intro b hb
    rw [h'.blockBits b (hSb ▸ hb), h.blockBits b hb]
  · intro i hi
    rw [h'.inodeBits i (hSb ▸ hi), h.inodeBits i hi]

/-- Moreover, no inode is in use that was not in use before. -/
structure MarksNoInode (s s' : Volume) : Prop extends s.Beyond s' where
  unmarked : ∀ ino, isSet s.inodeBitmap ino = false → isSet s'.inodeBitmap ino = false

theorem MarksNoInode.refl (s : Volume) : s.MarksNoInode s := ⟨.refl s, fun _ h => h⟩

theorem MarksNoInode.trans (h : s.MarksNoInode s') (h' : s'.MarksNoInode s'') :
    s.MarksNoInode s'' :=
  ⟨h.toBeyond.trans h'.toBeyond, fun ino hFree => h'.unmarked ino (h.unmarked ino hFree)⟩

/-- Or only the inode that `kfs_alloc_inode` finds first. -/
structure MarksFirst (s s' : Volume) : Prop extends s.Beyond s' where
  unmarked : ∀ ino, firstClear s.inodeBitmap 1 s.sb.inodeCount ≠ some ino →
    isSet s.inodeBitmap ino = false → isSet s'.inodeBitmap ino = false

theorem MarksFirst.refl (s : Volume) : s.MarksFirst s := ⟨.refl s, fun _ _ h => h⟩

theorem MarksFirst.trans (h : s.MarksFirst s') (h' : s'.MarksNoInode s'') : s.MarksFirst s'' :=
  ⟨h.toBeyond.trans h'.toBeyond, fun ino hOther hFree =>
    h'.unmarked ino (h.unmarked ino hOther hFree)⟩

theorem MarksNoInode.foldl {α β : Type*} {volume : β → Volume} {step : β → α → β}
    (h : ∀ state a, (volume state).MarksNoInode (volume (step state a)))
    (items : List α) (state : β) :
    (volume state).MarksNoInode (volume (items.foldl step state)) := by
  induction items generalizing state with
  | nil => exact .refl _
  | cons a items ih => exact (h state a).trans (ih (step state a))

theorem writeSectors_marks (s : Volume) (sector : Nat) (data : Sector) :
    s.MarksNoInode (s.writeSectors sector data).2 := by
  unfold Volume.writeSectors
  split <;> exact ⟨⟨rfl, fun _ _ => rfl, fun _ _ => rfl⟩, fun _ h => h⟩

theorem marks_of_blockBit {bitmap : Bytes}
    (h : ∀ b, s.sb.totalBlocks ≤ b → isSet bitmap b = isSet s.blockBitmap b) :
    s.MarksNoInode { s with blockBitmap := bitmap } := ⟨⟨rfl, h, fun _ _ => rfl⟩, fun _ h => h⟩

end Volume

open Volume (MarksNoInode)

variable {s : Volume}

theorem kfsWriteInode_marks (s : Volume) (ino : Nat) (inode : Inode) :
    s.MarksNoInode (kfsWriteInode s ino inode).2 := by
  unfold kfsWriteInode
  split
  · exact .refl s
  · split
    · exact .refl s
    · exact s.writeSectors_marks _ _

theorem kfsAllocInode_marks (s : Volume) (type : Nat) : s.MarksFirst (kfsAllocInode s type).2 := by
  unfold kfsAllocInode
  split
  · exact .refl s
  · rename_i i hFirst
    have hHi := (firstClear_some hFirst).2.1
    have hSet : s.MarksFirst { s with inodeBitmap := set s.inodeBitmap i } := by
      refine ⟨⟨rfl, fun _ _ => rfl, fun j hj => ?_⟩, fun j hOther hFree => ?_⟩
      · rw [isSet_set, decide_eq_false (by omega), Bool.false_or]
      · rw [isSet_set, hFree, decide_eq_false fun hSame : j = i =>
          hOther (hSame ▸ hFirst), Bool.false_or]
    have hFlush := hSet.trans (Volume.writeSectors_marks _
      (u32 (s.sb.inodeBitmapStart + i / 8 / 512))
      (fun j => set s.inodeBitmap i (i / 8 / 512 * 512 + j)))
    change s.MarksFirst
      (flushInodeBitmap { s with inodeBitmap := set s.inodeBitmap i } i).2 at hFlush
    generalize flushInodeBitmap { s with inodeBitmap := set s.inodeBitmap i } i = flushed at hFlush
    obtain ⟨_ | _, s₁⟩ := flushed
    · exact hFlush
    · have hWrite := hFlush.trans
        (kfsWriteInode_marks s₁ i { Inode.zero with type := type, linkCount := 1 })
      simp only
      generalize kfsWriteInode s₁ i { Inode.zero with type := type, linkCount := 1 } = written
        at hWrite
      obtain ⟨_ | _, s₂⟩ := written
      · exact hWrite
      · exact hWrite

theorem kfsFreeInode_marks (s : Volume) (ino : Nat) : s.MarksNoInode (kfsFreeInode s ino).2 := by
  unfold kfsFreeInode
  split
  · exact .refl s
  · have hClear : s.MarksNoInode { s with inodeBitmap := clear s.inodeBitmap ino } := by
      refine ⟨⟨rfl, fun _ _ => rfl, fun j hj => ?_⟩, fun i hFree => ?_⟩
      · rw [isSet_clear, decide_eq_false (by omega), Bool.not_false, Bool.true_and]
      · rw [isSet_clear, hFree, Bool.and_false]
    exact hClear.trans (Volume.writeSectors_marks _ _ _)

theorem kfsAllocBlock_marks (s : Volume) : s.MarksNoInode (kfsAllocBlock s).2 := by
  unfold kfsAllocBlock
  split
  · exact .refl s
  · rename_i i hFirst
    have hHi := (firstClear_some hFirst).2.1
    have hSet : s.MarksNoInode { s with blockBitmap := set s.blockBitmap i } :=
      Volume.marks_of_blockBit (fun b hb => by
        rw [isSet_set, decide_eq_false (by omega), Bool.false_or])
    have hFlush := hSet.trans (Volume.writeSectors_marks _
      (u32 (s.sb.blockBitmapStart + i / 8 / 512))
      (fun j => set s.blockBitmap i (i / 8 / 512 * 512 + j)))
    change s.MarksNoInode
      (flushBlockBitmap { s with blockBitmap := set s.blockBitmap i } i).2 at hFlush
    generalize flushBlockBitmap { s with blockBitmap := set s.blockBitmap i } i = flushed at hFlush
    obtain ⟨_ | _, s₁⟩ := flushed
    · exact hFlush
    · have hWrite := hFlush.trans (s₁.writeSectors_marks i (fun _ => 0))
      simp only
      generalize s₁.writeSectors i (fun _ => 0) = written at hWrite
      obtain ⟨_ | _, s₂⟩ := written
      · exact hWrite
      · exact hWrite

theorem kfsFreeBlock_marks (s : Volume) (blk : Nat) : s.MarksNoInode (kfsFreeBlock s blk).2 := by
  unfold kfsFreeBlock
  split
  · exact .refl s
  · have hClear : s.MarksNoInode { s with blockBitmap := clear s.blockBitmap blk } :=
      Volume.marks_of_blockBit (fun b hb => by
        rw [isSet_clear, decide_eq_false (by omega), Bool.not_false, Bool.true_and])
    exact hClear.trans (Volume.writeSectors_marks _ _ _)

section Write

theorem ensureIndirect_marks (s : Volume) (inode : Inode) (dirty : Bool) :
    s.MarksNoInode (ensureIndirect s inode dirty).2 := by
  have hAlloc := kfsAllocBlock_marks s
  unfold ensureIndirect
  split
  · generalize kfsAllocBlock s = allocated at hAlloc
    obtain ⟨_ | _, s₁⟩ := allocated
    · exact hAlloc
    · exact hAlloc
  · exact .refl s

theorem ensureEntry_marks (s : Volume) (indirect indOffset : Nat) :
    s.MarksNoInode (ensureEntry s indirect indOffset).2 := by
  have hAlloc := kfsAllocBlock_marks s
  unfold ensureEntry
  split
  · exact .refl s
  · rename_i indBuf _
    split
    · generalize kfsAllocBlock s = allocated at hAlloc
      obtain ⟨_ | newBlk, s₁⟩ := allocated
      · exact hAlloc
      · have hWrite := hAlloc.trans
          (s₁.writeSectors_marks indirect (storeWords indBuf indOffset 1 (fun _ => newBlk)))
        simp only
        generalize s₁.writeSectors indirect
          (storeWords indBuf indOffset 1 (fun _ => newBlk)) = written
          at hWrite
        obtain ⟨_ | _, s₂⟩ := written
        · exact hWrite
        · exact hWrite
    · exact .refl s

theorem kfsMapOrAllocBlock_marks (s : Volume) (inode : Inode) (logicalBlk : Nat) (dirty : Bool) :
    s.MarksNoInode (kfsMapOrAllocBlock s inode logicalBlk dirty).2 := by
  unfold kfsMapOrAllocBlock
  split
  · have hAlloc := kfsAllocBlock_marks s
    split
    · generalize kfsAllocBlock s = allocated at hAlloc
      obtain ⟨_ | _, s₁⟩ := allocated
      · exact hAlloc
      · exact hAlloc
    · exact .refl s
  · split
    · exact .refl s
    · have hIndirect := ensureIndirect_marks s inode dirty
      generalize ensureIndirect s inode dirty = ensured at hIndirect
      obtain ⟨⟨_ | indirect, inode', dirty'⟩, s₁⟩ := ensured
      · exact hIndirect
      · exact hIndirect.trans (ensureEntry_marks s₁ indirect (logicalBlk - 10))

theorem writeChunk_marks (s : Volume) (p : WriteProgress) (src : List UInt8) :
    s.MarksNoInode (writeChunk s p src).2.2 := by
  have hMap := kfsMapOrAllocBlock_marks s p.inode (u32 (p.offset / 512)) p.dirty
  unfold writeChunk
  generalize kfsMapOrAllocBlock s p.inode (u32 (p.offset / 512)) p.dirty = mapped at hMap
  obtain ⟨⟨_ | physBlk, inode, dirty⟩, s₁⟩ := mapped
  · exact hMap
  · simp only
    split
    · exact hMap
    · rename_i blkBuf _
      have hWrite := hMap.trans (s₁.writeSectors_marks physBlk (copyInto blkBuf (p.offset % 512)
        (src.take (min (512 - p.offset % 512) src.length))))
      generalize s₁.writeSectors physBlk (copyInto blkBuf (p.offset % 512)
        (src.take (min (512 - p.offset % 512) src.length))) = written at hWrite
      obtain ⟨_ | _, s₂⟩ := written
      · exact hWrite
      · exact hWrite

theorem writeLoop_marks (fuel : Nat) (s : Volume) (p : WriteProgress) (src : List UInt8) :
    s.MarksNoInode (writeLoop fuel s p src).2 := by
  induction fuel generalizing s p src with
  | zero => exact .refl s
  | succ fuel ih =>
    have hChunk := writeChunk_marks s p src
    rw [writeLoop]
    split
    · exact .refl s
    · generalize writeChunk s p src = turn at hChunk
      obtain ⟨_ | chunk, p', s₁⟩ := turn
      · simp only
        split <;> exact hChunk
      · exact hChunk.trans (ih s₁ p' (src.drop chunk))

theorem kfsVnodeWrite_marks (s : Volume) (ino : Nat) (f : OpenFile) (buf : List UInt8) :
    s.MarksNoInode (kfsVnodeWrite s ino f buf).2.2 := by
  unfold kfsVnodeWrite
  split
  · exact .refl s
  split
  · exact .refl s
  split
  · exact .refl s
  · rename_i inode _
    have hLoop := writeLoop_marks buf.length s
      ⟨inode, false, if f.flags &&& oAppend ≠ 0 then inode.size else f.offset, 0⟩ buf
    simp only
    generalize writeLoop buf.length s
      ⟨inode, false, if f.flags &&& oAppend ≠ 0 then inode.size else f.offset, 0⟩ buf = ran at hLoop
    obtain ⟨_ | p, s₁⟩ := ran
    · exact hLoop
    · simp only
      split
      · have hInode := hLoop.trans (kfsWriteInode_marks s₁ ino p.inode)
        generalize kfsWriteInode s₁ ino p.inode = written at hInode
        obtain ⟨_ | _, s₂⟩ := written
        · exact hInode
        · exact hInode
      · exact hLoop

end Write

section Create

theorem populateDir_marks (s : Volume) (dirIno newIno : Nat) :
    s.MarksNoInode (populateDir s dirIno newIno).2 := by
  have hAlloc := kfsAllocBlock_marks s
  unfold populateDir
  generalize kfsAllocBlock s = allocated at hAlloc
  obtain ⟨_ | dirBlk, s₁⟩ := allocated
  · exact hAlloc.trans (kfsFreeInode_marks s₁ newIno)
  · have hUndo : ∀ s₂ : Volume, s.MarksNoInode s₂ →
        s.MarksNoInode (kfsFreeInode (kfsFreeBlock s₂ dirBlk).2 newIno).2 := fun s₂ h =>
      (h.trans (kfsFreeBlock_marks s₂ dirBlk)).trans (kfsFreeInode_marks _ newIno)
    have hWrite := hAlloc.trans
      (s₁.writeSectors_marks dirBlk (copyInto (fun _ => 0) 0 (dotsBlock newIno dirIno)))
    simp only
    generalize s₁.writeSectors dirBlk (copyInto (fun _ => 0) 0 (dotsBlock newIno dirIno)) = written
      at hWrite
    obtain ⟨_ | _, s₂⟩ := written
    · exact hUndo s₂ hWrite
    · have hInode := hWrite.trans (kfsWriteInode_marks s₂ newIno
        { Inode.zero with
          type := kfsTypeDir, size := 24, linkCount := 2
          direct := Function.update Inode.zero.direct 0 dirBlk })
      simp only
      generalize kfsWriteInode s₂ newIno
        { Inode.zero with
          type := kfsTypeDir, size := 24, linkCount := 2
          direct := Function.update Inode.zero.direct 0 dirBlk } = stored at hInode
      obtain ⟨_ | _, s₃⟩ := stored
      · exact hUndo s₃ hInode
      · exact hInode

theorem undoCreate_marks (s : Volume) (newIno kfsType : Nat) :
    s.MarksNoInode (undoCreate s newIno kfsType) := by
  unfold undoCreate
  refine MarksNoInode.trans ?_ (kfsFreeInode_marks _ newIno)
  split
  · split
    · split
      · exact kfsFreeBlock_marks s _
      · exact .refl s
    · exact .refl s
  · exact .refl s

theorem appendDirent_marks (s : Volume) (dirIno : Nat) (dirInode : Inode) (newIno kfsType : Nat)
    (name : CString) : s.MarksNoInode (appendDirent s dirIno dirInode newIno kfsType name).2 := by
  unfold appendDirent
  simp only
  split
  · exact undoCreate_marks s newIno kfsType
  · generalize OpenFile.mk _ oWronly = f
    have hWrite := kfsVnodeWrite_marks s dirIno f
      (direntRecord newIno (reclenOf name.bytes.length) kfsType name.bytes)
    generalize kfsVnodeWrite s dirIno f
      (direntRecord newIno (reclenOf name.bytes.length) kfsType name.bytes) = written at hWrite
    obtain ⟨_ | _, _, s₁⟩ := written
    · exact hWrite.trans (undoCreate_marks s₁ newIno kfsType)
    · exact hWrite

theorem createEntry_marks (s : Volume) (dirIno : Nat) (dirInode : Inode) (name : CString)
    (type : Nat) : s.MarksFirst (createEntry s dirIno dirInode name type).2 := by
  unfold createEntry
  simp only
  generalize (if type = vnodeTypeDir then kfsTypeDir else kfsTypeFile) = kfsType
  have hAlloc := kfsAllocInode_marks s kfsType
  generalize kfsAllocInode s kfsType = allocated at hAlloc
  obtain ⟨_ | newIno, s₁⟩ := allocated
  · exact hAlloc
  · have hPopulate : s₁.MarksNoInode
        (if kfsType = kfsTypeDir then populateDir s₁ dirIno newIno else (.ok (), s₁)).2 := by
      split
      · exact populateDir_marks s₁ dirIno newIno
      · exact .refl s₁
    simp only
    generalize (if kfsType = kfsTypeDir then populateDir s₁ dirIno newIno else (.ok (), s₁)) =
      populated
      at hPopulate
    obtain ⟨_ | _, s₂⟩ := populated
    · exact hAlloc.trans hPopulate
    · exact hAlloc.trans (hPopulate.trans
        (appendDirent_marks s₂ dirIno dirInode newIno kfsType name))

theorem kfsVnodeCreate_marks (s : Volume) (dirIno : Nat) (name : CString) (type : Nat) :
    s.MarksFirst (kfsVnodeCreate s dirIno name type).2 := by
  unfold kfsVnodeCreate
  split
  · exact .refl s
  split
  · exact .refl s
  split
  · exact .refl s
  split
  · exact .refl s
  split
  · split <;> exact .refl s
  · exact createEntry_marks s dirIno _ name type

end Create

section Remove

theorem freeDirect_marks (state : Inode × Volume) (i : Fin 10) :
    state.2.MarksNoInode (freeDirect state i).2 := by
  unfold freeDirect
  split
  · exact kfsFreeBlock_marks _ _
  · exact .refl _

theorem freeEntry_marks (indBuf : Sector) (s : Volume) (i : Nat) :
    s.MarksNoInode (freeEntry indBuf s i) := by
  unfold freeEntry
  split
  · exact kfsFreeBlock_marks _ _
  · exact .refl _

theorem kfsFreeInodeBlocks_marks (s : Volume) (inode : Inode) :
    s.MarksNoInode (kfsFreeInodeBlocks s inode).2 := by
  have hDirect := MarksNoInode.foldl freeDirect_marks (List.finRange 10) (inode, s)
  unfold kfsFreeInodeBlocks
  generalize (List.finRange 10).foldl freeDirect (inode, s) = state at hDirect
  obtain ⟨inode', s₁⟩ := state
  simp only
  split
  · refine MarksNoInode.trans (hDirect.trans ?_) (kfsFreeBlock_marks _ _)
    split
    · exact @MarksNoInode.foldl _ _ id _ (freeEntry_marks _) (List.range 128) s₁
    · exact .refl s₁
  · exact hDirect

theorem kfsVnodeTruncate_marks (s : Volume) (ino : Nat) :
    s.MarksNoInode (kfsVnodeTruncate s ino).2 := by
  unfold kfsVnodeTruncate
  split
  · exact .refl s
  · rename_i inode _
    have hFreed := kfsFreeInodeBlocks_marks s inode
    generalize kfsFreeInodeBlocks s inode = freed at hFreed
    exact hFreed.trans (kfsWriteInode_marks ..)

theorem freeDirBlock_marks (state : Inode × Volume) (b : Nat) :
    state.2.MarksNoInode (freeDirBlock state b).2 := by
  unfold freeDirBlock
  split
  · exact freeDirect_marks state _
  split
  · split
    · exact .refl _
    · split
      · exact (kfsFreeBlock_marks _ _).trans (Volume.writeSectors_marks _ _ _)
      · exact .refl _
  · exact .refl _

theorem dropIndirect_marks (newBlocks : Nat) (state : Inode × Volume) :
    state.2.MarksNoInode (dropIndirect newBlocks state).2 := by
  unfold dropIndirect
  split
  · exact kfsFreeBlock_marks _ _
  · exact .refl _

theorem shrinkDir_marks (s : Volume) (dirIno : Nat) (dirInode : Inode) (dirData : List UInt8)
    (newSize oldBlocks newBlocks : Nat) :
    s.MarksNoInode (shrinkDir s dirIno dirInode dirData newSize oldBlocks newBlocks).2 := by
  have hFreed := (MarksNoInode.foldl freeDirBlock_marks
    (List.range' newBlocks (oldBlocks - newBlocks)) (dirInode, s)).trans
      (dropIndirect_marks newBlocks _)
  have hRewrite := @MarksNoInode.foldl _ _ id (rewriteDirBlock
      (dropIndirect newBlocks ((List.range' newBlocks (oldBlocks - newBlocks)).foldl freeDirBlock
        (dirInode, s))).1 dirData newSize)
    (fun s₁ _ => s₁.writeSectors_marks _ _) (List.range newBlocks)
  exact (hFreed.trans (hRewrite _)).trans (kfsWriteInode_marks _ dirIno _)

theorem removeTarget_marks (s : Volume) (dirIno : Nat) (t : Target) :
    s.MarksNoInode (removeTarget s dirIno t).2 := by
  have hFreed := kfsFreeInodeBlocks_marks s t.inode
  unfold removeTarget
  generalize kfsFreeInodeBlocks s t.inode = freed at hFreed
  obtain ⟨inode, s₁⟩ := freed
  have hInode := (hFreed.trans (kfsWriteInode_marks s₁ t.ent.inode
    { inode with size := 0, type := 0, linkCount := 0 })).trans (kfsFreeInode_marks _ t.ent.inode)
  exact hInode.trans (shrinkDir_marks _ _ _ _ _ _ _)

theorem kfsVnodeUnlink_marks (s : Volume) (dirIno : Nat) (name : CString) :
    s.MarksNoInode (kfsVnodeUnlink s dirIno name).2 := by
  unfold kfsVnodeUnlink
  split
  · exact .refl s
  · split
    · exact .refl s
    · exact removeTarget_marks s dirIno _

theorem kfsVnodeRmdir_marks (s : Volume) (dirIno : Nat) (name : CString) :
    s.MarksNoInode (kfsVnodeRmdir s dirIno name).2 := by
  unfold kfsVnodeRmdir
  split
  · exact .refl s
  split
  · exact .refl s
  split
  · exact .refl s
  · exact removeTarget_marks s dirIno _

end Remove

section Determined

variable {s' : Volume} {total : Nat}

theorem Volume.slots_eq_blocks (s : Volume) (x : Nat × Nat) :
    s.slots s.table x = (s.blocks x.1).getD (fun _ => 0) x.2 := by
  unfold Volume.slots Volume.blocks
  split <;> rfl

theorem Volume.live_eq_isSome (s : Volume) (i : Nat) : s.live i = (s.blocks i).isSome := by
  unfold Volume.blocks
  cases s.live i <;> rfl

/-- Volumes whose inodes hold the same blocks have the same bitmaps. -/
theorem Volume.ConsistentAt.bitmaps_eq (h : s.ConsistentAt total True)
    (h' : s'.ConsistentAt total True) (hBeyond : s.Beyond s') (hBlocks : s'.blocks = s.blocks) :
    s'.blockBitmap = s.blockBitmap ∧ s'.inodeBitmap = s.inodeBitmap := by
  have hSb := h.mounted.superblock
  have hTotal : s.sb.totalBlocks = total := by rw [hSb]; rfl
  have hCount : s.sb.inodeCount = 128 := by rw [hSb]; rfl
  constructor
  · apply ext_isSet
    intro b
    rcases Nat.lt_or_ge b total with hHi | hHi
    · rcases Nat.lt_or_ge b 90 with hLo | hLo
      · rw [h.mounted.metadata b hLo, h'.mounted.metadata b hLo]
      · rw [Bool.eq_iff_iff,
          h.exclusive.used_iff (h.covered trivial) (by decide) hLo hHi,
          h'.exclusive.used_iff (h'.covered trivial) (by decide) hLo hHi]
        simp only [Volume.slots_eq_blocks, hBlocks]
    · exact hBeyond.blockBits b (hTotal.le.trans hHi)
  · apply ext_isSet
    intro i
    rcases Nat.lt_or_ge i 128 with hHi | hHi
    · have hLive : s'.live i = s.live i := by rw [s'.live_eq_isSome, s.live_eq_isSome, hBlocks]
      simpa [Volume.live, hHi] using hLive
    · exact hBeyond.inodeBits i (hCount.le.trans hHi)

end Determined

end Kryos.Fs
