import Kryos.Fs.BitmapFrame
import Kryos.Fs.DirectoryRemove
import Kryos.Fs.WriteSpace

/-! `kfs_vnode_create` in terms of the files: the new inode, the two dots of a new
directory, and the record appended to the parent. -/
namespace Kryos.Fs

open Bitmap Function

variable {total : Nat} {full : Prop} {s : Volume} {d n : Nat}
  {records : List Record} {name : CString}

section Room

/-- The marked inodes cannot hold all data blocks. -/
theorem Volume.ConsistentAt.room (h : s.Consistent True) : 14886 ≤ s.freeBelow 32768 := by
  have hSlots : ∀ x, s.slots s.table x ≠ 0 → x ∈ Finset.range 128 ×ˢ Finset.range 139 := by
    intro x hx
    obtain ⟨i, k⟩ := x
    cases hLive : s.live i with
    | false => simp [Volume.slots, hLive] at hx
    | true =>
      have hUsed : slotBlock s.disk (s.table i) k ≠ 0 := by simpa [Volume.slots, hLive] using hx
      have hNeed := ((h.sized i hLive).shape k).mp hUsed
      have hBound := (h.sized i hLive).bound
      have hi := Volume.live_lt hLive
      have hk : k < 139 := by
        unfold needed blocksOf at hNeed
        omega
      simp [hi, hk]
  have hCard : (Finset.range 128 ×ˢ Finset.range 139).card = 17792 := by
    rw [Finset.card_product, Finset.card_range, Finset.card_range]
  generalize Finset.range 128 ×ˢ Finset.range 139 = slots at hSlots hCard
  have hCount := (h.covered trivial).le_card_free (by decide) hSlots
  have hFree : ((Finset.Ico 90 32768).filter (fun b => isSet s.blockBitmap b = false)).card ≤
      s.freeBelow 32768 := by
    apply Finset.card_le_card
    intro b hb
    rw [Finset.mem_filter, Finset.mem_Ico] at hb
    exact mem_clearBits.mpr ⟨hb.1.2, hb.2⟩
  omega

theorem blockCost_le {size : Nat} (h : size ≤ 138 * 512) : blockCost (blocksOf size) ≤ 139 := by
  unfold blockCost blocksOf
  split_ifs <;> omega

end Room

section Write

theorem overwrite_end (content data : List UInt8) :
    overwrite content content.length data = content ++ data := by
  simp [overwrite]

/-- A file of the largest size takes no more bytes. -/
theorem kfsVnodeWrite_full {ino : Nat} (hConsistent : s.ConsistentAt total full)
    (hReliable : s.mount.Reliable) (hLive : s.live ino = true) {f : OpenFile} {data : List UInt8}
    (hWritable : f.flags &&& (oWronly ||| oRdwr) ≠ 0) (hData : data.length ≠ 0)
    (hStart : (if f.flags &&& oAppend ≠ 0 then (s.table ino).size else f.offset) = 138 * 512) :
    kfsVnodeWrite s ino f data = (.error (-efbig), 138 * 512, s) := by
  obtain ⟨count, hCount⟩ := Nat.exists_eq_succ_of_ne_zero hData
  have hLoop : writeLoop data.length s ⟨s.table ino, false, 138 * 512, 0⟩ data =
      (.error (-efbig), s) := by
    rw [hCount, writeLoop, if_neg hData, writeChunk_full rfl]
    simp
  simp only [kfsVnodeWrite, hWritable, hData, if_false,
    kfsReadInode_eq hConsistent.mounted hReliable hLive, hStart, hLoop]

end Write

section Discard

/-- An open inode without blocks may be unmarked without writing it back. -/
theorem Volume.OpenedAt.discard {ino : Nat} {inode : Inode}
    (h : s.OpenedAt total full ino inode (fun _ => False)) :
    (s.dropInode ino).ConsistentAt total full ∧
      (s.dropInode ino).files = update s.files ino none ∧
      s.Frame (s.dropInode ino) [ino] := by
  have hIno := Volume.live_lt h.live
  have hFits : ({ inode with size := 0 } : Inode).Fits := h.fits.setSize (Nat.two_pow_pos 32)
  have hSame : s.OpenedAt total full ino { inode with size := 0 } (fun _ => False) :=
    h.sameBlocks rfl rfl hFits
  have hEmpty : s.OpenedAt total full ino { inode with size := 0 } (needed (blocksOf 0)) :=
    hSame.congr_need (fun k => by simp [needed, blocksOf])
  obtain ⟨hClosed, hFiles, hFrame⟩ := hEmpty.close (Nat.zero_le _)
  have hTable := @Volume.putInode_table s _ _ hIno hFits
  obtain ⟨hDropped, hDroppedFiles, hDroppedFrame⟩ :=
    @Volume.ConsistentAt.dropInode _ _ _ ino hClosed
    (fun k => by
      have hSized := hClosed.sized ino h.live
      rw [hTable, update_self] at hSized ⊢
      by_contra hUsed
      have hNeed := (hSized.shape k).mp hUsed
      simp [needed, blocksOf] at hNeed)
  have hGone : (s.dropInode ino).live ino = false := by simp [Volume.dropInode_live]
  -- the inode on disk is dead, so what is stored there does not matter
  obtain ⟨hConsistent, hOthers, hRelabel⟩ :=
    @Volume.ConsistentAt.relabel _ _ _ (s.dropInode ino) ino
    hDropped h.mounted.dropInode rfl
    (fun c hc => by
      rw [Volume.dropInode, Volume.dropInode, Volume.setInodeBitmap_disk _ (by omega),
        Volume.setInodeBitmap_disk _ (by omega), Volume.putInode_disk _ hIno (.inr hc)])
    rfl (fun i _ => rfl)
    (fun i hi => by
      rw [Volume.dropInode, Volume.dropInode, Volume.setInodeBitmap_table,
        Volume.setInodeBitmap_table, hTable, update_of_ne hi])
    (fun hAlive => by simp [Volume.dropInode_live] at hAlive)
    (fun hAlive => by rw [hGone] at hAlive; cases hAlive)
  refine ⟨hConsistent, ?_, (hFrame.trans_same hDroppedFrame).trans_same hRelabel⟩
  funext i
  by_cases hi : i = ino
  · subst hi
    simp [Volume.files, hGone]
  · rw [hOthers i hi, hDroppedFiles, hFiles, update_of_ne hi, update_of_ne hi,
      update_of_ne hi]

end Discard

section Populate

theorem fileContent_oneBlock {disk : Nat → Sector} {inode : Inode} {bytes : List UInt8}
    (hSize : inode.size = bytes.length) (hFit : bytes.length ≤ 512)
    (hBlock : disk (slotBlock disk inode 0) = copyInto (fun _ => 0) 0 bytes) :
    fileContent disk inode = bytes := by
  apply List.ext_getElem
  · rw [length_fileContent, hSize]
  · intro i hi hBytes
    have hIndex : i / 512 = 0 ∧ i % 512 = i := by omega
    have hRange : 0 ≤ i ∧ i < 0 + bytes.length := by omega
    have hByte : (fileContent disk inode)[i] = fileByte disk inode i := by
      simp [fileContent, fileSlice]
    rw [hByte, fileByte, hIndex.1, hIndex.2, hBlock, copyInto, if_pos hRange, Nat.sub_zero,
      List.getD_eq_getElem?_getD, List.getElem?_eq_getElem hBytes, Option.getD_some]

/-- An empty inode gets its first block, with the given bytes in it. -/
theorem Volume.ConsistentAt.putFirstBlock (h : s.ConsistentAt total full) (hLive : s.live n = true)
    (hEmpty : (s.table n).size = 0) {blk : Nat} (hLo : 90 ≤ blk) (hHi : blk < total)
    (hFree : isSet s.blockBitmap blk = false) {inode : Inode} {bytes : List UInt8}
    (hSize : inode.size = bytes.length) (hSome : 0 < bytes.length) (hFit : bytes.length ≤ 512)
    (hDirect : inode.direct = update (fun _ => 0) 0 blk) (hIndirect : inode.indirect = 0)
    (hFits : inode.Fits) :
    (((s.takeBlock blk).putSector blk (copyInto (fun _ => 0) 0 bytes)).putInode
      n inode).ConsistentAt
        total full ∧
      (((s.takeBlock blk).putSector blk (copyInto (fun _ => 0) 0 bytes)).putInode n inode).files =
        update s.files n (some ⟨inode.type, bytes⟩) ∧
      s.Frame (((s.takeBlock blk).putSector blk (copyInto (fun _ => 0) 0 bytes)).putInode n inode)
        [n] := by
  have hZero : ∀ k, slotBlock s.disk (s.table n) k = 0 := by
    intro k
    by_contra hUsed
    have hNeed := ((h.sized n hLive).shape k).mp hUsed
    rw [hEmpty] at hNeed
    simp [needed, blocksOf] at hNeed
  have hNoDirect : (s.table n).direct = fun _ => 0 := by
    funext i
    have hSlot := hZero i
    have hi := i.isLt
    simpa [slotBlock, hi] using hSlot
  have hNoIndirect : (s.table n).indirect = 0 := by
    exact hZero 138
  obtain ⟨hTaken, hWithin⟩ :=
    (h.open hLive).takeDirect hLo hHi hFree (by decide : 0 < 10) (hZero 0)
  have hSame : (s.takeBlock blk).OpenedAt total full n inode (needed (blocksOf inode.size)) := by
    refine (hTaken.sameBlocks ?_ ?_ hFits).congr_need ?_
    · rw [hDirect, hNoDirect]
      rfl
    · rw [hIndirect]
      exact hNoIndirect.symm
    · unfold needed blocksOf
      omega
  have hSlot : slotBlock (s.takeBlock blk).disk inode 0 = blk := by simp [slotBlock, hDirect]
  obtain ⟨hWritten, hWithin', _⟩ := hSame.putData (by decide : 0 < 138)
    (by rw [hSlot]; omega) (copyInto (fun _ => 0) 0 bytes)
  rw [hSlot] at hWritten hWithin'
  obtain ⟨hClosed, hFiles, hFrame⟩ := hWritten.close (by omega)
  refine ⟨hClosed, ?_, (hWithin.trans hWithin').frame.trans_same hFrame⟩
  have hContent := @fileContent_oneBlock
    ((s.takeBlock blk).putSector blk (copyInto (fun _ => 0) 0 bytes)).disk inode bytes hSize hFit
    (by simp [slotBlock, hDirect])
  rw [hFiles, hContent, (hWithin.trans hWithin').files_update]

theorem length_dotsBlock (n d : Nat) : (dotsBlock n d).length = 24 := by
  rw [dotsBlock, List.length_append, length_direntRecord (by decide),
    length_direntRecord (by decide)]

theorem Inode.Fits.firstBlock {blk : Nat} (h : blk < 2 ^ 32) :
    ({ Inode.zero with
        type := kfsTypeDir, size := 24, linkCount := 2
        direct := update Inode.zero.direct 0 blk } : Inode).Fits :=
  (Inode.Fits.fresh (by decide) (by decide) (by decide)).setDirect 0 h

theorem populateDir_spec (h : s.ConsistentAt total full) (hReliable : s.mount.Reliable)
    (hFree : 0 < s.freeBelow total) (hLive : s.live n = true) (hEmpty : (s.table n).size = 0) :
    ∃ s', populateDir s d n = (.ok (), s') ∧ s'.ConsistentAt total full ∧ s.Frame s' [n] ∧
      s'.inodeBitmap = s.inodeBitmap ∧ s'.freeBelow total + 1 = s.freeBelow total ∧
      s'.files = update s.files n (some ⟨kfsTypeDir, dotsBlock n d⟩) ∧
      ∀ i, i ≠ n → s'.table i = s.table i := by
  obtain ⟨blk, hLo, hHi, hClear, hAlloc⟩ := kfsAllocBlock_eq h.mounted hReliable hFree
  have hBlk := h.mounted.lt hHi
  have hTaken : (s.takeBlock blk).mount.Reliable := hReliable
  have hPut : ((s.takeBlock blk).putSector blk
      (copyInto (fun _ => 0) 0 (dotsBlock n d))).mount.Reliable := hReliable
  have hMounted := (h.mounted.takeBlock hLo hBlk).putSector hLo
    (copyInto (fun _ => 0) 0 (dotsBlock n d))
  have hLength := length_dotsBlock n d
  have hDone := h.putFirstBlock hLive hEmpty hLo hHi hClear hLength.symm (by omega) (by omega) rfl
    rfl (Inode.Fits.firstBlock (by omega))
  refine ⟨_, ?_, hDone.1, hDone.2.2, rfl, Volume.freeBelow_takeBlock hHi hClear, hDone.2.1,
    fun i hi => ?_⟩
  · simp only [populateDir, hAlloc, Volume.writeSectors_eq hTaken,
      kfsWriteInode_eq hMounted hPut (Volume.live_lt hLive)]
  · rw [Volume.putInode_table (Volume.live_lt hLive) (Inode.Fits.firstBlock (by omega)),
      update_of_ne hi, Volume.putSector_table hLo, Volume.takeBlock_table hLo hBlk]

end Populate

section Append

theorem oWronly_writable : oWronly &&& (oWronly ||| oRdwr) ≠ 0 := by decide

theorem oWronly_positioned (size offset : Nat) :
    (if oWronly &&& oAppend ≠ 0 then size else offset) = offset := if_neg (by decide)

theorem Volume.ConsistentAt.open_empty (h : s.ConsistentAt total full) (hLive : s.live n = true)
    (hEmpty : (s.table n).size = 0) : s.OpenedAt total full n (s.table n) (fun _ => False) :=
  (h.open hLive).congr_need (fun k => by simp [hEmpty, needed, blocksOf])

/-- A record takes at most one more block, and an indirect block. -/
theorem blockCost_record {size count : Nat} (hCount : count ≤ 512) :
    blockCost (blocksOf (max size (size + count))) ≤ 2 + blockCost (blocksOf size) := by
  unfold blockCost blocksOf
  split_ifs <;> omega

theorem length_newDirent (hLength : name.bytes.length ≤ 255) (n ty : Nat) :
    (direntRecord n (reclenOf name.bytes.length) ty name.bytes).length =
      reclenOf name.bytes.length :=
  length_direntRecord (by rw [reclenOf_eq hLength]; omega)

section

variable (h : s.ConsistentAt total full) (hReliable : s.mount.Reliable) (hHeap : s.mount.HeapServes)
  (hHolds : s.Holds d records) (hLength : name.bytes.length ≤ 255)

include h hReliable hHeap hHolds hLength

theorem appendDirent_eq (dirInode : Inode) (ty : Nat) :
    appendDirent s d dirInode n ty name =
      match kfsVnodeWrite s d ⟨(s.table d).size, oWronly⟩
          (direntRecord n (reclenOf name.bytes.length) ty name.bytes) with
      | (.error err, _, s) => (.error err, undoCreate s n ty)
      | (.ok _, _, s) => (.ok ⟨n, vnodeTypeOf ty⟩, s) := by
  have hAlloc : s.kmalloc (reclenOf name.bytes.length) = true :=
    Volume.kmalloc_eq hHeap (by rw [reclenOf_eq hLength]; omega)
  simp only [appendDirent, hAlloc, Bool.not_true, Bool.false_eq_true, if_false,
    kfsReadInode_eq h.mounted hReliable hHolds.live]
  have hMount := (kfsVnodeWrite_marks s d ⟨(s.table d).size, oWronly⟩
    (direntRecord n (reclenOf name.bytes.length) ty name.bytes)).mount
  generalize kfsVnodeWrite s d _ _ = result at hMount ⊢
  rcases result with ⟨err | count, offset, s'⟩
  · rfl
  · rw [← hMount] at hHeap
    simp only [newVnode_eq hHeap]

/-- The record of a new name, as far as the directory has room for it. -/
theorem appendDirent_spec (hInside : (encodeDir records).length < 138 * 512)
    (hRoom : 2 ≤ s.freeBelow total) (dirInode : Inode) (ty : Nat) :
    ∃ s', appendDirent s d dirInode n ty name = (.ok ⟨n, vnodeTypeOf ty⟩, s') ∧
      s'.ConsistentAt total full ∧ s.Frame s' [d] ∧ s'.inodeBitmap = s.inodeBitmap ∧
      s'.files = update s.files d (some ⟨kfsTypeDir, encodeDir records ++
        (direntRecord n (reclenOf name.bytes.length) ty name.bytes).take
          (138 * 512 - (encodeDir records).length)⟩) := by
  have hReclen := reclenOf_eq hLength
  have hRecord := length_newDirent hLength n ty
  have hSize := hHolds.size
  rw [appendDirent_eq h hReliable hHeap hHolds hLength]
  generalize direntRecord n (reclenOf name.bytes.length) ty name.bytes = record at hRecord ⊢
  have hCost : blockCost (blocksOf (max (s.table d).size ((s.table d).size +
      min record.length (138 * 512 - (s.table d).size)))) ≤
        2 + blockCost (blocksOf (s.table d).size) := blockCost_record (by omega)
  obtain ⟨s', hRun, hConsistent, hFrame, hInodes, hFiles⟩ := @kfsVnodeWrite_spec total full s d h
    hReliable hHolds.live ⟨(s.table d).size, oWronly⟩ record oWronly_writable (by omega)
    (s.table d).size _ (oWronly_positioned _ _).symm (le_refl _) (by omega) rfl (by omega)
  refine ⟨s', by rw [hRun], hConsistent, hFrame, hInodes, ?_⟩
  rw [hFiles, hHolds.type, hHolds.content, hSize, overwrite_end, Nat.min_comm,
    ← List.take_eq_take_min]

/-- In a directory of the largest size, the new inode is taken back. -/
theorem appendDirent_full (hFull : (encodeDir records).length = 138 * 512) (dirInode : Inode)
    (ty : Nat) : appendDirent s d dirInode n ty name = (.error (-efbig), undoCreate s n ty) := by
  have hReclen := reclenOf_eq hLength
  have hRecord := length_newDirent hLength n ty
  have hWrite := @kfsVnodeWrite_full _ _ _ d h hReliable hHolds.live ⟨(s.table d).size, oWronly⟩
    (direntRecord n (reclenOf name.bytes.length) ty name.bytes) oWronly_writable (by omega)
    ((oWronly_positioned _ _).trans (hHolds.size.trans hFull))
  rw [appendDirent_eq h hReliable hHeap hHolds hLength, hWrite]

end

/-- What is taken back is an empty file, or a directory of one block. -/
theorem undoCreate_spec (h : s.ConsistentAt total full) (hReliable : s.mount.Reliable)
    (hLive : s.live n = true) (hRoot : 0 < n) {ty : Nat}
    (hSize : if ty = kfsTypeDir then 0 < (s.table n).size ∧ (s.table n).size ≤ 512
      else (s.table n).size = 0) :
    (undoCreate s n ty).ConsistentAt total full ∧ s.Frame (undoCreate s n ty) [n] ∧
      (undoCreate s n ty).files = update s.files n none := by
  have hIno := Volume.live_lt hLive
  by_cases hDir : ty = kfsTypeDir
  · rw [if_pos hDir] at hSize
    have hOne : s.OpenedAt total full n (s.table n) (fun k => k = 0) :=
      (h.open hLive).congr_need (fun k => by unfold needed blocksOf; omega)
    have hUsed : (s.table n).direct 0 ≠ 0 := (hOne.shape 0).mpr rfl
    obtain ⟨inode', s', hRun, hReduced⟩ := freeDirect_spec hOne hReliable (by decide : 0 < 10) rfl
    have hOpened := hReduced.opened
    have hWithin := hReduced.within
    rw [Volume.freeDirect_eq, Prod.mk.injEq] at hRun
    have hState : (kfsFreeBlock s ((s.table n).direct 0)).2 = s' := by
      rw [← hRun.2]
      exact (if_pos hUsed).symm
    have hNone : s'.OpenedAt total full n inode' (fun _ => False) :=
      hOpened.congr_need (fun k => by simp)
    obtain ⟨hConsistent, hFiles, hFrame⟩ := hNone.discard
    have hUndo : undoCreate s n ty = s'.dropInode n := by
      have hReliable' : s'.mount.Reliable := by rw [hWithin.mount]; exact hReliable
      have hFree := kfsFreeInode_eq hOpened.mounted hReliable' hRoot hIno
      simp only [undoCreate, hDir, if_true, kfsReadInode_eq h.mounted hReliable hLive, hUsed, ne_eq,
        not_false_eq_true]
      rw [hState, hFree]
    rw [hUndo]
    exact ⟨hConsistent, hWithin.frame.trans_same hFrame, hFiles.trans (hWithin.files_update none)⟩
  · rw [if_neg hDir] at hSize
    have hUndo : undoCreate s n ty = s.dropInode n := by
      rw [undoCreate, if_neg hDir, kfsFreeInode_eq h.mounted hReliable hRoot hIno]
    obtain ⟨hConsistent, hFiles, hFrame⟩ := (h.open_empty hLive hSize).discard
    rw [hUndo]
    exact ⟨hConsistent, hFrame, hFiles⟩

end Append

section Create

/-- The content of a new file. -/
def newContent (type n d : Nat) : List UInt8 :=
  if type = kfsTypeDir then dotsBlock n d else []

/-- The type of inode that `kfs_vnode_create` makes for a vnode type. -/
def kfsTypeFor (type : Nat) : Nat := if type = vnodeTypeDir then kfsTypeDir else kfsTypeFile

theorem kfsTypeFor_cases (type : Nat) :
    kfsTypeFor type = kfsTypeFile ∨ kfsTypeFor type = kfsTypeDir := by
  unfold kfsTypeFor
  split
  · exact .inr rfl
  · exact .inl rfl

theorem kfsTypeFor_lt (type : Nat) : kfsTypeFor type < 256 := by
  rcases kfsTypeFor_cases type with h | h <;> rw [h] <;> decide

/-- An inode number that was free now names an empty file, or there is none. -/
theorem kfsAllocInode_spec (h : s.ConsistentAt total full) (hReliable : s.mount.Reliable)
    (type : Nat) :
    (∀ i, 0 < i → i < 128 → s.live i = true) ∧
        kfsAllocInode s (kfsTypeFor type) = (.error (-enospc), s) ∨
      ∃ n s₁, firstClear s.inodeBitmap 1 128 = some n ∧ 0 < n ∧ n < 128 ∧ s.files n = none ∧
        kfsAllocInode s (kfsTypeFor type) = (.ok n, s₁) ∧ s₁.ConsistentAt total full ∧
        s.Frame s₁ [n] ∧ s₁.freeBelow total = s.freeBelow total ∧
        s₁.files = update s.files n (some ⟨kfsTypeFor type, []⟩) ∧
        ∀ i, i ≠ n → s₁.table i = s.table i := by
  rcases kfsAllocInode_cases h.mounted hReliable (kfsTypeFor type) with hFound | hNone
  · obtain ⟨n, hFirst, hLo, hHi, hFree, hAlloc⟩ := hFound
    have hDead : s.files n = none := by simp [Volume.files, Volume.live, hFree]
    have hFits : ({ Inode.zero with type := kfsTypeFor type, linkCount := 1 } : Inode).Fits :=
      Inode.Fits.fresh (Nat.two_pow_pos 32) (lt_trans (kfsTypeFor_lt type) (by decide)) (by decide)
    obtain ⟨hTaken, hFiles, hFrame⟩ := h.takeInode hHi hFree hFits rfl (fun _ => rfl) rfl
    refine .inr ⟨n, _, hFirst, hLo, hHi, hDead, hAlloc, hTaken, hFrame, rfl, hFiles, fun i hi => ?_⟩
    rw [Volume.takeInode_table hHi hFits, update_of_ne hi]
  · exact .inl hNone

/-- The first steps of a creation: an inode number that was free now names a new file,
or there is none. -/
theorem allocate_spec (h : s.ConsistentAt total full) (hReliable : s.mount.Reliable) (type : Nat)
    (hRoom : kfsTypeFor type = kfsTypeDir → 0 < s.freeBelow total) :
    (∀ i, 0 < i → i < 128 → s.live i = true) ∧
        kfsAllocInode s (kfsTypeFor type) = (.error (-enospc), s) ∨
      ∃ n s₁ s₂, firstClear s.inodeBitmap 1 128 = some n ∧ 0 < n ∧ n < 128 ∧ s.files n = none ∧
        kfsAllocInode s (kfsTypeFor type) = (.ok n, s₁) ∧
        (if kfsTypeFor type = kfsTypeDir then populateDir s₁ d n else (.ok (), s₁)) =
          (.ok (), s₂) ∧
        s₂.ConsistentAt total full ∧ s.Frame s₂ [n] ∧
        s₂.freeBelow total + (if kfsTypeFor type = kfsTypeDir then 1 else 0) = s.freeBelow total ∧
        s₂.files = update s.files n
          (some ⟨kfsTypeFor type, newContent (kfsTypeFor type) n d⟩) ∧
        ∀ i, i ≠ n → s₂.table i = s.table i := by
  rcases kfsAllocInode_spec h hReliable type with hNone | hFound
  · exact .inl hNone
  · obtain ⟨n, s₁, hFirst, hLo, hHi, hDead, hAlloc, hTaken, hFrame, hCount, hFiles, hTable⟩ :=
      hFound
    have hNew : s₁.files n = some ⟨kfsTypeFor type, []⟩ := by rw [hFiles, update_self]
    rw [← hCount] at hRoom ⊢
    by_cases hDir : kfsTypeFor type = kfsTypeDir
    · simp only [if_pos hDir]
      obtain ⟨s₂, hRun, hConsistent, hFrame₂, _, hCount₂, hFiles₂, hTable₂⟩ :=
        @populateDir_spec total full s₁ d n hTaken (by rw [hFrame.mount]; exact hReliable)
          (hRoom hDir) (Volume.files_eq_some.mp hNew).1 (Volume.size_of_files hNew)
      refine .inr ⟨n, s₁, s₂, hFirst, hLo, hHi, hDead, hAlloc, hRun, hConsistent,
        hFrame.trans_same hFrame₂, hCount₂, ?_, fun i hi => (hTable₂ i hi).trans (hTable i hi)⟩
      rw [hFiles₂, hFiles, update_idem, newContent, if_pos hDir, hDir]
    · simp only [if_neg hDir]
      refine .inr ⟨n, s₁, s₁, hFirst, hLo, hHi, hDead, hAlloc, rfl, hTaken, hFrame, rfl, ?_, hTable⟩
      rw [hFiles, newContent, if_neg hDir]

theorem undoCreate_new {type : Nat} {s₂ : Volume} (h : s₂.ConsistentAt total full)
    (hReliable : s₂.mount.Reliable) (hRoot : 0 < n) (hFree : s.files n = none)
    (hFrame : s.Frame s₂ [n])
    (hFiles : s₂.files = update s.files n
      (some ⟨kfsTypeFor type, newContent (kfsTypeFor type) n d⟩)) :
    (undoCreate s₂ n (kfsTypeFor type)).ConsistentAt total full ∧
      s.Frame (undoCreate s₂ n (kfsTypeFor type)) [] ∧
      (undoCreate s₂ n (kfsTypeFor type)).files = s.files := by
  have hNew := congrFun hFiles n
  rw [update_self] at hNew
  obtain ⟨hUndone, hUndoneFrame, hUndoneFiles⟩ := @undoCreate_spec total full s₂ n h hReliable
    (Volume.files_eq_some.mp hNew).1 hRoot (kfsTypeFor type) (by
      rw [Volume.size_of_files hNew]
      unfold newContent
      split
      · rw [length_dotsBlock]
        omega
      · rfl)
  have hGone : (undoCreate s₂ n (kfsTypeFor type)).blocks n = s.blocks n := by
    rw [Volume.blocks_eq_none hFree, Volume.blocks_eq_none]
    rw [hUndoneFiles, update_self]
  refine ⟨hUndone, (hFrame.trans_same hUndoneFrame).drop hGone, ?_⟩
  rw [hUndoneFiles, hFiles, update_idem, ← hFree, update_eq_self]

/-- What the creation of a name that the directory does not have comes to. -/
inductive Created (total : Nat) (s : Volume) (d : Nat) (records : List Record)
    (name : CString) (type : Nat) : Except Int Vnode × Volume → Prop where
  | noInode (hNone : ∀ i, 0 < i → i < 128 → s.live i = true) :
      Created total s d records name type (.error (-enospc), s)
  | full {s' : Volume} (hFull : (encodeDir records).length = 138 * 512)
      (hConsistent : s'.ConsistentAt total True) (hFrame : s.Frame s' [])
      (hFiles : s'.files = s.files) : Created total s d records name type (.error (-efbig), s')
  | made {n : Nat} {s' : Volume} (hFirst : firstClear s.inodeBitmap 1 128 = some n)
      (hRoot : 0 < n) (hInode : n < 128) (hFree : s.files n = none)
      (hInside : (encodeDir records).length < 138 * 512)
      (hConsistent : s'.ConsistentAt total True) (hFrame : s.Frame s' [n, d])
      (hFiles : s'.files = update
        (update s.files n
          (some ⟨kfsTypeFor type, newContent (kfsTypeFor type) n d⟩)) d
        (some ⟨kfsTypeDir, encodeDir records ++
          (direntRecord n (reclenOf name.bytes.length) (kfsTypeFor type) name.bytes).take
            (138 * 512 - (encodeDir records).length)⟩)) :
      Created total s d records name type (.ok ⟨n, vnodeTypeOf (kfsTypeFor type)⟩, s')

theorem createEntry_eq (s : Volume) (d : Nat) (dirInode : Inode) (name : CString) (type : Nat) :
    createEntry s d dirInode name type =
      match kfsAllocInode s (kfsTypeFor type) with
      | (.error err, s) => (.error err, s)
      | (.ok newIno, s) =>
        match if kfsTypeFor type = kfsTypeDir then populateDir s d newIno else (.ok (), s) with
        | (.error err, s) => (.error err, s)
        | (.ok _, s) => appendDirent s d dirInode newIno (kfsTypeFor type) name := rfl

/-- Three blocks are enough for any creation. -/
theorem createEntry_spec (h : s.ConsistentAt total True) (hReliable : s.mount.Reliable)
    (hHeap : s.mount.HeapServes) (hHolds : s.Holds d records) (hLength : name.bytes.length ≤ 255)
    (hRoom : 3 ≤ s.freeBelow total) (dirInode : Inode) (type : Nat) :
    Created total s d records name type (createEntry s d dirInode name type) := by
  rw [createEntry_eq]
  rcases @allocate_spec total True s d h hReliable type (fun _ => by omega) with hNone | hFound
  · rw [hNone.2]
    exact .noInode hNone.1
  · obtain ⟨n, s₁, s₂, hFirst, hLo, hHi, hFree, hAlloc, hPopulate, hConsistent, hFrame, hCount,
        hFiles, _⟩ := hFound
    have hRoom₂ : 2 ≤ s₂.freeBelow total := by
      split at hCount <;> omega
    have hNe : d ≠ n := by
      rintro rfl
      rw [hHolds] at hFree
      cases hFree
    have hHolds₂ : s₂.Holds d records := by
      rw [Volume.Holds, hFiles, update_of_ne hNe]
      exact hHolds
    have hReliable₂ : s₂.mount.Reliable := by rw [hFrame.mount]; exact hReliable
    have hHeap₂ : s₂.mount.HeapServes := by rw [hFrame.mount]; exact hHeap
    simp only [hAlloc, hPopulate]
    by_cases hInside : (encodeDir records).length < 138 * 512
    · obtain ⟨s', hRun, hConsistent', hFrame', _, hFiles'⟩ :=
        @appendDirent_spec total True s₂ d n records name hConsistent hReliable₂
          hHeap₂ hHolds₂ hLength
          hInside hRoom₂ dirInode (kfsTypeFor type)
      rw [hRun]
      refine .made hFirst hLo hHi hFree hInside hConsistent' (hFrame.trans hFrame') ?_
      rw [hFiles', hFiles]
    · have hFull : (encodeDir records).length = 138 * 512 :=
        le_antisymm (hHolds₂.length_le hConsistent) (not_lt.mp hInside)
      rw [appendDirent_full hConsistent hReliable₂ hHeap₂ hHolds₂ hLength hFull]
      obtain ⟨hUndone, hUndoneFrame, hUndoneFiles⟩ :=
        undoCreate_new hConsistent hReliable₂ hLo hFree hFrame hFiles
      exact .full hFull hUndone hUndoneFrame hUndoneFiles

/-- The names that `kfs_vnode_create` accepts. -/
structure CString.Valid (name : CString) : Prop where
  nonempty : name.bytes.length ≠ 0
  length_le : name.bytes.length ≤ 255
  ne_dots : ¬(name.bytes = dot ∨ name.bytes = dotDot)

theorem CString.Valid.ne_dot (h : name.Valid) : name.bytes ≠ dot := fun hEq => h.ne_dots (.inl hEq)

theorem CString.Valid.ne_dotDot (h : name.Valid) : name.bytes ≠ dotDot :=
  fun hEq => h.ne_dots (.inr hEq)

theorem kfsVnodeCreate_absent (h : s.ConsistentAt total full) (hReliable : s.mount.Reliable)
    (hHolds : s.Holds d records) (hValid : name.Valid)
    (hAbsent : ∀ q ∈ records, q.ent.name ≠ name.bytes) (type : Nat) :
    kfsVnodeCreate s d name type = createEntry s d (s.table d) name type := by
  have hLength : ¬(name.bytes.length = 0 ∨ name.bytes.length > 255) :=
    not_or.mpr ⟨hValid.nonempty, not_lt.mpr hValid.length_le⟩
  obtain ⟨err, hLookup⟩ := kfsVnodeLookup_absent h hReliable hHolds hAbsent hValid.ne_dot
    (fun hRoot => hValid.ne_dotDot hRoot.2)
  simp only [kfsVnodeCreate, kfsReadInode_eq h.mounted hReliable hHolds.live, hHolds.type, ne_eq,
    not_true_eq_false, if_false, hLength, hValid.ne_dots, hLookup]

theorem kfsVnodeCreate_new (h : s.ConsistentAt total True) (hReliable : s.mount.Reliable)
    (hHeap : s.mount.HeapServes) (hHolds : s.Holds d records) (hValid : name.Valid)
    (hRoom : 3 ≤ s.freeBelow total) (hAbsent : ∀ q ∈ records, q.ent.name ≠ name.bytes)
    (type : Nat) : Created total s d records name type (kfsVnodeCreate s d name type) := by
  rw [kfsVnodeCreate_absent h hReliable hHolds hValid hAbsent]
  exact createEntry_spec h hReliable hHeap hHolds hValid.length_le hRoom _ _

/-- For an existing name, a directory is refused, and a file is the existing vnode. -/
theorem kfsVnodeCreate_existing {before after : List Record} {r : Record}
    (h : s.ConsistentAt total full) (hReliable : s.mount.Reliable) (hHeap : s.mount.HeapServes)
    (hHolds : s.Holds d (before ++ r :: after))
    (hBefore : ∀ q ∈ before, q.ent.name ≠ r.ent.name) (hName : r.ent.name = name.bytes)
    (hValid : name.Valid) (type : Nat) :
    kfsVnodeCreate s d name type =
      if type = vnodeTypeDir then (.error (-eexist), s)
      else (.ok ⟨r.ent.inode, vnodeTypeOf r.ent.type⟩, s) := by
  have hLength : ¬(name.bytes.length = 0 ∨ name.bytes.length > 255) :=
    not_or.mpr ⟨hValid.nonempty, not_lt.mpr hValid.length_le⟩
  have hLookup := kfsVnodeLookup_present h hReliable hHeap hHolds hBefore hName hValid.ne_dot
    (fun hRoot => hValid.ne_dotDot hRoot.2)
  simp only [kfsVnodeCreate, kfsReadInode_eq h.mounted hReliable hHolds.live, hHolds.type, ne_eq,
    not_true_eq_false, if_false, hLength, hValid.ne_dots, hLookup]

theorem kfsVnodeCreate_invalid (h : s.ConsistentAt total full) (hReliable : s.mount.Reliable)
    (hHolds : s.Holds d records) (hInvalid : ¬name.Valid) (type : Nat) :
    ∃ err, err ≠ -eio ∧ kfsVnodeCreate s d name type = (.error err, s) := by
  rw [kfsVnodeCreate, kfsReadInode_eq h.mounted hReliable hHolds.live]
  simp only
  rw [if_neg (fun hNot => hNot hHolds.type)]
  split
  · exact ⟨_, by decide, rfl⟩
  · rename_i hLength
    split
    · exact ⟨_, by decide, rfl⟩
    · rename_i hDots
      rw [not_or, not_lt] at hLength
      exact absurd ⟨hLength.1, hLength.2, hDots⟩ hInvalid

/-- The record that a creation appends. -/
def newRecord (n type : Nat) (name : CString) (hValid : name.Valid) (hInode : n < 128) : Record :=
  Record.make n (reclenOf name.bytes.length) (kfsTypeFor type) name.bytes (by omega)
    (by rw [reclenOf_eq hValid.length_le]; have := hValid.length_le; omega)
    (by rw [reclenOf_eq hValid.length_le]; omega) (kfsTypeFor_lt type) name.nul_free
    (by rw [reclenOf_eq hValid.length_le]; omega)

theorem newRecord_ent (type : Nat) (hValid : name.Valid) (hInode : n < 128) :
    (newRecord n type name hValid hInode).ent =
      ⟨n, reclenOf name.bytes.length, kfsTypeFor type, name.bytes⟩ :=
  Record.make_ent _ _ _ _ _ _

theorem newRecord_bytes (type : Nat) (hValid : name.Valid) (hInode : n < 128) :
    (newRecord n type name hValid hInode).bytes =
      direntRecord n (reclenOf name.bytes.length) (kfsTypeFor type) name.bytes := rfl

theorem newRecord_isEntry (type : Nat) (hValid : name.Valid) (hInode : n < 128) :
    (newRecord n type name hValid hInode).isEntry = true := by
  simp [Record.isEntry, newRecord_ent, hValid.ne_dot, hValid.ne_dotDot]

/-- The record of `.` or `..` in a new directory. -/
def dotRecord (n : Nat) (name : List UInt8) (hInode : n < 128) (hName : (0 : UInt8) ∉ name)
    (hLength : name.length ≤ 2) : Record :=
  Record.make n 12 kfsTypeDir name (by omega) (by decide) (by decide) (by decide) hName (by omega)

theorem dotRecord_ent {names : List UInt8} (hInode : n < 128) (hName : (0 : UInt8) ∉ names)
    (hLength : names.length ≤ 2) :
    (dotRecord n names hInode hName hLength).ent = ⟨n, 12, kfsTypeDir, names⟩ :=
  Record.make_ent _ _ _ _ _ _

/-- The records of a new directory. -/
def newDots (n d : Nat) (hInode : n < 128) (hDir : d < 128) : List Record :=
  [dotRecord n dot hInode (by decide) (by decide), dotRecord d dotDot hDir (by decide) (by decide)]

theorem encodeDir_newDots (hInode : n < 128) (hDir : d < 128) :
    encodeDir (newDots n d hInode hDir) = dotsBlock n d := by
  simp [newDots, encodeDir_cons, dotsBlock, dotRecord, Record.make]

end Create

end Kryos.Fs
