import Kryos.Fs.FileContents
import Kryos.Fs.InodeLifetime

/-! `kfs_remove_dirent` cuts a range of bytes out of a directory: it frees the blocks
that are no longer needed, then writes the remaining ones. -/
namespace Kryos.Fs

open Bitmap Function LittleEndian Word

variable {s' s : Volume} {inode' inode : Inode} {need' : Nat → Prop}
  {b blocks newSize offset reclen total ino : Nat} {dirData : List UInt8} {full : Prop}

section Steps

variable {total : Nat} {full : Prop} {s : Volume} {ino : Nat} {inode : Inode} {need : Nat → Prop}

theorem isSet_dropBlock_iff {b : Nat} (hNeed : need b) (c : Nat) :
    isSet (s.dropBlock (slotBlock s.disk inode b)).blockBitmap c = true ↔
      isSet s.blockBitmap c = true ∧
        ∀ k, need k → slotBlock s.disk inode k = c → need k ∧ k ≠ b := by
  constructor
  · intro hBit
    have hParts : c ≠ slotBlock s.disk inode b ∧ isSet s.blockBitmap c = true := by simpa using hBit
    refine ⟨hParts.2, fun k hk hEq => ⟨hk, ?_⟩⟩
    rintro rfl
    exact hParts.1 hEq.symm
  · intro hBits
    have hNe : c ≠ slotBlock s.disk inode b := by
      intro hEq
      exact (hBits.2 b hNeed hEq.symm).2 rfl
    simp [hNe, hBits.1]

/-- An open inode has given back the blocks outside `need` and kept the others. -/
structure Reduced (total : Nat) (full : Prop) (ino : Nat) (s : Volume) (inode : Inode) (s' : Volume)
    (inode' : Inode) (need : Nat → Prop) : Prop where
  opened : s'.OpenedAt total full ino inode' need
  within : s.Within s' ino
  keeps : ∀ k, need k → slotBlock s'.disk inode' k = slotBlock s.disk inode k
  type : inode'.type = inode.type

theorem Reduced.refl (h : s.OpenedAt total full ino inode need) :
    Reduced total full ino s inode s inode need :=
  ⟨h, Volume.Within.refl s ino, fun _ _ => rfl, rfl⟩

theorem Reduced.trans {s'' : Volume} {inode'' : Inode}
    (h : Reduced total full ino s inode s' inode' need)
    (h' : Reduced total full ino s' inode' s'' inode'' need') (hNeed : ∀ k, need' k → need k) :
    Reduced total full ino s inode s'' inode'' need' where
  opened := h'.opened
  within := h.within.trans h'.within
  keeps := fun k hk => (h'.keeps k hk).trans (h.keeps k (hNeed k hk))
  type := h'.type.trans h.type

theorem Reduced.congr_need (h : Reduced total full ino s inode s' inode' need)
    (hNeed : ∀ k, need k ↔ need' k) : Reduced total full ino s inode s' inode' need' :=
  { h with opened := h.opened.congr_need hNeed, keeps := fun k hk => h.keeps k ((hNeed k).mpr hk) }

/-- The emptied slot and the unused ones are those outside the rest. -/
theorem slots_gone (h : s.OpenedAt total full ino inode need)
    (hOwn : slotBlock s'.disk inode' = update (slotBlock s.disk inode) b 0) (k : Nat)
    (hk : ¬(need k ∧ k ≠ b)) : slotBlock s'.disk inode' k = 0 := by
  rw [hOwn]
  by_cases hkb : k = b
  · simp [hkb]
  · rw [update_of_ne hkb]
    by_contra hNonzero
    exact hk ⟨(h.shape k).mp hNonzero, hkb⟩

theorem freeDirect_spec (h : s.OpenedAt total full ino inode need) (hReliable : s.mount.Reliable)
    (hb : b < 10) (hNeed : need b) :
    ∃ inode' s', freeDirect (inode, s) ⟨b, hb⟩ = (inode', s') ∧
      Reduced total full ino s inode s' inode' (fun k => need k ∧ k ≠ b) := by
  have hUsed := (h.shape b).mpr hNeed
  have hRange := h.range hUsed
  have hSlot : slotBlock s.disk inode b = inode.direct ⟨b, hb⟩ := by simp [slotBlock, hb]
  have hOwn : slotBlock (s.dropBlock (slotBlock s.disk inode b)).disk
      { inode with direct := update inode.direct ⟨b, hb⟩ 0 } =
        update (slotBlock s.disk inode) b 0 := by
    apply slotBlock_setDirect hb
    intro hIndirect
    have hInd := h.indirect_range
    exact Volume.dropBlock_disk (h.mounted.lt hRange.2) (by omega)
  have hKept : ∀ k, need k ∧ k ≠ b → need k ∧
      slotBlock (s.dropBlock (slotBlock s.disk inode b)).disk
        { inode with direct := update inode.direct ⟨b, hb⟩ 0 } k =
          slotBlock s.disk inode k := by
    intro k hk
    rw [hOwn, update_of_ne hk.2]
    exact ⟨hk.1, rfl⟩
  refine ⟨{ inode with direct := update inode.direct ⟨b, hb⟩ 0 },
    s.dropBlock (slotBlock s.disk inode b), ?_, ?_⟩
  · rw [Volume.freeDirect_eq, if_pos (hSlot ▸ hUsed), ← hSlot,
      kfsFreeBlock_eq h.mounted hReliable hRange.1 hRange.2]
  · obtain ⟨hOpened, hWithin⟩ := h.shrink (h.mounted.dropBlock hRange.1 (h.mounted.lt hRange.2)) rfl
      rfl (fun c hc _ => Volume.dropBlock_disk (h.mounted.lt hRange.2) (by omega)) hKept
      (slots_gone h hOwn) (isSet_dropBlock_iff hNeed) (h.fits.setDirect _ (Nat.two_pow_pos 32))
    exact ⟨hOpened, hWithin, fun k hk => (hKept k hk).2, rfl⟩

theorem freeDirBlock_spec (h : s.OpenedAt total full ino inode need) (hReliable : s.mount.Reliable)
    (hb : b < 138) (hNeed : need b) :
    ∃ inode' s', freeDirBlock (inode, s) b = (inode', s') ∧
      Reduced total full ino s inode s' inode' (fun k => need k ∧ k ≠ b) := by
  by_cases hDirect : b < 10
  · simp only [freeDirBlock, hDirect, dif_pos]
    exact freeDirect_spec h hReliable hDirect hNeed
  · have hUsed := (h.shape b).mpr hNeed
    have hRange := h.range hUsed
    have hIndirect : inode.indirect ≠ 0 := by
      intro hZero
      apply hUsed
      simp [slotBlock, hDirect, hb, hZero]
    have hWord : readWord (s.disk inode.indirect) (b - 10) = slotBlock s.disk inode b := by
      simp [slotBlock, hDirect, hb, hIndirect]
    have hInd := h.indirect_range
    generalize hAfter : (s.dropBlock (slotBlock s.disk inode b)).putSector inode.indirect
      (storeWords (s.disk inode.indirect) (b - 10) 1 (fun _ => 0)) = s'
    have hDisk : ∀ c, 74 ≤ c → c ≠ inode.indirect → s'.disk c = s.disk c := by
      intro c hc hNe
      rw [← hAfter, Volume.putSector_disk _ hNe,
        Volume.dropBlock_disk (h.mounted.lt hRange.2) (by omega)]
    have hOwn : slotBlock s'.disk inode = update (slotBlock s.disk inode) b 0 := by
      have hEntry := @slotBlock_setEntry s.disk s'.disk inode 0 (b - 10) hIndirect (by omega)
        (Nat.two_pow_pos 32) (by rw [← hAfter, Volume.putSector_disk_self])
      rwa [Nat.add_sub_cancel' (by omega)] at hEntry
    have hKept : ∀ k, need k ∧ k ≠ b →
        need k ∧ slotBlock s'.disk inode k = slotBlock s.disk inode k := by
      intro k hk
      rw [hOwn, update_of_ne hk.2]
      exact ⟨hk.1, rfl⟩
    refine ⟨inode, s', ?_, ?_⟩
    · have hReliable' : (s.dropBlock (slotBlock s.disk inode b)).mount.Reliable := hReliable
      simp only [freeDirBlock, hDirect, dif_neg, not_false_eq_true, hIndirect, ne_eq, if_true,
        s.readSectors_eq hReliable, hWord, hUsed,
        kfsFreeBlock_eq h.mounted hReliable hRange.1 hRange.2,
        Volume.writeSectors_eq hReliable', hAfter]
    · obtain ⟨hOpened, hWithin⟩ := h.shrink
        (by rw [← hAfter]
            exact (h.mounted.dropBlock hRange.1 (h.mounted.lt hRange.2)).putSector (by omega) _)
        (by rw [← hAfter]; rfl) (by rw [← hAfter]; rfl) hDisk hKept (slots_gone h hOwn)
        (by rw [← hAfter]; exact isSet_dropBlock_iff hNeed) h.fits
      exact ⟨hOpened, hWithin, fun k hk => (hKept k hk).2, rfl⟩

theorem freeDirBlock_fold (start count : Nat) {need : Nat → Prop}
    (h : s.OpenedAt total full ino inode need) (hReliable : s.mount.Reliable)
    (hNeed : ∀ k, start ≤ k → k < start + count → k < 138 ∧ need k) :
    ∃ inode' s', (List.range' start count).foldl freeDirBlock (inode, s) = (inode', s') ∧
      Reduced total full ino s inode s' inode'
        (fun k => need k ∧ ¬(start ≤ k ∧ k < start + count)) := by
  induction count generalizing start s inode need with
  | zero =>
    refine ⟨inode, s, rfl, (Reduced.refl h).congr_need (fun k => ?_)⟩
    constructor
    · intro hk
      exact ⟨hk, by omega⟩
    · intro hk
      exact hk.1
  | succ count ih =>
    have hFirst := hNeed start (le_refl _) (by omega)
    obtain ⟨inode₁, s₁, hRun, hReduced⟩ := freeDirBlock_spec h hReliable hFirst.1 hFirst.2
    obtain ⟨inode₂, s₂, hRun₂, hReduced₂⟩ := ih (start + 1) hReduced.opened
      (by rw [hReduced.within.mount]; exact hReliable)
      (fun k hLo hHi => ⟨(hNeed k (by omega) (by omega)).1,
        (hNeed k (by omega) (by omega)).2, by omega⟩)
    refine ⟨inode₂, s₂, ?_, (hReduced.trans hReduced₂ (fun k hk => hk.1)).congr_need (fun k => ?_)⟩
    · rw [List.range'_succ, List.foldl_cons, hRun, hRun₂]
    · constructor
      · intro hk
        exact ⟨hk.1.1, by have := hk.1.2; have := hk.2; omega⟩
      · intro hk
        exact ⟨⟨hk.1, by have := hk.2; omega⟩, by have := hk.2; omega⟩

/-- The indirect block goes when ten blocks are enough. -/
theorem dropIndirect_spec (h : s.OpenedAt total full ino inode (fun k => k < blocks ∨ k = 138))
    (hBlocks : blocks ≤ 10) :
    Reduced total full ino s inode (s.dropBlock inode.indirect) { inode with indirect := 0 }
      (needed blocks) := by
  have hUsed := (h.shape 138).mpr (.inr rfl)
  have hRange := h.range hUsed
  have hBits := @isSet_dropBlock_iff s inode (fun k => k < blocks ∨ k = 138) 138 (.inr rfl)
  rw [slotBlock_indirect] at hRange hBits
  have hKept : ∀ k, needed blocks k → (k < blocks ∨ k = 138) ∧
      slotBlock (s.dropBlock inode.indirect).disk { inode with indirect := 0 } k =
        slotBlock s.disk inode k := by
    intro k hk
    have hLt : k < blocks := by
      unfold needed at hk
      omega
    have hDirect : k < 10 := by omega
    exact ⟨.inl hLt, by simp [slotBlock, hDirect]⟩
  suffices hShrunk :
      (s.dropBlock inode.indirect).OpenedAt total full ino { inode with indirect := 0 }
      (needed blocks) ∧ s.Within (s.dropBlock inode.indirect) ino from
    ⟨hShrunk.1, hShrunk.2, fun k hk => (hKept k hk).2, rfl⟩
  refine h.shrink (h.mounted.dropBlock hRange.1 (h.mounted.lt hRange.2)) rfl rfl
    (fun c hc _ => Volume.dropBlock_disk (h.mounted.lt hRange.2) (by omega)) hKept ?_ ?_
    (h.fits.setIndirect (Nat.two_pow_pos 32))
  · intro k hk
    unfold needed at hk
    by_cases hDirect : k < 10
    · have hSame : slotBlock (s.dropBlock inode.indirect).disk { inode with indirect := 0 } k =
          slotBlock s.disk inode k := by simp [slotBlock, hDirect]
      rw [hSame]
      by_contra hNonzero
      have hNeed := (h.shape k).mp hNonzero
      omega
    · simp [slotBlock, hDirect]
  · intro c
    rw [hBits c]
    refine and_congr_right (fun _ => forall_congr' (fun k => ?_))
    unfold needed
    constructor
    · intro hAll hk hEq
      omega
    · intro hAll hk hEq
      exact ⟨hk, by omega⟩

theorem rewriteDirBlock_spec {blocks b newSize : Nat}
    (h : s.OpenedAt total full ino inode (needed blocks))
    (hReliable : s.mount.Reliable) (hMost : blocks ≤ 138) (hb : b < blocks) (dirData : List UInt8) :
    ∃ s', rewriteDirBlock inode dirData newSize s b = s' ∧
      Reduced total full ino s inode s' inode (needed blocks) ∧
      ∀ p, p / 512 < blocks → fileByte s'.disk inode p =
        if p / 512 = b then
          copyInto (fun _ => 0) 0 ((dirData.drop (512 * b)).take (min 512 (newSize - 512 * b)))
            (p % 512)
        else fileByte s.disk inode p := by
  have hUsed := (h.shape b).mpr (.inl hb)
  have hPhys : remainingBlock s inode b = slotBlock s.disk inode b := by
    unfold remainingBlock slotBlock at *
    by_cases hDirect : b < 10
    · simp [hDirect]
    · have hEntry : b < 138 := by omega
      simp only [hDirect, dif_neg, not_false_eq_true, hEntry, if_true] at hUsed ⊢
      by_cases hZero : inode.indirect = 0
      · simp [hZero] at hUsed
      · simp [hZero, s.readSectors_eq hReliable]
  obtain ⟨hOpened, hWithin, hBytes⟩ := h.putData (by omega) hUsed
    (copyInto (fun _ => 0) 0 ((dirData.drop (512 * b)).take (min 512 (newSize - 512 * b))))
  refine ⟨_, ?_, ⟨hOpened, hWithin, fun k _ => by rw [h.putData_slots (by omega)], rfl⟩,
    fun p hp => hBytes p ((h.shape _).mpr (.inl hp))⟩
  rw [rewriteDirBlock, hPhys, s.writeSectors_eq hReliable]

theorem rewriteDirBlock_fold (h : s.OpenedAt total full ino inode (needed blocks))
    (hReliable : s.mount.Reliable) (hMost : blocks ≤ 138) (hData : newSize ≤ dirData.length)
    (count : Nat) (hCount : count ≤ blocks) :
    ∃ s', (List.range count).foldl (rewriteDirBlock inode dirData newSize) s = s' ∧
      Reduced total full ino s inode s' inode (needed blocks) ∧
      ∀ p, p < newSize → p / 512 < count → fileByte s'.disk inode p = dirData.getD p 0 := by
  induction count with
  | zero => exact ⟨s, rfl, .refl h, fun p _ hp => absurd hp (by omega)⟩
  | succ count ih =>
    obtain ⟨s₁, hRun, hReduced, hBytes⟩ := ih (by omega)
    obtain ⟨s₂, hRun₂, hReduced₂, hBytes₂⟩ := @rewriteDirBlock_spec _ _ _ _ _ _ count
      newSize hReduced.opened (by rw [hReduced.within.mount]; exact hReliable) hMost
        (by omega) dirData
    refine ⟨s₂, ?_, hReduced.trans hReduced₂ (fun _ hk => hk), ?_⟩
    · rw [List.range_succ, List.foldl_append, hRun]
      exact hRun₂
    · intro p hp hBlock
      rw [hBytes₂ p (by omega)]
      by_cases hSame : p / 512 = count
      · have hLength : ((dirData.drop (512 * count)).take
            (min 512 (newSize - 512 * count))).length = min 512 (newSize - 512 * count) := by
          rw [List.length_take, List.length_drop]
          omega
        have hIn : 0 ≤ p % 512 ∧ p % 512 < 0 + min 512 (newSize - 512 * count) := by omega
        rw [if_pos hSame, copyInto, hLength, if_pos hIn, List.getD_eq_getElem?_getD,
          List.getD_eq_getElem?_getD, List.getElem?_take_of_lt (by omega), List.getElem?_drop]
        congr 2
        omega
      · rw [if_neg hSame]
        exact hBytes p hp (by omega)

end Steps

/-- `memmove` over the removed record, read up to the new size. -/
theorem take_memmove (h : offset + reclen ≤ dirData.length) :
    (dirData.take offset ++
        (dirData.drop (offset + reclen)).take (dirData.length - (offset + reclen)) ++
        dirData.drop (offset + (dirData.length - (offset + reclen)))).take
          (dirData.length - reclen) =
      dirData.take offset ++ dirData.drop (offset + reclen) := by
  have hLength : (dirData.take offset ++ dirData.drop (offset + reclen)).length =
      dirData.length - reclen := by
    rw [List.length_append, List.length_take, List.length_drop]
    omega
  have hAll : (dirData.drop (offset + reclen)).take (dirData.length - (offset + reclen)) =
      dirData.drop (offset + reclen) := by
    apply List.take_of_length_le
    rw [List.length_drop]
  rw [hAll]
  exact List.take_left' hLength

/-- After both freeing steps the blocks are those of the new size. -/
theorem freeTrailing_spec {oldBlocks newBlocks : Nat}
    (h : s.OpenedAt total full ino inode (needed oldBlocks)) (hReliable : s.mount.Reliable)
    (hOld : oldBlocks ≤ 138) (hNew : newBlocks ≤ oldBlocks) :
    ∃ inode' s', dropIndirect newBlocks
        ((List.range' newBlocks (oldBlocks - newBlocks)).foldl freeDirBlock (inode, s)) =
          (inode', s') ∧ Reduced total full ino s inode s' inode' (needed newBlocks) := by
  obtain ⟨inode₁, s₁, hFree, hReduced⟩ :=
    freeDirBlock_fold newBlocks (oldBlocks - newBlocks) h hReliable
      (fun k hLo hHi => ⟨by omega, .inl (by omega)⟩)
  have hOpened := hReduced.opened
  have hReliable₁ : s₁.mount.Reliable := by rw [hReduced.within.mount]; exact hReliable
  rw [hFree, dropIndirect]
  by_cases hCut : newBlocks ≤ 10 ∧ inode₁.indirect ≠ 0
  · have hMany : 10 < oldBlocks := by
      have hUsed := hCut.2
      have hNeed := ((hOpened.shape 138).mp hUsed).1
      unfold needed at hNeed
      omega
    have hShape : Reduced total full ino s inode s₁ inode₁ (fun k => k < newBlocks ∨ k = 138) := by
      refine hReduced.congr_need (fun k => ?_)
      unfold needed
      omega
    have hRange : 90 ≤ inode₁.indirect ∧ inode₁.indirect < total :=
      hOpened.indirect_range.resolve_left hCut.2
    refine ⟨{ inode₁ with indirect := 0 }, s₁.dropBlock inode₁.indirect, ?_,
      hShape.trans (dropIndirect_spec hShape.opened hCut.1) (fun k hk => ?_)⟩
    · rw [if_pos hCut, kfsFreeBlock_eq hOpened.mounted hReliable₁ hRange.1 hRange.2]
    · unfold needed at hk
      omega
  · have hFew : newBlocks ≤ 10 → ¬10 < oldBlocks := by
      intro hLe hMany
      apply hCut
      refine ⟨hLe, ?_⟩
      exact (hOpened.shape 138).mpr ⟨.inr ⟨rfl, hMany⟩, by omega⟩
    refine ⟨inode₁, s₁, if_neg hCut, hReduced.congr_need (fun k => ?_)⟩
    unfold needed
    omega

/-- What a directory that shrank to `newSize` bytes has kept, and the inodes outside
`touched`. -/
structure Shrunk (ino newSize : Nat) (touched : List Nat) (s s' : Volume) : Prop where
  table : ∀ i, i ∉ touched → s'.table i = s.table i
  size : (s'.table ino).size = newSize
  keeps : ∀ k, needed (blocksOf newSize) k →
    slotBlock s'.disk (s'.table ino) k = slotBlock s.disk (s.table ino) k

/-- A directory shrinks to the first bytes of the given data. -/
theorem shrinkDir_spec (h : s.ConsistentAt total full) (hReliable : s.mount.Reliable)
    (hLive : s.live ino = true) (hSize : newSize ≤ (s.table ino).size)
    (hData : newSize ≤ dirData.length) :
    ∃ s', shrinkDir s ino (s.table ino) dirData newSize (blocksOf (s.table ino).size)
        (blocksOf newSize) = (.ok (), s') ∧
      s'.ConsistentAt total full ∧ s.Frame s' [ino] ∧ s'.inodeBitmap = s.inodeBitmap ∧
      s'.files = update s.files ino
        (some ⟨(s.table ino).type, dirData.take newSize⟩) ∧ Shrunk ino newSize [ino] s s' := by
  have hBound := (h.sized ino hLive).bound
  have hOld : blocksOf (s.table ino).size ≤ 138 := by
    unfold blocksOf
    omega
  have hNew : blocksOf newSize ≤ blocksOf (s.table ino).size := blocksOf_mono hSize
  obtain ⟨inode₁, s₁, hFree, hReduced₁⟩ := freeTrailing_spec (h.open hLive) hReliable hOld hNew
  have hReliable₁ : s₁.mount.Reliable := by rw [hReduced₁.within.mount]; exact hReliable
  obtain ⟨s₂, hWrite, hReduced₂, hBytes⟩ := rewriteDirBlock_fold hReduced₁.opened hReliable₁
    (by omega) hData (blocksOf newSize) (le_refl _)
  have hReliable₂ : s₂.mount.Reliable := by rw [hReduced₂.within.mount]; exact hReliable₁
  have hFinal :
      s₂.OpenedAt total full ino { inode₁ with size := newSize } (needed (blocksOf newSize)) :=
    hReduced₂.opened.sameBlocks rfl rfl (hReduced₂.opened.fits.setSize (by omega))
  obtain ⟨hConsistent, hFiles, hFrame⟩ := hFinal.close (le_trans hSize hBound)
  obtain ⟨_, hTable, hSlots, _⟩ := hFinal.store
  have hReduced := hReduced₁.trans hReduced₂ (fun _ hk => hk)
  have hWithin := hReduced.within
  have hInode : (s₂.putInode ino { inode₁ with size := newSize }).table ino =
      { inode₁ with size := newSize } := by rw [hTable, update_self]
  have hContent : fileContent s₂.disk { inode₁ with size := newSize } = dirData.take newSize := by
    apply List.ext_getElem
    · rw [length_fileContent, List.length_take_of_le hData]
    · intro i hi _
      rw [length_fileContent] at hi
      have hByte := hBytes i hi (lt_blocksOf hi)
      have hIn : i < dirData.length := lt_of_lt_of_le hi hData
      rw [List.getD_eq_getElem?_getD, List.getElem?_eq_getElem hIn, Option.getD_some] at hByte
      simp only [fileContent, fileSlice, List.getElem_map, List.getElem_range, Nat.zero_add,
        List.getElem_take]
      exact hByte
  refine ⟨_, ?_, hConsistent, hWithin.frame.trans_same hFrame, hWithin.inodeBitmap, ?_,
    ⟨fun i hi => ?_, ?_, fun k hk => ?_⟩⟩
  · simp only [shrinkDir, hFree, hWrite]
    exact kfsWriteInode_eq hReduced₂.opened.mounted hReliable₂ (Volume.live_lt hLive) _
  · rw [hFiles, hContent, hWithin.files_update, ← hReduced.type]
  · rw [hTable, update_of_ne (by simpa using hi), hWithin.table]
  · rw [hInode]
  · rw [hInode, hSlots]
    exact hReduced.keeps k hk

/-- `kfs_remove_dirent` cuts the record out of the directory. -/
theorem kfsRemoveDirent_spec (h : s.ConsistentAt total full) (hReliable : s.mount.Reliable)
    (hLive : s.live ino = true) (hEnd : offset + reclen ≤ (s.table ino).size)
    (hData : dirData = fileContent s.disk (s.table ino)) :
    ∃ s', kfsRemoveDirent s ino (s.table ino) offset reclen dirData = (.ok (), s') ∧
      s'.ConsistentAt total full ∧ s.Frame s' [ino] ∧ s'.inodeBitmap = s.inodeBitmap ∧
      s'.files = update s.files ino
        (some ⟨(s.table ino).type,
          dirData.take offset ++ dirData.drop (offset + reclen)⟩) ∧
      Shrunk ino (dirData.length - reclen) [ino] s s' := by
  have hBound := (h.sized ino hLive).bound
  have hLength : dirData.length = (s.table ino).size := by rw [hData, length_fileContent]
  have hTake := take_memmove (by omega : offset + reclen ≤ dirData.length)
  have hMoved : dirData.length - reclen ≤
      (dirData.take offset ++
        (dirData.drop (offset + reclen)).take (dirData.length - (offset + reclen)) ++
        dirData.drop (offset + (dirData.length - (offset + reclen)))).length := by
    simp only [List.length_append, List.length_take, List.length_drop]
    omega
  have hRemaining : sub32 (s.table ino).size (offset + reclen) =
      dirData.length - (offset + reclen) := by
    rw [sub32_of_le hEnd (by omega), hLength]
  have hNewSize : sub32 (s.table ino).size reclen = dirData.length - reclen := by
    rw [sub32_of_le (by omega) (by omega), hLength]
  have hOldBlocks : u32 ((s.table ino).size + 511) / 512 = blocksOf (s.table ino).size := by
    rw [u32_of_lt (by omega), blocksOf]
  have hNewBlocks : u32 (dirData.length - reclen + 511) / 512 =
      blocksOf (dirData.length - reclen) := by
    rw [u32_of_lt (by omega), blocksOf]
  have hShrink := shrinkDir_spec h hReliable hLive (by omega) hMoved
  rw [hTake] at hShrink
  rw [kfsRemoveDirent, hRemaining, hNewSize, hOldBlocks, hNewBlocks]
  exact hShrink

end Kryos.Fs
