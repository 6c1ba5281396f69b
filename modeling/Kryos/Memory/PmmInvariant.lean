import Kryos.Memory.Pmm

/-! The counter, the bitmap and the frames held by callers stay in step over
whole runs of the allocator. -/
namespace Kryos.Memory

open Word

variable {i frame addr byte : Nat} {p p' : Pmm} {bytes : Bitmap.Bytes}

/-- The first address after the bitmap storage, as a mathematical sum. -/
def Pmm.bitmapEnd (p : Pmm) : Nat := p.bitmapPhysAddr + p.bitmapSize

/-- All bits of the bitmap storage that are clear. -/
def Pmm.clearFrames (p : Pmm) : Finset Nat := Bitmap.clearBits p.bitmap (8 * p.bitmapSize)

/-- The bitmap covers every frame, its spare bits are set, and the counter is
the number of set bits among the real frames. -/
structure Pmm.Consistent (p : Pmm) : Prop where
  aligned : p.maxPhysicalAddress = p.totalFrames * pmmPageSize
  bounded : p.maxPhysicalAddress < 2 ^ 64
  size : p.bitmapSize = (p.totalFrames + 7) / 8
  spare : ∀ i, p.totalFrames ≤ i → i < 8 * p.bitmapSize → Bitmap.isSet p.bitmap i = true
  count : p.usedFrames + p.clearFrames.card = p.totalFrames

/-- The state after taking one frame. -/
def Pmm.take (p : Pmm) (frame : Nat) : Pmm :=
  { p with bitmap := Bitmap.set p.bitmap frame, usedFrames := p.usedFrames + 1 }

/-- The state after giving one frame back. -/
def Pmm.release (p : Pmm) (frame : Nat) : Pmm :=
  { p with bitmap := Bitmap.clear p.bitmap frame, usedFrames := p.usedFrames - 1 }

namespace Pmm.Consistent

variable {p : Pmm}

theorem total_lt (h : p.Consistent) : p.totalFrames < 2 ^ 52 := by
  have hAligned := h.aligned
  have hBounded := h.bounded
  simp only [pmmPageSize] at hAligned
  omega

theorem used_lt (h : p.Consistent) : p.usedFrames < 2 ^ 52 := by
  have hTotal := h.total_lt
  have hCount := h.count
  omega

theorem lt_total_of_clear (h : p.Consistent) (hi : i < 8 * p.bitmapSize)
    (hClear : Bitmap.isSet p.bitmap i = false) : i < p.totalFrames := by
  by_contra hNot
  have hSet := h.spare i (by omega) hi
  simp [hClear] at hSet

theorem lt_bits (h : p.Consistent) (hi : i < p.totalFrames) : i < 8 * p.bitmapSize := by
  rw [h.size]
  omega

theorem mem_clearFrames (h : p.Consistent) :
    i ∈ p.clearFrames ↔ i < p.totalFrames ∧ Bitmap.isSet p.bitmap i = false := by
  unfold Pmm.clearFrames
  rw [Bitmap.mem_clearBits]
  constructor
  · rintro ⟨hi, hClear⟩
    exact ⟨h.lt_total_of_clear hi hClear, hClear⟩
  · rintro ⟨hi, hClear⟩
    exact ⟨h.lt_bits hi, hClear⟩

theorem take (h : p.Consistent) {frame : Nat} (hFrame : frame < p.totalFrames)
    (hClear : Bitmap.isSet p.bitmap frame = false) : (p.take frame).Consistent where
  aligned := h.aligned
  bounded := h.bounded
  size := h.size
  spare := by
    intro i hLow hHigh
    have hSet := h.spare i hLow hHigh
    simp [Pmm.take, hSet]
  count := by
    have hCard := Bitmap.card_clearBits_set (h.lt_bits hFrame) hClear
    have hCount := h.count
    simp only [Pmm.take, Pmm.clearFrames] at hCard hCount ⊢
    omega

theorem used_pos (h : p.Consistent) (hFrame : frame < p.totalFrames)
    (hSet : Bitmap.isSet p.bitmap frame = true) : 0 < p.usedFrames := by
  have hSub : p.clearFrames ⊆ (Finset.range p.totalFrames).erase frame := by
    intro i hi
    have hMem := h.mem_clearFrames.mp hi
    rw [Finset.mem_erase, Finset.mem_range]
    refine ⟨?_, hMem.1⟩
    rintro rfl
    simp [hSet] at hMem
  have hCard := Finset.card_le_card hSub
  rw [Finset.card_erase_of_mem (Finset.mem_range.mpr hFrame), Finset.card_range] at hCard
  have hCount := h.count
  omega

theorem release (h : p.Consistent) (hFrame : frame < p.totalFrames)
    (hSet : Bitmap.isSet p.bitmap frame = true) : (p.release frame).Consistent where
  aligned := h.aligned
  bounded := h.bounded
  size := h.size
  spare := by
    intro i hLow hHigh
    have hNe : i ≠ frame := by
      simp only [Pmm.release] at hLow
      omega
    have hKept := h.spare i hLow hHigh
    simp [Pmm.release, hNe, hKept]
  count := by
    have hCard := Bitmap.card_clearBits_clear (h.lt_bits hFrame) hSet
    have hCount := h.count
    have hPos := h.used_pos hFrame hSet
    simp only [Pmm.release, Pmm.clearFrames] at hCard hCount ⊢
    omega

end Pmm.Consistent

/-! ### Boot marking -/

theorem pmmInit_consistent (memory : Bitmap.Bytes) (bitmapStartPhys : Nat) {maxPhysAddr : Nat}
    (hAligned : maxPhysAddr % pmmPageSize = 0) (hBounded : maxPhysAddr < 2 ^ 64) :
    (pmmInit memory bitmapStartPhys maxPhysAddr).Consistent := by
  have hSize : (pmmInit memory bitmapStartPhys maxPhysAddr).bitmapSize =
      ((pmmInit memory bitmapStartPhys maxPhysAddr).totalFrames + 7) / 8 := by
    simp only [pmmInit]
    split <;> omega
  have hSet : ∀ i, i < 8 * (pmmInit memory bitmapStartPhys maxPhysAddr).bitmapSize →
      Bitmap.isSet (pmmInit memory bitmapStartPhys maxPhysAddr).bitmap i = true := by
    intro i hi
    have hByte : i / 8 < (pmmInit memory bitmapStartPhys maxPhysAddr).bitmapSize := by omega
    have hFull : (pmmInit memory bitmapStartPhys maxPhysAddr).bitmap (i / 8) = 0xFF := by
      exact if_pos hByte
    have hBit := (Bitmap.byte_eq_max_iff _ _).mp hFull (i % 8) (Nat.mod_lt _ (by decide))
    rwa [Nat.div_add_mod] at hBit
  refine ⟨?_, hBounded, hSize, fun i _ hi => hSet i hi, ?_⟩
  · exact (Nat.div_mul_cancel (Nat.dvd_of_mod_eq_zero hAligned)).symm
  · have hEmpty : (pmmInit memory bitmapStartPhys maxPhysAddr).clearFrames = ∅ := by
      apply Finset.eq_empty_of_forall_notMem
      intro i hi
      have hMem := Bitmap.mem_clearBits.mp hi
      simp [hSet i hMem.1] at hMem
    rw [hEmpty]
    simp [pmmInit]

/-- One iteration of the marking loop either leaves the state alone, or takes
or releases exactly one frame. -/
theorem Pmm.markFrame_cases (h : p.Consistent) (hAddr : addr < p.maxPhysicalAddress) (free : Bool) :
    p.markFrame addr free = p ∨
    (∃ frame < p.totalFrames, Bitmap.isSet p.bitmap frame = false ∧
      p.markFrame addr free = p.take frame) ∨
    (∃ frame < p.totalFrames, Bitmap.isSet p.bitmap frame = true ∧
      p.markFrame addr free = p.release frame) := by
  have hFrame : addr >>> 12 < p.totalFrames := by
    have hAligned := h.aligned
    simp only [pmmPageSize] at hAligned
    omega
  have hUsed := h.used_lt
  cases hBit : Bitmap.isSet p.bitmap (addr >>> 12) with
  | false =>
    cases free with
    | true => exact Or.inl (by simp [Pmm.markFrame, hBit])
    | false =>
      refine Or.inr (Or.inl ⟨_, hFrame, hBit, ?_⟩)
      have hWrap : u64 (p.usedFrames + 1) = p.usedFrames + 1 := u64_of_lt (by omega)
      simp [Pmm.markFrame, hBit, Pmm.take, hWrap]
  | true =>
    cases free with
    | false => exact Or.inl (by simp [Pmm.markFrame, hBit])
    | true =>
      refine Or.inr (Or.inr ⟨_, hFrame, hBit, ?_⟩)
      have hPos := h.used_pos hFrame hBit
      have hWrap : sub64 p.usedFrames 1 = p.usedFrames - 1 := sub64_of_le hPos (by omega)
      simp [Pmm.markFrame, hBit, Pmm.release, hWrap]

theorem Pmm.markFrame_consistent (h : p.Consistent) (hAddr : addr < p.maxPhysicalAddress)
    (free : Bool) : (p.markFrame addr free).Consistent := by
  rcases Pmm.markFrame_cases h hAddr free with hSame | ⟨frame, hLt, hBit, hTake⟩ |
    ⟨frame, hLt, hBit, hRelease⟩
  · rwa [hSame]
  · rw [hTake]
    exact h.take hLt hBit
  · rw [hRelease]
    exact h.release hLt hBit

theorem Pmm.markFrame_maxPhysicalAddress (p : Pmm) (addr : Nat) (free : Bool) :
    (p.markFrame addr free).maxPhysicalAddress = p.maxPhysicalAddress := by
  unfold Pmm.markFrame
  split <;> dsimp only <;> split <;> rfl

theorem Pmm.markLoop_consistent (endAddr : Nat) (free : Bool) (fuel addr : Nat) (h : p.Consistent)
    (hEnd : endAddr ≤ p.maxPhysicalAddress)
    (hLoop : Pmm.markLoop endAddr free fuel addr p = some p') : p'.Consistent := by
  induction fuel generalizing addr p with
  | zero =>
    simp only [Pmm.markLoop] at hLoop
    split at hLoop
    · cases hLoop
    · cases hLoop
      exact h
  | succ fuel ih =>
    simp only [Pmm.markLoop] at hLoop
    split at hLoop
    · refine ih _ (Pmm.markFrame_consistent h (by omega) free) ?_ hLoop
      rw [Pmm.markFrame_maxPhysicalAddress]
      exact hEnd
    · cases hLoop
      exact h

theorem pmmMarkRegion_consistent (h : p.Consistent) (physAddr length : Nat) (free : Bool)
    (hMark : pmmMarkRegion p physAddr length free = some p') : p'.Consistent := by
  apply Pmm.markLoop_consistent _ free _ _ h _ hMark
  split <;> omega

/-- The states that `pmm_init` and any number of `pmm_mark_region` calls can
produce for a page-aligned end of memory. -/
inductive BootMarking : Pmm → Prop where
  | init (memory : Bitmap.Bytes) {bitmapStartPhys maxPhysAddr : Nat}
      (hStart : bitmapStartPhys < 2 ^ 64) (hMax : maxPhysAddr < 2 ^ 64)
      (hAligned : maxPhysAddr % pmmPageSize = 0) :
      BootMarking (pmmInit memory bitmapStartPhys maxPhysAddr)
  | mark {p p' : Pmm} (prior : BootMarking p) {physAddr length : Nat} (free : Bool)
      (hAddr : physAddr < 2 ^ 64) (hLength : length < 2 ^ 64)
      (hMark : pmmMarkRegion p physAddr length free = some p') : BootMarking p'

theorem BootMarking.consistent (h : BootMarking p) : p.Consistent := by
  induction h with
  | init memory hStart hMax hAligned => exact pmmInit_consistent memory _ hAligned hMax
  | mark prior free hAddr hLength hMark ih => exact pmmMarkRegion_consistent ih _ _ _ hMark

/-- Every frame that begins below the end of the bitmap storage is reserved. -/
def Pmm.BitmapReserved (p : Pmm) : Prop :=
  ∀ frame, frame < p.totalFrames → frame * pmmPageSize < p.bitmapEnd →
    Bitmap.isSet p.bitmap frame = true

theorem Pmm.isSet_markFrame (frame : Nat) :
    Bitmap.isSet (p.markFrame addr false).bitmap frame =
      (decide (frame = addr / pmmPageSize) || Bitmap.isSet p.bitmap frame) := by
  have hFrame : addr >>> 12 = addr / pmmPageSize := Nat.shiftRight_eq_div_pow addr 12
  simp only [Pmm.markFrame, hFrame, Bool.false_eq_true, if_false]
  split
  · simp
  · rename_i hSet
    rcases eq_or_ne frame (addr / pmmPageSize) with rfl | hNe
    · simpa using hSet
    · simp [hNe]

theorem Pmm.markFrame_bitmapEnd (p : Pmm) (addr : Nat) (free : Bool) :
    (p.markFrame addr free).bitmapEnd = p.bitmapEnd := by
  unfold Pmm.markFrame
  split <;> dsimp only <;> split <;> rfl

/-- The loop ends. It reserves the frames up to the end address, and frees none. -/
theorem Pmm.markLoop_reserves {endAddr fuel : Nat} (hAligned : addr % pmmPageSize = 0)
    (hEnd : endAddr + pmmPageSize ≤ 2 ^ 64) (hFuel : endAddr ≤ addr + fuel * pmmPageSize) :
    ∃ p', p.markLoop endAddr false fuel addr = some p' ∧ p'.bitmapEnd = p.bitmapEnd ∧
      ∀ frame, Bitmap.isSet p.bitmap frame = true ∨
        addr ≤ frame * pmmPageSize ∧ frame * pmmPageSize < endAddr →
          Bitmap.isSet p'.bitmap frame = true := by
  induction fuel generalizing addr p with
  | zero =>
    exact ⟨p, if_neg (by omega), rfl, fun frame hFrame => hFrame.resolve_right (by omega)⟩
  | succ fuel ih =>
    rw [Pmm.markLoop]
    split
    · have hNext : u64 (addr + pmmPageSize) = addr + pmmPageSize := u64_of_lt (by omega)
      rw [Nat.succ_mul] at hFuel
      obtain ⟨p', hLoop, hSame, hSet⟩ := @ih (addr + pmmPageSize) (p.markFrame addr false)
        (by rw [Nat.add_mod_right, hAligned]) (by omega)
      rw [hNext]
      refine ⟨p', hLoop, hSame.trans (p.markFrame_bitmapEnd addr false), fun frame hFrame =>
        hSet frame ?_⟩
      rw [Pmm.isSet_markFrame, Bool.or_eq_true, decide_eq_true_eq]
      rcases hFrame with hOld | ⟨hLow, hHigh⟩
      · exact .inl (.inr hOld)
      · simp only [pmmPageSize] at *
        omega
    · exact ⟨p, rfl, rfl, fun frame hFrame => hFrame.resolve_right (by omega)⟩

/-- `pmm_reserve_boot_regions` keeps the storage of the bitmap reserved, if that lies in memory. -/
theorem BootMarking.reserveBootRegions (h : BootMarking p)
    (hInside : p.bitmapEnd ≤ p.maxPhysicalAddress) :
    ∃ p', pmmReserveBootRegions p = some p' ∧ BootMarking p' ∧ p'.BitmapReserved := by
  have hBounded := h.consistent.bounded
  have hAligned := h.consistent.aligned
  simp only [pmmPageSize] at hAligned
  have hEnd : u64 (0 + u64 p.bitmapEnd) = p.bitmapEnd := by
    rw [Nat.zero_add, u64_of_lt (u64_lt _), u64_of_lt (by omega)]
  have hRounded :
      alignUp p.bitmapEnd pmmPageSize = (p.bitmapEnd + 2 ^ 12 - 1) / 2 ^ 12 * 2 ^ 12 := by
    rw [show pmmPageSize = 2 ^ 12 from rfl, alignUp_eq _ (by decide), u64_of_lt (by omega)]
  obtain ⟨p', hRun, hSame, hSet⟩ := @Pmm.markLoop_reserves (alignDown 0 pmmPageSize) p
    ((p.bitmapEnd + 2 ^ 12 - 1) / 2 ^ 12 * 2 ^ 12) (2 ^ 52) (by simp [alignDown])
    (by simp only [pmmPageSize]; omega) (by simp only [pmmPageSize]; omega)
  have hReserve : pmmReserveBootRegions p = some p' := by
    rw [pmmReserveBootRegions, pmmMarkRegion, ← Pmm.bitmapEnd, hEnd, hRounded, if_neg (by omega)]
    exact hRun
  refine ⟨p', hReserve, h.mark false (by decide) (u64_lt _) hReserve, fun frame _ hBelow => ?_⟩
  rw [hSame] at hBelow
  exact hSet frame (.inr ⟨by simp [alignDown], by omega⟩)

/-! ### Allocation and release -/

theorem firstClearBit_some {bit : Nat} (h : firstClearBit (bytes byte) = some bit) :
    bit < 8 ∧ Bitmap.isSet bytes (byte * 8 + bit) = false ∧
      ∀ k < bit, Bitmap.isSet bytes (byte * 8 + k) = true := by
  have hMask : ∀ k < 8, (bytes byte &&& Bitmap.bitMask k == 0) =
      !Bitmap.isSet bytes (byte * 8 + k) := by
    intro k hk
    have hDiv : (byte * 8 + k) / 8 = byte := by omega
    have hMod : Bitmap.bitMask (byte * 8 + k) = Bitmap.bitMask k := by
      simp only [Bitmap.bitMask]
      rw [show (byte * 8 + k) % 8 = k % 8 by omega]
    simp [Bitmap.isSet, hDiv, hMod, bne]
  obtain ⟨hFound, hBefore⟩ := List.find?_range_eq_some.mp h
  obtain ⟨hMem, hBefore⟩ := hBefore
  have hLt : bit < 8 := List.mem_range.mp hMem
  refine ⟨hLt, ?_, ?_⟩
  · rw [hMask bit hLt] at hFound
    simpa using hFound
  · intro k hk
    have hSet := hBefore k hk
    rw [hMask k (by omega)] at hSet
    simpa using hSet

theorem firstClearBit_none (h : firstClearBit (bytes byte) = none) : bytes byte = 0xFF := by
  rw [Bitmap.byte_eq_max_iff]
  intro k hk
  have hMask := List.find?_eq_none.mp h k (List.mem_range.mpr hk)
  have hDiv : (8 * byte + k) / 8 = byte := by omega
  have hMod : Bitmap.bitMask (8 * byte + k) = Bitmap.bitMask k := by
    simp only [Bitmap.bitMask]
    rw [show (8 * byte + k) % 8 = k % 8 by omega]
  simpa [Bitmap.isSet, hDiv, hMod] using hMask

/-- What a search from byte `byte` on returns, once all earlier bits are known
to be set: either every bit is set and nothing changes, or the first clear bit
is a real frame and is taken. -/
theorem Pmm.allocLoop_spec (h : p.Consistent) (remaining byte : Nat)
    (hBytes : byte + remaining = p.bitmapSize)
    (hBefore : ∀ i < 8 * byte, Bitmap.isSet p.bitmap i = true) :
    ((∀ i < 8 * p.bitmapSize, Bitmap.isSet p.bitmap i = true) ∧
      p.allocLoop remaining byte = (0, p)) ∨
    (∃ frame < p.totalFrames, Bitmap.isSet p.bitmap frame = false ∧
      p.allocLoop remaining byte = (frame * pmmPageSize, p.take frame)) := by
  induction remaining generalizing byte with
  | zero =>
    left
    refine ⟨?_, rfl⟩
    intro i hi
    exact hBefore i (by omega)
  | succ remaining ih =>
    have hNext (hFull : p.bitmap byte = 0xFF) : ∀ i < 8 * (byte + 1),
        Bitmap.isSet p.bitmap i = true := by
      intro i hi
      by_cases hLow : i < 8 * byte
      · exact hBefore i hLow
      · have hBit := (Bitmap.byte_eq_max_iff _ _).mp hFull (i - 8 * byte) (by omega)
        rwa [show 8 * byte + (i - 8 * byte) = i by omega] at hBit
    rw [Pmm.allocLoop]
    by_cases hFull : p.bitmap byte = 0xFF
    · rw [if_neg (by simpa using hFull)]
      exact ih (byte + 1) (by omega) (hNext hFull)
    · rw [if_pos (by simpa using hFull)]
      cases hFirst : firstClearBit (p.bitmap byte) with
      | none => exact False.elim (hFull (firstClearBit_none hFirst))
      | some bit =>
        obtain ⟨hBit, hClear, _⟩ := firstClearBit_some hFirst
        have hReal : byte * 8 + bit < p.totalFrames :=
          h.lt_total_of_clear (by omega) hClear
        have hUsed := h.used_lt
        right
        refine ⟨byte * 8 + bit, hReal, hClear, ?_⟩
        dsimp only
        rw [if_neg (by omega), u64_of_lt (by omega)]
        rfl

theorem pmmAllocPage_spec (h : p.Consistent) :
    (p.clearFrames = ∅ ∧ pmmAllocPage p = (0, p)) ∨
    (∃ frame < p.totalFrames, Bitmap.isSet p.bitmap frame = false ∧
      pmmAllocPage p = (frame * pmmPageSize, p.take frame)) := by
  rcases Pmm.allocLoop_spec h p.bitmapSize 0 (by omega) (by omega) with ⟨hAll, hResult⟩ | hFrame
  · left
    refine ⟨?_, hResult⟩
    apply Finset.eq_empty_of_forall_notMem
    intro i hi
    have hMem := Bitmap.mem_clearBits.mp hi
    simp [hAll i hMem.1] at hMem
  · exact Or.inr hFrame

/-- A held frame above the bitmap can be given back. -/
theorem pmmFreePage_spec (h : p.Consistent) (hFrame : frame < p.totalFrames)
    (hSet : Bitmap.isSet p.bitmap frame = true) (hAbove : p.bitmapEnd ≤ frame * pmmPageSize) :
    pmmFreePage p (frame * pmmPageSize) = .ok (p.release frame) := by
  have hAligned := h.aligned
  have hUsed := h.used_lt
  have hPos := h.used_pos hFrame hSet
  have hDiv : frame * pmmPageSize / pmmPageSize = frame :=
    Nat.mul_div_cancel _ (by decide)
  have hRange : ¬ frame * pmmPageSize ≥ p.maxPhysicalAddress := by
    simp only [pmmPageSize] at hAligned ⊢
    omega
  have hUsable : ¬ frame * pmmPageSize < u64 (p.bitmapPhysAddr + p.bitmapSize) := by
    have hMod : u64 (p.bitmapPhysAddr + p.bitmapSize) ≤ p.bitmapEnd := Nat.mod_le _ _
    omega
  have hWrap : sub64 p.usedFrames 1 = p.usedFrames - 1 := sub64_of_le hPos (by omega)
  simp only [pmmFreePage, Nat.mul_mod_left, ne_eq, not_true_eq_false, ↓reduceIte, hRange, hDiv,
    hSet, Bool.not_true, Bool.false_eq_true, hUsable, hWrap]
  rfl

theorem pmmFreeFrames_eq (h : p.Consistent) : pmmFreeFrames p = p.clearFrames.card := by
  have hCount := h.count
  have hTotal := h.total_lt
  rw [pmmFreeFrames, sub64_of_le (by omega) (by omega)]
  omega

/-- What the rest of the kernel may rely on once the machine has booted. -/
structure Pmm.Ready (p : Pmm) : Prop where
  consistent : p.Consistent
  reserved : p.BitmapReserved
  physical : p.maxPhysicalAddress ≤ 2 ^ 52

theorem Pmm.Ready.take {p : Pmm} (h : p.Ready) {frame : Nat} (hFrame : frame < p.totalFrames)
    (hClear : Bitmap.isSet p.bitmap frame = false) : (p.take frame).Ready where
  consistent := h.consistent.take hFrame hClear
  reserved := by
    intro other hOther hBelow
    have hSet := h.reserved other hOther hBelow
    simp [Pmm.take, hSet]
  physical := h.physical

theorem Pmm.Ready.release (h : p.Ready) (hFrame : frame < p.totalFrames)
    (hSet : Bitmap.isSet p.bitmap frame = true) (hAbove : p.bitmapEnd ≤ frame * pmmPageSize) :
    (p.release frame).Ready where
  consistent := h.consistent.release hFrame hSet
  reserved := by
    intro other hOther hBelow
    have hKept := h.reserved other hOther hBelow
    have hNe : other ≠ frame := by
      rintro rfl
      simp only [Pmm.bitmapEnd, Pmm.release] at hBelow hAbove
      omega
    simp [Pmm.release, hNe, hKept]
  physical := h.physical

theorem Pmm.Ready.above (h : p.Ready) (hFrame : frame < p.totalFrames)
    (hClear : Bitmap.isSet p.bitmap frame = false) : p.bitmapEnd ≤ frame * pmmPageSize := by
  by_contra hBelow
  have hSet := h.reserved frame hFrame (by omega)
  simp [hClear] at hSet

/-- The frame at address zero lies below the bitmap, so a clear frame never has
the address that means failure. -/
theorem Pmm.Ready.pos (h : p.Ready) (hFrame : frame < p.totalFrames)
    (hClear : Bitmap.isSet p.bitmap frame = false) : 0 < frame := by
  have hAbove := h.above hFrame hClear
  have hSize := h.consistent.size
  rcases Nat.eq_zero_or_pos frame with rfl | hPos
  · simp only [Pmm.bitmapEnd] at hAbove
    omega
  · exact hPos

theorem frame_beq_zero (h : 0 < frame) : (frame * pmmPageSize == 0) = false := by
  simp only [pmmPageSize, beq_eq_false_iff_ne]
  omega

theorem Pmm.Ready.below (h : p.Ready) (hFrame : frame < p.totalFrames) :
    frame * pmmPageSize < 2 ^ 52 := by
  have hAligned := h.consistent.aligned
  have hMax := h.physical
  have hMul := Nat.mul_lt_mul_of_pos_right hFrame (show 0 < pmmPageSize by decide)
  omega

theorem Pmm.Ready.alloc (h : p.Ready) :
    (p.clearFrames = ∅ ∧ pmmAllocPage p = (0, p)) ∨
    (∃ frame, 0 < frame ∧ frame < p.totalFrames ∧ Bitmap.isSet p.bitmap frame = false ∧
      pmmAllocPage p = (frame * pmmPageSize, p.take frame)) := by
  rcases pmmAllocPage_spec h.consistent with hNone | ⟨frame, hLt, hClear, hResult⟩
  · exact Or.inl hNone
  · exact Or.inr ⟨frame, h.pos hLt hClear, hLt, hClear, hResult⟩

/-! ### Callers -/

/-- The allocator together with the frames its callers hold. -/
structure PmmClient where
  pmm : Pmm
  held : List Nat

/-- One call by some caller. Only a held frame is freed. -/
inductive PmmStep : PmmClient → PmmClient → Prop where
  | alloc (c : PmmClient) : PmmStep c
      { pmm := (pmmAllocPage c.pmm).2
        held := if (pmmAllocPage c.pmm).1 = 0 then c.held else (pmmAllocPage c.pmm).1 :: c.held }
  | free (c : PmmClient) {physAddr : Nat} {p' : Pmm} (hHeld : physAddr ∈ c.held)
      (hFree : pmmFreePage c.pmm physAddr = .ok p') :
      PmmStep c { pmm := p', held := c.held.erase physAddr }

/-- Free a list of frames from left to right. -/
def pmmFreeAll : List Nat → Pmm → Except PmmPanic Pmm
  | [], p => .ok p
  | physAddr :: rest, p =>
    match pmmFreePage p physAddr with
    | .ok p' => pmmFreeAll rest p'
    | .error e => .error e

/-- The bitmap is the boot bitmap with exactly the held frames added. -/
structure PmmClient.Holds (start : Pmm) (c : PmmClient) : Prop where
  consistent : c.pmm.Consistent
  nodup : c.held.Nodup
  frames : ∀ physAddr ∈ c.held, ∃ frame, physAddr = frame * pmmPageSize ∧
    frame < start.totalFrames ∧ Bitmap.isSet start.bitmap frame = false
  bits : ∀ i, Bitmap.isSet c.pmm.bitmap i =
    (Bitmap.isSet start.bitmap i || decide (i * pmmPageSize ∈ c.held))
  used : c.pmm.usedFrames = start.usedFrames + c.held.length
  fixed : c.pmm = { start with bitmap := c.pmm.bitmap, usedFrames := c.pmm.usedFrames }

namespace PmmClient.Holds

variable {start : Pmm} {c : PmmClient}

theorem initial (h : start.Consistent) : Holds start ⟨start, []⟩ where
  consistent := h
  nodup := List.nodup_nil
  frames := by simp
  bits := by simp
  used := by simp
  fixed := rfl

theorem totalFrames (h : Holds start c) : c.pmm.totalFrames = start.totalFrames := by
  rw [h.fixed]

theorem bitmapEnd (h : Holds start c) : c.pmm.bitmapEnd = start.bitmapEnd := by
  rw [h.fixed]
  rfl

theorem page_mul_inj {j : Nat} (h : i * pmmPageSize = j * pmmPageSize) : i = j :=
  Nat.eq_of_mul_eq_mul_right (by decide) h

theorem take (h : Holds start c) {frame : Nat} (hFrame : frame < c.pmm.totalFrames)
    (hClear : Bitmap.isSet c.pmm.bitmap frame = false) :
    Holds start ⟨c.pmm.take frame, frame * pmmPageSize :: c.held⟩ := by
  have hBoth := h.bits frame
  rw [hClear, eq_comm, Bool.or_eq_false_iff, decide_eq_false_iff_not] at hBoth
  refine ⟨h.consistent.take hFrame hClear, List.nodup_cons.mpr ⟨hBoth.2, h.nodup⟩, ?_, ?_, ?_, ?_⟩
  · intro physAddr hMem
    rcases List.mem_cons.mp hMem with rfl | hMem
    · exact ⟨frame, rfl, h.totalFrames ▸ hFrame, hBoth.1⟩
    · exact h.frames physAddr hMem
  · intro i
    have hi := h.bits i
    by_cases hEq : i = frame
    · subst hEq
      simp [Pmm.take]
    · have hNe : i * pmmPageSize ≠ frame * pmmPageSize := fun hMul => hEq (page_mul_inj hMul)
      simp [Pmm.take, hi, hEq, hNe]
  · simp only [Pmm.take, List.length_cons, h.used]
    omega
  · simp only [Pmm.take]
    rw [h.fixed]

theorem held_frame (h : Holds start c) (hReserved : start.BitmapReserved) {physAddr : Nat}
    (hHeld : physAddr ∈ c.held) :
    ∃ frame, physAddr = frame * pmmPageSize ∧ frame < c.pmm.totalFrames ∧
      Bitmap.isSet c.pmm.bitmap frame = true ∧ start.bitmapEnd ≤ frame * pmmPageSize := by
  obtain ⟨frame, rfl, hLt, hClear⟩ := h.frames physAddr hHeld
  refine ⟨frame, rfl, h.totalFrames ▸ hLt, ?_, ?_⟩
  · rw [h.bits, decide_eq_true hHeld, Bool.or_true]
  · by_contra hBelow
    have hSet := hReserved frame hLt (by omega)
    simp [hClear] at hSet

theorem free_ok (h : Holds start c) (hReserved : start.BitmapReserved)
    (hHeld : frame * pmmPageSize ∈ c.held) :
    pmmFreePage c.pmm (frame * pmmPageSize) = .ok (c.pmm.release frame) := by
  obtain ⟨other, hEq, hLt, hSet, hAbove⟩ := h.held_frame hReserved hHeld
  obtain rfl := page_mul_inj hEq
  exact pmmFreePage_spec h.consistent hLt hSet (by rw [h.bitmapEnd]; exact hAbove)

theorem release (h : Holds start c) (hHeld : frame * pmmPageSize ∈ c.held) :
    Holds start ⟨c.pmm.release frame, c.held.erase (frame * pmmPageSize)⟩ := by
  obtain ⟨other, hEq, hLt, hClear⟩ := h.frames _ hHeld
  obtain rfl := page_mul_inj hEq
  have hSet : Bitmap.isSet c.pmm.bitmap frame = true := by
    rw [h.bits, decide_eq_true hHeld, Bool.or_true]
  refine ⟨h.consistent.release (h.totalFrames ▸ hLt) hSet, h.nodup.erase _, ?_, ?_, ?_, ?_⟩
  · intro physAddr hMem
    exact h.frames physAddr (List.mem_of_mem_erase hMem)
  · intro i
    have hi := h.bits i
    by_cases hEq : i = frame
    · subst hEq
      have hGone : ¬ i * pmmPageSize ∈ c.held.erase (i * pmmPageSize) := h.nodup.not_mem_erase
      simp [Pmm.release, hClear, hGone]
    · have hNe : i * pmmPageSize ≠ frame * pmmPageSize := fun hMul => hEq (page_mul_inj hMul)
      simp [Pmm.release, hi, hEq, List.mem_erase_of_ne hNe]
  · have hLength := List.length_erase_of_mem hHeld
    have hPos := List.length_pos_of_mem hHeld
    have hUsed := h.used
    simp only [Pmm.release]
    omega
  · simp only [Pmm.release]
    rw [h.fixed]

theorem alloc_ne_zero (h : Holds start c) (hReserved : start.BitmapReserved)
    (hLt : frame < c.pmm.totalFrames) (hClear : Bitmap.isSet c.pmm.bitmap frame = false)
    (hResult : pmmAllocPage c.pmm = (frame * pmmPageSize, c.pmm.take frame)) :
    (pmmAllocPage c.pmm).1 ≠ 0 := by
  intro hZero
  rw [hResult] at hZero
  obtain ⟨other, hEq, hOther, hOtherClear⟩ := (h.take hLt hClear).frames _ (List.mem_cons_self ..)
  obtain rfl := page_mul_inj hEq
  have hBytes : 0 < start.bitmapSize := by
    have hSize := h.consistent.size
    rw [h.fixed] at hSize
    simp only at hSize
    omega
  have hSet := hReserved frame hOther (by simp only [Pmm.bitmapEnd]; simp only at hZero; omega)
  simp [hOtherClear] at hSet

theorem step (h : Holds start c) (hReserved : start.BitmapReserved) {d : PmmClient}
    (hStep : PmmStep c d) : Holds start d := by
  cases hStep with
  | alloc =>
    rcases pmmAllocPage_spec h.consistent with ⟨_, hResult⟩ | ⟨frame, hLt, hClear, hResult⟩
    · rw [hResult]
      exact h
    · have hNonzero := h.alloc_ne_zero hReserved hLt hClear hResult
      rw [if_neg hNonzero, hResult]
      exact h.take hLt hClear
  | free hHeld hFree =>
    obtain ⟨frame, rfl, _⟩ := h.frames _ hHeld
    rw [h.free_ok hReserved hHeld] at hFree
    cases hFree
    exact h.release hHeld

theorem run (hStart : start.Consistent) (hReserved : start.BitmapReserved)
    (hRun : Relation.ReflTransGen PmmStep ⟨start, []⟩ c) : Holds start c := by
  induction hRun with
  | refl => exact initial hStart
  | tail _ hStep ih => exact ih.step hReserved hStep

/-- Giving every held frame back, in any order, ends in the boot state. -/
theorem freeAll (hReserved : start.BitmapReserved) (order : List Nat) {held : List Nat}
    (h : Holds start ⟨p, held⟩) (hPerm : order.Perm held) : pmmFreeAll order p = .ok start := by
  induction order generalizing held p with
  | nil =>
    obtain rfl := hPerm.symm.eq_nil
    have hBitmap : p.bitmap = start.bitmap := by
      apply Bitmap.ext_isSet
      intro i
      simpa using h.bits i
    have hUsed : p.usedFrames = start.usedFrames := by simpa using h.used
    have hFixed := h.fixed
    simp only [hBitmap, hUsed] at hFixed
    rw [hFixed]
    rfl
  | cons physAddr rest ih =>
    have hHeld : physAddr ∈ held := hPerm.subset (List.mem_cons_self ..)
    obtain ⟨frame, rfl, _⟩ := h.frames _ hHeld
    have hRest : rest.Perm (held.erase (frame * pmmPageSize)) := by
      simpa using hPerm.erase (frame * pmmPageSize)
    simp only [pmmFreeAll, h.free_ok hReserved hHeld]
    exact ih (h.release hHeld) hRest

end PmmClient.Holds

/-- No frame is handed out twice. In every state that callers reach from a
boot marking which keeps the bitmap storage reserved, an allocated frame is
aligned, in range, above the bitmap and held by nobody; `0` means exactly that
no frame is free; held frames can be freed without a panic; the counters agree
with the bitmap; and giving everything back in any order restores the boot
state. -/
theorem pmm_frames_exclusive {start : Pmm} (hBoot : BootMarking start)
    (hReserved : start.BitmapReserved) {c : PmmClient}
    (hRun : Relation.ReflTransGen PmmStep ⟨start, []⟩ c) :
    ((pmmAllocPage c.pmm).1 ≠ 0 →
      (pmmAllocPage c.pmm).1 % pmmPageSize = 0 ∧
      (pmmAllocPage c.pmm).1 < start.maxPhysicalAddress ∧
      start.bitmapEnd ≤ (pmmAllocPage c.pmm).1 ∧
      (pmmAllocPage c.pmm).1 ∉ c.held) ∧
    ((pmmAllocPage c.pmm).1 = 0 ↔ pmmFreeFrames c.pmm = 0) ∧
    (∀ physAddr ∈ c.held, ∃ p', pmmFreePage c.pmm physAddr = .ok p') ∧
    pmmTotalFrames c.pmm = pmmFreeFrames c.pmm + pmmUsedFrames c.pmm ∧
    pmmFreeFrames c.pmm = c.pmm.clearFrames.card ∧
    (∀ order : List Nat, order.Perm c.held → pmmFreeAll order c.pmm = .ok start) := by
  have h := PmmClient.Holds.run hBoot.consistent hReserved hRun
  have hFree := pmmFreeFrames_eq h.consistent
  have hNext := h.step hReserved (PmmStep.alloc c)
  refine ⟨?_, ?_, ?_, ?_, hFree, fun order hPerm => h.freeAll hReserved order hPerm⟩
  · -- the next state holds the new frame beside the old ones, without repetition
    intro hNonzero
    rw [if_neg hNonzero] at hNext
    have hNodup := (List.nodup_cons.mp hNext.nodup).1
    obtain ⟨frame, hEq, hLt, _, hAbove⟩ := hNext.held_frame hReserved (List.mem_cons_self ..)
    have hAligned := hBoot.consistent.aligned
    rw [hNext.totalFrames] at hLt
    refine ⟨by rw [hEq, Nat.mul_mod_left], ?_, by omega, hNodup⟩
    rw [hEq, hAligned]
    exact Nat.mul_lt_mul_of_pos_right hLt (by decide)
  · rw [hFree]
    rcases pmmAllocPage_spec h.consistent with ⟨hEmpty, hResult⟩ | ⟨frame, hLt, hClear, hResult⟩
    · simp [hResult, hEmpty]
    · have hMem : frame ∈ c.pmm.clearFrames := h.consistent.mem_clearFrames.mpr ⟨hLt, hClear⟩
      have hCard : c.pmm.clearFrames.card ≠ 0 := Finset.card_ne_zero_of_mem hMem
      have hNonzero : (pmmAllocPage c.pmm).1 ≠ 0 :=
        PmmClient.Holds.alloc_ne_zero h hReserved hLt hClear hResult
      exact ⟨fun hZero => absurd hZero hNonzero, fun hZero => absurd hZero hCard⟩
  · intro physAddr hHeld
    obtain ⟨frame, rfl, _⟩ := h.frames _ hHeld
    exact ⟨_, h.free_ok hReserved hHeld⟩
  · have hCount := h.consistent.count
    simp only [pmmTotalFrames, pmmUsedFrames]
    omega

/-- Four frames of memory with the bitmap in the first one. -/
def fourFrameBoot : Pmm := pmmInit (fun _ => 0) 0 (4 * pmmPageSize)

/-- The same machine after its last three frames were reported available. -/
def fourFrameStart : Pmm :=
  ((fourFrameBoot.markFrame 4096 true).markFrame 8192 true).markFrame 12288 true

theorem fourFrameStart_bootMarking : BootMarking fourFrameStart := by
  have hInit : BootMarking fourFrameBoot :=
    BootMarking.init (fun _ => 0) (by decide : 0 < 2 ^ 64)
      (by decide : 4 * pmmPageSize < 2 ^ 64) (by decide)
  have hMark : pmmMarkRegion fourFrameBoot 4096 12288 true = some fourFrameStart := rfl
  exact hInit.mark true (by decide) (by decide) hMark

theorem fourFrameStart_bitmapReserved : fourFrameStart.BitmapReserved := by
  have hEnd : fourFrameStart.bitmapEnd = 1 := rfl
  intro frame _ hBelow
  obtain rfl : frame = 0 := by
    simp only [pmmPageSize] at hBelow
    omega
  rfl

/-- After one allocation on this machine the second frame is held, and the
next allocation returns the third. -/
theorem pmm_frames_exclusive_fourFrame :
    (pmmAllocPage (pmmAllocPage fourFrameStart).2).1 = 8192 ∧
      (pmmAllocPage (pmmAllocPage fourFrameStart).2).1 ∉ [4096] := by
  have hOnce : Relation.ReflTransGen PmmStep ⟨fourFrameStart, []⟩
      ⟨(pmmAllocPage fourFrameStart).2, [4096]⟩ :=
    .single (PmmStep.alloc ⟨fourFrameStart, []⟩)
  have h := pmm_frames_exclusive fourFrameStart_bootMarking fourFrameStart_bitmapReserved hOnce
  have hResult : (pmmAllocPage (pmmAllocPage fourFrameStart).2).1 = 8192 := by decide
  exact ⟨hResult, (h.1 (by rw [hResult]; decide)).2.2.2⟩

end Kryos.Memory
