import Mathlib.Data.Finset.Card
import Mathlib.Tactic.IntervalCases

/-! Bitmaps stored as bytes. Bit `i` lives in byte `i / 8` under the mask
`1 << (i % 8)`. The byte store is total: a bitmap is a window into memory, and
updates outside the window are visible rather than silently dropped. -/
namespace Kryos.Bitmap

open Function

abbrev Bytes := Nat → UInt8

/-- The mask `1 << (i % 8)` of bit `i` within its byte. -/
def bitMask (i : Nat) : UInt8 := 1 <<< UInt8.ofNat (i % 8)

def isSet (bytes : Bytes) (i : Nat) : Bool := bytes (i / 8) &&& bitMask i != 0

def set (bytes : Bytes) (i : Nat) : Bytes :=
  update bytes (i / 8) (bytes (i / 8) ||| bitMask i)

def clear (bytes : Bytes) (i : Nat) : Bytes :=
  update bytes (i / 8) (bytes (i / 8) &&& ~~~ bitMask i)

theorem bitMask_toBitVec (i : Nat) : (bitMask i).toBitVec = BitVec.twoPow 8 (i % 8) := by
  have h : i % 8 < 8 := Nat.mod_lt _ (by decide)
  unfold bitMask
  generalize i % 8 = k at h
  interval_cases k <;> rfl

theorem byte_and_bitMask (byte : UInt8) (i : Nat) :
    (byte &&& bitMask i != 0) = byte.toBitVec.getLsbD (i % 8) := by
  have hLt : i % 8 < 8 := Nat.mod_lt _ (by decide)
  have hZero : (byte &&& bitMask i = 0) ↔ byte.toBitVec.getLsbD (i % 8) = false := by
    rw [← UInt8.toBitVec_inj, UInt8.toBitVec_and, bitMask_toBitVec, BitVec.and_twoPow]
    split
    · rename_i hBit
      simp only [hBit, Bool.true_eq_false, iff_false]
      intro h
      have hBits := congrArg (fun v => v.getLsbD (i % 8)) h
      simp [hLt] at hBits
    · rename_i hBit
      simpa using hBit
  cases h : byte.toBitVec.getLsbD (i % 8) with
  | false => simpa using hZero.mpr h
  | true =>
    have hNe : byte &&& bitMask i ≠ 0 := fun hEq => by simp [hZero.mp hEq] at h
    simpa using hNe

theorem isSet_eq_getLsbD (bytes : Bytes) (i : Nat) :
    isSet bytes i = (bytes (i / 8)).toBitVec.getLsbD (i % 8) :=
  byte_and_bitMask _ _

@[simp] theorem isSet_set (bytes : Bytes) (i j : Nat) :
    isSet (set bytes i) j = (decide (j = i) || isSet bytes j) := by
  have hi : i % 8 < 8 := Nat.mod_lt _ (by decide)
  rw [isSet_eq_getLsbD, isSet_eq_getLsbD]
  by_cases hByte : j / 8 = i / 8
  · have hBit : i % 8 = j % 8 ↔ j = i := by omega
    simp only [set, hByte, update_self, UInt8.toBitVec_or, bitMask_toBitVec,
      BitVec.getLsbD_or, BitVec.getLsbD_twoPow, hi, decide_true, Bool.true_and, hBit]
    rw [Bool.or_comm]
  · have hNe : j ≠ i := fun h => hByte (by rw [h])
    simp [set, update_of_ne hByte, hNe]

@[simp] theorem isSet_clear (bytes : Bytes) (i j : Nat) :
    isSet (clear bytes i) j = (!decide (j = i) && isSet bytes j) := by
  have hi : i % 8 < 8 := Nat.mod_lt _ (by decide)
  have hj : j % 8 < 8 := Nat.mod_lt _ (by decide)
  rw [isSet_eq_getLsbD, isSet_eq_getLsbD]
  by_cases hByte : j / 8 = i / 8
  · have hBit : i % 8 = j % 8 ↔ j = i := by omega
    simp only [clear, hByte, update_self, UInt8.toBitVec_and, UInt8.toBitVec_not,
      bitMask_toBitVec, BitVec.getLsbD_and, BitVec.getLsbD_not, BitVec.getLsbD_twoPow, hi, hj,
      decide_true, Bool.true_and, hBit]
    rw [Bool.and_comm]
  · have hNe : j ≠ i := fun h => hByte (by rw [h])
    simp [clear, update_of_ne hByte, hNe]

theorem ext_isSet {a b : Bytes} (h : ∀ i, isSet a i = isSet b i) : a = b := by
  funext byte
  apply UInt8.toBitVec_inj.mp
  apply BitVec.eq_of_getLsbD_eq
  intro k hk
  have hBit := h (8 * byte + k)
  rw [isSet_eq_getLsbD, isSet_eq_getLsbD] at hBit
  have hDiv : (8 * byte + k) / 8 = byte := by omega
  have hMod : (8 * byte + k) % 8 = k := by omega
  rwa [hDiv, hMod] at hBit

/-- Bytes other than the one holding bit `i` are untouched. -/
theorem set_apply_of_ne (bytes : Bytes) {i byte : Nat} (h : byte ≠ i / 8) :
    set bytes i byte = bytes byte := update_of_ne h _ _

theorem clear_apply_of_ne (bytes : Bytes) {i byte : Nat} (h : byte ≠ i / 8) :
    clear bytes i byte = bytes byte := update_of_ne h _ _

/-- A byte is `0xFF` exactly when all its eight bits are set. -/
theorem byte_eq_max_iff (bytes : Bytes) (byte : Nat) :
    bytes byte = 0xFF ↔ ∀ k < 8, isSet bytes (8 * byte + k) = true := by
  constructor
  · intro h k hk
    have hDiv : (8 * byte + k) / 8 = byte := by omega
    have hMod : (8 * byte + k) % 8 = k := by omega
    rw [isSet_eq_getLsbD, hDiv, hMod, h]
    interval_cases k <;> rfl
  · intro h
    apply UInt8.toBitVec_inj.mp
    apply BitVec.eq_of_getLsbD_eq
    intro k hk
    have hBit := h k hk
    have hDiv : (8 * byte + k) / 8 = byte := by omega
    have hMod : (8 * byte + k) % 8 = k := by omega
    rw [isSet_eq_getLsbD, hDiv, hMod] at hBit
    rw [hBit]
    interval_cases k <;> rfl

/-- The indices below `bound` whose bit is clear. -/
def clearBits (bytes : Bytes) (bound : Nat) : Finset Nat :=
  (Finset.range bound).filter (fun i => isSet bytes i = false)

theorem mem_clearBits {bytes : Bytes} {bound i : Nat} :
    i ∈ clearBits bytes bound ↔ i < bound ∧ isSet bytes i = false := by
  simp [clearBits]

theorem clearBits_set (bytes : Bytes) (bound i : Nat) :
    clearBits (set bytes i) bound = (clearBits bytes bound).erase i := by
  ext j
  by_cases hj : j = i <;> simp [mem_clearBits, hj]

theorem card_clearBits_set {bytes : Bytes} {bound i : Nat} (hi : i < bound)
    (hClear : isSet bytes i = false) :
    (clearBits (set bytes i) bound).card + 1 = (clearBits bytes bound).card := by
  rw [clearBits_set]
  exact Finset.card_erase_add_one (mem_clearBits.mpr ⟨hi, hClear⟩)

theorem card_clearBits_clear {bytes : Bytes} {bound i : Nat} (hi : i < bound)
    (hSet : isSet bytes i = true) :
    (clearBits (clear bytes i) bound).card = (clearBits bytes bound).card + 1 := by
  have hBack : set (clear bytes i) i = bytes := by
    apply ext_isSet
    intro j
    by_cases hj : j = i
    · subst hj
      simp [hSet]
    · simp [hj]
  have h := @card_clearBits_set (clear bytes i) _ _ hi (by simp)
  rw [hBack] at h
  exact h.symm

end Kryos.Bitmap
