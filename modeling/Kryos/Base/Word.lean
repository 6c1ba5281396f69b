import Mathlib.Data.Nat.Bitwise
import Mathlib.Tactic.Ring

/-! Fixed-width unsigned arithmetic on natural numbers. A machine word is a
natural number below a power of two, and every wrapping operation of the
source is written with an explicit reduction. -/
namespace Kryos.Word

/-- Reduction of an unsigned 64-bit computation. -/
def u64 (value : Nat) : Nat := value % 2 ^ 64

/-- Reduction of an unsigned 32-bit computation. -/
def u32 (value : Nat) : Nat := value % 2 ^ 32

theorem u64_of_lt {value : Nat} (h : value < 2 ^ 64) : u64 value = value :=
  Nat.mod_eq_of_lt h

theorem u64_lt (value : Nat) : u64 value < 2 ^ 64 := Nat.mod_lt _ (by decide)

theorem u32_of_lt {value : Nat} (h : value < 2 ^ 32) : u32 value = value :=
  Nat.mod_eq_of_lt h

/-- Wrapping subtraction of 64-bit words. -/
def sub64 (a b : Nat) : Nat := u64 (a + 2 ^ 64 - b)

theorem sub64_of_le {a b : Nat} (hle : b ≤ a) (hlt : a < 2 ^ 64) : sub64 a b = a - b := by
  simp only [sub64, u64]
  omega

/-- Wrapping subtraction of 32-bit words. -/
def sub32 (a b : Nat) : Nat := u32 (a + 2 ^ 32 - b)

theorem sub32_of_le {a b : Nat} (hle : b ≤ a) (hlt : a < 2 ^ 32) : sub32 a b = a - b := by
  simp only [sub32, u32]
  omega

/-- `value & ~(alignment - 1)` on 64-bit words. -/
def alignDown (value alignment : Nat) : Nat := value &&& (2 ^ 64 - alignment)

/-- `(value + alignment - 1) & ~(alignment - 1)` on 64-bit words. The sum is
reduced before the mask, so a value near the top of the range rounds to `0`. -/
def alignUp (value alignment : Nat) : Nat :=
  u64 (value + alignment - 1) &&& (2 ^ 64 - alignment)

/-- Clearing the low bits of a word rounds it down to a multiple of the
power of two. -/
theorem land_compl_eq {value k : Nat} (hValue : value < 2 ^ 64) (hk : k ≤ 64) :
    value &&& (2 ^ 64 - 2 ^ k) = value / 2 ^ k * 2 ^ k := by
  apply Nat.eq_of_testBit_eq
  intro i
  have hMask : (2 ^ 64 - 2 ^ k) = (2 ^ (64 - k) - 1) * 2 ^ k := by
    rw [Nat.sub_mul, ← pow_add, Nat.sub_add_cancel hk, one_mul]
  rw [hMask, Nat.testBit_and, Nat.testBit_mul_two_pow, Nat.testBit_mul_two_pow,
    Nat.testBit_two_pow_sub_one, Nat.testBit_div_two_pow]
  by_cases hi : k ≤ i
  · by_cases hTop : i < 64
    · have hIndex : i - k < 64 - k := by omega
      simp [hi, hIndex]
    · have hZero : value.testBit i = false :=
        Nat.testBit_lt_two_pow (lt_of_lt_of_le hValue (Nat.pow_le_pow_right (by decide) (by omega)))
      simp [hi, hZero]
  · simp [hi]

theorem alignDown_eq {value k : Nat} (hValue : value < 2 ^ 64) (hk : k ≤ 64) :
    alignDown value (2 ^ k) = value / 2 ^ k * 2 ^ k := land_compl_eq hValue hk

theorem alignUp_eq (value : Nat) {k : Nat} (hk : k ≤ 64) :
    alignUp value (2 ^ k) = u64 (value + 2 ^ k - 1) / 2 ^ k * 2 ^ k :=
  land_compl_eq (u64_lt _) hk

/-- Testing one flag of a word against a single-bit mask. -/
def hasFlag (word flag : Nat) : Bool := word &&& flag != 0

theorem hasFlag_two_pow (word i : Nat) : hasFlag word (2 ^ i) = word.testBit i := by
  unfold hasFlag
  rw [Nat.and_two_pow]
  cases h : word.testBit i <;> simp

end Kryos.Word
