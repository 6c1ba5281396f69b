import Mathlib.Tactic.Ring

/-! Little-endian words in a byte-addressed store. -/
namespace Kryos.LittleEndian

/-- The word of `n` bytes at `offset`. -/
def readLe (bytes : Nat → UInt8) (offset : Nat) : Nat → Nat
  | 0 => 0
  | n + 1 => (bytes offset).toNat + 256 * readLe bytes (offset + 1) n

/-- Byte `i` of a word. -/
def byteOf (value i : Nat) : UInt8 := UInt8.ofNat (value / 256 ^ i)

/-- The `n` low bytes of a word, lowest first. -/
def bytesOf (value n : Nat) : List UInt8 := (List.range n).map (byteOf value)

theorem readLe_lt (bytes : Nat → UInt8) (offset n : Nat) : readLe bytes offset n < 256 ^ n := by
  induction n generalizing offset with
  | zero => simp [readLe]
  | succ n ih =>
    have hByte := (bytes offset).toNat_lt
    have hRest := ih (offset + 1)
    rw [readLe, Nat.pow_succ]
    omega

theorem byteOf_succ (value i : Nat) : byteOf value (i + 1) = byteOf (value / 256) i := by
  rw [byteOf, byteOf, Nat.pow_succ', ← Nat.div_div_eq_div_mul]

/-- Reading the low bytes of a word gives the word back, truncated. -/
theorem readLe_of_bytes {bytes : Nat → UInt8} {offset n value : Nat}
    (h : ∀ i < n, bytes (offset + i) = byteOf value i) :
    readLe bytes offset n = value % 256 ^ n := by
  induction n generalizing offset value with
  | zero => simp [readLe, Nat.mod_one]
  | succ n ih =>
    have hFirst : bytes offset = byteOf value 0 := h 0 (by omega)
    have hRest : readLe bytes (offset + 1) n = value / 256 % 256 ^ n := by
      apply ih
      intro i hi
      rw [← byteOf_succ, ← h (i + 1) (by omega)]
      congr 1
      omega
    rw [readLe, hFirst, hRest, byteOf, Nat.pow_zero, Nat.div_one, Nat.pow_succ',
      Nat.mod_mul, UInt8.toNat_ofNat']

theorem readLe_congr {first second : Nat → UInt8} {offset n : Nat}
    (h : ∀ i < n, first (offset + i) = second (offset + i)) :
    readLe first offset n = readLe second offset n := by
  induction n generalizing offset with
  | zero => rfl
  | succ n ih =>
    have hRest : readLe first (offset + 1) n = readLe second (offset + 1) n := by
      apply ih
      intro i hi
      have hAt := h (i + 1) (by omega)
      rwa [← Nat.add_assoc, Nat.add_right_comm] at hAt
    have hFirst := h 0 (by omega)
    rw [Nat.add_zero] at hFirst
    rw [readLe, readLe, hRest, hFirst]

theorem byteOf_eq_of_mod {value other i : Nat} (h : value / 256 ^ i % 256 = other / 256 ^ i % 256) :
    byteOf value i = byteOf other i := by
  rw [byteOf, byteOf, ← UInt8.toNat_inj, UInt8.toNat_ofNat', UInt8.toNat_ofNat']
  exact h

/-- Replacing one byte of a word is seen in that byte only. -/
theorem byteOf_replace (word : Nat) (value : UInt8) (i j : Nat) :
    byteOf (word - word / 256 ^ j % 256 * 256 ^ j + value.toNat * 256 ^ j) i =
      if i = j then value else byteOf word i := by
  have hByte := value.toNat_lt
  have hPos : 0 < 256 ^ j := Nat.pow_pos (by decide)
  -- the word as its low part, the byte and its high part
  obtain ⟨low, high, digit, hLow, hDigit, hWord⟩ : ∃ low high digit, low < 256 ^ j ∧ digit < 256 ∧
      word = low + 256 ^ j * (digit + 256 * high) := by
    refine ⟨word % 256 ^ j, word / 256 ^ j / 256, word / 256 ^ j % 256, Nat.mod_lt _ hPos,
      Nat.mod_lt _ (by decide), ?_⟩
    rw [Nat.mod_add_div, Nat.mod_add_div]
  have hQuotient : word / 256 ^ j = digit + 256 * high := by
    rw [hWord, Nat.add_mul_div_left _ _ hPos, Nat.div_eq_of_lt hLow, Nat.zero_add]
  have hOld : word / 256 ^ j % 256 = digit := by
    omega
  have hNew : word - digit * 256 ^ j + value.toNat * 256 ^ j =
      low + 256 ^ j * (value.toNat + 256 * high) := by
    rw [hWord, Nat.mul_add, Nat.mul_add, Nat.mul_comm digit, Nat.mul_comm value.toNat]
    omega
  rw [hOld, hNew]
  split
  · rename_i hSame
    rw [hSame, byteOf, Nat.add_mul_div_left _ _ hPos, Nat.div_eq_of_lt hLow, Nat.zero_add,
      ← UInt8.toNat_inj, UInt8.toNat_ofNat']
    omega
  · rename_i hOther
    apply byteOf_eq_of_mod
    rw [hWord]
    rcases Nat.lt_or_gt_of_ne hOther with hBelow | hAbove
    · obtain ⟨d, rfl⟩ : ∃ d, j = i + (d + 1) := ⟨j - i - 1, by omega⟩
      have hPosI : 0 < 256 ^ i := Nat.pow_pos (by decide)
      rw [Nat.pow_add, Nat.mul_assoc, Nat.mul_assoc, Nat.add_mul_div_left _ _ hPosI,
        Nat.add_mul_div_left _ _ hPosI, Nat.pow_succ']
      simp only [Nat.mul_assoc, Nat.add_mul_mod_self_left]
    · obtain ⟨d, rfl⟩ : ∃ d, i = j + (1 + d) := ⟨i - j - 1, by omega⟩
      have hShift (x : Nat) (hx : x < 256) :
          (low + 256 ^ j * (x + 256 * high)) / 256 ^ (j + (1 + d)) = high / 256 ^ d := by
        rw [Nat.pow_add, ← Nat.div_div_eq_div_mul, Nat.add_mul_div_left _ _ hPos,
          Nat.div_eq_of_lt hLow, Nat.zero_add, Nat.pow_add, ← Nat.div_div_eq_div_mul, Nat.pow_one,
          Nat.add_mul_div_left _ _ (by decide), Nat.div_eq_of_lt hx, Nat.zero_add]
      rw [hShift _ hByte, hShift _ hDigit]

/-- Entry `index` of an array of 32-bit words. -/
def readWord (bytes : Nat → UInt8) (index : Nat) : Nat := readLe bytes (4 * index) 4

/-- Stores `count` 32-bit words from entry `first` on. -/
def storeWords (bytes : Nat → UInt8) (first count : Nat) (word : Nat → Nat) : Nat → UInt8 :=
  fun offset =>
    if first ≤ offset / 4 ∧ offset / 4 < first + count then
      byteOf (word (offset / 4 - first)) (offset % 4)
    else bytes offset

theorem readWord_lt (bytes : Nat → UInt8) (index : Nat) : readWord bytes index < 2 ^ 32 :=
  readLe_lt bytes (4 * index) 4

theorem readWord_storeWords (bytes : Nat → UInt8) (first count : Nat) (word : Nat → Nat)
    (index : Nat) :
    readWord (storeWords bytes first count word) index =
      if first ≤ index ∧ index < first + count then word (index - first) % 2 ^ 32
      else readWord bytes index := by
  split
  · rename_i hIn
    apply readLe_of_bytes
    intro i hi
    have hDiv : (4 * index + i) / 4 = index := by omega
    have hMod : (4 * index + i) % 4 = i := by omega
    rw [storeWords, hDiv, hMod, if_pos hIn]
  · rename_i hOut
    apply readLe_congr
    intro i hi
    have hDiv : (4 * index + i) / 4 = index := by omega
    rw [storeWords, hDiv, if_neg hOut]

end Kryos.LittleEndian
