import Kryos.Memory.Vmm

/-! The bits of page-table entries. After this file an entry is known by its
frame and its flags only. -/
namespace Kryos.Memory

open Word

variable {phys i e : Nat}

@[simp] theorem hasFlag_present (e : Nat) : hasFlag e ptePresent = e.testBit 0 :=
  hasFlag_two_pow e 0
@[simp] theorem hasFlag_writable (e : Nat) : hasFlag e pteWritable = e.testBit 1 :=
  hasFlag_two_pow e 1
@[simp] theorem hasFlag_user (e : Nat) : hasFlag e pteUser = e.testBit 2 := hasFlag_two_pow e 2
@[simp] theorem hasFlag_ps (e : Nat) : hasFlag e pdePs = e.testBit 7 := hasFlag_two_pow e 7
@[simp] theorem hasFlag_noExecute (e : Nat) : hasFlag e pteNoExecute = e.testBit 63 :=
  hasFlag_two_pow e 63

@[simp] theorem hasFlag_flagWritable (f : Nat) : hasFlag f vmmFlagWritable = f.testBit 0 :=
  hasFlag_two_pow f 0
@[simp] theorem hasFlag_flagUser (f : Nat) : hasFlag f vmmFlagUser = f.testBit 1 :=
  hasFlag_two_pow f 1
@[simp] theorem hasFlag_flagNoExecute (f : Nat) : hasFlag f vmmFlagNoExecute = f.testBit 2 :=
  hasFlag_two_pow f 2

theorem testBit_ptePresent (i : Nat) : ptePresent.testBit i = decide (i = 0) := by
  rw [ptePresent, Nat.testBit_two_pow, decide_eq_decide, eq_comm]
theorem testBit_pteWritable (i : Nat) : pteWritable.testBit i = decide (i = 1) := by
  rw [pteWritable, Nat.testBit_two_pow, decide_eq_decide, eq_comm]
theorem testBit_pteUser (i : Nat) : pteUser.testBit i = decide (i = 2) := by
  rw [pteUser, Nat.testBit_two_pow, decide_eq_decide, eq_comm]
theorem testBit_pteNoExecute (i : Nat) : pteNoExecute.testBit i = decide (i = 63) := by
  rw [pteNoExecute, Nat.testBit_two_pow, decide_eq_decide, eq_comm]

theorem testBit_pteFrameMask (i : Nat) :
    pteFrameMask.testBit i = (decide (12 ≤ i) && decide (i < 52)) := by
  have hMask : pteFrameMask = (2 ^ 40 - 1) * 2 ^ 12 := by decide
  rw [hMask, Nat.testBit_mul_two_pow, Nat.testBit_two_pow_sub_one]
  by_cases h : 12 ≤ i
  · have hIff : i - 12 < 40 ↔ i < 52 := by omega
    simp [h, hIff]
  · simp [h]

/-- A page-aligned physical address below `2 ^ 52`. -/
def IsFrame (phys : Nat) : Prop := phys % pmmPageSize = 0 ∧ phys < 2 ^ 52

theorem IsFrame.testBit (h : IsFrame phys) (hBit : phys.testBit i = true) : 12 ≤ i ∧ i < 52 := by
  constructor
  · by_contra hLow
    have hDvd : phys = phys / 2 ^ 12 * 2 ^ 12 := by
      have hMod := h.1
      simp only [pmmPageSize] at hMod
      omega
    rw [hDvd, Nat.testBit_mul_two_pow] at hBit
    simp [hLow] at hBit
  · by_contra hHigh
    have hZero : phys.testBit i = false :=
      Nat.testBit_lt_two_pow (lt_of_lt_of_le h.2 (Nat.pow_le_pow_right (by decide) (by omega)))
    simp [hBit] at hZero

theorem IsFrame.testBit_eq_false (h : IsFrame phys) (hi : i < 12 ∨ 52 ≤ i) :
    phys.testBit i = false := by
  cases hBit : phys.testBit i with
  | false => rfl
  | true =>
    have hRange := h.testBit hBit
    omega

/-- The frame part of any entry is an aligned address. -/
theorem isFrame_and_mask (e : Nat) : IsFrame (e &&& pteFrameMask) := by
  constructor
  · have hMod : (e &&& pteFrameMask) % 2 ^ 12 = 0 := by
      apply Nat.eq_of_testBit_eq
      intro i
      rw [Nat.testBit_mod_two_pow, Nat.testBit_and, testBit_pteFrameMask, Nat.zero_testBit]
      by_cases h : i < 12
      · have hNot : ¬ 12 ≤ i := by omega
        simp [hNot]
      · simp [h]
    exact hMod
  · apply Nat.lt_of_testBit 52
    · rw [Nat.testBit_and, testBit_pteFrameMask]
      simp
    · decide
    · intro j hj
      rw [Nat.testBit_and, testBit_pteFrameMask, Nat.testBit_two_pow]
      have hNot : ¬ j < 52 := by omega
      have hNe : ¬ 52 = j := by omega
      simp [hNot, hNe]

/-- Adding bits outside the frame field does not move the frame. -/
theorem or_and_mask {flags : Nat} (hFlags : ∀ i, flags.testBit i = true → i < 12 ∨ 52 ≤ i) :
    (e ||| flags) &&& pteFrameMask = e &&& pteFrameMask := by
  apply Nat.eq_of_testBit_eq
  intro i
  rw [Nat.testBit_and, Nat.testBit_and, Nat.testBit_or, testBit_pteFrameMask]
  cases hBit : flags.testBit i with
  | false => simp
  | true =>
    have hRange := hFlags i hBit
    by_cases hLow : 12 ≤ i
    · have hHigh : ¬ i < 52 := by omega
      simp [hHigh]
    · simp [hLow]

theorem IsFrame.and_mask (h : IsFrame phys) : phys &&& pteFrameMask = phys := by
  apply Nat.eq_of_testBit_eq
  intro i
  rw [Nat.testBit_and, testBit_pteFrameMask]
  cases hBit : phys.testBit i with
  | false => rfl
  | true =>
    have hRange := h.testBit hBit
    simp [hRange]

theorem testBit_flagsToPte (flags i : Nat) :
    (flagsToPte flags).testBit i =
      ((decide (i = 1) && flags.testBit 0) || (decide (i = 2) && flags.testBit 1) ||
        (decide (i = 63) && flags.testBit 2)) := by
  unfold flagsToPte
  simp only [hasFlag_flagWritable, hasFlag_flagUser, hasFlag_flagNoExecute]
  cases flags.testBit 0 <;> cases flags.testBit 1 <;> cases flags.testBit 2 <;>
    simp [Nat.testBit_or, testBit_pteWritable, testBit_pteUser, testBit_pteNoExecute]

theorem or_pteWritable (h : e.testBit 1 = true) : e ||| pteWritable = e := by
  apply Nat.eq_of_testBit_eq
  intro i
  rw [Nat.testBit_or, testBit_pteWritable]
  by_cases hi : i = 1
  · subst hi
    simp [h]
  · simp [hi]

theorem or_pteUser (h : e.testBit 2 = true) : e ||| pteUser = e := by
  apply Nat.eq_of_testBit_eq
  intro i
  rw [Nat.testBit_or, testBit_pteUser]
  by_cases hi : i = 2
  · subst hi
    simp [h]
  · simp [hi]

/-- The child named by an entry. -/
def pteNext (e : Nat) : Option Nat :=
  if hasFlag e ptePresent then some (e &&& pteFrameMask) else none

theorem pteNext_of_present (h : e.testBit 0 = true) : pteNext e = some (e &&& pteFrameMask) := by
  simp [pteNext, h]

theorem pteNext_of_absent (h : e.testBit 0 = false) : pteNext e = none := by
  simp [pteNext, h]

theorem present_of_pteNext {child : Nat} (h : pteNext e = some child) :
    e.testBit 0 = true ∧ e &&& pteFrameMask = child := by
  unfold pteNext at h
  rw [hasFlag_present] at h
  split at h
  · exact ⟨by assumption, Option.some.inj h⟩
  · cases h

/-- The permission bits that `get_next_level` adds to an intermediate entry. -/
def innerFlags (pteFlags : Nat) : Nat :=
  (if pteFlags.testBit 1 then pteWritable else 0) ||| (if pteFlags.testBit 2 then pteUser else 0)

theorem testBit_innerFlags (pteFlags i : Nat) :
    (innerFlags pteFlags).testBit i =
      ((decide (i = 1) && pteFlags.testBit 1) || (decide (i = 2) && pteFlags.testBit 2)) := by
  unfold innerFlags
  cases pteFlags.testBit 1 <;> cases pteFlags.testBit 2 <;>
    simp [Nat.testBit_or, testBit_pteWritable, testBit_pteUser]

theorem innerFlags_low {pteFlags : Nat} (h : (innerFlags pteFlags).testBit i = true) :
    i < 12 ∨ 52 ≤ i := by
  rw [testBit_innerFlags] at h
  simp only [Bool.or_eq_true, Bool.and_eq_true, decide_eq_true_eq] at h
  omega

@[simp] theorem innerFlags_zero : innerFlags 0 = 0 := by decide

/-- An intermediate entry after its permissions were raised. -/
theorem raised_entry (e pteFlags : Nat) :
    pteNext (e ||| innerFlags pteFlags) = pteNext e ∧
    (∀ i, i ≠ 1 → i ≠ 2 → (e ||| innerFlags pteFlags).testBit i = e.testBit i) ∧
    (e ||| innerFlags pteFlags).testBit 1 = (e.testBit 1 || pteFlags.testBit 1) ∧
    (e ||| innerFlags pteFlags).testBit 2 = (e.testBit 2 || pteFlags.testBit 2) := by
  refine ⟨?_, ?_, ?_, ?_⟩
  · unfold pteNext
    rw [hasFlag_present, hasFlag_present, or_and_mask (fun _ => innerFlags_low), Nat.testBit_or,
      testBit_innerFlags]
    simp
  · intro i h1 h2
    rw [Nat.testBit_or, testBit_innerFlags]
    simp [h1, h2]
  · rw [Nat.testBit_or, testBit_innerFlags]
    simp
  · rw [Nat.testBit_or, testBit_innerFlags]
    simp

/-- A new intermediate entry for the frame `phys`. -/
def tableEntry (phys pteFlags : Nat) : Nat := phys ||| (ptePresent ||| innerFlags pteFlags)

theorem tableEntry_bits (h : IsFrame phys) (pteFlags : Nat) :
    pteNext (tableEntry phys pteFlags) = some phys ∧
    (tableEntry phys pteFlags).testBit 7 = false ∧
    (tableEntry phys pteFlags).testBit 63 = false ∧
    (tableEntry phys pteFlags).testBit 1 = pteFlags.testBit 1 ∧
    (tableEntry phys pteFlags).testBit 2 = pteFlags.testBit 2 := by
  have hBit : ∀ i, (tableEntry phys pteFlags).testBit i =
      (phys.testBit i || (decide (i = 0) || (innerFlags pteFlags).testBit i)) := by
    intro i
    rw [tableEntry, Nat.testBit_or, Nat.testBit_or, testBit_ptePresent]
  have hMask : tableEntry phys pteFlags &&& pteFrameMask = phys := by
    rw [tableEntry, or_and_mask, h.and_mask]
    intro i hi
    rw [Nat.testBit_or, testBit_ptePresent, Bool.or_eq_true, decide_eq_true_eq] at hi
    rcases hi with hi | hi
    · omega
    · exact innerFlags_low hi
  refine ⟨?_, ?_, ?_, ?_, ?_⟩
  · rw [pteNext_of_present (by rw [hBit]; simp), hMask]
  all_goals
    rw [hBit, h.testBit_eq_false (by omega), testBit_innerFlags]
    simp

/-- The entry that `vmm_map_page` stores for a leaf. -/
def leafEntry (phys flags : Nat) : Nat := phys ||| flagsToPte flags ||| ptePresent

theorem leafEntry_bits (h : IsFrame phys) (flags : Nat) :
    leafEntry phys flags &&& pteFrameMask = phys ∧
    (leafEntry phys flags).testBit 0 = true ∧
    (leafEntry phys flags).testBit 1 = flags.testBit 0 ∧
    (leafEntry phys flags).testBit 2 = flags.testBit 1 ∧
    (leafEntry phys flags).testBit 63 = flags.testBit 2 := by
  have hBit : ∀ i, (leafEntry phys flags).testBit i =
      ((phys.testBit i || (flagsToPte flags).testBit i) || decide (i = 0)) := by
    intro i
    rw [leafEntry, Nat.testBit_or, Nat.testBit_or, testBit_ptePresent]
  refine ⟨?_, ?_, ?_, ?_, ?_⟩
  · rw [leafEntry, Nat.or_assoc, or_and_mask, h.and_mask]
    intro i hi
    rw [Nat.testBit_or, testBit_ptePresent, testBit_flagsToPte] at hi
    simp only [Bool.or_eq_true, Bool.and_eq_true, decide_eq_true_eq] at hi
    omega
  · rw [hBit]
    simp
  all_goals
    rw [hBit, h.testBit_eq_false (by omega), testBit_flagsToPte]
    simp

end Kryos.Memory
