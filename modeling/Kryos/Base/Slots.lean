import Mathlib.Order.Interval.Finset.Nat

/-! Slots that hold numbered units of a range, next to a record of the units in use.
A slot that holds `0` is empty. -/
namespace Kryos.Slots

open Function

variable {ι : Type*} {lo hi b : Nat} {used used' : Nat → Bool} {slot slot' : ι → Nat}

/-- Held units are in the range and in use, and no unit is held twice. -/
structure Exclusive (lo hi : Nat) (used : Nat → Bool) (slot : ι → Nat) : Prop where
  range : ∀ x, slot x ≠ 0 → lo ≤ slot x ∧ slot x < hi
  used : ∀ x, slot x ≠ 0 → used (slot x) = true
  unique : ∀ x y, slot x ≠ 0 → slot x = slot y → x = y

/-- Every unit in use is held by a slot. -/
def Covered (lo hi : Nat) (used : Nat → Bool) (slot : ι → Nat) : Prop :=
  ∀ b, lo ≤ b → b < hi → used b = true → ∃ x, slot x = b

theorem Exclusive.ne_of_free (h : Exclusive lo hi used slot) (hZero : b ≠ 0)
    (hFree : used b = false) (x : ι) : slot x ≠ b := by
  intro hEq
  have hUsed := h.used x (hEq ▸ hZero)
  rw [hEq, hFree] at hUsed
  exact Bool.false_ne_true hUsed

/-- The units in use are those held. -/
theorem Exclusive.used_iff (h : Exclusive lo hi used slot) (hCovered : Covered lo hi used slot)
    (hZero : 0 < lo) (hLo : lo ≤ b) (hHi : b < hi) : used b = true ↔ ∃ x, slot x = b := by
  constructor
  · exact hCovered b hLo hHi
  · rintro ⟨x, rfl⟩
    exact h.used x (by omega)

/-- An empty slot may take a free unit. -/
theorem Exclusive.assign [DecidableEq ι] (h : Exclusive lo hi used slot) {x : ι} (hLo : 0 < lo)
    (hRange : lo ≤ b ∧ b < hi) (hFree : used b = false)
    (hUsed : ∀ c, used' c = (decide (c = b) || used c)) :
    Exclusive lo hi used' (update slot x b) := by
  have hOther := h.ne_of_free (by omega : b ≠ 0) hFree
  constructor
  · intro y hy
    by_cases hxy : y = x
    · subst hxy
      simpa using hRange
    · rw [update_of_ne hxy] at hy ⊢
      exact h.range y hy
  · intro y hy
    by_cases hxy : y = x
    · subst hxy
      simp [hUsed]
    · rw [update_of_ne hxy] at hy ⊢
      simp [hUsed, h.used y hy]
  · intro y z hy hyz
    by_cases hxy : y = x
    · by_cases hxz : z = x
      · rw [hxy, hxz]
      · subst hxy
        rw [update_self, update_of_ne hxz] at hyz
        exact absurd hyz.symm (hOther z)
    · by_cases hxz : z = x
      · subst hxz
        rw [update_of_ne hxy, update_self] at hyz
        exact absurd hyz (hOther y)
      · rw [update_of_ne hxy] at hy hyz
        rw [update_of_ne hxz] at hyz
        exact h.unique y z hy hyz

theorem Covered.assign [DecidableEq ι] (h : Covered lo hi used slot) {x : ι} (hx : slot x = 0)
    (hLo : 0 < lo) (hUsed : ∀ c, used' c = (decide (c = b) || used c)) :
    Covered lo hi used' (update slot x b) := by
  intro c hcLo hcHi hc
  by_cases hcb : c = b
  · exact ⟨x, by simp [hcb]⟩
  · obtain ⟨y, hy⟩ := h c hcLo hcHi (by simpa [hUsed, hcb] using hc)
    have hyx : y ≠ x := by
      rintro rfl
      omega
    exact ⟨y, by rw [update_of_ne hyx, hy]⟩

/-- Emptying slots keeps a distribution exclusive as long as the units that stay held
stay in use. -/
theorem Exclusive.shrink (h : Exclusive lo hi used slot)
    (hSlot : ∀ x, slot' x ≠ 0 → slot' x = slot x)
    (hUsed : ∀ x, slot' x ≠ 0 → used' (slot' x) = true) : Exclusive lo hi used' slot' := by
  constructor
  · intro x hx
    have hSame := hSlot x hx
    rw [hSame] at hx ⊢
    exact h.range x hx
  · exact hUsed
  · intro x y hx hxy
    have hx' := hSlot x hx
    have hy' := hSlot y (hxy ▸ hx)
    rw [hx', hy'] at hxy
    rw [hx'] at hx
    exact h.unique x y hx hxy

theorem Covered.shrink (h : Covered lo hi used slot) (hLo : 0 < lo)
    (hUsed : ∀ c, lo ≤ c → used' c = true → used c = true)
    (hSlot : ∀ x, slot x ≠ 0 → used' (slot x) = true → slot' x = slot x) :
    Covered lo hi used' slot' := by
  intro c hcLo hcHi hc
  obtain ⟨x, hx⟩ := h c hcLo hcHi (hUsed c hcLo hc)
  refine ⟨x, ?_⟩
  rw [hSlot x (by omega) (hx ▸ hc), hx]

/-- When everything in use is held, the free units are at least those that the slots
cannot take up. -/
theorem Covered.le_card_free (h : Covered lo hi used slot) (hLo : 0 < lo) {slots : Finset ι}
    (hSlots : ∀ x, slot x ≠ 0 → x ∈ slots) :
    hi - lo ≤ slots.card + ((Finset.Ico lo hi).filter (fun b => used b = false)).card := by
  have hCover : Finset.Ico lo hi ⊆
      slots.image slot ∪ (Finset.Ico lo hi).filter (fun b => used b = false) := by
    intro b hb
    have hRange := Finset.mem_Ico.mp hb
    cases hUsed : used b with
    | false => exact Finset.mem_union_right _ (Finset.mem_filter.mpr ⟨hb, hUsed⟩)
    | true =>
      obtain ⟨x, hx⟩ := h b hRange.1 hRange.2 hUsed
      have hMem := hSlots x (by omega)
      exact Finset.mem_union_left _ (Finset.mem_image.mpr ⟨x, hMem, hx⟩)
  calc
    hi - lo = (Finset.Ico lo hi).card := (Nat.card_Ico lo hi).symm
    _ ≤ (slots.image slot ∪ (Finset.Ico lo hi).filter (fun b => used b = false)).card :=
      Finset.card_le_card hCover
    _ ≤ (slots.image slot).card + ((Finset.Ico lo hi).filter (fun b => used b = false)).card :=
      Finset.card_union_le _ _
    _ ≤ slots.card + ((Finset.Ico lo hi).filter (fun b => used b = false)).card :=
      Nat.add_le_add_right Finset.card_image_le _

end Kryos.Slots
