import Mathlib.Algebra.BigOperators.Group.List.Basic
import Mathlib.Algebra.Order.Ring.Nat

/-! Items of varying extent laid out one after the other, without gaps. -/
namespace Kryos.Layout

variable {β : Type*} (extent : β → Nat)

/-- The extent of all items together. -/
def total (items : List β) : Nat := (items.map extent).sum

/-- Each item with the address where it begins. -/
def placed : Nat → List β → List (Nat × β)
  | _, [] => []
  | start, item :: rest => (start, item) :: placed (start + extent item) rest

@[simp] theorem total_nil : total extent [] = 0 := rfl

@[simp] theorem total_cons (item : β) (rest : List β) :
    total extent (item :: rest) = extent item + total extent rest := by
  simp [total]

@[simp] theorem total_append (first second : List β) :
    total extent (first ++ second) = total extent first + total extent second := by
  simp [total]

@[simp] theorem placed_nil (start : Nat) : placed extent start [] = [] := rfl

@[simp] theorem placed_cons (start : Nat) (item : β) (rest : List β) :
    placed extent start (item :: rest) =
      (start, item) :: placed extent (start + extent item) rest :=
  rfl

theorem placed_append (start : Nat) (first second : List β) :
    placed extent start (first ++ second) =
      placed extent start first ++ placed extent (start + total extent first) second := by
  induction first generalizing start with
  | nil => simp
  | cons item rest ih => simp [ih, Nat.add_assoc]

theorem placed_split {start address : Nat} {item : β} {items : List β}
    (h : (address, item) ∈ placed extent start items) :
    ∃ before after, items = before ++ item :: after ∧ address = start + total extent before := by
  induction items generalizing start with
  | nil => cases h
  | cons head rest ih =>
    rcases List.mem_cons.mp h with hHead | hRest
    · cases hHead
      exact ⟨[], rest, rfl, by simp⟩
    · obtain ⟨before, after, rfl, hAddress⟩ := ih hRest
      exact ⟨head :: before, after, rfl, by simp [hAddress, Nat.add_assoc]⟩

theorem placed_of_split (start : Nat) (before : List β) (item : β) (after : List β) :
    (start + total extent before, item) ∈ placed extent start (before ++ item :: after) := by
  simp [placed_append]

theorem placed_bounds {start address : Nat} {item : β} {items : List β}
    (h : (address, item) ∈ placed extent start items) :
    start ≤ address ∧ address + extent item ≤ start + total extent items := by
  obtain ⟨before, after, rfl, rfl⟩ := placed_split extent h
  simp only [total_append, total_cons]
  omega

/-- Two placed items are the same or lie apart. -/
theorem placed_apart {start x y : Nat} {item other : β} {items : List β}
    (hx : (x, item) ∈ placed extent start items) (hy : (y, other) ∈ placed extent start items) :
    (x = y ∧ item = other) ∨ x + extent item ≤ y ∨ y + extent other ≤ x := by
  obtain ⟨before, after, rfl, rfl⟩ := placed_split extent hx
  rw [placed_append, List.mem_append] at hy
  rcases hy with hBefore | hAfter
  · have hBounds := placed_bounds extent hBefore
    omega
  · rw [placed_cons, List.mem_cons] at hAfter
    rcases hAfter with hHere | hAfter
    · cases hHere
      exact Or.inl ⟨rfl, rfl⟩
    · have hBounds := placed_bounds extent hAfter
      omega

theorem exists_placed (start : Nat) {item : β} {items : List β} (h : item ∈ items) :
    ∃ address, (address, item) ∈ placed extent start items := by
  obtain ⟨before, after, rfl⟩ := List.append_of_mem h
  exact ⟨_, placed_of_split extent start before item after⟩

theorem mem_of_placed {start address : Nat} {item : β} {items : List β}
    (h : (address, item) ∈ placed extent start items) : item ∈ items := by
  obtain ⟨before, after, rfl, _⟩ := placed_split extent h
  simp

/-- There are no gaps. -/
theorem exists_placed_at {start b : Nat} {items : List β} (hLo : start ≤ b)
    (hHi : b < start + total extent items) :
    ∃ address item, (address, item) ∈ placed extent start items ∧ address ≤ b ∧
      b < address + extent item := by
  induction items generalizing start with
  | nil =>
    rw [total_nil] at hHi
    omega
  | cons head rest ih =>
    by_cases hHead : b < start + extent head
    · exact ⟨start, head, List.mem_cons_self, hLo, hHead⟩
    · rw [total_cons] at hHi
      obtain ⟨address, item, hMem, hRange⟩ := ih (Nat.le_of_not_lt hHead) (by omega)
      exact ⟨address, item, List.mem_cons_of_mem _ hMem, hRange⟩

end Kryos.Layout
