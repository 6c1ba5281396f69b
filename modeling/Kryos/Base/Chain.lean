import Mathlib.Data.List.Nodup

/-! Lists that are linked through a `next` pointer in each element and end in a null
pointer. -/
namespace Kryos.Chain

open Function

variable {α : Type*} {next next' : α → Option α} {p : Option α} {a b : α} {l l' : List α}

/-- From `p`, the `next` pointers lead through the elements of the list. -/
def Linked (next : α → Option α) : Option α → List α → Prop
  | p, [] => p = none
  | p, a :: l => p = some a ∧ Linked next (next a) l

theorem linked_none (h : Linked next none l) : l = [] := by
  cases l with
  | nil => rfl
  | cons a l => cases h.1

theorem linked_some (h : Linked next (some a) l) :
    ∃ rest, l = a :: rest ∧ Linked next (next a) rest := by
  cases l with
  | nil => cases h
  | cons b rest =>
    obtain ⟨hEq, hRest⟩ := h
    cases hEq
    exact ⟨rest, rfl, hRest⟩

theorem Linked.unique (h : Linked next p l) (h' : Linked next p l') : l = l' := by
  induction l generalizing p l' with
  | nil => rw [linked_none (show Linked next none l' from (show p = none from h) ▸ h')]
  | cons a l ih =>
    obtain ⟨rfl, hRest⟩ := h
    obtain ⟨rest, rfl, hRest'⟩ := linked_some h'
    rw [ih hRest hRest']

/-- Only the pointers of the elements matter. -/
theorem Linked.congr (h : Linked next p l) (hSame : ∀ a ∈ l, next' a = next a) :
    Linked next' p l := by
  induction l generalizing p with
  | nil => exact h
  | cons a l ih =>
    obtain ⟨hp, hRest⟩ := h
    refine ⟨hp, ?_⟩
    rw [hSame a List.mem_cons_self]
    exact ih hRest fun b hb => hSame b (List.mem_cons_of_mem _ hb)

theorem Linked.suffix {before : List α} (h : Linked next p (before ++ a :: l)) :
    Linked next (next a) l := by
  induction before generalizing p with
  | nil => exact h.2
  | cons b before ih => exact ih h.2

theorem Linked.head?_eq (h : Linked next p l) : p = l.head? := by
  cases l with
  | nil => exact h
  | cons a l => exact h.1

/-- The pointer of an element leads to the one behind it. -/
theorem Linked.next_eq {before : List α} (h : Linked next p (before ++ a :: l)) :
    next a = l.head? :=
  h.suffix.head?_eq

/-- A list that ends meets no element twice. -/
theorem Linked.nodup (h : Linked next p l) : l.Nodup := by
  induction l generalizing p with
  | nil => exact List.nodup_nil
  | cons a l ih =>
    refine List.nodup_cons.mpr ⟨fun hMem => ?_, ih h.2⟩
    -- behind a second occurrence the list would go on as behind the first one
    obtain ⟨before, rest, hSplit⟩ := List.append_of_mem hMem
    have hTail : Linked next (next a) (before ++ a :: rest) := hSplit ▸ h.2
    have hEq := congrArg List.length (hTail.unique hTail.suffix)
    rw [List.length_append, List.length_cons] at hEq
    omega

variable [DecidableEq α]

theorem Linked.push (h : Linked next p l) (hNew : a ∉ l) :
    Linked (update next a p) (some a) (a :: l) := by
  refine ⟨rfl, ?_⟩
  rw [update_self]
  exact h.congr fun b hb => update_of_ne (fun hEq : b = a => hNew (hEq ▸ hb)) ..

/-- The element behind `b` taken out by the pointer of `b`. -/
theorem Linked.unlink {before rest : List α} (h : Linked next p (before ++ b :: a :: rest)) :
    Linked (update next b (next a)) p (before ++ b :: rest) := by
  have hNodup := h.nodup
  induction before generalizing p with
  | nil =>
    obtain ⟨hp, _, hRest⟩ := h
    refine ⟨hp, ?_⟩
    rw [update_self]
    refine hRest.congr fun c hc => update_of_ne (fun hEq => ?_) ..
    exact (List.nodup_cons.mp hNodup).1 (List.mem_cons_of_mem _ (hEq ▸ hc))
  | cons c before ih =>
    obtain ⟨hp, hRest⟩ := h
    have hNe : c ≠ b := fun hEq => (List.nodup_cons.mp hNodup).1 (by simp [hEq])
    refine ⟨hp, ?_⟩
    rw [update_of_ne hNe]
    exact ih hRest (List.nodup_cons.mp hNodup).2

end Kryos.Chain
