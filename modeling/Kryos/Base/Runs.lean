import Mathlib.Data.List.Basic

/-! The maximal runs of a list that are free of separators. -/
namespace Kryos.Runs

variable {α : Type*} {sep : α → Bool} {l blanks word rest : List α}

/-- The maximal nonempty runs without a separator, in order. -/
def runs (sep : α → Bool) (l : List α) : List (List α) :=
  (l.splitOnP sep).filter (fun run => !run.isEmpty)

theorem runs_cons_sep {a : α} (ha : sep a = true) : runs sep (a :: l) = runs sep l := by
  rw [runs, List.splitOnP_cons_eq_if_modifyHead, if_pos ha]
  rfl

theorem runs_append_seps (h : ∀ a ∈ blanks, sep a = true) :
    runs sep (blanks ++ l) = runs sep l := by
  induction blanks with
  | nil => rfl
  | cons a blanks ih =>
    rw [List.cons_append, runs_cons_sep (h a List.mem_cons_self)]
    exact ih fun b hb => h b (List.mem_cons_of_mem a hb)

theorem runs_ne_nil {a : α} (hMem : a ∈ l) (ha : sep a = false) : runs sep l ≠ [] := by
  induction l with
  | nil => cases hMem
  | cons b l ih =>
    cases hb : sep b with
    | true =>
      rw [runs_cons_sep hb]
      refine ih ((List.mem_cons.mp hMem).resolve_left fun hEq => ?_)
      rw [hEq, hb] at ha
      cases ha
    | false =>
      rw [runs, List.splitOnP_cons_eq_if_modifyHead, hb, if_neg Bool.false_ne_true]
      cases hSplit : l.splitOnP sep with
      | nil => exact absurd hSplit (List.splitOnP_ne_nil _ _)
      | cons run others =>
        exact List.cons_ne_nil _ _

/-- A run that ends the list, or that a separator follows, comes first. -/
theorem runs_append_word (hSome : word ≠ []) (hWord : ∀ a ∈ word, sep a = false)
    (hRest : ∀ a ∈ rest.head?, sep a = true) :
    runs sep (word ++ rest) = word :: runs sep rest := by
  have hKept (l : List (List α)) : (word :: l).filter (fun run => !run.isEmpty) =
      word :: l.filter (fun run => !run.isEmpty) := List.filter_cons_of_pos (by simpa using hSome)
  cases rest with
  | nil =>
    rw [List.append_nil, runs, List.splitOnP_eq_singleton hWord, hKept]
    rfl
  | cons a rest =>
    have ha : sep a = true := hRest a rfl
    rw [runs_cons_sep ha, runs, List.splitOnP_append_cons_of_forall_mem hWord a ha,
      hKept]
    rfl

end Kryos.Runs
