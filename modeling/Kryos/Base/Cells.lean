import Mathlib.Data.List.Basic

/-! Arrays that a loop writes cell by cell. -/
namespace Kryos.Cells

open Function

variable {α : Type*}

/-- `n` cells from `start` on are set. -/
def fill (a : Nat → α) (start n : Nat) (x : α) : Nat → α :=
  (List.range n).foldl (fun a i => update a (start + i) x) a

/-- The first `n` cells are overwritten, in order, by those at distance `d`. -/
def shift (a : Nat → α) (d n : Nat) : Nat → α :=
  (List.range n).foldl (fun a i => update a i (a (i + d))) a

/-- The first `n` cells are overwritten by those of another array. -/
def copy (a b : Nat → α) (n : Nat) : Nat → α :=
  (List.range n).foldl (fun a i => update a i (b i)) a

theorem copy_apply (a b : Nat → α) (n i : Nat) : copy a b n i = if i < n then b i else a i := by
  induction n with
  | zero => rfl
  | succ n ih =>
    have hStep : copy a b (n + 1) = update (copy a b n) n (b n) := by
      simp only [copy, List.range_succ, List.foldl_append, List.foldl_cons, List.foldl_nil]
    rw [hStep]
    rcases eq_or_ne i n with rfl | hi
    · rw [update_self, if_pos (Nat.lt_succ_self i)]
    · have hLt : i < n ↔ i < n + 1 := by omega
      rw [update_of_ne hi, ih]
      simp only [hLt]

end Kryos.Cells
