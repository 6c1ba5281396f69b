import Mathlib.Data.List.Basic
import Mathlib.Data.List.TakeWhile

/-! Lists split at runs of a separator. -/
namespace Kryos.Segments

variable {α : Type*} [DecidableEq α] {sep : α} {l front rest : List α}

/-- The pieces between the runs of separators. -/
def segments (sep : α) (l : List α) : List (List α) :=
  (l.splitOn sep).filter fun piece => !piece.isEmpty

@[simp]
theorem segments_nil : segments sep [] = [] := rfl

theorem segments_append_cons :
    segments sep (front ++ sep :: rest) = segments sep front ++ segments sep rest := by
  have hSplit := List.splitOnP_append_cons (p := (· == sep)) front rest (beq_self_eq_true sep)
  rw [segments, List.splitOn, hSplit, List.filter_append]
  rfl

@[simp]
theorem segments_cons_self : segments sep (sep :: l) = segments sep l :=
  @segments_append_cons α _ sep [] l

theorem segments_of_notMem (hNot : sep ∉ l) (hNonempty : l ≠ []) : segments sep l = [l] := by
  have hSplit : l.splitOn sep = [l] :=
    List.splitOnP_eq_singleton fun x hx =>
      beq_eq_false_iff_ne.mpr fun hEq : x = sep => hNot (hEq ▸ hx)
  rw [segments, hSplit]
  simpa using hNonempty

/-- Separators in front do not count. -/
theorem segments_dropWhile : segments sep (l.dropWhile (· == sep)) = segments sep l := by
  induction l with
  | nil => rfl
  | cons x l ih =>
    by_cases hx : x = sep
    · subst hx
      rw [List.dropWhile_cons_of_pos (by simp), ih, segments_cons_self]
    · rw [List.dropWhile_cons_of_neg (by simpa using hx)]

/-- The first piece and what stands behind it. -/
theorem segments_split : segments sep l =
    segments sep (l.takeWhile (· != sep)) ++ segments sep (l.dropWhile (· != sep)) := by
  have hAll := List.takeWhile_append_dropWhile (p := (· != sep)) (l := l)
  cases hRest : l.dropWhile (· != sep) with
  | nil =>
    rw [hRest, List.append_nil] at hAll
    rw [hAll, segments_nil, List.append_nil]
  | cons x rest =>
    -- the front ends at a separator
    have hx : x = sep := by
      have hHead := List.head_dropWhile_not (p := (· != sep)) (l := l)
      simpa [hRest] using hHead
    rw [hRest, hx] at hAll
    conv => lhs; rw [← hAll]
    rw [hx, segments_append_cons, segments_cons_self]

theorem segments_replicate (n : Nat) : segments sep (List.replicate n sep) = [] := by
  induction n with
  | zero => rfl
  | succ n ih => rw [List.replicate_succ, segments_cons_self, ih]

/-- Separators at the end do not count either. -/
theorem segments_append_replicate (n : Nat) :
    segments sep (l ++ List.replicate n sep) = segments sep l := by
  cases n with
  | zero => rw [List.replicate_zero, List.append_nil]
  | succ n => rw [List.replicate_succ, segments_append_cons, segments_replicate, List.append_nil]

omit [DecidableEq α] in
theorem mem_intercalate {pieces : List (List α)} {piece : List α} (hPiece : piece ∈ pieces) {x : α}
    (hx : x ∈ piece) : x ∈ [sep].intercalate pieces := by
  induction pieces with
  | nil => cases hPiece
  | cons first pieces ih =>
    cases pieces with
    | nil => simpa [List.intercalate, List.mem_singleton.mp hPiece] using hx
    | cons second pieces =>
      have hCons : [sep].intercalate (first :: second :: pieces) =
          first ++ sep :: [sep].intercalate (second :: pieces) := by simp [List.intercalate]
      rw [hCons, List.mem_append, List.mem_cons]
      rcases List.mem_cons.mp hPiece with rfl | hRest
      · exact .inl hx
      · exact .inr (.inr (ih hRest))

theorem mem_of_mem_segments {piece : List α} (hPiece : piece ∈ segments sep l)
    {x : α} (hx : x ∈ piece) : x ∈ l := by
  have hMem := @mem_intercalate α sep _ piece (List.mem_of_mem_filter hPiece) x hx
  rwa [List.intercalate_splitOn] at hMem

end Kryos.Segments
