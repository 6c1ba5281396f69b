import Mathlib.Data.List.TakeWhile
import Mathlib.Data.List.Nodup

/-! Rings given by the list of their elements from some start on: the order in which a
walk from one element meets the others. -/
namespace Kryos.Rotation

variable {α : Type*} {ring : List α} {c x z : α}

/-- The elements of a ring from the one behind `c` on, with `c` itself last. -/
def behind [DecidableEq α] (ring : List α) (c : α) : List α :=
  (ring.dropWhile (· != c)).tail ++ (ring.takeWhile (· != c) ++ [c])

theorem exists_split (hc : c ∈ ring) : ∃ first rest, ring = first ++ c :: rest ∧ c ∉ first := by
  induction ring with
  | nil => cases hc
  | cons a ring ih =>
    rcases Classical.em (c = a) with rfl | hNe
    · exact ⟨[], ring, rfl, List.not_mem_nil⟩
    · obtain ⟨first, rest, hSplit, hNot⟩ := ih (List.mem_of_ne_of_mem hNe hc)
      exact ⟨a :: first, rest, by rw [hSplit, List.cons_append], by simp [hNe, hNot]⟩

variable [DecidableEq α]

theorem behind_eq {first rest : List α} (hNot : c ∉ first) :
    behind (first ++ c :: rest) c = rest ++ (first ++ [c]) := by
  have hAll : ∀ a ∈ first, (a != c) = true := fun a ha => by
    simpa using fun hEq : a = c => hNot (hEq ▸ ha)
  rw [behind, List.dropWhile_append_of_pos hAll, List.takeWhile_append_of_pos hAll,
    List.dropWhile_cons_of_neg (by simp), List.takeWhile_cons_of_neg (by simp), List.tail_cons,
    List.append_nil]

theorem mem_behind (hc : c ∈ ring) : x ∈ behind ring c ↔ x ∈ ring := by
  obtain ⟨first, rest, rfl, hNot⟩ := exists_split hc
  rw [behind_eq hNot]
  simp only [List.mem_append, List.mem_cons, List.not_mem_nil, or_false]
  tauto

/-- The walk in a part of the ring is that part of the walk. -/
theorem behind_filter (hc : c ∈ ring) {p : α → Bool} (hp : p c = true) :
    behind (ring.filter p) c = (behind ring c).filter p := by
  obtain ⟨first, rest, rfl, hNot⟩ := exists_split hc
  have hNot' : c ∉ first.filter p := fun hMem => hNot (List.mem_of_mem_filter hMem)
  rw [List.filter_append, List.filter_cons_of_pos hp, behind_eq hNot', behind_eq hNot]
  simp [hp]

theorem nodup_behind (hNodup : ring.Nodup) (hc : c ∈ ring) : (behind ring c).Nodup := by
  obtain ⟨first, rest, rfl, hNot⟩ := exists_split hc
  rw [behind_eq hNot]
  have hPerm : (rest ++ (first ++ [c])).Perm (first ++ c :: rest) := by
    rw [← List.append_assoc]
    exact (List.perm_append_singleton ..).trans
      ((List.perm_append_comm.cons c).trans List.perm_middle.symm)
  exact hPerm.nodup_iff.mpr hNodup

/-- Where a ring is cut does not matter for the walk from one of its elements. -/
theorem behind_rotate {first rest : List α} (hNodup : (first ++ rest).Nodup) (hx : x ∈ first) :
    behind (first ++ rest) x = behind (rest ++ first) x := by
  obtain ⟨before, after, rfl, hNot⟩ := exists_split hx
  have hRest : x ∉ rest ++ before := by
    intro hMem
    rcases List.mem_append.mp hMem with hMem | hMem
    · exact (List.nodup_append.mp hNodup).2.2 x (by simp) x hMem rfl
    · exact hNot hMem
  rw [List.append_assoc, List.cons_append, behind_eq hNot,
    ← List.append_assoc rest, behind_eq hRest]
  simp

/-- Where the walk continues from one of the elements it meets. -/
theorem behind_of_append (hNodup : ring.Nodup) (hc : c ∈ ring) {passed rest : List α}
    (h : behind ring c = passed ++ z :: rest) : behind ring z = rest ++ (passed ++ [z]) := by
  have hOrder := nodup_behind hNodup hc
  have hSame : behind ring z = behind (behind ring c) z := by
    have hz : z ∈ ring := (mem_behind hc).mp (by rw [h]; simp)
    obtain ⟨first, last, rfl, hNot⟩ := exists_split hc
    rw [behind_eq hNot] at hOrder ⊢
    have hCut : first ++ c :: last = (first ++ [c]) ++ last := by simp
    rw [hCut] at hNodup hz ⊢
    rcases List.mem_append.mp hz with hz | hz
    · exact behind_rotate hNodup hz
    · exact (behind_rotate hOrder hz).symm
  rw [h] at hSame hOrder
  have hPassed : z ∉ passed := fun hMem =>
    (List.nodup_append.mp hOrder).2.2 z hMem z List.mem_cons_self rfl
  rw [hSame, behind_eq hPassed]

theorem takeWhile_filter {l : List α} {p : α → Bool} (hx : p x = true) :
    (l.filter p).takeWhile (· != x) = (l.takeWhile (· != x)).filter p := by
  induction l with
  | nil => rfl
  | cons a l ih =>
    rcases eq_or_ne a x with rfl | hNe
    · simp [hx]
    · by_cases hp : p a = true
      · simp [hp, hNe, ih]
      · simp [hp, hNe, ih]

end Kryos.Rotation
