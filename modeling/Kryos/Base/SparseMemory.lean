import Mathlib.Data.List.GetD
import Mathlib.Data.Option.Basic
import Mathlib.Tactic.SplitIfs

/-! Sparse memory: a partial map from addresses to bytes, each with an attribute
that it keeps while its byte changes. -/
namespace Kryos.Sparse

/-- A byte and its attribute. -/
structure Cell (α : Type) where
  byte : UInt8
  attr : α
  deriving DecidableEq, Repr

abbrev Memory (α : Type) := Nat → Option (Cell α)

variable {α : Type} (m : Memory α)

/-- Zeroed cells with one attribute between two addresses. -/
def Memory.clear (low high : Nat) (attr : α) : Memory α := fun a =>
  if low ≤ a ∧ a < high then some ⟨0, attr⟩ else m a

/-- No cells between two addresses. -/
def Memory.drop (low high : Nat) : Memory α := fun a =>
  if low ≤ a ∧ a < high then none else m a

/-- Stores `count` bytes from `base` on. Where there is no cell, a byte is lost. -/
def Memory.put (base count : Nat) (bytes : Nat → UInt8) : Memory α := fun a =>
  if base ≤ a ∧ a < base + count then (m a).map fun c => { c with byte := bytes (a - base) }
  else m a

/-- Stores a list of bytes. -/
def Memory.putList (base : Nat) (bytes : List UInt8) : Memory α :=
  m.put base bytes.length (fun i => bytes.getD i 0)

/-- The bytes without their attributes. -/
def Memory.bytes : Nat → Option UInt8 := fun a => (m a).map Cell.byte

namespace Memory

variable {m}

theorem put_zero (base : Nat) (bytes : Nat → UInt8) : m.put base 0 bytes = m := by
  funext a
  exact if_neg (by omega)

theorem put_last (base count : Nat) (bytes : Nat → UInt8) :
    (m.put base count bytes).put (base + count) 1 (fun _ => bytes count) =
      m.put base (count + 1) bytes := by
  funext a
  unfold put
  split_ifs with hHere hBefore hWhole hWhole hBefore hWhole hWhole
  · omega
  · omega
  · rw [show a - base = count by omega]
  · omega
  · rfl
  · omega
  · omega
  · rfl

theorem put_first (base count : Nat) (bytes : Nat → UInt8) :
    (m.put base 1 (fun _ => bytes 0)).put (base + 1) count (fun i => bytes (i + 1)) =
      m.put base (count + 1) bytes := by
  funext a
  unfold put
  split_ifs with hRest hFirst hWhole hWhole hFirst hWhole hWhole
  · omega
  · omega
  · dsimp only
    rw [show a - (base + 1) + 1 = a - base by omega]
  · omega
  · rw [show a - base = 0 by omega]
  · omega
  · omega
  · rfl

theorem put_isSome (base count : Nat) (bytes : Nat → UInt8) (a : Nat) :
    (m.put base count bytes a).isSome = (m a).isSome := by
  unfold put
  split
  · exact Option.isSome_map
  · rfl

theorem putList_nil (base : Nat) : m.putList base [] = m := put_zero base _

theorem putList_cons (base : Nat) (byte : UInt8) (rest : List UInt8) :
    (m.put base 1 (fun _ => byte)).putList (base + 1) rest = m.putList base (byte :: rest) :=
  put_first base rest.length (fun i => (byte :: rest).getD i 0)

/-- Stores that meet are one store. -/
theorem putList_append (base : Nat) (first second : List UInt8) :
    (m.putList (base + first.length) second).putList base first =
      m.putList base (first ++ second) := by
  funext a
  simp only [putList, put, List.length_append]
  by_cases hFirst : base ≤ a ∧ a < base + first.length
  · rw [if_pos hFirst, if_neg (by omega), if_pos (by omega), List.getD_append _ _ _ _ (by omega)]
  · rw [if_neg hFirst]
    by_cases hSecond : base + first.length ≤ a ∧ a < base + first.length + second.length
    · rw [if_pos hSecond, if_pos (by omega), List.getD_append_right _ _ _ _ (by omega),
        Nat.sub_sub]
    · rw [if_neg hSecond, if_neg (by omega)]

theorem putList_bytes {base i : Nat} {list : List UInt8} {byte : UInt8}
    (hByte : list[i]? = some byte)
    (hCell : (m (base + i)).isSome = true) :
    (m.putList base list).bytes (base + i) = some byte := by
  obtain ⟨c, hc⟩ := Option.isSome_iff_exists.mp hCell
  obtain ⟨hi, _⟩ := List.getElem?_eq_some_iff.mp hByte
  rw [bytes, putList, put, if_pos (by omega), hc, Nat.add_sub_cancel_left]
  simp [hByte]

theorem putList_isSome (base : Nat) (list : List UInt8) (a : Nat) :
    (m.putList base list a).isSome = (m a).isSome := put_isSome base _ _ a

theorem putList_outside {base a : Nat} {list : List UInt8}
    (h : a < base ∨ base + list.length ≤ a) : m.putList base list a = m a := if_neg (by omega)

theorem clear_append {low middle high : Nat} (hLow : low ≤ middle)
    (hHigh : middle ≤ high) (attr : α) :
    (m.clear low middle attr).clear middle high attr = m.clear low high attr := by
  funext a
  unfold clear
  split_ifs with hUpper hWhole hLower hWhole
  · rfl
  · omega
  · rfl
  · omega
  · omega
  · rfl

theorem drop_append {low middle high : Nat} (hLow : low ≤ middle) (hHigh : middle ≤ high) :
    (m.drop low middle).drop middle high = m.drop low high := by
  funext a
  unfold drop
  split_ifs with hUpper hWhole hLower hWhole
  · rfl
  · omega
  · rfl
  · omega
  · omega
  · rfl

end Memory

end Kryos.Sparse
