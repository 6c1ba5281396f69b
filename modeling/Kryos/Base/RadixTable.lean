import Mathlib.Data.List.Basic
import Mathlib.Data.Option.Basic

/-! Radix tables in a word memory. A table is a block of words; slot `i` of
the table at address `table` is the word at `table + 8 * i`. An entry may name
a child table, as decided by a parameter `next`. Paths are lists of slot
indices, read from the root. -/
namespace Kryos.Radix

variable (next : Nat → Option Nat)

/-- The address of one slot of a table. -/
def slot (table i : Nat) : Nat := table + 8 * i

/-- The table reached from `table` along a path of slot indices. -/
def tableAt (mem : Nat → Nat) (table : Nat) : List Nat → Option Nat
  | [] => some table
  | i :: path => (next (mem (slot table i))).bind (fun child => tableAt mem child path)

/-- The entry stored in the last slot of a nonempty path. -/
def entryAt (mem : Nat → Nat) (table : Nat) (path : List Nat) (i : Nat) : Option Nat :=
  (tableAt next mem table path).map (fun leaf => mem (slot leaf i))

variable {next}

@[simp] theorem tableAt_nil (mem : Nat → Nat) (table : Nat) :
    tableAt next mem table [] = some table := rfl

theorem tableAt_cons (mem : Nat → Nat) (table i : Nat) (path : List Nat) :
    tableAt next mem table (i :: path) =
      (next (mem (slot table i))).bind (fun child => tableAt next mem child path) := rfl

theorem tableAt_append (mem : Nat → Nat) (table : Nat) (path rest : List Nat) :
    tableAt next mem table (path ++ rest) =
      (tableAt next mem table path).bind (fun middle => tableAt next mem middle rest) := by
  induction path generalizing table with
  | nil => rfl
  | cons i path ih =>
    rw [List.cons_append, tableAt_cons, tableAt_cons, Option.bind_assoc]
    congr 1
    funext child
    exact ih child

theorem tableAt_concat (mem : Nat → Nat) (table i : Nat) (path : List Nat) :
    tableAt next mem table (path ++ [i]) =
      (entryAt next mem table path i).bind next := by
  rw [tableAt_append, entryAt, Option.bind_map]
  congr 1
  funext middle
  rw [tableAt_cons]
  simp

/-- A path is present when every prefix of it is. -/
theorem tableAt_middle {mem : Nat → Nat} {table : Nat} {path rest : List Nat} {target : Nat}
    (h : tableAt next mem table (path ++ rest) = some target) :
    ∃ middle, tableAt next mem table path = some middle ∧
      tableAt next mem middle rest = some target := by
  rw [tableAt_append] at h
  exact Option.bind_eq_some_iff.mp h

/-- Two memories that agree on every slot read along a path reach the same
table. -/
theorem tableAt_congr {mem mem' : Nat → Nat} {table : Nat} {path : List Nat}
    (h : ∀ before i after leaf, path = before ++ i :: after →
      tableAt next mem table before = some leaf → mem' (slot leaf i) = mem (slot leaf i)) :
    tableAt next mem' table path = tableAt next mem table path := by
  induction path generalizing table with
  | nil => rfl
  | cons i path ih =>
    rw [tableAt_cons, tableAt_cons, h [] i path table rfl rfl]
    cases hChild : next (mem (slot table i)) with
    | none => rfl
    | some child =>
      apply ih
      intro before j after leaf hPath hLeaf
      refine h (i :: before) j after leaf (by rw [hPath, List.cons_append]) ?_
      rw [tableAt_cons, hChild]
      exact hLeaf

/-- Only the children named by the entries matter. -/
theorem tableAt_of_next_eq {mem mem' : Nat → Nat} (h : ∀ a, next (mem' a) = next (mem a))
    (table : Nat) (path : List Nat) :
    tableAt next mem' table path = tableAt next mem table path := by
  induction path generalizing table with
  | nil => rfl
  | cons i path ih =>
    rw [tableAt_cons, tableAt_cons, h]
    congr 1
    funext child
    exact ih child

/-- No two different paths of a set reach the same table, and tables do not
overlap: their addresses are multiples of the table size. -/
structure Separated (next : Nat → Option Nat) (fanout : Nat) (paths : List Nat → Prop)
    (mem : Nat → Nat) (root : Nat) : Prop where
  aligned : ∀ path table, paths path → tableAt next mem root path = some table →
    table % (8 * fanout) = 0
  unique : ∀ path other table, paths path → paths other →
    tableAt next mem root path = some table → tableAt next mem root other = some table →
    path = other

theorem slot_inj {fanout table other i j : Nat} (hTable : table % (8 * fanout) = 0)
    (hOther : other % (8 * fanout) = 0) (hi : i < fanout) (hj : j < fanout)
    (h : slot table i = slot other j) : table = other ∧ i = j := by
  obtain ⟨a, rfl⟩ := Nat.dvd_of_mod_eq_zero hTable
  obtain ⟨b, rfl⟩ := Nat.dvd_of_mod_eq_zero hOther
  have hCommon : fanout * a + i = fanout * b + j := by
    have hMul : 8 * (fanout * a + i) = 8 * (fanout * b + j) := by
      rw [Nat.mul_add, Nat.mul_add, ← Nat.mul_assoc, ← Nat.mul_assoc]
      exact h
    omega
  have hMod : i = j := by
    have hLeft := congrArg (· % fanout) hCommon
    simpa [Nat.mul_add_mod, Nat.mod_eq_of_lt hi, Nat.mod_eq_of_lt hj] using hLeft
  subst hMod
  have hAddr : fanout * a = fanout * b := by omega
  exact ⟨by rw [Nat.mul_assoc, Nat.mul_assoc, hAddr], rfl⟩

section Write

variable {fanout : Nat} {paths : List Nat → Prop} {mem : Nat → Nat} {root : Nat}

/-- Writing slot `i` of the table at `path` is seen by another path of the set
only when that path goes through the written slot. -/
theorem Separated.tableAt_write (h : Separated next fanout paths mem root)
    {path : List Nat} {table i value : Nat} (hPath : paths path)
    (hTable : tableAt next mem root path = some table) (hi : i < fanout) {other : List Nat}
    (hPrefix : ∀ before j after, other = before ++ j :: after → paths before ∧ j < fanout)
    (hOther : ∀ after, other ≠ path ++ i :: after) :
    tableAt next (Function.update mem (slot table i) value) root other =
      tableAt next mem root other := by
  apply tableAt_congr
  intro before j after leaf hSplit hLeaf
  obtain ⟨hBefore, hj⟩ := hPrefix before j after hSplit
  apply Function.update_of_ne
  intro hSlot
  obtain ⟨hSame, rfl⟩ := slot_inj (h.aligned _ _ hBefore hLeaf) (h.aligned _ _ hPath hTable)
    hj hi hSlot
  subst hSame
  obtain rfl := h.unique before path leaf hBefore hPath hLeaf hTable
  exact hOther after hSplit

end Write

end Kryos.Radix
