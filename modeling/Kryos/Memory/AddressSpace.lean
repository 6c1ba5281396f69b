import Kryos.Memory.PageEntry
import Kryos.Memory.PmmInvariant

/-! The tree of page tables below the lower half of one PML4. A table is named
by the path of slot indices that leads to it; the empty path is the PML4. -/
namespace Kryos.Memory

open Radix

variable {path : List Nat} {i root : Nat} {k : Kmem}

/-- A slot of the lower half: the PML4 contributes its first 256 entries. -/
def LowerSlot (path : List Nat) (i : Nat) : Prop := i < 512 ∧ (path = [] → i < 256)

/-- Paths to tables of the lower half. -/
def TablePath (path : List Nat) : Prop :=
  path.length ≤ 3 ∧ ∀ before i after, path = before ++ i :: after → LowerSlot before i

theorem TablePath.nil : TablePath [] := by
  refine ⟨by simp, ?_⟩
  intro before i after h
  simp at h

theorem TablePath.split {before after : List Nat} (h : TablePath path)
    (hSplit : path = before ++ i :: after) : TablePath before ∧ LowerSlot before i := by
  refine ⟨⟨?_, ?_⟩, h.2 before i after hSplit⟩
  · have hLength := h.1
    rw [hSplit, List.length_append] at hLength
    omega
  · intro front j back hFront
    apply h.2 front j (back ++ i :: after)
    rw [hSplit, hFront]
    simp

theorem TablePath.concat (h : TablePath path) (hLength : path.length < 3) (hi : LowerSlot path i) :
    TablePath (path ++ [i]) := by
  refine ⟨by simp only [List.length_append, List.length_singleton]; omega, ?_⟩
  intro before j after hSplit
  rcases List.eq_nil_or_concat after with rfl | ⟨rest, last, rfl⟩
  · have hEq := List.append_inj' hSplit rfl
    simp only [List.cons.injEq, and_true] at hEq
    obtain ⟨rfl, rfl⟩ := hEq
    exact hi
  · have hFront : path = before ++ j :: rest := by
      have hEq : path ++ [i] = (before ++ j :: rest) ++ [last] := by rw [hSplit]; simp
      exact (List.append_inj' hEq rfl).1
    exact h.2 before j rest hFront

theorem TablePath.of_concat (h : TablePath (path ++ [i])) :
    TablePath path ∧ LowerSlot path i := h.split rfl

/-- The table at a path of the lower half. -/
def Kmem.table (k : Kmem) (root : Nat) (path : List Nat) : Option Nat :=
  tableAt pteNext k.mem root path

/-- The entry in slot `i` of the table at a path. -/
def Kmem.entry (k : Kmem) (root : Nat) (path : List Nat) (i : Nat) : Option Nat :=
  entryAt pteNext k.mem root path i

theorem Kmem.entry_eq_some {e : Nat} :
    k.entry root path i = some e ↔ ∃ table, k.table root path = some table ∧
      k.mem (slot table i) = e := by
  unfold Kmem.entry entryAt
  rw [Option.map_eq_some_iff]
  rfl

theorem Kmem.table_concat (k : Kmem) (root i : Nat) (path : List Nat) :
    k.table root (path ++ [i]) = (k.entry root path i).bind pteNext := tableAt_concat _ _ _ _

theorem Kmem.table_split {table : Nat} {before after : List Nat}
    (h : k.table root (before ++ i :: after) = some table) :
    ∃ e, k.entry root before i = some e ∧ e.testBit 0 = true := by
  rw [show before ++ i :: after = (before ++ [i]) ++ after by simp] at h
  obtain ⟨middle, hMiddle, _⟩ := tableAt_middle h
  rw [← Kmem.table, Kmem.table_concat] at hMiddle
  obtain ⟨e, hEntry, hNext⟩ := Option.bind_eq_some_iff.mp hMiddle
  exact ⟨e, hEntry, (present_of_pteNext hNext).1⟩

/-- The tables of the lower half form a tree of distinct allocated frames;
intermediate entries are neither huge nor non-executable, and carry every
permission of the leaves below them. -/
structure AsInv (k : Kmem) (root : Nat) : Prop where
  unique : ∀ path other table, TablePath path → TablePath other →
    k.table root path = some table → k.table root other = some table → path = other
  owned : ∀ path table, TablePath path → k.table root path = some table →
    ∃ frame, table = frame * pmmPageSize ∧ frame < k.pmm.totalFrames ∧
      Bitmap.isSet k.pmm.bitmap frame = true
  inner : ∀ path i e, TablePath path → path.length < 3 → LowerSlot path i →
    k.entry root path i = some e → e.testBit 0 = true → e.testBit 7 = false ∧ e.testBit 63 = false
  perms : ∀ path i leaf, TablePath path → path.length = 3 → i < 512 →
    k.entry root path i = some leaf → leaf.testBit 0 = true →
    ∀ before j after e, path = before ++ j :: after → k.entry root before j = some e →
      (leaf.testBit 1 = true → e.testBit 1 = true) ∧ (leaf.testBit 2 = true → e.testBit 2 = true)

/-- The present leaf entry at a path of length three. -/
def Kmem.leaf (k : Kmem) (root : Nat) (path : List Nat) (i : Nat) : Option Nat :=
  (k.entry root path i).filter (fun e => e.testBit 0)

theorem Kmem.leaf_eq_some {e : Nat} :
    k.leaf root path i = some e ↔ k.entry root path i = some e ∧ e.testBit 0 = true := by
  unfold Kmem.leaf
  rw [Option.filter_eq_some_iff]

namespace AsInv

variable {k : Kmem} {root : Nat}

theorem separated (h : AsInv k root) : Separated pteNext 512 TablePath k.mem root where
  aligned := by
    intro path table hPath hTable
    obtain ⟨frame, rfl, _⟩ := h.owned path table hPath hTable
    simp only [pmmPageSize]
    omega
  unique := h.unique

theorem slot_ne (h : AsInv k root) {other : List Nat} {table table' j : Nat}
    (hPath : TablePath path) (hOther : TablePath other) (hTable : k.table root path = some table)
    (hTable' : k.table root other = some table') (hi : i < 512) (hj : j < 512)
    (hNe : ¬ (path = other ∧ i = j)) : slot table i ≠ slot table' j := by
  intro hSlot
  obtain ⟨rfl, rfl⟩ := slot_inj (h.separated.aligned _ _ hPath hTable)
    (h.separated.aligned _ _ hOther hTable') hi hj hSlot
  exact hNe ⟨h.unique _ _ _ hPath hOther hTable hTable', rfl⟩

end AsInv

/-- A slot of some table of the lower half. -/
def Kmem.OwnSlot (k : Kmem) (root a : Nat) : Prop :=
  ∃ path table i, TablePath path ∧ k.table root path = some table ∧ LowerSlot path i ∧
    a = slot table i

/-- A frame that serves as a table of the lower half. -/
def Kmem.TableFrame (k : Kmem) (root frame : Nat) : Prop :=
  ∃ path, TablePath path ∧ k.table root path = some (frame * pmmPageSize)

/-- The tree of tables only grows, and every new table is a frame that was free
before; no other frame is taken. -/
structure TablesGrow (k k' : Kmem) (root : Nat) : Prop where
  tables : ∀ path table, TablePath path → k.table root path = some table →
    k'.table root path = some table
  frames : ∀ i, Bitmap.isSet k'.pmm.bitmap i = true ↔
    Bitmap.isSet k.pmm.bitmap i = true ∨ k'.TableFrame root i
  fresh : ∀ i, k'.TableFrame root i →
    k.TableFrame root i ∨ Bitmap.isSet k.pmm.bitmap i = false
  fixed : k'.pmm = { k.pmm with bitmap := k'.pmm.bitmap, usedFrames := k'.pmm.usedFrames }

/-- From `k` to `k'` only slots of the lower half of the space and frames that
were free have been written. -/
structure OwnWrites (k k' : Kmem) (root : Nat) : Prop where
  cr3 : k'.cr3 = k.cr3
  words : ∀ a, k'.mem a ≠ k.mem a →
    k'.OwnSlot root a ∨ Bitmap.isSet k.pmm.bitmap (a / pmmPageSize) = false

/-- Moreover later code sees the same leaves, and at least the same permissions
on intermediate entries. -/
structure Grows (k k' : Kmem) (root : Nat) : Prop extends TablesGrow k k' root,
    OwnWrites k k' root where
  inner : ∀ path i e, TablePath path → path.length < 3 → LowerSlot path i →
    k.entry root path i = some e → e.testBit 0 = true →
    ∃ e', k'.entry root path i = some e' ∧ e'.testBit 0 = true ∧
      (e.testBit 1 = true → e'.testBit 1 = true) ∧ (e.testBit 2 = true → e'.testBit 2 = true)
  leaves : ∀ path i, TablePath path → path.length = 3 → i < 512 →
    k'.leaf root path i = k.leaf root path i

theorem AsInv.tableFrame_set {frame : Nat} (h : AsInv k root) (hFrame : k.TableFrame root frame) :
    frame < k.pmm.totalFrames ∧ Bitmap.isSet k.pmm.bitmap frame = true := by
  obtain ⟨path, hPath, hTable⟩ := hFrame
  obtain ⟨owned, hEq, hLt, hSet⟩ := h.owned path _ hPath hTable
  obtain rfl : frame = owned := Nat.eq_of_mul_eq_mul_right (by decide) hEq
  exact ⟨hLt, hSet⟩

theorem TablesGrow.of_table_eq {k' : Kmem} (h : AsInv k root)
    (hTables : ∀ path, TablePath path → k'.table root path = k.table root path)
    (hPmm : k'.pmm = k.pmm) : TablesGrow k k' root := by
  have hFrame (i : Nat) : k'.TableFrame root i ↔ k.TableFrame root i := by
    apply exists_congr
    intro path
    apply and_congr_right
    intro hPath
    rw [hTables path hPath]
  refine ⟨?_, ?_, ?_, ?_⟩
  · intro path table hPath hTable
    rwa [hTables path hPath]
  · intro i
    rw [hPmm, hFrame]
    refine ⟨Or.inl, ?_⟩
    rintro (hSet | hTable)
    · exact hSet
    · exact (h.tableFrame_set hTable).2
  · intro i hTable
    exact Or.inl ((hFrame i).mp hTable)
  · rw [hPmm]

theorem TablesGrow.tableFrame {k' : Kmem} {frame : Nat} (h : TablesGrow k k' root)
    (hFrame : k.TableFrame root frame) : k'.TableFrame root frame := by
  obtain ⟨path, hPath, hTable⟩ := hFrame
  exact ⟨path, hPath, h.tables _ _ hPath hTable⟩

theorem TablesGrow.trans {k₁ k₂ k₃ : Kmem} (h : TablesGrow k₁ k₂ root)
    (h' : TablesGrow k₂ k₃ root) : TablesGrow k₁ k₃ root where
  tables := fun path table hPath ht => h'.tables path table hPath (h.tables path table hPath ht)
  frames := by
    intro i
    rw [h'.frames i, h.frames i, or_assoc]
    constructor
    · rintro (hSet | hOld | hNew)
      · exact Or.inl hSet
      · exact Or.inr (h'.tableFrame hOld)
      · exact Or.inr hNew
    · rintro (hSet | hNew)
      · exact Or.inl hSet
      · exact Or.inr (Or.inr hNew)
  fresh := by
    intro i hTable
    rcases h'.fresh i hTable with hMiddle | hClear
    · exact h.fresh i hMiddle
    · right
      rw [← Bool.not_eq_true] at hClear ⊢
      exact fun hSet => hClear ((h.frames i).mpr (Or.inl hSet))
  fixed := by rw [h'.fixed, h.fixed]

namespace OwnWrites

variable {k k' k'' : Kmem} {root : Nat}

theorem of_mem_eq (hCr3 : k'.cr3 = k.cr3) (hMem : k'.mem = k.mem) : OwnWrites k k' root :=
  ⟨hCr3, fun a hNe => absurd (congrFun hMem a) hNe⟩

theorem ownSlot_grows (hGrow : TablesGrow k k' root) (hSlot : k.OwnSlot root a) :
    k'.OwnSlot root a := by
  obtain ⟨path, table, i, hPath, hTable, hi, rfl⟩ := hSlot
  exact ⟨path, table, i, hPath, hGrow.tables path table hPath hTable, hi, rfl⟩

theorem trans (h : OwnWrites k k' root) (h' : OwnWrites k' k'' root) (hGrow : TablesGrow k k' root)
    (hGrow' : TablesGrow k' k'' root) : OwnWrites k k'' root := by
  refine ⟨h'.cr3.trans h.cr3, ?_⟩
  intro a hNe
  by_cases hFirst : k'.mem a = k.mem a
  · rcases h'.words a (by rwa [hFirst]) with hSlot | hFree
    · exact Or.inl hSlot
    · right
      rw [← Bool.not_eq_true] at hFree ⊢
      exact fun hSet => hFree ((hGrow.frames _).mpr (Or.inl hSet))
  · rcases h.words a hFirst with hSlot | hFree
    · exact Or.inl (ownSlot_grows hGrow' hSlot)
    · exact Or.inr hFree

theorem write (hPath : TablePath path) (hi : LowerSlot path i) {value : Nat}
    (hTable : (k.write (slot table i) value).table root path = some table) :
    OwnWrites k (k.write (slot table i) value) root := by
  refine ⟨rfl, ?_⟩
  intro a hNe
  have hSame : a = slot table i := by
    by_contra hOther
    exact hNe (Function.update_of_ne hOther _ _)
  exact Or.inl ⟨path, table, i, hPath, hTable, hi, hSame⟩

end OwnWrites

theorem Grows.refl (h : AsInv k root) : Grows k k root where
  toTablesGrow := TablesGrow.of_table_eq h (fun _ _ => rfl) rfl
  toOwnWrites := OwnWrites.of_mem_eq rfl rfl
  inner := fun _ _ e _ _ _ h hp => ⟨e, h, hp, id, id⟩
  leaves := fun _ _ _ _ _ => rfl

theorem Grows.trans {k₁ k₂ k₃ : Kmem} (h : Grows k₁ k₂ root) (h' : Grows k₂ k₃ root) :
    Grows k₁ k₃ root where
  toTablesGrow := h.toTablesGrow.trans h'.toTablesGrow
  toOwnWrites := h.toOwnWrites.trans h'.toOwnWrites h.toTablesGrow h'.toTablesGrow
  inner := by
    intro path i e hPath hLength hi he hPresent
    obtain ⟨e₂, he₂, hPresent₂, hw, hu⟩ := h.inner path i e hPath hLength hi he hPresent
    obtain ⟨e₃, he₃, hPresent₃, hw', hu'⟩ := h'.inner path i e₂ hPath hLength hi he₂ hPresent₂
    exact ⟨e₃, he₃, hPresent₃, hw' ∘ hw, hu' ∘ hu⟩
  leaves := by
    intro path i hPath hLength hi
    rw [h'.leaves path i hPath hLength hi, h.leaves path i hPath hLength hi]

end Kryos.Memory
