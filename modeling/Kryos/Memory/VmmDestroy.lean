import Kryos.Memory.VmmRun

/-! Tearing an address space down. `vmm_destroy_address_space` gives back every
table of the lower half, once each, and nothing else. -/
namespace Kryos.Memory

open Word Radix

variable {p : Pmm} {path : List Nat} {table i : Nat}

/-! ### Giving back a set of frames -/

/-- Frames that `pmm_free_page` accepts. -/
def Pmm.Holds (p : Pmm) (frames : Nat → Prop) : Prop :=
  ∀ f, frames f → f < p.totalFrames ∧ Bitmap.isSet p.bitmap f = true ∧ p.bitmapEnd ≤ f * pmmPageSize

/-- From `p` to `p'` exactly the frames in `frames` were given back. -/
structure Pmm.Freed (p p' : Pmm) (frames : Nat → Prop) : Prop where
  ready : p'.Ready
  fixed : p' = { p with bitmap := p'.bitmap, usedFrames := p'.usedFrames }
  bits : ∀ f, Bitmap.isSet p'.bitmap f = true ↔ Bitmap.isSet p.bitmap f = true ∧ ¬ frames f

namespace Pmm.Freed

variable {p p' p'' : Pmm} {frames others : Nat → Prop}

theorem none (h : p.Ready) (hNone : ∀ f, ¬ frames f) : p.Freed p frames :=
  ⟨h, rfl, fun f => by simp [hNone f]⟩

theorem trans (h : p.Freed p' frames) (h' : p'.Freed p'' others) :
    p.Freed p'' (fun f => frames f ∨ others f) where
  ready := h'.ready
  fixed := by rw [h'.fixed, h.fixed]
  bits := by
    intro f
    rw [h'.bits f, h.bits f, and_assoc, not_or]

theorem congr (h : p.Freed p' frames) (hEq : ∀ f, frames f ↔ others f) : p.Freed p' others :=
  ⟨h.ready, h.fixed, fun f => by rw [h.bits f, hEq f]⟩

theorem holds (h : p.Freed p' frames) (hHolds : p.Holds others)
    (hDisjoint : ∀ f, frames f → ¬ others f) : p'.Holds others := by
  intro f hf
  obtain ⟨hLt, hSet, hAbove⟩ := hHolds f hf
  have hEnd : p'.bitmapEnd = p.bitmapEnd := by rw [h.fixed]; rfl
  have hTotal : p'.totalFrames = p.totalFrames := by rw [h.fixed]
  refine ⟨hTotal ▸ hLt, (h.bits f).mpr ⟨hSet, ?_⟩, hEnd ▸ hAbove⟩
  exact fun hFreed => hDisjoint f hFreed hf

end Pmm.Freed

theorem pmmFreePage_freed {p : Pmm} (h : p.Ready) {frame : Nat} (hHolds : p.Holds (· = frame)) :
    ∃ p', pmmFreePage p (frame * pmmPageSize) = .ok p' ∧ p.Freed p' (· = frame) := by
  obtain ⟨hLt, hSet, hAbove⟩ := hHolds frame rfl
  refine ⟨_, pmmFreePage_spec h.consistent hLt hSet hAbove, h.release hLt hSet hAbove, rfl, ?_⟩
  intro f
  by_cases hf : f = frame <;> simp [Pmm.release, hf]

/-- A loop whose rounds give back disjoint sets gives back their union. -/
theorem foldlM_freed (body : Pmm → Nat → Except PmmPanic Pmm) (frames : Nat → Nat → Prop)
    (hDisjoint : ∀ i j f, frames i f → frames j f → i = j) (n : Nat)
    (hBody : ∀ i < n, ∀ p : Pmm, p.Ready → p.Holds (frames i) →
      ∃ p', body p i = .ok p' ∧ p.Freed p' (frames i)) (h : p.Ready)
    (hHolds : ∀ i < n, p.Holds (frames i)) :
    ∃ p', (List.range n).foldlM body p = .ok p' ∧ p.Freed p' (fun f => ∃ i < n, frames i f) := by
  induction n with
  | zero => exact ⟨p, rfl, Pmm.Freed.none h (by simp)⟩
  | succ n ih =>
    obtain ⟨p₁, hFold, hFreed⟩ :=
      ih (fun i hi => hBody i (by omega)) (fun i hi => hHolds i (by omega))
    have hLeft : p₁.Holds (frames n) := by
      apply hFreed.holds (hHolds n (by omega))
      rintro f ⟨i, hi, hf⟩ hn
      have hEq := hDisjoint i n f hf hn
      omega
    obtain ⟨p₂, hStep, hFreed'⟩ := hBody n (by omega) p₁ hFreed.ready hLeft
    refine ⟨p₂, ?_, (hFreed.trans hFreed').congr ?_⟩
    · rw [List.range_succ, List.foldlM_append, hFold]
      change (List.foldlM body p₁ [n]) = _
      rw [List.foldlM_cons, hStep]
      rfl
    · intro f
      constructor
      · rintro (⟨i, hi, hf⟩ | hf)
        · exact ⟨i, by omega, hf⟩
        · exact ⟨n, by omega, hf⟩
      · rintro ⟨i, hi, hf⟩
        rcases Nat.lt_or_eq_of_le (Nat.le_of_lt_succ hi) with hLt | rfl
        · exact Or.inl ⟨i, hLt, hf⟩
        · exact Or.inr hf

/-! ### Subtrees -/

/-- The frames of the tables at and below a path. -/
def Kmem.SubFrame (k : Kmem) (root : Nat) (path : List Nat) (frame : Nat) : Prop :=
  ∃ below, TablePath (path ++ below) ∧ k.table root (path ++ below) = some (frame * pmmPageSize)

section Subtree

variable {k : Kmem} {root : Nat}

/-- The subtree of a table is the table and the subtrees of its slots. -/
theorem Kmem.subFrame_iff (hPath : TablePath path)
    (hTable : k.table root path = some (table * pmmPageSize)) (frame : Nat) :
    k.SubFrame root path frame ↔
      (∃ i < if path = [] then 256 else 512, k.SubFrame root (path ++ [i]) frame) ∨
        frame = table := by
  constructor
  · rintro ⟨_ | ⟨i, rest⟩, hTp, hTable'⟩
    · rw [List.append_nil, hTable] at hTable'
      exact Or.inr (Nat.eq_of_mul_eq_mul_right (by decide) (Option.some.inj hTable').symm)
    · left
      obtain ⟨_, hi⟩ := hTp.split rfl
      refine ⟨i, ?_, rest, by simpa using hTp, by simpa using hTable'⟩
      split
      · rename_i hNil
        exact hi.2 hNil
      · exact hi.1
  · rintro (⟨i, _, below, hTp, hTable'⟩ | rfl)
    · exact ⟨i :: below, by simpa using hTp, by simpa using hTable'⟩
    · exact ⟨[], by simpa using hPath, by simpa using hTable⟩

variable (h : AsInv k root)

include h

/-- Different slots of a table have disjoint subtrees. -/
theorem AsInv.subFrame_disjoint {path : List Nat} {i j frame : Nat}
    (hi : k.SubFrame root (path ++ [i]) frame) (hj : k.SubFrame root (path ++ [j]) frame) :
    i = j := by
  obtain ⟨below, hTp, hTable⟩ := hi
  obtain ⟨below', hTp', hTable'⟩ := hj
  have hEq := h.unique _ _ _ hTp hTp' hTable hTable'
  rw [List.append_assoc, List.append_assoc, List.append_cancel_left_eq] at hEq
  exact (List.cons.inj hEq).1

theorem AsInv.subFrame_not_self {frame : Nat} (hPath : TablePath path)
    (hTable : k.table root path = some (frame * pmmPageSize))
    (hBelow : k.SubFrame root (path ++ [i]) frame) : False := by
  obtain ⟨below, hTp, hTable'⟩ := hBelow
  have hEq := congrArg List.length (h.unique _ _ _ hPath hTp hTable hTable')
  simp at hEq

theorem AsInv.slot_cases (hPath : TablePath path) (hLength : path.length < 3)
    (hi : LowerSlot path i) (hTable : k.table root path = some table) :
    ((k.mem (slot table i)).testBit 0 = false ∧ ∀ frame, ¬ k.SubFrame root (path ++ [i]) frame) ∨
    ((k.mem (slot table i)).testBit 0 = true ∧ (k.mem (slot table i)).testBit 7 = false ∧
      ∃ child, k.mem (slot table i) &&& pteFrameMask = child * pmmPageSize ∧
        k.table root (path ++ [i]) = some (child * pmmPageSize)) := by
  have hEntry : k.entry root path i = some (k.mem (slot table i)) :=
    Kmem.entry_eq_some.mpr ⟨table, hTable, rfl⟩
  cases hPresent : (k.mem (slot table i)).testBit 0 with
  | false =>
    refine Or.inl ⟨rfl, ?_⟩
    rintro frame ⟨below, _, hBelow⟩
    rw [List.append_assoc, List.singleton_append] at hBelow
    obtain ⟨e, hEntry', hPresent'⟩ := Kmem.table_split hBelow
    obtain rfl := Option.some.inj (hEntry.symm.trans hEntry')
    simp [hPresent] at hPresent'
  | true =>
    have hChild : k.table root (path ++ [i]) = some (k.mem (slot table i) &&& pteFrameMask) := by
      rw [Kmem.table_concat, hEntry, Option.bind_some, pteNext_of_present hPresent]
    obtain ⟨child, hEq, _⟩ := h.owned _ _ (hPath.concat hLength hi) hChild
    exact Or.inr
      ⟨rfl, (h.inner path i _ hPath hLength hi hEntry hPresent).1, child, hEq, hEq ▸ hChild⟩

/-- `free_page_table` gives back exactly the subtree. -/
theorem AsInv.freePageTable_freed (below : Nat) (hPath : TablePath path)
    (hBelow : path.length + below = 3) (hNe : path ≠ [])
    (hTable : k.table root path = some (table * pmmPageSize)) (hReady : p.Ready)
    (hHolds : p.Holds (k.SubFrame root path)) :
    ∃ p', freePageTable k.mem below (table * pmmPageSize) p = .ok p' ∧
      p.Freed p' (k.SubFrame root path) := by
  induction below generalizing path table p with
  | zero =>
    -- a last-level table has no tables below it
    have hOnly (frame : Nat) : k.SubFrame root path frame ↔ frame = table := by
      rw [Kmem.subFrame_iff hPath hTable]
      refine ⟨?_, Or.inr⟩
      rintro (⟨i, _, below, hTp, _⟩ | hEq)
      · have hLong := hTp.1
        simp only [List.length_append, List.length_singleton] at hLong
        omega
      · exact hEq
    obtain ⟨p', hFree, hFreed⟩ := pmmFreePage_freed hReady
      (fun f hf => hHolds f ((hOnly f).mpr hf))
    exact ⟨p', hFree, hFreed.congr (fun f => (hOnly f).symm)⟩
  | succ below ih =>
    have hSplit := Kmem.subFrame_iff hPath hTable
    simp only [if_neg hNe] at hSplit
    have hSlots : ∀ i < 512, ∀ q : Pmm, q.Ready → q.Holds (k.SubFrame root (path ++ [i])) →
        ∃ q', (if hasFlag (k.mem (slot (table * pmmPageSize) i)) ptePresent then
            if !hasFlag (k.mem (slot (table * pmmPageSize) i)) pdePs then
              freePageTable k.mem below (k.mem (slot (table * pmmPageSize) i) &&& pteFrameMask) q
            else pure q
          else pure q) = .ok q' ∧ q.Freed q' (k.SubFrame root (path ++ [i])) := by
      intro i hi q hq hHoldsI
      have hSlot : LowerSlot path i := ⟨hi, fun hNil => absurd hNil hNe⟩
      rw [hasFlag_present, hasFlag_ps]
      rcases h.slot_cases hPath (by omega) hSlot hTable with
        ⟨hAbsent, hNone⟩ | ⟨hPresent, hPs, child, hChild, hChildTable⟩
      · rw [hAbsent]
        exact ⟨q, rfl, Pmm.Freed.none hq hNone⟩
      · rw [hPresent, hPs, hChild]
        exact ih (hPath.concat (by omega) hSlot)
          (by simp only [List.length_append, List.length_singleton]; omega) (by simp)
          hChildTable hq hHoldsI
    obtain ⟨p₁, hFold, hFreed⟩ := foldlM_freed _ (fun i => k.SubFrame root (path ++ [i]))
      (fun i j f => h.subFrame_disjoint) 512 hSlots hReady
      (fun i hi f hf => hHolds f ((hSplit f).mpr (Or.inl ⟨i, hi, hf⟩)))
    have hSelf : p₁.Holds (· = table) := by
      apply hFreed.holds (fun f hf => hHolds f ((hSplit f).mpr (Or.inr hf)))
      rintro f ⟨i, _, hSub⟩ rfl
      exact h.subFrame_not_self hPath hTable hSub
    obtain ⟨p₂, hFree, hFreed'⟩ := pmmFreePage_freed hFreed.ready hSelf
    refine ⟨p₂, ?_, (hFreed.trans hFreed').congr (fun f => (hSplit f).symm)⟩
    rw [freePageTable, hFold]
    exact hFree

/-- `vmm_destroy_address_space` gives back exactly the tables. -/
theorem AsInv.destroy_freed (hReady : k.pmm.Ready) (hRoot : root ≠ 0)
    (hHolds : k.pmm.Holds (k.TableFrame root)) :
    ∃ k', vmmDestroyAddressSpace k root = .ok k' ∧ k.pmm.Freed k'.pmm (k.TableFrame root) := by
  obtain ⟨frame, hFrame, _⟩ := h.owned [] root TablePath.nil rfl
  have hTable : k.table root [] = some (frame * pmmPageSize) := congrArg some hFrame
  have hSplit := Kmem.subFrame_iff TablePath.nil hTable
  have hSlots : ∀ i < 256, ∀ q : Pmm, q.Ready → q.Holds (k.SubFrame root [i]) →
      ∃ q', (if hasFlag (k.mem (slot root i)) ptePresent then
          freePageTable k.mem 2 (k.mem (slot root i) &&& pteFrameMask) q
        else pure q) = .ok q' ∧ q.Freed q' (k.SubFrame root [i]) := by
    intro i hi q hq hHoldsI
    have hSlot : LowerSlot [] i := ⟨by omega, fun _ => hi⟩
    rw [hasFlag_present]
    rcases h.slot_cases TablePath.nil (by simp) hSlot rfl with
      ⟨hAbsent, hNone⟩ | ⟨hPresent, _, child, hChild, hChildTable⟩
    · rw [hAbsent]
      exact ⟨q, rfl, Pmm.Freed.none hq hNone⟩
    · rw [hPresent, hChild]
      exact h.freePageTable_freed 2 (TablePath.nil.concat (by simp) hSlot) rfl (by simp)
        hChildTable hq hHoldsI
  obtain ⟨p₁, hFold, hFreed⟩ := foldlM_freed _ _
    (fun i j f => @AsInv.subFrame_disjoint k root h [] i j f) 256 hSlots hReady
    (fun i hi f hf => hHolds f ((hSplit f).mpr (Or.inl ⟨i, hi, hf⟩)))
  have hSelf : p₁.Holds (· = frame) := by
    apply hFreed.holds (fun f hf => hHolds f ((hSplit f).mpr (Or.inr hf)))
    rintro f ⟨i, _, hSub⟩ rfl
    exact h.subFrame_not_self TablePath.nil hTable hSub
  obtain ⟨p₂, hFree, hFreed'⟩ := pmmFreePage_freed hFreed.ready hSelf
  refine ⟨{ k with pmm := p₂ }, ?_, (hFreed.trans hFreed').congr (fun f => (hSplit f).symm)⟩
  rw [← hFrame] at hFree
  rw [vmmDestroyAddressSpace, if_neg (by simpa using hRoot), hFold]
  change (pmmFreePage p₁ root).bind _ = _
  rw [hFree]
  rfl

end Subtree

end Kryos.Memory
