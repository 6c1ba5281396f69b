import Kryos.Memory.VmmDestroy

/-! Who owns the frames taken since some earlier allocator state. While one
address space is being built, each such frame is a table of the space, a page
mapped in it, or still in the hands of the builder. -/
namespace Kryos.Memory

open Radix

/-- A frame mapped as a page of the lower half. -/
def Kmem.LeafFrame (k : Kmem) (root frame : Nat) : Prop :=
  ∃ va < 2 ^ 47, ∃ e, k.leafOf root va = some e ∧ e &&& pteFrameMask = frame * pmmPageSize

/-- The frames taken since `start` are tables, mapped pages, or `spare`. -/
structure Owned (start : Pmm) (k : Kmem) (root : Nat) (spare : Nat → Prop) : Prop where
  inv : AsInv k root
  ready : k.pmm.Ready
  fixed : k.pmm = { start with bitmap := k.pmm.bitmap, usedFrames := k.pmm.usedFrames }
  kept : ∀ f, Bitmap.isSet start.bitmap f = true → Bitmap.isSet k.pmm.bitmap f = true
  taken : ∀ f, Bitmap.isSet k.pmm.bitmap f = true →
    Bitmap.isSet start.bitmap f = true ∨ k.TableFrame root f ∨ k.LeafFrame root f ∨ spare f
  tables : ∀ f, k.TableFrame root f → Bitmap.isSet start.bitmap f = false
  pages : ∀ f, k.LeafFrame root f ∨ spare f →
    f < start.totalFrames ∧ Bitmap.isSet k.pmm.bitmap f = true ∧
    Bitmap.isSet start.bitmap f = false ∧ ¬ k.TableFrame root f

/-- No frame in hand. -/
def noSpare : Nat → Prop := fun _ => False

/-! ### Stores into a mapped page -/

theorem slot_div {f i : Nat} (hi : i < 512) : slot (f * pmmPageSize) i / pmmPageSize = f := by
  simp only [slot, pmmPageSize]
  omega

theorem AsInv.ownSlot_frame {k : Kmem} {root a : Nat} (h : AsInv k root)
    (hSlot : k.OwnSlot root a) : k.TableFrame root (a / pmmPageSize) := by
  obtain ⟨path, table, i, hPath, hTable, hi, rfl⟩ := hSlot
  obtain ⟨f, rfl, _⟩ := h.owned path table hPath hTable
  rw [slot_div hi.1]
  exact ⟨path, hPath, hTable⟩

/-- Only words of one frame change. -/
structure FrameWrite (k k' : Kmem) (frame : Nat) : Prop where
  pmm : k'.pmm = k.pmm
  outside : ∀ a, a / pmmPageSize ≠ frame → k'.mem a = k.mem a

namespace FrameWrite

variable {k k' k'' : Kmem} {root frame : Nat}

theorem refl (k : Kmem) (frame : Nat) : FrameWrite k k frame := ⟨rfl, fun _ _ => rfl⟩

theorem trans (h : FrameWrite k k' frame) (h' : FrameWrite k' k'' frame) : FrameWrite k k'' frame :=
  ⟨h'.pmm.trans h.pmm, fun a ha => (h'.outside a ha).trans (h.outside a ha)⟩

theorem zeroPage (k : Kmem) (frame : Nat) :
    FrameWrite k (k.zeroPage (frame * pmmPageSize)) frame := by
  refine ⟨rfl, ?_⟩
  intro a ha
  apply if_neg
  rintro ⟨hLow, hHigh⟩
  apply ha
  simp only [pmmPageSize] at hLow hHigh ⊢
  omega

theorem leavesTables (h : FrameWrite k k' frame) (hInv : AsInv k root) (hReady : k.pmm.Ready)
    (hNot : ¬ k.TableFrame root frame) : LeavesTables k k' root where
  ready := h.pmm ▸ hReady
  slots := by
    intro a hSlot
    apply h.outside
    rintro rfl
    exact hNot (hInv.ownSlot_frame hSlot)
  held := by
    intro f hTable
    rw [h.pmm]
    exact hInv.tableFrame_set hTable

end FrameWrite

/-! ### Frames that a mapping needs -/

theorem Pmm.Consistent.card_take {p : Pmm} (h : p.Consistent) {frame : Nat}
    (hLt : frame < p.totalFrames) (hClear : Bitmap.isSet p.bitmap frame = false) :
    (p.take frame).clearFrames.card + 1 = p.clearFrames.card := by
  have hCount := h.count
  have hCount' := (h.take hLt hClear).count
  simp only [Pmm.take] at hCount' ⊢
  omega

/-- One level of the walk takes a frame exactly if its table is missing, and no
other table appears. -/
theorem InnerSlot.nextLevel_frames {k : Kmem} {root table i : Nat} {path : List Nat}
    (h : InnerSlot k root path table i) (pteFlags : Nat) :
    ((getNextLevel k table i true pteFlags).1.isSome ↔
      (k.table root (path ++ [i])).isNone.toNat ≤ k.pmm.clearFrames.card) ∧
    ((getNextLevel k table i true pteFlags).1.isSome →
      (getNextLevel k table i true pteFlags).2.pmm.clearFrames.card +
        (k.table root (path ++ [i])).isNone.toNat = k.pmm.clearFrames.card) ∧
    ∀ other, TablePath other → other ≠ path ++ [i] →
      (getNextLevel k table i true pteFlags).2.table root other = k.table root other := by
  have hEntry : k.entry root path i = some (k.mem (slot table i)) :=
    Kmem.entry_eq_some.mpr ⟨table, h.reached, rfl⟩
  rw [Kmem.table_concat, hEntry, Option.bind_some]
  rcases getNextLevel_cases h.ready table i true pteFlags with
    ⟨hPresent, hPs, _⟩ | ⟨hPresent, _, hResult⟩ | ⟨hAbsent, hResult, hEmpty⟩ |
    ⟨hAbsent, _, frame, _, hLt, hClear, hResult⟩
  · have hInner := h.inv.inner path i _ h.valid h.short h.lower hEntry hPresent
    simp [hPs] at hInner
  · rw [hResult, pteNext_of_present hPresent]
    exact ⟨by simp, fun _ => rfl, fun other _ _ => raise_table pteFlags other⟩
  · rw [hResult, pteNext_of_absent hAbsent]
    exact ⟨by simp [hEmpty rfl], by simp, fun _ _ _ => rfl⟩
  · have hCard := h.ready.consistent.card_take hLt hClear
    have hNew : NewTable k root path table i frame := ⟨h, hAbsent, hLt, hClear⟩
    rw [hResult, pteNext_of_absent hAbsent]
    refine ⟨?_, fun _ => hCard, fun other hOther hNe => ?_⟩
    · simp only [Option.isSome_some, Option.isNone_none, Bool.toNat_true, true_iff]
      omega
    · refine Option.ext fun t => ⟨fun hThere => ?_, hNew.table_old pteFlags hOther⟩
      exact (hNew.table_cases pteFlags hOther hThere).resolve_right (fun hHere => hNe hHere.1)

/-- The tables that the walk to a page still lacks. -/
def Kmem.missing (k : Kmem) (root va : Nat) : Nat :=
  (k.table root [pml4Index va]).isNone.toNat +
    (k.table root [pml4Index va, pdptIndex va]).isNone.toNat +
    (k.table root (vaPath va)).isNone.toNat

theorem Kmem.missing_le (k : Kmem) (root va : Nat) : k.missing root va ≤ 3 := by
  have hBit (b : Bool) := Bool.toNat_le b
  exact Nat.add_le_add (Nat.add_le_add (hBit _) (hBit _)) (hBit _)

theorem missing_of_empty {k : Kmem} {root va : Nat}
    (hEmpty : ∀ i < 256, k.mem (slot root i) = 0) (hva : va < 2 ^ 47) : k.missing root va = 3 := by
  have hNone {path : List Nat} (hPath : TablePath path) (hNe : path ≠ []) :
      k.table root path = none := by
    by_contra hSome
    obtain ⟨table, hTable⟩ := Option.ne_none_iff_exists'.mp hSome
    exact hNe (table_of_empty hEmpty hPath hTable).1
  rw [Kmem.missing, hNone (tablePath_one hva) (by simp), hNone (tablePath_two hva) (by simp),
    hNone (tablePath_vaPath hva) (by simp [vaPath])]
  rfl

section Progress

variable {k : Kmem} {root va : Nat} (h : AsInv k root) (hReady : k.pmm.Ready) (hva : va < 2 ^ 47)

include h hReady hva

/-- The walk succeeds exactly if there is a frame for every missing table. -/
theorem AsInv.walk_frames (pteFlags : Nat) :
    ((walkTables k root va true pteFlags).1.isSome ↔
      k.missing root va ≤ k.pmm.clearFrames.card) ∧
    ((walkTables k root va true pteFlags).1.isSome →
      (walkTables k root va true pteFlags).2.pmm.clearFrames.card + k.missing root va =
        k.pmm.clearFrames.card) := by
  unfold walkTables Kmem.missing
  have hSlot₁ := h.pml4Slot hReady hva
  obtain ⟨hInv₁, hReady₁, _, hNext₁⟩ := hSlot₁.nextLevel true pteFlags
  obtain ⟨hSome₁, hCard₁, hOther₁⟩ := hSlot₁.nextLevel_frames pteFlags
  have hTwo := hOther₁ _ (tablePath_two hva) (by simp)
  have hThree := hOther₁ _ (tablePath_vaPath hva) (by simp [vaPath])
  rw [← hTwo, ← hThree]
  rw [List.nil_append] at hSome₁ hCard₁
  generalize getNextLevel k root (pml4Index va) true pteFlags = r₁ at *
  obtain ⟨_ | pdpt, k₁⟩ := r₁
  · simp only [Option.isSome_none, Bool.false_eq_true, false_iff, false_implies,
      and_true] at hSome₁ ⊢
    omega
  have hUsed₁ := hCard₁ rfl
  dsimp only at hInv₁ hReady₁ hUsed₁ ⊢
  have hSlot₂ := hInv₁.pdptSlot hReady₁ hva (hNext₁ pdpt rfl).1
  obtain ⟨hInv₂, hReady₂, _, hNext₂⟩ := hSlot₂.nextLevel true pteFlags
  obtain ⟨hSome₂, hCard₂, hOther₂⟩ := hSlot₂.nextLevel_frames pteFlags
  rw [← hOther₂ _ (tablePath_vaPath hva) (by simp [vaPath])]
  rw [List.cons_append, List.nil_append] at hSome₂ hCard₂
  generalize getNextLevel k₁ pdpt (pdptIndex va) true pteFlags = r₂ at *
  obtain ⟨_ | pd, k₂⟩ := r₂
  · simp only [Option.isSome_none, Bool.false_eq_true, false_iff, false_implies,
      and_true] at hSome₂ ⊢
    omega
  have hUsed₂ := hCard₂ rfl
  dsimp only at hInv₂ hReady₂ hUsed₂ ⊢
  obtain ⟨hSome₃, hCard₃, _⟩ :=
    (hInv₂.pdSlot hReady₂ hva (hNext₂ pd rfl).1).nextLevel_frames pteFlags
  rw [← show vaPath va = [pml4Index va, pdptIndex va] ++ [pdIndex va] from rfl] at hSome₃ hCard₃
  rw [hSome₃]
  exact ⟨by omega, fun hSome => by have hUsed₃ := hCard₃ (hSome₃.mpr hSome); omega⟩

/-- A page is mapped exactly if it is free and there is a frame for every
missing table. -/
theorem AsInv.mapPage_frames (hAligned : va % pmmPageSize = 0) {phys : Nat} (hPhys : IsFrame phys)
    (flags : Nat) :
    ((vmmMapPage k root va phys flags).1 = true ↔
      k.leafOf root va = none ∧ k.missing root va ≤ k.pmm.clearFrames.card) ∧
    ((vmmMapPage k root va phys flags).1 = true →
      (vmmMapPage k root va phys flags).2.pmm.clearFrames.card + k.missing root va =
        k.pmm.clearFrames.card) := by
  obtain ⟨_, _, hGrows, hReached⟩ := h.walk hReady hva true (flagsToPte flags)
  obtain ⟨hSome, hCard⟩ := h.walk_frames hReady hva (flagsToPte flags)
  rw [vmmMapPage_eq hva hAligned hPhys, ← hSome]
  generalize walkTables k root va true (flagsToPte flags) = r at *
  obtain ⟨_ | pt, k'⟩ := r
  · simp
  have hLeaf : k'.leafOf root va = k.leafOf root va :=
    hGrows.leaves _ _ (tablePath_vaPath hva) rfl (ptIndex_lt va)
  rw [← hLeaf, leafOf_of_table (hReached pt rfl).1, Option.filter_some]
  dsimp only
  cases hPresent : (k'.mem (slot pt (ptIndex va))).testBit 0 with
  | false => exact ⟨by simp, fun _ => hCard rfl⟩
  | true => simp

end Progress

/-! ### Destruction -/

theorem Kmem.exists_leafFrame_iff {k : Kmem} {root : Nat} :
    (∃ f, k.LeafFrame root f) ↔ ∃ va < 2 ^ 47, k.leafOf root va ≠ none := by
  constructor
  · rintro ⟨f, va, hva, e, hLeaf, _⟩
    exact ⟨va, hva, by simp [hLeaf]⟩
  · rintro ⟨va, hva, hLeaf⟩
    obtain ⟨e, he⟩ := Option.ne_none_iff_exists'.mp hLeaf
    refine ⟨(e &&& pteFrameMask) / pmmPageSize, va, hva, e, he, ?_⟩
    exact (Nat.div_mul_cancel (Nat.dvd_of_mod_eq_zero (isFrame_and_mask e).1)).symm

/-- A space all of whose tables were free in `start` can be destroyed. -/
theorem AsInv.destroy_since {start : Pmm} {k : Kmem} {root : Nat} (h : AsInv k root)
    (hStart : start.Ready) (hReady : k.pmm.Ready)
    (hFixed : k.pmm = { start with bitmap := k.pmm.bitmap, usedFrames := k.pmm.usedFrames })
    (hTables : ∀ f, k.TableFrame root f → Bitmap.isSet start.bitmap f = false) :
    ∃ k', vmmDestroyAddressSpace k root = .ok k' ∧ k.pmm.Freed k'.pmm (k.TableFrame root) := by
  have hTotal : k.pmm.totalFrames = start.totalFrames := by rw [hFixed]
  have hEnd : k.pmm.bitmapEnd = start.bitmapEnd := by rw [hFixed]; rfl
  refine h.destroy_freed hReady ?_ fun f hTable => ?_
  · obtain ⟨f, hEq, hLt, _⟩ := h.owned [] root TablePath.nil rfl
    have hPos := hStart.pos (hTotal ▸ hLt) (hTables f ⟨[], TablePath.nil, congrArg some hEq⟩)
    rw [hEq]
    simp only [pmmPageSize]
    omega
  · obtain ⟨hLt, hSet⟩ := h.tableFrame_set hTable
    exact ⟨hLt, hSet, hEnd ▸ hStart.above (hTotal ▸ hLt) (hTables f hTable)⟩

/-- Destroying the space gives back its tables and keeps its pages: the number
of free frames returns to what it was exactly if no page is mapped. -/
theorem Owned.destroy {start : Pmm} {k : Kmem} {root : Nat} (h : Owned start k root noSpare)
    (hStart : start.Ready) :
    ∃ k', vmmDestroyAddressSpace k root = .ok k' ∧
      (pmmFreeFrames k'.pmm = pmmFreeFrames start ↔ ∀ va < 2 ^ 47, k.leafOf root va = none) := by
  obtain ⟨k', hDestroy, hFreed⟩ := h.inv.destroy_since hStart h.ready h.fixed h.tables
  refine ⟨k', hDestroy, ?_⟩
  have hBit (f : Nat) : Bitmap.isSet k'.pmm.bitmap f = true ↔
      Bitmap.isSet start.bitmap f = true ∨ k.LeafFrame root f := by
    rw [hFreed.bits f]
    constructor
    · rintro ⟨hSet, hNotTable⟩
      rcases h.taken f hSet with hOld | hTable | hLeaf | hSpare
      · exact Or.inl hOld
      · exact absurd hTable hNotTable
      · exact Or.inr hLeaf
      · exact hSpare.elim
    · rintro (hOld | hLeaf)
      · refine ⟨h.kept f hOld, fun hTable => ?_⟩
        simp [h.tables f hTable] at hOld
      · obtain ⟨_, hSet, _, hNot⟩ := h.pages f (Or.inl hLeaf)
        exact ⟨hSet, hNot⟩
  have hTotal' : k'.pmm.totalFrames = start.totalFrames := by rw [hFreed.fixed, h.fixed]
  have hMem (f : Nat) : f ∈ k'.pmm.clearFrames ↔ f ∈ start.clearFrames ∧ ¬ k.LeafFrame root f := by
    rw [hFreed.ready.consistent.mem_clearFrames, hStart.consistent.mem_clearFrames, hTotal',
      ← Bool.not_eq_true, ← Bool.not_eq_true, hBit, not_or, and_assoc]
  have hSub : k'.pmm.clearFrames ⊆ start.clearFrames := fun f hf => ((hMem f).mp hf).1
  rw [pmmFreeFrames_eq hFreed.ready.consistent, pmmFreeFrames_eq hStart.consistent]
  constructor
  · intro hCard va hva
    by_contra hLeaf
    obtain ⟨f, hf⟩ := Kmem.exists_leafFrame_iff.mpr ⟨va, hva, hLeaf⟩
    obtain ⟨hLt, _, hClear, _⟩ := h.pages f (Or.inl hf)
    have hIn : f ∈ start.clearFrames := hStart.consistent.mem_clearFrames.mpr ⟨hLt, hClear⟩
    rw [← Finset.eq_of_subset_of_card_le hSub (by omega)] at hIn
    exact ((hMem f).mp hIn).2 hf
  · intro hNone
    have hEq : k'.pmm.clearFrames = start.clearFrames := by
      ext f
      rw [hMem f]
      refine ⟨And.left, fun hf => ⟨hf, ?_⟩⟩
      rintro ⟨va, hva, e, hLeaf, _⟩
      simp [hNone va hva] at hLeaf
    rw [hEq]

end Kryos.Memory
