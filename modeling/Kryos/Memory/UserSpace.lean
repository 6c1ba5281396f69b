import Kryos.Memory.FrameOwnership

/-! The frames of one address space, set apart from the frames of everybody
else. Work on the space writes only into its own tables and into frames that
were free, so whatever belongs to others stays as it is. -/
namespace Kryos.Memory

open Radix

variable {a table i frame phys root va e : Nat} {path : List Nat} {k k' k'' : Kmem}
  {foreign foreign' : Nat → Prop}

theorem OwnWrites.of_take (h : OwnWrites { k with pmm := k.pmm.take frame } k' root) :
    OwnWrites k k' root := by
  refine ⟨h.cr3, ?_⟩
  intro a hNe
  rcases h.words a hNe with hSlot | hFree
  · exact Or.inl hSlot
  · right
    simp only [Pmm.take, Bitmap.isSet_set, Bool.or_eq_false_iff] at hFree
    exact hFree.2

/-- `vmm_map_page` up to and including the first page of the hole, which it
refuses. -/
theorem AsInv.mapPage_user (h : AsInv k root) (hReady : k.pmm.Ready) (hva : va ≤ 2 ^ 47)
    (hPhys : IsFrame phys) (flags : Nat) :
    LeafUpdate k (vmmMapPage k root va phys flags).2 root va (vmmMapPage k root va phys flags).1
      (some (leafEntry phys flags)) ∧
    ((vmmMapPage k root va phys flags).1 = true → va < 2 ^ 47 ∧ k.leafOf root va = none) := by
  rcases Nat.lt_or_eq_of_le hva with hUser | rfl
  · obtain ⟨hUpdate, hFree⟩ := h.mapPage hReady hUser hPhys flags
    exact ⟨hUpdate, fun hOk => ⟨hUser, (hFree hOk).2⟩⟩
  · rw [vmmMapPage_hole]
    exact ⟨LeafUpdate.refused h hReady (Grows.refl h) _, by simp⟩

/-! ### Ownership -/

/-- The tables and pages of the space are distinct allocated frames, none of
them `foreign`; no frame is mapped at two pages. The `spare` frames are
allocated but not mapped yet. -/
structure Space (k : Kmem) (root : Nat) (foreign spare : Nat → Prop) : Prop where
  inv : AsInv k root
  ready : k.pmm.Ready
  others : ∀ f, foreign f → Bitmap.isSet k.pmm.bitmap f = true
  tables : ∀ f, k.TableFrame root f →
    (f * pmmPageSize = root ∨ k.pmm.bitmapEnd ≤ f * pmmPageSize) ∧ ¬ foreign f
  pages : ∀ f, k.LeafFrame root f ∨ spare f →
    f < k.pmm.totalFrames ∧ Bitmap.isSet k.pmm.bitmap f = true ∧
    k.pmm.bitmapEnd ≤ f * pmmPageSize ∧ ¬ foreign f ∧ ¬ k.TableFrame root f
  once : ∀ va < 2 ^ 47, ∀ vb < 2 ^ 47, ∀ e e', k.leafOf root va = some e →
    k.leafOf root vb = some e' → e &&& pteFrameMask = e' &&& pteFrameMask →
    va / pmmPageSize = vb / pmmPageSize
  unmapped : ∀ f, spare f → ¬ k.LeafFrame root f

theorem Space.of_empty (hReady : k.pmm.Ready) (hEmpty : ∀ i < 256, k.mem (slot root i) = 0)
    (hRoot : root = frame * pmmPageSize) (hLt : frame < k.pmm.totalFrames)
    (hSet : Bitmap.isSet k.pmm.bitmap frame = true)
    (hOthers : ∀ f, foreign f → Bitmap.isSet k.pmm.bitmap f = true) (hApart : ¬ foreign frame) :
    Space k root foreign noSpare := by
  have hNoLeaf (f : Nat) : ¬ (k.LeafFrame root f ∨ noSpare f) := by
    rintro (⟨va, hva, e, hLeaf, _⟩ | hSpare)
    · simp [leafOf_of_empty hEmpty hva] at hLeaf
    · exact hSpare
  refine ⟨AsInv.of_empty hEmpty hRoot hLt hSet, hReady, hOthers, ?_,
    fun f hf => absurd hf (hNoLeaf f), ?_, fun _ hSpare => hSpare.elim⟩
  · rintro f ⟨path, hPath, hTable⟩
    obtain rfl := PmmClient.Holds.page_mul_inj ((table_of_empty hEmpty hPath hTable).2.trans hRoot)
    exact ⟨Or.inl hRoot.symm, hApart⟩
  · intro va hva _ _ e _ hLeaf
    simp [leafOf_of_empty hEmpty hva] at hLeaf

theorem Space.create (hReady : k.pmm.Ready)
    (hOthers : ∀ f, foreign f → Bitmap.isSet k.pmm.bitmap f = true)
    (hCreate : vmmCreateAddressSpace k = (some root, k')) : Space k' root foreign noSpare := by
  obtain ⟨⟨frame, _, hRoot, hLt, hClear, hTake⟩, hEmpty⟩ :=
    vmmCreateAddressSpace_some hReady hCreate
  refine Space.of_empty (AsInv.create hReady hCreate).2 hEmpty hRoot ?_ ?_ ?_ ?_
  · rw [hTake]
    exact hLt
  · simp [hTake, Pmm.take]
  · intro f hf
    simp [hTake, Pmm.take, hOthers f hf]
  · intro hForeign
    simp [hOthers frame hForeign] at hClear

namespace Space

variable {k k' : Kmem} {root frame : Nat} {foreign spare spare' : Nat → Prop}

/-- The tree grows; every page or spare frame was one before. -/
theorem update (h : Space k root foreign spare) (hInv : AsInv k' root) (hReady : k'.pmm.Ready)
    (hGrow : TablesGrow k k' root)
    (hPages : ∀ f, k'.LeafFrame root f ∨ spare' f → k.LeafFrame root f ∨ spare f)
    (hOnce : ∀ va < 2 ^ 47, ∀ vb < 2 ^ 47, ∀ e e', k'.leafOf root va = some e →
      k'.leafOf root vb = some e' → e &&& pteFrameMask = e' &&& pteFrameMask →
      va / pmmPageSize = vb / pmmPageSize)
    (hUnmapped : ∀ f, spare' f → ¬ k'.LeafFrame root f) : Space k' root foreign spare' := by
  have hTotal : k'.pmm.totalFrames = k.pmm.totalFrames := by rw [hGrow.fixed]
  have hEnd : k'.pmm.bitmapEnd = k.pmm.bitmapEnd := by rw [hGrow.fixed]; rfl
  refine ⟨hInv, hReady, ?_, ?_, ?_, hOnce, hUnmapped⟩
  · intro f hf
    exact (hGrow.frames f).mpr (Or.inl (h.others f hf))
  · intro f hTable
    rw [hEnd]
    rcases hGrow.fresh f hTable with hOld | hFree
    · exact h.tables f hOld
    · refine ⟨Or.inr (h.ready.above (hTotal ▸ (hInv.tableFrame_set hTable).1) hFree), ?_⟩
      intro hForeign
      simp [h.others f hForeign] at hFree
  · intro f hPage
    obtain ⟨hLt, hSet, hAbove, hForeign, hNot⟩ := h.pages f (hPages f hPage)
    refine ⟨hTotal ▸ hLt, (hGrow.frames f).mpr (Or.inl hSet), hEnd ▸ hAbove, hForeign, ?_⟩
    intro hTable
    rcases hGrow.fresh f hTable with hOld | hFree
    · exact hNot hOld
    · simp [hSet] at hFree

theorem sameLeaves (h : Space k root foreign spare) (hInv : AsInv k' root) (hReady : k'.pmm.Ready)
    (hGrow : TablesGrow k k' root)
    (hLeaves : ∀ va < 2 ^ 47, k'.leafOf root va = k.leafOf root va) :
    Space k' root foreign spare := by
  have hFrame {f : Nat} (hLeaf : k'.LeafFrame root f) : k.LeafFrame root f := by
    obtain ⟨va, hva, e, he, hMask⟩ := hLeaf
    exact ⟨va, hva, e, hLeaves va hva ▸ he, hMask⟩
  apply h.update hInv hReady hGrow
  · intro f hPage
    exact hPage.imp_left hFrame
  · intro va hva vb hvb e e' he he'
    rw [hLeaves va hva] at he
    rw [hLeaves vb hvb] at he'
    exact h.once va hva vb hvb e e' he he'
  · intro f hSpare hLeaf
    exact h.unmapped f hSpare (hFrame hLeaf)

theorem refused (h : Space k root foreign spare) {changed : Option Nat}
    (hUpdate : LeafUpdate k k' root va false changed) : Space k' root foreign spare := by
  apply h.sameLeaves hUpdate.inv hUpdate.ready hUpdate.growth
  intro vb hvb
  rw [hUpdate.leaves vb hvb, if_neg (by simp)]

/-- A successful `vmm_map_page` turns the spare frame into a page. -/
theorem mapped (h : Space k root foreign (· = frame))
    (hUpdate : LeafUpdate k k' root va true (some e))
    (hFrame : e &&& pteFrameMask = frame * pmmPageSize) : Space k' root foreign noSpare := by
  have hCases {vb e' : Nat} (hvb : vb < 2 ^ 47) (hLeaf : k'.leafOf root vb = some e') :
      (vb / pmmPageSize = va / pmmPageSize ∧ e' = e) ∨ k.leafOf root vb = some e' := by
    rw [hUpdate.leaves vb hvb] at hLeaf
    split at hLeaf
    · rename_i hSame
      exact Or.inl ⟨hSame.2, (Option.some.inj hLeaf).symm⟩
    · exact Or.inr hLeaf
  -- an old leaf cannot show the frame that was in hand
  have hOther {vb e' : Nat} (hvb : vb < 2 ^ 47) (hLeaf : k.leafOf root vb = some e')
      (hMask : e' &&& pteFrameMask = e &&& pteFrameMask) : False :=
    h.unmapped frame rfl ⟨vb, hvb, e', hLeaf, hMask.trans hFrame⟩
  apply h.update hUpdate.inv hUpdate.ready hUpdate.growth
  · rintro f (⟨vb, hvb, e', hLeaf, hMask⟩ | hSpare)
    · rcases hCases hvb hLeaf with ⟨_, rfl⟩ | hOld
      · exact Or.inr (PmmClient.Holds.page_mul_inj (hMask.symm.trans hFrame))
      · exact Or.inl ⟨vb, hvb, e', hOld, hMask⟩
    · exact hSpare.elim
  · intro vb hvb vc hvc e₁ e₂ h₁ h₂ hMask
    rcases hCases hvb h₁ with ⟨hPage, rfl⟩ | hOld₁ <;>
      rcases hCases hvc h₂ with ⟨hPage', rfl⟩ | hOld₂
    · exact hPage.trans hPage'.symm
    · exact (hOther hvc hOld₂ hMask.symm).elim
    · exact (hOther hvb hOld₁ hMask).elim
    · exact h.once vb hvb vc hvc e₁ e₂ hOld₁ hOld₂ hMask
  · intro f hSpare
    exact hSpare.elim

/-- A successful `vmm_unmap_page` puts the frame of the page in hand. -/
theorem unmap (h : Space k root foreign noSpare) (hva : va < 2 ^ 47)
    (hUpdate : LeafUpdate k k' root va true none) (hLeaf : k.leafOf root va = some e)
    (hFrame : e &&& pteFrameMask = frame * pmmPageSize) : Space k' root foreign (· = frame) := by
  have hOld {vb e' : Nat} (hvb : vb < 2 ^ 47) (hSome : k'.leafOf root vb = some e') :
      vb / pmmPageSize ≠ va / pmmPageSize ∧ k.leafOf root vb = some e' := by
    rw [hUpdate.leaves vb hvb] at hSome
    split at hSome
    · cases hSome
    · rename_i hNe
      exact ⟨fun hPage => hNe ⟨rfl, hPage⟩, hSome⟩
  apply h.update hUpdate.inv hUpdate.ready hUpdate.growth
  · rintro f (⟨vb, hvb, e', hSome, hMask⟩ | rfl)
    · exact Or.inl ⟨vb, hvb, e', (hOld hvb hSome).2, hMask⟩
    · exact Or.inl ⟨va, hva, e, hLeaf, hFrame⟩
  · intro vb hvb vc hvc e₁ e₂ h₁ h₂
    exact h.once vb hvb vc hvc e₁ e₂ (hOld hvb h₁).2 (hOld hvc h₂).2
  · rintro f rfl ⟨vb, hvb, e', hSome, hMask⟩
    obtain ⟨hNe, hKept⟩ := hOld hvb hSome
    exact hNe (h.once vb hvb va hva e' e hKept hLeaf (hMask.trans hFrame.symm))

theorem take (h : Space k root foreign noSpare) (hLt : frame < k.pmm.totalFrames)
    (hClear : Bitmap.isSet k.pmm.bitmap frame = false) :
    Space { k with pmm := k.pmm.take frame } root foreign (· = frame) := by
  have hBit (f : Nat) : Bitmap.isSet (k.pmm.take frame).bitmap f = true ↔
      f = frame ∨ Bitmap.isSet k.pmm.bitmap f = true := by
    simp [Pmm.take]
  refine ⟨⟨h.inv.unique, ?_, h.inv.inner, h.inv.perms⟩, h.ready.take hLt hClear, ?_, h.tables, ?_,
    h.once, ?_⟩
  · intro path table hPath hTable
    obtain ⟨f, hEq, hfLt, hSet⟩ := h.inv.owned path table hPath hTable
    exact ⟨f, hEq, hfLt, (hBit f).mpr (Or.inr hSet)⟩
  · intro f hf
    exact (hBit f).mpr (Or.inr (h.others f hf))
  · rintro f (hLeaf | rfl)
    · obtain ⟨hfLt, hSet, hRest⟩ := h.pages f (Or.inl hLeaf)
      exact ⟨hfLt, (hBit f).mpr (Or.inr hSet), hRest⟩
    · refine ⟨hLt, (hBit f).mpr (Or.inl rfl), h.ready.above hLt hClear, ?_, ?_⟩
      · intro hForeign
        simp [h.others f hForeign] at hClear
      · intro hTable
        have hSet := (h.inv.tableFrame_set hTable).2
        simp [hClear] at hSet
  · rintro f rfl hLeaf
    have hSet := (h.pages f (Or.inl hLeaf)).2.1
    simp [hClear] at hSet

theorem release (h : Space k root foreign (· = frame)) :
    ∃ p', pmmFreePage k.pmm (frame * pmmPageSize) = .ok p' ∧ k.pmm.Freed p' (· = frame) ∧
      Space { k with pmm := p' } root foreign noSpare := by
  obtain ⟨hLt, hSet, hAbove, hForeign, hNotTable⟩ := h.pages frame (Or.inr rfl)
  obtain ⟨p', hFree, hFreed⟩ := pmmFreePage_freed h.ready
    (by rintro f rfl; exact ⟨hLt, hSet, hAbove⟩)
  have hKeep {f : Nat} (hBit : Bitmap.isSet k.pmm.bitmap f = true) (hNe : f ≠ frame) :
      Bitmap.isSet p'.bitmap f = true := (hFreed.bits f).mpr ⟨hBit, hNe⟩
  have hTotal : p'.totalFrames = k.pmm.totalFrames := by rw [hFreed.fixed]
  have hEnd : p'.bitmapEnd = k.pmm.bitmapEnd := by rw [hFreed.fixed]; rfl
  refine ⟨p', hFree, hFreed, ⟨h.inv.unique, ?_, h.inv.inner, h.inv.perms⟩, hFreed.ready, ?_, ?_, ?_,
    h.once, fun _ hSpare => hSpare.elim⟩
  · intro path table hPath hTable
    obtain ⟨f, rfl, hfLt, hBit⟩ := h.inv.owned path table hPath hTable
    refine ⟨f, rfl, hTotal ▸ hfLt, hKeep hBit ?_⟩
    rintro rfl
    exact hNotTable ⟨path, hPath, hTable⟩
  · intro f hf
    refine hKeep (h.others f hf) ?_
    rintro rfl
    exact hForeign hf
  · intro f hTable
    exact hEnd.symm ▸ h.tables f hTable
  · rintro f (hLeaf | hSpare)
    · obtain ⟨hfLt, hBit, hHigh, hRest⟩ := h.pages f (Or.inl hLeaf)
      refine ⟨hTotal ▸ hfLt, hKeep hBit ?_, hEnd ▸ hHigh, hRest⟩
      rintro rfl
      exact h.unmapped f rfl hLeaf
    · exact hSpare.elim

/-- Stores outside the tables leave everything else alone. -/
theorem outsideWrite (h : Space k root foreign spare) (hWrite : FrameWrite k k' frame)
    (hNot : ¬ k.TableFrame root frame) :
    Space k' root foreign spare ∧ ∀ va < 2 ^ 47, k'.leafOf root va = k.leafOf root va := by
  have hTables := hWrite.leavesTables h.inv h.ready hNot
  have hLeaves : ∀ va < 2 ^ 47, k'.leafOf root va = k.leafOf root va :=
    fun va hva => hTables.leafOf_eq hva
  exact ⟨h.sameLeaves (hTables.asInv h.inv) hTables.ready
    (TablesGrow.of_table_eq h.inv (fun _ hPath => hTables.table_eq hPath) hWrite.pmm) hLeaves,
      hLeaves⟩

/-- The foreign frames can be any other allocated frames. -/
theorem refit (h : Space k root foreign noSpare)
    (hSet : ∀ f, foreign' f → Bitmap.isSet k.pmm.bitmap f = true)
    (hApart : ∀ f, foreign' f → ¬ (k.TableFrame root f ∨ k.LeafFrame root f)) :
    Space k root foreign' noSpare where
  inv := h.inv
  ready := h.ready
  others := hSet
  tables := fun f hf => ⟨(h.tables f hf).1, fun hForeign => hApart f hForeign (Or.inl hf)⟩
  pages := by
    rintro f (hLeaf | hSpare)
    · obtain ⟨hLt, hBit, hAbove, _, hNot⟩ := h.pages f (Or.inl hLeaf)
      exact ⟨hLt, hBit, hAbove, fun hForeign => hApart f hForeign (Or.inr hLeaf), hNot⟩
    · exact hSpare.elim
  once := h.once
  unmapped := fun _ hSpare => hSpare.elim

end Space

/-! ### Steps -/

/-- A frame that serves as a table or as a page of the lower half. -/
def Kmem.OwnFrame (k : Kmem) (root f : Nat) : Prop := k.TableFrame root f ∨ k.LeafFrame root f

/-- The owner of the space worked on it. Foreign words and the kernel half of
the PML4 are as before; the frames it has now it had before or were free; the
frames it gave up were its own. -/
structure SpaceStep (k k' : Kmem) (root : Nat) (foreign : Nat → Prop) : Prop where
  space : Space k' root foreign noSpare
  fixed : k'.pmm = { k.pmm with bitmap := k'.pmm.bitmap, usedFrames := k'.pmm.usedFrames }
  cr3 : k'.cr3 = k.cr3
  words : ∀ a, foreign (a / pmmPageSize) → k'.mem a = k.mem a
  upper : ∀ i, 256 ≤ i → i < 512 → k'.mem (slot root i) = k.mem (slot root i)
  frames : ∀ f, k'.OwnFrame root f →
    k.OwnFrame root f ∨ Bitmap.isSet k.pmm.bitmap f = false
  bits : ∀ f, Bitmap.isSet k.pmm.bitmap f = true →
    Bitmap.isSet k'.pmm.bitmap f = true ∨ k.OwnFrame root f

namespace LeavesTables

variable {k k' : Kmem} {root : Nat}

theorem tableFrame_iff (h : LeavesTables k k' root) (f : Nat) :
    k'.TableFrame root f ↔ k.TableFrame root f := by
  apply exists_congr
  intro path
  apply and_congr_right
  intro hPath
  rw [h.table_eq hPath]

theorem leafFrame_iff (h : LeavesTables k k' root) (f : Nat) :
    k'.LeafFrame root f ↔ k.LeafFrame root f := by
  apply exists_congr
  intro va
  apply and_congr_right
  intro hva
  rw [h.leafOf_eq hva]

theorem ownFrame_iff (h : LeavesTables k k' root) (f : Nat) :
    k'.OwnFrame root f ↔ k.OwnFrame root f :=
  or_congr (h.tableFrame_iff f) (h.leafFrame_iff f)

end LeavesTables

namespace SpaceStep

variable {k k' k'' : Kmem} {root : Nat} {foreign : Nat → Prop}

theorem refl (h : Space k root foreign noSpare) : SpaceStep k k root foreign where
  space := h
  fixed := rfl
  cr3 := rfl
  words := fun _ _ => rfl
  upper := fun _ _ _ => rfl
  frames := fun _ => Or.inl
  bits := fun _ => Or.inl

theorem trans (h : SpaceStep k k' root foreign) (h' : SpaceStep k' k'' root foreign) :
    SpaceStep k k'' root foreign where
  space := h'.space
  fixed := by rw [h'.fixed, h.fixed]
  cr3 := h'.cr3.trans h.cr3
  words := fun a ha => (h'.words a ha).trans (h.words a ha)
  upper := fun i hLow hHigh => (h'.upper i hLow hHigh).trans (h.upper i hLow hHigh)
  frames := by
    intro f hOwn
    rcases h'.frames f hOwn with hOwn' | hFree
    · exact h.frames f hOwn'
    · by_cases hSet : Bitmap.isSet k.pmm.bitmap f = true
      · rcases h.bits f hSet with hSet' | hOld
        · simp [hSet'] at hFree
        · exact Or.inl hOld
      · exact Or.inr (by simpa using hSet)
  bits := by
    intro f hSet
    rcases h.bits f hSet with hSet' | hOwn
    · rcases h'.bits f hSet' with hSet'' | hOwn
      · exact Or.inl hSet''
      · rcases h.frames f hOwn with hOld | hFree
        · exact Or.inr hOld
        · simp [hSet] at hFree
    · exact Or.inr hOwn

end SpaceStep

section OwnWritesStep

variable {k k' : Kmem} {root : Nat} {foreign spare spare' : Nat → Prop}

theorem AsInv.upper_frame (h : AsInv k root) (hi : i < 512) :
    k.TableFrame root (slot root i / pmmPageSize) := by
  obtain ⟨g, hRoot, _⟩ := h.owned [] root TablePath.nil rfl
  have hFrame : slot root i / pmmPageSize = g := hRoot ▸ slot_div hi
  exact ⟨[], TablePath.nil, congrArg some (hFrame ▸ hRoot)⟩

/-- The kernel half of the PML4 is no slot of the lower half. -/
theorem AsInv.upper_not_ownSlot (h : AsInv k root) (hLow : 256 ≤ i) (hHigh : i < 512) :
    ¬ k.OwnSlot root (slot root i) := by
  rintro ⟨path, table, j, hPath, hTable, hj, hSlot⟩
  obtain ⟨f, rfl, _⟩ := h.owned path table hPath hTable
  obtain ⟨g, hRoot, _⟩ := h.owned [] root TablePath.nil rfl
  have hLt := hj.1
  have hSame : f = g ∧ j = i := by
    rw [hRoot] at hSlot
    simp only [slot, pmmPageSize] at hSlot
    omega
  obtain ⟨rfl, rfl⟩ := hSame
  have hNil := h.unique path [] _ hPath TablePath.nil hTable (congrArg some hRoot)
  exact absurd (hj.2 hNil) (by omega)

theorem OwnWrites.foreign_words (hWrites : OwnWrites k k' root) (h : Space k root foreign spare)
    (h' : Space k' root foreign spare') (a : Nat) (ha : foreign (a / pmmPageSize)) :
    k'.mem a = k.mem a := by
  by_contra hNe
  rcases hWrites.words a hNe with hSlot | hFree
  · exact (h'.tables _ (h'.inv.ownSlot_frame hSlot)).2 ha
  · simp [h.others _ ha] at hFree

theorem OwnWrites.upper_words (hWrites : OwnWrites k k' root) (h : AsInv k root)
    (h' : AsInv k' root) (i : Nat) (hLow : 256 ≤ i) (hHigh : i < 512) :
    k'.mem (slot root i) = k.mem (slot root i) := by
  by_contra hNe
  rcases hWrites.words _ hNe with hSlot | hFree
  · exact h'.upper_not_ownSlot hLow hHigh hSlot
  · rw [(h.tableFrame_set (h.upper_frame hHigh)).2] at hFree
    cases hFree

theorem OwnWrites.spaceStep (hWrites : OwnWrites k k' root) (h : Space k root foreign spare)
    (h' : Space k' root foreign noSpare)
    (hFixed : k'.pmm = { k.pmm with bitmap := k'.pmm.bitmap, usedFrames := k'.pmm.usedFrames })
    (hFrames : ∀ f, k'.OwnFrame root f →
      k.OwnFrame root f ∨ Bitmap.isSet k.pmm.bitmap f = false)
    (hBits : ∀ f, Bitmap.isSet k.pmm.bitmap f = true →
      Bitmap.isSet k'.pmm.bitmap f = true ∨ k.OwnFrame root f) : SpaceStep k k' root foreign where
  space := h'
  fixed := hFixed
  cr3 := hWrites.cr3
  words := hWrites.foreign_words h h'
  upper := hWrites.upper_words h.inv h'.inv
  frames := hFrames
  bits := hBits

end OwnWritesStep

theorem Space.frameWrite_step (h : Space k root foreign noSpare) (hPage : k.LeafFrame root frame)
    (hWrite : FrameWrite k k' frame) (hCr3 : k'.cr3 = k.cr3) : SpaceStep k k' root foreign := by
  obtain ⟨_, _, _, hForeign, hTable⟩ := h.pages frame (Or.inl hPage)
  have hTables := hWrite.leavesTables h.inv h.ready hTable
  refine ⟨(h.outsideWrite hWrite hTable).1, by rw [hWrite.pmm], hCr3, ?_, ?_,
    fun f hOwn => Or.inl ((hTables.ownFrame_iff f).mp hOwn), fun f hSet =>
      Or.inl (hWrite.pmm ▸ hSet)⟩
  · intro a ha
    apply hWrite.outside
    rintro rfl
    exact hForeign ha
  · intro i _ hHigh
    apply hWrite.outside
    rintro rfl
    exact hTable (h.inv.upper_frame hHigh)

/-! ### Interference -/

/-- Something else happened: it left the frames of the space allocated and their
contents alone. -/
structure Undisturbed (k k' : Kmem) (root : Nat) : Prop where
  ready : k'.pmm.Ready
  fixed : k'.pmm = { k.pmm with bitmap := k'.pmm.bitmap, usedFrames := k'.pmm.usedFrames }
  words : ∀ a, k.OwnFrame root (a / pmmPageSize) → k'.mem a = k.mem a
  bits : ∀ f, k.OwnFrame root f → Bitmap.isSet k'.pmm.bitmap f = true

namespace Undisturbed

variable {k k' : Kmem} {root : Nat}

section

variable (h : Undisturbed k k' root) (hInv : AsInv k root)

include h hInv

theorem leavesTables : LeavesTables k k' root where
  ready := h.ready
  slots := fun a hSlot => h.words a (Or.inl (hInv.ownSlot_frame hSlot))
  held := by
    intro f hTable
    have hTotal : k'.pmm.totalFrames = k.pmm.totalFrames := by rw [h.fixed]
    exact ⟨hTotal ▸ (hInv.tableFrame_set hTable).1, h.bits f (Or.inl hTable)⟩

theorem leafOf_eq (hva : va < 2 ^ 47) :
    k'.leafOf root va = k.leafOf root va := (h.leavesTables hInv).leafOf_eq hva

theorem ownFrame_iff (f : Nat) :
    k'.OwnFrame root f ↔ k.OwnFrame root f := (h.leavesTables hInv).ownFrame_iff f

theorem trans (h' : Undisturbed k' k'' root) :
    Undisturbed k k'' root where
  ready := h'.ready
  fixed := by rw [h'.fixed, h.fixed]
  words := fun a ha => (h'.words a ((h.ownFrame_iff hInv _).mpr ha)).trans (h.words a ha)
  bits := fun f hf => h'.bits f ((h.ownFrame_iff hInv f).mpr hf)

end

theorem space (h : Undisturbed k k' root) (hSpace : Space k root foreign noSpare)
    (hSet : ∀ f, foreign' f → Bitmap.isSet k'.pmm.bitmap f = true)
    (hApart : ∀ f, foreign' f → ¬ k.OwnFrame root f) : Space k' root foreign' noSpare := by
  have hTotal : k'.pmm.totalFrames = k.pmm.totalFrames := by rw [h.fixed]
  have hEnd : k'.pmm.bitmapEnd = k.pmm.bitmapEnd := by rw [h.fixed]; rfl
  have hInv := hSpace.inv
  have hTables := h.leavesTables hInv
  refine ⟨hTables.asInv hInv, h.ready, hSet, ?_, ?_, ?_, fun _ hSpare => hSpare.elim⟩
  · intro f hTable
    rw [hTables.tableFrame_iff] at hTable
    rw [hEnd]
    exact ⟨(hSpace.tables f hTable).1, fun hForeign => hApart f hForeign (Or.inl hTable)⟩
  · rintro f (hLeaf | hSpare)
    · rw [hTables.leafFrame_iff] at hLeaf
      obtain ⟨hLt, _, hAbove, _, hNot⟩ := hSpace.pages f (Or.inl hLeaf)
      refine ⟨hTotal ▸ hLt, h.bits f (Or.inr hLeaf), hEnd ▸ hAbove,
        fun hForeign => hApart f hForeign (Or.inr hLeaf), ?_⟩
      rwa [hTables.tableFrame_iff]
    · exact hSpare.elim
  · intro va hva vb hvb e e' he he'
    rw [h.leafOf_eq hInv hva] at he
    rw [h.leafOf_eq hInv hvb] at he'
    exact hSpace.once va hva vb hvb e e' he he'

end Undisturbed

/-! ### A page on a new frame -/

/-- Take a frame and map it, or give it back. The result is the frame. -/
def mapNewPage (k : Kmem) (root page flags : Nat) : Except PmmPanic (Option Nat × Kmem) :=
  let (phys, pmm) := pmmAllocPage k.pmm
  let k := { k with pmm := pmm }
  if phys == 0 then .ok (none, k)
  else
    match vmmMapPage k root page phys flags with
    | (false, k) =>
      match pmmFreePage k.pmm phys with
      | .error reason => .error reason
      | .ok pmm => .ok (none, { k with pmm := pmm })
    | (true, k) => .ok (some phys, k)

/-- What it did to the allocator and to the leaves. -/
structure NewPage (k k' : Kmem) (root page flags : Nat) (result : Option Nat) : Prop where
  kept : ∀ f, Bitmap.isSet k.pmm.bitmap f = true → Bitmap.isSet k'.pmm.bitmap f = true
  refused : result = none → ∀ va < 2 ^ 47, k'.leafOf root va = k.leafOf root va
  mapped : ∀ phys, result = some phys → page < 2 ^ 47 ∧ IsFrame phys ∧
    Bitmap.isSet k.pmm.bitmap (phys / pmmPageSize) = false ∧
    ∀ va < 2 ^ 47, k'.leafOf root va = if va / pmmPageSize = page / pmmPageSize then
      some (leafEntry phys flags) else k.leafOf root va

/-- The space has only gained frames, and the allocator gave out no others. -/
structure Gains (k k' : Kmem) (root : Nat) : Prop where
  own : ∀ f, k.OwnFrame root f → k'.OwnFrame root f
  taken : ∀ f, Bitmap.isSet k'.pmm.bitmap f = true →
    Bitmap.isSet k.pmm.bitmap f = true ∨ k'.OwnFrame root f

theorem Gains.trans (h : Gains k k' root) (h' : Gains k' k'' root) :
    Gains k k'' root where
  own := fun f hOwn => h'.own f (h.own f hOwn)
  taken := fun f hSet => (h'.taken f hSet).elim (fun hOld => (h.taken f hOld).imp_right (h'.own f))
    Or.inr

theorem Space.frameWrite_gains (h : Space k root foreign noSpare) (hPage : k.LeafFrame root frame)
    (hWrite : FrameWrite k k' frame) : Gains k k' root where
  own := fun f hOwn => ((hWrite.leavesTables h.inv h.ready
    (h.pages frame (Or.inl hPage)).2.2.2.2).ownFrame_iff f).mpr hOwn
  taken := fun _ hSet => Or.inl (hWrite.pmm ▸ hSet)

/-- All that is known after a page was put on a new frame, or was not. -/
structure PageStep (k k' : Kmem) (root : Nat) (foreign : Nat → Prop) (page flags : Nat)
    (result : Option Nat) : Prop where
  step : SpaceStep k k' root foreign
  page : NewPage k k' root page flags result
  writes : OwnWrites k k' root
  gains : Gains k k' root

section Hand

variable {k k' : Kmem} {root page frame f : Nat} {success : Bool} {changed : Option Nat}
  (hUpdate : LeafUpdate { k with pmm := k.pmm.take frame } k' root page success changed)

include hUpdate

/-- With a frame in hand tables may be added, whether the page is mapped or not. -/
theorem hand_kept (hSet : Bitmap.isSet k.pmm.bitmap f = true) :
    Bitmap.isSet k'.pmm.bitmap f = true :=
  (hUpdate.growth.frames f).mpr (Or.inl (by simp [Pmm.take, hSet]))

theorem hand_source (hSet : Bitmap.isSet k'.pmm.bitmap f = true) (hNe : f ≠ frame) :
    Bitmap.isSet k.pmm.bitmap f = true ∨ k'.OwnFrame root f := by
  rcases (hUpdate.growth.frames f).mp hSet with hOld | hTable
  · left
    simpa [Pmm.take, hNe] using hOld
  · exact Or.inr (Or.inl hTable)

theorem hand_table (hTable : k'.TableFrame root f) :
    k.OwnFrame root f ∨ Bitmap.isSet k.pmm.bitmap f = false := by
  rcases hUpdate.growth.fresh f hTable with hOld | hNew
  · exact Or.inl (Or.inl hOld)
  · right
    simp only [Pmm.take, Bitmap.isSet_set, Bool.or_eq_false_iff] at hNew
    exact hNew.2

end Hand

section MapNewPage

variable {k k' : Kmem} {root page frame : Nat} {foreign : Nat → Prop}
  (h : Space k root foreign noSpare) (hLt : frame < k.pmm.totalFrames)
  (hClear : Bitmap.isSet k.pmm.bitmap frame = false) (flags : Nat)

include h hLt hClear

theorem Space.refused_step {changed : Option Nat}
    (hUpdate : LeafUpdate { k with pmm := k.pmm.take frame } k' root page false changed) :
    ∃ p', pmmFreePage k'.pmm (frame * pmmPageSize) = .ok p' ∧
      PageStep k { k' with pmm := p' } root foreign page flags none := by
  obtain ⟨p', hRelease, hFreed, hSpace⟩ := ((h.take hLt hClear).refused hUpdate).release
  have hLeaves : ∀ va < 2 ^ 47, k'.leafOf root va = k.leafOf root va :=
    fun va hva => (hUpdate.leaves va hva).trans (if_neg (by simp))
  have hOwn := hUpdate.writes.of_take
  have hWrites : OwnWrites k { k' with pmm := p' } root := ⟨hOwn.cr3, hOwn.words⟩
  have hStill (f : Nat) (hSet : Bitmap.isSet k.pmm.bitmap f = true) :
      Bitmap.isSet p'.bitmap f = true := by
    refine (hFreed.bits f).mpr ⟨hand_kept hUpdate hSet, ?_⟩
    rintro rfl
    simp [hClear] at hSet
  refine ⟨p', hRelease, hWrites.spaceStep h hSpace ?_ ?_ (fun f hSet => Or.inl (hStill f hSet)),
    ⟨hStill, fun _ => hLeaves, by simp⟩, hWrites, ⟨?_, ?_⟩⟩
  · rw [hFreed.fixed, hUpdate.growth.fixed]
    rfl
  · rintro f (hTable | ⟨va, hva, e, hLeaf, hMask⟩)
    · exact hand_table hUpdate hTable
    · exact Or.inl (Or.inr ⟨va, hva, e, hLeaves va hva ▸ hLeaf, hMask⟩)
  · rintro f (hTable | ⟨va, hva, e, hLeaf, hMask⟩)
    · exact Or.inl (hUpdate.growth.tableFrame hTable)
    · exact Or.inr ⟨va, hva, e, (hLeaves va hva).trans hLeaf, hMask⟩
  · intro f hSet
    obtain ⟨hBit, hNe⟩ := (hFreed.bits f).mp hSet
    have hSource := hand_source hUpdate hBit hNe
    exact hSource

theorem Space.mapped_step (hPage : page < 2 ^ 47) (hNone : k.leafOf root page = none)
    (hUpdate : LeafUpdate { k with pmm := k.pmm.take frame } k' root page true
      (some (leafEntry (frame * pmmPageSize) flags))) :
    PageStep k k' root foreign page flags (some (frame * pmmPageSize)) := by
  have hPhys : IsFrame (frame * pmmPageSize) := ⟨Nat.mul_mod_left _ _, h.ready.below hLt⟩
  have hFrame := (leafEntry_bits hPhys flags).1
  have hMapped : ∀ va < 2 ^ 47, k'.leafOf root va =
      if va / pmmPageSize = page / pmmPageSize then
        some (leafEntry (frame * pmmPageSize) flags) else k.leafOf root va := by
    intro va hva
    rw [hUpdate.leaves va hva]
    simp only [true_and]
    rfl
  refine ⟨hUpdate.writes.of_take.spaceStep h ((h.take hLt hClear).mapped hUpdate hFrame)
      hUpdate.growth.fixed ?_ (fun f hSet => Or.inl (hand_kept hUpdate hSet)),
    ⟨fun f hSet => hand_kept hUpdate hSet, by simp, ?_⟩, hUpdate.writes.of_take, ⟨?_, ?_⟩⟩
  · rintro f (hTable | ⟨va, hva, e, hSome, hMask⟩)
    · exact hand_table hUpdate hTable
    · rw [hMapped va hva] at hSome
      split at hSome
      · obtain rfl := Option.some.inj hSome
        obtain rfl := PmmClient.Holds.page_mul_inj (hMask.symm.trans hFrame)
        exact Or.inr hClear
      · exact Or.inl (Or.inr ⟨va, hva, e, hSome, hMask⟩)
  · rintro phys ⟨⟩
    refine ⟨hPage, hPhys, ?_, hMapped⟩
    rw [Nat.mul_div_cancel _ (by decide)]
    exact hClear
  · rintro f (hTable | ⟨va, hva, e, hSome, hMask⟩)
    · exact Or.inl (hUpdate.growth.tableFrame hTable)
    · refine Or.inr ⟨va, hva, e, (hMapped va hva).trans ((if_neg ?_).trans hSome), hMask⟩
      intro hSame
      rw [leafOf_page hSame, hNone] at hSome
      cases hSome
  · intro f hSet
    by_cases hNe : f = frame
    · subst hNe
      exact Or.inr (Or.inr ⟨page, hPage, _, (hMapped page hPage).trans (if_pos rfl), hFrame⟩)
    · exact hand_source hUpdate hSet hNe

end MapNewPage

theorem mapNewPage_space (h : Space k root foreign noSpare) {page : Nat} (hPage : page ≤ 2 ^ 47)
    (flags : Nat) :
    ∃ result k', mapNewPage k root page flags = .ok (result, k') ∧
      PageStep k k' root foreign page flags result ∧
      (result ≠ none → k.leafOf root page = none) := by
  unfold mapNewPage
  rcases h.ready.alloc with ⟨_, hFail⟩ | ⟨frame, hPos, hLt, hClear, hAlloc⟩
  · rw [hFail]
    exact ⟨none, k, rfl, ⟨SpaceStep.refl h, ⟨fun _ => id, fun _ _ _ => rfl, by simp⟩,
      OwnWrites.of_mem_eq rfl rfl, ⟨fun _ => id, fun _ => Or.inl⟩⟩, by simp⟩
  have hHand := h.take hLt hClear
  obtain ⟨hUpdate, hFree⟩ := hHand.inv.mapPage_user hHand.ready hPage
    ⟨Nat.mul_mod_left frame pmmPageSize, h.ready.below hLt⟩ flags
  rw [hAlloc]
  simp only [frame_beq_zero hPos, Bool.false_eq_true, if_false]
  generalize vmmMapPage { k with pmm := k.pmm.take frame } root page (frame * pmmPageSize) flags =
    result at *
  obtain ⟨_ | _, k'⟩ := result <;> dsimp only at hUpdate hFree ⊢
  · obtain ⟨p', hRelease, hStep⟩ := h.refused_step hLt hClear flags hUpdate
    exact ⟨none, _, by rw [hRelease], hStep, by simp⟩
  · obtain ⟨hUser, hNone⟩ := hFree rfl
    exact ⟨_, k', rfl, h.mapped_step hLt hClear flags hUser hNone hUpdate, fun _ => hNone⟩

/-! ### Counting from a start -/

/-- The frames that were allocated at the start. -/
def AtStart (start : Pmm) : Nat → Prop := fun f => Bitmap.isSet start.bitmap f = true

theorem Owned.create (hReady : k.pmm.Ready) (hCreate : vmmCreateAddressSpace k = (some root, k')) :
    Space k' root (AtStart k.pmm) noSpare ∧ Owned k.pmm k' root noSpare := by
  have hSpace : Space k' root (AtStart k.pmm) noSpare := Space.create hReady (fun _ => id) hCreate
  obtain ⟨⟨frame, _, hRoot, hLt, hClear, hTake⟩, _⟩ := vmmCreateAddressSpace_some hReady hCreate
  have hTotal : k'.pmm.totalFrames = k.pmm.totalFrames := by rw [hTake]; rfl
  refine ⟨hSpace, hSpace.inv, hSpace.ready, by rw [hTake]; rfl, hSpace.others, ?_, ?_, ?_⟩
  · intro f hSet
    simp only [hTake, Pmm.take, Bitmap.isSet_set, Bool.or_eq_true, decide_eq_true_eq] at hSet
    rcases hSet with rfl | hSet
    · exact Or.inr (Or.inl ⟨[], TablePath.nil, congrArg some hRoot⟩)
    · exact Or.inl hSet
  · intro f hTable
    exact (Bool.not_eq_true _).mp (hSpace.tables f hTable).2
  · intro f hPage
    obtain ⟨hBelow, hSet, _, hNot, hNotTable⟩ := hSpace.pages f hPage
    exact ⟨hTotal ▸ hBelow, hSet, (Bool.not_eq_true _).mp hNot, hNotTable⟩

/-- Work on the space that gives nothing up keeps ownership. -/
theorem Owned.step {start : Pmm} (h : Owned start k root noSpare)
    (hStep : SpaceStep k k' root (AtStart start)) (hGains : Gains k k' root) :
    Owned start k' root noSpare where
  inv := hStep.space.inv
  ready := hStep.space.ready
  fixed := by rw [hStep.fixed, h.fixed]
  kept := hStep.space.others
  taken := by
    intro f hSet
    rcases hGains.taken f hSet with hOld | hOwn
    · rcases h.taken f hOld with hStart | hTable | hLeaf | hSpare
      · exact Or.inl hStart
      · exact Or.inr ((hGains.own f (Or.inl hTable)).imp_right Or.inl)
      · exact Or.inr ((hGains.own f (Or.inr hLeaf)).imp_right Or.inl)
      · exact hSpare.elim
    · exact Or.inr (hOwn.imp_right Or.inl)
  tables := fun f hTable => (Bool.not_eq_true _).mp (hStep.space.tables f hTable).2
  pages := by
    intro f hPage
    obtain ⟨hBelow, hSet, _, hNot, hNotTable⟩ := hStep.space.pages f hPage
    have hTotal : k'.pmm.totalFrames = start.totalFrames := by rw [hStep.fixed, h.fixed]
    exact ⟨hTotal ▸ hBelow, hSet, (Bool.not_eq_true _).mp hNot, hNotTable⟩

end Kryos.Memory
