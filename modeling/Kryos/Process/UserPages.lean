import Kryos.Memory.UserSpace
import Kryos.Process.ElfStages

/-! The pages of one process. The two ways in which a system call changes them
are the allocate, map and clear sequence of the loader and of `sys_brk`, and the
unmap and free sequence of `sys_brk`. -/
namespace Kryos.Process

open Memory

/-- What the allocate, map and clear sequence did. -/
structure FreshPage (k k' : Kmem) (root page flags : Nat) (ok : Bool) : Prop where
  refused : ok = false → ∀ va < 2 ^ 47, k'.leafOf root va = k.leafOf root va
  mapped : ok = true → page < 2 ^ 47 ∧ ∃ frame, IsFrame (frame * pmmPageSize) ∧
    Bitmap.isSet k.pmm.bitmap frame = false ∧
    (∀ va < 2 ^ 47, k'.leafOf root va = if va / pmmPageSize = page / pmmPageSize then
      some (leafEntry (frame * pmmPageSize) flags) else k.leafOf root va) ∧
    ∀ a, a / pmmPageSize = frame → k'.mem a = 0
  gains : Gains k k' root

section Steps

variable {k : Kmem} {root : Nat} {foreign : Nat → Prop} (h : Space k root foreign noSpare)

include h

omit h in
theorem mapFreshPage_eq (page flags : Nat) :
    mapFreshPage k root page flags = (mapNewPage k root page flags).map fun
      | (none, k) => (false, k)
      | (some phys, k) => (true, k.zeroPage phys) := by
  unfold mapFreshPage mapNewPage
  rcases pmmAllocPage k.pmm with ⟨phys, pmm⟩
  dsimp only
  split
  · rfl
  rcases vmmMapPage { k with pmm := pmm } root page phys flags with ⟨_ | _, k'⟩
  · dsimp only
    cases pmmFreePage k'.pmm phys <;> rfl
  · rfl

theorem mapFreshPage_space {page : Nat} (hPage : page ≤ 2 ^ 47) (flags : Nat) :
    ∃ ok k', mapFreshPage k root page flags = .ok (ok, k') ∧ SpaceStep k k' root foreign ∧
      FreshPage k k' root page flags ok := by
  obtain ⟨result, k', hRun, ⟨hStep, hNew, _, hGains⟩, _⟩ := mapNewPage_space h hPage flags
  rw [mapFreshPage_eq, hRun]
  cases result with
  | none => exact ⟨false, k', rfl, hStep, fun _ => hNew.refused rfl, by simp, hGains⟩
  | some phys =>
    obtain ⟨hUser, hPhys, hClear, hLeaves⟩ := hNew.mapped phys rfl
    obtain ⟨frame, rfl⟩ : ∃ frame, phys = frame * pmmPageSize :=
      ⟨phys / pmmPageSize, (Nat.div_mul_cancel (Nat.dvd_of_mod_eq_zero hPhys.1)).symm⟩
    rw [Nat.mul_div_cancel _ (by decide)] at hClear
    have hLeaf : k'.leafOf root page = some (leafEntry (frame * pmmPageSize) flags) := by
      rw [hLeaves page hUser, if_pos rfl]
    have hPage : k'.LeafFrame root frame :=
      ⟨page, hUser, _, hLeaf, (leafEntry_bits hPhys flags).1⟩
    have hWrite := FrameWrite.zeroPage k' frame
    have hSame := (hStep.space.outsideWrite hWrite
      (hStep.space.pages frame (Or.inl hPage)).2.2.2.2).2
    refine ⟨true, _, rfl, hStep.trans (hStep.space.frameWrite_step hPage hWrite rfl), by simp,
      fun _ => ⟨hUser, frame, hPhys, hClear, ?_, ?_⟩,
      hGains.trans (hStep.space.frameWrite_gains hPage hWrite)⟩
    · intro va hva
      rw [hSame va hva, hLeaves va hva]
    · intro a ha
      apply if_pos
      simp only [pmmPageSize] at ha ⊢
      omega

/-- It succeeds exactly where no page is, with a frame for the page and for every
missing table. -/
theorem mapFreshPage_frames {page : Nat} (hPage : page < 2 ^ 47) (hAligned : page % pmmPageSize = 0)
    (flags : Nat) :
    ∃ ok k', mapFreshPage k root page flags = .ok (ok, k') ∧
      (ok = true ↔ k.leafOf root page = none ∧ k.missing root page < k.pmm.clearFrames.card) ∧
      (ok = true →
        k'.pmm.clearFrames.card + k.missing root page + 1 = k.pmm.clearFrames.card) := by
  obtain ⟨ok, k', hRun, _⟩ := mapFreshPage_space h hPage.le flags
  refine ⟨ok, k', hRun, ?_⟩
  unfold mapFreshPage at hRun
  rcases h.ready.alloc with ⟨hEmpty, hFail⟩ | ⟨frame, hPos, hLt, hClear, hAlloc⟩
  · rw [hFail] at hRun
    cases hRun
    simp [hEmpty]
  have hHand := h.take hLt hClear
  have hCard := h.ready.consistent.card_take hLt hClear
  obtain ⟨hMaps, hUsed⟩ := hHand.inv.mapPage_frames hHand.ready hPage hAligned
    ⟨Nat.mul_mod_left frame pmmPageSize, h.ready.below hLt⟩ flags
  have hSame : k.missing root page < k.pmm.clearFrames.card ↔
      k.missing root page ≤ (k.pmm.take frame).clearFrames.card := by omega
  rw [hAlloc] at hRun
  simp only [frame_beq_zero hPos, Bool.false_eq_true, if_false] at hRun
  rw [hSame]
  generalize vmmMapPage { k with pmm := k.pmm.take frame } root page (frame * pmmPageSize) flags =
    result at hRun hMaps hUsed
  obtain ⟨_ | _, k₁⟩ := result <;> dsimp only at hRun hUsed
  · split at hRun <;> cases hRun
    exact ⟨hMaps, by simp⟩
  · cases hRun
    refine ⟨hMaps, fun _ => ?_⟩
    have hLeft : k₁.pmm.clearFrames.card + k.missing root page = _ := hUsed rfl
    change k₁.pmm.clearFrames.card + _ + 1 = _
    omega

theorem unmapFree_space {va phys : Nat} (hva : va < 2 ^ 47) (hAligned : va % pmmPageSize = 0)
    (hPhys : vmmGetPhys k root va = some phys) :
    ∃ p', pmmFreePage (vmmUnmapPage k root va).2.pmm phys = .ok p' ∧
      SpaceStep k { (vmmUnmapPage k root va).2 with pmm := p' } root foreign ∧
      ∀ vb < 2 ^ 47, (vmmUnmapPage k root va).2.leafOf root vb =
        if vb / pmmPageSize = va / pmmPageSize then none else k.leafOf root vb := by
  rw [h.inv.getPhys hva, Option.map_eq_some_iff] at hPhys
  obtain ⟨e, hLeaf, rfl⟩ := hPhys
  have hFrame : e &&& pteFrameMask = (e &&& pteFrameMask) / pmmPageSize * pmmPageSize :=
    (Nat.div_mul_cancel (Nat.dvd_of_mod_eq_zero (isFrame_and_mask e).1)).symm
  obtain ⟨hUpdate, hOk⟩ := h.inv.unmapPage h.ready hva
  have hTrue := hOk.mpr ⟨hAligned, by simp [hLeaf]⟩
  rw [hTrue] at hUpdate
  obtain ⟨p', hFree, hFreed, hSpace⟩ := (h.unmap hva hUpdate hLeaf hFrame).release
  have hLeft : ∀ vb < 2 ^ 47, (vmmUnmapPage k root va).2.leafOf root vb =
      if vb / pmmPageSize = va / pmmPageSize then none else k.leafOf root vb := by
    intro vb hvb
    rw [hUpdate.leaves vb hvb]
    simp only [true_and]
  have hWrites : OwnWrites k { (vmmUnmapPage k root va).2 with pmm := p' } root :=
    ⟨hUpdate.writes.cr3, hUpdate.writes.words⟩
  rw [hAligned, Nat.add_zero, hFrame]
  refine ⟨p', hFree, hWrites.spaceStep h hSpace ?_ ?_ ?_, hLeft⟩
  · rw [hFreed.fixed, hUpdate.growth.fixed]
  · rintro f (hTable | ⟨vb, hvb, e', hSome, hMask⟩)
    · rcases hUpdate.growth.fresh f hTable with hOld | hNew
      · exact Or.inl (Or.inl hOld)
      · exact Or.inr hNew
    · have hOld := (hLeft vb hvb).symm.trans hSome
      split at hOld
      · cases hOld
      · exact Or.inl (Or.inr ⟨vb, hvb, e', hOld, hMask⟩)
  · intro f hSet
    by_cases hFreedFrame : f = (e &&& pteFrameMask) / pmmPageSize
    · subst hFreedFrame
      exact Or.inr (Or.inr ⟨va, hva, e, hLeaf, hFrame⟩)
    · exact Or.inl ((hFreed.bits f).mpr
        ⟨(hUpdate.growth.frames f).mpr (Or.inl hSet), hFreedFrame⟩)

end Steps

/-- The loader works on the pages of the new space only. -/
theorem spaceStep_loaderInvariant (k₀ : Kmem) (root : Nat) (foreign : Nat → Prop) :
    LoaderInvariant root (fun k => SpaceStep k₀ k root foreign) where
  asInv := fun _ h => h.space.inv
  fresh := by
    intro k page flags h hPage _
    obtain ⟨ok, k', hRun, hStep, hFresh⟩ := mapFreshPage_space h.space hPage.le flags
    refine ⟨ok, k', hRun, h.trans hStep, ?_⟩
    intro hOk
    obtain ⟨_, frame, _, _, hMapped, _⟩ := hFresh.mapped hOk
    rw [hMapped page hPage, if_pos rfl]
    simp
  store := fun _ _ _ h hFrame hWrite hCr3 => h.trans (h.space.frameWrite_step hFrame hWrite hCr3)

end Kryos.Process
