import Kryos.Memory.KernelHalf

/-! All address spaces of the machine. Each process and the kernel have frames
of their own; page-table work, kernel work, creation and destruction keep them
apart, and whoever is not involved is left undisturbed. -/
namespace Kryos.Memory

open Radix

variable {k k' : Kmem} {root r kernel : Nat} {foreign spare boot live : Nat → Prop}

theorem Space.own_set {f : Nat} (h : Space k root foreign spare) (hOwn : k.OwnFrame root f) :
    Bitmap.isSet k.pmm.bitmap f = true := by
  rcases hOwn with hTable | hLeaf
  · exact (h.inv.tableFrame_set hTable).2
  · exact (h.pages f (Or.inl hLeaf)).2.1

theorem Space.root_own (h : Space k root foreign spare) :
    ∃ g, root = g * pmmPageSize ∧ k.TableFrame root g := by
  obtain ⟨g, hRoot, _⟩ := h.inv.owned [] root TablePath.nil rfl
  exact ⟨g, hRoot, [], TablePath.nil, congrArg some hRoot⟩

/-- The kernel half and the `live` address spaces, each with frames of its
own. -/
structure Spaces (k : Kmem) (kernel : Nat) (boot live : Nat → Prop) : Prop where
  half : KernelHalf k kernel boot
  space : ∀ r, live r → Space k r noSpare noSpare
  apart : ∀ r q f, live r → live q → k.OwnFrame r f → k.OwnFrame q f → r = q
  kernelApart : ∀ r f, live r → k.OwnFrame r f → ¬ KernelFrame k kernel boot f
  above : ∀ r, live r → k.pmm.bitmapEnd ≤ r

/-- The frames that belong to the kernel or to an address space other than
`r`. -/
def Others (k : Kmem) (kernel : Nat) (boot live : Nat → Prop) (r f : Nat) : Prop :=
  KernelFrame k kernel boot f ∨ ∃ q, live q ∧ q ≠ r ∧ k.OwnFrame q f

/-- Someone else worked and left the frames of the kernel alone. -/
theorem KernelHalf.undisturbed {k k' : Kmem} {kernel : Nat} {boot : Nat → Prop}
    (h : KernelHalf k kernel boot) (hReady : k'.pmm.Ready)
    (hFixed : k'.pmm = { k.pmm with bitmap := k'.pmm.bitmap, usedFrames := k'.pmm.usedFrames })
    (hWords : ∀ a, KernelFrame k kernel boot (a / pmmPageSize) → k'.mem a = k.mem a)
    (hBits : ∀ f, KernelFrame k kernel boot f → Bitmap.isSet k'.pmm.bitmap f = true) :
    KernelHalf k' kernel boot ∧
    ∀ f, KernelFrame k' kernel boot f ↔ KernelFrame k kernel boot f := by
  have hSlot : k'.mem (slot kernel heapSlot) = k.mem (slot kernel heapSlot) := by
    apply hWords
    rw [heapSlot_frame h.root_aligned]
    exact Or.inr (Or.inl h.root_own)
  have hView : Undisturbed (k.heapView kernel) (k'.heapView kernel) kernel := by
    refine ⟨hReady, hFixed, ?_, fun f hf => hBits f (Or.inr hf)⟩
    intro a ha
    simp only [Kmem.heapView]
    rw [hSlot, hWords a (Or.inr ha)]
  refine ⟨⟨?_, hSlot ▸ h.present, hSlot ▸ h.writable⟩, ?_⟩
  · refine hView.space h.window (fun f hBoot => hBits f (Or.inl hBoot)) ?_
    rintro f hBoot (hTable | hLeaf)
    · exact (h.window.tables f hTable).2 hBoot
    · exact (h.window.pages f (Or.inl hLeaf)).2.2.2.1 hBoot
  · intro f
    exact or_congr_right (hView.ownFrame_iff h.window.inv f)

theorem vmmCreateAddressSpace_outside (hReady : k.pmm.Ready)
    (hCreate : vmmCreateAddressSpace k = (some root, k')) {a : Nat}
    (ha : Bitmap.isSet k.pmm.bitmap (a / pmmPageSize) = true) : k'.mem a = k.mem a := by
  unfold vmmCreateAddressSpace at hCreate
  rcases hReady.alloc with ⟨_, hFail⟩ | ⟨frame, hPos, hLt, hClear, hAlloc⟩
  · simp [hFail] at hCreate
  simp only [hAlloc, frame_beq_zero hPos, Bool.false_eq_true, if_false, Prod.mk.injEq] at hCreate
  obtain ⟨_, rfl⟩ := hCreate
  have hOutside : a / pmmPageSize ≠ frame := by
    rintro rfl
    simp [ha] at hClear
  simp only [pmmPageSize] at hOutside
  have hLower : ¬ (frame * pmmPageSize ≤ a ∧ a < slot (frame * pmmPageSize) 256) := by
    simp only [slot, pmmPageSize]
    omega
  have hUpper : ¬ (slot (frame * pmmPageSize) 256 ≤ a ∧ a < slot (frame * pmmPageSize) 512) := by
    simp only [slot, pmmPageSize]
    omega
  exact (if_neg hLower).trans (if_neg hUpper)

theorem vmmDestroyAddressSpace_mem (h : vmmDestroyAddressSpace k root = .ok k') :
    k'.mem = k.mem ∧ k'.cr3 = k.cr3 := by
  unfold vmmDestroyAddressSpace at h
  split at h
  · cases h
    exact ⟨rfl, rfl⟩
  · simp only [bind, Except.bind] at h
    split at h
    · cases h
    split at h
    · cases h
    cases h
    exact ⟨rfl, rfl⟩

namespace Spaces

variable {k k' : Kmem} {kernel : Nat} {boot live : Nat → Prop}

theorem none (h : KernelHalf k kernel boot) : Spaces k kernel boot (fun _ => False) where
  half := h
  space := fun _ hNone => hNone.elim
  apart := fun _ _ _ hNone => hNone.elim
  kernelApart := fun _ _ hNone => hNone.elim
  above := fun _ hNone => hNone.elim

section

variable (h : Spaces k kernel boot live)

include h

theorem others (hr : live r) : Space k r (Others k kernel boot live r) noSpare := by
  apply (h.space r hr).refit
  · rintro f (hKernel | ⟨q, hq, _, hOwn⟩)
    · exact h.half.frame_set hKernel
    · exact (h.space q hq).own_set hOwn
  · rintro f (hKernel | ⟨q, hq, hNe, hOwn⟩) hMine
    · exact h.kernelApart r f hr hMine hKernel
    · exact hNe (h.apart q r f hq hr hOwn hMine)

/-- Whoever is left undisturbed keeps its space, if the kernel takes no frames in use. -/
theorem keep {rest : Nat → Prop} (hRest : ∀ q, rest q → live q) (hHalf : KernelHalf k' kernel boot)
    (hKernel : ∀ f, KernelFrame k' kernel boot f →
      KernelFrame k kernel boot f ∨ Bitmap.isSet k.pmm.bitmap f = false)
    (hFixed : k'.pmm = { k.pmm with bitmap := k'.pmm.bitmap, usedFrames := k'.pmm.usedFrames })
    (hQuiet : ∀ q, rest q → Undisturbed k k' q) : Spaces k' kernel boot rest := by
  have hOld {q f : Nat} (hq : rest q) (hOwn : k'.OwnFrame q f) : k.OwnFrame q f :=
    ((hQuiet q hq).ownFrame_iff (h.space q (hRest q hq)).inv f).mp hOwn
  have hEnd : k'.pmm.bitmapEnd = k.pmm.bitmapEnd := by rw [hFixed]; rfl
  refine ⟨hHalf, ?_, ?_, ?_, fun q hq => hEnd ▸ h.above q (hRest q hq)⟩
  · intro q hq
    exact (hQuiet q hq).space (h.space q (hRest q hq)) (fun _ hNone => hNone.elim)
      (fun _ hNone => hNone.elim)
  · intro p q f hp hq hOwn hOwn'
    exact h.apart p q f (hRest p hp) (hRest q hq) (hOld hp hOwn) (hOld hq hOwn')
  · intro q f hq hOwn hf
    rcases hKernel f hf with hBefore | hFree
    · exact h.kernelApart q f (hRest q hq) (hOld hq hOwn) hBefore
    · rw [(h.space q (hRest q hq)).own_set (hOld hq hOwn)] at hFree
      cases hFree

theorem insert (hNew : Space k root noSpare noSpare) (hAbove : k.pmm.bitmapEnd ≤ root)
    (hApart : ∀ q f, live q → k.OwnFrame q f → ¬ k.OwnFrame root f)
    (hKernel : ∀ f, k.OwnFrame root f → ¬ KernelFrame k kernel boot f) :
    Spaces k kernel boot (fun r => live r ∨ r = root) where
  half := h.half
  space := by
    rintro q (hq | rfl)
    · exact h.space q hq
    · exact hNew
  apart := by
    rintro p q f (hp | rfl) (hq | rfl) hOwn hOwn'
    · exact h.apart p q f hp hq hOwn hOwn'
    · exact (hApart p f hp hOwn hOwn').elim
    · exact (hApart q f hq hOwn' hOwn).elim
    · rfl
  kernelApart := by
    rintro q f (hq | rfl) hOwn
    · exact h.kernelApart q f hq hOwn
    · exact hKernel f hOwn
  above := by
    rintro q (hq | rfl)
    · exact h.above q hq
    · exact hAbove

theorem of_iff {live' : Nat → Prop} (hSame : ∀ r, live r ↔ live' r) :
    Spaces k kernel boot live' := by
  rwa [show live' = live from funext fun r => propext (hSame r).symm]

theorem step (hr : live r) (hStep : SpaceStep k k' r (Others k kernel boot live r)) :
    Spaces k' kernel boot live ∧ ∀ q, live q → q ≠ r → Undisturbed k k' q := by
  have hQuiet (q : Nat) (hq : live q) (hNe : q ≠ r) : Undisturbed k k' q :=
    { ready := hStep.space.ready
      fixed := hStep.fixed
      words := fun a ha => hStep.words a (Or.inr ⟨q, hq, hNe, ha⟩)
      bits := fun f hf => hStep.space.others f (Or.inr ⟨q, hq, hNe, hf⟩) }
  obtain ⟨hHalf, hKernel⟩ := h.half.undisturbed hStep.space.ready hStep.fixed
    (fun a ha => hStep.words a (Or.inl ha)) (fun f hf => hStep.space.others f (Or.inl hf))
  have hRest := @keep _ k' _ _ _ h (fun q => live q ∧ q ≠ r) (fun q hq => hq.1) hHalf
    (fun f hf => Or.inl ((hKernel f).mp hf)) hStep.fixed (fun q hq => hQuiet q hq.1 hq.2)
  have hEnd : k'.pmm.bitmapEnd = k.pmm.bitmapEnd := by rw [hStep.fixed]; rfl
  refine ⟨(hRest.insert (hStep.space.refit (fun _ hNone => hNone.elim) (fun _ hNone => hNone.elim))
    (hEnd ▸ h.above r hr) ?_ ?_).of_iff fun q => ?_, hQuiet⟩
  · rintro q f ⟨hq, hNe⟩ hOwn hMine
    have hTheirs := ((hQuiet q hq hNe).ownFrame_iff (h.space q hq).inv f).mp hOwn
    rcases hStep.frames f hMine with hBefore | hFree
    · exact hNe (h.apart q r f hq hr hTheirs hBefore)
    · rw [(h.space q hq).own_set hTheirs] at hFree
      cases hFree
  · intro f hOwn hf
    rw [hKernel] at hf
    rcases hStep.frames f hOwn with hBefore | hFree
    · exact h.kernelApart r f hr hBefore hf
    · rw [h.half.frame_set hf] at hFree
      cases hFree
  · by_cases hq : q = r
    · simp [hq, hr]
    · simp [hq]

theorem work (hWork : KernelWork kernel boot k k') :
    Spaces k' kernel boot live ∧ ∀ q, live q → Undisturbed k k' q := by
  have hEffect := h.half.work hWork
  have hQuiet (q : Nat) (hq : live q) : Undisturbed k k' q :=
    { ready := hEffect.half.ready
      fixed := hEffect.fixed
      words := fun a ha => hEffect.words a ((h.space q hq).own_set ha) (h.kernelApart q _ hq ha)
      bits := fun f hf => hEffect.bits f ((h.space q hq).own_set hf) }
  exact ⟨h.keep (fun _ hq => hq) hEffect.half hEffect.frames hEffect.fixed hQuiet, hQuiet⟩

/-- Creation takes a free frame and writes nothing else. -/
theorem create (hCreate : vmmCreateAddressSpace k = (some root, k')) :
    Spaces k' kernel boot (fun r => live r ∨ r = root) ∧ ¬ live root ∧
      ∀ q, live q → Undisturbed k k' q := by
  have hReady := h.half.ready
  obtain ⟨⟨frame, _, hRoot, hLt, hClear, hTake⟩, hEmpty⟩ :=
    vmmCreateAddressSpace_some hReady hCreate
  have hNew : Space k' root noSpare noSpare :=
    Space.create hReady (fun _ hNone => hNone.elim) hCreate
  have hWords (a : Nat) (ha : Bitmap.isSet k.pmm.bitmap (a / pmmPageSize) = true) :
      k'.mem a = k.mem a := vmmCreateAddressSpace_outside hReady hCreate ha
  have hBits (f : Nat) (hf : Bitmap.isSet k.pmm.bitmap f = true) :
      Bitmap.isSet k'.pmm.bitmap f = true := by simp [hTake, Pmm.take, hf]
  have hFixed :
      k'.pmm = { k.pmm with bitmap := k'.pmm.bitmap, usedFrames := k'.pmm.usedFrames } := by
    rw [hTake]
    rfl
  have hQuiet (q : Nat) (hq : live q) : Undisturbed k k' q :=
    { ready := hNew.ready
      fixed := hFixed
      words := fun a ha => hWords a ((h.space q hq).own_set ha)
      bits := fun f hf => hBits f ((h.space q hq).own_set hf) }
  obtain ⟨hHalf, hKernel⟩ := h.half.undisturbed hNew.ready hFixed
    (fun a ha => hWords a (h.half.frame_set ha)) (fun f hf => hBits f (h.half.frame_set hf))
  -- the new space has a single frame, which was free
  have hOnly {f : Nat} (hOwn : k'.OwnFrame root f) (hSet : Bitmap.isSet k.pmm.bitmap f = true) :
      False := by
    rcases hOwn with ⟨path, hPath, hTable⟩ | ⟨va, hva, e, hLeaf, _⟩
    · obtain rfl := PmmClient.Holds.page_mul_inj
        ((table_of_empty hEmpty hPath hTable).2.trans hRoot)
      rw [hClear] at hSet
      cases hSet
    · simp [leafOf_of_empty hEmpty hva] at hLeaf
  have hOld := h.keep (fun _ hq => hq) hHalf (fun f hf => Or.inl ((hKernel f).mp hf)) hFixed hQuiet
  refine ⟨hOld.insert hNew ?_ ?_ ?_, ?_, hQuiet⟩
  · rw [hTake, hRoot]
    exact hReady.above hLt hClear
  · intro q f hq hOwn hMine
    exact hOnly hMine ((h.space q hq).own_set
      (((hQuiet q hq).ownFrame_iff (h.space q hq).inv f).mp hOwn))
  · intro f hOwn hf
    exact hOnly hOwn (h.half.frame_set ((hKernel f).mp hf))
  · intro hLive
    obtain ⟨g, hg, hTable⟩ := (h.space root hLive).root_own
    obtain rfl := PmmClient.Holds.page_mul_inj (hg.symm.trans hRoot)
    have hSet := (h.space root hLive).own_set (Or.inl hTable)
    rw [hClear] at hSet
    cases hSet

/-- Destruction gives back the tables of the space and nothing else. -/
theorem destroy (hr : live r) :
    ∃ k', vmmDestroyAddressSpace k r = .ok k' ∧
      Spaces k' kernel boot (fun q => live q ∧ q ≠ r) ∧
      (∀ f, Bitmap.isSet k'.pmm.bitmap f = true ↔
        Bitmap.isSet k.pmm.bitmap f = true ∧ ¬ k.TableFrame r f) ∧
      k'.mem = k.mem ∧ k'.cr3 = k.cr3 ∧ ∀ q, live q → q ≠ r → Undisturbed k k' q := by
  have hSpace := h.space r hr
  have hHolds : k.pmm.Holds (k.TableFrame r) := by
    intro f hTable
    obtain ⟨hLt, hSet⟩ := hSpace.inv.tableFrame_set hTable
    refine ⟨hLt, hSet, ?_⟩
    rcases (hSpace.tables f hTable).1 with hRoot | hAbove
    · exact hRoot ▸ h.above r hr
    · exact hAbove
  have hPos : r ≠ 0 := by
    rintro rfl
    have hAbove := h.above 0 hr
    have hSize := h.half.ready.consistent.size
    obtain ⟨g, _, hTable⟩ := hSpace.root_own
    have hLt := (hSpace.inv.tableFrame_set hTable).1
    simp only [Pmm.bitmapEnd] at hAbove
    omega
  obtain ⟨k', hDestroy, hFreed⟩ := hSpace.inv.destroy_freed h.half.ready hPos hHolds
  obtain ⟨hMem, hCr3⟩ := vmmDestroyAddressSpace_mem hDestroy
  have hQuiet (q : Nat) (hq : live q) (hNe : q ≠ r) : Undisturbed k k' q :=
    { ready := hFreed.ready
      fixed := hFreed.fixed
      words := fun a _ => congrFun hMem a
      bits := fun f hf => (hFreed.bits f).mpr ⟨(h.space q hq).own_set hf,
        fun hTable => hNe (h.apart q r f hq hr hf (Or.inl hTable))⟩ }
  obtain ⟨hHalf, hKernel⟩ := h.half.undisturbed hFreed.ready hFreed.fixed
    (fun a _ => congrFun hMem a)
    (fun f hf => (hFreed.bits f).mpr ⟨h.half.frame_set hf,
      fun hTable => h.kernelApart r f hr (Or.inl hTable) hf⟩)
  exact ⟨k', hDestroy, h.keep (fun q hq => hq.1) hHalf (fun f hf => Or.inl ((hKernel f).mp hf))
    hFreed.fixed (fun q hq => hQuiet q hq.1 hq.2), hFreed.bits, hMem, hCr3, hQuiet⟩

/-- No space depends on which one is loaded. -/
theorem loadCr3 (cr3 : Nat) :
    Spaces { k with cr3 := cr3 } kernel boot live ∧
      ∀ q, live q → Undisturbed k { k with cr3 := cr3 } q := by
  have hQuiet (q : Nat) (hq : live q) : Undisturbed k { k with cr3 := cr3 } q :=
    { ready := h.half.ready
      fixed := rfl
      words := fun _ _ => rfl
      bits := fun _ hf => (h.space q hq).own_set hf }
  obtain ⟨hHalf, hKernel⟩ := @KernelHalf.undisturbed k { k with cr3 := cr3 } kernel boot h.half
    h.half.ready rfl (fun _ _ => rfl) (fun _ hf => h.half.frame_set hf)
  exact ⟨h.keep (fun _ hq => hq) hHalf (fun f hf => Or.inl ((hKernel f).mp hf)) rfl hQuiet, hQuiet⟩

end

end Spaces

/-- All address spaces are still there and as they were. -/
structure Quiet (k k' : Kmem) (kernel : Nat) (boot live : Nat → Prop) : Prop where
  spaces : Spaces k' kernel boot live
  cr3 : k'.cr3 = k.cr3
  undisturbed : ∀ q, live q → Undisturbed k k' q

theorem Quiet.trans {k'' : Kmem} (hSpaces : Spaces k kernel boot live)
    (h : Quiet k k' kernel boot live) (h' : Quiet k' k'' kernel boot live) :
    Quiet k k'' kernel boot live where
  spaces := h'.spaces
  cr3 := h'.cr3.trans h.cr3
  undisturbed := fun q hq =>
    (h.undisturbed q hq).trans (hSpaces.space q hq).inv (h'.undisturbed q hq)

theorem Spaces.work_quiet (h : Spaces k kernel boot live) (hWork : KernelWork kernel boot k k') :
    Quiet k k' kernel boot live :=
  ⟨(h.work hWork).1, (h.half.work hWork).cr3, (h.work hWork).2⟩

end Kryos.Memory
