import Kryos.Memory.Heap
import Kryos.Memory.UserSpace

/-! The kernel half of the address spaces. The only part of it that changes
after boot is the window of the kernel heap, below one slot of the kernel's
PML4. Seen on its own, that window is a lower half like that of a process, and
growing the heap is a step of its owner. -/
namespace Kryos.Memory

open Function Radix

variable {k k' k'' : Kmem} {kernel a frame table i x : Nat} {boot : Nat → Prop}

/-- The PML4 slot of the kernel heap. -/
def heapSlot : Nat := 384

/-- The heap window as the lower half of an address space of its own: its first
slot is the heap's and the others are empty. -/
def Kmem.heapView (k : Kmem) (kernel : Nat) : Kmem :=
  { k with mem := fun a =>
      if a / pmmPageSize = kernel / pmmPageSize then
        if a = slot kernel 0 then k.mem (slot kernel heapSlot) else 0
      else k.mem a }

/-- The kernel's PML4 is unchanged but for the slot of the heap, and that slot
is unchanged too if it already leads to a table the kernel may write through. -/
structure RootKept (k k' : Kmem) (kernel pteFlags : Nat) : Prop where
  cr3 : k'.cr3 = k.cr3
  words : ∀ a, a / pmmPageSize = kernel / pmmPageSize → a ≠ slot kernel heapSlot →
    k'.mem a = k.mem a
  linked : (k.mem (slot kernel heapSlot)).testBit 0 = true →
    (k.mem (slot kernel heapSlot)).testBit 1 = true → pteFlags.testBit 2 = false →
    k'.mem (slot kernel heapSlot) = k.mem (slot kernel heapSlot)

theorem RootKept.refl (k : Kmem) (kernel pteFlags : Nat) : RootKept k k kernel pteFlags :=
  ⟨rfl, fun _ _ _ => rfl, fun _ _ _ => rfl⟩

theorem RootKept.trans {pteFlags : Nat} (h : RootKept k k' kernel pteFlags)
    (h' : RootKept k' k'' kernel pteFlags) : RootKept k k'' kernel pteFlags := by
  refine ⟨h'.cr3.trans h.cr3, fun a ha hNe => (h'.words a ha hNe).trans (h.words a ha hNe), ?_⟩
  intro hPresent hWritable hUser
  have hFirst := h.linked hPresent hWritable hUser
  rw [h'.linked (hFirst ▸ hPresent) (hFirst ▸ hWritable) hUser, hFirst]

theorem RootKept.write_outside (hAligned : kernel % pmmPageSize = 0)
    (ha : a / pmmPageSize ≠ kernel / pmmPageSize) (value pteFlags : Nat) :
    RootKept k (k.write a value) kernel pteFlags := by
  refine ⟨rfl, fun b hb _ => update_of_ne ?_ _ _,
    fun _ _ _ => update_of_ne ?_ _ _⟩
  · rintro rfl
    exact ha hb
  · rintro rfl
    apply ha
    simp only [slot, heapSlot, pmmPageSize] at hAligned ⊢
    omega

section View

variable {k : Kmem} {kernel : Nat} (hAligned : kernel % pmmPageSize = 0)

theorem heapView_mem (h : a / pmmPageSize ≠ kernel / pmmPageSize) :
    (k.heapView kernel).mem a = k.mem a := if_neg h

theorem heapView_root : (k.heapView kernel).mem (slot kernel 0) = k.mem (slot kernel heapSlot) := by
  simp [Kmem.heapView, slot]

include hAligned

theorem heapSlot_frame : slot kernel heapSlot / pmmPageSize = kernel / pmmPageSize := by
  simp only [slot, heapSlot, pmmPageSize] at hAligned ⊢
  omega

theorem heapView_write_outside {a : Nat}
    (h : a / pmmPageSize ≠ kernel / pmmPageSize) (value : Nat) :
    (k.write a value).heapView kernel = (k.heapView kernel).write a value := by
  have hSlot : slot kernel heapSlot ≠ a := by
    rintro rfl
    exact h (heapSlot_frame hAligned)
  simp only [Kmem.heapView, Kmem.write, Kmem.mk.injEq, true_and, and_true]
  funext b
  by_cases hb : b = a
  · subst hb
    rw [if_neg h, update_self, update_self]
  · rw [update_of_ne hb, update_of_ne hb, update_of_ne hSlot]

theorem heapView_write_root (value : Nat) :
    (k.write (slot kernel heapSlot) value).heapView kernel =
      (k.heapView kernel).write (slot kernel 0) value := by
  simp only [Kmem.heapView, Kmem.write, Kmem.mk.injEq, true_and, and_true]
  funext b
  rw [update_self]
  by_cases hFrame : b / pmmPageSize = kernel / pmmPageSize
  · by_cases hb : b = slot kernel 0
    · rw [if_pos hFrame, if_pos hb, hb, update_self]
    · rw [if_pos hFrame, if_neg hb, update_of_ne hb, if_pos hFrame, if_neg hb]
  · have hRoot : b ≠ slot kernel 0 := fun hb => hFrame (congrArg (· / pmmPageSize) hb)
    have hHeap : b ≠ slot kernel heapSlot := by
      rintro rfl
      exact hFrame (heapSlot_frame hAligned)
    rw [if_neg hFrame, update_of_ne hRoot, if_neg hFrame, update_of_ne hHeap]

theorem heapView_zeroPage (h : frame ≠ kernel / pmmPageSize) :
    (k.zeroPage (frame * pmmPageSize)).heapView kernel =
      (k.heapView kernel).zeroPage (frame * pmmPageSize) := by
  have hOutside {a : Nat} (ha : a / pmmPageSize = kernel / pmmPageSize) :
      ¬ (frame * pmmPageSize ≤ a ∧ a < frame * pmmPageSize + pmmPageSize) := by
    simp only [pmmPageSize] at ha h ⊢
    omega
  simp only [Kmem.heapView, Kmem.zeroPage, Kmem.mk.injEq, true_and, and_true]
  funext b
  rw [if_neg (hOutside (heapSlot_frame hAligned))]
  by_cases hFrame : b / pmmPageSize = kernel / pmmPageSize
  · rw [if_pos hFrame, if_neg (hOutside hFrame), if_pos hFrame]
  · rw [if_neg hFrame, if_neg hFrame]

end View

theorem AsInv.root_own (h : AsInv k kernel) : k.TableFrame kernel (kernel / pmmPageSize) := by
  obtain ⟨g, hRoot, _⟩ := h.owned [] kernel TablePath.nil rfl
  refine ⟨[], TablePath.nil, congrArg some ?_⟩
  rw [hRoot, Nat.mul_div_cancel _ (by decide)]

theorem AsInv.root_aligned (h : AsInv k kernel) : kernel % pmmPageSize = 0 := by
  obtain ⟨g, rfl, _⟩ := h.owned [] kernel TablePath.nil rfl
  exact Nat.mul_mod_left _ _

section Level

variable {k : Kmem} {kernel : Nat}

/-- One level of a walk in the window, seen in the kernel's own tables: slot `i`
of `table` is slot `j` of `other` in the view. -/
theorem getNextLevel_heapView (h : AsInv (k.heapView kernel) kernel) (hReady : k.pmm.Ready)
    {other j : Nat}
    (hRead : (k.heapView kernel).mem (slot other j) = k.mem (slot table i))
    (hWrite : ∀ (k : Kmem) (value : Nat), (k.write (slot table i) value).heapView kernel =
      (k.heapView kernel).write (slot other j) value) (hSlot : slot table i = slot kernel heapSlot ∨
      slot table i / pmmPageSize ≠ kernel / pmmPageSize) (pteFlags : Nat) :
    getNextLevel (k.heapView kernel) other j true pteFlags =
      ((getNextLevel k table i true pteFlags).1,
        (getNextLevel k table i true pteFlags).2.heapView kernel) ∧
    RootKept k (getNextLevel k table i true pteFlags).2 kernel pteFlags := by
  have hAligned := h.root_aligned
  rw [getNextLevel_eq, getNextLevel_eq, hRead]
  split
  · split
    · exact ⟨rfl, RootKept.refl k kernel pteFlags⟩
    · refine ⟨by rw [hWrite], ?_⟩
      rcases hSlot with hHeap | hOutside
      · rw [hHeap]
        refine ⟨rfl, fun a _ hNe => update_of_ne hNe _ _, fun _ hWritable hUser => ?_⟩
        rw [Kmem.write_mem_self, innerFlags, hUser]
        cases pteFlags.testBit 1
        · simp
        · simpa using or_pteWritable hWritable
      · exact RootKept.write_outside hAligned hOutside _ _
  rename_i hAbsent
  have hPmm : (k.heapView kernel).pmm = k.pmm := rfl
  rw [if_pos rfl, if_pos rfl, hPmm]
  rcases hReady.alloc with ⟨_, hFail⟩ | ⟨frame, hPos, hLt, hClear, hAlloc⟩
  · rw [hFail]
    exact ⟨rfl, RootKept.refl k kernel pteFlags⟩
  · have hNe : frame ≠ kernel / pmmPageSize := by
      rintro rfl
      have hRoot := (h.tableFrame_set h.root_own).2
      rw [hPmm, hClear] at hRoot
      cases hRoot
    rw [hAlloc]
    simp only [frame_beq_zero hPos, Bool.false_eq_true, if_false]
    refine ⟨?_, ?_⟩
    · rw [hWrite, heapView_zeroPage hAligned hNe]
      rfl
    · have hZeroed (a : Nat) (ha : a / pmmPageSize = kernel / pmmPageSize) :
          ({ k with pmm := k.pmm.take frame }.zeroPage (frame * pmmPageSize)).mem a = k.mem a := by
        apply (FrameWrite.zeroPage { k with pmm := k.pmm.take frame } frame).outside
        rw [ha]
        exact hNe.symm
      rcases hSlot with hHeap | hOutside
      · rw [hHeap] at hAbsent ⊢
        refine ⟨rfl, fun a ha hOther => ?_, fun hPresent => absurd hPresent hAbsent⟩
        exact (update_of_ne hOther _ _).trans (hZeroed a ha)
      · have hKept : RootKept k ({ k with pmm := k.pmm.take frame }.zeroPage (frame * pmmPageSize))
            kernel pteFlags :=
          ⟨rfl, fun a ha _ => hZeroed a ha, fun _ _ _ => hZeroed _ (heapSlot_frame hAligned)⟩
        exact hKept.trans (RootKept.write_outside hAligned hOutside _ _)

theorem AsInv.slot_outside {path : List Nat} (h : AsInv (k.heapView kernel) kernel)
    (hPath : TablePath path) (hNe : path ≠ [])
    (hTable : (k.heapView kernel).table kernel path = some table) (hi : i < 512) :
    slot table i / pmmPageSize ≠ kernel / pmmPageSize := by
  obtain ⟨f, rfl, _⟩ := h.owned path table hPath hTable
  obtain ⟨g, hRoot, _⟩ := h.owned [] kernel TablePath.nil rfl
  have hFrames : f ≠ g := by
    rintro rfl
    exact hNe (h.unique path [] _ hPath TablePath.nil hTable (congrArg some hRoot))
  rw [hRoot]
  simp only [slot, pmmPageSize]
  omega

/-- Below the PML4 the window and the kernel's tables are the same. -/
theorem InnerSlot.heapView {path : List Nat}
    (h : InnerSlot (k.heapView kernel) kernel path table i) (hNe : path ≠ []) (pteFlags : Nat) :
    getNextLevel (k.heapView kernel) table i true pteFlags =
      ((getNextLevel k table i true pteFlags).1,
        (getNextLevel k table i true pteFlags).2.heapView kernel) ∧
    RootKept k (getNextLevel k table i true pteFlags).2 kernel pteFlags := by
  have hOut := h.inv.slot_outside h.valid hNe h.reached h.lower.1
  exact getNextLevel_heapView h.inv h.ready (heapView_mem hOut)
    (fun k value => @heapView_write_outside k kernel h.inv.root_aligned _ hOut value) (Or.inr hOut)
    pteFlags

end Level

/-! ### Mapping a page of the heap -/

section Window

variable {x : Nat} (hx : x < 2 ^ 30)

include hx

theorem heap_indices : pml4Index (kernelHeapBase + x) = heapSlot ∧ pml4Index x = 0 ∧
    pdptIndex (kernelHeapBase + x) = pdptIndex x ∧ pdIndex (kernelHeapBase + x) = pdIndex x ∧
    ptIndex (kernelHeapBase + x) = ptIndex x := by
  simp only [pml4Index_eq, pdptIndex_eq, pdIndex_eq, ptIndex_eq, heapSlot, kernelHeapBase]
  omega

theorem heap_canonical : isCanonical (kernelHeapBase + x) = true := by
  have hUpper : (kernelHeapBase + x) >>> 47 = 0x1FFFF := by
    simp only [kernelHeapBase]
    omega
  rw [isCanonical, hUpper]
  rfl

omit hx in
theorem heap_aligned (x : Nat) : (kernelHeapBase + x) % pmmPageSize = x % pmmPageSize := by
  simp only [kernelHeapBase, pmmPageSize]
  omega

end Window

/-- `vmm_map_page` on a page of the heap is `vmm_map_page` in the window. -/
theorem vmmMapPage_heapView (h : AsInv (k.heapView kernel) kernel) (hReady : k.pmm.Ready)
    (hx : x < 2 ^ 30) (phys flags : Nat) :
    vmmMapPage (k.heapView kernel) kernel x phys flags =
      ((vmmMapPage k kernel (kernelHeapBase + x) phys flags).1,
        (vmmMapPage k kernel (kernelHeapBase + x) phys flags).2.heapView kernel) ∧
    RootKept k (vmmMapPage k kernel (kernelHeapBase + x) phys flags).2 kernel
      (flagsToPte flags) := by
  have hva : x < 2 ^ 47 := by omega
  have hAligned := h.root_aligned
  obtain ⟨hTop, hZero, hPdpt, hPd, hPt⟩ := heap_indices hx
  unfold vmmMapPage
  rw [isCanonical_of_lower hva, heap_canonical hx, heap_aligned, hTop, hPdpt, hPd, hPt]
  simp only [Bool.not_true, Bool.false_eq_true, if_false]
  generalize flagsToPte flags = pteFlags
  split
  · exact ⟨rfl, RootKept.refl k kernel pteFlags⟩
  -- the three levels in step
  obtain ⟨hInv₁, hReady₁, _, hNext₁⟩ := (h.pml4Slot hReady hva).nextLevel true pteFlags
  obtain ⟨hView₁, hKept₁⟩ := getNextLevel_heapView h hReady heapView_root
    (fun k value => @heapView_write_root k kernel hAligned value) (Or.inl rfl) pteFlags
  rw [← hZero] at hView₁
  rw [hView₁] at hInv₁ hReady₁ hNext₁ ⊢
  generalize getNextLevel k kernel heapSlot true pteFlags = r₁ at *
  obtain ⟨_ | pdpt, k₁⟩ := r₁
  · exact ⟨rfl, hKept₁⟩
  dsimp only at hInv₁ hReady₁ hNext₁ hKept₁ ⊢
  have hSlot₁ := hInv₁.pdptSlot hReady₁ hva (hNext₁ pdpt rfl).1
  obtain ⟨hInv₂, hReady₂, _, hNext₂⟩ := hSlot₁.nextLevel true pteFlags
  obtain ⟨hView₂, hKept₂⟩ := hSlot₁.heapView (by simp) pteFlags
  rw [hView₂] at hInv₂ hReady₂ hNext₂ ⊢
  generalize getNextLevel k₁ pdpt (pdptIndex x) true pteFlags = r₂ at *
  obtain ⟨_ | pd, k₂⟩ := r₂
  · exact ⟨rfl, hKept₁.trans hKept₂⟩
  dsimp only at hInv₂ hReady₂ hNext₂ hKept₂ ⊢
  have hSlot₂ := hInv₂.pdSlot hReady₂ hva (hNext₂ pd rfl).1
  obtain ⟨hInv₃, _, _, hNext₃⟩ := hSlot₂.nextLevel true pteFlags
  obtain ⟨hView₃, hKept₃⟩ := hSlot₂.heapView (by simp) pteFlags
  rw [hView₃] at hInv₃ hNext₃ ⊢
  generalize getNextLevel k₂ pd (pdIndex x) true pteFlags = r₃ at *
  obtain ⟨_ | pt, k₃⟩ := r₃
  · exact ⟨rfl, (hKept₁.trans hKept₂).trans hKept₃⟩
  dsimp only at hInv₃ hNext₃ hKept₃ ⊢
  have hOut := hInv₃.slot_outside (tablePath_vaPath hva) (by simp [vaPath]) (hNext₃ pt rfl).1
    (ptIndex_lt x)
  have hKept := (hKept₁.trans hKept₂).trans hKept₃
  rw [heapView_mem hOut]
  split
  · exact ⟨rfl, hKept⟩
  · exact ⟨by rw [heapView_write_outside hAligned hOut],
      hKept.trans (RootKept.write_outside hAligned hOut _ _)⟩

theorem mapNewPage_heapView (h : Space (k.heapView kernel) kernel boot noSpare) (hx : x < 2 ^ 30)
    (flags : Nat) :
    ∃ result k', mapNewPage k kernel (kernelHeapBase + x) flags = .ok (result, k') ∧
      SpaceStep (k.heapView kernel) (k'.heapView kernel) kernel boot ∧
      NewPage (k.heapView kernel) (k'.heapView kernel) kernel x flags result ∧
      RootKept k k' kernel (flagsToPte flags) := by
  obtain ⟨result, v', hRun, ⟨hStep, hNew, _⟩, _⟩ :=
    mapNewPage_space h (show x ≤ 2 ^ 47 by omega) flags
  unfold mapNewPage at hRun ⊢
  have hPmm : (k.heapView kernel).pmm = k.pmm := rfl
  rw [hPmm] at hRun
  have hReady : k.pmm.Ready := h.ready
  rcases hReady.alloc with ⟨_, hFail⟩ | ⟨frame, hPos, hLt, hClear, hAlloc⟩
  · rw [hFail] at hRun ⊢
    cases hRun
    exact ⟨none, k, rfl, hStep, hNew, RootKept.refl k kernel _⟩
  have hHand : AsInv ({ k with pmm := k.pmm.take frame }.heapView kernel) kernel :=
    (h.take hLt hClear).inv
  obtain ⟨hView, hKept⟩ := vmmMapPage_heapView hHand (h.take hLt hClear).ready hx
    (frame * pmmPageSize) flags
  rw [hAlloc] at hRun ⊢
  simp only [frame_beq_zero hPos, Bool.false_eq_true, if_false] at hRun ⊢
  have hTaken : { k.heapView kernel with pmm := k.pmm.take frame } =
      { k with pmm := k.pmm.take frame }.heapView kernel := rfl
  rw [hTaken, hView] at hRun
  generalize vmmMapPage { k with pmm := k.pmm.take frame } kernel (kernelHeapBase + x)
    (frame * pmmPageSize) flags = mapped at *
  obtain ⟨_ | _, k'⟩ := mapped <;> dsimp only at hRun hKept ⊢
  · have hPmm' : (k'.heapView kernel).pmm = k'.pmm := rfl
    rw [hPmm'] at hRun
    split at hRun
    · cases hRun
    rename_i p' hFree
    cases hRun
    exact ⟨none, { k' with pmm := p' }, rfl, hStep, hNew, hKept.cr3, hKept.words,
      hKept.linked⟩
  · cases hRun
    exact ⟨some (frame * pmmPageSize), k', rfl, hStep, hNew, hKept.cr3, hKept.words,
      hKept.linked⟩

/-! ### Kernel work -/

/-- The heap window is in order and linked into the kernel's PML4, as the first
`kmalloc` leaves it. The `boot` frames hold the kernel image. -/
structure KernelHalf (k : Kmem) (kernel : Nat) (boot : Nat → Prop) : Prop where
  window : Space (k.heapView kernel) kernel boot noSpare
  present : (k.mem (slot kernel heapSlot)).testBit 0 = true
  writable : (k.mem (slot kernel heapSlot)).testBit 1 = true

/-- The frames of the kernel: its image, and the tables and pages of its heap. -/
def KernelFrame (k : Kmem) (kernel : Nat) (boot : Nat → Prop) (f : Nat) : Prop :=
  boot f ∨ (k.heapView kernel).OwnFrame kernel f

/-- What kernel code does besides page-table work on a process: one page of
`expand_heap`, or stores into the heap or the kernel image. -/
inductive KernelStep (kernel : Nat) (boot : Nat → Prop) (k : Kmem) : Kmem → Prop where
  | expandHeap {x : Nat} {result : Option Nat} {k' : Kmem} (hx : x < 2 ^ 30)
      (hRun : mapNewPage k kernel (kernelHeapBase + x) vmmFlagWritable = .ok (result, k')) :
      KernelStep kernel boot k k'
  | store {f : Nat} {k' : Kmem} (hFrame : (k.heapView kernel).LeafFrame kernel f ∨ boot f)
      (hWrite : FrameWrite k k' f) (hCr3 : k'.cr3 = k.cr3) : KernelStep kernel boot k k'

/-- Any amount of kernel work. -/
def KernelWork (kernel : Nat) (boot : Nat → Prop) : Kmem → Kmem → Prop :=
  Relation.ReflTransGen (KernelStep kernel boot)

/-- What kernel work leaves alone: allocated frames that are not the kernel's,
and the kernel's PML4. -/
structure KernelEffect (k k' : Kmem) (kernel : Nat) (boot : Nat → Prop) : Prop where
  half : KernelHalf k' kernel boot
  fixed : k'.pmm = { k.pmm with bitmap := k'.pmm.bitmap, usedFrames := k'.pmm.usedFrames }
  cr3 : k'.cr3 = k.cr3
  words : ∀ a, Bitmap.isSet k.pmm.bitmap (a / pmmPageSize) = true →
    ¬ KernelFrame k kernel boot (a / pmmPageSize) → k'.mem a = k.mem a
  pml4 : ∀ i < 512, k'.mem (slot kernel i) = k.mem (slot kernel i)
  frames : ∀ f, KernelFrame k' kernel boot f →
    KernelFrame k kernel boot f ∨ Bitmap.isSet k.pmm.bitmap f = false
  bits : ∀ f, Bitmap.isSet k.pmm.bitmap f = true → Bitmap.isSet k'.pmm.bitmap f = true

theorem KernelEffect.refl (h : KernelHalf k kernel boot) : KernelEffect k k kernel boot where
  half := h
  fixed := rfl
  cr3 := rfl
  words := fun _ _ _ => rfl
  pml4 := fun _ _ => rfl
  frames := fun _ => Or.inl
  bits := fun _ => id

theorem KernelEffect.trans (h : KernelEffect k k' kernel boot)
    (h' : KernelEffect k' k'' kernel boot) :
    KernelEffect k k'' kernel boot where
  half := h'.half
  fixed := by rw [h'.fixed, h.fixed]
  cr3 := h'.cr3.trans h.cr3
  words := by
    intro a hSet hNot
    rw [← h.words a hSet hNot]
    refine h'.words a (h.bits _ hSet) ?_
    intro hKernel
    rcases h.frames _ hKernel with hOld | hFree
    · exact hNot hOld
    · simp [hSet] at hFree
  pml4 := fun i hi => (h'.pml4 i hi).trans (h.pml4 i hi)
  frames := by
    intro f hKernel
    rcases h'.frames f hKernel with hMid | hFree
    · exact h.frames f hMid
    · right
      rw [← Bool.not_eq_true] at hFree ⊢
      exact fun hSet => hFree (h.bits f hSet)
  bits := fun f hSet => h'.bits f (h.bits f hSet)

namespace KernelHalf

variable {k : Kmem} {kernel : Nat} {boot : Nat → Prop} (h : KernelHalf k kernel boot)

include h

theorem ready : k.pmm.Ready := h.window.ready

theorem frame_set {f : Nat} (hf : KernelFrame k kernel boot f) :
    Bitmap.isSet k.pmm.bitmap f = true := by
  rcases hf with hBoot | hTable | hLeaf
  · exact h.window.others f hBoot
  · exact (h.window.inv.tableFrame_set hTable).2
  · exact (h.window.pages f (Or.inl hLeaf)).2.1

theorem root_aligned : kernel % pmmPageSize = 0 := h.window.inv.root_aligned

theorem root_own : (k.heapView kernel).TableFrame kernel (kernel / pmmPageSize) :=
  h.window.inv.root_own

theorem slot_frame (hi : i < 512) : slot kernel i / pmmPageSize = kernel / pmmPageSize := by
  have hAligned := h.root_aligned
  simp only [slot, pmmPageSize] at hAligned ⊢
  omega

/-- One page of `expand_heap`. -/
theorem expandHeap (hx : x < 2 ^ 30) :
    ∃ result k', mapNewPage k kernel (kernelHeapBase + x) vmmFlagWritable = .ok (result, k') ∧
      KernelEffect k k' kernel boot := by
  -- everything allocated that is not the window's counts as foreign
  have hWide : Space (k.heapView kernel) kernel
      (fun f => Bitmap.isSet k.pmm.bitmap f = true ∧ ¬ (k.heapView kernel).OwnFrame kernel f)
      noSpare :=
    h.window.refit (fun f hf => hf.1) (fun f hf => hf.2)
  obtain ⟨result, k', hRun, hStep, hNew, hKept⟩ := mapNewPage_heapView hWide hx vmmFlagWritable
  have hBits : ∀ f, Bitmap.isSet k.pmm.bitmap f = true → Bitmap.isSet k'.pmm.bitmap f = true :=
    hNew.kept
  have hSlot := hKept.linked h.present h.writable (by decide)
  have hBootApart {f : Nat} (hBoot : boot f) : ¬ (k.heapView kernel).OwnFrame kernel f := by
    rintro (hTable | hLeaf)
    · exact (h.window.tables f hTable).2 hBoot
    · exact (h.window.pages f (Or.inl hLeaf)).2.2.2.1 hBoot
  refine ⟨result, k', hRun, ⟨?_, hSlot ▸ h.present, hSlot ▸ h.writable⟩, hStep.fixed, hKept.cr3,
    ?_, ?_, ?_, hBits⟩
  · refine hStep.space.refit (fun f hBoot => hBits f (h.window.others f hBoot)) ?_
    intro f hBoot hOwn
    rcases hStep.frames f hOwn with hOld | hFree
    · exact hBootApart hBoot hOld
    · have hSet := h.window.others f hBoot
      rw [hFree] at hSet
      cases hSet
  · intro a hSet hNot
    have hOwn : ¬ (k.heapView kernel).OwnFrame kernel (a / pmmPageSize) :=
      fun hf => hNot (Or.inr hf)
    have hOutside : a / pmmPageSize ≠ kernel / pmmPageSize := by
      intro hRoot
      exact hOwn (Or.inl (hRoot ▸ h.root_own))
    have hWord := hStep.words a ⟨hSet, hOwn⟩
    rwa [heapView_mem hOutside, heapView_mem hOutside] at hWord
  · intro i hi
    by_cases hHeap : i = heapSlot
    · rw [hHeap, hSlot]
    · apply hKept.words _ (h.slot_frame hi)
      simp only [slot]
      omega
  · rintro f (hBoot | hOwn)
    · exact Or.inl (Or.inl hBoot)
    · exact (hStep.frames f hOwn).imp_left Or.inr

theorem store {f : Nat} {k' : Kmem} (hFrame : (k.heapView kernel).LeafFrame kernel f ∨ boot f)
    (hWrite : FrameWrite k k' f) (hCr3 : k'.cr3 = k.cr3) : KernelEffect k k' kernel boot := by
  have hNot : ¬ (k.heapView kernel).TableFrame kernel f := by
    intro hTable
    rcases hFrame with hLeaf | hBoot
    · exact (h.window.pages f (Or.inl hLeaf)).2.2.2.2 hTable
    · exact (h.window.tables f hTable).2 hBoot
  have hRoot : kernel / pmmPageSize ≠ f := fun hEq => hNot (hEq ▸ h.root_own)
  have hRootWord {a : Nat} (ha : a / pmmPageSize = kernel / pmmPageSize) : k'.mem a = k.mem a :=
    hWrite.outside a (by rwa [ha])
  have hSlot := hRootWord (heapSlot_frame h.root_aligned)
  have hView : FrameWrite (k.heapView kernel) (k'.heapView kernel) f := by
    refine ⟨hWrite.pmm, fun a ha => ?_⟩
    simp only [Kmem.heapView]
    rw [hSlot, hWrite.outside a ha]
  obtain ⟨hSpace, hLeaves⟩ := h.window.outsideWrite hView hNot
  have hTables := hView.leavesTables h.window.inv h.window.ready hNot
  refine ⟨⟨hSpace, hSlot ▸ h.present, hSlot ▸ h.writable⟩, by rw [hWrite.pmm], hCr3, ?_, ?_, ?_, ?_⟩
  · intro a _ hOther
    apply hWrite.outside
    rintro rfl
    exact hOther (hFrame.elim (fun hLeaf => Or.inr (Or.inr hLeaf)) Or.inl)
  · intro i hi
    exact hRootWord (h.slot_frame hi)
  · rintro g (hBoot | ⟨path, hPath, hTable⟩ | ⟨va, hva, e, hLeaf, hMask⟩)
    · exact Or.inl (Or.inl hBoot)
    · exact Or.inl (Or.inr (Or.inl ⟨path, hPath, (hTables.table_eq hPath) ▸ hTable⟩))
    · exact Or.inl (Or.inr (Or.inr ⟨va, hva, e, hLeaves va hva ▸ hLeaf, hMask⟩))
  · intro g hSet
    exact hWrite.pmm ▸ hSet

theorem work (hWork : KernelWork kernel boot k k') : KernelEffect k k' kernel boot := by
  induction hWork with
  | refl => exact KernelEffect.refl h
  | tail _ hStep ih =>
    refine ih.trans ?_
    cases hStep with
    | expandHeap hx hRun =>
      obtain ⟨_, _, hRun', hEffect⟩ := ih.half.expandHeap hx
      obtain ⟨_, rfl⟩ := Prod.mk.inj (Except.ok.inj (hRun.symm.trans hRun'))
      exact hEffect
    | store hFrame hWrite hCr3 => exact ih.half.store hFrame hWrite hCr3

end KernelHalf

/-- A mapped page of the window is reached through its first slot. -/
theorem heapView_linked {e : Nat} (hInv : AsInv (k.heapView kernel) kernel) (hx : x < 2 ^ 30)
    (hLeaf : (k.heapView kernel).leafOf kernel x = some e) (hWritable : e.testBit 1 = true) :
    (k.mem (slot kernel heapSlot)).testBit 0 = true ∧
      (k.mem (slot kernel heapSlot)).testBit 1 = true := by
  have hIndex : pml4Index x = 0 := by
    rw [pml4Index_eq]
    omega
  obtain ⟨hEntry, hPresent⟩ := Kmem.leaf_eq_some.mp hLeaf
  obtain ⟨pt, hTable, _⟩ := Kmem.entry_eq_some.mp hEntry
  constructor
  · rw [Kmem.table, vaPath, tableAt_cons, hIndex, heapView_root] at hTable
    obtain ⟨child, hChild, _⟩ := Option.bind_eq_some_iff.mp hTable
    exact (present_of_pteNext hChild).1
  · have hFirst : (k.heapView kernel).entry kernel [] (pml4Index x) =
        some (k.mem (slot kernel heapSlot)) := by
      rw [hIndex, ← heapView_root]
      rfl
    exact (hInv.perms (vaPath x) (ptIndex x) e (tablePath_vaPath (by omega)) rfl (ptIndex_lt x)
      hEntry hPresent [] (pml4Index x) _ _ rfl hFirst).1 hWritable

/-- The first page of the heap, mapped at boot into an empty window. -/
theorem KernelHalf.first {phys : Nat} (hReady : k.pmm.Ready) (hRoot : kernel = frame * pmmPageSize)
    (hLt : frame < k.pmm.totalFrames) (hSet : Bitmap.isSet k.pmm.bitmap frame = true)
    (hBoot : ∀ f, boot f → Bitmap.isSet k.pmm.bitmap f = true) (hApart : ¬ boot frame)
    (hEmpty : k.mem (slot kernel heapSlot) = 0) (hx : x < 2 ^ 30)
    (hRun : mapNewPage k kernel (kernelHeapBase + x) vmmFlagWritable = .ok (some phys, k')) :
    KernelHalf k' kernel boot := by
  have hClear : ∀ i < 256, (k.heapView kernel).mem (slot kernel i) = 0 := by
    intro i hi
    have hPage : slot kernel i / pmmPageSize = kernel / pmmPageSize := by
      simp only [hRoot, slot, pmmPageSize]
      omega
    simp only [Kmem.heapView, hPage, if_true, hEmpty, ite_self]
  have hWindow : Space (k.heapView kernel) kernel boot noSpare :=
    Space.of_empty hReady hClear hRoot hLt hSet hBoot hApart
  obtain ⟨result, k₁, hRun', hStep, hNew, _⟩ := mapNewPage_heapView hWindow hx vmmFlagWritable
  obtain ⟨rfl, rfl⟩ := Prod.mk.inj (Except.ok.inj (hRun.symm.trans hRun'))
  obtain ⟨hLow, hFrame, _, hLeaves⟩ := hNew.mapped phys rfl
  have hLeaf := hLeaves x hLow
  rw [if_pos rfl] at hLeaf
  have hWritable : (leafEntry phys vmmFlagWritable).testBit 1 = true := by
    rw [(leafEntry_bits hFrame vmmFlagWritable).2.2.1]
    decide
  obtain ⟨hPresent, hSlotWritable⟩ := heapView_linked hStep.space.inv hx hLeaf hWritable
  exact ⟨hStep.space, hPresent, hSlotWritable⟩

end Kryos.Memory
