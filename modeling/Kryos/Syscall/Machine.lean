import Kryos.Syscall.BrkMemory
import Kryos.Syscall.Execve

/-! Runs of the whole machine. Address spaces are created, loaded, grown, written by their
programs, switched to and destroyed in any order, with kernel work in between. -/
namespace Kryos.Syscall

open Memory Process

structure Machine where
  kmem : Kmem
  /-- The PML4s of the address spaces in use. -/
  live : Nat → Prop

/-- A step of the process whose PML4 is given, or of the kernel. -/
inductive MachineStep (kernel : Nat) (boot : Nat → Prop) (m : Machine) : Nat → Machine → Prop where
  | create {root : Nat} {k : Kmem} (hRun : vmmCreateAddressSpace m.kmem = (some root, k)) :
      MachineStep kernel boot m kernel ⟨k, fun r => m.live r ∨ r = root⟩
  | load {root : Nat} {k : Kmem} {result : Except ElfLoadError (Nat × Nat)} (hLive : m.live root)
      (img : ElfImage) (argv envp : List ArgString)
      (hRun : elfLoadImage m.kmem root img argv envp = .ok (result, k)) :
      MachineStep kernel boot m root ⟨k, m.live⟩
  /-- `sys_brk` with a break in the user half. -/
  | brk {p : BrkProcess} (hKmem : p.kmem = m.kmem) (hLive : m.live p.pml4) (hUser : p.InUser)
      (newBrk : Nat) :
      MachineStep kernel boot m p.pml4 ⟨(sysBrk p newBrk).process.kmem, m.live⟩
  /-- Stores into a page of the space, by the program or by the kernel for it. -/
  | store {root frame : Nat} {k : Kmem} (hLive : m.live root) (hPage : m.kmem.LeafFrame root frame)
      (hWrite : FrameWrite m.kmem k frame) (hCr3 : k.cr3 = m.kmem.cr3) :
      MachineStep kernel boot m root ⟨k, m.live⟩
  | work {k : Kmem} (hWork : KernelWork kernel boot m.kmem k) :
      MachineStep kernel boot m kernel ⟨k, m.live⟩
  | switch (root : Nat) : MachineStep kernel boot m kernel ⟨{ m.kmem with cr3 := root }, m.live⟩
  | destroy {root : Nat} {k : Kmem} (hLive : m.live root)
      (hRun : vmmDestroyAddressSpace m.kmem root = .ok k) :
      MachineStep kernel boot m root ⟨k, fun r => m.live r ∧ r ≠ root⟩

/-- Any number of steps by those that `acts` allows. -/
def MachineRun (kernel : Nat) (boot acts : Nat → Prop) : Machine → Machine → Prop :=
  Relation.ReflTransGen fun m m' => ∃ actor, acts actor ∧ MachineStep kernel boot m actor m'

variable {kernel actor q : Nat} {boot acts : Nat → Prop} {m m' : Machine} {k : Kmem}

/-- Every step keeps the spaces apart and leaves those of the others alone. -/
theorem MachineStep.spaces (h : Spaces m.kmem kernel boot m.live)
    (hStep : MachineStep kernel boot m actor m') :
    Spaces m'.kmem kernel boot m'.live ∧
      ∀ r, m.live r → r ≠ actor → m'.live r ∧ Undisturbed m.kmem m'.kmem r := by
  have hOwner {k : Kmem} (hLive : m.live actor)
      (hOwn : SpaceStep m.kmem k actor (Others m.kmem kernel boot m.live actor)) :
      Spaces k kernel boot m.live ∧
        ∀ r, m.live r → r ≠ actor → m.live r ∧ Undisturbed m.kmem k r := by
    obtain ⟨hSpaces, hQuiet⟩ := h.step hLive hOwn
    exact ⟨hSpaces, fun r hr hNe => ⟨hr, hQuiet r hr hNe⟩⟩
  cases hStep with
  | create hRun =>
    obtain ⟨hSpaces, _, hQuiet⟩ := h.create hRun
    exact ⟨hSpaces, fun r hr _ => ⟨Or.inl hr, hQuiet r hr⟩⟩
  | load hLive img argv envp hRun =>
    obtain ⟨_, _, hRun', hOwn⟩ := (spaceStep_loaderInvariant m.kmem actor _).elfLoadImage img argv
      envp (SpaceStep.refl (h.others hLive))
    cases hRun.symm.trans hRun'
    exact hOwner hLive hOwn
  | brk hKmem hLive hUser newBrk =>
    have hSpace := hKmem ▸ h.others hLive
    exact hOwner hLive (hKmem ▸ (sysBrk_outcome hSpace hUser newBrk).step hSpace)
  | store hLive hPage hWrite hCr3 =>
    exact hOwner hLive ((h.others hLive).frameWrite_step hPage hWrite hCr3)
  | work hWork =>
    obtain ⟨hSpaces, hQuiet⟩ := h.work hWork
    exact ⟨hSpaces, fun r hr _ => ⟨hr, hQuiet r hr⟩⟩
  | switch root =>
    obtain ⟨hSpaces, hQuiet⟩ := h.loadCr3 root
    exact ⟨hSpaces, fun r hr _ => ⟨hr, hQuiet r hr⟩⟩
  | destroy hLive hRun =>
    obtain ⟨_, hRun', hSpaces, _, _, _, hQuiet⟩ := h.destroy hLive
    cases hRun.symm.trans hRun'
    exact ⟨hSpaces, fun r hr hNe => ⟨⟨hr, hNe⟩, hQuiet r hr hNe⟩⟩

theorem MachineRun.spaces (h : Spaces m.kmem kernel boot m.live)
    (hRun : MachineRun kernel boot acts m m') : Spaces m'.kmem kernel boot m'.live := by
  induction hRun with
  | refl => exact h
  | tail _ hLast ih =>
    obtain ⟨_, _, hStep⟩ := hLast
    exact (hStep.spaces ih).1

section Results

variable (hHalf : KernelHalf k kernel boot)
  (hRun : MachineRun kernel boot (fun _ => True) ⟨k, fun _ => False⟩ m)

include hHalf hRun

/-- No frame is a page at two places, and none is a page here and a table or the kernel's there. -/
theorem machine_isolated :
    (∀ r q va vb phys, m.live r → m.live q → va < 2 ^ 47 → vb < 2 ^ 47 → va % pmmPageSize = 0 →
      vb % pmmPageSize = 0 → vmmGetPhys m.kmem r va = some phys →
      vmmGetPhys m.kmem q vb = some phys → r = q ∧ va = vb) ∧
    ∀ r q f, m.live r → m.live q → m.kmem.LeafFrame r f →
      ¬ m.kmem.TableFrame q f ∧ ¬ KernelFrame m.kmem kernel boot f := by
  have h := hRun.spaces (Spaces.none hHalf)
  constructor
  · intro r q va vb phys hr hq hva hvb hAligned hAligned' hPhys hPhys'
    have hInv := (h.space r hr).inv
    obtain ⟨f, rfl, hLeaf⟩ := getPhys_leafFrame hInv hva hAligned hPhys
    obtain ⟨g, hSame, hLeaf'⟩ := getPhys_leafFrame (h.space q hq).inv hvb hAligned' hPhys'
    obtain rfl := PmmClient.Holds.page_mul_inj hSame
    obtain rfl := h.apart r q f hr hq (Or.inr hLeaf) (Or.inr hLeaf')
    rw [hInv.getPhys hva, Option.map_eq_some_iff, hAligned] at hPhys
    rw [hInv.getPhys hvb, Option.map_eq_some_iff, hAligned'] at hPhys'
    obtain ⟨e, he, hMask⟩ := hPhys
    obtain ⟨e', he', hMask'⟩ := hPhys'
    have hPage := (h.space r hr).once va hva vb hvb e e' he he' (hMask.trans hMask'.symm)
    simp only [pmmPageSize] at hAligned hAligned' hPage
    exact ⟨rfl, by omega⟩
  · intro r q f hr hq hLeaf
    refine ⟨fun hTable => ?_, h.kernelApart r f hr (Or.inr hLeaf)⟩
    obtain rfl := h.apart r q f hr hq (Or.inr hLeaf) (Or.inl hTable)
    exact ((h.space r hr).pages f (Or.inl hLeaf)).2.2.2.2 hTable

/-- A process sees nothing of what others do, and they cannot end it. -/
theorem machine_private (hLive : m.live q) (hRest : MachineRun kernel boot (· ≠ q) m m') :
    m'.live q ∧ m'.kmem.memory q = m.kmem.memory q := by
  have h := hRun.spaces (Spaces.none hHalf)
  induction hRest with
  | refl => exact ⟨hLive, rfl⟩
  | @tail m₁ _ hBefore hLast ih =>
    obtain ⟨_, hActs, hStep⟩ := hLast
    have hSpaces := MachineRun.spaces h hBefore
    obtain ⟨hStays, hQuiet⟩ := (hStep.spaces hSpaces).2 q ih.1 (Ne.symm hActs)
    exact ⟨hStays, (hQuiet.memory_eq (hSpaces.space q ih.1).inv).trans ih.2⟩

/-- No call on a space in use panics. -/
theorem machine_never_panics (hLive : m.live q) :
    (∀ img argv envp, ∃ r, elfLoadImage m.kmem q img argv envp = .ok r) ∧
    (∃ k', vmmDestroyAddressSpace m.kmem q = .ok k') ∧
    ∀ p : BrkProcess, p.kmem = m.kmem → p.pml4 = q → p.InUser → ∀ newBrk,
      (sysBrk p newBrk).ending = .completed ∨ (sysBrk p newBrk).ending = .refused := by
  have h := hRun.spaces (Spaces.none hHalf)
  have hSpace := h.others hLive
  refine ⟨fun img argv envp => ?_, (h.destroy hLive).imp fun _ => And.left, ?_⟩
  · obtain ⟨_, _, hLoad, _⟩ := (spaceStep_loaderInvariant m.kmem q _).elfLoadImage img argv envp
      (SpaceStep.refl hSpace)
    exact ⟨_, hLoad⟩
  · rintro p hKmem rfl hUser newBrk
    have hOutcome := sysBrk_outcome (hKmem ▸ hSpace) hUser newBrk
    generalize sysBrk p newBrk = call at hOutcome
    cases hOutcome with
    | refused | stopped => exact Or.inr rfl
    | same | grew | shrank => exact Or.inl rfl

end Results

/-- A second process, loaded beside the first one. -/
@[irreducible] def twoProcesses : Kmem :=
  loadedKmem (elfLoadImage (vmmCreateAddressSpace loadedMachine).2 0x25000 codeAndDataElf [] [])

theorem twoProcesses_run :
    MachineRun 0x1000 imageFrame (fun _ => True) ⟨heapMachine, fun _ => False⟩
    ⟨twoProcesses, fun r => (False ∨ r = 0xC000) ∨ r = 0x25000⟩ := by
  have hRoot : (vmmCreateAddressSpace loadedMachine).1 = some 0x25000 := by decide +kernel
  have hLoad : elfLoadImage (vmmCreateAddressSpace loadedMachine).2 0x25000 codeAndDataElf
      [] [] = .ok (.ok (0x400000, 0x7FFFFFFFEFE8), twoProcesses) := by
    unfold twoProcesses
    exact loadedKmem_eq (by decide +kernel)
  have hFirst : MachineStep 0x1000 imageFrame ⟨firstProcess.kmem, fun r => False ∨ r = 0xC000⟩
      0xC000 ⟨loadedMachine, fun r => False ∨ r = 0xC000⟩ :=
    .load (Or.inr rfl) _ _ _ loadedMachine_loaded
  refine .head ⟨_, trivial, .create firstProcess_created⟩ (.head ⟨_, trivial, hFirst⟩ ?_)
  exact .head ⟨_, trivial, .create (Prod.fst_eq_iff.mp hRoot)⟩
    (.single ⟨_, trivial, .load (Or.inr rfl) _ _ _ hLoad⟩)

/-- The code pages of the two processes are different frames, and the page of one is no table
of the other. -/
theorem machine_isolated_twoProcesses :
    ∃ f phys, vmmGetPhys twoProcesses 0xC000 0x400000 = some (f * pmmPageSize) ∧
      vmmGetPhys twoProcesses 0x25000 0x400000 = some phys ∧ f * pmmPageSize ≠ phys ∧
      twoProcesses.LeafFrame 0xC000 f ∧ ¬ twoProcesses.TableFrame 0x25000 f := by
  have hMapped : (vmmGetPhys twoProcesses 0xC000 0x400000).isSome = true ∧
      (vmmGetPhys twoProcesses 0x25000 0x400000).isSome = true := by decide +kernel
  obtain ⟨_, hFirst⟩ := Option.isSome_iff_exists.mp hMapped.1
  obtain ⟨phys, hSecond⟩ := Option.isSome_iff_exists.mp hMapped.2
  have hSpaces := twoProcesses_run.spaces (Spaces.none heapMachine_half)
  obtain ⟨f, rfl, hLeaf⟩ := getPhys_leafFrame (hSpaces.space 0xC000 (Or.inl (Or.inr rfl))).inv
    (by decide) (by decide) hFirst
  obtain ⟨hPages, hTables⟩ := machine_isolated heapMachine_half twoProcesses_run
  refine ⟨f, phys, hFirst, hSecond, ?_, hLeaf,
    (hTables 0xC000 0x25000 f (Or.inl (Or.inr rfl)) (Or.inr rfl) hLeaf).1⟩
  rintro rfl
  have hSame := hPages 0xC000 0x25000 0x400000 0x400000 _ (Or.inl (Or.inr rfl)) (Or.inr rfl)
    (by decide) (by decide) (by decide) (by decide) hFirst hSecond
  exact absurd hSame.1 (by decide)

/-- The second process grows its heap by a page, and the memory of the first stays. -/
theorem machine_private_twoProcesses :
    let grown := sysBrk (spawned twoProcesses 0x25000) 0x10001000
    grown.ending = .completed ∧ (vmmGetPhys twoProcesses 0xC000 0x400000).isSome = true ∧
      grown.process.kmem.memory 0xC000 = twoProcesses.memory 0xC000 := by
  have hUser : (spawned twoProcesses 0x25000).InUser := ⟨Nat.le_refl _, by decide⟩
  refine ⟨by decide +kernel, by decide +kernel, ?_⟩
  exact (machine_private heapMachine_half twoProcesses_run (Or.inl (Or.inr rfl))
    (.single ⟨0x25000, by decide, .brk rfl (Or.inr rfl) hUser 0x10001000⟩)).2

theorem machine_never_panics_twoProcesses :
    ∃ k', vmmDestroyAddressSpace twoProcesses 0xC000 = .ok k' :=
  (machine_never_panics heapMachine_half twoProcesses_run (Or.inl (Or.inr rfl))).2.1

end Kryos.Syscall
