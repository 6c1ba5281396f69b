import Kryos.Syscall.BrkHeap

/-! A call of `sys_brk` that fails. Nothing is rolled back: the pages that the
growing loop mapped before it failed stay mapped above the break, and the same
call then collides with the first of them. -/
namespace Kryos.Syscall

open Memory Process

/-- The call does not return its non-zero argument. -/
def BrkFails (p : BrkProcess) (newBrk : Nat) : Prop :=
  newBrk ≠ 0 ∧ (sysBrk p newBrk).process.brkCurrent ≠ newBrk

/-- Only a lack of frames can stop the call. -/
structure Growable (p : BrkProcess) (newBrk : Nat) : Prop where
  start : p.brkStart ≤ newBrk
  user : newBrk ≤ 2 ^ 47
  free : ∀ va, pageAlignUp p.brkCurrent ≤ va → va < pageAlignUp newBrk →
    vmmGetPhys p.kmem p.pml4 va = none

/-- A later state in which the process has the break and the pages it was left with. -/
structure Later (p q : BrkProcess) : Prop where
  pml4 : q.pml4 = p.pml4
  brkStart : q.brkStart = p.brkStart
  brkCurrent : q.brkCurrent = p.brkCurrent
  space : ∃ foreign, Space q.kmem q.pml4 foreign noSpare
  pages : ∀ va < 2 ^ 47, q.kmem.leafOf q.pml4 va = p.kmem.leafOf q.pml4 va

/-- A page and three tables for every page. -/
def enoughFrames (p : BrkProcess) (newBrk : Nat) : Prop :=
  4 * ((pageAlignUp newBrk - pageAlignUp p.brkCurrent) / 0x1000) ≤ pmmFreeFrames p.kmem.pmm

/-- A failed call has no effect, and the same call succeeds once there are frames. -/
structure FailureHarmless (p : BrkProcess) (newBrk : Nat) : Prop where
  mapped : ∀ va < 2 ^ 47, vmmGetPhys (sysBrk p newBrk).process.kmem p.pml4 va =
    vmmGetPhys p.kmem p.pml4 va
  brkCurrent : (sysBrk p newBrk).process.brkCurrent = p.brkCurrent
  frames : ∀ f, (sysBrk p newBrk).process.kmem.LeafFrame p.pml4 f ↔ p.kmem.LeafFrame p.pml4 f
  retry : Growable p newBrk → ∀ q, Later (sysBrk p newBrk).process q → enoughFrames q newBrk →
    (sysBrk q newBrk).process.brkCurrent = newBrk

/-- With enough frames a call succeeds that only a lack of frames can stop. -/
theorem Growable.succeeds {p : BrkProcess} {newBrk : Nat} (h : Growable p newBrk) (hUser : p.InUser)
    (hNonzero : newBrk ≠ 0) {foreign : Nat → Prop} (hSpace : Space p.kmem p.pml4 foreign noSpare)
    (hFrames : enoughFrames p newBrk) : (sysBrk p newBrk).process.brkCurrent = newBrk := by
  obtain ⟨hStart, hHigh, hFree⟩ := h
  have hCurrent := hUser.2
  have hUpNew := pageAlignUp_of_le (x := newBrk) (by omega)
  have hRange : brkFuel * 0x1000 = 2 ^ 64 := rfl
  rw [enoughFrames, pmmFreeFrames_eq hSpace.ready.consistent] at hFrames
  have hDone := growLoop_succeeds (show pageAlignUp newBrk ≤ 2 ^ 47 by omega) (pageAlignUp_mod _)
    brkFuel hSpace (pageAlignUp_mod p.brkCurrent) (by omega)
    (fun va hLow hBelow => (hSpace.inv.getPhys_eq_none_iff (by omega)).mp (hFree va hLow hBelow))
    hFrames
  by_cases hMore : p.brkCurrent < newBrk
  · unfold sysBrk
    rw [if_neg (by rwa [beq_iff_eq]), if_neg (by omega), if_pos hMore]
    generalize growLoop p.pml4 (pageAlignUp newBrk) brkFuel (pageAlignUp p.brkCurrent) p.kmem =
      result at hDone ⊢
    obtain ⟨events, ending, k⟩ := result
    dsimp only at hDone
    rw [hDone]
  · have hOutcome := sysBrk_outcome hSpace hUser newBrk
    generalize sysBrk p newBrk = c at hOutcome ⊢
    cases hOutcome with
    | refused hArg => omega
    | same hSame => exact hSame.symm
    | grew hGrew => exact absurd hGrew hMore
    | stopped hGrew => exact absurd hGrew hMore
    | shrank => rfl

/-- A failed call without events has left the process as it was, but for new page tables. -/
theorem BrkFails.unchanged {p : BrkProcess} {newBrk : Nat} (hFails : BrkFails p newBrk)
    {foreign : Nat → Prop} (hSpace : Space p.kmem p.pml4 foreign noSpare) (hUser : p.InUser)
    (hEvents : (sysBrk p newBrk).events = []) :
    ∃ k, (sysBrk p newBrk).process = { p with kmem := k } ∧ AsInv k p.pml4 ∧
      ∀ va < 2 ^ 47, k.leafOf p.pml4 va = p.kmem.leafOf p.pml4 va := by
  have hOther := hFails.2
  have hOutcome := sysBrk_outcome hSpace hUser newBrk
  generalize sysBrk p newBrk = c at hOutcome hOther hEvents ⊢
  cases hOutcome with
  | refused => exact ⟨p.kmem, rfl, hSpace.inv, fun _ _ => rfl⟩
  | same => exact ⟨p.kmem, rfl, hSpace.inv, fun _ _ => rfl⟩
  | grew => exact absurd rfl hOther
  | shrank => exact absurd rfl hOther
  | @stopped count k _ hPages =>
    cases count with
    | zero => exact ⟨k, rfl, hPages.step.space.inv, fun va hva => hPages.leaves va hva (by omega)⟩
    | succ count => cases hEvents

/-- A failed call is harmless exactly if it mapped nothing. -/
theorem BrkFails.harmless_iff_events {p : BrkProcess} {newBrk : Nat} (hFails : BrkFails p newBrk)
    {foreign : Nat → Prop} (hSpace : Space p.kmem p.pml4 foreign noSpare) (hUser : p.InUser) :
    FailureHarmless p newBrk ↔ (sysBrk p newBrk).events = [] := by
  obtain ⟨hNonzero, hOther⟩ := hFails
  have hCurrent := hUser.2
  have hOutcome := sysBrk_outcome hSpace hUser newBrk
  constructor
  · intro hHarmless
    have hMapped := hHarmless.mapped
    generalize sysBrk p newBrk = c at hOutcome hOther hMapped ⊢
    cases hOutcome with
    | refused => rfl
    | same => rfl
    | grew => exact absurd rfl hOther
    | shrank => exact absurd rfl hOther
    | @stopped count k hMore hPages hTop hReach =>
      cases count with
      | zero => rfl
      | succ count =>
        -- the first page of the range is mapped now and was not before
        have hNow := hMapped (pageAlignUp p.brkCurrent) (by omega)
        have hBefore := hPages.wasFree (pageAlignUp p.brkCurrent) (Nat.le_refl _) (by omega)
        rw [(hSpace.inv.getPhys_eq_none_iff (by omega)).mpr hBefore] at hNow
        rw [hPages.step.space.inv.getPhys_eq_none_iff (by omega), hPages.memory,
          Sparse.Memory.clear, if_pos (by omega)] at hNow
        cases hNow
  · intro hEvents
    obtain ⟨k, hProcess, hInv, hLeaves⟩ :=
      BrkFails.unchanged ⟨hNonzero, hOther⟩ hSpace hUser hEvents
    refine ⟨fun va hva => ?_, by rw [hProcess], fun f => ?_, fun hGrowable q hLater hFrames => ?_⟩
    · rw [hProcess, hInv.getPhys hva, hSpace.inv.getPhys hva, hLeaves va hva]
    · rw [hProcess]
      refine exists_congr fun va => and_congr_right fun hva => ?_
      rw [hLeaves va hva]
    · rw [hProcess] at hLater
      obtain ⟨hRoot, hStart, hBrk, ⟨foreign', hSpace'⟩, hPages⟩ := hLater
      have hAgain : Growable q newBrk := by
        refine ⟨hStart ▸ hGrowable.start, hGrowable.user, fun va hLow hBelow => ?_⟩
        have hTop := hGrowable.user
        have hUpNew := pageAlignUp_of_le (x := newBrk) (by omega)
        have hva : va < 2 ^ 47 := by omega
        have hNone := hGrowable.free va (hBrk ▸ hLow) hBelow
        rw [hSpace.inv.getPhys hva, Option.map_eq_none_iff] at hNone
        rw [hSpace'.inv.getPhys hva, hPages va hva, hRoot, hLeaves va hva, hNone]
        rfl
      refine hAgain.succeeds ⟨?_, ?_⟩ hNonzero hSpace' hFrames
      · rw [hStart, hBrk]
        exact hUser.1
      · rw [hBrk]
        exact hCurrent

/-- The first new page can be mapped: it lies in the user half, there is no page
yet, and there are frames for it and for the missing tables above it. -/
def FirstPageMaps (p : BrkProcess) : Prop :=
  pageAlignUp p.brkCurrent < 2 ^ 47 ∧
    vmmGetPhys p.kmem p.pml4 (pageAlignUp p.brkCurrent) = none ∧
    p.kmem.missing p.pml4 (pageAlignUp p.brkCurrent) < pmmFreeFrames p.kmem.pmm

/-- A call that has a page to add maps nothing exactly if it cannot map the first. -/
theorem sysBrk_events_eq_nil_iff {p : BrkProcess} {newBrk : Nat} {foreign : Nat → Prop}
    (hSpace : Space p.kmem p.pml4 foreign noSpare) (hUser : p.InUser)
    (hGrow : p.brkCurrent < newBrk) (hMore : pageAlignUp p.brkCurrent < pageAlignUp newBrk) :
    (sysBrk p newBrk).events = [] ↔ ¬ FirstPageMaps p := by
  obtain ⟨hStart, hCurrent⟩ := hUser
  have hUp := pageAlignUp_of_le (x := p.brkCurrent) (by omega)
  have hAligned := pageAlignUp_mod p.brkCurrent
  have hEvents : (sysBrk p newBrk).events =
      (growLoop p.pml4 (pageAlignUp newBrk) brkFuel (pageAlignUp p.brkCurrent) p.kmem).1 := by
    unfold sysBrk
    rw [if_neg (by rw [beq_iff_eq]; omega), if_neg (by omega), if_pos hGrow]
    generalize growLoop p.pml4 (pageAlignUp newBrk) brkFuel _ p.kmem = result
    obtain ⟨events, ending, k⟩ := result
    cases ending <;> rfl
  rw [hEvents, show brkFuel = 2 ^ 52 - 1 + 1 from rfl]
  obtain ⟨ok, k', hRun, _, hMapped⟩ :=
    mapFreshPage_newPage hSpace (show pageAlignUp p.brkCurrent ≤ 2 ^ 47 by omega) hAligned brkFlags
  have hFirst : ok = true ↔ FirstPageMaps p := by
    rw [FirstPageMaps, pmmFreeFrames_eq hSpace.ready.consistent]
    by_cases hPage : pageAlignUp p.brkCurrent < 2 ^ 47
    · obtain ⟨_, _, hRun', hFrames, _⟩ := mapFreshPage_frames hSpace hPage hAligned brkFlags
      cases hRun.symm.trans hRun'
      rw [hFrames, hSpace.inv.getPhys hPage, Option.map_eq_none_iff]
      exact (and_iff_right hPage).symm
    · refine iff_of_false (fun hOk => hPage ?_) (fun hMaps => hPage hMaps.1)
      have hInside := (hMapped hOk).1
      omega
  rw [growLoop_round hMore hRun, ← hFirst]
  cases ok <;> simp

/-- A failed call has no effect exactly if its argument lies below the initial break or its
first page cannot be mapped. -/
theorem failed_brk_harmless_iff {p : BrkProcess} {foreign : Nat → Prop}
    (hSpace : Space p.kmem p.pml4 foreign noSpare) (hUser : p.InUser) (newBrk : Nat) :
    (BrkFails p newBrk → FailureHarmless p newBrk) ↔
      (BrkFails p newBrk → newBrk < p.brkStart ∨ ¬ FirstPageMaps p) := by
  refine forall_congr' fun hFails => ?_
  rw [hFails.harmless_iff_events hSpace hUser]
  obtain ⟨hNonzero, hOther⟩ := hFails
  have hStart := hUser.1
  have hFirst := @sysBrk_events_eq_nil_iff p newBrk foreign hSpace hUser
  have hOutcome := sysBrk_outcome hSpace hUser newBrk
  generalize sysBrk p newBrk = c at hOutcome hOther hFirst ⊢
  cases hOutcome with
  | refused hArg => exact iff_of_true rfl (Or.inl (hArg.resolve_left hNonzero))
  | same hSame => exact absurd hSame.symm hOther
  | grew => exact absurd rfl hOther
  | shrank => exact absurd rfl hOther
  | stopped hMore _ _ hReach =>
    rw [hFirst hMore (by omega)]
    exact (or_iff_right (by omega)).symm

/-- A machine with five free frames. -/
def scarceMachine : Kmem :=
  { directMapMachine with
    pmm := { directMapMachine.pmm with
      bitmap := fun i => if i < 7 then 0xFF else 0x07
      usedFrames := 59 } }

theorem scarceMachine_ready : scarceMachine.pmm.Ready where
  consistent :=
    { aligned := rfl
      bounded := by decide
      size := rfl
      spare := by
        intro i hLow hHigh
        simp only [scarceMachine, directMapMachine] at hLow hHigh
        omega
      count := by decide +kernel }
  reserved := by
    intro frame _ hBelow
    simp only [scarceMachine, directMapMachine, Pmm.bitmapEnd, pmmPageSize] at hBelow
    have hLow : frame < 8 := by omega
    interval_cases frame <;> decide
  physical := by decide

/-- Its first process, which takes one of them. -/
def scarceProcess : BrkProcess := spawned (vmmCreateAddressSpace scarceMachine).2 0x3B000

theorem scarceProcess_space : Space scarceProcess.kmem 0x3B000 (fun _ => False) noSpare := by
  have hRoot : (vmmCreateAddressSpace scarceMachine).1 = some 0x3B000 := by decide +kernel
  exact Space.create scarceMachine_ready (fun _ hNone => hNone.elim) (Prod.ext hRoot rfl)

theorem scarceProcess_inUser : scarceProcess.InUser :=
  ⟨Nat.le_refl _, by decide⟩

/-- The process after a call for two pages, of which it got one. -/
def exhaustedProcess : BrkProcess := (sysBrk scarceProcess 0x10002000).process

theorem exhaustedProcess_first :
    vmmGetPhys exhaustedProcess.kmem 0x3B000 0x10000000 = some 0x3C000 := by decide +kernel

/-- Without a free frame, and with a page in the way, the call maps nothing. -/
theorem failed_brk_harmless_iff_exhausted :
    pmmFreeFrames exhaustedProcess.kmem.pmm = 0 ∧ BrkFails exhaustedProcess 0x10002000 ∧
      FailureHarmless exhaustedProcess 0x10002000 := by
  have hStep := (sysBrk_outcome scarceProcess_space scarceProcess_inUser 0x10002000).step
    scarceProcess_space
  have hBrk : exhaustedProcess.brkCurrent = 0x10000000 := by decide +kernel
  have hUser : exhaustedProcess.InUser := by
    rw [BrkProcess.InUser, hBrk]
    exact ⟨by decide +kernel, by decide⟩
  have hRoot : exhaustedProcess.pml4 = 0x3B000 := by decide +kernel
  have hFails : BrkFails exhaustedProcess 0x10002000 := ⟨by decide, by decide +kernel⟩
  have hSpace : Space exhaustedProcess.kmem exhaustedProcess.pml4 (fun _ => False) noSpare :=
    hRoot ▸ hStep.space
  have hTaken : ¬ FirstPageMaps exhaustedProcess := by
    rintro ⟨_, hNone, _⟩
    rw [hRoot, hBrk, show pageAlignUp 0x10000000 = 0x10000000 by decide,
      exhaustedProcess_first] at hNone
    cases hNone
  exact ⟨by decide +kernel, hFails,
    (failed_brk_harmless_iff hSpace hUser 0x10002000).mpr (fun _ => Or.inr hTaken) hFails⟩

/-- The same process when another one has given back twenty frames. -/
def relievedProcess : BrkProcess :=
  { exhaustedProcess with
    kmem := { exhaustedProcess.kmem with
      pmm := { exhaustedProcess.kmem.pmm with
        bitmap := fun i => if i = 2 ∨ i = 3 then 0 else if i = 4 then 0xF0 else
          exhaustedProcess.kmem.pmm.bitmap i
        usedFrames := exhaustedProcess.kmem.pmm.usedFrames - 20 } } }

/-- The first of two pages takes all frames. The call fails, but the page stays, and with
twenty free frames the same call fails again. -/
theorem scarce_brk_not_harmless :
    (∃ foreign, Space scarceProcess.kmem scarceProcess.pml4 foreign noSpare) ∧
      scarceProcess.InUser ∧
    BrkFails scarceProcess 0x10002000 ∧
    vmmGetPhys scarceProcess.kmem 0x3B000 0x10000000 = none ∧
    vmmGetPhys exhaustedProcess.kmem 0x3B000 0x10000000 = some 0x3C000 ∧
    pmmFreeFrames relievedProcess.kmem.pmm = 20 ∧
    BrkFails relievedProcess 0x10002000 ∧ ¬ FailureHarmless scarceProcess 0x10002000 := by
  have hBefore : vmmGetPhys scarceProcess.kmem 0x3B000 0x10000000 = none := by decide +kernel
  refine ⟨⟨_, scarceProcess_space⟩, scarceProcess_inUser, ⟨by decide, by decide +kernel⟩, hBefore,
    exhaustedProcess_first, by decide +kernel, ⟨by decide, by decide +kernel⟩, fun hHarmless => ?_⟩
  have hSame : vmmGetPhys exhaustedProcess.kmem 0x3B000 0x10000000 =
      vmmGetPhys scarceProcess.kmem 0x3B000 0x10000000 := hHarmless.mapped 0x10000000 (by decide)
  rw [exhaustedProcess_first, hBefore] at hSame
  cases hSame

end Kryos.Syscall
