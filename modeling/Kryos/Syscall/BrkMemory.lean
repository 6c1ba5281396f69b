import Kryos.Process.ElfMemory
import Kryos.Syscall.BrkPages

/-! `sys_brk` on the memory of a process. The growing loop adds zeroed pages from
the old end on, as far as it gets; the shrinking loop drops the pages above the
new end and gives back their frames. -/
namespace Kryos.Syscall

open Word Memory Process

/-- The access of a heap page. -/
def heapAccess : Access := Access.requested brkFlags

/-- The events of mapping `count` pages from `va` on. -/
def mapEvents : Nat → Nat → List PageEvent
  | _, 0 => []
  | va, count + 1 => .map va :: mapEvents (va + 0x1000) count

theorem mem_mapEvents {e : PageEvent} {va count : Nat} :
    e ∈ mapEvents va count ↔ ∃ n < count, e = .map (va + n * 0x1000) := by
  induction count generalizing va with
  | zero => simp [mapEvents]
  | succ count ih =>
    rw [mapEvents, List.mem_cons, ih]
    constructor
    · rintro (rfl | ⟨n, hn, rfl⟩)
      · exact ⟨0, by omega, by rw [Nat.zero_mul, Nat.add_zero]⟩
      · exact ⟨n + 1, by omega, by rw [Nat.succ_mul, Nat.add_assoc, Nat.add_comm 0x1000]⟩
    · rintro ⟨n, hn, rfl⟩
      cases n with
      | zero => exact Or.inl (by rw [Nat.zero_mul, Nat.add_zero])
      | succ n =>
        exact Or.inr ⟨n, by omega, by rw [Nat.succ_mul, Nat.add_assoc, Nat.add_comm 0x1000]⟩

section Loops

variable {k : Kmem} {root : Nat} {foreign : Nat → Prop}

/-- The growing loop adds pages up to the new end, or stops before it. -/
theorem growLoop_memory {endPage : Nat} (hEnd : endPage % 0x1000 = 0) (fuel : Nat) {va : Nat}
    (h : Space k root foreign noSpare) (hVa : va ≤ 2 ^ 47) (hAligned : va % 0x1000 = 0)
    (hFuel : endPage ≤ va + fuel * 0x1000) :
    ∃ count ending k', growLoop root endPage fuel va k = (mapEvents va count, ending, k') ∧
      NewPages k k' root foreign va count heapAccess ∧ va + count * 0x1000 ≤ 2 ^ 47 ∧
      (ending = .completed ∧ va + count * 0x1000 = max va endPage ∨
        ending = .refused ∧ va + count * 0x1000 < endPage) := by
  induction fuel generalizing va k with
  | zero =>
    refine ⟨0, .completed, k, ?_, NewPages.nil h va heapAccess, by omega, Or.inl ⟨rfl, by omega⟩⟩
    rw [growLoop, if_neg (by omega)]
    rfl
  | succ fuel ih =>
    by_cases hMore : va < endPage
    · obtain ⟨ok, k₁, hRun, hRefused, hMapped⟩ := mapFreshPage_newPage h hVa hAligned brkFlags
      rw [growLoop_round hMore hRun]
      cases ok with
      | false =>
        exact ⟨0, .refused, k₁, rfl, hRefused rfl, by omega, Or.inr ⟨rfl, by omega⟩⟩
      | true =>
        obtain ⟨hUser, hFirst⟩ := hMapped rfl
        obtain ⟨count, ending, k₂, hRest, hPages, hHigh, hEnding⟩ :=
          @ih k₁ (va + 0x1000) hFirst.step.space (by omega) (by omega) (by omega)
        have hReach : va + 0x1000 + count * 0x1000 = va + (count + 1) * 0x1000 := by omega
        rw [if_pos rfl, u64_of_lt (by omega), hRest]
        rw [hReach] at hHigh hEnding
        refine ⟨count + 1, ending, k₂, rfl, hFirst.cons hPages, hHigh, ?_⟩
        obtain ⟨hDone, hReached⟩ | hStopped := hEnding
        · exact Or.inl ⟨hDone, by omega⟩
        · exact Or.inr hStopped
    · refine ⟨0, .completed, k, ?_, NewPages.nil h va heapAccess, by omega, Or.inl ⟨rfl, by omega⟩⟩
      rw [growLoop, if_neg hMore]
      rfl

/-- Four frames a page are enough to grow where nothing is mapped. -/
theorem growLoop_succeeds {endPage : Nat} (hUser : endPage ≤ 2 ^ 47) (hEnd : endPage % 0x1000 = 0)
    (fuel : Nat) {va : Nat} (h : Space k root foreign noSpare) (hAligned : va % 0x1000 = 0)
    (hFuel : endPage ≤ va + fuel * 0x1000)
    (hNone : ∀ a, va ≤ a → a < endPage → k.memory root a = none)
    (hFree : 4 * ((endPage - va) / 0x1000) ≤ k.pmm.clearFrames.card) :
    (growLoop root endPage fuel va k).2.1 = .completed := by
  induction fuel generalizing va k with
  | zero => rw [growLoop, if_neg (by omega)]
  | succ fuel ih =>
    by_cases hMore : va < endPage
    · have hVa : va < 2 ^ 47 := by omega
      have hTables := k.missing_le root va
      obtain ⟨ok, k₁, hRun, hFrames, hUsed⟩ := mapFreshPage_frames h hVa hAligned brkFlags
      obtain ⟨_, _, hRun', _, hMapped⟩ := mapFreshPage_newPage h hVa.le hAligned brkFlags
      cases hRun.symm.trans hRun'
      obtain rfl := hFrames.mpr
        ⟨(Kmem.memory_eq_none_iff hVa).mp (hNone va (Nat.le_refl _) hMore), by omega⟩
      obtain ⟨_, hFirst⟩ := hMapped rfl
      have hLeft := hUsed rfl
      rw [growLoop_round hMore hRun, if_pos rfl, u64_of_lt (by omega)]
      refine ih hFirst.step.space (by omega) (by omega) ?_ (by omega)
      intro a hLow hHigh
      rw [hFirst.memory, Sparse.Memory.clear, if_neg (by omega)]
      exact hNone a (by omega) hHigh
    · rw [growLoop, if_neg hMore]

/-- The frames behind the pages of a range. -/
def framesIn (k : Kmem) (root low high f : Nat) : Prop :=
  ∃ page, low ≤ page ∧ page < high ∧ page % 0x1000 = 0 ∧
    vmmGetPhys k root page = some (f * pmmPageSize)

/-- The shrinking loop drops every page up to the old end. -/
structure Shrunk (k k' : Kmem) (root : Nat) (foreign : Nat → Prop) (low high : Nat)
    (events : List PageEvent) : Prop where
  step : SpaceStep k k' root foreign
  memory : k'.memory root = (k.memory root).drop low high
  freed : k.pmm.Freed k'.pmm (framesIn k root low high)
  unmaps : ∀ page, .unmap page ∈ events ↔
    low ≤ page ∧ page < high ∧ page % 0x1000 = 0 ∧ (k.memory root page).isSome = true
  noMap : ∀ page, .map page ∉ events

theorem Shrunk.nil (h : Space k root foreign noSpare) {low high : Nat} (hEmpty : high ≤ low) :
    Shrunk k k root foreign low high [] := by
  refine ⟨SpaceStep.refl h, ?_, Pmm.Freed.none h.ready ?_, ?_, by simp⟩
  · funext va
    exact (if_neg (by omega)).symm
  · rintro f ⟨page, hLow, hHigh, _⟩
    omega
  · simp only [List.not_mem_nil, false_iff]
    omega

theorem Shrunk.skip {k' : Kmem} {va high : Nat} {events : List PageEvent}
    (hAligned : va % 0x1000 = 0)
    (hUser : va + 0x1000 ≤ 2 ^ 47) (hHigh : va + 0x1000 ≤ high) (hInv : AsInv k root)
    (hPhys : vmmGetPhys k root va = none)
    (h : Shrunk k k' root foreign (va + 0x1000) high events) :
    Shrunk k k' root foreign va high events := by
  have hNone := (hInv.getPhys_eq_none_iff (by omega)).mp hPhys
  refine ⟨h.step, ?_, h.freed.congr fun f => ?_, fun page => ?_, h.noMap⟩
  · rw [h.memory]
    funext a
    unfold Sparse.Memory.drop
    by_cases hHere : va ≤ a ∧ a < va + 0x1000
    · rw [if_neg (by omega), if_pos (by omega), ← Option.isNone_iff_eq_none, ← Option.not_isSome,
        memory_isSome_page (by omega) (show va < 2 ^ 47 by omega)
          (by simp only [pmmPageSize]; omega), hNone]
      rfl
    · simp only [show va + 0x1000 ≤ a ∧ a < high ↔ va ≤ a ∧ a < high by omega]
  · constructor
    · rintro ⟨page, hLow, hRest⟩
      exact ⟨page, by omega, hRest⟩
    · rintro ⟨page, hLow, hLt, hPage, hFrame⟩
      refine ⟨page, ?_, hLt, hPage, hFrame⟩
      by_contra hNot
      rw [show page = va by omega, hPhys] at hFrame
      cases hFrame
  · rw [h.unmaps]
    constructor
    · rintro ⟨hLow, hRest⟩
      exact ⟨by omega, hRest⟩
    · rintro ⟨hLow, hLt, hPage, hSome⟩
      refine ⟨?_, hLt, hPage, hSome⟩
      by_contra hNot
      rw [show page = va by omega, hNone] at hSome
      cases hSome

theorem Shrunk.cons {k₁ k' : Kmem} {va high phys : Nat} {events : List PageEvent}
    (hAligned : va % 0x1000 = 0) (hHigh : va + 0x1000 ≤ high) (hUser : high ≤ 2 ^ 47)
    (hInv : AsInv k root) (hPhys : vmmGetPhys k root va = some phys)
    (hStep : SpaceStep k k₁ root foreign) (hFreed : k.pmm.Freed k₁.pmm (· = phys / pmmPageSize))
    (hLeaves : ∀ vb < 2 ^ 47, k₁.leafOf root vb =
      if vb / pmmPageSize = va / pmmPageSize then none else k.leafOf root vb)
    (hMemory : k₁.memory root = (k.memory root).drop va (va + 0x1000))
    (h : Shrunk k₁ k' root foreign (va + 0x1000) high events) :
    Shrunk k k' root foreign va high (.unmap va :: .free va :: events) := by
  obtain ⟨frame, hFrame, _⟩ := getPhys_leafFrame hInv (show va < 2 ^ 47 by omega) hAligned hPhys
  have hDiv : phys / pmmPageSize = frame := by rw [hFrame, Nat.mul_div_cancel _ (by decide)]
  -- the other pages of the range are as before
  have hOther : ∀ page, va + 0x1000 ≤ page → page < high →
      vmmGetPhys k₁ root page = vmmGetPhys k root page := by
    intro page hLow hLt
    rw [hStep.space.inv.getPhys (by omega), hInv.getPhys (by omega),
      hLeaves page (by omega), if_neg]
    simp only [pmmPageSize]
    omega
  have hThere : ∀ page, va + 0x1000 ≤ page → k₁.memory root page = k.memory root page := by
    intro page hLow
    rw [hMemory]
    exact if_neg (by omega)
  refine ⟨hStep.trans h.step, ?_, (hFreed.trans h.freed).congr fun f => ?_, fun page => ?_, ?_⟩
  · rw [h.memory, hMemory]
    exact Sparse.Memory.drop_append (Nat.le_add_right _ _) hHigh
  · constructor
    · rintro (rfl | ⟨page, hLow, hLt, hPage, hAt⟩)
      · exact ⟨va, Nat.le_refl _, by omega, hAligned, by rw [hPhys, hDiv, hFrame]⟩
      · exact ⟨page, by omega, hLt, hPage, by rw [← hOther page hLow hLt, hAt]⟩
    · rintro ⟨page, hLow, hLt, hPage, hAt⟩
      by_cases hHere : page = va
      · rw [hHere, hPhys, hFrame] at hAt
        exact Or.inl (by rw [hDiv, PmmClient.Holds.page_mul_inj (Option.some.inj hAt)])
      · exact Or.inr ⟨page, by omega, hLt, hPage, by rw [hOther page (by omega) hLt, hAt]⟩
  · have hSome : (k.memory root va).isSome = true := by
      rw [Option.isSome_iff_ne_none, ne_eq, ← hInv.getPhys_eq_none_iff (by omega), hPhys]
      simp
    simp only [List.mem_cons, reduceCtorEq, false_or, PageEvent.unmap.injEq, h.unmaps]
    constructor
    · rintro (rfl | ⟨hLow, hLt, hPage, hSome'⟩)
      · exact ⟨Nat.le_refl _, by omega, hAligned, hSome⟩
      · exact ⟨by omega, hLt, hPage, by rwa [← hThere page hLow]⟩
    · rintro ⟨hLow, hLt, hPage, hSome'⟩
      by_cases hHere : page = va
      · exact Or.inl hHere
      · exact Or.inr ⟨by omega, hLt, hPage, by rwa [hThere page (by omega)]⟩
  · simp [h.noMap]

theorem shrinkLoop_memory {endPage : Nat} (hUser : endPage ≤ 2 ^ 47) (hEnd : endPage % 0x1000 = 0)
    (fuel : Nat) {va : Nat} (h : Space k root foreign noSpare) (hAligned : va % 0x1000 = 0)
    (hFuel : endPage ≤ va + fuel * 0x1000) :
    ∃ events k', shrinkLoop root endPage fuel va k = (events, .completed, k') ∧
      Shrunk k k' root foreign va endPage events := by
  induction fuel generalizing va k with
  | zero =>
    refine ⟨[], k, ?_, Shrunk.nil h (by omega)⟩
    rw [shrinkLoop, if_neg (by omega)]
  | succ fuel ih =>
    by_cases hMore : va < endPage
    · rw [shrinkLoop, if_pos hMore, u64_of_lt (by omega)]
      cases hPhys : vmmGetPhys k root va with
      | none =>
        obtain ⟨events, k', hRest, hShrunk⟩ := @ih k (va + 0x1000) h (by omega) (by omega)
        exact ⟨events, k', hRest, hShrunk.skip hAligned (by omega) (by omega) h.inv hPhys⟩
      | some phys =>
        obtain ⟨p', hFree, hStep, hFreed, hLeaves, hMemory⟩ :=
          unmapFree_memory h (show va < 2 ^ 47 by omega) hAligned hPhys
        have hUnmapped : (vmmUnmapPage k root va).1 = true := by
          refine (h.inv.unmapPage h.ready (by omega)).2.mpr ⟨hAligned, fun hLeaf => ?_⟩
          rw [h.inv.getPhys (by omega), hLeaf] at hPhys
          cases hPhys
        obtain ⟨events, k', hRest, hShrunk⟩ := @ih _ (va + 0x1000) hStep.space (by omega) (by omega)
        refine ⟨_, k', ?_, hShrunk.cons hAligned (by omega) hUser h.inv hPhys hStep hFreed hLeaves
          hMemory⟩
        dsimp only
        rw [hFree]
        dsimp only
        rw [hRest, hUnmapped]
        rfl
    · refine ⟨[], k, ?_, Shrunk.nil h (by omega)⟩
      rw [shrinkLoop, if_neg hMore]

end Loops

/-! ### One call -/

/-- What a call from a break in the user half does. -/
inductive BrkOutcome (p : BrkProcess) (foreign : Nat → Prop) (newBrk : Nat) : BrkCall → Prop where
  | refused (hArg : newBrk = 0 ∨ newBrk < p.brkStart) :
      BrkOutcome p foreign newBrk ⟨[], .refused, p⟩
  | same (hArg : newBrk = p.brkCurrent) : BrkOutcome p foreign newBrk ⟨[], .completed, p⟩
  | grew {count : Nat} {k : Kmem} (hMore : p.brkCurrent < newBrk)
      (hPages : NewPages p.kmem k p.pml4 foreign (pageAlignUp p.brkCurrent) count heapAccess)
      (hUser : pageAlignUp p.brkCurrent + count * 0x1000 ≤ 2 ^ 47)
      (hReach : pageAlignUp p.brkCurrent + count * 0x1000 =
        max (pageAlignUp p.brkCurrent) (pageAlignUp newBrk)) :
      BrkOutcome p foreign newBrk ⟨mapEvents (pageAlignUp p.brkCurrent) count, .completed,
        { p with kmem := k, brkCurrent := newBrk }⟩
  | stopped {count : Nat} {k : Kmem} (hMore : p.brkCurrent < newBrk)
      (hPages : NewPages p.kmem k p.pml4 foreign (pageAlignUp p.brkCurrent) count heapAccess)
      (hUser : pageAlignUp p.brkCurrent + count * 0x1000 ≤ 2 ^ 47)
      (hReach : pageAlignUp p.brkCurrent + count * 0x1000 < pageAlignUp newBrk) :
      BrkOutcome p foreign newBrk ⟨mapEvents (pageAlignUp p.brkCurrent) count, .refused,
        { p with kmem := k }⟩
  | shrank {events : List PageEvent} {k : Kmem} (hLess : newBrk < p.brkCurrent)
      (hStart : p.brkStart ≤ newBrk)
      (hPages : Shrunk p.kmem k p.pml4 foreign (pageAlignUp newBrk)
        (pageAlignUp p.brkCurrent) events) :
      BrkOutcome p foreign newBrk ⟨events, .completed, { p with kmem := k, brkCurrent := newBrk }⟩

theorem sysBrk_outcome {p : BrkProcess} {foreign : Nat → Prop}
    (h : Space p.kmem p.pml4 foreign noSpare) (hUser : p.InUser) (newBrk : Nat) :
    BrkOutcome p foreign newBrk (sysBrk p newBrk) := by
  obtain ⟨_, hHigh⟩ := hUser
  have hCurrent := pageAlignUp_of_le (x := p.brkCurrent) (by omega)
  have hFuel (endAddr va : Nat) : pageAlignUp endAddr ≤ va + brkFuel * 0x1000 := by
    have hLt := pageAlignUp_lt endAddr
    have hRange : brkFuel * 0x1000 = 2 ^ 64 := rfl
    omega
  unfold sysBrk
  by_cases hZero : newBrk = 0
  · rw [if_pos (beq_iff_eq.mpr hZero)]
    exact .refused (Or.inl hZero)
  rw [if_neg (by rwa [beq_iff_eq])]
  by_cases hStart : newBrk < p.brkStart
  · rw [if_pos hStart]
    exact .refused (Or.inr hStart)
  rw [if_neg hStart]
  rcases Nat.lt_trichotomy p.brkCurrent newBrk with hGrow | hSame | hShrink
  · obtain ⟨count, ending, k, hRun, hPages, hTop, hEnding⟩ :=
      growLoop_memory (pageAlignUp_mod newBrk)
      brkFuel h (show pageAlignUp p.brkCurrent ≤ 2 ^ 47 by omega) (pageAlignUp_mod _) (hFuel _ _)
    rw [if_pos hGrow, hRun]
    obtain ⟨rfl, hReach⟩ | ⟨rfl, hReach⟩ := hEnding
    · exact .grew hGrow hPages hTop hReach
    · exact .stopped hGrow hPages hTop hReach
  · rw [if_neg (by omega), if_neg (by omega), ← hSame]
    exact .same rfl
  · obtain ⟨events, k, hRun, hShrunk⟩ := shrinkLoop_memory
      (show pageAlignUp p.brkCurrent ≤ 2 ^ 47 by omega) (pageAlignUp_mod _) brkFuel h
      (pageAlignUp_mod newBrk) (hFuel _ _)
    rw [if_neg (by omega), if_pos hShrink, hRun]
    exact .shrank hShrink (by omega) hShrunk

/-- `sys_brk` works on the pages of the caller. -/
theorem BrkOutcome.step {p : BrkProcess} {foreign : Nat → Prop} {newBrk : Nat} {call : BrkCall}
    (h : Space p.kmem p.pml4 foreign noSpare) (hOutcome : BrkOutcome p foreign newBrk call) :
    SpaceStep p.kmem call.process.kmem p.pml4 foreign := by
  cases hOutcome with
  | refused | same => exact SpaceStep.refl h
  | grew _ hPages | stopped _ hPages | shrank _ _ hPages => exact hPages.step

end Kryos.Syscall
