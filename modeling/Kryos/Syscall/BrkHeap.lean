import Kryos.Syscall.BrkMemory
import Kryos.Process.ElfSegments

/-! The break and the heap agree. In a process whose calls of `sys_brk` all
succeed, the heap is mapped from the initial break to the current one, and a
lower break gives back every frame above it. -/
namespace Kryos.Syscall

open Function Memory Process

variable {start p : BrkProcess} {events : List PageEvent} {k : Kmem} {root va newBrk : Nat}
  {foreign : Nat → Prop}

/-! ### Pages made by `sys_brk` -/

/-- What an event does to the set of pages made by `sys_brk`. -/
def PageEvent.apply (pages : Nat → Bool) : PageEvent → Nat → Bool
  | .map va => update pages va true
  | .unmap va => update pages va false
  | .free _ => pages

/-- The pages that `sys_brk` has mapped and not unmapped since. -/
def created (events : List PageEvent) : Nat → Bool :=
  events.foldl PageEvent.apply (fun _ => false)

theorem apply_maps (pages : Nat → Bool) (va count page : Nat) :
    (mapEvents va count).foldl PageEvent.apply pages page =
      (pages page || decide (.map page ∈ mapEvents va count)) := by
  induction count generalizing pages va with
  | zero => simp [mapEvents]
  | succ count ih =>
    rw [mapEvents, List.foldl_cons, ih, PageEvent.apply, update_apply]
    by_cases hPage : page = va
    · simp [hPage]
    · simp [hPage]

theorem apply_unmaps (events : List PageEvent) (hNoMap : ∀ page, .map page ∉ events)
    (pages : Nat → Bool) (page : Nat) :
    events.foldl PageEvent.apply pages page = (pages page && decide (.unmap page ∉ events)) := by
  induction events generalizing pages with
  | nil => simp
  | cons e rest ih =>
    have hRest := ih fun page hMem => hNoMap page (List.mem_cons_of_mem _ hMem)
    cases e with
    | map va => exact absurd List.mem_cons_self (hNoMap va)
    | unmap va =>
      rw [List.foldl_cons, hRest, PageEvent.apply, update_apply]
      by_cases hPage : page = va
      · simp [hPage]
      · simp [hPage]
    | free va =>
      rw [List.foldl_cons, hRest, PageEvent.apply]
      simp

/-! ### Runs -/

/-- Runs of a process in which every call of `sys_brk` is the query `0` or returns its
argument. In between, anything may happen to memory that leaves the pages of the process
where they are. -/
inductive HeapRun (start : BrkProcess) : List PageEvent → BrkProcess → Prop where
  | start : HeapRun start [] start
  | other {events : List PageEvent} {p : BrkProcess} (prior : HeapRun start events p) {k : Kmem}
      {foreign : Nat → Prop} (hSpace : Space k p.pml4 foreign noSpare)
      (hPages : ∀ va < 2 ^ 47, k.leafOf p.pml4 va = p.kmem.leafOf p.pml4 va) :
      HeapRun start events { p with kmem := k }
  | call {events : List PageEvent} {p : BrkProcess} (prior : HeapRun start events p) {newBrk : Nat}
      (hArg : newBrk < 2 ^ 47)
      (hReturned : newBrk ≠ 0 → (sysBrk p newBrk).process.brkCurrent = newBrk) :
      HeapRun start (events ++ (sysBrk p newBrk).events) (sysBrk p newBrk).process

/-- The access of the cells of a process. -/
def accessAt (k : Kmem) (root va : Nat) : Option Access := (k.memory root va).map Sparse.Cell.attr

/-- What holds in every state of such a run. -/
structure HeapState (start : BrkProcess) (events : List PageEvent) (p : BrkProcess) : Prop where
  pml4 : p.pml4 = start.pml4
  brkStart : p.brkStart = start.brkStart
  space : ∃ foreign, Space p.kmem p.pml4 foreign noSpare
  low : p.brkStart ≤ p.brkCurrent
  high : p.brkCurrent < 2 ^ 47
  pages : ∀ page, created events page = true ↔
    page % 0x1000 = 0 ∧ p.brkStart ≤ page ∧ page < p.brkCurrent
  wasFree : ∀ va, p.brkStart ≤ va → va < pageAlignUp p.brkCurrent →
    start.kmem.memory p.pml4 va = none
  access : ∀ va, accessAt p.kmem p.pml4 va =
    if p.brkStart ≤ va ∧ va < pageAlignUp p.brkCurrent then some heapAccess
    else accessAt start.kmem p.pml4 va

theorem HeapState.inUser (h : HeapState start events p) : p.InUser := ⟨h.low, h.high.le⟩

theorem accessAt_of_leaves {k' : Kmem} (h : ∀ va < 2 ^ 47, k'.leafOf root va = k.leafOf root va)
    (va : Nat) : accessAt k' root va = accessAt k root va := by
  unfold accessAt Kmem.memory
  split
  · rename_i hva
    rw [h va hva, Option.map_map, Option.map_map]
    rfl
  · rfl

theorem created_append (events more : List PageEvent) (page : Nat) :
    created (events ++ more) page = more.foldl PageEvent.apply (created events) page := by
  rw [created, List.foldl_append]
  rfl

theorem accessAt_eq_none :
    accessAt k root va = none ↔ k.memory root va = none := Option.map_eq_none_iff

namespace HeapState

variable {start p : BrkProcess} {events : List PageEvent}

theorem initial {foreign : Nat → Prop} (hSpace : Space start.kmem start.pml4 foreign noSpare)
    (hAligned : start.brkStart % 0x1000 = 0) (hEmpty : start.brkCurrent = start.brkStart)
    (hHigh : start.brkCurrent < 2 ^ 47) : HeapState start [] start := by
  have hUp : pageAlignUp start.brkCurrent = start.brkStart := by
    rw [pageAlignUp_of_le (by omega)]
    omega
  refine ⟨rfl, rfl, ⟨foreign, hSpace⟩, by omega, hHigh, fun page => ?_, by omega, fun va => ?_⟩
  · constructor
    · intro hFalse
      cases hFalse
    · omega
  · rw [if_neg (by omega)]

theorem other (h : HeapState start events p) (hSpace : Space k p.pml4 foreign noSpare)
    (hPages : ∀ va < 2 ^ 47, k.leafOf p.pml4 va = p.kmem.leafOf p.pml4 va) :
    HeapState start events { p with kmem := k } :=
  ⟨h.pml4, h.brkStart, ⟨foreign, hSpace⟩, h.low, h.high, h.pages, h.wasFree,
    fun va => (accessAt_of_leaves hPages va).trans (h.access va)⟩

theorem grew (h : HeapState start events p) {count : Nat} (hArg : newBrk < 2 ^ 47)
    (hMore : p.brkCurrent < newBrk)
    (hPages : NewPages p.kmem k p.pml4 foreign (pageAlignUp p.brkCurrent) count heapAccess)
    (hReach : pageAlignUp p.brkCurrent + count * 0x1000 =
      max (pageAlignUp p.brkCurrent) (pageAlignUp newBrk)) :
    HeapState start (events ++ mapEvents (pageAlignUp p.brkCurrent) count)
      { p with kmem := k, brkCurrent := newBrk } := by
  have hLow := h.low
  have hUp := pageAlignUp_of_le (x := p.brkCurrent) (by omega)
  have hUpNew := pageAlignUp_of_le (x := newBrk) (by omega)
  rw [Nat.max_eq_right (by omega)] at hReach
  have hAccess : ∀ va, accessAt k p.pml4 va =
      if pageAlignUp p.brkCurrent ≤ va ∧ va < pageAlignUp newBrk then some heapAccess
      else accessAt p.kmem p.pml4 va := by
    intro va
    rw [accessAt, hPages.memory, Sparse.Memory.clear, hReach]
    split <;> rfl
  refine ⟨h.pml4, h.brkStart, ⟨foreign, hPages.step.space⟩, by dsimp only; omega, hArg,
    fun page => ?_, fun va hStart hHigh => ?_, fun va => ?_⟩
  · have hEvents : .map page ∈ mapEvents (pageAlignUp p.brkCurrent) count ↔
        page % 0x1000 = 0 ∧ pageAlignUp p.brkCurrent ≤ page ∧ page < newBrk := by
      rw [mem_mapEvents]
      constructor
      · rintro ⟨n, hn, hPage⟩
        rw [PageEvent.map.injEq] at hPage
        omega
      · rintro ⟨hPage, hFrom, hTo⟩
        refine ⟨(page - pageAlignUp p.brkCurrent) / 0x1000, by omega, ?_⟩
        rw [PageEvent.map.injEq]
        omega
    rw [created_append, apply_maps, Bool.or_eq_true, decide_eq_true_eq, h.pages, hEvents]
    dsimp only
    omega
  · dsimp only at hStart hHigh ⊢
    by_cases hOld : va < pageAlignUp p.brkCurrent
    · exact h.wasFree va hStart hOld
    · -- nothing was mapped here when the call came, and so not at the start
      have hNone := hPages.wasFree va (by omega) (by omega)
      rw [← accessAt_eq_none, h.access, if_neg (by omega)] at hNone
      exact accessAt_eq_none.mp hNone
  · dsimp only
    rw [hAccess, h.access]
    by_cases hOld : p.brkStart ≤ va ∧ va < pageAlignUp p.brkCurrent
    · rw [if_neg (by omega), if_pos hOld, if_pos (by omega)]
    · by_cases hNew : pageAlignUp p.brkCurrent ≤ va ∧ va < pageAlignUp newBrk
      · rw [if_pos hNew, if_pos (by omega)]
      · rw [if_neg hNew, if_neg hOld, if_neg (by omega)]

theorem shrank (h : HeapState start events p) {more : List PageEvent}
    (hLess : newBrk < p.brkCurrent) (hStart : p.brkStart ≤ newBrk)
    (hPages : Shrunk p.kmem k p.pml4 foreign (pageAlignUp newBrk) (pageAlignUp p.brkCurrent) more) :
    HeapState start (events ++ more) { p with kmem := k, brkCurrent := newBrk } := by
  have hHigh := h.high
  have hUp := pageAlignUp_of_le (x := p.brkCurrent) (by omega)
  have hUpNew := pageAlignUp_of_le (x := newBrk) (by omega)
  have hAccess : ∀ va, accessAt k p.pml4 va =
      if pageAlignUp newBrk ≤ va ∧ va < pageAlignUp p.brkCurrent then none
      else accessAt p.kmem p.pml4 va := by
    intro va
    rw [accessAt, hPages.memory, Sparse.Memory.drop]
    split <;> rfl
  refine ⟨h.pml4, h.brkStart, ⟨foreign, hPages.step.space⟩, hStart, by dsimp only; omega,
    fun page => ?_, fun va hFrom hTo => ?_, fun va => ?_⟩
  · rw [created_append, apply_unmaps more hPages.noMap, Bool.and_eq_true, decide_eq_true_eq,
      h.pages, hPages.unmaps]
    dsimp only
    constructor
    · rintro ⟨⟨hPage, hFrom, hTo⟩, hKept⟩
      by_contra hAbove
      have hThere : (p.kmem.memory p.pml4 page).isSome = true := by
        have hHeap := h.access page
        rw [if_pos (by omega)] at hHeap
        rw [← Option.isSome_map (f := Sparse.Cell.attr)]
        exact Option.isSome_iff_exists.mpr ⟨_, hHeap⟩
      exact hKept ⟨by omega, by omega, hPage, hThere⟩
    · rintro ⟨hPage, hFrom, hTo⟩
      exact ⟨⟨hPage, hFrom, by omega⟩, by omega⟩
  · dsimp only at hFrom hTo
    exact h.wasFree va hFrom (by omega)
  · rw [hAccess, h.access]
    by_cases hKept : p.brkStart ≤ va ∧ va < pageAlignUp newBrk
    · rw [if_neg (by omega), if_pos (by omega), if_pos hKept]
    · rw [if_neg hKept]
      by_cases hGone : pageAlignUp newBrk ≤ va ∧ va < pageAlignUp p.brkCurrent
      · rw [if_pos hGone]
        exact (accessAt_eq_none.mpr (h.wasFree va (by omega) hGone.2)).symm
      · rw [if_neg hGone, if_neg (by omega)]

theorem call (h : HeapState start events p) {newBrk : Nat} (hArg : newBrk < 2 ^ 47)
    (hReturned : newBrk ≠ 0 → (sysBrk p newBrk).process.brkCurrent = newBrk) :
    HeapState start (events ++ (sysBrk p newBrk).events) (sysBrk p newBrk).process := by
  obtain ⟨foreign, hSpace⟩ := h.space
  have hOutcome := sysBrk_outcome hSpace h.inUser newBrk
  generalize sysBrk p newBrk = c at hOutcome hReturned
  cases hOutcome with
  | refused hRefused =>
    rw [List.append_nil]
    exact h
  | same hSame =>
    rw [List.append_nil]
    exact h
  | grew hMore hPages _ hReach => exact h.grew hArg hMore hPages hReach
  | stopped hMore =>
    have hCurrent := hReturned (by omega)
    dsimp only at hCurrent
    omega
  | shrank hLess hStart hPages => exact h.shrank hLess hStart hPages

end HeapState

theorem HeapRun.state (hStart : HeapState start [] start) (hRun : HeapRun start events p) :
    HeapState start events p := by
  induction hRun with
  | start => exact hStart
  | other _ hSpace hPages ih => exact ih.other hSpace hPages
  | call _ hArg hReturned ih => exact ih.call hArg hReturned

/-! ### Contents -/

section Contents

variable {p : BrkProcess} {foreign : Nat → Prop} (h : Space p.kmem p.pml4 foreign noSpare)
  (hUser : p.InUser) (newBrk : Nat)

include h hUser

/-- A page is all zero when `sys_brk` has mapped it. -/
theorem sysBrk_zero {page j : Nat}
    (hMapped : .map page ∈ (sysBrk p newBrk).events) (hj : j < 0x1000) :
    userByte (sysBrk p newBrk).process.kmem p.pml4 (page + j) = some 0 := by
  have hNew {count : Nat} {k : Kmem}
      (hPages : NewPages p.kmem k p.pml4 foreign (pageAlignUp p.brkCurrent) count heapAccess)
      (hTop : pageAlignUp p.brkCurrent + count * 0x1000 ≤ 2 ^ 47)
      (hMem : .map page ∈ mapEvents (pageAlignUp p.brkCurrent) count) :
      userByte k p.pml4 (page + j) = some 0 := by
    obtain ⟨n, hn, hPage⟩ := mem_mapEvents.mp hMem
    rw [PageEvent.map.injEq] at hPage
    rw [userByte_eq hPages.step.space.inv (by omega), hPages.memory, Sparse.Memory.bytes,
      Sparse.Memory.clear, if_pos (by omega)]
    rfl
  have hOutcome := sysBrk_outcome h hUser newBrk
  generalize sysBrk p newBrk = c at hOutcome hMapped ⊢
  cases hOutcome with
  | refused => cases hMapped
  | same => cases hMapped
  | grew _ hPages hTop => exact hNew hPages hTop hMapped
  | stopped _ hPages hTop => exact hNew hPages hTop hMapped
  | shrank _ _ hPages => exact absurd hMapped (hPages.noMap page)

/-- A cell that stays keeps its byte. -/
theorem sysBrk_kept (hva : va < 2 ^ 47) {byte byte' : UInt8}
    (hBefore : userByte p.kmem p.pml4 va = some byte)
    (hAfter : userByte (sysBrk p newBrk).process.kmem p.pml4 va = some byte') : byte' = byte := by
  have hCell : ∃ c, p.kmem.memory p.pml4 va = some c ∧ c.byte = byte := by
    rw [userByte_eq h.inv hva, Sparse.Memory.bytes, Option.map_eq_some_iff] at hBefore
    exact hBefore
  obtain ⟨c, hCell, rfl⟩ := hCell
  have hNew {count : Nat} {k : Kmem}
      (hPages : NewPages p.kmem k p.pml4 foreign (pageAlignUp p.brkCurrent) count heapAccess)
      (hAfter : userByte k p.pml4 va = some byte') : byte' = c.byte := by
    rw [userByte_eq hPages.step.space.inv hva, hPages.memory, Sparse.Memory.bytes,
      Sparse.Memory.clear] at hAfter
    split at hAfter
    · rename_i hIn
      rw [hPages.wasFree va hIn.1 hIn.2] at hCell
      cases hCell
    · rw [hCell] at hAfter
      exact (Option.some.inj hAfter).symm
  have hOutcome := sysBrk_outcome h hUser newBrk
  generalize sysBrk p newBrk = c' at hOutcome hAfter
  cases hOutcome with
  | refused => exact Option.some.inj (hAfter.symm.trans hBefore)
  | same => exact Option.some.inj (hAfter.symm.trans hBefore)
  | grew _ hPages => exact hNew hPages hAfter
  | stopped _ hPages => exact hNew hPages hAfter
  | shrank _ _ hPages =>
    rw [userByte_eq hPages.step.space.inv hva, hPages.memory, Sparse.Memory.bytes,
      Sparse.Memory.drop] at hAfter
    split at hAfter
    · cases hAfter
    · rw [hCell] at hAfter
      exact (Option.some.inj hAfter).symm

end Contents

/-! ### The heap -/

/-- The break, the pages made by `sys_brk` and the frames behind them agree. -/
structure HeapAgrees (start : BrkProcess) (events : List PageEvent) (p : BrkProcess) : Prop where
  pages : ∀ page, created events page = true ↔ page % 0x1000 = 0 ∧
    ∃ a, page ≤ a ∧ a < page + 0x1000 ∧ p.brkStart ≤ a ∧ a < p.brkCurrent
  mapped : ∀ va < 2 ^ 47, vmmGetPhys p.kmem p.pml4 va ≠ none ↔
    created events (va / 0x1000 * 0x1000) = true ∨ vmmGetPhys start.kmem p.pml4 va ≠ none
  wasFree : ∀ va < 2 ^ 47, created events (va / 0x1000 * 0x1000) = true →
    vmmGetPhys start.kmem p.pml4 va = none
  access : ∀ va < 2 ^ 47, created events (va / 0x1000 * 0x1000) = true →
    vmmIsUserWritable p.kmem p.pml4 va = true ∧ effectiveNoExecute p.kmem p.pml4 va = true
  zero : ∀ newBrk page, .map page ∈ (sysBrk p newBrk).events → ∀ j < 0x1000,
    userByte (sysBrk p newBrk).process.kmem p.pml4 (page + j) = some 0
  kept : ∀ newBrk, ∀ va < 2 ^ 47, ∀ byte byte', userByte p.kmem p.pml4 va = some byte →
    userByte (sysBrk p newBrk).process.kmem p.pml4 va = some byte' → byte' = byte
  -- from any later state, back to any earlier break
  givesBack : ∀ back, p.brkStart ≤ back → back < p.brkCurrent →
    (sysBrk p back).process.brkCurrent = back ∧
    ∀ page, created events page = true → back ≤ page → ∀ phys,
      vmmGetPhys p.kmem p.pml4 page = some phys →
      Bitmap.isSet (sysBrk p back).process.kmem.pmm.bitmap (phys / pmmPageSize) = false

/-- Along every run of `sys_brk` calls of a new process, its pages agree with its break. -/
theorem heap_agrees {k : Kmem} {root : Nat} {foreign : Nat → Prop}
    (hSpace : Space k root foreign noSpare) {events : List PageEvent} {p : BrkProcess}
    (hRun : HeapRun (spawned k root) events p) : HeapAgrees (spawned k root) events p := by
  have hFrom : (spawned k root).brkStart = 0x10000000 := rfl
  have hEmpty : (spawned k root).brkCurrent = 0x10000000 := rfl
  have hState := hRun.state (@HeapState.initial (spawned k root) foreign hSpace (by omega)
    (hEmpty.trans hFrom.symm) (by omega))
  obtain ⟨foreign', hSpace'⟩ := hState.space
  have hHigh := hState.high
  have hStart : p.brkStart = 0x10000000 := hState.brkStart.trans hFrom
  have hRoot : p.pml4 = root := hState.pml4
  have hFirst : ∀ va < 2 ^ 47, vmmGetPhys (spawned k root).kmem p.pml4 va = none ↔
      (spawned k root).kmem.memory p.pml4 va = none := by
    intro va hva
    rw [hRoot]
    exact hSpace.inv.getPhys_eq_none_iff hva
  have hUp := pageAlignUp_of_le (x := p.brkCurrent) (by omega)
  -- an address is on a page of the heap exactly if it lies below the rounded break
  have hOnHeap : ∀ va, created events (va / 0x1000 * 0x1000) = true ↔
      p.brkStart ≤ va ∧ va < pageAlignUp p.brkCurrent := by
    intro va
    rw [hState.pages]
    omega
  have hHeapCell : ∀ va, created events (va / 0x1000 * 0x1000) = true →
      ∃ c, p.kmem.memory p.pml4 va = some c ∧ c.attr = heapAccess := by
    intro va hVa
    have hAccess := hState.access va
    rw [if_pos ((hOnHeap va).mp hVa), accessAt, Option.map_eq_some_iff] at hAccess
    exact hAccess
  refine ⟨fun page => ?_, fun va hva => ?_, fun va hva hVa => ?_, fun va hva hVa => ?_,
    fun newBrk page hMapped j hj => sysBrk_zero hSpace' hState.inUser newBrk hMapped hj,
    fun newBrk va hva _ _ =>
      sysBrk_kept hSpace' hState.inUser newBrk hva, fun back hBrk hBack => ?_⟩
  · rw [hState.pages]
    constructor
    · rintro ⟨hPage, hFrom, hTo⟩
      exact ⟨hPage, page, Nat.le_refl _, by omega, hFrom, hTo⟩
    · rintro ⟨hPage, a, hLeft, hRight, hFrom, hTo⟩
      exact ⟨hPage, by omega, by omega⟩
  · rw [ne_eq, ne_eq, hSpace'.inv.getPhys_eq_none_iff hva, hFirst va hva, ← accessAt_eq_none,
      ← accessAt_eq_none, hState.access va, hOnHeap va]
    split
    · rename_i hIn
      simp [hIn]
    · rename_i hOut
      simp only [hOut, false_or]
  · rw [hFirst va hva]
    exact hState.wasFree va ((hOnHeap va).mp hVa).1 ((hOnHeap va).mp hVa).2
  · obtain ⟨c, hCell, hAttr⟩ := hHeapCell va hVa
    rw [hSpace'.inv.isUserWritable_memory hva,
      hSpace'.inv.effectiveNoExecute_memory hva hCell, hCell, Option.any_some, hAttr]
    decide
  · have hOutcome := sysBrk_outcome hSpace' hState.inUser back
    generalize sysBrk p back = c at hOutcome ⊢
    cases hOutcome with
    | refused hArg => omega
    | same hArg => omega
    | grew hMore => omega
    | stopped hMore => omega
    | shrank _ _ hPages =>
      refine ⟨rfl, fun page hCreated hAbove phys hPhys => ?_⟩
      obtain ⟨hPage, _, hTo⟩ := (hState.pages page).mp hCreated
      obtain ⟨f, rfl, _⟩ := getPhys_leafFrame hSpace'.inv (show page < 2 ^ 47 by omega) hPage hPhys
      have hUpBack := pageAlignUp_of_le (x := back) (by omega)
      rw [Nat.mul_div_cancel _ (by decide), ← Bool.not_eq_true, hPages.freed.bits]
      rintro ⟨_, hNot⟩
      exact hNot ⟨page, by omega, by omega, hPage, hPhys⟩

/-- A process that moves its break by a page and a half. -/
theorem heap_agrees_codeAndData :
    ∃ events p, HeapRun (spawned (loadedKmem codeAndDataLoaded) 0x8000) events p ∧
      p.brkCurrent = 0x10001800 ∧
      HeapAgrees (spawned (loadedKmem codeAndDataLoaded) 0x8000) events p := by
  have hSpace := (elfLoadImage_loaded directMapMachine_space.1 codeAndDataLoaded_ok).step.space
  have hReturned : (sysBrk (spawned (loadedKmem codeAndDataLoaded) 0x8000)
      0x10001800).process.brkCurrent = 0x10001800 := by decide +kernel
  have hRun := HeapRun.start.call (show 0x10001800 < 2 ^ 47 by decide) (fun _ => hReturned)
  exact ⟨_, _, hRun, hReturned, heap_agrees hSpace hRun⟩

end Kryos.Syscall
