import Kryos.Memory.VmmRun

/-! The program break. `sys_brk` rounds an unchecked 64-bit argument up to a
page with wrapping arithmetic; whether a sequence of calls stays inside the
user half depends on exactly that rounding. -/
namespace Kryos.Syscall

open Word Memory

variable {p : BrkProcess} {newBrk : Nat}

/-- The part of a process that `sys_brk` works on, with the kernel memory it
works in. -/
structure BrkProcess where
  kmem : Kmem
  pml4 : Nat
  brkStart : Nat
  brkCurrent : Nat

/-- What a call does to the page at `va`: map it, unmap it, or free the frame
that was found behind it. -/
inductive PageEvent where
  | map (va : Nat)
  | unmap (va : Nat)
  | free (va : Nat)
  deriving DecidableEq, Repr

/-- The page an event is about. -/
def PageEvent.va : PageEvent → Nat
  | .map va => va
  | .unmap va => va
  | .free va => va

/-- How one of the two loops of `sys_brk` ends. -/
inductive LoopEnd where
  | completed
  | refused
  | panicked (reason : PmmPanic)
  | unfinished
  deriving DecidableEq, Repr

/-- `PAGE_ALIGN_UP`. -/
def pageAlignUp (x : Nat) : Nat := alignUp x 0x1000

/-- The loop that grows the heap. Pages mapped before a failure stay mapped. -/
def growLoop (pml4 endPage : Nat) : Nat → Nat → Kmem → List PageEvent × LoopEnd × Kmem
  | 0, va, k => ([], if va < endPage then .unfinished else .completed, k)
  | fuel + 1, va, k =>
    if va < endPage then
      let (phys, pmm) := pmmAllocPage k.pmm
      let k := { k with pmm := pmm }
      if phys == 0 then ([], .refused, k)
      else
        let (mapped, k) := vmmMapPage k pml4 va phys
          (vmmFlagUser ||| vmmFlagWritable ||| vmmFlagNoExecute)
        if !mapped then
          match pmmFreePage k.pmm phys with
          | .error reason => ([], .panicked reason, k)
          | .ok pmm => ([], .refused, { k with pmm := pmm })
        else
          let (events, rest) := growLoop pml4 endPage fuel (u64 (va + 0x1000)) (k.zeroPage phys)
          (.map va :: events, rest)
    else ([], .completed, k)

/-- The loop that shrinks the heap. The result of `vmm_unmap_page` is not
looked at before the frame is freed. -/
def shrinkLoop (pml4 endPage : Nat) : Nat → Nat → Kmem → List PageEvent × LoopEnd × Kmem
  | 0, va, k => ([], if va < endPage then .unfinished else .completed, k)
  | fuel + 1, va, k =>
    if va < endPage then
      match vmmGetPhys k pml4 va with
      | none => shrinkLoop pml4 endPage fuel (u64 (va + 0x1000)) k
      | some phys =>
        let (unmapped, k) := vmmUnmapPage k pml4 va
        let here := if unmapped then [.unmap va, .free va] else [.free va]
        match pmmFreePage k.pmm phys with
        | .error reason => (here, .panicked reason, k)
        | .ok pmm =>
          let (events, rest) :=
            shrinkLoop pml4 endPage fuel (u64 (va + 0x1000)) { k with pmm := pmm }
          (here ++ events, rest)
    else ([], .completed, k)

/-- The outcome of one call. -/
structure BrkCall where
  events : List PageEvent
  ending : LoopEnd
  process : BrkProcess

/-- The fuel of the two loops: there are no more pages than this in the whole
64-bit range. -/
def brkFuel : Nat := 2 ^ 52

/-- `sys_brk`. The value returned to the caller is `brkCurrent` afterwards. -/
def sysBrk (p : BrkProcess) (newBrk : Nat) : BrkCall :=
  if newBrk == 0 then ⟨[], .refused, p⟩
  else if newBrk < p.brkStart then ⟨[], .refused, p⟩
  else
    let (events, ending, k) :=
      if newBrk > p.brkCurrent then
        growLoop p.pml4 (pageAlignUp newBrk) brkFuel (pageAlignUp p.brkCurrent) p.kmem
      else if newBrk < p.brkCurrent then
        shrinkLoop p.pml4 (pageAlignUp p.brkCurrent) brkFuel (pageAlignUp newBrk) p.kmem
      else ([], .completed, p.kmem)
    match ending with
    | .completed => ⟨events, .completed, { p with kmem := k, brkCurrent := newBrk }⟩
    | ending => ⟨events, ending, { p with kmem := k }⟩

/-! ### Rounding -/

theorem pageAlignUp_eq (x : Nat) : pageAlignUp x = u64 (x + 0xFFF) / 0x1000 * 0x1000 := by
  have hRound := alignUp_eq x (by decide : 12 ≤ 64)
  rwa [show x + 2 ^ 12 - 1 = x + 0xFFF by omega] at hRound

/-- Rounding is exact as long as it does not wrap. -/
theorem pageAlignUp_of_le {x : Nat} (h : x ≤ 2 ^ 64 - 4096) :
    pageAlignUp x = (x + 0xFFF) / 0x1000 * 0x1000 := by
  rw [pageAlignUp_eq, u64_of_lt (by omega)]

/-- Above the last page boundary rounding gives `0`. -/
theorem pageAlignUp_of_gt {x : Nat} (h : 2 ^ 64 - 4096 < x) (hx : x < 2 ^ 64) :
    pageAlignUp x = 0 := by
  rw [pageAlignUp_eq]
  simp only [u64]
  omega

theorem pageAlignUp_mod (x : Nat) : pageAlignUp x % 0x1000 = 0 := by
  rw [pageAlignUp_eq]
  exact Nat.mul_mod_left _ _

theorem pageAlignUp_lt (x : Nat) : pageAlignUp x < 2 ^ 64 := by
  have hLt := u64_lt (x + 0xFFF)
  rw [pageAlignUp_eq]
  omega

/-! ### The loops -/

/-- All events concern pages of a range. -/
def EventsIn (low high : Nat) (events : List PageEvent) : Prop :=
  ∀ e ∈ events, low ≤ e.va ∧ e.va < high

/-- Growing from a page of the user half maps only pages of the user half, and
completes only if the new end is in the user half. -/
theorem growLoop_spec {pml4 endPage low : Nat} (fuel : Nat) {va : Nat} (k : Kmem)
    (hLow : low ≤ va) (hHigh : va ≤ 2 ^ 47) (hAligned : va % 0x1000 = 0) :
    EventsIn low (2 ^ 47) (growLoop pml4 endPage fuel va k).1 ∧
    ((growLoop pml4 endPage fuel va k).2.1 = .completed → endPage ≤ 2 ^ 47) := by
  induction fuel generalizing va k with
  | zero =>
    refine ⟨by simp [growLoop, EventsIn], ?_⟩
    simp only [growLoop]
    split
    · simp
    · intro _
      omega
  | succ fuel ih =>
    unfold growLoop
    split
    case isFalse => exact ⟨by simp [EventsIn], fun _ => by omega⟩
    dsimp only
    rcases pmmAllocPage k.pmm with ⟨phys, pmm⟩
    split
    · exact ⟨by simp [EventsIn], by simp⟩
    rcases Nat.lt_or_eq_of_le hHigh with hUser | rfl
    · generalize vmmMapPage _ pml4 va phys _ = result
      obtain ⟨mapped, k'⟩ := result
      cases mapped with
      | false =>
        simp only [Bool.not_false, if_true]
        split <;> exact ⟨by simp [EventsIn], by simp⟩
      | true =>
        have hNext : u64 (va + 0x1000) = va + 0x1000 := u64_of_lt (by omega)
        simp only [Bool.not_true, Bool.false_eq_true, if_false, hNext]
        obtain ⟨hEvents, hDone⟩ := @ih (va + 0x1000) (k'.zeroPage phys) (by omega)
          (by omega) (by omega)
        refine ⟨?_, hDone⟩
        intro e he
        rcases List.mem_cons.mp he with rfl | hRest
        · exact ⟨hLow, hUser⟩
        · exact hEvents e hRest
    · -- the loop has reached the hole
      simp only [vmmMapPage_hole, Bool.not_false, if_true]
      split <;> exact ⟨by simp [EventsIn], by simp⟩

theorem shrinkLoop_events {pml4 endPage low : Nat} (fuel : Nat) {va : Nat} (k : Kmem)
    (hEnd : endPage ≤ 2 ^ 47) (hLow : low ≤ va) :
    EventsIn low endPage (shrinkLoop pml4 endPage fuel va k).1 := by
  induction fuel generalizing va k with
  | zero => simp [shrinkLoop, EventsIn]
  | succ fuel ih =>
    unfold shrinkLoop
    split
    case isFalse => simp [EventsIn]
    rename_i hVa
    have hNext : u64 (va + 0x1000) = va + 0x1000 := u64_of_lt (by omega)
    split
    · exact ih k (by omega)
    · rcases vmmUnmapPage k pml4 va with ⟨unmapped, k'⟩
      dsimp only
      have hHere : EventsIn low endPage
          (if unmapped = true then [.unmap va, .free va] else [.free va]) := by
        intro e he
        have hPage : e.va = va := by
          split at he <;> simp only [List.mem_cons, List.not_mem_nil, or_false] at he
          · rcases he with rfl | rfl <;> rfl
          · rw [he]; rfl
        rw [hPage]
        exact ⟨hLow, hVa⟩
      split
      · exact hHere
      · intro e he
        rcases List.mem_append.mp he with hNow | hLater
        · exact hHere e hNow
        · exact ih _ (by omega) e hLater

/-- The growing loop never uses up its fuel: each round moves one page up. -/
theorem growLoop_finishes {pml4 endPage : Nat} (hEnd : endPage % 0x1000 = 0)
    (hLt : endPage < 2 ^ 64) (fuel : Nat) {va : Nat} (k : Kmem) (hAligned : va % 0x1000 = 0)
    (hFuel : endPage ≤ va + fuel * 0x1000) :
    (growLoop pml4 endPage fuel va k).2.1 ≠ .unfinished := by
  induction fuel generalizing va k with
  | zero =>
    rw [growLoop, if_neg (by omega)]
    simp
  | succ fuel ih =>
    unfold growLoop
    split
    case isFalse => simp
    dsimp only
    split
    · simp
    split
    · split <;> simp
    · rw [u64_of_lt (by omega)]
      exact ih _ (by omega) (by omega)

theorem shrinkLoop_finishes {pml4 endPage : Nat} (hEnd : endPage % 0x1000 = 0)
    (hLt : endPage < 2 ^ 64) (fuel : Nat) {va : Nat} (k : Kmem) (hAligned : va % 0x1000 = 0)
    (hFuel : endPage ≤ va + fuel * 0x1000) :
    (shrinkLoop pml4 endPage fuel va k).2.1 ≠ .unfinished := by
  induction fuel generalizing va k with
  | zero =>
    rw [shrinkLoop, if_neg (by omega)]
    simp
  | succ fuel ih =>
    unfold shrinkLoop
    split
    case isFalse => simp
    rw [u64_of_lt (by omega)]
    split
    · exact ih k (by omega) (by omega)
    · dsimp only
      split
      · simp
      · exact ih _ (by omega) (by omega)

/-! ### One call -/

/-- The ending, events and break of a call that reaches the loops. -/
theorem sysBrk_cases (p : BrkProcess) (newBrk : Nat) :
    (sysBrk p newBrk).process.brkStart = p.brkStart ∧
    ((sysBrk p newBrk = ⟨[], .refused, p⟩) ∨
      (p.brkStart ≤ newBrk ∧ ∃ result : List PageEvent × LoopEnd × Kmem,
        result = (if newBrk > p.brkCurrent then
            growLoop p.pml4 (pageAlignUp newBrk) brkFuel (pageAlignUp p.brkCurrent) p.kmem
          else if newBrk < p.brkCurrent then
            shrinkLoop p.pml4 (pageAlignUp p.brkCurrent) brkFuel (pageAlignUp newBrk) p.kmem
          else ([], .completed, p.kmem)) ∧
        (sysBrk p newBrk).events = result.1 ∧ (sysBrk p newBrk).ending = result.2.1 ∧
        (sysBrk p newBrk).process.brkCurrent =
          if result.2.1 = .completed then newBrk else p.brkCurrent)) := by
  unfold sysBrk
  split
  · exact ⟨rfl, Or.inl rfl⟩
  split
  · exact ⟨rfl, Or.inl rfl⟩
  generalize hResult : (if newBrk > p.brkCurrent then
      growLoop p.pml4 (pageAlignUp newBrk) brkFuel (pageAlignUp p.brkCurrent) p.kmem
    else if newBrk < p.brkCurrent then
      shrinkLoop p.pml4 (pageAlignUp p.brkCurrent) brkFuel (pageAlignUp newBrk) p.kmem
    else ([], .completed, p.kmem)) = result
  obtain ⟨events, ending, k⟩ := result
  cases ending <;> exact ⟨rfl, Or.inr ⟨by omega, _, rfl, rfl, rfl, by simp⟩⟩

/-- `sys_brk` always ends. -/
theorem sysBrk_finishes (p : BrkProcess) (newBrk : Nat) :
    (sysBrk p newBrk).ending ≠ .unfinished := by
  have hFuel (endAddr va : Nat) : pageAlignUp endAddr ≤ va + brkFuel * 0x1000 := by
    have hLt := pageAlignUp_lt endAddr
    have hRange : brkFuel * 0x1000 = 2 ^ 64 := rfl
    omega
  obtain ⟨_, hRefused | ⟨_, result, rfl, _, hEnding, _⟩⟩ := sysBrk_cases p newBrk
  · simp [hRefused]
  · rw [hEnding]
    split
    · exact growLoop_finishes (pageAlignUp_mod _) (pageAlignUp_lt _) _ _ (pageAlignUp_mod _)
        (hFuel _ _)
    split
    · exact shrinkLoop_finishes (pageAlignUp_mod _) (pageAlignUp_lt _) _ _ (pageAlignUp_mod _)
        (hFuel _ _)
    · simp

/-- The break lies in the user half. -/
def BrkProcess.InUser (p : BrkProcess) : Prop :=
  p.brkStart ≤ p.brkCurrent ∧ p.brkCurrent ≤ 2 ^ 47

/-- What a caller can observe of one call: its page events, and the break after
it. -/
structure BrkRecord where
  events : List PageEvent
  brkCurrent : Nat

def BrkCall.record (c : BrkCall) : BrkRecord := ⟨c.events, c.process.brkCurrent⟩

/-- A call is safe if it touches only user pages from `low` on and leaves the
break among them. -/
def BrkRecord.Safe (low : Nat) (r : BrkRecord) : Prop :=
  low ≤ r.brkCurrent ∧ r.brkCurrent ≤ 2 ^ 47 ∧ EventsIn low (2 ^ 47) r.events

/-- From a break in the user half, every argument that can be rounded is safe. -/
theorem sysBrk_safe (h : p.InUser) (hArg : newBrk ≤ 2 ^ 64 - 4096) :
    (sysBrk p newBrk).record.Safe p.brkStart := by
  obtain ⟨hLow, hHigh⟩ := h
  obtain ⟨_, hRefused | ⟨hStart, result, hResult, hEvents, _, hBrk⟩⟩ := sysBrk_cases p newBrk
  · rw [hRefused]
    exact ⟨hLow, hHigh, by simp [BrkCall.record, EventsIn]⟩
  have hCurrent := pageAlignUp_of_le (x := p.brkCurrent) (by omega)
  have hNew := pageAlignUp_of_le hArg
  simp only [BrkRecord.Safe, BrkCall.record, hEvents, hBrk]
  rcases Nat.lt_trichotomy p.brkCurrent newBrk with hGrow | rfl | hShrink
  · rw [if_pos hGrow] at hResult
    obtain ⟨hIn, hDone⟩ := @growLoop_spec p.pml4 (pageAlignUp newBrk) p.brkStart brkFuel
      (pageAlignUp p.brkCurrent) p.kmem (by omega) (by omega) (pageAlignUp_mod _)
    rw [← hResult] at hIn hDone
    refine ⟨?_, ?_, hIn⟩
    · split <;> omega
    · split
      · rename_i hCompleted
        have hEnd := hDone hCompleted
        omega
      · exact hHigh
  · rw [hResult]
    exact ⟨by simpa using hLow, by simpa using hHigh, by simp [EventsIn]⟩
  · rw [if_neg (by omega), if_pos hShrink] at hResult
    have hIn := @shrinkLoop_events p.pml4 (pageAlignUp p.brkCurrent) p.brkStart brkFuel
      (pageAlignUp newBrk) p.kmem (by omega) (by omega)
    rw [← hResult] at hIn
    refine ⟨?_, ?_, ?_⟩
    · split <;> omega
    · split <;> omega
    · intro e he
      have hPage := hIn e he
      omega

/-- An argument above the last page boundary is accepted without touching any
page, and the break leaves the user half. -/
theorem sysBrk_wraps (h : p.InUser) (hArg : 2 ^ 64 - 4096 < newBrk) (hLt : newBrk < 2 ^ 64) :
    (sysBrk p newBrk).process.brkCurrent = newBrk := by
  obtain ⟨hLow, hHigh⟩ := h
  have hZero := pageAlignUp_of_gt hArg hLt
  have hLoop : growLoop p.pml4 0 brkFuel (pageAlignUp p.brkCurrent) p.kmem =
      ([], .completed, p.kmem) := rfl
  unfold sysBrk
  rw [if_neg (by simp only [beq_iff_eq]; omega), if_neg (by omega), if_pos (by omega), hZero, hLoop]

/-! ### Sequences of calls -/

/-- A process as `sys_spawn` leaves it. -/
def spawned (k : Kmem) (pml4 : Nat) : BrkProcess := ⟨k, pml4, 0x10000000, 0x10000000⟩

/-- Sequences of `sys_brk` calls with 64-bit arguments, with arbitrary changes
to kernel memory in between. A panic stops the machine. -/
inductive BrkRun (start : BrkProcess) : List Nat → List BrkRecord → Option BrkProcess → Prop where
  | start : BrkRun start [] [] (some start)
  | other {args : List Nat} {trace : List BrkRecord} {p : BrkProcess}
      (prior : BrkRun start args trace (some p)) (k : Kmem) :
      BrkRun start args trace (some { p with kmem := k })
  | call {args : List Nat} {trace : List BrkRecord} {p : BrkProcess} {newBrk : Nat}
      (prior : BrkRun start args trace (some p)) (hArg : newBrk < 2 ^ 64)
      (hReturns : ∀ reason, (sysBrk p newBrk).ending ≠ .panicked reason) :
      BrkRun start (args ++ [newBrk]) (trace ++ [(sysBrk p newBrk).record])
        (some (sysBrk p newBrk).process)
  | panic {args : List Nat} {trace : List BrkRecord} {p : BrkProcess} {newBrk : Nat}
      (prior : BrkRun start args trace (some p)) (hArg : newBrk < 2 ^ 64) {reason : PmmPanic}
      (hPanics : (sysBrk p newBrk).ending = .panicked reason) :
      BrkRun start (args ++ [newBrk]) (trace ++ [(sysBrk p newBrk).record]) none

/-- One more call is safe exactly if its argument can be rounded. -/
theorem sysBrk_record_safe_iff (h : p.InUser) (hLt : newBrk < 2 ^ 64) :
    (sysBrk p newBrk).record.Safe p.brkStart ↔ newBrk ≤ 2 ^ 64 - 4096 := by
  refine ⟨?_, sysBrk_safe h⟩
  rintro ⟨_, hHigh, _⟩
  by_contra hArg
  have hBrk := sysBrk_wraps h (by omega) hLt
  simp only [BrkCall.record, hBrk] at hHigh
  omega

/-- As long as the trace is safe, the break is in the user half. -/
theorem BrkRun.inUser {start : BrkProcess} (hStart : start.InUser) {args : List Nat}
    {trace : List BrkRecord} {last : Option BrkProcess} (hRun : BrkRun start args trace last)
    (hSafe : ∀ r ∈ trace, r.Safe start.brkStart) (hLast : last = some p) :
    p.InUser ∧ p.brkStart = start.brkStart := by
  induction hRun generalizing p with
  | start =>
    cases hLast
    exact ⟨hStart, rfl⟩
  | other prior k ih =>
    cases hLast
    obtain ⟨hUser, hSame⟩ := ih hSafe rfl
    exact ⟨hUser, hSame⟩
  | @call _ _ q newBrk prior hArg hReturns ih =>
    cases hLast
    obtain ⟨_, hSame⟩ := ih (fun r hr => hSafe r (List.mem_append_left _ hr)) rfl
    have hKeep := (sysBrk_cases q newBrk).1.trans hSame
    obtain ⟨hLow, hHigh, _⟩ := hSafe _ (List.mem_append_right _ (List.mem_singleton_self _))
    exact ⟨⟨hKeep ▸ hLow, hHigh⟩, hKeep⟩
  | panic => cases hLast

/-- In every run of a spawned process, no call touches a page of the kernel
half or below the initial break, and the break stays in the user half, if and
only if no argument lies above the last page boundary of the address space. -/
theorem sysBrk_safe_iff {k : Kmem} {pml4 : Nat} {args : List Nat} {trace : List BrkRecord}
    {last : Option BrkProcess} (hRun : BrkRun (spawned k pml4) args trace last) :
    (∀ r ∈ trace, r.Safe 0x10000000) ↔ ∀ a ∈ args, a ≤ 2 ^ 64 - 4096 := by
  have hStart : (spawned k pml4).InUser := ⟨Nat.le_refl _, by simp only [spawned]; omega⟩
  -- the last call of a run is judged from the state before it
  have hLastCall {args : List Nat} {trace : List BrkRecord} {p : BrkProcess} {newBrk : Nat}
      (prior : BrkRun (spawned k pml4) args trace (some p)) (hArg : newBrk < 2 ^ 64)
      (ih : (∀ r ∈ trace, r.Safe 0x10000000) ↔ ∀ a ∈ args, a ≤ 2 ^ 64 - 4096) :
      (∀ r ∈ trace ++ [(sysBrk p newBrk).record], r.Safe 0x10000000) ↔
        ∀ a ∈ args ++ [newBrk], a ≤ 2 ^ 64 - 4096 := by
    rw [List.forall_mem_append, List.forall_mem_append, List.forall_mem_singleton,
      List.forall_mem_singleton, ← ih]
    apply and_congr_right
    intro hSafe
    obtain ⟨hUser, hSame⟩ := prior.inUser hStart hSafe rfl
    rw [← sysBrk_record_safe_iff hUser hArg, hSame]
    rfl
  induction hRun with
  | start => simp
  | other _ _ ih => exact ih
  | call prior hArg _ ih => exact hLastCall prior hArg ih
  | panic prior hArg _ ih => exact hLastCall prior hArg ih

/-- Growing by one page on a machine with free frames stays in the user half. -/
theorem sysBrk_safe_iff_onePage :
    (sysBrk (spawned onePageSpace.2 4096) 0x10001000).record.Safe 0x10000000 := by
  have hReturns : ∀ reason,
      (sysBrk (spawned onePageSpace.2 4096) 0x10001000).ending ≠ .panicked reason := by
    intro reason h
    have hDone : LoopEnd.completed = .panicked reason := h
    cases hDone
  have hRun := BrkRun.start.call (by decide : 0x10001000 < 2 ^ 64) hReturns
  exact (sysBrk_safe_iff hRun).mpr (by decide) _ (by simp)

/-- A machine whose kernel PML4 maps the second page of the kernel heap. -/
def kernelHeapMachine : Kmem :=
  let k := (vmmCreateAddressSpace sixteenFrameMachine).2
  let (frame, pmm) := pmmAllocPage k.pmm
  let (_, k) := vmmMapPage { k with pmm := pmm } 4096 0xFFFFC00000001000 frame vmmFlagWritable
  { k with cr3 := 4096 }

/-- A process of that machine. -/
def kernelHeapProcess : BrkProcess := spawned (vmmCreateAddressSpace kernelHeapMachine).2 24576

/-- Three calls by a process that never touched its heap: the first wraps, the
second lowers the break to the end of a kernel page, and the third unmaps and
frees that page. -/
theorem sysBrk_frees_kernel_page :
    ∃ trace last, BrkRun kernelHeapProcess
      [2 ^ 64 - 1, 0xFFFFC00000002000, 0xFFFFC00000001000] trace last ∧
      trace.map BrkRecord.events =
        [[], [], [.unmap 0xFFFFC00000001000, .free 0xFFFFC00000001000]] ∧
      trace.map BrkRecord.brkCurrent = [2 ^ 64 - 1, 0xFFFFC00000002000, 0xFFFFC00000001000] ∧
      ¬ ∀ r ∈ trace, r.Safe 0x10000000 := by
  have hDone {ending : LoopEnd} (h : ending = .completed) (reason : PmmPanic) :
      ending ≠ .panicked reason := by simp [h]
  have hStart : BrkRun kernelHeapProcess [] [] (some kernelHeapProcess) := .start
  have hWrapped := hStart.call (by decide : 2 ^ 64 - 1 < 2 ^ 64) (hDone rfl)
  have hLowered := hWrapped.call (by decide : 0xFFFFC00000002000 < 2 ^ 64) (hDone rfl)
  have hRun := hLowered.call (by decide : 0xFFFFC00000001000 < 2 ^ 64) (hDone rfl)
  refine ⟨_, _, hRun, rfl, rfl, ?_⟩
  intro hSafe
  have hHigh : 2 ^ 64 - 1 ≤ 2 ^ 47 := (hSafe _ (List.mem_cons_self ..)).2.1
  omega

end Kryos.Syscall
