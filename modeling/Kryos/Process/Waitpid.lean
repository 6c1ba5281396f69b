import Kryos.Base.Trace
import Kryos.Process.ProcessForest

/-! Runs of `spawn`, `exit` and `waitpid` by the threads of all processes. A system call is
one step up to its end or to the point where it blocks; a thread that was woken goes on
with its `waitpid` in a later step. -/
namespace Kryos.ProcessTree

open Chain Function Thread Trace

variable {caller : Option Tid} {proc : Nat} {s s' : Tree} {k' : Kernel} {children' : Nat → List Nat}
  {a b : Proc} {t : Tid}

structure Kernel where
  tree : Tree
  threads : Tid → ThreadState
  process : Tid → Nat
  /-- The arguments of the `waitpid` that the thread is in. -/
  calls : Tid → Option (Int × StatusPtr)
  /-- The pids of the processes that exited, with the status given to `process_exit`. -/
  exits : List (Int × Int)
  /-- The pids that `waitpid` returned, with the status it stored. -/
  reports : List (Int × Option Int)

/-- `thread_wake_waiter`. -/
def threadWakeWaiter (threads : Tid → ThreadState) : Option Tid → Tid → ThreadState
  | none => threads
  | some t => if threads t = .waitingChild then update threads t .ready else threads

/-- `thread_terminate_process`. -/
def threadTerminateProcess (threads : Tid → ThreadState) (process : Tid → Nat)
    (proc : Nat) (t : Tid) : ThreadState :=
  if process t = proc ∧ threads t ≠ .new then .dead else threads t

inductive Event where
  /-- `sys_spawn`; `loaded` is whether the image could be loaded, `thread` the id of the
  new thread. -/
  | spawn (caller : Option Tid) (answer : CreateAnswer) (loaded : Bool) (thread : Tid)
  /-- `thread_create_process`. -/
  | createThread (thread : Tid) (proc : Nat)
  /-- `sys_exit` by a thread of the process, or a fault that terminates it. -/
  | exit (proc : Nat) (status : Int)
  | waitpid (thread : Tid) (pid : Int) (status : StatusPtr)
  /-- A thread that was woken is back in the loop of `sys_waitpid`. -/
  | resume (thread : Tid)

/-- What follows a turn of `sys_waitpid`. -/
def Kernel.afterTurn (k : Kernel) (t : Tid) (pid : Int) (status : StatusPtr) :
    WaitResult × Tree → Kernel
  | (.blocks, tree) =>
    { k with
      tree
      threads := update k.threads t .waitingChild
      calls := update k.calls t (some (pid, status)) }
  | (.reaped zpid stored, tree) =>
    { k with
      tree
      calls := update k.calls t none
      reports := k.reports ++ [(zpid, stored)] }
  | (_, tree) => { k with tree, calls := update k.calls t none }

def kernelStep (k : Kernel) : Event → Kernel
  | .spawn caller answer loaded thread =>
    match processCreate k.tree (caller.map k.process) answer with
    | (none, tree) => { k with tree }
    | (some proc, tree) =>
      if loaded then
        { k with
          tree
          threads := update k.threads thread .ready
          process := update k.process thread proc }
      else { k with tree := processDestroy tree proc }
  | .createThread thread proc =>
    { k with
      threads := update k.threads thread .ready
      process := update k.process thread proc }
  | .exit proc status =>
    if proc = kernelProcess then k
    else
      let (waiter, tree) := processExit k.tree proc status
      { k with
        tree
        threads := threadTerminateProcess (threadWakeWaiter k.threads waiter) k.process proc
        exits := k.exits ++ [((k.tree.procs proc).pid, status)] }
  | .waitpid t pid status => k.afterTurn t pid status (sysWaitpid k.tree (k.process t) t pid status)
  | .resume t =>
    match k.calls t with
    | none => k
    | some (pid, status) => k.afterTurn t pid status (waitTurn k.tree (k.process t) t pid status)

def Kernel.Live (k : Kernel) (proc : Nat) : Prop := k.tree.Live proc

/-- The thread can be given the CPU. -/
def Kernel.CanRun (k : Kernel) (t : Tid) : Prop := k.threads t = .ready ∨ k.threads t = .running

/-- Which events are possible: threads that can run act, outside `waitpid` or in it, a
new thread has a new id, and `kmalloc` returns an address that is not in use. -/
def Kernel.enabled (k : Kernel) (event : Event) : Prop :=
  k.tree.hung = false ∧
    match event with
    | .spawn caller answer _ thread =>
      (∀ t ∈ caller, k.CanRun t ∧ k.calls t = none) ∧ k.threads thread = .new ∧
        ∀ proc ∈ answer.proc, proc ∉ k.tree.allocated
    | .createThread thread proc => k.threads thread = .new ∧ k.Live proc
    | .exit proc _ => k.Live proc
    | .waitpid t _ _ => k.CanRun t ∧ k.calls t = none
    | .resume t => k.CanRun t ∧ k.calls t ≠ none

instance (k : Kernel) (proc : Nat) : Decidable (k.Live proc) := inferInstanceAs (Decidable (_ ∧ _))

instance (k : Kernel) (t : Tid) : Decidable (k.CanRun t) := inferInstanceAs (Decidable (_ ∨ _))

instance (k : Kernel) : ∀ event, Decidable (k.enabled event)
  | .spawn caller answer _ thread =>
    inferInstanceAs
      (Decidable (k.tree.hung = false ∧ (∀ t ∈ caller, k.CanRun t ∧ k.calls t = none) ∧
      k.threads thread = .new ∧ ∀ proc ∈ answer.proc, proc ∉ k.tree.allocated))
  | .createThread thread proc =>
    inferInstanceAs (Decidable (k.tree.hung = false ∧ k.threads thread = .new ∧ k.Live proc))
  | .exit proc _ => inferInstanceAs (Decidable (k.tree.hung = false ∧ k.Live proc))
  | .waitpid t _ _ =>
      inferInstanceAs (Decidable (k.tree.hung = false ∧ k.CanRun t ∧ k.calls t = none))
  | .resume t => inferInstanceAs (Decidable (k.tree.hung = false ∧ k.CanRun t ∧ k.calls t ≠ none))

/-- The turn of the loop of `sys_waitpid` that an event comes to. -/
def Event.turn (k : Kernel) : Event → Option (Tid × Int × StatusPtr)
  | .waitpid t pid status =>
    if (pid ≠ -1 ∧ pid ≤ 0) ∨ status = .bad then none else some (t, pid, status)
  | .resume t => (k.calls t).map (fun call => (t, call))
  | _ => none

def kernelInit : Kernel where
  tree := processInit fun _ => none
  threads := fun t => if t = 0 then .running else .new
  process := fun _ => kernelProcess
  calls := fun _ => none
  exits := []
  reports := []

/-- The processes are a tree, and the threads that are not dead belong to running ones. -/
structure Kernel.Valid (k : Kernel) (children : Nat → List Nat) : Prop where
  forest : Forest k.tree children
  live : ∀ t, k.threads t ≠ .new → k.threads t ≠ .dead → k.Live (k.process t)

/-- The new process was allocated, and its address space could not be made. -/
def Event.failsAddressSpace : Event → Prop
  | .spawn _ answer _ _ => answer.proc ≠ none ∧ answer.addressSpace = false
  | _ => False

instance : ∀ event : Event, Decidable event.failsAddressSpace
  | .spawn _ answer _ _ =>
      inferInstanceAs (Decidable (answer.proc ≠ none ∧ answer.addressSpace = false))
  | .createThread .. | .exit .. | .waitpid .. | .resume _ => inferInstanceAs (Decidable False)

/-- The records of the processes other than `proc` are the same up to their links. -/
structure Undone (s : Tree) (proc : Nat) (s' : Tree) : Prop where
  allocated : s'.allocated = s.allocated
  nextPid : s'.nextPid = toInt32 (s.nextPid + 1)
  others : ∀ x ≠ proc, (s'.procs x).bare = (s.procs x).bare

/-- What an event comes to, for the processes, the threads and the lists of children. -/
inductive Outcome (k : Kernel) (children : Nat → List Nat) (event : Event) :
    Kernel → (Nat → List Nat) → Prop where
  | nothing (hTurn : event.turn k = none)
      (hExit : ∀ proc status, event = .exit proc status → proc = kernelProcess) :
      Outcome k children event k children
  | spawned {caller : Option Tid} {answer : CreateAnswer} {thread : Tid}
      {proc parent : Nat} {tree : Tree}
      (hEvent : event = .spawn caller answer true thread) (hProc : answer.proc = some proc)
      (hNew : proc ∉ k.tree.allocated)
      (hParent : k.Live parent) (hThread : k.threads thread = .new)
      (hCreated : Created k.tree proc parent tree) :
      Outcome k children event
        { k with
          tree
          threads := update k.threads thread .ready
          process := update k.process thread proc }
        (update children parent (proc :: children parent))
  | unloaded {caller : Option Tid} {answer : CreateAnswer} {thread : Tid} {proc : Nat} {tree : Tree}
      (hEvent : event = .spawn caller answer false thread) (hProc : answer.proc = some proc)
      (hNew : proc ∉ k.tree.allocated)
      (hUndone : Undone k.tree proc tree) :
      Outcome k children event { k with tree } children
  | createdThread {thread : Tid} {proc : Nat} (hEvent : event = .createThread thread proc)
      (hThread : k.threads thread = .new) (hLive : k.Live proc) :
      Outcome k children event
        { k with
          threads := update k.threads thread .ready
          process := update k.process thread proc }
        children
  | exited {proc parent : Nat} {status : Int} {tree : Tree} (hEvent : event = .exit proc status)
      (hMem : proc ∈ children parent) (hLive : k.Live proc)
      (hExited : Exited k.tree children proc parent status tree) :
      Outcome k children event
        { k with
          tree
          threads := threadTerminateProcess
            (threadWakeWaiter k.threads (k.tree.procs parent).waiter) k.process proc
          exits := k.exits ++ [((k.tree.procs proc).pid, status)] }
        (update (update children proc []) kernelProcess
          ((children proc).reverse ++ children kernelProcess))
  | echild {t : Tid} {pid : Int} {status : StatusPtr} (hTurn : event.turn k = some (t, pid, status))
      (hCanRun : k.CanRun t) (hNone : ∀ c ∈ children (k.process t), ¬Matches pid (k.tree.procs c)) :
      Outcome k children event { k with calls := update k.calls t none } children
  | reaped {t : Tid} {pid : Int} {status : StatusPtr} {z : Nat} {tree : Tree}
      (hTurn : event.turn k = some (t, pid, status)) (hCanRun : k.CanRun t)
      (hMem : z ∈ children (k.process t))
      (hMatches : Matches pid (k.tree.procs z)) (hZombie : (k.tree.procs z).state = .zombie)
      (hDestroyed : Destroyed k.tree children z (k.process t) tree) :
      Outcome k children event
        { k with
          tree
          calls := update k.calls t none
          reports := k.reports ++ [((k.tree.procs z).pid,
            if status = .writable then some (k.tree.procs z).exitStatus else none)] }
        (update children (k.process t) ((children (k.process t)).erase z))
  | blocks {t : Tid} {pid : Int} {status : StatusPtr} (hTurn : event.turn k = some (t, pid, status))
      (hCanRun : k.CanRun t)
      (hNone : ∀ c ∈ children (k.process t), Matches pid (k.tree.procs c) →
        (k.tree.procs c).state ≠ .zombie) :
      Outcome k children event
        { k with
          tree := k.tree.setWaiter (k.process t) (some t)
          threads := update k.threads t .waitingChild
          calls := update k.calls t (some (pid, status)) }
        children

section Steps

variable {k : Kernel} {children : Nat → List Nat} {event : Event} {t : Tid} {pid : Int}
  {status : StatusPtr}

theorem kernelStep_turn (hTurn : event.turn k = some (t, pid, status)) :
    kernelStep k event = k.afterTurn t pid status (waitTurn k.tree (k.process t) t pid status) := by
  cases event with
  | waitpid u n ptr =>
    rw [Event.turn] at hTurn
    split at hTurn
    · cases hTurn
    · rename_i hValid
      cases hTurn
      obtain ⟨hPid, hStatus⟩ := not_or.mp hValid
      rw [kernelStep, sysWaitpid, if_neg hPid, if_neg hStatus]
  | resume u =>
    rw [Event.turn] at hTurn
    cases hCall : k.calls u with
    | none =>
      rw [hCall] at hTurn
      cases hTurn
    | some call =>
      rw [hCall] at hTurn
      cases hTurn
      simp only [kernelStep, hCall]
  | _ => cases hTurn

theorem kernelStep_refused (hTurn : (Event.waitpid t pid status).turn k = none) :
    kernelStep k (.waitpid t pid status) = { k with calls := update k.calls t none } := by
  rw [Event.turn] at hTurn
  split at hTurn
  · rename_i hBad
    rw [kernelStep, sysWaitpid]
    by_cases hPid : pid ≠ -1 ∧ pid ≤ 0
    · rw [if_pos hPid]
      rfl
    · rw [if_neg hPid, if_pos (hBad.resolve_left hPid)]
      rfl
  · cases hTurn

theorem canRun_of_turn (hEnabled : k.enabled event) (hTurn : event.turn k = some (t, pid, status)) :
    k.CanRun t := by
  cases event with
  | waitpid u n ptr =>
    rw [Event.turn] at hTurn
    split at hTurn
    · cases hTurn
    · cases hTurn
      exact hEnabled.2.1
  | resume u =>
    obtain ⟨call, _, hEq⟩ := Option.map_eq_some_iff.mp hTurn
    cases hEq
    exact hEnabled.2.1
  | _ => cases hTurn

theorem Kernel.Valid.live_of_canRun (h : k.Valid children) (hCanRun : k.CanRun t) :
    k.Live (k.process t) := by
  refine h.live t ?_ ?_
  · rcases hCanRun with hState | hState <;> rw [hState] <;> decide
  · rcases hCanRun with hState | hState <;> rw [hState] <;> decide

theorem Kernel.Valid.live_kernel (h : k.Valid children) : k.Live kernelProcess :=
  ⟨h.forest.kernel, h.forest.kernel_running⟩

/-- A spawned process belongs to the process of the caller. -/
theorem Kernel.Valid.live_caller (h : k.Valid children)
    (hCaller : ∀ t ∈ caller, k.CanRun t ∧ k.calls t = none) :
    k.Live ((caller.map k.process).getD kernelProcess) := by
  cases caller with
  | none => exact h.live_kernel
  | some t => exact h.live_of_canRun (hCaller t rfl).1

theorem Kernel.Live.not_zombie (h : k.Live proc) : (k.tree.procs proc).state ≠ .zombie := by
  rw [h.2]
  decide

theorem Kernel.Valid.outcome_turn (h : k.Valid children) (hCanRun : k.CanRun t)
    (hTurn : event.turn k = some (t, pid, status)) :
    ∃ children', Outcome k children event (kernelStep k event) children' ∧
      Forest (kernelStep k event).tree children' := by
  have hWaited := h.forest.waitTurn_waited (h.live_of_canRun hCanRun).1 t pid status
  rw [kernelStep_turn hTurn]
  generalize waitTurn k.tree (k.process t) t pid status = result at hWaited
  cases hWaited with
  | echild hNone => exact ⟨children, .echild hTurn hCanRun hNone, h.forest⟩
  | @reaped z hMem hMatches hZombie =>
    have hDestroyed := h.forest.processDestroy_destroyed hMem
    have hLeaf := h.forest.zombie z (h.forest.member _ z hMem).1 hZombie
    exact ⟨_, .reaped hTurn hCanRun hMem hMatches hZombie hDestroyed,
      h.forest.destroyed hDestroyed hMem hLeaf⟩
  | blocks _ _ hNone => exact ⟨children, .blocks hTurn hCanRun hNone, h.forest.setWaiter ..⟩

/-- A process that could not be loaded is linked and taken out again. -/
theorem Forest.undone {s₁ : Tree} {parent : Nat} (h : Forest s children)
    (hCreated : Created s proc parent s₁) (hNew : proc ∉ s.allocated)
    (hForest : Forest s₁ (update children parent (proc :: children parent))) :
    Undone s proc (processDestroy s₁ proc) ∧ Forest (processDestroy s₁ proc) children := by
  have hMem : proc ∈ update children parent (proc :: children parent) parent := by
    rw [update_self]
    exact List.mem_cons_self
  have hNe : proc ≠ parent := fun hSame => hForest.not_self proc (hSame ▸ hMem)
  have hLeaf : update children parent (proc :: children parent) proc = [] := by
    rw [update_of_ne hNe]
    exact h.outside proc hNew
  have hDestroyed := hForest.processDestroy_destroyed hMem
  refine ⟨⟨?_, hDestroyed.nextPid.trans hCreated.nextPid, fun x hx => ?_⟩, ?_⟩
  · rw [hDestroyed.allocated, hCreated.allocated, Finset.erase_insert hNew]
  · exact (hDestroyed.others x).trans (hCreated.others x hx)
  · have hAgain := hForest.destroyed hDestroyed hMem hLeaf
    rw [update_self, List.erase_cons_head, update_idem,
      update_eq_self] at hAgain
    exact hAgain

theorem Kernel.Valid.outcome_spawn (h : k.Valid children) {answer : CreateAnswer} {loaded : Bool}
    {thread : Tid} (hEnabled : k.enabled (.spawn caller answer loaded thread))
    (hSpace : ¬(Event.spawn caller answer loaded thread).failsAddressSpace) :
    ∃ children', Outcome k children (.spawn caller answer loaded thread)
        (kernelStep k (.spawn caller answer loaded thread)) children' ∧
      Forest (kernelStep k (.spawn caller answer loaded thread)).tree children' := by
  obtain ⟨_, hCaller, hThread, hFresh⟩ := hEnabled
  have hParent := h.live_caller hCaller
  cases hProc : answer.proc with
  | none =>
    refine ⟨children, ?_, ?_⟩
    · rw [kernelStep, processCreate, hProc]
      exact .nothing rfl fun _ _ hEvent => by cases hEvent
    · rw [kernelStep, processCreate, hProc]
      exact h.forest
  | some proc =>
    have hNew := hFresh proc hProc
    have hAnswer : answer.addressSpace = true := by
      cases hSame : answer.addressSpace with
      | true => rfl
      | false => exact absurd ⟨by rw [hProc]; exact Option.some_ne_none proc, hSame⟩ hSpace
    obtain ⟨tree, hRun, hCreated⟩ := processCreate_created hProc hAnswer
      (fun hSame => hNew (hSame ▸ hParent.1))
    have hForest := h.forest.created hCreated hParent.1 hParent.not_zombie hNew
    rw [kernelStep, hRun]
    cases loaded with
    | true => exact ⟨_, .spawned rfl hProc hNew hParent hThread hCreated, hForest⟩
    | false =>
      obtain ⟨hUndone, hAgain⟩ := h.forest.undone hCreated hNew hForest
      exact ⟨children, .unloaded rfl hProc hNew hUndone, hAgain⟩

/-- Every possible event has one of the outcomes and leaves a tree. -/
theorem Kernel.Valid.outcome (h : k.Valid children) (hEnabled : k.enabled event)
    (hSpace : ¬event.failsAddressSpace) :
    ∃ children', Outcome k children event (kernelStep k event) children' ∧
      Forest (kernelStep k event).tree children' := by
  cases hTurn : event.turn k with
  | some turn => exact h.outcome_turn (canRun_of_turn hEnabled hTurn) hTurn
  | none =>
    cases event with
    | spawn caller answer loaded thread => exact h.outcome_spawn hEnabled hSpace
    | createThread thread proc =>
      obtain ⟨_, hThread, hLive⟩ := hEnabled
      exact ⟨children, .createdThread rfl hThread hLive, h.forest⟩
    | exit proc status =>
      by_cases hKernel : proc = kernelProcess
      · refine ⟨children, ?_, ?_⟩
        · rw [kernelStep, if_pos hKernel]
          refine .nothing rfl fun _ _ hEvent => ?_
          cases hEvent
          exact hKernel
        · rw [kernelStep, if_pos hKernel]
          exact h.forest
      · obtain ⟨_, hLive⟩ := hEnabled
        obtain ⟨parent, _, hMem⟩ := h.forest.parent proc hLive.1 hKernel
        obtain ⟨tree, hRun, hExited⟩ := h.forest.processExit_exited hMem status
        rw [kernelStep, if_neg hKernel, hRun]
        exact ⟨_, .exited rfl hMem hLive hExited, h.forest.exited hExited hMem⟩
    | waitpid t pid status =>
      have hCalls : k.calls t = none := hEnabled.2.2
      have hSame : kernelStep k (.waitpid t pid status) = k := by
        rw [kernelStep_refused hTurn, ← hCalls, update_eq_self]
      rw [hSame]
      exact ⟨children, .nothing hTurn fun _ _ hEvent => (by cases hEvent), h.forest⟩
    | resume t =>
      exact absurd (Option.map_eq_none_iff.mp hTurn) hEnabled.2.2

theorem state_of_bare_ne {x : Nat} (hOthers : ∀ x ≠ proc, (s'.procs x).bare = (s.procs x).bare)
    (hx : x ∈ s.allocated) (hNew : proc ∉ s.allocated) : (s'.procs x).state = (s.procs x).state :=
  Proc.state_of_bare (hOthers x fun hSame => hNew (hSame ▸ hx))

theorem threadWakeWaiter_cases (threads : Tid → ThreadState) (waiter : Option Tid) (t : Tid) :
    threadWakeWaiter threads waiter t = threads t ∧ (threads t = .waitingChild → waiter ≠ some t) ∨
      waiter = some t ∧ threads t = .waitingChild ∧ threadWakeWaiter threads waiter t = .ready := by
  cases waiter with
  | none => exact .inl ⟨rfl, fun _ hSome => by cases hSome⟩
  | some u =>
    rw [threadWakeWaiter]
    split
    · rename_i hWaiting
      rcases eq_or_ne t u with rfl | hNe
      · exact .inr ⟨rfl, hWaiting, update_self ..⟩
      · exact .inl ⟨update_of_ne hNe .., fun _ hSome => hNe (Option.some.inj hSome).symm⟩
    · rename_i hNot
      refine .inl ⟨rfl, fun hWaiting hSome => hNot ?_⟩
      rw [Option.some.inj hSome]
      exact hWaiting

/-- No thread of a terminated process is left. -/
theorem threadTerminateProcess_cases {threads : Tid → ThreadState} {process : Tid → Nat}
    (hNew : threadTerminateProcess threads process proc t ≠ .new)
    (hDead : threadTerminateProcess threads process proc t ≠ .dead) :
    process t ≠ proc ∧ threadTerminateProcess threads process proc t = threads t := by
  rw [threadTerminateProcess] at hNew hDead ⊢
  split at hNew
  · exact absurd rfl (by rename_i hBoth; rw [if_pos hBoth] at hDead; exact hDead)
  · rename_i hNot
    exact ⟨fun hSame => hNot ⟨hSame, hNew⟩, if_neg hNot⟩

theorem Outcome.live (h : k.Valid children) (hOutcome : Outcome k children event k' children')
    (hNew : k'.threads t ≠ .new) (hDead : k'.threads t ≠ .dead) : k'.Live (k'.process t) := by
  cases hOutcome with
  | nothing => exact h.live t hNew hDead
  | @spawned _ _ thread proc parent tree _ _ hFresh _ _ hCreated =>
    change update k.process thread proc t ∈ tree.allocated ∧
      (tree.procs (update k.process thread proc t)).state = .running
    rw [hCreated.allocated]
    rcases eq_or_ne t thread with rfl | hNe
    · rw [update_self]
      exact ⟨Finset.mem_insert_self .., hCreated.state⟩
    · simp only [update_of_ne hNe] at hNew hDead ⊢
      obtain ⟨hIn, hRunning⟩ := h.live t hNew hDead
      exact ⟨Finset.mem_insert_of_mem hIn,
        (state_of_bare_ne hCreated.others hIn hFresh).trans hRunning⟩
  | @unloaded _ _ thread proc tree _ _ hFresh hUndone =>
    obtain ⟨hIn, hRunning⟩ := h.live t hNew hDead
    exact ⟨hUndone.allocated ▸ hIn, (state_of_bare_ne hUndone.others hIn hFresh).trans hRunning⟩
  | @createdThread thread proc _ _ hLive =>
    change k.Live (update k.process thread proc t)
    rcases eq_or_ne t thread with rfl | hNe
    · rw [update_self]
      exact hLive
    · simp only [update_of_ne hNe] at hNew hDead ⊢
      exact h.live t hNew hDead
  | @exited proc parent status tree _ _ _ hExited =>
    obtain ⟨hOther, hSame⟩ := threadTerminateProcess_cases hNew hDead
    simp only [hSame] at hNew hDead
    have hBefore : k.threads t ≠ .new ∧ k.threads t ≠ .dead := by
      rcases threadWakeWaiter_cases k.threads (k.tree.procs parent).waiter t with
        ⟨hWoken, _⟩ | ⟨_, hWaiting, _⟩
      · rw [hWoken] at hNew hDead
        exact ⟨hNew, hDead⟩
      · rw [hWaiting]
        decide
    obtain ⟨hIn, hRunning⟩ := h.live t hBefore.1 hBefore.2
    refine ⟨hExited.allocated ▸ hIn, ?_⟩
    rw [hExited.state, if_neg hOther]
    exact hRunning
  | echild => exact h.live t hNew hDead
  | @reaped _ _ _ z tree _ _ _ _ hZombie hDestroyed =>
    obtain ⟨hIn, hRunning⟩ := h.live t hNew hDead
    have hState := (Proc.state_of_bare (hDestroyed.others (k.process t))).trans hRunning
    refine ⟨?_, hState⟩
    rw [hDestroyed.allocated, Finset.mem_erase]
    refine ⟨fun hSame => ?_, hIn⟩
    rw [hSame, hZombie] at hRunning
    cases hRunning
  | @blocks u _ _ _ hCanRun =>
    have hBefore : k.threads t ≠ .new ∧ k.threads t ≠ .dead := by
      rcases eq_or_ne t u with rfl | hNe
      · rcases hCanRun with hState | hState <;> rw [hState] <;> decide
      · simp only [update_of_ne hNe] at hNew hDead
        exact ⟨hNew, hDead⟩
    obtain ⟨hIn, hRunning⟩ := h.live t hBefore.1 hBefore.2
    refine ⟨hIn, ?_⟩
    simp only [Tree.setWaiter, setProc_waiter]
    exact hRunning

theorem Kernel.Valid.step (h : k.Valid children) (hEnabled : k.enabled event)
    (hSpace : ¬event.failsAddressSpace) :
    ∃ children', Outcome k children event (kernelStep k event) children' ∧
      (kernelStep k event).Valid children' := by
  obtain ⟨children', hOutcome, hForest⟩ := h.outcome hEnabled hSpace
  exact ⟨children', hOutcome, hForest, fun t => hOutcome.live h⟩

theorem kernelInit_valid : kernelInit.Valid (fun _ => []) where
  forest :=
    { kernel := Finset.mem_singleton_self _
      kernel_running := rfl
      kernel_root := rfl
      linked := fun _ _ => rfl
      outside := fun _ _ => rfl
      member := fun _ _ hc => (List.not_mem_nil hc).elim
      parent := fun _ hc hNot => absurd (Finset.mem_singleton.mp hc) hNot
      zombie := fun _ _ _ => rfl
      acyclic := ⟨fun _ => 0, rfl, fun _ _ hc => (List.not_mem_nil hc).elim⟩
      not_hung := rfl }
  live := fun _ _ _ => ⟨Finset.mem_singleton_self _, rfl⟩

end Steps

section FailedCreation

variable {k : Kernel} {children : Nat → List Nat} {event : Event}

/-- The processes in use, and their links, are the same. -/
def SameLinks (s s' : Tree) : Prop :=
  s'.allocated = s.allocated ∧ ∀ p ∈ s.allocated,
    (s'.procs p).parent = (s.procs p).parent ∧
      (s'.procs p).childrenHead = (s.procs p).childrenHead ∧
      (s'.procs p).nextSibling = (s.procs p).nextSibling

/-- Every pointer in a list of children is to a process that was not freed. -/
def NoDangling (s : Tree) : Prop :=
  (∀ p ∈ s.allocated, ∀ c, (s.procs p).childrenHead = some c → c ∈ s.allocated) ∧
    ∀ p ∈ s.allocated, p ≠ kernelProcess → ∀ c, (s.procs p).nextSibling = some c → c ∈ s.allocated

/-- A `process_create` that returns NULL has changed no link, and no pointer dangles after
the event. -/
def TreeSurvives (k : Kernel) (event : Event) : Prop :=
  (∀ caller answer loaded thread, event = .spawn caller answer loaded thread →
      (processCreate k.tree (caller.map k.process) answer).1 = none →
      SameLinks k.tree (processCreate k.tree (caller.map k.process) answer).2) ∧
    NoDangling (kernelStep k event).tree

theorem Forest.noDangling (h : Forest s children) : NoDangling s := by
  refine ⟨fun p hp c hc => ?_, fun p hp hKernel c hc => ?_⟩
  · obtain ⟨rest, hList, _⟩ := linked_some (hc ▸ h.linked p hp)
    exact (h.member p c (by rw [hList]; exact List.mem_cons_self)).1
  · obtain ⟨q, _, hMem⟩ := h.parent p hp hKernel
    obtain ⟨before, rest, hSplit⟩ := List.append_of_mem hMem
    have hLinked := h.linked q (h.allocated_of_mem hMem)
    rw [hSplit] at hLinked
    have hNext : nextOf s.procs p = some c := hc
    obtain ⟨_, hRest, _⟩ := linked_some (hNext ▸ hLinked.suffix)
    exact (h.member q c (by rw [hSplit, hRest]; simp)).1

/-- A process without an address space is freed and stays the first child of its parent. -/
theorem Kernel.Valid.dangling (h : k.Valid children) (hEnabled : k.enabled event)
    (hFails : event.failsAddressSpace) : ¬NoDangling (kernelStep k event).tree := by
  cases event with
  | spawn caller answer loaded thread =>
    obtain ⟨hSome, hSpace⟩ := hFails
    obtain ⟨proc, hProc⟩ := Option.ne_none_iff_exists'.mp hSome
    obtain ⟨_, hCaller, _, hFresh⟩ := hEnabled
    have hParent := (h.live_caller hCaller).1
    rintro ⟨hHeads, _⟩
    rw [kernelStep, processCreate, hProc, hSpace] at hHeads
    exact hFresh proc hProc (hHeads _ hParent proc linkNew_head)
  | _ => exact hFails.elim

theorem Kernel.Valid.treeSurvives_iff (h : k.Valid children) (hEnabled : k.enabled event) :
    TreeSurvives k event ↔ ¬event.failsAddressSpace := by
  constructor
  · rintro ⟨_, hPointers⟩ hFails
    exact h.dangling hEnabled hFails hPointers
  · intro hSpace
    obtain ⟨_, _, hValid⟩ := h.step hEnabled hSpace
    refine ⟨?_, hValid.forest.noDangling⟩
    rintro caller answer loaded thread rfl hNull
    cases hProc : answer.proc with
    | none =>
      rw [processCreate, hProc]
      exact ⟨rfl, fun p _ => ⟨rfl, rfl, rfl⟩⟩
    | some proc =>
      have hAnswer : answer.addressSpace = true := by
        cases hSame : answer.addressSpace with
        | true => rfl
        | false => exact absurd ⟨by rw [hProc]; exact Option.some_ne_none proc, hSame⟩ hSpace
      rw [processCreate, hProc, hAnswer] at hNull
      cases hNull

/-- In every run the tree survives, with every `process_create` that returns NULL leaving
the links alone and no dangling pointer, exactly if no address space of a new process
fails to be made. -/
theorem tree_survives_iff (events : List Event)
    (hEnabled : EachStep kernelStep Kernel.enabled kernelInit events) :
    EachStep kernelStep TreeSurvives kernelInit events ↔
      EachStep kernelStep (fun _ event => ¬event.failsAddressSpace) kernelInit events := by
  have hIff : ∀ k event, (∃ children, k.Valid children) → k.enabled event →
      (TreeSurvives k event ↔ ¬event.failsAddressSpace) :=
    fun _ _ ⟨_, hValid⟩ hEnabled => hValid.treeSurvives_iff hEnabled
  have hStep : ∀ k event, (∃ children, k.Valid children) → k.enabled event →
      ¬event.failsAddressSpace → ∃ children, (kernelStep k event).Valid children :=
    fun _ _ ⟨_, hValid⟩ hEnabled hSpace =>
      let ⟨children', _, hNext⟩ := hValid.step hEnabled hSpace
      ⟨children', hNext⟩
  exact eachStep_iff hIff hStep ⟨_, kernelInit_valid⟩ hEnabled

/-- `sys_spawn` by a thread, with the new process at `proc` and its thread with the same
number. -/
def spawnAt (caller proc : Nat) : Event :=
  .spawn (some caller) ⟨some proc, fun _ => none, true⟩ true proc

/-- A process exits and leaves a child behind, and the kernel process reaps it. -/
def orphanRun : List Event := [spawnAt 0 1, spawnAt 1 2, .exit 1 5, .waitpid 0 (-1) .null]

theorem tree_survives_iff_orphan :
    EachStep kernelStep Kernel.enabled kernelInit orphanRun ∧
      EachStep kernelStep TreeSurvives kernelInit orphanRun :=
  ⟨by decide, (tree_survives_iff orphanRun (by decide)).mpr (by decide)⟩

/-- No thread that can run or waits belongs to a process that has exited or is freed. -/
theorem threads_live (events : List Event)
    (hEnabled : EachStep kernelStep Kernel.enabled kernelInit events)
    (hSpace : EachStep kernelStep (fun _ event => ¬event.failsAddressSpace) kernelInit events)
    (t : Tid) : let k := events.foldl kernelStep kernelInit
    k.threads t ≠ .new → k.threads t ≠ .dead → k.Live (k.process t) := by
  have hStep (k : Kernel) (event : Event) : (∃ children, k.Valid children) →
      k.enabled event ∧ ¬event.failsAddressSpace →
        ∃ children, (kernelStep k event).Valid children := by
    rintro ⟨_, hValid⟩ ⟨hHere, hSpaceHere⟩
    exact (hValid.step hHere hSpaceHere).imp fun _ => And.right
  obtain ⟨_, hEnd⟩ := foldl_invariant hStep ⟨_, kernelInit_valid⟩ (eachStep_and hEnabled hSpace)
  exact hEnd.live t

/-- The process that was reaped is gone, and the one that it has left lives. -/
theorem threads_live_orphan :
    1 ∉ (orphanRun.foldl kernelStep kernelInit).tree.allocated ∧
      (orphanRun.foldl kernelStep kernelInit).Live 2 :=
  ⟨by decide, threads_live orphanRun (by decide) (by decide) 2 (by decide) (by decide)⟩

/-- `sys_spawn` by the first thread, for which `kmalloc` returns address 1. -/
def spawnOne (addressSpace : Bool) : Event :=
  .spawn (some 0) ⟨some 1, fun _ => none, addressSpace⟩ true 1

/-- Without a page for the address space the new process is freed, and the kernel process
still has it as its first child. -/
theorem failed_creation_dangles :
    kernelInit.enabled (spawnOne false) ∧
      (processCreate kernelInit.tree (some kernelProcess) ⟨some 1, fun _ => none, false⟩).1 = none ∧
      ((kernelStep kernelInit (spawnOne false)).tree.procs kernelProcess).childrenHead = some 1 ∧
      1 ∉ (kernelStep kernelInit (spawnOne false)).tree.allocated :=
  ⟨by decide, rfl, rfl, by decide⟩

end FailedCreation

section LostWakeup

variable {k : Kernel} {children : Nat → List Nat} {event : Event}

/-- No thread waits in `waitpid` while its process has a zombie child it waits for. -/
def Kernel.NoLostWakeup (k : Kernel) : Prop :=
  ∀ t pid status, k.threads t = .waitingChild → k.calls t = some (pid, status) →
    ∀ c, k.tree.IsChild c (k.process t) → (k.tree.procs c).state = .zombie →
      ¬Matches pid (k.tree.procs c)

/-- When a process exits, every thread that waits for it, or in the kernel process for one
of its zombie children, is the one in the `waiter` slot of its parent. -/
def Event.WakesAll (k : Kernel) : Event → Prop
  | .exit proc _ =>
    proc ≠ kernelProcess → ∀ parent, (k.tree.procs proc).parent = some parent →
      ∀ t pid status, k.threads t = .waitingChild → k.calls t = some (pid, status) →
        k.process t ≠ proc → (k.tree.procs parent).waiter ≠ some t →
        (k.process t = parent → ¬Matches pid (k.tree.procs proc)) ∧
          (k.process t = kernelProcess → ∀ z, k.tree.IsChild z proc →
            (k.tree.procs z).state = .zombie → ¬Matches pid (k.tree.procs z))
  | _ => True

theorem matches_congr {pid : Int} (h : a.pid = b.pid) : Matches pid a ↔ Matches pid b := by
  rw [Matches, Matches, h]

/-- With the same waiting threads and no new zombies, no wake-up gets lost. -/
theorem Kernel.NoLostWakeup.mono (h : k.NoLostWakeup)
    (hThreads : ∀ t, k'.threads t = .waitingChild →
      k.threads t = .waitingChild ∧ k'.calls t = k.calls t ∧ k'.process t = k.process t)
    (hZombies : ∀ c p, k'.tree.IsChild c p → (k'.tree.procs c).state = .zombie →
      k.tree.IsChild c p ∧ (k.tree.procs c).state = .zombie ∧
        (k'.tree.procs c).pid = (k.tree.procs c).pid) :
    k'.NoLostWakeup := by
  intro t pid status hWaiting hCall c hChild hZombie
  obtain ⟨hBefore, hCalls, hProcess⟩ := hThreads t hWaiting
  obtain ⟨hWasChild, hWasZombie, hPid⟩ := hZombies c _ hChild hZombie
  rw [matches_congr hPid]
  exact h t pid status hBefore (hCalls ▸ hCall) c (hProcess ▸ hWasChild) hWasZombie

theorem Proc.pid_of_bare (h : a.bare = b.bare) : a.pid = b.pid :=
  show a.bare.pid = b.bare.pid from congrArg Proc.pid h

theorem Kernel.CanRun.not_waiting (h : k.CanRun t) : k.threads t ≠ .waitingChild := by
  rcases h with hState | hState <;> rw [hState] <;> decide

theorem zombie_of_bare {c p : Nat} (hIn : c ∈ s.allocated)
    (hBare : (s'.procs c).bare = (s.procs c).bare) (hChild : s'.IsChild c p)
    (hZombie : (s'.procs c).state = .zombie) :
    s.IsChild c p ∧ (s.procs c).state = .zombie ∧ (s'.procs c).pid = (s.procs c).pid :=
  ⟨⟨hIn, (Proc.parent_of_bare hBare).symm.trans hChild.2⟩,
    (Proc.state_of_bare hBare).symm.trans hZombie, Proc.pid_of_bare hBare⟩

/-- Only the exit of a process can lose a wake-up. -/
theorem Outcome.noLostWakeup (h : k.Valid children)
    (hOutcome : Outcome k children event k' children') (hLost : k.NoLostWakeup)
    (hExit : ∀ proc status, event = .exit proc status → proc = kernelProcess) :
    k'.NoLostWakeup := by
  cases hOutcome with
  | nothing => exact hLost
  | @spawned _ _ thread proc parent tree _ _ hNew _ _ hCreated =>
    refine hLost.mono (fun t hWaiting => ?_) (fun c p hChild hZombie => ?_)
    · have hNe : t ≠ thread := fun hSame => by
        subst hSame
        cases (update_self ..).symm.trans hWaiting
      exact ⟨(update_of_ne hNe ..).symm.trans hWaiting, rfl, update_of_ne hNe ..⟩
    · have hNe : c ≠ proc := fun hSame => by
        subst hSame
        cases hCreated.state.symm.trans hZombie
      have hIn : c ∈ insert proc k.tree.allocated := hCreated.allocated ▸ hChild.1
      exact zombie_of_bare (Finset.mem_of_mem_insert_of_ne hIn hNe)
        (hCreated.others c hNe) hChild hZombie
  | @unloaded _ _ _ proc tree _ _ hNew hUndone =>
    refine hLost.mono (fun t hWaiting => ⟨hWaiting, rfl, rfl⟩) (fun c p hChild hZombie => ?_)
    have hIn : c ∈ k.tree.allocated := hUndone.allocated ▸ hChild.1
    exact zombie_of_bare hIn (hUndone.others c fun hSame => hNew (hSame ▸ hIn)) hChild hZombie
  | @createdThread thread proc =>
    refine hLost.mono (fun t hWaiting => ?_) (fun c p hChild hZombie => ⟨hChild, hZombie, rfl⟩)
    have hNe : t ≠ thread := fun hSame => by
      subst hSame
      cases (update_self ..).symm.trans hWaiting
    exact ⟨(update_of_ne hNe ..).symm.trans hWaiting, rfl, update_of_ne hNe ..⟩
  | @exited proc parent status tree hEvent hMem =>
    exact absurd (hExit proc status hEvent) (h.forest.member parent proc hMem).2.1
  | @echild u _ _ _ hCanRun =>
    refine hLost.mono (fun t hWaiting => ?_) (fun c p hChild hZombie => ⟨hChild, hZombie, rfl⟩)
    have hNe : t ≠ u := fun hSame => hCanRun.not_waiting (hSame ▸ hWaiting)
    exact ⟨hWaiting, update_of_ne hNe .., rfl⟩
  | @reaped u _ _ z tree _ hCanRun _ _ _ hDestroyed =>
    refine hLost.mono (fun t hWaiting => ?_) (fun c p hChild hZombie => ?_)
    · have hNe : t ≠ u := fun hSame => hCanRun.not_waiting (hSame ▸ hWaiting)
      exact ⟨hWaiting, update_of_ne hNe .., rfl⟩
    · have hIn : c ∈ k.tree.allocated.erase z := hDestroyed.allocated ▸ hChild.1
      exact zombie_of_bare (Finset.mem_of_mem_erase hIn) (hDestroyed.others c) hChild hZombie
  | @blocks u pid status hTurn hCanRun hNone =>
    intro t pid' status' hWaiting hCall c hChild hZombie
    simp only [Tree.IsChild, Tree.setWaiter, setProc_waiter] at hChild hZombie ⊢
    have hPid : Matches pid' { k.tree.procs c with
        waiter := if c = k.process u then some u else (k.tree.procs c).waiter } ↔
        Matches pid' (k.tree.procs c) := matches_congr rfl
    rcases eq_or_ne t u with rfl | hNe
    · -- the thread has just found that there is no such zombie
      have hSame : some (pid, status) = some (pid', status') := by
        rw [← hCall]
        exact (update_self t (some (pid, status)) k.calls).symm
      cases hSame
      exact fun hMatches => hNone c (h.forest.isChild_iff.mp hChild) hMatches hZombie
    · exact hLost t pid' status' ((update_of_ne hNe ..).symm.trans hWaiting)
        ((update_of_ne hNe ..).symm.trans hCall) c hChild hZombie

theorem waiting_after_exit {waiter : Option Tid} :
    threadTerminateProcess (threadWakeWaiter k.threads waiter) k.process proc t = .waitingChild ↔
      k.threads t = .waitingChild ∧ k.process t ≠ proc ∧ waiter ≠ some t := by
  constructor
  · intro hWaiting
    obtain ⟨hOther, hSame⟩ := threadTerminateProcess_cases
      (by rw [hWaiting]; decide) (by rw [hWaiting]; decide)
    rw [hSame] at hWaiting
    rcases threadWakeWaiter_cases k.threads waiter t with ⟨hWoken, hSlot⟩ | ⟨_, _, hReady⟩
    · rw [hWoken] at hWaiting
      exact ⟨hWaiting, hOther, hSlot hWaiting⟩
    · rw [hReady] at hWaiting
      cases hWaiting
  · rintro ⟨hWaiting, hOther, hSlot⟩
    rw [threadTerminateProcess, if_neg fun hBoth => hOther hBoth.1]
    rcases threadWakeWaiter_cases k.threads waiter t with ⟨hWoken, _⟩ | ⟨hSome, _, _⟩
    · exact hWoken.trans hWaiting
    · exact absurd hSome hSlot

theorem Exited.zombieChild_iff {proc parent c p : Nat} {status : Int} {tree : Tree}
    (h : Forest k.tree children) (hExited : Exited k.tree children proc parent status tree)
    (hMem : proc ∈ children parent) :
    tree.IsChild c p ∧ (tree.procs c).state = .zombie ↔
      c = proc ∧ p = parent ∨
      k.tree.IsChild c proc ∧ (k.tree.procs c).state = .zombie ∧ p = kernelProcess ∨
      k.tree.IsChild c p ∧ (k.tree.procs c).state = .zombie ∧ p ≠ proc ∧ c ≠ proc := by
  obtain ⟨hProc, hKernel, hUp⟩ := h.member parent proc hMem
  rw [Tree.IsChild, hExited.allocated, hExited.up, hExited.state]
  rcases eq_or_ne c proc with rfl | hNe
  · rw [if_neg (h.not_self c), if_pos rfl, hUp]
    constructor
    · rintro ⟨⟨_, hSame⟩, _⟩
      cases hSame
      exact .inl ⟨rfl, rfl⟩
    · rintro (⟨_, rfl⟩ | ⟨⟨_, hSelf⟩, _⟩ | ⟨_, _, _, hNe⟩)
      · exact ⟨⟨hProc, rfl⟩, rfl⟩
      · cases hUp.symm.trans hSelf
        exact absurd hMem (h.not_self _)
      · exact absurd rfl hNe
  · rw [if_neg hNe]
    by_cases hMoved : c ∈ children proc
    · have hChild : k.tree.IsChild c proc := h.isChild_iff.mpr hMoved
      rw [if_pos hMoved]
      constructor
      · rintro ⟨⟨_, hSame⟩, hZombie⟩
        cases hSame
        exact .inr (.inl ⟨hChild, hZombie, rfl⟩)
      · rintro (⟨hSame, _⟩ | ⟨⟨hIn, _⟩, hZombie, rfl⟩ | ⟨⟨_, hOther⟩, _, hNot, _⟩)
        · exact absurd hSame hNe
        · exact ⟨⟨hIn, rfl⟩, hZombie⟩
        · rw [hChild.2] at hOther
          exact absurd (Option.some.inj hOther).symm hNot
    · rw [if_neg hMoved]
      have hNotChild : ¬k.tree.IsChild c proc := fun hChild => hMoved (h.isChild_iff.mp hChild)
      constructor
      · rintro ⟨hChild, hZombie⟩
        exact .inr (.inr ⟨hChild, hZombie, fun hSame => hNotChild (hSame ▸ hChild), hNe⟩)
      · rintro (⟨hSame, _⟩ | ⟨hChild, hZombie, _⟩ | ⟨hChild, hZombie, _, _⟩)
        · exact absurd hSame hNe
        · exact absurd hChild hNotChild
        · exact ⟨hChild, hZombie⟩

theorem wakesAll_of_not_exit
      (hExit : ∀ proc status, event = .exit proc status → proc = kernelProcess) :
    event.WakesAll k := by
  cases event with
  | exit proc status => exact fun hKernel => absurd (hExit proc status rfl) hKernel
  | _ => trivial

theorem Outcome.wakesAll_iff (h : k.Valid children)
    (hOutcome : Outcome k children event k' children') (hLost : k.NoLostWakeup) :
    k'.NoLostWakeup ↔ event.WakesAll k := by
  have hOther : (∀ proc status, event = .exit proc status → proc = kernelProcess) →
      (k'.NoLostWakeup ↔ event.WakesAll k) := fun hExit =>
    ⟨fun _ => wakesAll_of_not_exit hExit, fun _ => hOutcome.noLostWakeup h hLost hExit⟩
  have hNotExit : ∀ {turn}, event.turn k = some turn →
      ∀ proc status, event = .exit proc status → proc = kernelProcess := by
    intro turn hTurn proc status hEvent
    rw [hEvent] at hTurn
    cases hTurn
  cases hOutcome with
  | nothing _ hExit => exact hOther hExit
  | spawned hEvent => exact hOther fun _ _ hSame => by cases hEvent.symm.trans hSame
  | unloaded hEvent => exact hOther fun _ _ hSame => by cases hEvent.symm.trans hSame
  | createdThread hEvent => exact hOther fun _ _ hSame => by cases hEvent.symm.trans hSame
  | echild hTurn => exact hOther (hNotExit hTurn)
  | reaped hTurn => exact hOther (hNotExit hTurn)
  | blocks hTurn => exact hOther (hNotExit hTurn)
  | @exited proc parent status tree hEvent hMem hLive hExited =>
    subst hEvent
    obtain ⟨_, hKernel, hUp⟩ := h.forest.member parent proc hMem
    have hZombies := fun c p =>
      @Exited.zombieChild_iff k children proc parent c p status tree h.forest hExited hMem
    have hPid : ∀ pid c, Matches pid (tree.procs c) ↔ Matches pid (k.tree.procs c) := fun pid c =>
      matches_congr (hExited.pid c)
    constructor
    · intro hAfter _ parent' hParent t pid ptr hWaiting hCall hOther hSlot
      cases hUp.symm.trans hParent
      have hStill := waiting_after_exit.mpr ⟨hWaiting, hOther, hSlot⟩
      refine ⟨fun hProcess hMatches => ?_, fun hProcess z hChild hZombie hMatches => ?_⟩
      · obtain ⟨hNew, hState⟩ := (hZombies proc (k.process t)).mpr (.inl ⟨rfl, hProcess⟩)
        exact hAfter t pid ptr hStill hCall proc hNew hState ((hPid pid proc).mpr hMatches)
      · obtain ⟨hNew, hState⟩ :=
          (hZombies z (k.process t)).mpr (.inr (.inl ⟨hChild, hZombie, hProcess⟩))
        exact hAfter t pid ptr hStill hCall z hNew hState ((hPid pid z).mpr hMatches)
    · intro hWakes t pid ptr hStill hCall c hChild hState
      obtain ⟨hWaiting, hOther, hSlot⟩ := waiting_after_exit.mp hStill
      obtain ⟨hParents, hOrphans⟩ := hWakes hKernel parent hUp t pid ptr hWaiting hCall hOther hSlot
      rw [hPid]
      rcases (hZombies c (k.process t)).mp ⟨hChild, hState⟩ with
        ⟨rfl, hProcess⟩ | ⟨hWas, hZombie, hProcess⟩ | ⟨hWas, hZombie, _, _⟩
      · exact hParents hProcess
      · exact hOrphans hProcess c hWas hZombie
      · exact hLost t pid ptr hWaiting hCall c hWas hZombie

/-- In every run in which the address spaces of new processes can be made, no wake-up of a
thread in `waitpid` is ever lost, exactly if every exit wakes all the threads that have
waited for it or for the orphans it leaves. -/
theorem no_lost_wakeup_iff (events : List Event)
    (hEnabled : EachStep kernelStep Kernel.enabled kernelInit events)
    (hSpace : EachStep kernelStep (fun _ event => ¬event.failsAddressSpace) kernelInit events) :
    EachStep kernelStep (fun k event => (kernelStep k event).NoLostWakeup) kernelInit events ↔
      EachStep kernelStep (fun k event => event.WakesAll k) kernelInit events := by
  have hIff : ∀ (k : Kernel) (event : Event), ((∃ children, k.Valid children) ∧ k.NoLostWakeup) →
      (k.enabled event ∧ ¬event.failsAddressSpace) →
      ((kernelStep k event).NoLostWakeup ↔ event.WakesAll k) := by
    rintro k event ⟨⟨children, hValid⟩, hLost⟩ ⟨hHere, hSpaceHere⟩
    obtain ⟨_, hOutcome, _⟩ := hValid.step hHere hSpaceHere
    exact hOutcome.wakesAll_iff hValid hLost
  have hStep : ∀ (k : Kernel) (event : Event), ((∃ children, k.Valid children) ∧ k.NoLostWakeup) →
      (k.enabled event ∧ ¬event.failsAddressSpace) → event.WakesAll k →
      (∃ children, (kernelStep k event).Valid children) ∧ (kernelStep k event).NoLostWakeup := by
    rintro k event ⟨⟨children, hValid⟩, hLost⟩ ⟨hHere, hSpaceHere⟩ hWakes
    obtain ⟨children', hOutcome, hNext⟩ := hValid.step hHere hSpaceHere
    exact ⟨⟨children', hNext⟩, (hOutcome.wakesAll_iff hValid hLost).mpr hWakes⟩
  have hInit : kernelInit.NoLostWakeup := fun t _ _ _ hCall => by cases hCall
  exact eachStep_iff hIff hStep ⟨⟨_, kernelInit_valid⟩, hInit⟩ (eachStep_and hEnabled hSpace)

/-- The only child exits while the first thread waits for it. -/
def waitThenExit : List Event := [spawnOne true, .waitpid 0 (-1) .null, .exit 1 5]

theorem no_lost_wakeup_iff_waitThenExit :
    EachStep kernelStep Kernel.enabled kernelInit waitThenExit ∧
      EachStep kernelStep
        (fun k event => (kernelStep k event).NoLostWakeup) kernelInit waitThenExit := by
  refine ⟨by decide, (no_lost_wakeup_iff waitThenExit (by decide) (by decide)).mpr
    ⟨trivial, trivial, fun _ parent hParent t _ _ hWaiting _ _ hSlot => ?_, trivial⟩⟩
  cases hParent
  -- the only thread that waits is the one in the slot
  have hOnly : t = 0 := by
    by_contra hNe
    have hState : update (update kernelInit.threads 1 .ready) 0 .waitingChild t =
        .waitingChild := hWaiting
    rw [update_of_ne hNe] at hState
    by_cases hOne : t = 1
    · rw [hOne, update_self] at hState
      cases hState
    · rw [update_of_ne hOne] at hState
      cases (if_neg hNe : kernelInit.threads t = .new).symm.trans hState
  rw [hOnly] at hSlot
  exact absurd rfl hSlot

/-- A process with a zombie child exits while the first thread waits for any child: the
zombie becomes a child of the kernel process, and the thread is not woken. -/
theorem wakeup_lost_by_reparenting :
    EachStep kernelStep Kernel.enabled kernelInit
        [spawnAt 0 1, spawnAt 1 2, spawnAt 2 3, .exit 3 7, .waitpid 0 (-1) .null, .exit 2 0] ∧
      ∀ k, k = [spawnAt 0 1, spawnAt 1 2, spawnAt 2 3, .exit 3 7, .waitpid 0 (-1) .null,
          .exit 2 0].foldl kernelStep kernelInit →
        k.threads 0 = .waitingChild ∧ k.calls 0 = some (-1, .null) ∧ k.process 0 = kernelProcess ∧
          3 ∈ k.tree.allocated ∧ (k.tree.procs 3).parent = some kernelProcess ∧
          (k.tree.procs 3).state = .zombie ∧ Matches (-1) (k.tree.procs 3) := by
  refine ⟨by decide, ?_⟩
  rintro k rfl
  decide

end LostWakeup

end Kryos.ProcessTree
