import Kryos.Process.Waitpid

/-! Every child is reaped once, by its parent, with its own status. Pids are not used again
before 2^31 processes were created, so a pid stands for a process over a whole run. -/
namespace Kryos.ProcessTree

open Chain Thread Trace

def Event.isCreation : Event → Bool
  | .spawn _ answer _ _ => answer.proc.isSome
  | _ => false

/-- What `sys_waitpid` returns, or that it blocks. -/
def Kernel.waitResult (k : Kernel) : Event → Option WaitResult
  | .waitpid t pid status => some (sysWaitpid k.tree (k.process t) t pid status).1
  | .resume t =>
    (k.calls t).map fun call => (waitTurn k.tree (k.process t) t call.1 call.2).1
  | _ => none

/-- What was created, exited and reported so far, after `n` creations. -/
structure Kernel.History (k : Kernel) (n : Nat) : Prop where
  nextPid : k.tree.nextPid = toInt32 (n + 1)
  pid_le : ∀ p ∈ k.tree.allocated, (k.tree.procs p).pid ≤ n
  pid_unique : ∀ p ∈ k.tree.allocated, ∀ q ∈ k.tree.allocated,
    (k.tree.procs p).pid = (k.tree.procs q).pid → p = q
  exit_le : ∀ exit ∈ k.exits, exit.1 ≤ n
  exits_nodup : (k.exits.map Prod.fst).Nodup
  running : ∀ p ∈ k.tree.allocated, (k.tree.procs p).state = .running →
    (k.tree.procs p).pid ∉ k.exits.map Prod.fst
  zombie : ∀ p ∈ k.tree.allocated, (k.tree.procs p).state = .zombie →
    ((k.tree.procs p).pid, (k.tree.procs p).exitStatus) ∈ k.exits
  report_le : ∀ report ∈ k.reports, report.1 ≤ n
  reports_nodup : (k.reports.map Prod.fst).Nodup
  unreported : ∀ p ∈ k.tree.allocated, (k.tree.procs p).pid ∉ k.reports.map Prod.fst

section Steps

variable {k k' : Kernel} {children children' : Nat → List Nat} {event : Event} {n : Nat}

theorem toInt32_eq {m : Nat} (h : m < 2 ^ 31) : toInt32 m = m := by
  rw [toInt32]
  omega

/-- The records of the processes in use stay, and so do the lists. -/
theorem Kernel.History.congr {n' : Nat} (h : k.History n) (hLe : n ≤ n')
    (hNext : k'.tree.nextPid = toInt32 (n' + 1))
    (hExits : k'.exits = k.exits) (hReports : k'.reports = k.reports)
    (hAllocated : k'.tree.allocated = k.tree.allocated)
    (hSame : ∀ p ∈ k.tree.allocated, (k'.tree.procs p).pid = (k.tree.procs p).pid ∧
      (k'.tree.procs p).state = (k.tree.procs p).state ∧
      (k'.tree.procs p).exitStatus = (k.tree.procs p).exitStatus) :
    k'.History n' where
  nextPid := hNext
  pid_le := fun p hp => by
    rw [hAllocated] at hp
    have hBound := h.pid_le p hp
    rw [(hSame p hp).1]
    omega
  pid_unique := fun p hp q hq hEq => by
    rw [hAllocated] at hp hq
    rw [(hSame p hp).1, (hSame q hq).1] at hEq
    exact h.pid_unique p hp q hq hEq
  exit_le := fun exit hExit => (h.exit_le exit (hExits ▸ hExit)).trans (by omega)
  exits_nodup := hExits ▸ h.exits_nodup
  running := fun p hp hRunning => by
    rw [hAllocated] at hp
    rw [(hSame p hp).2.1] at hRunning
    rw [hExits, (hSame p hp).1]
    exact h.running p hp hRunning
  zombie := fun p hp hZombie => by
    rw [hAllocated] at hp
    rw [(hSame p hp).2.1] at hZombie
    rw [hExits, (hSame p hp).1, (hSame p hp).2.2]
    exact h.zombie p hp hZombie
  report_le := fun report hReport => (h.report_le report (hReports ▸ hReport)).trans (by omega)
  reports_nodup := hReports ▸ h.reports_nodup
  unreported := fun p hp => by
    rw [hAllocated] at hp
    rw [hReports, (hSame p hp).1]
    exact h.unreported p hp

theorem Proc.exitStatus_of_bare {a b : Proc} (h : a.bare = b.bare) : a.exitStatus = b.exitStatus :=
  show a.bare.exitStatus = b.bare.exitStatus from congrArg Proc.exitStatus h

theorem Kernel.History.created {proc parent : Nat} {tree : Tree} (h : k.History n)
    (hCreated : Created k.tree proc parent tree) (hNew : proc ∉ k.tree.allocated)
    (hBound : n + 1 < 2 ^ 31) (threads : Tid → ThreadState) (process : Tid → Nat) :
    Kernel.History { k with tree, threads, process } (n + 1) := by
  have hPid : (tree.procs proc).pid = n + 1 := by
    rw [hCreated.pid, h.nextPid]
    exact_mod_cast toInt32_eq hBound
  have hNe : ∀ {p}, p ∈ k.tree.allocated → p ≠ proc := fun hp hSame => hNew (hSame ▸ hp)
  have hOld : ∀ {p}, p ∈ k.tree.allocated → (tree.procs p).pid = (k.tree.procs p).pid := fun hp =>
    Proc.pid_of_bare (hCreated.others _ (hNe hp))
  have hThere : ∀ {p}, p ∈ tree.allocated → p = proc ∨ p ∈ k.tree.allocated := fun hp => by
    rwa [hCreated.allocated, Finset.mem_insert] at hp
  have hSmall : ∀ {p}, p ∈ k.tree.allocated → (tree.procs p).pid ≤ n := fun hp =>
    (hOld hp).le.trans (h.pid_le _ hp)
  refine
    { nextPid := ?_
      pid_le := fun p hp => ?_
      pid_unique := fun p hp q hq hSame => ?_
      exit_le := fun exit hExit => (h.exit_le exit hExit).trans (by omega)
      exits_nodup := h.exits_nodup
      running := fun p hp hRunning => ?_
      zombie := fun p hp hZombie => ?_
      report_le := fun report hReport => (h.report_le report hReport).trans (by omega)
      reports_nodup := h.reports_nodup
      unreported := fun p hp => ?_ }
  · rw [hCreated.nextPid, h.nextPid]
    have hHere : toInt32 ((n : Int) + 1) = n + 1 := by exact_mod_cast toInt32_eq hBound
    rw [hHere]
    rfl
  · rcases hThere hp with rfl | hIn
    · rw [hPid]
      exact le_rfl
    · exact (hSmall hIn).trans (by push_cast; omega)
  · change (tree.procs p).pid = (tree.procs q).pid at hSame
    rcases hThere hp with rfl | hpIn
    · rcases hThere hq with rfl | hqIn
      · rfl
      · have hLe := hSmall hqIn
        omega
    · rcases hThere hq with rfl | hqIn
      · have hLe := hSmall hpIn
        omega
      · exact h.pid_unique p hpIn q hqIn ((hOld hpIn).symm.trans (hSame.trans (hOld hqIn)))
  · rcases hThere hp with rfl | hIn
    · intro hMem
      obtain ⟨exit, hExit, hEq⟩ := List.mem_map.mp hMem
      have hLe := h.exit_le exit hExit
      change exit.1 = (tree.procs p).pid at hEq
      omega
    · rw [hOld hIn]
      exact h.running p hIn ((Proc.state_of_bare (hCreated.others p (hNe hIn))).symm.trans hRunning)
  · rcases hThere hp with rfl | hIn
    · cases hCreated.state.symm.trans hZombie
    · have hBare := hCreated.others p (hNe hIn)
      rw [Proc.pid_of_bare hBare, Proc.exitStatus_of_bare hBare]
      exact h.zombie p hIn ((Proc.state_of_bare hBare).symm.trans hZombie)
  · rcases hThere hp with rfl | hIn
    · intro hMem
      obtain ⟨report, hReport, hEq⟩ := List.mem_map.mp hMem
      have hLe := h.report_le report hReport
      change report.1 = (tree.procs p).pid at hEq
      omega
    · rw [hOld hIn]
      exact h.unreported p hIn

theorem Kernel.History.exited {proc parent : Nat} {status : Int} {tree : Tree} (h : k.History n)
    (hExited : Exited k.tree children proc parent status tree) (hLive : k.Live proc)
    (threads : Tid → ThreadState) :
    Kernel.History { k with
      tree, threads, exits := k.exits ++ [((k.tree.procs proc).pid, status)] } n := by
  obtain ⟨hProc, hRunning⟩ := hLive
  refine
    { nextPid := hExited.nextPid.trans h.nextPid
      pid_le := fun p hp => ?_
      pid_unique := fun p hp q hq hSame => ?_
      exit_le := fun exit hExit => ?_
      exits_nodup := ?_
      running := fun p hp hState => ?_
      zombie := fun p hp hState => ?_
      report_le := h.report_le
      reports_nodup := h.reports_nodup
      unreported := fun p hp => ?_ }
  all_goals simp only [hExited.allocated, hExited.pid, hExited.state, hExited.exitStatus] at *
  · exact h.pid_le p hp
  · exact h.pid_unique p hp q hq hSame
  · rcases List.mem_append.mp hExit with hOld | hLast
    · exact h.exit_le exit hOld
    · rw [List.mem_singleton.mp hLast]
      exact h.pid_le proc hProc
  · rw [List.map_append]
    refine h.exits_nodup.append (List.nodup_singleton _) ?_
    simpa using h.running proc hProc hRunning
  · rcases eq_or_ne p proc with rfl | hNe
    · rw [if_pos rfl] at hState
      cases hState
    · rw [if_neg hNe] at hState
      rw [List.map_append, List.mem_append, not_or]
      refine ⟨h.running p hp hState, fun hLast => hNe ?_⟩
      exact h.pid_unique p hp proc hProc (List.mem_singleton.mp hLast)
  · rcases eq_or_ne p proc with rfl | hNe
    · rw [if_pos rfl]
      exact List.mem_append_right _ (List.mem_singleton.mpr rfl)
    · rw [if_neg hNe] at hState ⊢
      exact List.mem_append_left _ (h.zombie p hp hState)
  · exact h.unreported p hp

/-- A reaped process was not reported before. -/
theorem Kernel.History.reaped {z parent : Nat} {tree : Tree} (h : k.History n)
    (hDestroyed : Destroyed k.tree children z parent tree) (hz : z ∈ k.tree.allocated)
    (stored : Option Int) (calls : Tid → Option (Int × StatusPtr)) :
    Kernel.History { k with
      tree, calls, reports := k.reports ++ [((k.tree.procs z).pid, stored)] } n := by
  have hPid : ∀ p, (tree.procs p).pid = (k.tree.procs p).pid := fun p =>
    Proc.pid_of_bare (hDestroyed.others p)
  have hStates : ∀ p, (tree.procs p).state = (k.tree.procs p).state := fun p =>
    Proc.state_of_bare (hDestroyed.others p)
  have hStatus : ∀ p, (tree.procs p).exitStatus = (k.tree.procs p).exitStatus := fun p =>
    Proc.exitStatus_of_bare (hDestroyed.others p)
  refine
    { nextPid := hDestroyed.nextPid.trans h.nextPid
      pid_le := fun p hp => ?_
      pid_unique := fun p hp q hq hSame => ?_
      exit_le := h.exit_le
      exits_nodup := h.exits_nodup
      running := fun p hp hState => ?_
      zombie := fun p hp hState => ?_
      report_le := fun report hReport => ?_
      reports_nodup := ?_
      unreported := fun p hp => ?_ }
  all_goals simp only [hDestroyed.allocated, hPid, hStates, hStatus, Finset.mem_erase] at *
  · exact h.pid_le p hp.2
  · exact h.pid_unique p hp.2 q hq.2 hSame
  · exact h.running p hp.2 hState
  · exact h.zombie p hp.2 hState
  · rcases List.mem_append.mp hReport with hOld | hLast
    · exact h.report_le report hOld
    · rw [List.mem_singleton.mp hLast]
      exact h.pid_le z hz
  · rw [List.map_append]
    refine h.reports_nodup.append (List.nodup_singleton _) ?_
    simpa using h.unreported z hz
  · rw [List.map_append, List.mem_append, not_or]
    refine ⟨h.unreported p hp.2, fun hLast => hp.1 ?_⟩
    exact h.pid_unique p hp.2 z hz (List.mem_singleton.mp hLast)

theorem isCreation_spawn {caller : Option Tid} {answer : CreateAnswer}
    {loaded : Bool} {thread : Tid} {proc : Nat} (hProc : answer.proc = some proc) :
    (Event.spawn caller answer loaded thread).isCreation.toNat = 1 := by
  rw [Event.isCreation, hProc]
  rfl

theorem Outcome.history (h : k.Valid children) (hOutcome : Outcome k children event k' children')
    (hHistory : k.History n) (hBound : n + event.isCreation.toNat < 2 ^ 31) :
    ∃ n', n' ≤ n + event.isCreation.toNat ∧ k'.History n' := by
  cases hOutcome with
  | nothing => exact ⟨n, Nat.le_add_right .., hHistory⟩
  | spawned hEvent hProc hNew _ _ hCreated =>
    subst hEvent
    rw [isCreation_spawn hProc] at hBound ⊢
    exact ⟨n + 1, le_rfl, hHistory.created hCreated hNew hBound ..⟩
  | @unloaded _ _ _ proc tree hEvent hProc hNew hUndone =>
    subst hEvent
    rw [isCreation_spawn hProc] at hBound ⊢
    refine ⟨n + 1, le_rfl, hHistory.congr (Nat.le_succ n) ?_ rfl rfl hUndone.allocated fun p hp =>
      ?_⟩
    · have hHere : toInt32 ((n : Int) + 1) = n + 1 := by exact_mod_cast toInt32_eq hBound
      rw [hUndone.nextPid, hHistory.nextPid, hHere]
      rfl
    · have hBare := hUndone.others p fun hSame => hNew (hSame ▸ hp)
      exact ⟨Proc.pid_of_bare hBare, Proc.state_of_bare hBare, Proc.exitStatus_of_bare hBare⟩
  | createdThread =>
    exact ⟨n, Nat.le_add_right ..,
      hHistory.congr le_rfl hHistory.nextPid rfl rfl rfl fun p _ => ⟨rfl, rfl, rfl⟩⟩
  | exited _ _ hLive hExited => exact ⟨n, Nat.le_add_right .., hHistory.exited hExited hLive _⟩
  | echild =>
    exact ⟨n, Nat.le_add_right ..,
      hHistory.congr le_rfl hHistory.nextPid rfl rfl rfl fun p _ => ⟨rfl, rfl, rfl⟩⟩
  | reaped _ _ hMem _ _ hDestroyed =>
    exact ⟨n, Nat.le_add_right ..,
      hHistory.reaped hDestroyed (h.forest.member _ _ hMem).1 _ _⟩
  | blocks =>
    refine ⟨n, Nat.le_add_right .., hHistory.congr le_rfl hHistory.nextPid rfl rfl rfl fun p _ =>
      ?_⟩
    refine ⟨?_, ?_, ?_⟩ <;> simp only [Tree.setWaiter, setProc_waiter]

theorem waitResult_turn {t : Tid} {pid : Int} {status : StatusPtr}
    (hTurn : event.turn k = some (t, pid, status)) :
    k.waitResult event = some (waitTurn k.tree (k.process t) t pid status).1 := by
  cases event with
  | waitpid u m ptr =>
    rw [Event.turn] at hTurn
    split at hTurn
    · cases hTurn
    · rename_i hValid
      cases hTurn
      obtain ⟨hPid, hStatus⟩ := not_or.mp hValid
      rw [Kernel.waitResult, sysWaitpid, if_neg hPid, if_neg hStatus]
  | resume u =>
    obtain ⟨call, hCall, hEq⟩ := Option.map_eq_some_iff.mp hTurn
    cases hEq
    rw [Kernel.waitResult, hCall]
    rfl
  | _ => cases hTurn

theorem waitResult_no_turn (hTurn : event.turn k = none) :
    k.waitResult event = none ∨ k.waitResult event = some .einval ∨
      k.waitResult event = some .efault := by
  cases event with
  | waitpid u m ptr =>
    rw [Event.turn] at hTurn
    split at hTurn
    · rename_i hBad
      rw [Kernel.waitResult, sysWaitpid]
      by_cases hPid : m ≠ -1 ∧ m ≤ 0
      · rw [if_pos hPid]
        exact .inr (.inl rfl)
      · rw [if_neg hPid, if_pos (hBad.resolve_left hPid)]
        exact .inr (.inr rfl)
    · cases hTurn
  | resume u =>
    rw [Kernel.waitResult, Option.map_eq_none_iff.mp hTurn]
    exact .inl rfl
  | _ => exact .inl rfl

/-- What a call of `waitpid`, or a turn after it was woken, is promised. -/
structure Kernel.AnswersWait (k : Kernel) (event : Event) : Prop where
  /-- It does not run along the list of children for ever. -/
  ends : k.waitResult event ≠ some .hangs
  echild_iff : ∀ t pid status, event.turn k = some (t, pid, status) →
    (k.waitResult event = some .echild ↔
      ¬∃ c, k.tree.IsChild c (k.process t) ∧ Matches pid (k.tree.procs c))
  /-- It reaps a zombie child of the caller that matches, and stores the status of its exit. -/
  reaps : ∀ zpid stored, k.waitResult event = some (.reaped zpid stored) →
    ∃ t pid status z code, event.turn k = some (t, pid, status) ∧ k.tree.IsChild z (k.process t) ∧
      (k.tree.procs z).state = .zombie ∧ Matches pid (k.tree.procs z) ∧
      (k.tree.procs z).pid = zpid ∧ (zpid, code) ∈ k.exits ∧
      stored = (if status = .writable then some code else none) ∧
      (kernelStep k event).tree.allocated = k.tree.allocated.erase z
  /-- It frees nothing else. -/
  keeps : k.waitResult event ≠ none → ∀ c ∈ k.tree.allocated, (k.tree.procs c).state ≠ .zombie →
    c ∈ (kernelStep k event).tree.allocated

theorem Kernel.Valid.answersWait (h : k.Valid children) (hHistory : k.History n)
    (hEnabled : k.enabled event) : k.AnswersWait event := by
  cases hTurn : event.turn k with
  | none =>
    have hNot := waitResult_no_turn hTurn
    refine ⟨?_, fun t pid status hSome => ?_, fun zpid stored hReaped => ?_, fun hSome c hc _ => ?_⟩
    · rcases hNot with hNone | hNone | hNone <;> rw [hNone] <;> decide
    · rw [hTurn] at hSome
      cases hSome
    · rcases hNot with hNone | hNone | hNone <;> rw [hNone] at hReaped <;> cases hReaped
    · -- a call with wrong arguments changes nothing
      cases event with
      | waitpid t pid status =>
        rw [kernelStep_refused hTurn]
        exact hc
      | resume t =>
        rw [Kernel.waitResult, Option.map_eq_none_iff.mp hTurn] at hSome
        exact absurd rfl hSome
      | _ => exact absurd rfl hSome
  | some turn =>
    obtain ⟨t, pid, status⟩ := turn
    have hWaited := h.forest.waitTurn_waited
      (h.live_of_canRun (canRun_of_turn hEnabled hTurn)).1 t pid status
    have hResult := waitResult_turn hTurn
    have hStep := kernelStep_turn hTurn
    have hChild : ∀ c, k.tree.IsChild c (k.process t) ↔ c ∈ children (k.process t) := fun c =>
      h.forest.isChild_iff
    have hIff : ∀ {answer : Prop}, (answer ↔ ¬∃ c, k.tree.IsChild c (k.process t) ∧
        Matches pid (k.tree.procs c)) → ∀ t' pid' status', event.turn k = some (t', pid', status') →
        (answer ↔ ¬∃ c, k.tree.IsChild c (k.process t') ∧ Matches pid' (k.tree.procs c)) := by
      intro answer hAnswer t' pid' status' hSome
      cases hTurn.symm.trans hSome
      exact hAnswer
    generalize waitTurn k.tree (k.process t) t pid status = result at hWaited hResult hStep
    cases hWaited with
    | echild hNone =>
      refine ⟨?_, hIff ?_, fun zpid stored hReaped => ?_, fun _ c hc _ => ?_⟩
      · rw [hResult]
        exact fun hSame => by cases hSame
      · refine iff_of_true hResult ?_
        rintro ⟨c, hIs, hMatches⟩
        exact hNone c ((hChild c).mp hIs) hMatches
      · rw [hResult] at hReaped
        cases hReaped
      · rw [hStep]
        exact hc
    | @reaped z hMem hMatches hZombie =>
      have hIs := (hChild z).mpr hMem
      have hDestroyed := h.forest.processDestroy_destroyed hMem
      have hFreed : (kernelStep k event).tree.allocated = k.tree.allocated.erase z := by
        rw [hStep]
        exact hDestroyed.allocated
      refine ⟨?_, hIff ?_, fun zpid stored hReaped => ?_, fun _ c hc hNot => ?_⟩
      · rw [hResult]
        exact fun hSame => by cases hSame
      · refine iff_of_false (fun hSame => ?_) fun hNone => hNone ⟨z, hIs, hMatches⟩
        cases hResult.symm.trans hSame
      · cases hResult.symm.trans hReaped
        exact ⟨t, pid, status, z, _, hTurn, hIs, hZombie, hMatches, rfl,
          hHistory.zombie z hIs.1 hZombie, rfl, hFreed⟩
      · rw [hFreed, Finset.mem_erase]
        refine ⟨fun hSame => ?_, hc⟩
        rw [hSame, hZombie] at hNot
        exact hNot rfl
    | @blocks c hMem hMatches hNone =>
      refine ⟨?_, hIff ?_, fun zpid stored hReaped => ?_, fun _ c hc _ => ?_⟩
      · rw [hResult]
        exact fun hSame => by cases hSame
      · refine iff_of_false (fun hSame => ?_) fun hNo => hNo ⟨c, (hChild c).mpr hMem, hMatches⟩
        cases hResult.symm.trans hSame
      · cases hResult.symm.trans hReaped
      · rw [hStep]
        exact hc

end Steps

/-- The lists of children make a forest: every process but the kernel process is in the
list of its parent once and in no other, and the lists have no cycle. -/
def Tree.IsForest (s : Tree) : Prop :=
  ∃ (children : Nat → List Nat) (rank : Nat → Nat),
    (∀ p ∈ s.allocated, Linked (nextOf s.procs) (s.procs p).childrenHead (children p)) ∧
    (∀ p ∈ s.allocated, ∀ c ∈ children p, c ∈ s.allocated ∧ rank p < rank c) ∧
    ∀ c ∈ s.allocated, c ≠ kernelProcess → ∃ p ∈ s.allocated, (s.procs c).parent = some p ∧
      (children p).count c = 1 ∧ ∀ q ∈ s.allocated, q ≠ p → c ∉ children q

theorem Forest.isForest {s : Tree} {children : Nat → List Nat} (h : Forest s children) :
    s.IsForest := by
  obtain ⟨rank, _, hRank⟩ := h.acyclic
  refine ⟨children, rank, h.linked, fun p _ c hc =>
    ⟨(h.member p c hc).1, hRank p c hc⟩, fun c hc hKernel => ?_⟩
  obtain ⟨p, hUp, hMem⟩ := h.parent c hc hKernel
  have hp := h.allocated_of_mem hMem
  refine ⟨p, hp, hUp, ?_, fun q _ hNe hIn => hNe (h.unique_parent hIn hMem)⟩
  exact List.count_eq_one_of_mem (h.linked p hp).nodup hMem

theorem kernelInit_history : kernelInit.History 0 where
  nextPid := by decide
  pid_le := fun _ _ => le_rfl
  pid_unique := fun p hp q hq _ =>
    (Finset.mem_singleton.mp hp).trans (Finset.mem_singleton.mp hq).symm
  exit_le := fun _ hMem => (List.not_mem_nil hMem).elim
  exits_nodup := List.nodup_nil
  running := fun _ _ _ => List.not_mem_nil
  zombie := fun p hp hZombie => by cases hZombie
  report_le := fun _ hMem => (List.not_mem_nil hMem).elim
  reports_nodup := List.nodup_nil
  unreported := fun _ _ => List.not_mem_nil

/-- Along a run the tree and the history are kept, and every `waitpid` is answered. -/
theorem run_answersWait {k : Kernel} {children : Nat → List Nat} {n : Nat} {events : List Event}
    (h : k.Valid children) (hHistory : k.History n)
    (hEnabled : EachStep kernelStep Kernel.enabled k events)
    (hSpace : EachStep kernelStep (fun _ event => ¬event.failsAddressSpace) k events)
    (hBound : n + events.countP Event.isCreation < 2 ^ 31) :
    (∃ children', (events.foldl kernelStep k).Valid children') ∧
      (∃ n', (events.foldl kernelStep k).History n') ∧
      EachStep kernelStep Kernel.AnswersWait k events := by
  induction events generalizing k children n with
  | nil => exact ⟨⟨children, h⟩, ⟨n, hHistory⟩, trivial⟩
  | cons event events ih =>
    have hCount : (event :: events).countP Event.isCreation =
        events.countP Event.isCreation + event.isCreation.toNat := by
      rw [List.countP_cons]
      cases event.isCreation <;> rfl
    obtain ⟨children', hOutcome, hNext⟩ := h.step hEnabled.1 hSpace.1
    obtain ⟨n', hLe, hHistory'⟩ := hOutcome.history h hHistory (by omega)
    obtain ⟨hValid, hLater, hAnswers⟩ := ih hNext hHistory' hEnabled.2 hSpace.2 (by omega)
    exact ⟨hValid, hLater, h.answersWait hHistory hEnabled.1, hAnswers⟩

/-- In every run with fewer than 2^31 creations and no failed one, the processes stay a
forest, each exit has its own pid, no pid is reported twice, and every `waitpid` reaps a
matching zombie child of the caller with the status of its exit, or says truly that there
is no matching child, or blocks. -/
theorem waitpid_reaps_once (events : List Event)
    (hEnabled : EachStep kernelStep Kernel.enabled kernelInit events)
    (hSpace : EachStep kernelStep (fun _ event => ¬event.failsAddressSpace) kernelInit events)
    (hBound : events.countP Event.isCreation < 2 ^ 31) :
    (events.foldl kernelStep kernelInit).tree.IsForest ∧
      ((events.foldl kernelStep kernelInit).exits.map Prod.fst).Nodup ∧
      ((events.foldl kernelStep kernelInit).reports.map Prod.fst).Nodup ∧
      EachStep kernelStep Kernel.AnswersWait kernelInit events := by
  obtain ⟨⟨_, hValid⟩, ⟨_, hHistory⟩, hAnswers⟩ :=
    run_answersWait kernelInit_valid kernelInit_history hEnabled hSpace (by omega)
  exact ⟨hValid.forest.isForest, hHistory.exits_nodup, hHistory.reports_nodup, hAnswers⟩

/-- Two children exit in the order in which they were made, one after its parent has come
to wait, and both are reaped; then there is none left. -/
def reapTwo : List Event :=
  [spawnAt 0 1, spawnAt 0 2, .waitpid 0 (-1) .writable, .exit 1 7, .resume 0, .exit 2 9,
    .waitpid 0 2 .writable, .waitpid 0 (-1) .null]

theorem waitpid_reaps_once_reapTwo :
    EachStep kernelStep Kernel.enabled kernelInit reapTwo ∧
      (reapTwo.foldl kernelStep kernelInit).reports = [(1, some 7), (2, some 9)] ∧
      EachStep kernelStep Kernel.AnswersWait kernelInit reapTwo :=
  ⟨by decide, by decide,
    (waitpid_reaps_once reapTwo (by decide) (by decide) (by decide)).2.2.2⟩

end Kryos.ProcessTree
