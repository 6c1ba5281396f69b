import Kryos.Base.Rotation
import Kryos.Base.Trace
import Kryos.Fs.Tty
import Kryos.Thread.Scheduler

/-! The scheduler with `schedule()` as one step, and everything that writes the state of a
thread. The circular list of threads is given by its members from `head` on. -/
namespace Kryos.Thread

open Function Rotation Trace

structure Sched where
  /-- The list from `head` on. -/
  ring : List Tid
  current : Tid
  state : Tid → ThreadState
  process : Tid → Nat
  ttys : Nat → Fs.Tty
  /-- `schedule()` has found no ready thread and does not return. -/
  halted : Bool

/-- The threads that `reap_dead_threads` frees. Its loop ends at once if the first thread
is among them. -/
def Sched.reaped (s : Sched) (t : Tid) : Bool :=
  match s.ring with
  | [] => false
  | head :: _ =>
    if s.state head == .dead && head != s.current then t == head
    else s.state t == .dead && t != s.current

/-- `tty_remove_waiter` on one terminal. -/
def removeWaiter (tty : Fs.Tty) (t : Tid) : Fs.Tty :=
  { tty with waitQueue := tty.waitQueue.erase t }

def Sched.reapDeadThreads (s : Sched) : Sched :=
  { s with
    ring := s.ring.filter (fun t => !s.reaped t)
    ttys := fun i => (s.ring.filter s.reaped).foldl removeWaiter (s.ttys i) }

/-- The current thread is ready again if it was running. -/
def Sched.markReady (s : Sched) : Sched :=
  if s.state s.current = .running then
    { s with state := update s.state s.current .ready }
  else s

/-- The loop of `schedule()`: the first ready thread behind the current one, which is the
last to be tried. -/
def Sched.chooseNext (s : Sched) : Sched :=
  match (behind s.ring s.current).find? (fun t => s.state t == .ready) with
  | some next => { s with current := next, state := update s.state next .running }
  | none => { s with halted := true }

def Sched.schedule (s : Sched) : Sched := s.reapDeadThreads.markReady.chooseNext

inductive SchedEvent where
  | schedule
  /-- `thread_create_process` and `thread_create_user`. -/
  | create (t : Tid) (process : Nat)
  /-- The current thread reads from a terminal. -/
  | read (terminal count : Nat)
  /-- `tty_receive_char`. -/
  | key (terminal : Nat) (c : UInt8)
  /-- `thread_block_on_process` up to the call of `schedule()`. -/
  | blockOnProcess
  | wakeWaiter (t : Tid)
  /-- `thread_terminate_process`, in `process_exit` and `process_terminate`. -/
  | terminateProcess (process : Nat)
  /-- `thread_exit` up to the call of `schedule()`. -/
  | exit
  deriving DecidableEq, Repr

def schedStep (s : Sched) : SchedEvent → Sched
  | .schedule => s.schedule
  | .create t process =>
    { s with
      ring := s.ring ++ [t]
      state := update s.state t .ready
      process := update s.process t process }
  | .read terminal count =>
    let result := Fs.ttyReadVfs (s.ttys terminal) s.current count
    { s with
      ttys := update s.ttys terminal result.2
      state := if result.1 = none then update s.state s.current .blocked else s.state }
  | .key terminal c =>
    let result := Fs.ttyReceiveChar (s.ttys terminal) c
    { s with
      ttys := update s.ttys terminal result.1
      state := fun t => if t ∈ result.2 then .ready else s.state t }
  | .blockOnProcess => { s with state := update s.state s.current .waitingChild }
  | .wakeWaiter t =>
    if s.state t = .waitingChild then { s with state := update s.state t .ready } else s
  | .terminateProcess process =>
    { s with
      state := fun t => if t ∈ s.ring ∧ s.process t = process then .dead else s.state t }
  | .exit => { s with state := update s.state s.current .dead }

/-- Which events are possible: the current thread acts as long as it is running, and a new
thread has a new id. -/
def Sched.enabled (s : Sched) : SchedEvent → Prop
  | .create t _ => s.halted = false ∧ s.state t = .new
  | .read _ _ => s.halted = false ∧ s.state s.current = .running
  | .blockOnProcess => s.halted = false ∧ s.state s.current = .running
  | .exit => s.halted = false ∧ s.state s.current = .running
  | _ => s.halted = false

instance : ∀ (s : Sched) (event : SchedEvent), Decidable (s.enabled event)
  | _, .create .. | _, .read .. | _, .blockOnProcess | _, .exit =>
    inferInstanceAs (Decidable (_ ∧ _ = _))
  | _, .schedule | _, .key .. | _, .wakeWaiter _ | _, .terminateProcess _ =>
    inferInstanceAs (Decidable (_ = _))

/-- After `thread_init`. -/
def schedInit : Sched where
  ring := [0]
  current := 0
  state := fun t => if t = 0 then .running else .new
  process := fun _ => 0
  ttys := fun _ => Fs.ttyInit
  halted := false

/-- The list has no repetitions and contains the current thread, its members have been
created, and no thread but the current one is running. -/
structure Sched.Valid (s : Sched) : Prop where
  nodup : s.ring.Nodup
  current_mem : s.current ∈ s.ring
  created : ∀ t ∈ s.ring, s.state t ≠ .new
  running : ∀ t, s.state t = .running → t = s.current

section Schedule

variable {s : Sched} {t : Tid}

theorem not_reaped_current (s : Sched) : s.reaped s.current = false := by
  rw [Sched.reaped]
  split
  · rfl
  · split
    · rename_i hHead
      simp only [Bool.and_eq_true, bne_iff_ne] at hHead
      simpa using fun hEq => hHead.2 hEq.symm
    · simp

theorem dead_of_reaped (h : s.reaped t = true) : s.state t = .dead := by
  rw [Sched.reaped] at h
  split at h
  · cases h
  · split at h
    · rename_i hHead
      simp only [Bool.and_eq_true, beq_iff_eq] at hHead h
      rw [h, hHead.1]
    · simp only [Bool.and_eq_true, beq_iff_eq] at h
      exact h.1

theorem markReady_ring (s : Sched) : s.markReady.ring = s.ring := by
  rw [Sched.markReady]
  split <;> rfl

theorem markReady_current (s : Sched) : s.markReady.current = s.current := by
  rw [Sched.markReady]
  split <;> rfl

theorem markReady_state_of_ne (h : t ≠ s.current) : s.markReady.state t = s.state t := by
  rw [Sched.markReady]
  split
  · exact update_of_ne h ..
  · rfl

theorem markReady_state (s : Sched) (t : Tid) :
    s.markReady.state t = s.state t ∨ t = s.current ∧ s.state t = .running ∧
      s.markReady.state t = .ready := by
  by_cases hRunning : s.state s.current = .running
  · rcases eq_or_ne t s.current with rfl | hNe
    · refine .inr ⟨rfl, hRunning, ?_⟩
      rw [Sched.markReady, if_pos hRunning]
      exact update_self ..
    · exact .inl (markReady_state_of_ne hNe)
  · rw [Sched.markReady, if_neg hRunning]
    exact .inl rfl

/-- The state in which the loop of `schedule()` starts. -/
def Sched.scanned (s : Sched) : Sched := s.reapDeadThreads.markReady

theorem scanned_ring (s : Sched) : s.scanned.ring = s.ring.filter (fun t => !s.reaped t) :=
  markReady_ring _

theorem scanned_current (s : Sched) : s.scanned.current = s.current := markReady_current _

theorem scanned_state (s : Sched) (t : Tid) :
    s.scanned.state t = s.state t ∨ t = s.current ∧ s.state t = .running ∧
      s.scanned.state t = .ready := markReady_state s.reapDeadThreads t

/-- What `schedule()` comes to. -/
inductive Scheduled (s : Sched) : Sched → Prop where
  | halts (hNone : ∀ t ∈ behind s.scanned.ring s.current, s.scanned.state t ≠ .ready) :
      Scheduled s { s.scanned with halted := true }
  | switches {next : Tid} {passed rest : List Tid}
      (hOrder : behind s.scanned.ring s.current = passed ++ next :: rest)
      (hReady : s.scanned.state next = .ready)
      (hPassed : ∀ t ∈ passed, s.scanned.state t ≠ .ready) :
      Scheduled s { s.scanned with
        current := next, state := update s.scanned.state next .running }

theorem schedule_scheduled (s : Sched) : Scheduled s s.schedule := by
  change Scheduled s s.scanned.chooseNext
  rw [Sched.chooseNext]
  cases hFind : (behind s.scanned.ring s.scanned.current).find?
      (fun t => s.scanned.state t == .ready) with
  | none =>
    rw [scanned_current] at hFind
    refine .halts fun t ht => ?_
    simpa using List.find?_eq_none.mp hFind t ht
  | some next =>
    rw [scanned_current] at hFind
    obtain ⟨hReady, passed, rest, hOrder, hPassed⟩ := List.find?_eq_some_iff_append.mp hFind
    exact .switches hOrder (by simpa using hReady) (fun t ht => by simpa using hPassed t ht)

theorem Sched.Valid.scanned_current_mem (h : s.Valid) : s.current ∈ s.scanned.ring := by
  rw [scanned_ring, List.mem_filter]
  exact ⟨h.current_mem, by simp [not_reaped_current]⟩

theorem Sched.Valid.scanned_nodup (h : s.Valid) : s.scanned.ring.Nodup := by
  rw [scanned_ring]
  exact h.nodup.filter _

/-- No state is `running` while the loop looks for a thread. -/
theorem Sched.Valid.scanned_not_running (h : s.Valid) (t : Tid) : s.scanned.state t ≠ .running := by
  intro hRunning
  rcases scanned_state s t with hSame | ⟨_, _, hReady⟩
  · have hCurrent := h.running t (hSame ▸ hRunning)
    subst hCurrent
    have hMark : s.scanned.state s.current = .ready := by
      have hThere : s.reapDeadThreads.state s.reapDeadThreads.current = .running := hSame ▸ hRunning
      rw [Sched.scanned, Sched.markReady, if_pos hThere]
      exact update_self ..
    rw [hMark] at hRunning
    cases hRunning
  · rw [hReady] at hRunning
    cases hRunning

end Schedule

section Steps

variable {s : Sched} {event : SchedEvent} {x : Tid}

/-- What no event but `schedule()` does. -/
structure Sched.Quiet (s s' : Sched) : Prop where
  current : s'.current = s.current
  running : ∀ t, s'.state t = .running → s.state t = .running
  ring : s'.ring = s.ring ∨ ∃ t, s.state t = .new ∧ s'.ring = s.ring ++ [t]
  created : ∀ t, s'.state t = .new → s.state t = .new
  added : ∀ t ∈ s'.ring, t ∉ s.ring → s'.state t = .ready

theorem Sched.Quiet.of_state {state : Tid → ThreadState} {ttys : Nat → Fs.Tty}
    (hRunning : ∀ t, state t = .running → s.state t = .running)
    (hNew : ∀ t, state t = .new → s.state t = .new) :
    s.Quiet { s with state := state, ttys := ttys } :=
  ⟨rfl, hRunning, .inl rfl, hNew, fun _ hMem hNot => absurd hMem hNot⟩

theorem quiet_update {t : Tid} {state : ThreadState} {ttys : Nat → Fs.Tty}
    (hRunning : state ≠ .running) (hNew : state ≠ .new) :
    s.Quiet { s with state := update s.state t state, ttys := ttys } := by
  refine .of_state (fun u hu => ?_) (fun u hu => ?_)
  · rcases eq_or_ne u t with rfl | hNe
    · exact absurd ((update_self ..).symm.trans hu) hRunning
    · exact (update_of_ne hNe ..).symm.trans hu
  · rcases eq_or_ne u t with rfl | hNe
    · exact absurd ((update_self ..).symm.trans hu) hNew
    · exact (update_of_ne hNe ..).symm.trans hu

theorem schedStep_quiet (hEnabled : s.enabled event) (hEvent : event ≠ .schedule) :
    s.Quiet (schedStep s event) := by
  cases event with
  | schedule => exact absurd rfl hEvent
  | create t process =>
    have hQuiet := @quiet_update s t .ready s.ttys (by decide) (by decide)
    refine ⟨rfl, hQuiet.running, .inr ⟨t, hEnabled.2, rfl⟩, hQuiet.created, fun u hu hNot => ?_⟩
    rcases List.mem_append.mp hu with hOld | hNew
    · exact absurd hOld hNot
    · rw [List.mem_singleton.mp hNew]
      exact update_self ..
  | read terminal count =>
    simp only [schedStep]
    split
    · exact quiet_update (by decide) (by decide)
    · exact .of_state (fun _ h => h) (fun _ h => h)
  | key terminal c =>
    refine .of_state (fun t ht => ?_) (fun t ht => ?_)
    · split at ht
      · cases ht
      · exact ht
    · split at ht
      · cases ht
      · exact ht
  | blockOnProcess => exact quiet_update (by decide) (by decide)
  | wakeWaiter t =>
    simp only [schedStep]
    split
    · exact quiet_update (by decide) (by decide)
    · exact .of_state (fun _ h => h) (fun _ h => h)
  | terminateProcess process =>
    refine .of_state (fun t ht => ?_) (fun t ht => ?_)
    · split at ht
      · cases ht
      · exact ht
    · split at ht
      · cases ht
      · exact ht
  | exit => exact quiet_update (by decide) (by decide)

theorem Sched.Valid.quiet {s' : Sched} (h : s.Valid) (hQuiet : s.Quiet s') : s'.Valid := by
  refine ⟨?_, ?_, fun t ht => ?_, fun t ht => ?_⟩
  · rcases hQuiet.ring with hRing | ⟨t, hNew, hRing⟩
    · rw [hRing]
      exact h.nodup
    · have hNot : t ∉ s.ring := fun hMem => h.created t hMem hNew
      rw [hRing]
      exact h.nodup.append (List.nodup_singleton t) (by simpa using hNot)
  · rw [hQuiet.current]
    rcases hQuiet.ring with hRing | ⟨t, _, hRing⟩
    · rw [hRing]
      exact h.current_mem
    · rw [hRing]
      exact List.mem_append_left _ h.current_mem
  · by_cases hOld : t ∈ s.ring
    · exact fun hNew => h.created t hOld (hQuiet.created t hNew)
    · rw [hQuiet.added t ht hOld]
      decide
  · rw [hQuiet.current]
    exact h.running t (hQuiet.running t ht)

/-- `schedule()` that returns leaves one running thread, the current one. -/
theorem Sched.Valid.schedule (h : s.Valid) :
    s.schedule.Valid ∧
      (s.schedule.halted = false → s.schedule.state s.schedule.current = .running) := by
  have hScheduled := schedule_scheduled s
  generalize s.schedule = s' at hScheduled
  have hCreated : ∀ t ∈ s.scanned.ring, s.scanned.state t ≠ .new := by
    intro t ht
    rw [scanned_ring] at ht
    rcases scanned_state s t with hSame | ⟨_, _, hReady⟩
    · rw [hSame]
      exact h.created t (List.mem_of_mem_filter ht)
    · rw [hReady]
      decide
  cases hScheduled with
  | halts =>
    refine ⟨⟨h.scanned_nodup, ?_, hCreated, fun t ht => absurd ht (h.scanned_not_running t)⟩,
      fun hFalse => by cases hFalse⟩
    rw [scanned_current]
    exact h.scanned_current_mem
  | @switches next passed rest hOrder hReady hPassed =>
    refine ⟨⟨h.scanned_nodup, ?_, fun t ht => ?_, fun t ht => ?_⟩, fun _ => update_self ..⟩
    · exact (mem_behind h.scanned_current_mem).mp (by rw [hOrder]; simp)
    · rcases eq_or_ne t next with rfl | hNe
      · exact fun hNew => by cases (update_self ..).symm.trans hNew
      · exact fun hNew => hCreated t ht ((update_of_ne hNe ..).symm.trans hNew)
    · by_contra hNe
      exact h.scanned_not_running t ((update_of_ne hNe ..).symm.trans ht)

theorem schedule_new (hNew : s.schedule.state x = .new) : s.state x = .new := by
  have hScanned : s.scanned.state x = .new → s.state x = .new := fun hHere => by
    rcases scanned_state s x with hSame | ⟨_, _, hReady⟩
    · exact hSame ▸ hHere
    · rw [hReady] at hHere
      cases hHere
  have hScheduled := schedule_scheduled s
  generalize s.schedule = s' at hScheduled hNew
  cases hScheduled with
  | halts => exact hScanned hNew
  | @switches next =>
    rcases eq_or_ne x next with rfl | hNe
    · cases (update_self ..).symm.trans hNew
    · exact hScanned ((update_of_ne hNe ..).symm.trans hNew)

theorem Sched.Valid.step (h : s.Valid) (hEnabled : s.enabled event) :
    (schedStep s event).Valid := by
  by_cases hEvent : event = .schedule
  · rw [hEvent]
    exact h.schedule.1
  · exact h.quiet (schedStep_quiet hEnabled hEvent)

theorem Sched.Valid.run {events : List SchedEvent} (h : s.Valid)
    (hEnabled : EachStep schedStep Sched.enabled s events) : (events.foldl schedStep s).Valid := by
  induction events generalizing s with
  | nil => exact h
  | cons event events ih => exact ih (h.step hEnabled.1) hEnabled.2

end Steps

section Dead

variable {s : Sched} {event : SchedEvent} {t : Tid}

/-- A newline on a terminal in whose wait queue `t` stands. -/
def SchedEvent.newlineFor (s : Sched) (t : Tid) : SchedEvent → Prop
  | .key terminal c => c = Fs.newline ∧ t ∈ (s.ttys terminal).waitQueue
  | _ => False

instance : ∀ (s : Sched) (t : Tid) (event : SchedEvent), Decidable (event.newlineFor s t)
  | s, t, .key terminal c =>
    inferInstanceAs (Decidable (c = Fs.newline ∧ t ∈ (s.ttys terminal).waitQueue))
  | _, _, .schedule | _, _, .create .. | _, _, .read .. |
      _, _, .blockOnProcess | _, _, .wakeWaiter _
  | _, _, .terminateProcess _ | _, _, .exit => inferInstanceAs (Decidable False)

/-- The event makes `t` neither ready nor running, and `schedule()` does not choose it. -/
def SchedEvent.LeavesAlone (s : Sched) (t : Tid) (event : SchedEvent) : Prop :=
  (schedStep s event).state t ≠ .ready ∧ (schedStep s event).state t ≠ .running ∧
    (event = .schedule → (schedStep s event).halted = false → (schedStep s event).current ≠ t)

theorem mem_woken {tty : Fs.Tty} {c : UInt8} :
    t ∈ (Fs.ttyReceiveChar tty c).2 ↔ c = Fs.newline ∧ t ∈ tty.waitQueue := by
  rw [Fs.ttyReceiveChar]
  split
  · rename_i hBack
    have hNot : ¬c = Fs.newline := by rw [hBack]; decide
    split <;> simp [hNot]
  · split
    · rename_i hNewline
      simp [hNewline]
    · rename_i hNot
      split <;> simp [hNot]

theorem scanned_dead (hDead : s.state t = .dead) : s.scanned.state t = .dead := by
  rcases scanned_state s t with hSame | ⟨_, hRunning, _⟩
  · exact hSame.trans hDead
  · rw [hDead] at hRunning
    cases hRunning

theorem schedule_dead (hDead : s.state t = .dead) :
    s.schedule.state t = .dead ∧ (s.schedule.halted = false → s.schedule.current ≠ t) := by
  have hScheduled := schedule_scheduled s
  generalize s.schedule = s' at hScheduled
  cases hScheduled with
  | halts => exact ⟨scanned_dead hDead, fun hFalse => by cases hFalse⟩
  | @switches next _ _ _ hReady _ =>
    have hNe : next ≠ t := fun hEq => by
      rw [hEq, scanned_dead hDead] at hReady
      cases hReady
    exact ⟨(update_of_ne hNe.symm ..).trans (scanned_dead hDead), fun _ => hNe⟩

/-- A dead thread is dead after every event but a newline on a terminal it waits for. -/
theorem schedStep_dead (hDead : s.state t = .dead) (hEnabled : s.enabled event)
    (hNot : ¬event.newlineFor s t) : (schedStep s event).state t = .dead := by
  have hCurrent : s.state s.current = .running → t ≠ s.current := fun hRunning hEq => by
    rw [← hEq, hDead] at hRunning
    cases hRunning
  cases event with
  | schedule => exact (schedule_dead hDead).1
  | create u process =>
    have hNe : t ≠ u := fun hEq => by
      have hNew : s.state u = .new := hEnabled.2
      rw [← hEq, hDead] at hNew
      cases hNew
    exact (update_of_ne hNe ..).trans hDead
  | read terminal count =>
    simp only [schedStep]
    split
    · exact (update_of_ne (hCurrent hEnabled.2) ..).trans hDead
    · exact hDead
  | key terminal c =>
    have hWoken : t ∉ (Fs.ttyReceiveChar (s.ttys terminal) c).2 := fun hMem =>
      hNot (mem_woken.mp hMem)
    simp only [schedStep, if_neg hWoken, hDead]
  | blockOnProcess => exact (update_of_ne (hCurrent hEnabled.2) ..).trans hDead
  | wakeWaiter u =>
    simp only [schedStep]
    split
    · rename_i hWaiting
      have hNe : t ≠ u := fun hEq => by
        rw [← hEq, hDead] at hWaiting
        cases hWaiting
      exact (update_of_ne hNe ..).trans hDead
    · exact hDead
  | terminateProcess process =>
    simp only [schedStep]
    split
    · rfl
    · exact hDead
  | exit => exact (update_of_ne (hCurrent hEnabled.2) ..).trans hDead

theorem leavesAlone_iff (hDead : s.state t = .dead) (hEnabled : s.enabled event) :
    event.LeavesAlone s t ↔ ¬event.newlineFor s t := by
  constructor
  · rintro ⟨hReady, _, _⟩ hNewline
    cases event with
    | key terminal c => exact hReady (by simp only [schedStep, if_pos (mem_woken.mpr hNewline)])
    | _ => exact hNewline
  · intro hNot
    have hStill := schedStep_dead hDead hEnabled hNot
    refine ⟨by rw [hStill]; decide, by rw [hStill]; decide, fun hEvent => ?_⟩
    rw [hEvent]
    exact (schedule_dead hDead).2

/-- A thread that is dead is never made ready or running or chosen again, exactly if no
newline comes to a terminal in whose wait queue it still stands. -/
theorem dead_stays_dead_iff (s : Sched) (t : Tid) (hDead : s.state t = .dead)
    (events : List SchedEvent) (hEnabled : EachStep schedStep Sched.enabled s events) :
    EachStep schedStep (fun s event => event.LeavesAlone s t) s events ↔
      EachStep schedStep (fun s event => ¬event.newlineFor s t) s events := by
  have hIff : ∀ (s : Sched) (event : SchedEvent), s.state t = .dead → s.enabled event →
      (event.LeavesAlone s t ↔ ¬event.newlineFor s t) := fun _ _ => leavesAlone_iff
  have hStep : ∀ (s : Sched) (event : SchedEvent), s.state t = .dead → s.enabled event →
      ¬event.newlineFor s t → (schedStep s event).state t = .dead := fun _ _ => schedStep_dead
  exact eachStep_iff hIff hStep hDead hEnabled

/-- Thread 1 of process 1 has come to wait for a line, and process 1 is terminated by
thread 0. -/
def killedReader : Sched :=
  [SchedEvent.create 1 1, .schedule, .read 0 1, .schedule, .terminateProcess 1].foldl schedStep
    schedInit

theorem dead_stays_dead_iff_killedReader :
    killedReader.state 1 = .dead ∧
      EachStep schedStep Sched.enabled killedReader [.key 0 97, .schedule] ∧
      EachStep schedStep (fun s event => ¬event.newlineFor s 1) killedReader
        [.key 0 97, .schedule] ∧
      EachStep schedStep (fun s event => event.LeavesAlone s 1) killedReader
        [.key 0 97, .schedule] :=
  ⟨by decide, by decide, by decide,
    (dead_stays_dead_iff killedReader 1 (by decide) [.key 0 97, .schedule] (by decide)).mpr
      (by decide)⟩

/-- A newline makes the dead thread ready, and `schedule()` switches to it. -/
theorem dead_thread_runs_after_newline :
    EachStep schedStep Sched.enabled schedInit
        [.create 1 1, .schedule, .read 0 1, .schedule, .terminateProcess 1,
          .key 0 Fs.newline, .schedule] ∧
      killedReader.state 1 = .dead ∧
      (schedStep killedReader (.key 0 Fs.newline)).state 1 = .ready ∧
      (schedStep (schedStep killedReader (.key 0 Fs.newline)) .schedule).current = 1 ∧
      (schedStep (schedStep killedReader (.key 0 Fs.newline)) .schedule).state 1 = .running := by
  decide

end Dead

section Fairness

variable {s s' : Sched} {x y : Tid}

/-- The threads that a walk from the current one meets before `x`. -/
def Sched.ahead (s : Sched) (x : Tid) : List Tid := (behind s.ring s.current).takeWhile (· != x)

theorem not_reaped_ready (hReady : s.state x = .ready) : (!s.reaped x) = true := by
  rw [Bool.not_eq_true', ← Bool.not_eq_true]
  intro hReaped
  rw [dead_of_reaped hReaped] at hReady
  cases hReady

/-- Reaping takes threads out of the part ahead of `x`. -/
theorem Sched.Valid.ahead_scanned (h : s.Valid) (hReady : s.state x = .ready) :
    s.scanned.ahead x = (s.ahead x).filter (fun t => !s.reaped t) := by
  rw [Sched.ahead, scanned_ring, scanned_current,
    behind_filter h.current_mem (by simp [not_reaped_current]),
    takeWhile_filter (p := fun t => !s.reaped t) (not_reaped_ready hReady), Sched.ahead]

/-- A thread that was there and is not ahead of `x` does not come ahead of it: a new thread
is the only one to join. -/
theorem Sched.Valid.ahead_quiet (h : s.Valid) (hQuiet : s.Quiet s') (hx : x ∈ s.ring)
    (hy : y ∈ s'.ahead x) : y ∈ s.ahead x ∨ s.state y = .new := by
  rw [Sched.ahead, hQuiet.current] at hy
  rcases hQuiet.ring with hRing | ⟨t, hNew, hRing⟩
  · rw [hRing] at hy
    exact .inl hy
  · rcases eq_or_ne y t with rfl | hNe
    · exact .inr hNew
    · have hNot : t ∉ s.ring := fun hMem => h.created t hMem hNew
      have hKeeps : ∀ a ∈ s.ring, (a != t) = true := fun a ha => by
        simpa using fun hEq : a = t => hNot (hEq ▸ ha)
      have hOld : s.ring = s'.ring.filter (· != t) := by
        rw [hRing, List.filter_append, List.filter_eq_self.mpr hKeeps]
        simp
      have hCurrent : s.current ∈ s'.ring := by
        rw [hRing]
        exact List.mem_append_left _ h.current_mem
      refine .inl ?_
      rw [Sched.ahead, hOld, behind_filter hCurrent (hKeeps _ h.current_mem),
        takeWhile_filter (p := (· != t)) (hKeeps _ hx), List.mem_filter]
      exact ⟨hy, by simpa using hNe⟩

/-- `schedule()` switches to a thread ahead of a ready one that it does not choose, and
that thread is then ahead of it no more. -/
theorem Sched.Valid.ahead_schedule (h : s.Valid) (hx : x ∈ s.ring) (hReady : s.state x = .ready)
    (hStill : s.schedule.state x = .ready) :
    s.schedule.current ∈ s.ahead x ∧
      ∀ y ∈ s.schedule.ahead x, y ∈ s.ahead x ∧ y ≠ s.schedule.current := by
  have hScanned : s.scanned.state x = .ready := by
    rcases scanned_state s x with hSame | ⟨_, _, hHere⟩
    · exact hSame.trans hReady
    · exact hHere
  have hThere : x ∈ s.scanned.ring := by
    rw [scanned_ring, List.mem_filter]
    exact ⟨hx, not_reaped_ready hReady⟩
  have hMem : x ∈ behind s.scanned.ring s.current := (mem_behind h.scanned_current_mem).mpr hThere
  have hAhead : ∀ y ∈ s.scanned.ahead x, y ∈ s.ahead x := fun y hy => by
    rw [h.ahead_scanned hReady] at hy
    exact List.mem_of_mem_filter hy
  have hScheduled := schedule_scheduled s
  generalize s.schedule = s' at hScheduled hStill
  cases hScheduled with
  | halts hNone => exact absurd hScanned (hNone x hMem)
  | @switches next passed rest hOrder _ hPassed =>
    have hNe : next ≠ x := fun hEq => by
      rw [hEq] at hStill
      cases (update_self ..).symm.trans hStill
    have hNodup := nodup_behind h.scanned_nodup h.scanned_current_mem
    have hBehind := behind_of_append h.scanned_nodup h.scanned_current_mem hOrder
    rw [hOrder] at hMem hNodup
    have hRest : x ∈ rest := by
      rcases List.mem_append.mp hMem with hIn | hIn
      · exact absurd hScanned (hPassed x hIn)
      · exact List.mem_of_ne_of_mem hNe.symm hIn
    have hSplit : s.scanned.ahead x = passed ++ next :: rest.takeWhile (· != x) := by
      have hAll : ∀ a ∈ passed, (a != x) = true := fun a ha => by
        simpa using fun hEq : a = x => hPassed x (hEq ▸ ha) hScanned
      rw [Sched.ahead, scanned_current, hOrder, List.takeWhile_append_of_pos hAll,
        List.takeWhile_cons_of_pos (by simpa using hNe)]
    refine ⟨hAhead next (by rw [hSplit]; simp), fun y hy => ?_⟩
    have hTake : y ∈ rest.takeWhile (· != x) := by
      have hStop : ¬∀ a ∈ rest, (a != x) = true := fun hAll => by simpa using hAll x hRest
      have hy' : y ∈ (behind s.scanned.ring next).takeWhile (· != x) := hy
      rw [hBehind, List.takeWhile_append, if_neg] at hy'
      · exact hy'
      · exact fun hLength => hStop (List.takeWhile_eq_self_iff.mp
          ((List.takeWhile_prefix _).eq_of_length hLength))
    refine ⟨hAhead y (by rw [hSplit]; simp [hTake]), fun hEq : y = next => ?_⟩
    have hIn : y ∈ rest := (List.takeWhile_prefix _).subset hTake
    exact (List.nodup_cons.mp (List.nodup_append.mp hNodup).2.1).1 (hEq ▸ hIn)

/-- The thread that an event switches to. -/
def switchedTo (s : Sched) (event : SchedEvent) : Option Tid :=
  if event = .schedule ∧ (schedStep s event).halted = false then some (schedStep s event).current
  else none

/-- The threads switched to in a run, in order. -/
def switches : Sched → List SchedEvent → List Tid
  | _, [] => []
  | s, event :: events => (switchedTo s event).toList ++ switches (schedStep s event) events

/-- What one event does to the part ahead of a thread that stays ready: a thread that is
switched to leaves it, and only a new thread joins it. -/
theorem Sched.Valid.ahead_step (h : s.Valid) {event : SchedEvent} (hEnabled : s.enabled event)
    (hx : x ∈ s.ring) (hReady : s.state x = .ready)
    (hStill : (schedStep s event).state x = .ready) :
    (∀ z ∈ switchedTo s event, z ∈ s.ahead x ∧ z ∉ (schedStep s event).ahead x ∧
        (schedStep s event).state z ≠ .new) ∧
      ∀ y, y ∈ (schedStep s event).ahead x ∨ (schedStep s event).state y = .new →
        y ∈ s.ahead x ∨ s.state y = .new := by
  by_cases hEvent : event = .schedule
  · subst hEvent
    obtain ⟨hNext, hAhead⟩ := h.ahead_schedule hx hReady hStill
    refine ⟨fun z hz => ?_, fun y hy => ?_⟩
    · rw [switchedTo] at hz
      split at hz
      · cases hz
        refine ⟨hNext, fun hIn => (hAhead _ hIn).2 rfl, ?_⟩
        exact h.schedule.1.created _ h.schedule.1.current_mem
      · cases hz
    · rcases hy with hIn | hNew
      · exact .inl (hAhead y hIn).1
      · exact .inr (schedule_new hNew)
  · have hQuiet := schedStep_quiet hEnabled hEvent
    refine ⟨fun z hz => ?_, fun y hy => ?_⟩
    · rw [switchedTo, if_neg fun hBoth => hEvent hBoth.1] at hz
      cases hz
    · rcases hy with hIn | hNew
      · exact h.ahead_quiet hQuiet hx hIn
      · exact .inr (hQuiet.created y hNew)

theorem ready_mem_step {event : SchedEvent} (hEnabled : s.enabled event)
    (hx : x ∈ s.ring) (hReady : s.state x = .ready) : x ∈ (schedStep s event).ring := by
  by_cases hEvent : event = .schedule
  · subst hEvent
    have hThere : x ∈ s.scanned.ring := by
      rw [scanned_ring, List.mem_filter]
      exact ⟨hx, not_reaped_ready hReady⟩
    have hScheduled := schedule_scheduled s
    change x ∈ s.schedule.ring
    generalize s.schedule = s' at hScheduled
    cases hScheduled with
    | halts => exact hThere
    | switches => exact hThere
  · rcases (schedStep_quiet hEnabled hEvent).ring with hRing | ⟨t, _, hRing⟩
    · rw [hRing]
      exact hx
    · rw [hRing]
      exact List.mem_append_left _ hx

/-- Along a run in which `x` stays ready, every thread switched to was ahead of `x` or is
new, and none is switched to twice. -/
theorem Sched.Valid.switches_ahead (h : s.Valid) {events : List SchedEvent}
    (hEnabled : EachStep schedStep Sched.enabled s events) (hx : x ∈ s.ring)
    (hReady : s.state x = .ready)
    (hStays : EachStep schedStep (fun s event => (schedStep s event).state x = .ready) s events) :
    (∀ y ∈ switches s events, y ∈ s.ahead x ∨ s.state y = .new) ∧ (switches s events).Nodup := by
  induction events generalizing s with
  | nil => exact ⟨fun y hy => (List.not_mem_nil hy).elim, List.nodup_nil⟩
  | cons event events ih =>
    obtain ⟨hHere, hThere⟩ := hEnabled
    obtain ⟨hStill, hLater⟩ := hStays
    obtain ⟨hSwitched, hAhead⟩ := h.ahead_step hHere hx hReady hStill
    obtain ⟨hRest, hNodup⟩ :=
      ih (h.step hHere) hThere (ready_mem_step hHere hx hReady) hStill hLater
    constructor
    · intro y hy
      rcases List.mem_append.mp hy with hFirst | hSecond
      · exact .inl (hSwitched y (Option.mem_toList.mp hFirst)).1
      · exact hAhead y (hRest y hSecond)
    · rw [switches]
      cases hNext : switchedTo s event with
      | none => exact hNodup
      | some z =>
        obtain ⟨_, hNot, hOld⟩ := hSwitched z hNext
        refine List.nodup_cons.mpr ⟨fun hIn => ?_, hNodup⟩
        rcases hRest z hIn with hAgain | hNew
        · exact hNot hAgain
        · exact hOld hNew

/-- In every run, if some thread of the list stays ready then no thread is switched to
twice, and when `schedule()` returns, the current thread is the only one running. -/
theorem round_robin (s : Sched) (h : s.Valid) (events : List SchedEvent)
    (hEnabled : EachStep schedStep Sched.enabled s events) :
    (∀ x ∈ s.ring, s.state x = .ready →
        EachStep schedStep (fun s event => (schedStep s event).state x = .ready) s events →
        (switches s events).Nodup) ∧
      EachStep schedStep (fun s event =>
        event = .schedule → (schedStep s event).halted = false → ∀ t,
          (schedStep s event).state t = .running ↔ t = (schedStep s event).current) s events := by
  refine ⟨fun x hx hReady hStays => (h.switches_ahead hEnabled hx hReady hStays).2, ?_⟩
  induction events generalizing s with
  | nil => exact trivial
  | cons event events ih =>
    refine ⟨fun hEvent hReturns t => ?_, ih _ (h.step hEnabled.1) hEnabled.2⟩
    subst hEvent
    exact ⟨h.schedule.1.running t, fun hEq => hEq ▸ h.schedule.2 hReturns⟩

theorem schedInit_valid : schedInit.Valid where
  nodup := List.nodup_singleton 0
  current_mem := List.mem_singleton.mpr rfl
  created := fun t ht => by
    rw [List.mem_singleton.mp ht]
    decide
  running := fun t ht => by
    by_contra hNe
    have hState : schedInit.state t = .new := if_neg hNe
    rw [hState] at ht
    cases ht

/-- Three threads beside the first one. -/
def fourThreads : Sched :=
  [SchedEvent.create 1 0, .create 2 0, .create 3 0].foldl schedStep schedInit

theorem fourThreads_valid : fourThreads.Valid := by
  refine schedInit_valid.run ?_
  decide

/-- Thread 3 is ready while the first two are switched to, and a further one is created. -/
theorem round_robin_fourThreads :
    EachStep schedStep Sched.enabled fourThreads
      [.schedule, .create 4 0, .schedule, .blockOnProcess] ∧
      EachStep schedStep (fun s event => (schedStep s event).state 3 = .ready) fourThreads
        [.schedule, .create 4 0, .schedule, .blockOnProcess] ∧
      switches fourThreads [.schedule, .create 4 0, .schedule, .blockOnProcess] = [1, 2] ∧
      (switches fourThreads [.schedule, .create 4 0, .schedule, .blockOnProcess]).Nodup :=
  ⟨by decide, by decide, by decide,
    (round_robin fourThreads fourThreads_valid _ (by decide)).1 3 (by decide)
    (by decide) (by decide)⟩

end Fairness

end Kryos.Thread
