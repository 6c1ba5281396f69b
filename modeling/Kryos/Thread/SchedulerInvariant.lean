import Kryos.Base.Trace
import Kryos.Thread.Scheduler

/-! On whose stack a context switch happens. `current` and `in_scheduler` change
before `context_switch` runs; in between, the CPU is still on the stack of the old
thread, and a nested `schedule()` must not start. -/
namespace Kryos.Thread

open Function Trace

/-- The points of `schedule()` from the reset of `in_scheduler` to the end of the
switch. -/
def Pc.window : Pc → Bool
  | .setTss _ _ | .compare _ | .chooseCr3 _ | .contextSwitch _ _ _ | .saveRsp _ _ _ |
      .loadRsp _ _ => true
  | _ => false

/-- The points at which `schedule()` looks for the next thread. -/
def Pc.search : Pc → Bool
  | .reap | .reapTail _ | .reapVisit _ _ _ | .markReady | .firstNext | .testNext _ | .testCurrent _
  | .stayRunning | .stayLeave | .halt | .advance _ => true
  | _ => false

def Frame.window : Frame → Bool
  | .schedule pc => pc.window
  | _ => false

/-- No preempting timer interrupt comes in the window of an active `schedule()`. -/
def Machine.QuietWindow (s : Machine) (event : Event) : Prop :=
  event = .timer → s.preemptionEnabled = true → ∀ frame ∈ s.frames, frame.window = false

instance (s : Machine) (event : Event) : Decidable (s.QuietWindow event) :=
  inferInstanceAs (Decidable (event = .timer → s.preemptionEnabled = true →
    ∀ frame ∈ s.frames, frame.window = false))

/-- Calls that can be found on the stack of a thread which is not in the middle of
`schedule()`. Only a thread with a kernel stack of its own runs in user mode. -/
def Frame.passive (kernelStackBase : Bool) : Frame → Bool
  | .schedule .enter | .schedule .setInScheduler | .schedule .leave => true
  | .schedule _ => false
  | .user => kernelStackBase
  | _ => true

/-- Calls that an interrupt can put above the middle of `schedule()`. A nested
`schedule()` is among them only as long as `in_scheduler` is set. -/
def Frame.nested (inScheduler : Bool) : Frame → Bool
  | .timer _ => true
  | .schedule .enter | .schedule .leave => inScheduler
  | _ => false

namespace Machine

def Created (s : Machine) (t : Tid) : Prop := (s.threads t).state ≠ .new

def AllPassive (s : Machine) (t : Tid) (frames : List Frame) : Prop :=
  ∀ frame ∈ frames, frame.passive (s.threads t).kernelStackBase = true

/-- The saved stack pointers. -/
structure Suspended (s : Machine) : Prop where
  own : ∀ t pointer, (s.threads t).rsp = some pointer → pointer.stack = t
  saved : ∀ t, t ≠ s.stack → s.Created t →
    ∃ pointer, (s.threads t).rsp = some pointer ∧ s.AllPassive t pointer.frames
  executing : s.Created s.stack

/-- `tss.rsp0` belongs to the current thread, if that has a kernel stack. -/
def Rsp0Ready (s : Machine) : Prop :=
  (s.threads s.current).kernelStackBase = true → s.rsp0 = s.current

/-- `schedule()` looks for the next thread. -/
structure Deciding (s : Machine) : Prop where
  inScheduler : s.inScheduler = true
  current : s.current = s.stack
  rsp0 : s.Rsp0Ready

/-- `schedule()` made `next` current, but still runs on the stack of `old`. -/
structure Chosen (s : Machine) (next old : Tid) : Prop where
  old_eq : old = s.stack
  current : s.current = next
  created : s.Created next

end Machine

/-- What holds in the middle of `schedule()`. -/
def Pc.Holds (s : Machine) : Pc → Prop
  | .enter | .setInScheduler | .leave => False
  | .saveOld next => s.Deciding ∧ s.Created next
  | .setCurrent next old => s.Deciding ∧ s.Created next ∧ old = s.stack
  | .setRunning next old | .clearInScheduler next old => s.inScheduler = true ∧ s.Chosen next old
  | .setTss next old => s.inScheduler = false ∧ s.Chosen next old
  | .compare old => s.inScheduler = false ∧ s.Chosen s.current old ∧ s.Rsp0Ready
  | .chooseCr3 old => s.inScheduler = false ∧ s.Chosen s.current old ∧ s.Rsp0Ready ∧ old ≠ s.current
  | .contextSwitch old new _ | .saveRsp old new _ =>
    s.inScheduler = false ∧ s.Chosen new old ∧ s.Rsp0Ready ∧ old ≠ new
  | .loadRsp new _ =>
    s.inScheduler = false ∧ s.Chosen new s.stack ∧ s.Rsp0Ready ∧ s.stack ≠ new ∧
    ∃ pointer, (s.threads s.stack).rsp = some pointer ∧ s.AllPassive s.stack pointer.frames
  | _ => s.Deciding

/-- The stack in use: at rest, or with one activation in the middle of `schedule()`. -/
inductive Phase (s : Machine) : Prop
  | quiet (hFrames : s.AllPassive s.stack s.frames) (hIn : s.inScheduler = false)
      (hCurrent : s.current = s.stack) (hRsp0 : s.Rsp0Ready)
  | active (above : List Frame) (pc : Pc) (below : List Frame)
      (hFrames : s.frames = above ++ .schedule pc :: below) (hPc : pc.Holds s)
      (hAbove : ∀ frame ∈ above, frame.nested s.inScheduler = true)
      (hBelow : s.AllPassive s.stack below)

structure Invariant (s : Machine) : Prop where
  suspended : s.Suspended
  phase : Phase s

namespace Machine

/-- Thread states and links may change; nothing that the invariant reads of a thread
does. -/
structure Keeps (s s' : Machine) : Prop where
  threads : ∀ t, (s'.threads t).rsp = (s.threads t).rsp ∧
    (s'.threads t).kernelStackBase = (s.threads t).kernelStackBase ∧ (s'.Created t ↔ s.Created t)
  stack : s'.stack = s.stack

section Keeps

variable {s s' : Machine}

theorem keeps_setThread (s : Machine) (t : Tid) (thread : ThreadRecord)
    (hRsp : thread.rsp = (s.threads t).rsp)
    (hBase : thread.kernelStackBase = (s.threads t).kernelStackBase)
    (hCreated : thread.state ≠ .new ↔ s.Created t) : s.Keeps (s.setThread t thread) where
  threads other := by
    by_cases hEq : other = t
    · subst hEq
      simp only [setThread, Created, update_self]
      exact ⟨hRsp, hBase, hCreated⟩
    · simp only [setThread, Created, update_of_ne hEq, and_self]
  stack := rfl

theorem keeps_setState {t : Tid} (hCreated : s.Created t) {state : ThreadState}
    (hState : state ≠ .new) : s.Keeps (s.setState t state) :=
  s.keeps_setThread t _ rfl rfl (iff_of_true hState hCreated)

theorem keeps_setNext (s : Machine) (t next : Tid) : s.Keeps (s.setNext t next) :=
  s.keeps_setThread t _ rfl rfl Iff.rfl

theorem Keeps.suspended (hKeeps : s.Keeps s') (hSuspended : s.Suspended) : s'.Suspended where
  own t pointer hPointer := by
    rw [(hKeeps.threads t).1] at hPointer
    exact hSuspended.own t pointer hPointer
  saved t hNe hCreated := by
    rw [hKeeps.stack] at hNe
    obtain ⟨hRsp, hBase, hIff⟩ := hKeeps.threads t
    obtain ⟨pointer, hPointer, hFrames⟩ := hSuspended.saved t hNe (hIff.mp hCreated)
    refine ⟨pointer, hRsp.trans hPointer, ?_⟩
    intro frame hFrame
    rw [hBase]
    exact hFrames frame hFrame
  executing := by
    rw [hKeeps.stack]
    exact (hKeeps.threads s.stack).2.2.mpr hSuspended.executing

theorem Keeps.allPassive (hKeeps : s.Keeps s') {frames : List Frame}
    (hFrames : s.AllPassive s.stack frames) : s'.AllPassive s'.stack frames := by
  intro frame hFrame
  rw [hKeeps.stack, (hKeeps.threads s.stack).2.1]
  exact hFrames frame hFrame

/-- The scheduler's variables do not change either. -/
structure KeepsAll (s s' : Machine) : Prop extends s.Keeps s' where
  current : s'.current = s.current
  inScheduler : s'.inScheduler = s.inScheduler
  rsp0 : s'.rsp0 = s.rsp0

theorem Keeps.of_threads (hThreads : s'.threads = s.threads) (hStack : s'.stack = s.stack) :
    s.Keeps s' :=
  ⟨fun t => by simp only [Created, hThreads, and_self], hStack⟩

/-- The stack and the interrupt flag are not among these variables. -/
theorem keepsAll_frames (s : Machine) (frames : List Frame) (flag : Bool) :
    s.KeepsAll { s with interrupts := flag, frames := frames } :=
  ⟨.of_threads rfl rfl, rfl, rfl, rfl⟩

theorem KeepsAll.rsp0Ready (hKeeps : s.KeepsAll s') (hRsp0 : s.Rsp0Ready) : s'.Rsp0Ready := by
  intro hBase
  rw [hKeeps.current, (hKeeps.threads s.current).2.1] at hBase
  rw [hKeeps.rsp0, hKeeps.current]
  exact hRsp0 hBase

theorem KeepsAll.deciding (hKeeps : s.KeepsAll s') (hDeciding : s.Deciding) : s'.Deciding where
  inScheduler := hKeeps.inScheduler.trans hDeciding.inScheduler
  current := by rw [hKeeps.current, hKeeps.stack, hDeciding.current]
  rsp0 := hKeeps.rsp0Ready hDeciding.rsp0

theorem KeepsAll.chosen (hKeeps : s.KeepsAll s') {next old : Tid} (hChosen : s.Chosen next old) :
    s'.Chosen next old where
  old_eq := hChosen.old_eq.trans hKeeps.stack.symm
  current := hKeeps.current.trans hChosen.current
  created := (hKeeps.threads next).2.2.mpr hChosen.created

theorem KeepsAll.holds (hKeeps : s.KeepsAll s') {pc : Pc} (hPc : pc.Holds s) : pc.Holds s' := by
  have hIn := hKeeps.inScheduler
  have hCurrent := hKeeps.current
  have hStack := hKeeps.stack
  cases pc with
  | enter => exact hPc
  | setInScheduler => exact hPc
  | leave => exact hPc
  | saveOld next => exact ⟨hKeeps.deciding hPc.1, (hKeeps.threads next).2.2.mpr hPc.2⟩
  | setCurrent next old =>
    exact ⟨hKeeps.deciding hPc.1, (hKeeps.threads next).2.2.mpr hPc.2.1, hPc.2.2.trans hStack.symm⟩
  | setRunning next old => exact ⟨hIn.trans hPc.1, hKeeps.chosen hPc.2⟩
  | clearInScheduler next old => exact ⟨hIn.trans hPc.1, hKeeps.chosen hPc.2⟩
  | setTss next old => exact ⟨hIn.trans hPc.1, hKeeps.chosen hPc.2⟩
  | compare old =>
    exact ⟨hIn.trans hPc.1, hCurrent ▸ hKeeps.chosen hPc.2.1, hKeeps.rsp0Ready hPc.2.2⟩
  | chooseCr3 old =>
    exact ⟨hIn.trans hPc.1, hCurrent ▸ hKeeps.chosen hPc.2.1, hKeeps.rsp0Ready hPc.2.2.1,
      hCurrent ▸ hPc.2.2.2⟩
  | contextSwitch old new cr3 =>
    exact ⟨hIn.trans hPc.1, hKeeps.chosen hPc.2.1, hKeeps.rsp0Ready hPc.2.2.1, hPc.2.2.2⟩
  | saveRsp old new cr3 =>
    exact ⟨hIn.trans hPc.1, hKeeps.chosen hPc.2.1, hKeeps.rsp0Ready hPc.2.2.1, hPc.2.2.2⟩
  | loadRsp new cr3 =>
    obtain ⟨hIn', hChosen, hRsp0, hNe, pointer, hPointer, hFrames⟩ := hPc
    refine ⟨hIn.trans hIn', hStack ▸ hKeeps.chosen hChosen, hKeeps.rsp0Ready hRsp0, hStack ▸ hNe,
      pointer, ?_, hKeeps.allPassive hFrames⟩
    rw [hStack, (hKeeps.threads s.stack).1]
    exact hPointer
  | _ => exact hKeeps.deciding hPc

end Keeps

/-! ### Steps of `schedule()` -/

section Steps

variable {s s' : Machine} {below : List Frame}

theorem AllPassive.cons {frame : Frame}
    (hFrame : frame.passive (s.threads s.stack).kernelStackBase = true)
    (hBelow : s.AllPassive s.stack below) : s.AllPassive s.stack (frame :: below) := by
  intro other hOther
  rcases List.mem_cons.mp hOther with rfl | hOther
  · exact hFrame
  · exact hBelow other hOther

theorem Suspended.goto (hSuspended : s.Suspended) (hBelow : s.AllPassive s.stack below)
    (hKeeps : s.Keeps s') {pc : Pc} (hFrames : s'.frames = .schedule pc :: below)
    (hPc : pc.Holds s') : Invariant s' where
  suspended := hKeeps.suspended hSuspended
  phase := .active [] pc below hFrames hPc (by simp) (hKeeps.allPassive hBelow)

/-- `schedule()` returns with the CPU on the stack of the current thread. -/
theorem Suspended.rest (hSuspended : s.Suspended) (hBelow : s.AllPassive s.stack below)
    (hKeeps : s.Keeps s') (hFrames : s'.frames = .schedule .leave :: below)
    (hIn : s'.inScheduler = false) (hCurrent : s'.current = s'.stack) (hRsp0 : s'.Rsp0Ready) :
    Invariant s' where
  suspended := hKeeps.suspended hSuspended
  phase := by
    refine .quiet ?_ hIn hCurrent hRsp0
    rw [hFrames]
    exact (hKeeps.allPassive hBelow).cons rfl

/-- A round of `reap_dead_threads` changes links and the head of the list only. -/
theorem reapVisit_cases (s : Machine) (curr prev start : Tid) (below : List Frame) :
    ∃ pc, (s.reapVisit curr prev start below).frames = .schedule pc :: below ∧
      s.KeepsAll (s.reapVisit curr prev start below) ∧
      (pc = .markReady ∨ ∃ curr' prev' start', pc = .reapVisit curr' prev' start') := by
  have hEither (stop : Bool) (curr' prev' start' : Tid) :
      (if stop then Pc.markReady else .reapVisit curr' prev' start') = .markReady ∨
      ∃ c p t, (if stop then Pc.markReady else .reapVisit curr' prev' start') =
        .reapVisit c p t := by
    cases stop
    · exact Or.inr ⟨_, _, _, rfl⟩
    · exact Or.inl rfl
  unfold reapVisit
  split
  · refine ⟨_, rfl, ⟨⟨?_, rfl⟩, rfl, rfl, rfl⟩, hEither _ _ _ _⟩
    exact (s.keeps_setNext prev (s.threads curr).next).threads
  · exact ⟨_, rfl, ⟨.of_threads rfl rfl, rfl, rfl, rfl⟩, hEither _ _ _ _⟩

/-- The switch saves the stack pointer of the thread whose stack is in use. -/
theorem Suspended.saveRsp (hSuspended : s.Suspended) (hBelow : s.AllPassive s.stack below)
    {old new : Tid} {cr3 : Nat} (hPc : (Pc.saveRsp old new cr3).Holds s) :
    Invariant (s.scheduleStep below (.saveRsp old new cr3)) := by
  obtain ⟨hIn, ⟨rfl, rfl, hCreated⟩, hRsp0, hNe⟩ := hPc
  generalize hNext : s.scheduleStep below (.saveRsp s.stack s.current cr3) = s'
  have hOther (t : Tid) (ht : t ≠ s.stack) : s'.threads t = s.threads t := by
    rw [← hNext]
    exact update_of_ne ht _ _
  have hOwn : s'.threads s.stack =
      { s.threads s.stack with rsp := some ⟨s.stack, .schedule .leave :: below⟩ } := by
    rw [← hNext]
    exact update_self _ _ _
  have hStack : s'.stack = s.stack := by rw [← hNext]; rfl
  have hCurrent : s'.current = s.current := by rw [← hNext]; rfl
  have hRsp : s'.rsp0 = s.rsp0 := by rw [← hNext]; rfl
  have hSaved : s'.AllPassive s'.stack (.schedule .leave :: below) := by
    intro frame hFrame
    rw [hStack, hOwn]
    exact hBelow.cons rfl frame hFrame
  refine ⟨⟨?_, ?_, ?_⟩, .active [] (.loadRsp s.current cr3) below ?_
    ⟨?_, ⟨rfl, hCurrent, ?_⟩, ?_, ?_,
    ⟨s.stack, .schedule .leave :: below⟩, ?_, hSaved⟩ (by simp) ?_⟩
  · intro t pointer hPointer
    by_cases ht : t = s.stack
    · subst ht
      rw [hOwn] at hPointer
      cases hPointer
      rfl
    · rw [hOther t ht] at hPointer
      exact hSuspended.own t pointer hPointer
  · intro t ht hNew
    rw [hStack] at ht
    simp only [Created, AllPassive, hOther t ht] at hNew ⊢
    exact hSuspended.saved t ht hNew
  · simp only [Created, hStack, hOwn]
    exact hSuspended.executing
  · rw [← hNext]
    rfl
  · rw [← hNext]
    exact hIn
  · simp only [Created, hOther _ hNe.symm]
    exact hCreated
  · simp only [Rsp0Ready, hCurrent, hRsp, hOther _ hNe.symm]
    exact hRsp0
  · rw [hStack]
    exact hNe
  · rw [hStack, hOwn]
  · intro frame hFrame
    exact hSaved frame (List.mem_cons_of_mem _ hFrame)

/-- The switch loads a stack pointer into the stack of the new thread. -/
theorem Suspended.loadRsp (hSuspended : s.Suspended) {new : Tid} {cr3 : Nat}
    (hPc : (Pc.loadRsp new cr3).Holds s) : Invariant (s.scheduleStep below (.loadRsp new cr3)) := by
  obtain ⟨hIn, ⟨_, hCurrent, hCreated⟩, hRsp0, hNe, pointer, hPointer, hFrames⟩ := hPc
  obtain ⟨target, hTarget, hPassive⟩ := hSuspended.saved new hNe.symm hCreated
  have hStack := hSuspended.own new target hTarget
  obtain ⟨stack, frames⟩ := target
  subst hStack
  have hNext : ∃ root, s.scheduleStep below (.loadRsp stack cr3) =
      { s with cr3 := root, stack := stack, frames := frames } := by
    by_cases hZero : (cr3 != 0) = true
    · exact ⟨cr3, by simp only [Machine.scheduleStep, hZero, if_true, hTarget]⟩
    · exact ⟨s.cr3, by simp only [Machine.scheduleStep, hZero, if_false, hTarget,
        Bool.false_eq_true]⟩
  obtain ⟨root, hNext⟩ := hNext
  rw [hNext]
  refine ⟨⟨hSuspended.own, ?_, hCreated⟩, .quiet hPassive hIn hCurrent hRsp0⟩
  intro t ht hNew
  by_cases hOld : t = s.stack
  · rw [hOld]
    exact ⟨pointer, hPointer, hFrames⟩
  · exact hSuspended.saved t hOld hNew

theorem Suspended.created_current (hSuspended : s.Suspended) (hCurrent : s.current = s.stack) :
    s.Created s.current := hCurrent ▸ hSuspended.executing

section Search

variable (hSuspended : s.Suspended) (hBelow : s.AllPassive s.stack below) (hDeciding : s.Deciding)

include hSuspended hBelow hDeciding

theorem Suspended.search (pc : Pc) (flag : Bool)
    (hPc : ∀ v : Machine, v.Deciding → pc.Holds v) :
    Invariant { s with interrupts := flag, frames := .schedule pc :: below } :=
  hSuspended.goto hBelow (s.keepsAll_frames _ flag).toKeeps rfl
    (hPc _ ((s.keepsAll_frames _ flag).deciding hDeciding))

theorem Suspended.searchState {pc : Pc} {state : ThreadState} (hState : state ≠ .new)
    (hPc : ∀ v : Machine, v.Deciding → pc.Holds v) :
    Invariant { s.setState s.current state with frames := .schedule pc :: below } := by
  have hSet := keeps_setState (hSuspended.created_current hDeciding.current) hState
  have hKeeps : s.KeepsAll { s.setState s.current state with frames := .schedule pc :: below } :=
    ⟨⟨hSet.threads, rfl⟩, rfl, rfl, rfl⟩
  exact hSuspended.goto hBelow hKeeps.toKeeps rfl (hPc _ (hKeeps.deciding hDeciding))

theorem Suspended.searchStep {pc : Pc} (hSearch : pc.search = true) :
    Invariant (s.scheduleStep below pc) := by
  have hGo := hSuspended.search hBelow hDeciding
  cases pc with
  | reap =>
    simp only [Machine.scheduleStep]
    split <;> exact hGo _ _ fun _ h => h
  | reapTail temp =>
    simp only [Machine.scheduleStep]
    split
    · exact hGo _ _ fun _ h => h
    · split <;> exact hGo _ _ fun _ h => h
  | reapVisit curr prev start =>
    obtain ⟨pc', hFrames, hKeeps, hNext⟩ := s.reapVisit_cases curr prev start below
    refine hSuspended.goto hBelow hKeeps.toKeeps hFrames ?_
    have hStill := hKeeps.deciding hDeciding
    rcases hNext with rfl | ⟨_, _, _, rfl⟩ <;> exact hStill
  | markReady =>
    simp only [Machine.scheduleStep]
    split
    · exact hSuspended.searchState hBelow hDeciding (by decide) fun _ h => h
    · exact hGo _ _ fun _ h => h
  | firstNext => exact hGo _ _ fun _ h => h
  | testNext next =>
    simp only [Machine.scheduleStep]
    split
    · exact hGo _ _ fun _ h => h
    · rename_i hReady
      have hState : (s.threads next).state = .ready := by simpa using hReady
      have hKeeps := s.keepsAll_frames (.schedule (.saveOld next) :: below) s.interrupts
      refine hSuspended.goto hBelow hKeeps.toKeeps rfl ⟨hKeeps.deciding hDeciding, ?_⟩
      exact fun hNew => nomatch hState.symm.trans hNew
  | testCurrent next =>
    simp only [Machine.scheduleStep]
    split
    · split <;> exact hGo _ _ fun _ h => h
    · exact hGo _ _ fun _ h => h
  | stayRunning => exact hSuspended.searchState hBelow hDeciding (by decide) fun _ h => h
  | stayLeave =>
    exact hSuspended.rest hBelow (.of_threads rfl rfl) rfl rfl hDeciding.current hDeciding.rsp0
  | halt => exact hGo _ _ fun _ h => h
  | advance next => exact hGo _ _ fun _ h => h
  | _ => cases hSearch

end Search

/-- One step of an activation in the middle of `schedule()`. -/
theorem Suspended.scheduleStep (hSuspended : s.Suspended) (hBelow : s.AllPassive s.stack below)
    {pc : Pc} (hPc : pc.Holds s) : Invariant (s.scheduleStep below pc) := by
  have hSame (frames : List Frame) := s.keepsAll_frames frames s.interrupts
  cases pc with
  | enter => exact absurd hPc id
  | setInScheduler => exact absurd hPc id
  | leave => exact absurd hPc id
  | saveOld next =>
    exact hSuspended.goto hBelow (hSame _).toKeeps rfl
      ⟨(hSame _).deciding hPc.1, hPc.2, hPc.1.current⟩
  | setCurrent next old =>
    exact hSuspended.goto hBelow (.of_threads rfl rfl) rfl
      ⟨hPc.1.inScheduler, hPc.2.2, rfl, hPc.2.1⟩
  | setRunning next old =>
    have hState := keeps_setState (hPc.2.current ▸ hPc.2.created : s.Created s.current)
      (by decide : ThreadState.running ≠ .new)
    have hKeeps : s.KeepsAll (s.scheduleStep below (.setRunning next old)) :=
      ⟨⟨hState.threads, rfl⟩, rfl, rfl, rfl⟩
    exact hSuspended.goto hBelow hKeeps.toKeeps rfl ⟨hPc.1, hKeeps.chosen hPc.2⟩
  | clearInScheduler next old =>
    exact hSuspended.goto hBelow (.of_threads rfl rfl) rfl
      ⟨rfl, hPc.2.old_eq, hPc.2.current, hPc.2.created⟩
  | setTss next old =>
    obtain ⟨hIn, hOld, rfl, hCreated⟩ := hPc
    simp only [Machine.scheduleStep]
    split
    · exact hSuspended.goto hBelow (.of_threads rfl rfl) rfl
        ⟨hIn, ⟨hOld, rfl, hCreated⟩, fun _ => rfl⟩
    · rename_i hBase
      exact hSuspended.goto hBelow (hSame _).toKeeps rfl
        ⟨hIn, ⟨hOld, rfl, hCreated⟩, fun h => absurd h hBase⟩
  | compare old =>
    obtain ⟨hIn, hChosen, hRsp0⟩ := hPc
    simp only [Machine.scheduleStep]
    split
    · rename_i hNe
      exact hSuspended.goto hBelow (hSame _).toKeeps rfl
        ⟨hIn, (hSame _).chosen hChosen, (hSame _).rsp0Ready hRsp0, by simpa using hNe⟩
    · rename_i hEq
      have hCurrent : old = s.current := by simpa using hEq
      exact hSuspended.rest hBelow (hSame _).toKeeps rfl hIn (hCurrent.symm.trans hChosen.old_eq)
        ((hSame _).rsp0Ready hRsp0)
  | chooseCr3 old =>
    obtain ⟨hIn, hChosen, hRsp0, hNe⟩ := hPc
    exact hSuspended.goto hBelow (hSame _).toKeeps rfl
      ⟨hIn, (hSame _).chosen hChosen, (hSame _).rsp0Ready hRsp0, hNe⟩
  | contextSwitch old new cr3 =>
    obtain ⟨hIn, hChosen, hRsp0, hNe⟩ := hPc
    exact hSuspended.goto hBelow (hSame _).toKeeps rfl
      ⟨hIn, (hSame _).chosen hChosen, (hSame _).rsp0Ready hRsp0, hNe⟩
  | saveRsp old new cr3 => exact hSuspended.saveRsp hBelow hPc
  | loadRsp new cr3 => exact hSuspended.loadRsp hPc
  | _ => exact hSuspended.searchStep hBelow hPc rfl

end Steps

end Machine

/-! ### Events -/

section Events

open Machine

variable {s s' : Machine}

/-- Thread states, links and the interrupt flag may change at any time. -/
theorem Invariant.keepsAll (hInv : Invariant s) (hKeeps : s.KeepsAll s')
    (hFrames : s'.frames = s.frames) : Invariant s' where
  suspended := hKeeps.suspended hInv.suspended
  phase := by
    cases hInv.phase with
    | quiet hPassive hIn hCurrent hRsp0 =>
      refine .quiet ?_ (hKeeps.inScheduler.trans hIn) ?_ (hKeeps.rsp0Ready hRsp0)
      · rw [hFrames]
        exact hKeeps.allPassive hPassive
      · rw [hKeeps.current, hKeeps.stack, hCurrent]
    | active above pc below hActive hPc hAbove hBelow =>
      refine .active above pc below (hFrames.trans hActive) (hKeeps.holds hPc) ?_
        (hKeeps.allPassive hBelow)
      rw [hKeeps.inScheduler]
      exact hAbove

/-- While the code of a thread is innermost, the CPU is at rest on its stack. -/
theorem Invariant.at_rest (hInv : Invariant s) {frame : Frame} {rest : List Frame}
    (hFrames : s.frames = frame :: rest) (hFrame : frame = .body ∨ frame = .user) :
    s.AllPassive s.stack s.frames ∧ s.inScheduler = false ∧ s.current = s.stack ∧ s.Rsp0Ready := by
  cases hInv.phase with
  | quiet hPassive hIn hCurrent hRsp0 => exact ⟨hPassive, hIn, hCurrent, hRsp0⟩
  | active above pc below hActive _ hAbove _ =>
    rw [hFrames] at hActive
    cases above with
    | nil =>
      cases hActive
      rcases hFrame with h | h <;> cases h
    | cons first above =>
      cases hActive
      have hNested := hAbove frame (by simp)
      rcases hFrame with rfl | rfl <;> simp [Frame.nested] at hNested

/-- An interrupt from user mode arrives on the stack of the thread that ran. -/
theorem Invariant.enterKernel_eq (hInv : Invariant s) : s.enterKernel = s := by
  unfold Machine.enterKernel
  split
  · rename_i hUser
    obtain ⟨rest, hFrames⟩ : ∃ rest, s.frames = .user :: rest := by
      cases hFrames : s.frames with
      | nil => simp [hFrames] at hUser
      | cons frame rest => exact ⟨rest, by simpa [hFrames] using hUser⟩
    obtain ⟨hPassive, _, hCurrent, hRsp0⟩ := hInv.at_rest hFrames (Or.inr rfl)
    have hBase := hPassive .user (by simp [hFrames])
    have hStack : s.rsp0 = s.stack := by
      rw [← hCurrent]
      exact hRsp0 (by rw [hCurrent]; exact hBase)
    exact congrArg (fun t => ({ s with stack := t } : Machine)) hStack
  · rfl

/-- The code of the thread pushes or replaces calls on its stack. -/
theorem Invariant.push (hInv : Invariant s) {frame : Frame} {rest frames : List Frame}
    (hFrames : s.frames = frame :: rest) (hFrame : frame = .body ∨ frame = .user)
    (hKeeps : s.KeepsAll s')
    (hPassive : s.AllPassive s.stack s.frames → s.AllPassive s.stack frames)
    (hFrames' : s'.frames = frames) : Invariant s' where
  suspended := hKeeps.suspended hInv.suspended
  phase := by
    obtain ⟨hRest, hIn, hCurrent, hRsp0⟩ := hInv.at_rest hFrames hFrame
    refine .quiet ?_ (hKeeps.inScheduler.trans hIn) ?_ (hKeeps.rsp0Ready hRsp0)
    · rw [hFrames']
      exact hKeeps.allPassive (hPassive hRest)
    · rw [hKeeps.current, hKeeps.stack, hCurrent]

/-- Outside of the window, `in_scheduler` is set in the middle of `schedule()`. -/
theorem Pc.Holds.inScheduler {pc : Pc} (hPc : pc.Holds s) (hWindow : pc.window = false) :
    s.inScheduler = true := by
  cases pc with
  | enter => exact absurd hPc id
  | setInScheduler => exact absurd hPc id
  | leave => exact absurd hPc id
  | setTss => cases hWindow
  | compare => cases hWindow
  | chooseCr3 => cases hWindow
  | contextSwitch => cases hWindow
  | saveRsp => cases hWindow
  | loadRsp => cases hWindow
  | saveOld next => exact hPc.1.inScheduler
  | setCurrent next old => exact hPc.1.inScheduler
  | setRunning next old => exact hPc.1
  | clearInScheduler next old => exact hPc.1
  | _ => exact Deciding.inScheduler hPc

theorem Invariant.timer (hInv : Invariant s) (hQuiet : s.QuietWindow .timer) :
    Invariant s.timerInterrupt := by
  have hKeeps : s.KeepsAll s.timerInterrupt := by
    unfold Machine.timerInterrupt
    rw [hInv.enterKernel_eq]
    dsimp only
    split <;> exact ⟨.of_threads rfl rfl, rfl, rfl, rfl⟩
  have hFrames : s.timerInterrupt.frames =
      (if s.preemptionEnabled then [.schedule .enter] else []) ++ .timer
        s.interrupts :: s.frames := by
    unfold Machine.timerInterrupt
    rw [hInv.enterKernel_eq]
    split <;> simp_all
  refine ⟨hKeeps.suspended hInv.suspended, ?_⟩
  cases hInv.phase with
  | quiet hPassive hIn hCurrent hRsp0 =>
    refine .quiet ?_ (hKeeps.inScheduler.trans hIn) ?_ (hKeeps.rsp0Ready hRsp0)
    · rw [hFrames]
      apply hKeeps.allPassive
      split
      · exact (hPassive.cons rfl).cons rfl
      · exact hPassive.cons rfl
    · rw [hKeeps.current, hKeeps.stack, hCurrent]
  | active above pc below hActive hPc hAbove hBelow =>
    refine .active ((if s.preemptionEnabled then [.schedule .enter] else []) ++
      .timer s.interrupts :: above) pc below ?_ (hKeeps.holds hPc) ?_ (hKeeps.allPassive hBelow)
    · rw [hFrames, hActive]
      simp
    · rw [hKeeps.inScheduler]
      intro frame hFrame
      by_cases hPreempt : s.preemptionEnabled = true
      · have hWindow := hQuiet rfl hPreempt (.schedule pc) (by simp [hActive])
        have hIn := hPc.inScheduler hWindow
        rw [if_pos hPreempt] at hFrame
        simp only [List.cons_append, List.nil_append, List.mem_cons] at hFrame
        rcases hFrame with rfl | rfl | hFrame
        · exact hIn
        · rfl
        · exact hAbove frame hFrame
      · rw [if_neg hPreempt] at hFrame
        rcases List.mem_cons.mp hFrame with rfl | hFrame
        · rfl
        · exact hAbove frame hFrame

theorem Invariant.run (hInv : Invariant s) : Invariant s.run := by
  cases hInv.phase with
  | quiet hPassive hIn hCurrent hRsp0 =>
    have hGo (frames : List Frame) (flag : Bool) (hFrames : s.AllPassive s.stack frames) :
        Invariant { s with interrupts := flag, frames := frames } :=
      ⟨(s.keepsAll_frames frames flag).suspended hInv.suspended, .quiet hFrames hIn hCurrent hRsp0⟩
    unfold Machine.run
    cases hFrames : s.frames with
    | nil => exact hInv
    | cons frame rest =>
      have hTop := hPassive frame (by simp [hFrames])
      have hRest : s.AllPassive s.stack rest := fun other hOther =>
        hPassive other (by simp [hFrames, hOther])
      cases frame with
      | timer flags => exact hGo rest flags hRest
      | yield flags => exact hGo rest flags hRest
      | start => exact hGo (.body :: rest) true (hRest.cons rfl)
      | body => exact hInv
      | user => exact hInv
      | exit => exact hInv
      | schedule pc =>
        cases pc with
        | enter =>
          dsimp only
          rw [show s.scheduleStep rest .enter = _ from if_neg (by simp [hIn])]
          exact hGo (.schedule .setInScheduler :: rest) s.interrupts (hRest.cons rfl)
        | setInScheduler =>
          exact hInv.suspended.goto hRest (.of_threads rfl rfl) rfl ⟨rfl, hCurrent, hRsp0⟩
        | leave => exact hGo rest s.interrupts hRest
        | _ => cases hTop
  | active above pc below hActive hPc hAbove hBelow =>
    cases above with
    | nil =>
      unfold Machine.run
      rw [hActive]
      exact hInv.suspended.scheduleStep hBelow hPc
    | cons frame above =>
      have hTop := hAbove frame (by simp)
      have hRest : ∀ other ∈ above, other.nested s.inScheduler = true :=
        fun other hOther => hAbove other (by simp [hOther])
      have hGo (front : List Frame) (flag : Bool)
          (hFront : ∀ other ∈ front, other.nested s.inScheduler = true) :
          Invariant { s with interrupts := flag, frames := front ++ .schedule pc :: below } :=
        ⟨(s.keepsAll_frames _ flag).suspended hInv.suspended,
          .active front pc below rfl ((s.keepsAll_frames _ flag).holds hPc) hFront hBelow⟩
      unfold Machine.run
      rw [hActive]
      cases frame with
      | timer flags => exact hGo above flags hRest
      | yield flags => cases hTop
      | start => cases hTop
      | body => cases hTop
      | user => cases hTop
      | exit => cases hTop
      | schedule nested =>
        cases nested with
        | enter =>
          have hIn : s.inScheduler = true := hTop
          rw [List.cons_append]
          dsimp only
          rw [show s.scheduleStep _ .enter = _ from if_pos hIn]
          refine hGo (.schedule .leave :: above) s.interrupts ?_
          intro other hOther
          rcases List.mem_cons.mp hOther with rfl | hOther
          · exact hIn
          · exact hRest other hOther
        | leave => exact hGo above s.interrupts hRest
        | _ => cases hTop

theorem Invariant.create (hInv : Invariant s) {t tail head : Tid}
    {process : Nat} {rest : List Frame}
    (hFrames : s.frames = .body :: rest) (hNew : ¬ s.Created t) :
    Invariant (s.create t tail head process) := by
  obtain ⟨hPassive, hIn, hCurrent, hRsp0⟩ := hInv.at_rest hFrames (Or.inl rfl)
  have hStack : t ≠ s.stack := fun hEq => hNew (hEq ▸ hInv.suspended.executing)
  have hOther (other : Tid) (hNe : other ≠ t) :
      ((s.create t tail head process).threads other).rsp = (s.threads other).rsp ∧
      ((s.create t tail head process).threads other).kernelStackBase =
        (s.threads other).kernelStackBase ∧
      ((s.create t tail head process).Created other ↔ s.Created other) := by
    have hThread : (s.setThread t ⟨.ready, head, process, true, some ⟨t, [.start]⟩⟩).threads other =
      s.threads other := update_of_ne hNe _ _
    have hLink := (keeps_setNext (s.setThread t ⟨.ready, head, process, true, some ⟨t, [.start]⟩⟩)
      tail t).threads other
    obtain ⟨hRsp, hBase, hCreated⟩ := hLink
    rw [hThread] at hRsp hBase
    exact ⟨hRsp, hBase, hCreated.trans (by simp only [Created, hThread])⟩
  have hPointer : ((s.create t tail head process).threads t).rsp = some ⟨t, [.start]⟩ := by
    have hLink := (keeps_setNext (s.setThread t ⟨.ready, head, process, true, some ⟨t, [.start]⟩⟩)
      tail t).threads t
    refine hLink.1.trans ?_
    simp [setThread]
  refine ⟨⟨?_, ?_, ?_⟩, .quiet ?_ hIn hCurrent ?_⟩
  · intro other pointer hOwn
    by_cases hEq : other = t
    · subst hEq
      rw [hPointer] at hOwn
      cases hOwn
      rfl
    · rw [(hOther other hEq).1] at hOwn
      exact hInv.suspended.own other pointer hOwn
  · intro other hNe hCreated
    by_cases hEq : other = t
    · subst hEq
      exact ⟨_, hPointer, by simp [AllPassive, Frame.passive]⟩
    · obtain ⟨hRsp, hBase, hIff⟩ := hOther other hEq
      obtain ⟨pointer, hSaved, hFrames⟩ := hInv.suspended.saved other hNe (hIff.mp hCreated)
      refine ⟨pointer, hRsp.trans hSaved, ?_⟩
      intro frame hFrame
      rw [hBase]
      exact hFrames frame hFrame
  · exact (hOther s.stack hStack.symm).2.2.mpr hInv.suspended.executing
  · intro frame hFrame
    rw [show (s.create t tail head process).stack = s.stack from rfl,
      (hOther s.stack hStack.symm).2.1]
    exact hPassive frame hFrame
  · intro hBase
    rw [show (s.create t tail head process).current = s.current from rfl,
      (hOther s.current (hCurrent ▸ hStack.symm)).2.1] at hBase
    exact hRsp0 hBase

/-- The invariant along every event of a quiet run. -/
theorem Invariant.step (hInv : Invariant s) {event : Event} (hEnabled : s.enabled event = true)
    (hQuiet : s.QuietWindow event) : Invariant (s.step event) := by
  have hBody {frame : Frame} (hTop : (s.frames.head? == some frame) = true) :
      ∃ rest, s.frames = frame :: rest := by
    cases hFrames : s.frames with
    | nil => simp [hFrames] at hTop
    | cons first rest => exact ⟨rest, by simpa [hFrames] using hTop⟩
  cases event with
  | run => exact hInv.run
  | timer => exact hInv.timer hQuiet
  | interruptWake t =>
    simp only [Machine.enabled, Bool.and_eq_true, bne_iff_ne, ne_eq] at hEnabled
    have hKeeps :=
      keeps_setState (s := s) (t := t) hEnabled.2 (by decide : ThreadState.ready ≠ .new)
    exact hInv.keepsAll ⟨hKeeps, rfl, rfl, rfl⟩ rfl
  | callSchedule =>
    obtain ⟨rest, hFrames⟩ := hBody hEnabled
    exact hInv.push hFrames (Or.inl rfl) (s.keepsAll_frames _ _)
      (fun hPassive => hPassive.cons rfl) rfl
  | yield =>
    obtain ⟨rest, hFrames⟩ := hBody hEnabled
    exact hInv.push hFrames (Or.inl rfl) (s.keepsAll_frames _ _)
      (fun hPassive => (hPassive.cons rfl).cons rfl) rfl
  | block state =>
    simp only [Machine.enabled, Bool.and_eq_true, Bool.or_eq_true, beq_iff_eq] at hEnabled
    obtain ⟨rest, hFrames⟩ := hBody (by simpa using hEnabled.1)
    obtain ⟨_, _, hCurrent, _⟩ := hInv.at_rest hFrames (Or.inl rfl)
    have hState : state ≠ .new := by rcases hEnabled.2 with rfl | rfl <;> decide
    have hKeeps := keeps_setState (hInv.suspended.created_current hCurrent) hState
    exact hInv.keepsAll ⟨hKeeps, rfl, rfl, rfl⟩ rfl
  | exitThread =>
    obtain ⟨rest, hFrames⟩ := hBody hEnabled
    obtain ⟨_, _, hCurrent, _⟩ := hInv.at_rest hFrames (Or.inl rfl)
    have hKeeps := keeps_setState (hInv.suspended.created_current hCurrent)
      (by decide : ThreadState.dead ≠ .new)
    exact hInv.push hFrames (Or.inl rfl) ⟨⟨hKeeps.threads, rfl⟩, rfl, rfl, rfl⟩
      (fun hPassive => (hPassive.cons rfl).cons rfl) rfl
  | wakeWaiter t =>
    simp only [Machine.step, Machine.wakeWaiter]
    split
    · rename_i hWaiting
      have hState : (s.threads t).state = .waitingChild := by simpa using hWaiting
      have hKeeps := keeps_setState (s := s) (t := t) (fun hNew => nomatch hState.symm.trans hNew)
        (by decide : ThreadState.ready ≠ .new)
      exact hInv.keepsAll ⟨hKeeps, rfl, rfl, rfl⟩ rfl
    · exact hInv
  | terminate process =>
    refine hInv.keepsAll ⟨⟨?_, rfl⟩, rfl, rfl, rfl⟩ rfl
    intro t
    simp only [Machine.step, Created]
    split
    · rename_i hMatch
      simp only [Bool.and_eq_true, bne_iff_ne, ne_eq] at hMatch
      exact ⟨rfl, rfl, iff_of_true (fun hNew => nomatch hNew) hMatch.2⟩
    · exact ⟨rfl, rfl, Iff.rfl⟩
  | create t tail process =>
    simp only [Machine.enabled, Bool.and_eq_true, beq_iff_eq] at hEnabled
    obtain ⟨rest, hFrames⟩ := hBody (by simpa using hEnabled.1.1.1)
    exact hInv.create hFrames (fun hCreated => hCreated hEnabled.1.1.2)
  | setInterrupts flag => exact hInv.keepsAll ⟨.of_threads rfl rfl, rfl, rfl, rfl⟩ rfl
  | setPreemption flag => exact hInv.keepsAll ⟨.of_threads rfl rfl, rfl, rfl, rfl⟩ rfl
  | enterUser =>
    simp only [Machine.enabled, Bool.and_eq_true, beq_iff_eq] at hEnabled
    refine hInv.push hEnabled.1 (Or.inl rfl) ⟨.of_threads rfl rfl, rfl, rfl, rfl⟩
      (fun _ => ?_) rfl
    intro frame hFrame
    simp only [Machine.step, hEnabled.1, List.tail_cons, List.mem_singleton] at hFrame
    rw [hFrame]
    exact hEnabled.2
  | systemCall =>
    obtain ⟨rest, hFrames⟩ := hBody hEnabled
    simp only [Machine.step, hInv.enterKernel_eq]
    refine hInv.push hFrames (Or.inr rfl) ⟨.of_threads rfl rfl, rfl, rfl, rfl⟩
      (fun hPassive => ?_) rfl
    rw [hFrames] at hPassive ⊢
    exact AllPassive.cons rfl (fun other hOther => hPassive other (List.mem_cons_of_mem _ hOther))

end Events

/-! ### Runs -/

theorem threadInit_invariant (pml4Phys : Nat → Nat) (interrupts : Bool) :
    Invariant (threadInit pml4Phys interrupts) where
  suspended := by
    refine ⟨by simp [threadInit], ?_, by simp [Machine.Created, threadInit]⟩
    intro t ht hCreated
    exact absurd (if_neg ht) hCreated
  phase := .quiet (by simp [Machine.AllPassive, threadInit, Frame.passive]) rfl rfl
    (by simp [Machine.Rsp0Ready, threadInit])

/-- A call of `context_switch` happens on the stack of the thread it switches from. -/
def Machine.SwitchesOwnStack (s : Machine) : Prop :=
  ∀ old new cr3 rest, s.frames = .schedule (.contextSwitch old new cr3) :: rest → s.stack = old

/-- Every saved stack pointer points into the stack of its own thread. -/
def Machine.SavedOwnStack (s : Machine) : Prop :=
  ∀ t pointer, (s.threads t).rsp = some pointer → pointer.stack = t

theorem Invariant.switchesOwnStack {s : Machine} (hInv : Invariant s) : s.SwitchesOwnStack := by
  intro old new cr3 rest hFrames
  cases hInv.phase with
  | quiet hPassive _ _ _ =>
    have hTop := hPassive (.schedule (.contextSwitch old new cr3)) (by simp [hFrames])
    cases hTop
  | active above pc below hActive hPc hAbove _ =>
    rw [hFrames] at hActive
    cases above with
    | nil =>
      cases hActive
      exact hPc.2.1.old_eq.symm
    | cons frame above =>
      cases hActive
      have hTop := hAbove (.schedule (.contextSwitch old new cr3)) (by simp)
      cases hTop

/-- In every run without a preempting timer interrupt in the window, each context
switch happens on the stack of the old thread, and every saved stack pointer stays in
the stack of its thread. -/
theorem context_switch_on_own_stack (pml4Phys : Nat → Nat) (interrupts : Bool) {events : List Event}
    (hEnabled : EachStep Machine.step (fun s event => s.enabled event = true)
      (threadInit pml4Phys interrupts) events)
    (hQuiet : EachStep Machine.step Machine.QuietWindow (threadInit pml4Phys interrupts) events) :
    (events.foldl Machine.step (threadInit pml4Phys interrupts)).SwitchesOwnStack ∧
    (events.foldl Machine.step (threadInit pml4Phys interrupts)).SavedOwnStack := by
  have hInv : Invariant (events.foldl Machine.step (threadInit pml4Phys interrupts)) := by
    have hStart := threadInit_invariant pml4Phys interrupts
    generalize threadInit pml4Phys interrupts = s at *
    induction events generalizing s with
    | nil => exact hStart
    | cons event rest ih => exact ih _ hEnabled.2 hQuiet.2 (hStart.step hEnabled.1 hQuiet.1)
  exact ⟨hInv.switchesOwnStack, hInv.suspended.own⟩

/-- The idle loop and a second thread, up to the window of a `schedule()` call made with
interrupts enabled. -/
def idleInWindow : List Event :=
  [.create 1 0 0, .setPreemption true, .callSchedule] ++ List.replicate 14 Event.run

/-- Without an interrupt there, the switch reaches the second thread. -/
theorem context_switch_on_own_stack_idle :
    ((idleInWindow ++ List.replicate 7 Event.run).foldl Machine.step
      (threadInit (fun _ => 0) true)).SwitchesOwnStack ∧
    ((idleInWindow ++ List.replicate 7 Event.run).foldl Machine.step
      (threadInit (fun _ => 0) true)).SavedOwnStack :=
  context_switch_on_own_stack (fun _ => 0) true (by decide +kernel) (by decide +kernel)

/-- A timer interrupt in the window calls `schedule()` while thread 1 is current but
thread 0 executes: `context_switch(1, 0)` runs on the stack of thread 0 and saves it
as the stack pointer of thread 1. -/
theorem timer_in_window_switches_wrong_stack :
    let s := (idleInWindow ++ [Event.timer] ++ List.replicate 17 Event.run).foldl Machine.step
      (threadInit (fun _ => 0) true)
    EachStep Machine.step (fun s event => s.enabled event = true) (threadInit (fun _ => 0) true)
      (idleInWindow ++ [Event.timer] ++ List.replicate 17 Event.run) ∧
    s.frames.head? = some (.schedule (.contextSwitch 1 0 0)) ∧ s.stack = 0 ∧
    (((s.step .run).step .run).threads 1).rsp.map StackPointer.stack = some 0 := by
  decide +kernel

end Kryos.Thread
