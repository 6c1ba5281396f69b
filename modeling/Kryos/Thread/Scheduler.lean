import Mathlib.Logic.Function.Basic

/-! The scheduler on one CPU. `schedule()` is a program of single assignments, and
interrupts may come between any two of them. A stack is the list of calls that are
active on it; a saved stack pointer remembers which thread's stack it points into. -/
namespace Kryos.Thread

/-- A thread, named by its id. -/
abbrev Tid : Type := Nat

inductive ThreadState where
  | new
  | ready
  | running
  | blocked
  | waitingChild
  | dead
  deriving DecidableEq, Repr

/-- Where `schedule()` is about to continue, with the local variables it still uses.
The steps of `reap_dead_threads` and `context_switch` are part of it. -/
inductive Pc where
  | enter
  | setInScheduler
  | reap
  | reapTail (temp : Tid)
  | reapVisit (curr prev start : Tid)
  | markReady
  | firstNext
  | testNext (next : Tid)
  | testCurrent (next : Tid)
  | stayRunning
  | stayLeave
  | halt
  | advance (next : Tid)
  | saveOld (next : Tid)
  | setCurrent (next old : Tid)
  | setRunning (next old : Tid)
  | clearInScheduler (next old : Tid)
  | setTss (next old : Tid)
  | compare (old : Tid)
  | chooseCr3 (old : Tid)
  | contextSwitch (old new : Tid) (cr3 : Nat)
  | saveRsp (old new : Tid) (cr3 : Nat)
  | loadRsp (new : Tid) (cr3 : Nat)
  | leave
  deriving DecidableEq, Repr

/-- A call that is active on a stack. -/
inductive Frame where
  | schedule (pc : Pc)
  /-- The timer interrupt; its return restores the interrupt flag. -/
  | timer (flags : Bool)
  /-- `thread_yield`, which restores the flags afterwards. -/
  | yield (flags : Bool)
  /-- `thread_start_wrapper` and `user_thread_start_wrapper`. -/
  | start
  /-- Other kernel code of the thread. -/
  | body
  /-- The thread runs in user mode, with its kernel stack empty. -/
  | user
  /-- `thread_exit`, which never continues. -/
  | exit
  deriving DecidableEq, Repr

/-- A stack pointer: the thread whose stack it points into, and the calls there. -/
structure StackPointer where
  stack : Tid
  frames : List Frame

/-- `struct thread`. -/
structure ThreadRecord where
  state : ThreadState
  next : Tid
  process : Nat
  /-- Whether `kernel_stack_base` is set. -/
  kernelStackBase : Bool
  rsp : Option StackPointer

structure Machine where
  threads : Tid → ThreadRecord
  head : Option Tid
  current : Tid
  inScheduler : Bool
  preemptionEnabled : Bool
  schedulerTicks : Nat
  /-- `as.pml4_phys` of each process. -/
  pml4Phys : Nat → Nat
  cr3 : Nat
  /-- The thread whose stack `tss.rsp0` is. -/
  rsp0 : Tid
  /-- The stack in use and the calls on it, the innermost first. -/
  stack : Tid
  frames : List Frame
  interrupts : Bool

def Machine.setThread (s : Machine) (t : Tid) (thread : ThreadRecord) : Machine :=
  { s with threads := Function.update s.threads t thread }

def Machine.setState (s : Machine) (t : Tid) (state : ThreadState) : Machine :=
  s.setThread t { s.threads t with state := state }

def Machine.setNext (s : Machine) (t next : Tid) : Machine :=
  s.setThread t { s.threads t with next := next }

/-- One round of the loop of `reap_dead_threads`; `rest` is the stack below. The loop
ends early if the first thread of the list is dead. -/
def Machine.reapVisit (s : Machine) (curr prev start : Tid) (rest : List Frame) : Machine :=
  let nextNode := (s.threads curr).next
  if (s.threads curr).state == .dead && curr != s.current then
    let isHead := s.head == some curr
    let head := if isHead then some nextNode else s.head
    let start := if isHead then nextNode else start
    let alone := curr == nextNode
    let pc : Pc := if alone || nextNode == start then .markReady else .reapVisit nextNode prev start
    { s.setNext prev nextNode with
      head := if alone then none else head
      frames := .schedule pc :: rest }
  else
    let pc : Pc := if nextNode == start then .markReady else .reapVisit nextNode curr start
    { s with frames := .schedule pc :: rest }

/-- One assignment or test of `schedule()`; `rest` is the stack below it. -/
def Machine.scheduleStep (s : Machine) (rest : List Frame) : Pc → Machine
  | .enter =>
    if s.inScheduler then { s with frames := .schedule .leave :: rest }
    else { s with frames := .schedule .setInScheduler :: rest }
  | .setInScheduler => { s with inScheduler := true, frames := .schedule .reap :: rest }
  | .reap =>
    match s.head with
    | none => { s with frames := .schedule .markReady :: rest }
    | some head => { s with frames := .schedule (.reapTail head) :: rest }
  | .reapTail temp =>
    match s.head with
    | none => { s with frames := .schedule .markReady :: rest }
    | some head =>
      if (s.threads temp).next != head then
        { s with frames := .schedule (.reapTail (s.threads temp).next) :: rest }
      else { s with frames := .schedule (.reapVisit head temp head) :: rest }
  | .reapVisit curr prev start => s.reapVisit curr prev start rest
  | .markReady =>
    let s := if (s.threads s.current).state == .running then s.setState s.current .ready else s
    { s with frames := .schedule .firstNext :: rest }
  | .firstNext => { s with frames := .schedule (.testNext (s.threads s.current).next) :: rest }
  | .testNext next =>
    if (s.threads next).state !=
      .ready then { s with frames := .schedule (.testCurrent next) :: rest }
    else { s with frames := .schedule (.saveOld next) :: rest }
  | .testCurrent next =>
    if next == s.current then
      if (s.threads s.current).state ==
        .ready then { s with frames := .schedule .stayRunning :: rest }
      else { s with frames := .schedule .halt :: rest }
    else { s with frames := .schedule (.advance next) :: rest }
  | .stayRunning => { s.setState s.current .running with frames := .schedule .stayLeave :: rest }
  | .stayLeave => { s with inScheduler := false, frames := .schedule .leave :: rest }
  | .halt => { s with interrupts := false, frames := .schedule .halt :: rest }
  | .advance next => { s with frames := .schedule (.testNext (s.threads next).next) :: rest }
  | .saveOld next => { s with frames := .schedule (.setCurrent next s.current) :: rest }
  | .setCurrent next old =>
    { s with current := next, frames := .schedule (.setRunning next old) :: rest }
  | .setRunning next old =>
    { s.setState s.current .running with frames := .schedule (.clearInScheduler next old) :: rest }
  | .clearInScheduler next old =>
    { s with inScheduler := false, frames := .schedule (.setTss next old) :: rest }
  | .setTss next old =>
    let s := if (s.threads next).kernelStackBase then { s with rsp0 := next } else s
    { s with frames := .schedule (.compare old) :: rest }
  | .compare old =>
    if old != s.current then { s with frames := .schedule (.chooseCr3 old) :: rest }
    else { s with frames := .schedule .leave :: rest }
  | .chooseCr3 old =>
    let nextCr3 :=
      if (s.threads old).process != (s.threads s.current).process then
        s.pml4Phys (s.threads s.current).process
      else 0
    { s with frames := .schedule (.contextSwitch old s.current nextCr3) :: rest }
  -- the call pushes the callee-saved registers on the stack in use
  | .contextSwitch old new cr3 => { s with frames := .schedule (.saveRsp old new cr3) :: rest }
  | .saveRsp old new cr3 =>
    { s.setThread old { s.threads old with rsp := some ⟨s.stack, .schedule .leave :: rest⟩ } with
      frames := .schedule (.loadRsp new cr3) :: rest }
  | .loadRsp new cr3 =>
    let s := if cr3 != 0 then { s with cr3 := cr3 } else s
    match (s.threads new).rsp with
    | some pointer => { s with stack := pointer.stack, frames := pointer.frames }
    -- a null stack pointer: nothing runs any more
    | none => { s with frames := [] }
  | .leave => { s with frames := rest }

/-- The next step of the innermost call. -/
def Machine.run (s : Machine) : Machine :=
  match s.frames with
  | .schedule pc :: rest => s.scheduleStep rest pc
  | .timer flags :: rest => { s with interrupts := flags, frames := rest }
  | .yield flags :: rest => { s with interrupts := flags, frames := rest }
  | .start :: rest => { s with interrupts := true, frames := .body :: rest }
  | _ => s

/-- An interrupt from user mode switches to the stack that `tss.rsp0` names. -/
def Machine.enterKernel (s : Machine) : Machine :=
  if s.frames.head? == some .user then { s with stack := s.rsp0 } else s

/-- The timer interrupt up to the first instruction of `schedule()`. -/
def Machine.timerInterrupt (s : Machine) : Machine :=
  let flags := s.interrupts
  let s := s.enterKernel
  let s := { s with
    interrupts := false
    schedulerTicks := s.schedulerTicks + 1
    frames := .timer flags :: s.frames }
  if s.preemptionEnabled then { s with frames := .schedule .enter :: s.frames } else s

/-- `thread_create_process` and `thread_create_user`: the new thread is linked in
after `tail`. -/
def Machine.create (s : Machine) (t tail head : Tid) (process : Nat) : Machine :=
  let s := s.setThread t ⟨.ready, head, process, true, some ⟨t, [.start]⟩⟩
  s.setNext tail t

/-- What can happen next. -/
inductive Event where
  | run
  | timer
  /-- The keyboard handler makes a thread ready that waits for a terminal. -/
  | interruptWake (t : Tid)
  /-- The thread's own code calls `schedule()`, as the idle loop does. -/
  | callSchedule
  | yield
  /-- The first half of `thread_block_on_process`, and the wait for a terminal. -/
  | block (state : ThreadState)
  | exitThread
  | wakeWaiter (t : Tid)
  /-- `thread_terminate_process`. -/
  | terminate (process : Nat)
  | create (t tail : Tid) (process : Nat)
  | setInterrupts (flag : Bool)
  | setPreemption (flag : Bool)
  | enterUser
  | systemCall
  deriving DecidableEq, Repr

/-- `thread_wake_waiter`. -/
def Machine.wakeWaiter (s : Machine) (t : Tid) : Machine :=
  if (s.threads t).state == .waitingChild then s.setState t .ready else s

def Machine.step (s : Machine) : Event → Machine
  | .run => s.run
  | .timer => s.timerInterrupt
  | .interruptWake t => s.setState t .ready
  | .callSchedule => { s with frames := .schedule .enter :: s.frames }
  | .yield =>
    { s with interrupts := false, frames := .schedule .enter :: .yield s.interrupts :: s.frames }
  | .block state => s.setState s.current state
  | .exitThread =>
    { s.setState s.current .dead with
      interrupts := false
      frames := .schedule .enter :: .exit :: s.frames }
  | .wakeWaiter t => s.wakeWaiter t
  | .terminate process =>
    { s with threads := fun t =>
        let thread := s.threads t
        if thread.process == process && thread.state != .new then { thread with state := .dead }
        else thread }
  | .create t tail process => s.create t tail (s.head.getD t) process
  | .setInterrupts flag => { s with interrupts := flag }
  | .setPreemption flag => { s with preemptionEnabled := flag }
  | .enterUser => { s with interrupts := true, frames := .user :: s.frames.tail }
  | .systemCall => { s.enterKernel with interrupts := false, frames := .body :: s.frames.tail }

/-- Which events are possible: interrupts need the interrupt flag, and the code of a
thread acts while it is the innermost call. -/
def Machine.enabled (s : Machine) : Event → Bool
  | .run => s.frames.head? != some .body && s.frames.head? != some .user
  | .timer => s.interrupts
  | .interruptWake t => s.interrupts && (s.threads t).state != .new
  | .block state => s.frames.head? == some .body && (state == .blocked || state == .waitingChild)
  | .create t tail _ =>
    s.frames.head? == some .body && (s.threads t).state == .new &&
      s.head.any (fun head => (s.threads tail).next == head) && t != tail
  | .enterUser => s.frames == [.body] && (s.threads s.stack).kernelStackBase
  | .systemCall => s.frames.head? == some .user
  | _ => s.frames.head? == some .body

/-- `thread_init`. -/
def threadInit (pml4Phys : Nat → Nat) (interrupts : Bool) : Machine where
  threads := fun t => ⟨if t = 0 then .running else .new, 0, 0, false, none⟩
  head := some 0
  current := 0
  inScheduler := false
  preemptionEnabled := false
  schedulerTicks := 0
  pml4Phys := pml4Phys
  cr3 := pml4Phys 0
  rsp0 := 0
  stack := 0
  frames := [.body]
  interrupts := interrupts

end Kryos.Thread
