import Kryos.Base.Chain
import Kryos.Base.Trace
import Kryos.Fs.Tty
import Kryos.Thread.Scheduler
import Mathlib.Data.Finset.Card

/-! The threads that wait for a line, in lists linked through `next_waiter`. Reading and
receiving a character run with interrupts off. `tty_remove_waiter` does not, so it is a
program of single assignments and tests, and characters may arrive between any two. -/
namespace Kryos.Thread

open Chain Function

variable {state : ThreadState} {i : Nat} {tty : TtyRecord}
open Fs (backspace newline ttyLineMax moveDown)

def maxTtys : Nat := 4

/-- `struct tty`. -/
structure TtyRecord where
  buf : Nat → UInt8
  len : Nat
  waitQueue : Option Tid

/-- Where `tty_remove_waiter` is about to continue, with the terminal and `tw`. -/
inductive RemovePc where
  | testHead (i : Nat)
  | setHead (i : Nat)
  | loadHead (i : Nat)
  | testLoop (i : Nat) (tw : Option Tid)
  | testNext (i : Nat) (tw : Tid)
  | setNext (i : Nat) (tw : Tid)
  | advance (i : Nat) (tw : Tid)
  deriving DecidableEq, Repr

structure Waiting where
  ttys : Nat → TtyRecord
  /-- `next_waiter` of each thread. -/
  nextWaiter : Tid → Option Tid
  state : Tid → ThreadState
  /-- The thread records that are in use. -/
  allocated : Finset Tid
  current : Tid
  activeVtIdx : Nat
  /-- The dead thread that is being taken from the lists. -/
  removing : Option (Tid × RemovePc)
  /-- A walk along `next_waiter` went through more threads than there are. -/
  hung : Bool

def Waiting.setTty (s : Waiting) (i : Nat) (t : TtyRecord) : Waiting :=
  { s with ttys := update s.ttys i t }

def Waiting.setHead (s : Waiting) (i : Nat) (p : Option Tid) : Waiting :=
  s.setTty i { s.ttys i with waitQueue := p }

def Waiting.setNext (s : Waiting) (t : Tid) (p : Option Tid) : Waiting :=
  { s with nextWaiter := update s.nextWaiter t p }

def Waiting.setState (s : Waiting) (t : Tid) (state : ThreadState) : Waiting :=
  { s with state := update s.state t state }

/-- The loop of `tty_receive_char` that wakes the waiting threads. -/
def wakeAll : Nat → (Tid → ThreadState) → (Tid → Option Tid) → Option Tid →
    Option ((Tid → ThreadState) × (Tid → Option Tid))
  | _, state, next, none => some (state, next)
  | 0, _, _, some _ => none
  | fuel + 1, state, next, some curr =>
    wakeAll fuel (update state curr .ready) (update next curr none) (next curr)

/-- `tty_receive_char`, without the echo. -/
def ttyReceive (s : Waiting) (c : UInt8) : Waiting :=
  let i := s.activeVtIdx
  let t := s.ttys i
  if c = backspace then
    if t.len > 0 ∧ t.buf (t.len - 1) ≠ newline then s.setTty i { t with len := t.len - 1 } else s
  else if c = newline then
    let len := if t.len ≥ ttyLineMax then ttyLineMax - 1 else t.len
    match wakeAll s.allocated.card s.state s.nextWaiter t.waitQueue with
    | none => { s with hung := true }
    | some (state, nextWaiter) =>
      { s.setTty i ⟨update t.buf len newline, len + 1, none⟩ with state, nextWaiter }
  else if t.len < ttyLineMax - 1 then
    s.setTty i { t with buf := update t.buf t.len c, len := t.len + 1 }
  else s

/-- One turn of the loop of `tty_read_vfs` by the current thread: a line or a part of it,
or the thread goes to sleep. -/
def ttyRead (s : Waiting) (i count : Nat) : Option (List UInt8) × Waiting :=
  let t := s.ttys i
  match (List.range t.len).find? (fun j => t.buf j == newline) with
  | some nlPos =>
    let toCopy := if count > nlPos + 1 then nlPos + 1 else count
    (some ((List.range toCopy).map t.buf),
      s.setTty i { t with buf := moveDown t.buf toCopy (t.len - toCopy), len := t.len - toCopy })
  | none =>
    (none, ((s.setNext s.current t.waitQueue).setHead i (some s.current)).setState s.current
      .blocked)

def Waiting.goTo (s : Waiting) (t : Tid) (pc : RemovePc) : Waiting :=
  { s with removing := some (t, pc) }

/-- The next assignment or test of `tty_remove_waiter`; at the end the record is freed. -/
def removeStep (s : Waiting) (t : Tid) : RemovePc → Waiting
  | .testHead i =>
    if i ≥ maxTtys then
      { s.setState t .new with allocated := s.allocated.erase t, removing := none }
    else if (s.ttys i).waitQueue = some t then s.goTo t (.setHead i)
    else s.goTo t (.loadHead i)
  | .setHead i => (s.setHead i (s.nextWaiter t)).goTo t (.testHead (i + 1))
  | .loadHead i => s.goTo t (.testLoop i (s.ttys i).waitQueue)
  | .testLoop i none => s.goTo t (.testHead (i + 1))
  | .testLoop i (some tw) =>
    if s.nextWaiter tw = none then s.goTo t (.testHead (i + 1)) else s.goTo t (.testNext i tw)
  | .testNext i tw =>
    if s.nextWaiter tw = some t then s.goTo t (.setNext i tw) else s.goTo t (.advance i tw)
  | .setNext i tw => (s.setNext tw (s.nextWaiter t)).goTo t (.testHead (i + 1))
  | .advance i tw => s.goTo t (.testLoop i (s.nextWaiter tw))

inductive WaitEvent where
  /-- `tty_receive_char`. -/
  | key (c : UInt8)
  /-- `vt_switch`. -/
  | switch (num : Int)
  /-- The current thread is in `tty_read_vfs`. -/
  | read (terminal count : Nat)
  /-- `schedule()` gives the CPU to a ready thread. -/
  | schedule (next : Tid)
  /-- `thread_block_on_process`. -/
  | blockOnProcess
  | wakeWaiter (t : Tid)
  /-- `thread_exit`, or a thread in `thread_terminate_process`. -/
  | terminate (t : Tid)
  /-- A new thread. Its `next_waiter` is not initialised. -/
  | create (t : Tid) (garbage : Option Tid)
  /-- `reap_dead_threads` calls `tty_remove_waiter`. -/
  | reap (t : Tid)
  /-- `tty_remove_waiter` goes on. -/
  | step

def waitStep (s : Waiting) : WaitEvent → Waiting
  | .key c => ttyReceive s c
  | .switch num => if num < 0 ∨ num ≥ maxTtys then s else { s with activeVtIdx := num.toNat }
  | .read terminal count => (ttyRead s terminal count).2
  | .schedule next =>
    let s := if s.state s.current = .running then s.setState s.current .ready else s
    { s.setState next .running with current := next }
  | .blockOnProcess => s.setState s.current .waitingChild
  | .wakeWaiter t => if s.state t = .waitingChild then s.setState t .ready else s
  | .terminate t => s.setState t .dead
  | .create t garbage =>
    { (s.setNext t garbage).setState t .ready with allocated := insert t s.allocated }
  | .reap t => s.goTo t (.testHead 0)
  | .step =>
    match s.removing with
    | none => s
    | some (t, pc) => removeStep s t pc

/-- Which events are possible. While a thread is being removed, only interrupts come in
between; the current thread acts if it is running. -/
def Waiting.enabled (s : Waiting) : WaitEvent → Prop
  | .key _ => True
  | .switch _ => True
  | .read terminal _ => s.removing = none ∧ s.state s.current = .running ∧ terminal < maxTtys
  | .schedule next =>
    s.removing = none ∧ next ∈ s.allocated ∧
      (s.state next = .ready ∨ next = s.current ∧ s.state s.current = .running)
  | .blockOnProcess => s.removing = none ∧ s.state s.current = .running
  | .wakeWaiter _ => s.removing = none
  | .terminate t => s.removing = none ∧ t ∈ s.allocated
  | .create t _ => s.removing = none ∧ t ∉ s.allocated
  | .reap t => s.removing = none ∧ t ∈ s.allocated ∧ t ≠ s.current ∧ s.state t = .dead
  | .step => s.removing ≠ none

instance Waiting.decidableEnabled (s : Waiting) : ∀ event, Decidable (s.enabled event)
  | .key _ => isTrue trivial
  | .switch _ => isTrue trivial
  | .read .. => inferInstanceAs (Decidable (_ ∧ _ ∧ _ < _))
  | .schedule _ => inferInstanceAs (Decidable (_ ∧ _ ∧ (_ ∨ _ ∧ _)))
  | .blockOnProcess => inferInstanceAs (Decidable (_ ∧ _))
  | .wakeWaiter _ => inferInstanceAs (Decidable (_ = _))
  | .terminate _ => inferInstanceAs (Decidable (_ ∧ _))
  | .create .. => inferInstanceAs (Decidable (_ ∧ _ ∉ _))
  | .reap _ => inferInstanceAs (Decidable (_ ∧ _ ∧ _ ≠ _ ∧ _))
  | .step => inferInstanceAs (Decidable (_ ≠ _))

/-- The waiting lists are finite, no thread is in two of them or twice in one, and no
thread waits at a terminal that has a complete line. -/
structure Waiting.NoLostWakeup (s : Waiting) : Prop where
  returns : s.hung = false
  queues : ∃ queues : Nat → List Tid,
    (∀ i < maxTtys, Linked s.nextWaiter (s.ttys i).waitQueue (queues i) ∧ (queues i).Nodup) ∧
    ∀ i < maxTtys, ∀ j < maxTtys, i ≠ j → ∀ t ∈ queues i, t ∉ queues j
  no_line : ∀ i < maxTtys, (s.ttys i).waitQueue ≠ none →
    ∀ k < (s.ttys i).len, (s.ttys i).buf k ≠ newline

/-- A walk through a waiting list at `tw` has not met `t`, or the threads have been woken
meanwhile. -/
def AtWalk (next : Tid → Option Tid) (queues : Nat → List Tid) (t : Tid) (i : Nat) (tw : Tid) :
    Prop :=
  (∃ before after, queues i = before ++ tw :: after ∧ t ∉ before ∧ t ≠ tw) ∨
    queues i = [] ∧ next tw = none ∧ ∀ j < maxTtys, tw ∉ queues j

/-- What holds at each point of `tty_remove_waiter`, on the terminal at hand. -/
def RemovePc.Holds (next : Tid → Option Tid) (queues : Nat → List Tid) (t : Tid) : RemovePc → Prop
  | .testHead _ => True
  | .setHead i => (∃ rest, queues i = t :: rest) ∨ queues i = [] ∧ next t = none
  | .loadHead i => (queues i).head? ≠ some t
  | .testLoop i none => t ∉ queues i
  | .testLoop i (some tw) => AtWalk next queues t i tw
  | .testNext i tw => AtWalk next queues t i tw
  | .setNext i tw =>
    (∃ before after, queues i = before ++ tw :: t :: after) ∨
      queues i = [] ∧ ∀ j < maxTtys, tw ∉ queues j
  | .advance i tw =>
    (∃ before after, queues i = before ++ tw :: after ∧ t ∉ before ∧ t ≠ tw ∧
      after.head? ≠ some t) ∨ queues i = [] ∧ next tw = none

def RemovePc.terminal : RemovePc → Nat
  | .testHead i => i
  | .setHead i => i
  | .loadHead i => i
  | .testLoop i _ => i
  | .testNext i _ => i
  | .setNext i _ => i
  | .advance i _ => i

/-- The thread is out of the lists of the terminals before that one. -/
structure Removing (next : Tid → Option Tid) (queues : Nat → List Tid) (t : Tid) (pc : RemovePc) :
    Prop where
  done : ∀ j < maxTtys, j < pc.terminal → t ∉ queues j
  bound : pc ≠ .testHead pc.terminal → pc.terminal < maxTtys
  here : pc.Holds next queues t

/-- The lists behind the pointers, and who is in them. -/
structure Waiting.Sound (s : Waiting) (queues : Nat → List Tid) : Prop where
  returns : s.hung = false
  linked : ∀ i < maxTtys, Linked s.nextWaiter (s.ttys i).waitQueue (queues i)
  apart : ∀ i < maxTtys, ∀ j < maxTtys, i ≠ j → ∀ t ∈ queues i, t ∉ queues j
  asleep : ∀ i < maxTtys, ∀ t ∈ queues i,
    t ∈ s.allocated ∧ (s.state t = .blocked ∨ s.state t = .dead)
  no_line : ∀ i < maxTtys, queues i ≠ [] → ∀ k < (s.ttys i).len, (s.ttys i).buf k ≠ newline
  active : s.activeVtIdx < maxTtys
  current : s.current ∈ s.allocated
  removing : ∀ t pc, s.removing = some (t, pc) → t ≠ s.current ∧ Removing s.nextWaiter queues t pc

/-- A terminal with its list in place of the pointers. -/
def Waiting.terminal (s : Waiting) (queues : Nat → List Tid) (i : Nat) : Fs.Tty :=
  ⟨(s.ttys i).buf, (s.ttys i).len, queues i⟩

theorem Waiting.Sound.noLostWakeup {s : Waiting} {queues : Nat → List Tid} (h : s.Sound queues) :
    s.NoLostWakeup where
  returns := h.returns
  queues := ⟨queues, fun i hi => ⟨h.linked i hi, (h.linked i hi).nodup⟩, h.apart⟩
  no_line i hi hQueue := h.no_line i hi fun hNil =>
    hQueue (by rw [(h.linked i hi).head?_eq, hNil]; rfl)

section Steps

variable {s s' : Waiting} {queues : Nat → List Tid} {t : Tid}

theorem state_setState : (s.setState t state).state t = state :=
  update_self ..

theorem state_setState_of_ne {m : Tid} (hm : m ≠ t) : (s.setState t state).state m = s.state m :=
  update_of_ne hm ..

theorem ttys_setTty : (s.setTty i tty).ttys i = tty := update_self ..

theorem ttys_setTty_of_ne {j : Nat} (hj : j ≠ i) : (s.setTty i tty).ttys j = s.ttys j :=
  update_of_ne hj ..

section

variable (h : s.Sound queues)

include h

/-- A step that leaves the terminals alone, and the pointers and states of those who wait. -/
theorem Waiting.Sound.quiet (hTtys : s'.ttys = s.ttys)
    (hNext : ∀ i < maxTtys, ∀ t ∈ queues i, s'.nextWaiter t = s.nextWaiter t)
    (hAsleep : ∀ i < maxTtys, ∀ t ∈ queues i,
      t ∈ s'.allocated ∧ (s'.state t = .blocked ∨ s'.state t = .dead)) (hHung : s'.hung = s.hung)
    (hActive : s'.activeVtIdx = s.activeVtIdx) (hCurrent : s'.current ∈ s'.allocated)
    (hRemoving : s'.removing = none) : s'.Sound queues where
  returns := hHung.trans h.returns
  linked i hi := by
    rw [hTtys]
    exact (h.linked i hi).congr (hNext i hi)
  apart := h.apart
  asleep := hAsleep
  no_line := by
    rw [hTtys]
    exact h.no_line
  active := hActive ▸ h.active
  current := hCurrent
  removing t pc hSome := by
    rw [hRemoving] at hSome
    cases hSome

theorem Waiting.Sound.not_mem_of_state (hi : i < maxTtys) (hBlocked : s.state t ≠ .blocked)
    (hDead : s.state t ≠ .dead) : t ∉ queues i :=
  fun ht => ((h.asleep i hi t ht).2).elim hBlocked hDead

theorem Waiting.Sound.setState (hState : state = .dead ∨ s.state t ≠ .blocked ∧ s.state t ≠ .dead)
    (hRemoving : s.removing = none) : (s.setState t state).Sound queues := by
  refine h.quiet rfl (fun _ _ _ _ => rfl) (fun i hi m hm => ⟨(h.asleep i hi m hm).1, ?_⟩) rfl rfl
    h.current hRemoving
  by_cases hEq : m = t
  · subst hEq
    rcases hState with rfl | ⟨hBlocked, hDead⟩
    · exact .inr (update_self ..)
    · exact absurd hm (h.not_mem_of_state hi hBlocked hDead)
  · rw [state_setState_of_ne hEq]
    exact (h.asleep i hi m hm).2

theorem Waiting.Sound.schedule {next : Tid} (hEnabled : s.enabled (.schedule next)) :
    (waitStep s (.schedule next)).Sound queues := by
  obtain ⟨hRemoving, hNext, hReady⟩ := hEnabled
  -- the thread that is chosen does not wait, so its state may change
  have hChosen : ∀ s' : Waiting, s'.Sound queues → s'.allocated = s.allocated → s'.removing = none →
      s'.state next ≠ .blocked ∧ s'.state next ≠ .dead →
      ({ s'.setState next .running with current := next } : Waiting).Sound queues := by
    intro s' h' hAllocated hNone hState
    have hRunning : (s'.setState next .running).Sound queues := h'.setState (.inr hState) hNone
    exact hRunning.quiet rfl (fun _ _ _ _ => rfl) hRunning.asleep rfl rfl
      (hAllocated.symm ▸ hNext) hNone
  rw [waitStep]
  by_cases hRunning : s.state s.current = .running
  · rw [if_pos hRunning]
    have hNot : s.state s.current ≠ .blocked ∧ s.state s.current ≠ .dead := by rw [hRunning]; decide
    refine hChosen _ (h.setState (.inr hNot) hRemoving) rfl hRemoving ?_
    by_cases hEq : next = s.current
    · rw [hEq, state_setState]
      decide
    · rw [state_setState_of_ne hEq, hReady.resolve_right fun h => hEq h.1]
      decide
  · rw [if_neg hRunning]
    refine hChosen s h rfl hRemoving ?_
    rw [hReady.resolve_right fun h => hRunning h.2]
    decide

theorem Waiting.Sound.create {garbage : Option Tid} (hEnabled : s.enabled (.create t garbage)) :
    (waitStep s (.create t garbage)).Sound queues := by
  obtain ⟨hRemoving, hNew⟩ := hEnabled
  have hNe : ∀ i < maxTtys, ∀ m ∈ queues i, m ≠ t := fun i hi m hm hEq =>
    hNew (hEq ▸ (h.asleep i hi m hm).1)
  refine h.quiet rfl (fun i hi m hm => update_of_ne (hNe i hi m hm) ..)
    (fun i hi m hm => ⟨Finset.mem_insert_of_mem (h.asleep i hi m hm).1, ?_⟩) rfl rfl
    (Finset.mem_insert_of_mem h.current) hRemoving
  exact (state_setState_of_ne (s := s.setNext t garbage) (hNe i hi m hm)).symm ▸
    (h.asleep i hi m hm).2

theorem Waiting.Sound.reap (hEnabled : s.enabled (.reap t)) :
    (waitStep s (.reap t)).Sound queues where
  returns := h.returns
  linked := h.linked
  apart := h.apart
  asleep := h.asleep
  no_line := h.no_line
  active := h.active
  current := h.current
  removing m pc hSome := by
    cases hSome
    exact ⟨hEnabled.2.2.1, fun _ _ hLt => absurd hLt (Nat.not_lt_zero _), fun h =>
      absurd rfl h, trivial⟩

theorem Waiting.Sound.switch (num : Int) : (waitStep s (.switch num)).Sound queues := by
  rw [waitStep]
  split
  · exact h
  case isFalse hNum =>
    exact ⟨h.returns, h.linked, h.apart, h.asleep, h.no_line, (by omega : num.toNat < maxTtys),
      h.current, h.removing⟩

theorem Waiting.Sound.setText {buf : Nat → UInt8} {len : Nat}
    (hText : i < maxTtys → queues i ≠ [] → ∀ k < len, buf k ≠ newline) :
    (s.setTty i { s.ttys i with buf := buf, len := len }).Sound queues where
  returns := h.returns
  linked j hj := by
    by_cases hEq : j = i
    · subst hEq
      rw [ttys_setTty]
      exact h.linked j hj
    · rw [ttys_setTty_of_ne hEq]
      exact h.linked j hj
  apart := h.apart
  asleep := h.asleep
  no_line j hj hQueue := by
    by_cases hEq : j = i
    · subst hEq
      rw [ttys_setTty]
      exact hText hj hQueue
    · rw [ttys_setTty_of_ne hEq]
      exact h.no_line j hj hQueue
  active := h.active
  current := h.current
  removing := h.removing

/-- The reader at the front of the list of its terminal. -/
theorem Waiting.Sound.enqueue (hi : i < maxTtys) (hRunning : s.state s.current = .running)
    (hRemoving : s.removing = none) (hText : ∀ k < (s.ttys i).len, (s.ttys i).buf k ≠ newline) :
    (((s.setNext s.current (s.ttys i).waitQueue).setHead i (some s.current)).setState s.current
      .blocked).Sound (update queues i (s.current :: queues i)) := by
  have hNot : ∀ j < maxTtys, s.current ∉ queues j := fun j hj =>
    h.not_mem_of_state hj (by rw [hRunning]; decide) (by rw [hRunning]; decide)
  have hMem : ∀ j < maxTtys, ∀ m ∈ update queues i (s.current :: queues i) j,
      m = s.current ∧ j = i ∨ m ∈ queues j := fun j _ m hm => by
    by_cases hEq : j = i
    · subst hEq
      rw [update_self] at hm
      exact (List.mem_cons.mp hm).imp (fun h => ⟨h, rfl⟩) id
    · rw [update_of_ne hEq] at hm
      exact .inr hm
  have hTty : ∀ j, j ≠ i →
      ((s.setNext s.current (s.ttys i).waitQueue).setHead i (some s.current)).ttys j = s.ttys j :=
    fun j hj => ttys_setTty_of_ne hj
  refine ⟨h.returns, fun j hj => ?_, fun j hj l hl hNe m hm hm' => ?_, fun j hj m hm => ?_,
    fun j hj hQueue => ?_, h.active, h.current, fun t pc hSome => ?_⟩
  · change Linked (update s.nextWaiter s.current (s.ttys i).waitQueue)
      (((s.setNext s.current (s.ttys i).waitQueue).setHead i (some s.current)).ttys j).waitQueue _
    by_cases hEq : j = i
    · subst hEq
      rw [update_self, Waiting.setHead, ttys_setTty]
      exact (h.linked j hj).push (hNot j hj)
    · rw [update_of_ne hEq, hTty j hEq]
      have hNe : ∀ m ∈ queues j, m ≠ s.current := fun m hm hm' => hNot j hj (hm' ▸ hm)
      exact (h.linked j hj).congr fun m hm => update_of_ne (hNe m hm) ..
  · rcases hMem j hj m hm with ⟨rfl, hj'⟩ | hOld
    · rcases hMem l hl _ hm' with ⟨_, hl'⟩ | hOld'
      · exact hNe (hj'.trans hl'.symm)
      · exact hNot l hl hOld'
    · rcases hMem l hl m hm' with ⟨rfl, _⟩ | hOld'
      · exact hNot j hj hOld
      · exact h.apart j hj l hl hNe m hOld hOld'
  · rcases hMem j hj m hm with ⟨rfl, _⟩ | hOld
    · exact ⟨h.current, .inl state_setState⟩
    · have hNe : m ≠ s.current := fun hEq => hNot j hj (hEq ▸ hOld)
      rw [state_setState_of_ne hNe]
      exact h.asleep j hj m hOld
  · change ∀ k < (((s.setNext s.current (s.ttys i).waitQueue).setHead i
        (some s.current)).ttys j).len,
      (((s.setNext s.current (s.ttys i).waitQueue).setHead i (some s.current)).ttys j).buf k ≠
        newline
    by_cases hEq : j = i
    · subst hEq
      rw [Waiting.setHead, ttys_setTty]
      exact hText
    · rw [update_of_ne hEq] at hQueue
      rw [hTty j hEq]
      exact h.no_line j hj hQueue
  · exact absurd (hRemoving.symm.trans hSome) (by simp)

end

theorem terminal_setTty : (s.setTty i tty).terminal queues i = ⟨tty.buf, tty.len, queues i⟩ := by
  rw [Waiting.terminal, ttys_setTty]

/-- The list is the one of `ttyReadVfs`. -/
theorem Waiting.Sound.read (h : s.Sound queues) {terminal count : Nat}
    (hEnabled : s.enabled (.read terminal count)) :
    ∃ queues', (waitStep s (.read terminal count)).Sound queues' ∧
      (waitStep s (.read terminal count)).terminal queues' terminal =
        (Fs.ttyReadVfs (s.terminal queues terminal) s.current count).2 := by
  obtain ⟨hRemoving, hRunning, hTerminal⟩ := hEnabled
  rw [waitStep, ttyRead, Fs.ttyReadVfs, Waiting.terminal]
  cases hFind :
    (List.range (s.ttys terminal).len).find? (fun j => (s.ttys terminal).buf j == newline) with
  | some nlPos =>
    -- there is a line, so nobody waits
    have hLine := List.find?_some hFind
    have hMem := List.mem_of_find?_eq_some hFind
    refine ⟨queues, h.setText fun hi hQueue => ?_, terminal_setTty⟩
    exact absurd (beq_iff_eq.mp hLine) (h.no_line terminal hi hQueue nlPos (List.mem_range.mp hMem))
  | none =>
    refine ⟨_, h.enqueue hTerminal hRunning hRemoving fun k hk hEq => ?_, ?_⟩
    · exact List.find?_eq_none.mp hFind k (List.mem_range.mpr hk) (beq_iff_eq.mpr hEq)
    · refine (terminal_setTty (s := s.setNext s.current (s.ttys terminal).waitQueue)).trans ?_
      rw [update_self]
      rfl

/-- The loop makes all threads of a list ready and takes the list apart. -/
theorem wakeAll_eq {fuel : Nat} {state : Tid → ThreadState}
    {next : Tid → Option Tid} {p : Option Tid}
    {l : List Tid} (hLinked : Linked next p l) (hFuel : l.length ≤ fuel) :
    wakeAll fuel state next p =
      some (fun t => if t ∈ l then .ready else state t, fun t =>
        if t ∈ l then none else next t) := by
  induction l generalizing fuel state next p with
  | nil =>
    rw [show p = none from hLinked, wakeAll]
    simp
  | cons a l ih =>
    have hNot : a ∉ l := (List.nodup_cons.mp hLinked.nodup).1
    obtain ⟨rfl, hRest⟩ := hLinked
    cases fuel with
    | zero => simp at hFuel
    | succ fuel =>
      have hRest' : Linked (update next a none) (next a) l :=
        hRest.congr fun b hb => update_of_ne (fun hEq : b = a => hNot (hEq ▸ hb)) ..
      rw [wakeAll, ih hRest' (Nat.le_of_succ_le_succ hFuel)]
      congr 2
      · funext t
        by_cases ht : t = a
        · subst ht
          simp [hNot]
        · simp [ht]
      · funext t
        by_cases ht : t = a
        · subst ht
          simp [hNot]
        · simp [ht]

theorem Waiting.Sound.length_le (h : s.Sound queues) (hi : i < maxTtys) :
    (queues i).length ≤ s.allocated.card := by
  have hSubset : (queues i).toFinset ⊆ s.allocated := fun t ht =>
    (h.asleep i hi t (List.mem_toFinset.mp ht)).1
  rw [← List.toFinset_card_of_nodup (h.linked i hi).nodup]
  exact Finset.card_le_card hSubset

/-- The lists after those of one terminal have been woken. -/
def wokenQueues (queues : Nat → List Tid) (a : Nat) : Nat → List Tid := update queues a []

def wokenNext (next : Tid → Option Tid) (queues : Nat → List Tid) (a : Nat) (t : Tid) :
    Option Tid :=
  if t ∈ queues a then none else next t

section Woken

variable {next : Tid → Option Tid} {a i : Nat} {tw : Tid} {pc : RemovePc}

theorem mem_wokenQueues (ht : t ∈ wokenQueues queues a i) : t ∈ queues i ∧ i ≠ a := by
  by_cases hEq : i = a
  · subst hEq
    rw [wokenQueues, update_self] at ht
    exact absurd ht List.not_mem_nil
  · rw [wokenQueues, update_of_ne hEq] at ht
    exact ⟨ht, hEq⟩

theorem wokenQueues_self : wokenQueues queues a a = [] := update_self ..

theorem wokenQueues_of_ne (hi : i ≠ a) : wokenQueues queues a i = queues i := update_of_ne hi ..

theorem wokenNext_eq_none (h : t ∈ queues a ∨ next t = none) :
    wokenNext next queues a t = none := by
  rw [wokenNext]
  rcases h with hMem | hNone
  · rw [if_pos hMem]
  · rw [hNone, ite_self]

theorem AtWalk.woken (h : AtWalk next queues t i tw)
    (hApart : ∀ j < maxTtys, i ≠ j → ∀ m ∈ queues i, m ∉ queues j) :
    AtWalk (wokenNext next queues a) (wokenQueues queues a) t i tw := by
  rcases h with ⟨before, after, hQueue, hBefore, hNe⟩ | ⟨hQueue, hNext, hNone⟩
  · by_cases hEq : i = a
    · subst hEq
      have hMem : tw ∈ queues i := by rw [hQueue]; simp
      refine .inr ⟨wokenQueues_self, wokenNext_eq_none (.inl hMem), fun j hj hIn => ?_⟩
      obtain ⟨hIn, hNe'⟩ := mem_wokenQueues hIn
      exact hApart j hj hNe'.symm tw hMem hIn
    · exact .inl ⟨before, after, by rw [wokenQueues_of_ne hEq, hQueue], hBefore, hNe⟩
  · refine .inr ⟨?_, wokenNext_eq_none (.inr hNext), fun j hj hIn =>
      hNone j hj (mem_wokenQueues hIn).1⟩
    by_cases hEq : i = a
    · rw [hEq, wokenQueues_self]
    · rw [wokenQueues_of_ne hEq, hQueue]

/-- A newline between two statements of `tty_remove_waiter`. -/
theorem Removing.woken (h : Removing next queues t pc)
    (hApart : ∀ i < maxTtys, ∀ j < maxTtys, i ≠ j → ∀ m ∈ queues i, m ∉ queues j) :
    Removing (wokenNext next queues a) (wokenQueues queues a) t pc where
  done j hj hLt hIn := h.done j hj hLt (mem_wokenQueues hIn).1
  bound := h.bound
  here := by
    have hHere := h.here
    have hBound := h.bound
    have hEmpty : ∀ i, i = a ∨ queues i = [] → wokenQueues queues a i = [] := fun i h' => by
      by_cases hEq : i = a
      · rw [hEq, wokenQueues_self]
      · rw [wokenQueues_of_ne hEq, h'.resolve_left hEq]
    cases pc with
    | testHead i => trivial
    | setHead i =>
      rcases hHere with ⟨rest, hQueue⟩ | ⟨hQueue, hNext⟩
      · by_cases hEq : i = a
        · refine .inr ⟨hEmpty i (.inl hEq), wokenNext_eq_none (.inl ?_)⟩
          rw [← hEq, hQueue]
          exact List.mem_cons_self
        · exact .inl ⟨rest, by rw [wokenQueues_of_ne hEq, hQueue]⟩
      · exact .inr ⟨hEmpty i (.inr hQueue), wokenNext_eq_none (.inr hNext)⟩
    | loadHead i =>
      by_cases hEq : i = a
      · rw [RemovePc.Holds, hEmpty i (.inl hEq)]
        simp
      · rw [RemovePc.Holds, wokenQueues_of_ne hEq]
        exact hHere
    | testLoop i tw =>
      cases tw with
      | none => exact fun hIn => hHere (mem_wokenQueues hIn).1
      | some tw => exact AtWalk.woken hHere (hApart i (hBound nofun))
    | testNext i tw => exact AtWalk.woken hHere (hApart i (hBound nofun))
    | setNext i tw =>
      rcases hHere with ⟨before, after, hQueue⟩ | ⟨hQueue, hNone⟩
      · by_cases hEq : i = a
        · refine .inr ⟨hEmpty i (.inl hEq), fun j hj hIn => ?_⟩
          obtain ⟨hIn, hNe⟩ := mem_wokenQueues hIn
          exact hApart i (hBound nofun) j hj (hEq ▸ hNe.symm) tw (by rw [hQueue]; simp) hIn
        · exact .inl ⟨before, after, by rw [wokenQueues_of_ne hEq, hQueue]⟩
      · exact .inr ⟨hEmpty i (.inr hQueue), fun j hj hIn => hNone j hj (mem_wokenQueues hIn).1⟩
    | advance i tw =>
      rcases hHere with ⟨before, after, hQueue, hRest⟩ | ⟨hQueue, hNext⟩
      · by_cases hEq : i = a
        · refine .inr ⟨hEmpty i (.inl hEq), wokenNext_eq_none (.inl ?_)⟩
          rw [← hEq, hQueue]
          simp
        · exact .inl ⟨before, after, by rw [wokenQueues_of_ne hEq, hQueue], hRest⟩
      · exact .inr ⟨hEmpty i (.inr hQueue), wokenNext_eq_none (.inr hNext)⟩

end Woken

/-- A newline wakes everyone who waits at the active terminal. -/
theorem Waiting.Sound.newline (h : s.Sound queues) (buf : Nat → UInt8) (len : Nat) :
    ({ s.setTty s.activeVtIdx ⟨buf, len, none⟩ with
      state := fun t => if t ∈ queues s.activeVtIdx then .ready else s.state t,
      nextWaiter := wokenNext s.nextWaiter queues s.activeVtIdx } : Waiting).Sound
      (wokenQueues queues s.activeVtIdx) := by
  have hOther : ∀ j < maxTtys, ∀ m ∈ queues j, j ≠ s.activeVtIdx → m ∉ queues s.activeVtIdx :=
    fun j hj m hm hNe => h.apart j hj _ h.active hNe m hm
  refine ⟨h.returns, fun j hj => ?_, fun i hi j hj hNe m hm hm' => ?_, fun j hj m hm => ?_,
    fun j hj hQueue => ?_, h.active, h.current, fun t pc hSome => ?_⟩
  · by_cases hEq : j = s.activeVtIdx
    · rw [hEq, ttys_setTty, wokenQueues_self]
      rfl
    · rw [ttys_setTty_of_ne hEq, wokenQueues_of_ne hEq]
      exact (h.linked j hj).congr fun m hm => if_neg (hOther j hj m hm hEq)
  · exact h.apart i hi j hj hNe m (mem_wokenQueues hm).1 (mem_wokenQueues hm').1
  · obtain ⟨hm, hNe⟩ := mem_wokenQueues hm
    dsimp only
    rw [if_neg (hOther j hj m hm hNe)]
    exact h.asleep j hj m hm
  · by_cases hEq : j = s.activeVtIdx
    · exact absurd (hEq ▸ wokenQueues_self) hQueue
    · rw [wokenQueues_of_ne hEq] at hQueue
      rw [ttys_setTty_of_ne hEq]
      exact h.no_line j hj hQueue
  · obtain ⟨hNe, hRemoving⟩ := h.removing t pc hSome
    exact ⟨hNe, hRemoving.woken h.apart⟩

/-- The list is the one of `ttyReceiveChar`. -/
theorem Waiting.Sound.key (h : s.Sound queues) (c : UInt8) :
    ∃ queues', (waitStep s (.key c)).Sound queues' ∧
      (waitStep s (.key c)).terminal queues' s.activeVtIdx =
        (Fs.ttyReceiveChar (s.terminal queues s.activeVtIdx) c).1 := by
  rw [waitStep, ttyReceive, Fs.ttyReceiveChar, Waiting.terminal]
  by_cases hBackspace : c = backspace
  · rw [if_pos hBackspace, if_pos hBackspace]
    by_cases hLast : (s.ttys s.activeVtIdx).len > 0 ∧
        (s.ttys s.activeVtIdx).buf ((s.ttys s.activeVtIdx).len - 1) ≠ Fs.newline
    · rw [if_pos hLast, if_pos hLast]
      exact ⟨queues, h.setText fun hi hQueue k hk =>
        h.no_line _ hi hQueue k (by omega), terminal_setTty⟩
    · rw [if_neg hLast, if_neg hLast]
      exact ⟨queues, h, rfl⟩
  · rw [if_neg hBackspace, if_neg hBackspace]
    by_cases hNewline : c = Fs.newline
    · rw [if_pos hNewline, if_pos hNewline, wakeAll_eq (h.linked _ h.active) (h.length_le h.active)]
      refine ⟨_, h.newline .., terminal_setTty.trans ?_⟩
      rw [wokenQueues_self]
    · rw [if_neg hNewline, if_neg hNewline]
      by_cases hLen : (s.ttys s.activeVtIdx).len < ttyLineMax - 1
      · rw [if_pos hLen, if_pos hLen]
        refine ⟨queues, h.setText fun hi hQueue k hk => ?_, terminal_setTty⟩
        by_cases hLast : k = (s.ttys s.activeVtIdx).len
        · rw [hLast, update_self]
          exact hNewline
        · rw [update_of_ne hLast]
          exact h.no_line _ hi hQueue k (by omega)
      · rw [if_neg hLen, if_neg hLen]
        exact ⟨queues, h, rfl⟩

end Steps

end Kryos.Thread
