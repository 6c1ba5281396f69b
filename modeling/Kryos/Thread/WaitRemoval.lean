import Kryos.Thread.WaitQueues

/-! `tty_remove_waiter`, statement by statement, and runs of the whole system. -/
namespace Kryos.Thread

open Chain Function Trace
open Fs (newline)

section Steps

variable {s : Waiting} {queues : Nat → List Tid} {t : Tid}

section Remove

variable {pc : RemovePc} {i : Nat} {tw : Tid}

theorem Waiting.Sound.goTo (h : s.Sound queues) (hNe : t ≠ s.current)
    (hRemoving : Removing s.nextWaiter queues t pc) : (s.goTo t pc).Sound queues :=
  ⟨h.returns, h.linked, h.apart, h.asleep, h.no_line, h.active, h.current, fun m pc' hSome => by
    cases hSome
    exact ⟨hNe, hRemoving⟩⟩

/-- A step of the removal that takes threads from the lists. -/
theorem Waiting.Sound.shrink (h : s.Sound queues) {ttys : Nat → TtyRecord} {next : Tid → Option Tid}
    {queues' : Nat → List Tid}
    (hText : ∀ j, (ttys j).buf = (s.ttys j).buf ∧ (ttys j).len = (s.ttys j).len)
    (hLinked : ∀ j < maxTtys, Linked next (ttys j).waitQueue (queues' j))
    (hMem : ∀ j < maxTtys, ∀ m ∈ queues' j, m ∈ queues j) :
    ({ s with ttys := ttys, nextWaiter := next, removing := none } : Waiting).Sound queues' := by
  refine ⟨h.returns, hLinked, fun a ha b hb hNe m hm hm' => ?_, fun j hj m hm => ?_,
    fun j hj hQueue => ?_, h.active, h.current, nofun⟩
  · exact h.apart a ha b hb hNe m (hMem a ha m hm) (hMem b hb m hm')
  · exact h.asleep j hj m (hMem j hj m hm)
  · obtain ⟨m, hm⟩ := List.exists_mem_of_ne_nil _ hQueue
    rw [(hText j).1, (hText j).2]
    exact h.no_line j hj (List.ne_nil_of_mem (hMem j hj m hm))

theorem Removing.nextTerminal {next : Tid → Option Tid}
    (hDone : ∀ j < maxTtys, j < i → t ∉ queues j) (hHere : t ∉ queues i) :
    Removing next queues t (.testHead (i + 1)) where
  done j hj hLt hIn := by
    rcases Nat.lt_succ_iff_lt_or_eq.mp hLt with hLt | rfl
    · exact hDone j hj hLt hIn
    · exact hHere hIn
  bound h := absurd rfl h
  here := trivial

theorem Removing.sameTerminal {next : Tid → Option Tid} {pc' : RemovePc}
    (h : Removing next queues t pc) (hTerminal : pc'.terminal = pc.terminal)
    (hBound : pc.terminal < maxTtys) (hHere : pc'.Holds next queues t) :
    Removing next queues t pc' where
  done j hj hLt := h.done j hj (hTerminal ▸ hLt)
  bound _ := hTerminal ▸ hBound
  here := hHere

theorem setHead_text (p : Option Tid) (j : Nat) :
    ((s.setHead i p).ttys j).buf = (s.ttys j).buf ∧
      ((s.setHead i p).ttys j).len = (s.ttys j).len := by
  by_cases hEq : j = i
  · rw [hEq, Waiting.setHead, ttys_setTty]
    exact ⟨rfl, rfl⟩
  · rw [Waiting.setHead, ttys_setTty_of_ne hEq]
    exact ⟨rfl, rfl⟩

/-- `tty->wait_queue = t->next_waiter`. -/
theorem Waiting.Sound.removeHead (h : s.Sound queues) (hNe : t ≠ s.current) (hi : i < maxTtys)
    (hDone : ∀ j < maxTtys, j < i → t ∉ queues j)
    (hHere : (∃ rest, queues i = t :: rest) ∨ queues i = [] ∧ s.nextWaiter t = none) :
    ∃ queues', ((s.setHead i (s.nextWaiter t)).goTo t (.testHead (i + 1))).Sound queues' := by
  have hLinked := h.linked i hi
  obtain ⟨rest, hRest, hMem, hNot⟩ : ∃ rest, Linked s.nextWaiter (s.nextWaiter t) rest ∧
      (∀ m ∈ rest, m ∈ queues i) ∧ t ∉ rest := by
    rcases hHere with ⟨rest, hQueue⟩ | ⟨_, hNext⟩
    · rw [hQueue] at hLinked
      exact ⟨rest, hLinked.2, fun m hm => hQueue ▸ List.mem_cons_of_mem _ hm,
        (List.nodup_cons.mp hLinked.nodup).1⟩
    · exact ⟨[], hNext, nofun, nofun⟩
  refine ⟨update queues i rest, (h.shrink (setHead_text (s.nextWaiter t)) (fun j hj => ?_)
    fun j hj m hm => ?_).goTo hNe (Removing.nextTerminal (fun j hj hLt => ?_) ?_)⟩
  · by_cases hEq : j = i
    · rw [hEq, Waiting.setHead, ttys_setTty, update_self]
      exact hRest
    · rw [Waiting.setHead, ttys_setTty_of_ne hEq, update_of_ne hEq]
      exact h.linked j hj
  · by_cases hEq : j = i
    · subst hEq
      rw [update_self] at hm
      exact hMem m hm
    · rwa [update_of_ne hEq] at hm
  · rw [update_of_ne (Nat.ne_of_lt hLt)]
    exact hDone j hj hLt
  · rw [update_self]
    exact hNot

/-- `tw->next_waiter = t->next_waiter`. -/
theorem Waiting.Sound.removeBehind (h : s.Sound queues) (hNe : t ≠ s.current) (hi : i < maxTtys)
    (hDone : ∀ j < maxTtys, j < i → t ∉ queues j)
    (hHere : (∃ before after, queues i = before ++ tw :: t :: after) ∨
      queues i = [] ∧ ∀ j < maxTtys, tw ∉ queues j) :
    ∃ queues', ((s.setNext tw (s.nextWaiter t)).goTo t (.testHead (i + 1))).Sound queues' := by
  have hOther : ∀ j < maxTtys, tw ∉ queues j →
      Linked (update s.nextWaiter tw (s.nextWaiter t)) (s.ttys j).waitQueue (queues j) :=
    fun j hj hNot => (h.linked j hj).congr fun m hm =>
      update_of_ne (fun hEq : m = tw => hNot (hEq ▸ hm)) ..
  rcases hHere with ⟨before, after, hQueue⟩ | ⟨hQueue, hNone⟩
  · have hLinked := hQueue ▸ h.linked i hi
    have hNodup := hLinked.nodup
    have hMem : tw ∈ queues i := by rw [hQueue]; simp
    refine ⟨update queues i (before ++ tw :: after),
      (h.shrink (fun _ => ⟨rfl, rfl⟩) (fun j hj => ?_)
      fun j hj m hm => ?_).goTo hNe (Removing.nextTerminal (fun j hj hLt => ?_) ?_)⟩
    · by_cases hEq : j = i
      · rw [hEq, update_self]
        exact hLinked.unlink
      · rw [update_of_ne hEq]
        exact hOther j hj (h.apart i hi j hj (Ne.symm hEq) tw hMem)
    · by_cases hEq : j = i
      · subst hEq
        rw [update_self] at hm
        rw [hQueue]
        simp only [List.mem_append, List.mem_cons] at hm ⊢
        tauto
      · rwa [update_of_ne hEq] at hm
    · rw [update_of_ne (Nat.ne_of_lt hLt)]
      exact hDone j hj hLt
    · rw [update_self]
      have hSwap : (before ++ tw :: t :: after).Perm (t :: (before ++ tw :: after)) := by
        rw [List.append_cons before tw (t :: after), List.append_cons before tw after]
        exact List.perm_middle
      exact (List.nodup_cons.mp (hSwap.nodup hNodup)).1
  · refine ⟨queues, (h.shrink (fun _ => ⟨rfl, rfl⟩) (fun j hj => hOther j hj (hNone j hj))
      fun _ _ _ hm => hm).goTo hNe (Removing.nextTerminal hDone ?_)⟩
    rw [hQueue]
    exact List.not_mem_nil

section

variable (h : AtWalk s.nextWaiter queues t i tw)
  (hLinked : Linked s.nextWaiter (s.ttys i).waitQueue (queues i))

include h hLinked

/-- At the last element, or after a newline, the thread is not in the list. -/
theorem AtWalk.not_mem (hNext : s.nextWaiter tw = none) : t ∉ queues i := by
  rcases h with ⟨before, after, hQueue, hBefore, hNe⟩ | ⟨hQueue, _, _⟩
  · have hAfter : after = [] :=
      List.head?_eq_none_iff.mp ((hQueue ▸ hLinked).next_eq.symm.trans hNext)
    rw [hQueue, hAfter]
    simp [hBefore, hNe]
  · rw [hQueue]
    exact List.not_mem_nil

theorem AtWalk.setNext_holds (hNext : s.nextWaiter tw = some t) :
    (RemovePc.setNext i tw).Holds s.nextWaiter queues t := by
  rcases h with ⟨before, after, hQueue, _, _⟩ | ⟨_, hNone, _⟩
  · obtain ⟨rest, rfl⟩ := List.head?_eq_some_iff.mp ((hQueue ▸ hLinked).next_eq.symm.trans hNext)
    exact .inl ⟨before, rest, hQueue⟩
  · rw [hNone] at hNext
    cases hNext

theorem AtWalk.advance_holds (hNext : s.nextWaiter tw ≠ some t) :
    (RemovePc.advance i tw).Holds s.nextWaiter queues t := by
  rcases h with ⟨before, after, hQueue, hBefore, hNe⟩ | ⟨hQueue, hNone, _⟩
  · exact .inl ⟨before, after, hQueue, hBefore, hNe, fun hHead =>
      hNext ((hQueue ▸ hLinked).next_eq.trans hHead)⟩
  · exact .inr ⟨hQueue, hNone⟩

end

theorem testLoop_holds_of_advance (h : (RemovePc.advance i tw).Holds s.nextWaiter queues t)
    (hLinked : Linked s.nextWaiter (s.ttys i).waitQueue (queues i)) :
    (RemovePc.testLoop i (s.nextWaiter tw)).Holds s.nextWaiter queues t := by
  rcases h with ⟨before, after, hQueue, hBefore, hNe, hHead⟩ | ⟨hQueue, hNone⟩
  · have hNext : s.nextWaiter tw = after.head? := (hQueue ▸ hLinked).next_eq
    rw [hNext]
    cases after with
    | nil =>
      change t ∉ queues i
      rw [hQueue]
      simp [hBefore, hNe]
    | cons b after =>
      refine .inl
        ⟨before ++ [tw], after, hQueue.trans (List.append_cons before tw (b :: after)), ?_, ?_⟩
      · simp [hBefore, hNe]
      · exact fun hEq => hHead (congrArg some hEq.symm)
  · rw [hNone]
    change t ∉ queues i
    rw [hQueue]
    exact List.not_mem_nil

theorem testLoop_holds_of_loadHead (h : (queues i).head? ≠ some t)
    (hLinked : Linked s.nextWaiter (s.ttys i).waitQueue (queues i)) :
    (RemovePc.testLoop i (s.ttys i).waitQueue).Holds s.nextWaiter queues t := by
  rw [hLinked.head?_eq]
  cases hQueue : queues i with
  | nil =>
    change t ∉ queues i
    rw [hQueue]
    exact List.not_mem_nil
  | cons b rest =>
    refine .inl ⟨[], rest, hQueue, List.not_mem_nil, fun hEq => h ?_⟩
    rw [hQueue, hEq]
    rfl

theorem Waiting.Sound.free (h : s.Sound queues) (hNe : t ≠ s.current)
    (hNot : ∀ j < maxTtys, t ∉ queues j) :
    ({ s.setState t .new with allocated := s.allocated.erase t, removing := none } : Waiting).Sound
      queues := by
  have hMem : ∀ i < maxTtys, ∀ m ∈ queues i, m ≠ t := fun i hi m hm hEq => hNot i hi (hEq ▸ hm)
  refine h.quiet rfl (fun _ _ _ _ => rfl) (fun i hi m hm => ⟨?_, ?_⟩) rfl rfl
    (Finset.mem_erase.mpr ⟨Ne.symm hNe, h.current⟩) rfl
  · exact Finset.mem_erase.mpr ⟨hMem i hi m hm, (h.asleep i hi m hm).1⟩
  · exact (state_setState_of_ne (s := s) (hMem i hi m hm)).symm ▸ (h.asleep i hi m hm).2

theorem Waiting.Sound.removal (h : s.Sound queues) (hRemoving : s.removing = some (t, pc)) :
    ∃ queues', (removeStep s t pc).Sound queues' := by
  obtain ⟨hNe, hAt⟩ := h.removing t pc hRemoving
  have hBound := hAt.bound
  have hHere := hAt.here
  have hLinked := h.linked
  cases pc with
  | testHead i =>
    by_cases hi : i ≥ maxTtys
    · rw [removeStep, if_pos hi]
      exact ⟨queues, h.free hNe fun j hj => hAt.done j hj (hj.trans_le hi)⟩
    · have hi' : i < maxTtys := Nat.lt_of_not_le hi
      rw [removeStep, if_neg hi]
      split
      case isTrue hHead =>
        have hQueue := (hLinked i hi').head?_eq.symm.trans hHead
        exact ⟨queues,
          h.goTo hNe (hAt.sameTerminal rfl hi' (.inl (List.head?_eq_some_iff.mp hQueue)))⟩
      case isFalse hHead =>
        exact ⟨queues, h.goTo hNe (hAt.sameTerminal rfl hi' fun hEq =>
          hHead ((hLinked i hi').head?_eq.trans hEq))⟩
  | setHead i => exact h.removeHead hNe (hBound nofun) hAt.done hHere
  | loadHead i =>
    have hi : i < maxTtys := hBound nofun
    exact ⟨queues,
      h.goTo hNe (hAt.sameTerminal rfl hi (testLoop_holds_of_loadHead hHere (hLinked i hi)))⟩
  | testLoop i tw =>
    have hi : i < maxTtys := hBound nofun
    cases tw with
    | none => exact ⟨queues, h.goTo hNe (Removing.nextTerminal hAt.done hHere)⟩
    | some tw =>
      rw [removeStep]
      split
      case isTrue hNext =>
        exact ⟨queues,
          h.goTo hNe (Removing.nextTerminal hAt.done (AtWalk.not_mem hHere (hLinked i hi) hNext))⟩
      case isFalse => exact ⟨queues, h.goTo hNe (hAt.sameTerminal rfl hi hHere)⟩
  | testNext i tw =>
    have hi : i < maxTtys := hBound nofun
    rw [removeStep]
    split
    case isTrue hNext =>
      exact ⟨queues,
        h.goTo hNe (hAt.sameTerminal rfl hi (AtWalk.setNext_holds hHere (hLinked i hi) hNext))⟩
    case isFalse hNext =>
      exact ⟨queues,
        h.goTo hNe (hAt.sameTerminal rfl hi (AtWalk.advance_holds hHere (hLinked i hi) hNext))⟩
  | setNext i tw => exact h.removeBehind hNe (hBound nofun) hAt.done hHere
  | advance i tw =>
    have hi : i < maxTtys := hBound nofun
    exact ⟨queues,
      h.goTo hNe (hAt.sameTerminal rfl hi (testLoop_holds_of_advance hHere (hLinked i hi)))⟩

end Remove

theorem Waiting.Sound.step (h : s.Sound queues) {event : WaitEvent} (hEnabled : s.enabled event) :
    ∃ queues', (waitStep s event).Sound queues' := by
  cases event with
  | key c =>
    obtain ⟨queues', hSound, _⟩ := h.key c
    exact ⟨queues', hSound⟩
  | switch num => exact ⟨queues, h.switch num⟩
  | read terminal count =>
    obtain ⟨queues', hSound, _⟩ := h.read hEnabled
    exact ⟨queues', hSound⟩
  | schedule next => exact ⟨queues, h.schedule hEnabled⟩
  | blockOnProcess =>
    have hRunning := hEnabled.2
    exact ⟨queues, h.setState (.inr (by rw [hRunning]; decide)) hEnabled.1⟩
  | wakeWaiter t =>
    rw [waitStep]
    split
    case isTrue hState => exact ⟨queues, h.setState (.inr (by rw [hState]; decide)) hEnabled⟩
    case isFalse => exact ⟨queues, h⟩
  | terminate t => exact ⟨queues, h.setState (.inl rfl) hEnabled.1⟩
  | create t garbage => exact ⟨queues, h.create hEnabled⟩
  | reap t => exact ⟨queues, h.reap hEnabled⟩
  | step =>
    rw [waitStep]
    cases hRemoving : s.removing with
    | none => exact ⟨queues, h⟩
    | some at_ => exact h.removal hRemoving

end Steps

end Kryos.Thread
