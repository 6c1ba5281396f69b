import Mathlib.Algebra.Group.Int.Defs
import Mathlib.Algebra.Group.Nat.Defs
import Mathlib.Data.Finset.Card
import Kryos.Base.Chain
import Kryos.Thread.Scheduler

/-! The family tree of the processes in memory: parent pointers, and lists of children
linked through `next_sibling`. A process is named by its address. -/
namespace Kryos.ProcessTree

open Chain Function Thread

def maxFds : Nat := 32

/-- `process_state_t`. -/
inductive PState where
  | running
  | terminated
  | dead
  | zombie
  deriving DecidableEq, Repr

/-- `struct process` without its address space and break. -/
structure Proc where
  pid : Int
  state : PState
  fdTable : Fin maxFds → Option Nat
  parent : Option Nat
  childrenHead : Option Nat
  nextSibling : Option Nat
  exitStatus : Int
  waiter : Option Tid

/-- The address of `_kernel_process`. -/
def kernelProcess : Nat := 0

structure Tree where
  procs : Nat → Proc
  /-- The kernel process, and what `kmalloc` returned for a process and `kfree` did not
  take back. -/
  allocated : Finset Nat
  nextPid : Int
  /-- A walk along sibling pointers went through more processes than there are. -/
  hung : Bool

def setProc (procs : Nat → Proc) (p : Nat) (proc : Proc) : Nat → Proc := update procs p proc

/-- The value of an `int`. -/
def toInt32 (n : Int) : Int := (n + 2 ^ 31) % 2 ^ 32 - 2 ^ 31

/-- The process is in memory and has not exited. -/
def Tree.Live (s : Tree) (proc : Nat) : Prop := proc ∈ s.allocated ∧ (s.procs proc).state = .running

/-- The first three descriptors of a process. -/
def ttyTable (tty : Fin 3 → Option Nat) : Fin maxFds → Option Nat :=
  fun fd => if h : fd.val < 3 then tty ⟨fd, h⟩ else none

/-- `process_init`. -/
def processInit (tty : Fin 3 → Option Nat) : Tree where
  procs := fun _ => ⟨0, .running, ttyTable tty, none, none, none, 0, none⟩
  allocated := {kernelProcess}
  nextPid := 1
  hung := false

/-- What the allocators answer in `process_create`. -/
structure CreateAnswer where
  proc : Option Nat
  /-- The three terminal files. -/
  tty : Fin 3 → Option Nat
  addressSpace : Bool

/-- What `process_create` writes to the new process. -/
def newProc (s : Tree) (parent : Nat) (tty : Fin 3 → Option Nat) : Proc where
  pid := s.nextPid
  state := .running
  fdTable := ttyTable tty
  parent := some parent
  childrenHead := none
  nextSibling := (s.procs parent).childrenHead
  exitStatus := 0
  waiter := none

/-- The new process in front of the children of its parent. -/
def linkNew (s : Tree) (parent proc : Nat) (tty : Fin 3 → Option Nat) : Nat → Proc :=
  let procs := setProc s.procs proc (newProc s parent tty)
  setProc procs parent { procs parent with childrenHead := some proc }

/-- `process_create`, called by a thread of the process `current`, or before there are
threads. -/
def processCreate (s : Tree) (current : Option Nat) (answer : CreateAnswer) : Option Nat × Tree :=
  match answer.proc with
  | none => (none, s)
  | some proc =>
    let procs := linkNew s (current.getD kernelProcess) proc answer.tty
    let nextPid := toInt32 (s.nextPid + 1)
    if answer.addressSpace then
      (some proc, { s with procs, nextPid, allocated := insert proc s.allocated })
    else
      -- the process is given back, and its parent still points to it
      (none, { s with procs, nextPid })

/-- The loop of `process_destroy` at `&node->next_sibling`. -/
def unlinkFrom (procs : Nat → Proc) (proc : Nat) : Nat → Nat → Option (Nat → Proc)
  | 0, _ => none
  | fuel + 1, node =>
    match (procs node).nextSibling with
    | none => some procs
    | some sibling =>
      if sibling = proc then
        some (setProc procs node { procs node with nextSibling := (procs proc).nextSibling })
      else unlinkFrom procs proc fuel sibling

/-- The loop of `process_destroy` from `&parent->children_head` on. -/
def unlinkChild (procs : Nat → Proc) (proc parent fuel : Nat) : Option (Nat → Proc) :=
  match (procs parent).childrenHead with
  | none => some procs
  | some child =>
    if child = proc then
      some (setProc procs parent { procs parent with childrenHead := (procs proc).nextSibling })
    else unlinkFrom procs proc fuel child

def processDestroy (s : Tree) (proc : Nat) : Tree :=
  if proc = kernelProcess then s
  else
    match (s.procs proc).parent with
    | none => { s with allocated := s.allocated.erase proc }
    | some parent =>
      match unlinkChild s.procs proc parent s.allocated.card with
      | none => { s with hung := true }
      | some procs => { s with procs, allocated := s.allocated.erase proc }

/-- The body of the loop of `process_reparent_children`. -/
def adoptChild (procs : Nat → Proc) (newParent child : Nat) : Nat → Proc :=
  let procs := setProc procs child
    { procs child with parent := some newParent, nextSibling := (procs newParent).childrenHead }
  setProc procs newParent { procs newParent with childrenHead := some child }

def reparentLoop (newParent : Nat) : Nat → (Nat → Proc) → Option Nat → Option (Nat → Proc)
  | 0, procs, child => if child = none then some procs else none
  | _ + 1, procs, none => some procs
  | fuel + 1, procs, some child =>
    reparentLoop newParent fuel (adoptChild procs newParent child) (procs child).nextSibling

def processReparentChildren (procs : Nat → Proc) (proc newParent fuel : Nat) :
    Option (Nat → Proc) :=
  match reparentLoop newParent fuel procs (procs proc).childrenHead with
  | none => none
  | some procs => some (setProc procs proc { procs proc with childrenHead := none })

/-- `process_exit` up to `thread_terminate_process`: the waiting thread that is to be woken,
and the tree. -/
def processExit (s : Tree) (proc : Nat) (status : Int) : Option Tid × Tree :=
  if proc = kernelProcess then (none, s)
  else
    let procs := setProc s.procs proc { s.procs proc with exitStatus := status, state := .zombie }
    match processReparentChildren procs proc kernelProcess s.allocated.card with
    | none => (none, { s with hung := true })
    | some procs =>
      match (procs proc).parent with
      | none => (none, { s with procs })
      | some parent =>
        ((procs parent).waiter,
          { s with procs := setProc procs parent { procs parent with waiter := none } })

/-- The pointer that `sys_waitpid` stores the status to. -/
inductive StatusPtr where
  | null
  | writable
  | bad
  deriving DecidableEq, Repr

inductive WaitResult where
  | einval
  | efault
  | echild
  /-- The pid, and the status if it was stored. -/
  | reaped (pid : Int) (stored : Option Int)
  | blocks
  | hangs
  deriving DecidableEq, Repr

/-- What `waitpid` with the argument `pid` is for. -/
def Matches (pid : Int) (proc : Proc) : Prop := pid = -1 ∨ proc.pid = pid

instance (pid : Int) (proc : Proc) : Decidable (Matches pid proc) :=
  inferInstanceAs (Decidable (_ ∨ _))

/-- The inner loop of `sys_waitpid`: `has_children` and `found_zombie`. -/
def scanChildren (procs : Nat → Proc) (pid : Int) :
    Nat → Option Nat → Bool → Option (Bool × Option Nat)
  | 0, child, hasChildren => if child = none then some (hasChildren, none) else none
  | _ + 1, none, hasChildren => some (hasChildren, none)
  | fuel + 1, some child, hasChildren =>
    if Matches pid (procs child) ∧ (procs child).state = .zombie then some (true, some child)
    else
      scanChildren procs pid fuel (procs child).nextSibling
        (hasChildren || decide (Matches pid (procs child)))

def Tree.setWaiter (s : Tree) (proc : Nat) (waiter : Option Tid) : Tree :=
  { s with procs := setProc s.procs proc { s.procs proc with waiter := waiter } }

/-- One turn of the outer loop of `sys_waitpid` by a thread of `proc`, with
`thread_block_on_process` up to its call of `schedule()`. -/
def waitTurn (s : Tree) (proc : Nat) (thread : Tid) (pid : Int) (status : StatusPtr) :
    WaitResult × Tree :=
  match scanChildren s.procs pid s.allocated.card (s.procs proc).childrenHead false with
  | none => (.hangs, { s with hung := true })
  | some (hasChildren, foundZombie) =>
    if !hasChildren then (.echild, s)
    else
      match foundZombie with
      | some zombie =>
        let stored := if status = .writable then some (s.procs zombie).exitStatus else none
        (.reaped (s.procs zombie).pid stored, processDestroy s zombie)
      | none => (.blocks, s.setWaiter proc (some thread))

/-- `sys_waitpid` up to its end or to the first time it blocks. -/
def sysWaitpid (s : Tree) (proc : Nat) (thread : Tid) (pid : Int) (status : StatusPtr) :
    WaitResult × Tree :=
  if pid ≠ -1 ∧ pid ≤ 0 then (.einval, s)
  else if status = .bad then (.efault, s)
  else waitTurn s proc thread pid status

section Loops

variable {procs : Nat → Proc} {pid : Int} {l : List Nat} {child : Option Nat}
  {fuel proc parent : Nat}

/-- The pointers that the loops follow. -/
def nextOf (procs : Nat → Proc) (c : Nat) : Option Nat := (procs c).nextSibling

/-- A process without its links to children and siblings. -/
def Proc.bare (proc : Proc) : Proc := { proc with childrenHead := none, nextSibling := none }

theorem scanChildren_eq (h : Linked (nextOf procs) child l) (hFuel : l.length ≤ fuel)
    (hasChildren : Bool) :
    scanChildren procs pid fuel child hasChildren =
      some (hasChildren || l.any (fun c => decide (Matches pid (procs c))),
        l.find? (fun c => decide (Matches pid (procs c) ∧ (procs c).state = .zombie))) := by
  induction l generalizing child fuel hasChildren with
  | nil =>
    cases (h : child = none)
    cases fuel <;> simp [scanChildren]
  | cons c l ih =>
    obtain ⟨rfl, hRest⟩ := h
    obtain ⟨fuel, rfl⟩ : ∃ n, fuel = n + 1 := Nat.exists_eq_succ_of_ne_zero (by
      rw [List.length_cons] at hFuel
      omega)
    rw [scanChildren]
    by_cases hFound : Matches pid (procs c) ∧ (procs c).state = .zombie
    · simp [hFound]
    · have hLater := @ih (nextOf procs c) fuel hRest (by simpa using hFuel)
        (hasChildren || decide (Matches pid (procs c)))
      simp only [if_neg hFound, List.any_cons, List.find?_cons, decide_eq_false hFound]
      rw [← Bool.or_assoc]
      exact hLater

theorem unlinkFrom_eq {node pred : Nat} {init rest : List Nat}
    (h : Linked (nextOf procs) (some node) (init ++ pred :: proc :: rest))
    (hFuel : init.length < fuel) :
    unlinkFrom procs proc fuel node =
      some (setProc procs pred { procs pred with nextSibling := (procs proc).nextSibling }) := by
  obtain ⟨fuel, rfl⟩ : ∃ n, fuel = n + 1 := Nat.exists_eq_succ_of_ne_zero (by omega)
  induction init generalizing node fuel with
  | nil =>
    obtain ⟨hNode, hNext, _⟩ := h
    cases hNode
    have hSibling : (procs pred).nextSibling = some proc := hNext
    rw [unlinkFrom, hSibling]
    simp
  | cons b init ih =>
    have hNodup := h.nodup
    obtain ⟨hNode, hRest⟩ := h
    cases hNode
    rw [List.length_cons] at hFuel
    obtain ⟨fuel, rfl⟩ : ∃ n, fuel = n + 1 := Nat.exists_eq_succ_of_ne_zero (by omega)
    -- the next node is still before the one that is looked for
    obtain ⟨sibling, hSibling, hNe⟩ : ∃ sibling, nextOf procs b = some sibling ∧
        sibling ≠ proc := by
      cases init with
      | nil =>
        refine ⟨pred, hRest.1, fun hEq => ?_⟩
        simp [hEq] at hNodup
      | cons c init =>
        refine ⟨c, hRest.1, fun hEq => ?_⟩
        simp [hEq] at hNodup
    rw [hSibling] at hRest
    rw [unlinkFrom, show (procs b).nextSibling = some sibling from hSibling]
    simp only [if_neg hNe]
    exact ih hRest fuel (by omega)

theorem nextOf_setProc (node : Nat) (record : Proc) :
    nextOf (setProc procs node record) = update (nextOf procs) node record.nextSibling := by
  funext x
  rcases eq_or_ne x node with rfl | hNe
  · simp [nextOf, setProc]
  · simp [nextOf, setProc, update_of_ne hNe]

theorem setProc_same (node : Nat) (record : Proc) : setProc procs node record node = record :=
  update_self ..

theorem setProc_ne {node x : Nat} (record : Proc) (hNe : x ≠ node) :
    setProc procs node record x = procs x :=
  update_of_ne hNe ..

/-- `process_destroy` takes the process out of the list, wherever it stands. -/
theorem unlinkChild_spec (h : Linked (nextOf procs) (procs parent).childrenHead l) (hMem : proc ∈ l)
    (hFuel : l.length ≤ fuel) :
    ∃ procs', unlinkChild procs proc parent fuel = some procs' ∧
      Linked (nextOf procs') (procs' parent).childrenHead (l.erase proc) ∧
      (∀ x, (procs' x).bare = (procs x).bare) ∧
      (∀ x ∉ l, nextOf procs' x = nextOf procs x) ∧
      ∀ x ≠ parent, (procs' x).childrenHead = (procs x).childrenHead := by
  have hNodup := h.nodup
  obtain ⟨before, rest, hSplit⟩ := List.append_of_mem hMem
  subst hSplit
  have hErase : (before ++ proc :: rest).erase proc = before ++ rest := by
    have hNot : proc ∉ before := fun hIn =>
      (List.nodup_append.mp hNodup).2.2 proc hIn proc List.mem_cons_self rfl
    rw [List.erase_append_right _ hNot, List.erase_cons_head]
  rw [hErase]
  rcases List.eq_nil_or_concat before with rfl | ⟨init, pred, rfl⟩
  · -- the first child
    obtain ⟨hHead, hRest⟩ := h
    have hRun : unlinkChild procs proc parent fuel = some (setProc procs parent
        { procs parent with childrenHead := (procs proc).nextSibling }) := by
      rw [unlinkChild, hHead]
      simp only [if_true]
    refine ⟨_, hRun, ?_, fun x => ?_, fun x _ => ?_, fun x hx => ?_⟩
    · rw [nextOf_setProc, setProc_same]
      exact hRest.congr fun a _ => by
        rcases eq_or_ne a parent with rfl | hNe
        · rw [update_self]
          rfl
        · rw [update_of_ne hNe]
    · rcases eq_or_ne x parent with rfl | hNe
      · rw [setProc_same]
        rfl
      · rw [setProc_ne _ hNe]
    · rcases eq_or_ne x parent with rfl | hNe
      · rw [nextOf, setProc_same]
        rfl
      · rw [nextOf, setProc_ne _ hNe]
        rfl
    · rw [setProc_ne _ hx]
  · -- behind `pred`
    have hShape : (init ++ [pred]) ++ proc :: rest = init ++ pred :: proc :: rest := by simp
    rw [List.concat_eq_append, hShape] at h hNodup hFuel hMem ⊢
    obtain ⟨first, hHead, hNe⟩ :
        ∃ first, (procs parent).childrenHead = some first ∧ first ≠ proc := by
      cases init with
      | nil =>
        refine ⟨pred, h.1, fun hEq => ?_⟩
        simp [hEq] at hNodup
      | cons c init =>
        refine ⟨c, h.1, fun hEq => ?_⟩
        simp [hEq] at hNodup
    have hLoop := @unlinkFrom_eq procs fuel proc first pred init rest (hHead ▸ h) (by
      rw [List.length_append, List.length_cons] at hFuel
      omega)
    have hRun : unlinkChild procs proc parent fuel = some (setProc procs pred
        { procs pred with nextSibling := (procs proc).nextSibling }) := by
      rw [unlinkChild, hHead]
      simp only [if_neg hNe, hLoop]
    refine ⟨_, hRun, ?_, fun x => ?_, fun x hx => ?_, fun x _ => ?_⟩
    · have hSame : (setProc procs pred { procs pred with
          nextSibling := (procs proc).nextSibling } parent).childrenHead =
            (procs parent).childrenHead := by
        rcases eq_or_ne parent pred with rfl | hOther
        · rw [setProc_same]
        · rw [setProc_ne _ hOther]
      rw [nextOf_setProc, hSame, List.append_assoc]
      exact h.unlink
    · rcases eq_or_ne x pred with rfl | hOther
      · rw [setProc_same]
        rfl
      · rw [setProc_ne _ hOther]
    · have hOther : x ≠ pred := fun hEq => hx (by simp [hEq])
      rw [nextOf, setProc_ne _ hOther]
      rfl
    · rcases eq_or_ne x pred with rfl | hOther
      · rw [setProc_same]
      · rw [setProc_ne _ hOther]

section Adopt

variable {newParent c x : Nat}

theorem nextOf_adoptChild (hNe : c ≠ newParent) :
    nextOf (adoptChild procs newParent c) =
      update (nextOf procs) c (procs newParent).childrenHead := by
  rw [adoptChild, nextOf_setProc, nextOf_setProc]
  refine update_eq_self_iff.mpr ?_
  rw [update_of_ne hNe.symm, setProc_ne _ hNe.symm]
  rfl

theorem adoptChild_bare (hNe : c ≠ newParent) :
    (adoptChild procs newParent c c).bare = { (procs c).bare with parent := some newParent } := by
  rw [adoptChild, setProc_ne _ hNe, setProc_same]
  rfl

theorem adoptChild_bare_ne (hx : x ≠ c) :
    (adoptChild procs newParent c x).bare = (procs x).bare := by
  rw [adoptChild]
  rcases eq_or_ne x newParent with rfl | hOther
  · rw [setProc_same, setProc_ne _ hx]
    rfl
  · rw [setProc_ne _ hOther, setProc_ne _ hx]

theorem adoptChild_head : (adoptChild procs newParent c newParent).childrenHead = some c := by
  rw [adoptChild, setProc_same]

theorem adoptChild_head_ne (hx : x ≠ newParent) :
    (adoptChild procs newParent c x).childrenHead = (procs x).childrenHead := by
  rw [adoptChild, setProc_ne _ hx]
  rcases eq_or_ne x c with rfl | hOther
  · rw [setProc_same]
  · rw [setProc_ne _ hOther]

end Adopt

/-- `process_reparent_children` puts the children one by one in front of the list of the
new parent. -/
theorem reparentLoop_spec {newParent : Nat} {moved : List Nat}
    (hChildren : Linked (nextOf procs) child l)
    (hMoved : Linked (nextOf procs) (procs newParent).childrenHead moved)
    (hDisjoint : ∀ c ∈ l, c ∉ moved ∧ c ≠ newParent) (hFuel : l.length ≤ fuel) :
    ∃ procs', reparentLoop newParent fuel procs child = some procs' ∧
      Linked (nextOf procs') (procs' newParent).childrenHead (l.reverse ++ moved) ∧
      (∀ c ∈ l, (procs' c).bare = { (procs c).bare with parent := some newParent }) ∧
      (∀ x ∉ l, (procs' x).bare = (procs x).bare ∧ nextOf procs' x = nextOf procs x) ∧
      ∀ x ≠ newParent, (procs' x).childrenHead = (procs x).childrenHead := by
  induction l generalizing procs child moved fuel with
  | nil =>
    cases (hChildren : child = none)
    exact ⟨procs, by cases fuel <;> simp [reparentLoop], hMoved,
      fun c hc => (List.not_mem_nil hc).elim, fun x _ => ⟨rfl, rfl⟩, fun x _ => rfl⟩
  | cons c l ih =>
    have hNotIn : c ∉ l := (List.nodup_cons.mp hChildren.nodup).1
    obtain ⟨rfl, hRest⟩ := hChildren
    obtain ⟨hNotMoved, hNe⟩ := hDisjoint c List.mem_cons_self
    rw [List.length_cons] at hFuel
    obtain ⟨fuel, rfl⟩ : ∃ n, fuel = n + 1 := Nat.exists_eq_succ_of_ne_zero (by omega)
    have hNext := @nextOf_adoptChild procs newParent c hNe
    have hRest' : Linked (nextOf (adoptChild procs newParent c)) (nextOf procs c) l := by
      rw [hNext]
      exact hRest.congr fun a ha => update_of_ne (fun hEq : a = c => hNotIn (hEq ▸ ha)) ..
    have hMoved' : Linked (nextOf (adoptChild procs newParent c))
        (adoptChild procs newParent c newParent).childrenHead (c :: moved) := by
      rw [hNext, adoptChild_head]
      exact hMoved.push hNotMoved
    have hDisjoint' : ∀ a ∈ l, a ∉ c :: moved ∧ a ≠ newParent := fun a ha => by
      obtain ⟨hNot, hOther⟩ := hDisjoint a (List.mem_cons_of_mem _ ha)
      exact ⟨List.not_mem_cons_of_ne_of_not_mem (fun hEq => hNotIn (hEq ▸ ha)) hNot, hOther⟩
    obtain ⟨procs', hRun, hLinked, hIn, hOut, hHeads⟩ :=
      @ih _ _ fuel _ hRest' hMoved' hDisjoint' (by omega)
    refine ⟨procs', hRun, ?_, fun x hx => ?_, fun x hx => ?_, fun x hx => ?_⟩
    · rw [List.reverse_cons, List.append_assoc]
      exact hLinked
    · rcases List.mem_cons.mp hx with rfl | hLater
      · rw [(hOut x hNotIn).1, adoptChild_bare hNe]
      · rw [hIn x hLater, adoptChild_bare_ne fun hEq : x = c => hNotIn (hEq ▸ hLater)]
    · obtain ⟨hx', hxl⟩ := List.ne_and_not_mem_of_not_mem_cons hx
      obtain ⟨hSame, hNextSame⟩ := hOut x hxl
      refine ⟨hSame.trans (adoptChild_bare_ne hx'), hNextSame.trans ?_⟩
      rw [hNext, update_of_ne hx']
    · rw [hHeads x hx, adoptChild_head_ne hx]

theorem processReparentChildren_spec {newParent : Nat} {moved : List Nat}
    (hChildren : Linked (nextOf procs) (procs proc).childrenHead l)
    (hMoved : Linked (nextOf procs) (procs newParent).childrenHead moved)
    (hDisjoint : ∀ c ∈ l, c ∉ moved ∧ c ≠ newParent) (hNe : proc ≠ newParent)
    (hFuel : l.length ≤ fuel) :
    ∃ procs', processReparentChildren procs proc newParent fuel = some procs' ∧
      Linked (nextOf procs') (procs' newParent).childrenHead (l.reverse ++ moved) ∧
      (∀ x, (procs' x).bare = { (procs x).bare with
        parent := if x ∈ l then some newParent else (procs x).parent }) ∧
      (∀ x ∉ l, nextOf procs' x = nextOf procs x) ∧ (procs' proc).childrenHead = none ∧
      ∀ x ≠ newParent, x ≠ proc → (procs' x).childrenHead = (procs x).childrenHead := by
  obtain ⟨after, hRun, hLinked, hIn, hOut, hHeads⟩ :=
    reparentLoop_spec hChildren hMoved hDisjoint hFuel
  have hNext :
      nextOf (setProc after proc { after proc with childrenHead := none }) = nextOf after := by
    rw [nextOf_setProc]
    exact update_eq_self_iff.mpr rfl
  have hBare : ∀ x, (setProc after proc { after proc with childrenHead := none } x).bare =
      (after x).bare := fun x => by
    rcases eq_or_ne x proc with rfl | hOther
    · rw [setProc_same]
      rfl
    · rw [setProc_ne _ hOther]
  refine ⟨setProc after proc { after proc with childrenHead := none }, ?_, ?_, fun x => ?_,
    fun x hx => ?_, ?_, fun x hx hProc => ?_⟩
  · rw [processReparentChildren, hRun]
  · rw [hNext, setProc_ne _ hNe.symm]
    exact hLinked
  · rw [hBare]
    split
    · rename_i hx
      exact hIn x hx
    · rename_i hx
      exact (hOut x hx).1
  · rw [hNext]
    exact (hOut x hx).2
  · rw [setProc_same]
  · rw [setProc_ne _ hProc]
    exact hHeads x hx

end Loops

end Kryos.ProcessTree
