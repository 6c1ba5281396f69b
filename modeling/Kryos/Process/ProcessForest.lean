import Kryos.Process.ProcessTree

/-! The processes in memory form a tree under the kernel process, and every function that
writes the links keeps it. -/
namespace Kryos.ProcessTree

open Chain Function Thread

section Forest

variable {s : Tree} {children : Nat → List Nat} {c p proc parent : Nat}

/-- The lists of children in memory are the given ones, and the processes form a tree under
the kernel process in which an exited process has no children. -/
structure Forest (s : Tree) (children : Nat → List Nat) : Prop where
  kernel : kernelProcess ∈ s.allocated
  kernel_running : (s.procs kernelProcess).state = .running
  kernel_root : (s.procs kernelProcess).parent = none
  linked : ∀ p ∈ s.allocated, Linked (nextOf s.procs) (s.procs p).childrenHead (children p)
  outside : ∀ p ∉ s.allocated, children p = []
  member : ∀ p, ∀ c ∈ children p, c ∈ s.allocated ∧ c ≠ kernelProcess ∧ (s.procs c).parent = some p
  parent : ∀ c ∈ s.allocated, c ≠ kernelProcess → ∃ p, (s.procs c).parent = some p ∧ c ∈ children p
  zombie : ∀ p ∈ s.allocated, (s.procs p).state = .zombie → children p = []
  acyclic : ∃ rank : Nat → Nat, rank kernelProcess = 0 ∧ ∀ p, ∀ c ∈ children p, rank p < rank c
  not_hung : s.hung = false

theorem Forest.allocated_of_mem (h : Forest s children) (hMem : c ∈ children p) :
    p ∈ s.allocated := by
  by_contra hNot
  rw [h.outside p hNot] at hMem
  cases hMem

theorem Forest.length_le (h : Forest s children) (p : Nat) :
    (children p).length ≤ s.allocated.card := by
  by_cases hp : p ∈ s.allocated
  · rw [← List.toFinset_card_of_nodup (h.linked p hp).nodup]
    refine Finset.card_le_card fun c hc => ?_
    exact (h.member p c (List.mem_toFinset.mp hc)).1
  · rw [h.outside p hp]
    exact Nat.zero_le _

theorem Forest.unique_parent (h : Forest s children) {q : Nat} (hp : c ∈ children p)
    (hq : c ∈ children q) : p = q :=
  Option.some.inj ((h.member p c hp).2.2.symm.trans (h.member q c hq).2.2)

theorem Forest.not_self (h : Forest s children) (p : Nat) : p ∉ children p := fun hMem => by
  obtain ⟨rank, _, hRank⟩ := h.acyclic
  exact Nat.lt_irrefl _ (hRank p p hMem)

/-- The process is in use, and `p` is its parent. -/
def Tree.IsChild (s : Tree) (c p : Nat) : Prop := c ∈ s.allocated ∧ (s.procs c).parent = some p

theorem Forest.isChild_iff (h : Forest s children) : s.IsChild c p ↔ c ∈ children p := by
  constructor
  · rintro ⟨hIn, hUp⟩
    have hKernel : c ≠ kernelProcess := fun hSame => by
      rw [hSame, h.kernel_root] at hUp
      cases hUp
    obtain ⟨q, hPointer, hMem⟩ := h.parent c hIn hKernel
    cases hUp.symm.trans hPointer
    exact hMem
  · intro hMem
    obtain ⟨hIn, _, hUp⟩ := h.member p c hMem
    exact ⟨hIn, hUp⟩

/-- What `process_create` does. -/
structure Created (s : Tree) (proc parent : Nat) (s' : Tree) : Prop where
  allocated : s'.allocated = insert proc s.allocated
  nextPid : s'.nextPid = toInt32 (s.nextPid + 1)
  pid : (s'.procs proc).pid = s.nextPid
  state : (s'.procs proc).state = .running
  up : (s'.procs proc).parent = some parent
  others : ∀ x ≠ proc, (s'.procs x).bare = (s.procs x).bare
  next : nextOf s'.procs = update (nextOf s.procs) proc (s.procs parent).childrenHead
  head : (s'.procs parent).childrenHead = some proc
  leaf : (s'.procs proc).childrenHead = none
  heads : ∀ x ≠ proc, x ≠ parent → (s'.procs x).childrenHead = (s.procs x).childrenHead
  hung : s'.hung = s.hung

section Create

variable {tty : Fin 3 → Option Nat} {x : Nat}

theorem linkNew_self (hNe : proc ≠ parent) :
    linkNew s parent proc tty proc = newProc s parent tty := by
  rw [linkNew, setProc_ne _ hNe, setProc_same]

theorem linkNew_bare_ne (hx : x ≠ proc) :
    (linkNew s parent proc tty x).bare = (s.procs x).bare := by
  rw [linkNew]
  rcases eq_or_ne x parent with rfl | hOther
  · rw [setProc_same, setProc_ne _ hx]
    rfl
  · rw [setProc_ne _ hOther, setProc_ne _ hx]

theorem linkNew_head : (linkNew s parent proc tty parent).childrenHead = some proc := by
  rw [linkNew, setProc_same]

theorem linkNew_head_ne (hx : x ≠ proc) (hParent : x ≠ parent) :
    (linkNew s parent proc tty x).childrenHead = (s.procs x).childrenHead := by
  rw [linkNew, setProc_ne _ hParent, setProc_ne _ hx]

theorem nextOf_linkNew (hNe : proc ≠ parent) :
    nextOf (linkNew s parent proc tty) =
      update (nextOf s.procs) proc (s.procs parent).childrenHead := by
  rw [linkNew, nextOf_setProc, nextOf_setProc]
  refine update_eq_self_iff.mpr ?_
  rw [update_of_ne hNe.symm, setProc_ne _ hNe.symm]
  rfl

end Create

theorem processCreate_created {current : Option Nat} {answer : CreateAnswer}
    (hProc : answer.proc = some proc) (hSpace : answer.addressSpace = true)
    (hNe : proc ≠ current.getD kernelProcess) :
    ∃ s', processCreate s current answer = (some proc, s') ∧
      Created s proc (current.getD kernelProcess) s' := by
  generalize hEq : current.getD kernelProcess = parent at *
  have hSelf := @linkNew_self s proc parent answer.tty hNe
  refine ⟨⟨linkNew s parent proc answer.tty, insert proc s.allocated,
    toInt32 (s.nextPid + 1), s.hung⟩, ?_, ?_⟩
  · rw [processCreate, hProc, hEq, hSpace]
    rfl
  · exact
      { allocated := rfl
        nextPid := rfl
        pid := congrArg Proc.pid hSelf
        state := congrArg Proc.state hSelf
        up := congrArg Proc.parent hSelf
        others := fun x hx => linkNew_bare_ne hx
        next := nextOf_linkNew hNe
        head := linkNew_head
        leaf := congrArg Proc.childrenHead hSelf
        heads := fun x hx hParent => linkNew_head_ne hx hParent
        hung := rfl }

theorem Proc.state_of_bare {a b : Proc} (h : a.bare = b.bare) : a.state = b.state :=
  show a.bare.state = b.bare.state from congrArg Proc.state h

theorem Proc.fdTable_of_bare {a b : Proc} (h : a.bare = b.bare) : a.fdTable = b.fdTable :=
  show a.bare.fdTable = b.bare.fdTable from congrArg Proc.fdTable h

theorem Proc.parent_of_bare {a b : Proc} (h : a.bare = b.bare) : a.parent = b.parent :=
  show a.bare.parent = b.bare.parent from congrArg Proc.parent h

theorem Forest.created {s' : Tree} (h : Forest s children) (hCreated : Created s proc parent s')
    (hParent : parent ∈ s.allocated) (hRunning : (s.procs parent).state ≠ .zombie)
    (hNew : proc ∉ s.allocated) :
    Forest s' (update children parent (proc :: children parent)) := by
  have hFresh : ∀ p, proc ∉ children p := fun p hMem => hNew (h.member p proc hMem).1
  have hOld : ∀ {x}, x ∈ s.allocated → x ≠ proc := fun hx hSame => hNew (hSame ▸ hx)
  have hThere : ∀ {x}, x ∈ s'.allocated ↔ x = proc ∨ x ∈ s.allocated := by
    intro x
    rw [hCreated.allocated, Finset.mem_insert]
  have hListed : ∀ {p c}, c ∈ update children parent (proc :: children parent) p ↔
      p = parent ∧ c = proc ∨ c ∈ children p := by
    intro p c
    rcases eq_or_ne p parent with rfl | hOther
    · simp
    · simp [hOther]
  refine
    { kernel := hThere.mpr (.inr h.kernel)
      kernel_running :=
        (Proc.state_of_bare (hCreated.others _ (hOld h.kernel))).trans h.kernel_running
      kernel_root := (Proc.parent_of_bare (hCreated.others _ (hOld h.kernel))).trans h.kernel_root
      linked := fun p hp => ?_
      outside := fun p hp => ?_
      member := fun p c hc => ?_
      parent := fun c hc hKernel => ?_
      zombie := fun p hp hZombie => ?_
      acyclic := ?_
      not_hung := hCreated.hung.trans h.not_hung }
  · rcases eq_or_ne p parent with rfl | hOther
    · rw [update_self, hCreated.next, hCreated.head]
      exact (h.linked p hParent).push (hFresh p)
    · rw [update_of_ne hOther, hCreated.next]
      rcases hThere.mp hp with rfl | hp
      · rw [hCreated.leaf, h.outside p hNew]
        rfl
      · rw [hCreated.heads p (hOld hp) hOther]
        exact (h.linked p hp).congr fun a ha =>
          update_of_ne (fun hSame : a = proc => hFresh p (hSame ▸ ha)) ..
  · have hNot : p ∉ s.allocated := fun hIn => hp (hThere.mpr (.inr hIn))
    rw [update_of_ne fun hSame : p = parent => hNot (hSame ▸ hParent)]
    exact h.outside p hNot
  · rcases hListed.mp hc with ⟨rfl, rfl⟩ | hMem
    · exact ⟨hThere.mpr (.inl rfl), fun hKernel => hNew (hKernel ▸ h.kernel), hCreated.up⟩
    · obtain ⟨hIn, hKernel, hUp⟩ := h.member p c hMem
      exact ⟨hThere.mpr (.inr hIn), hKernel,
        (Proc.parent_of_bare (hCreated.others c (hOld hIn))).trans hUp⟩
  · rcases hThere.mp hc with rfl | hIn
    · exact ⟨parent, hCreated.up, hListed.mpr (.inl ⟨rfl, rfl⟩)⟩
    · obtain ⟨p, hUp, hMem⟩ := h.parent c hIn hKernel
      exact ⟨p, (Proc.parent_of_bare (hCreated.others c (hOld hIn))).trans hUp,
        hListed.mpr (.inr hMem)⟩
  · rcases hThere.mp hp with rfl | hIn
    · rw [hCreated.state] at hZombie
      cases hZombie
    · rw [Proc.state_of_bare (hCreated.others p (hOld hIn))] at hZombie
      have hOther : p ≠ parent := fun hSame => hRunning (hSame ▸ hZombie)
      rw [update_of_ne hOther]
      exact h.zombie p hIn hZombie
  · -- the new process comes below its parent
    obtain ⟨rank, hZero, hRank⟩ := h.acyclic
    refine ⟨update rank proc (rank parent + 1), ?_, fun p c hc => ?_⟩
    · rw [update_of_ne fun hSame : kernelProcess = proc => hNew (hSame ▸ h.kernel)]
      exact hZero
    · rcases hListed.mp hc with ⟨rfl, rfl⟩ | hMem
      · rw [update_self, update_of_ne (hOld hParent)]
        exact Nat.lt_succ_self _
      · rw [update_of_ne fun hSame : c = proc => hFresh p (hSame ▸ hMem),
          update_of_ne (hOld (h.allocated_of_mem hMem))]
        exact hRank p c hMem

/-- What `process_destroy` does to a process in the list of its parent. -/
structure Destroyed (s : Tree) (children : Nat → List Nat) (proc parent : Nat) (s' : Tree) :
    Prop where
  allocated : s'.allocated = s.allocated.erase proc
  nextPid : s'.nextPid = s.nextPid
  others : ∀ x, (s'.procs x).bare = (s.procs x).bare
  siblings : Linked (nextOf s'.procs) (s'.procs parent).childrenHead ((children parent).erase proc)
  next : ∀ x ∉ children parent, nextOf s'.procs x = nextOf s.procs x
  heads : ∀ x ≠ parent, (s'.procs x).childrenHead = (s.procs x).childrenHead
  hung : s'.hung = s.hung

theorem Forest.processDestroy_destroyed (h : Forest s children) (hMem : proc ∈ children parent) :
    Destroyed s children proc parent (processDestroy s proc) := by
  obtain ⟨_, hKernel, hUp⟩ := h.member parent proc hMem
  obtain ⟨procs, hRun, hSiblings, hOthers, hNext, hHeads⟩ :=
    unlinkChild_spec (h.linked parent (h.allocated_of_mem hMem)) hMem (h.length_le parent)
  rw [processDestroy, if_neg hKernel]
  simp only [hUp, hRun]
  exact ⟨rfl, rfl, hOthers, hSiblings, hNext, hHeads, rfl⟩

theorem Forest.destroyed {s' : Tree} (h : Forest s children)
    (hDestroyed : Destroyed s children proc parent s') (hMem : proc ∈ children parent)
    (hLeaf : children proc = []) :
    Forest s' (update children parent ((children parent).erase proc)) := by
  obtain ⟨hProc, hKernel, hUp⟩ := h.member parent proc hMem
  have hParent := h.allocated_of_mem hMem
  have hNodup := (h.linked parent hParent).nodup
  have hThere : ∀ {x}, x ∈ s'.allocated ↔ x ≠ proc ∧ x ∈ s.allocated := by
    intro x
    rw [hDestroyed.allocated, Finset.mem_erase]
  have hNe : parent ≠ proc := fun hSame => h.not_self proc (hSame ▸ hMem)
  -- the lists of the other processes do not contain the process
  have hErased : ∀ {p c}, c ∈ update children parent ((children parent).erase proc) p ↔
      c ≠ proc ∧ c ∈ children p := by
    intro p c
    rcases eq_or_ne p parent with rfl | hOther
    · rw [update_self, hNodup.mem_erase_iff]
    · rw [update_of_ne hOther]
      refine ⟨fun hIn => ⟨fun hSame => hOther ?_, hIn⟩, And.right⟩
      exact h.unique_parent (hSame ▸ hIn) hMem
  refine
    { kernel := hThere.mpr ⟨hKernel.symm, h.kernel⟩
      kernel_running := (Proc.state_of_bare (hDestroyed.others _)).trans h.kernel_running
      kernel_root := (Proc.parent_of_bare (hDestroyed.others _)).trans h.kernel_root
      linked := fun p hp => ?_
      outside := fun p hp => ?_
      member := fun p c hc => ?_
      parent := fun c hc hNotKernel => ?_
      zombie := fun p hp hZombie => ?_
      acyclic := ?_
      not_hung := hDestroyed.hung.trans h.not_hung }
  · rcases eq_or_ne p parent with rfl | hOther
    · rw [update_self]
      exact hDestroyed.siblings
    · rw [update_of_ne hOther, hDestroyed.heads p hOther]
      exact (h.linked p (hThere.mp hp).2).congr fun a ha =>
        hDestroyed.next a fun hIn => hOther (h.unique_parent ha hIn)
  · rcases eq_or_ne p parent with rfl | hOther
    · exact absurd (hThere.mpr ⟨hNe, hParent⟩) hp
    · rw [update_of_ne hOther]
      rcases eq_or_ne p proc with rfl | hNotProc
      · exact hLeaf
      · exact h.outside p fun hIn => hp (hThere.mpr ⟨hNotProc, hIn⟩)
  · obtain ⟨hNotProc, hIn⟩ := hErased.mp hc
    obtain ⟨hAllocated, hNotKernel, hPointer⟩ := h.member p c hIn
    exact ⟨hThere.mpr ⟨hNotProc, hAllocated⟩, hNotKernel,
      (Proc.parent_of_bare (hDestroyed.others c)).trans hPointer⟩
  · obtain ⟨hNotProc, hAllocated⟩ := hThere.mp hc
    obtain ⟨p, hPointer, hIn⟩ := h.parent c hAllocated hNotKernel
    exact ⟨p, (Proc.parent_of_bare (hDestroyed.others c)).trans hPointer,
      hErased.mpr ⟨hNotProc, hIn⟩⟩
  · rw [Proc.state_of_bare (hDestroyed.others p)] at hZombie
    have hNone := h.zombie p (hThere.mp hp).2 hZombie
    refine List.eq_nil_iff_forall_not_mem.mpr fun c hc => ?_
    have hIn := (hErased.mp hc).2
    rw [hNone] at hIn
    cases hIn
  · obtain ⟨rank, hZero, hRank⟩ := h.acyclic
    exact ⟨rank, hZero, fun p c hc => hRank p c (hErased.mp hc).2⟩

/-- What `process_exit` does before it terminates the threads. -/
structure Exited (s : Tree) (children : Nat → List Nat) (proc parent : Nat) (status : Int)
    (s' : Tree) : Prop where
  allocated : s'.allocated = s.allocated
  nextPid : s'.nextPid = s.nextPid
  pid : ∀ x, (s'.procs x).pid = (s.procs x).pid
  state : ∀ x, (s'.procs x).state = if x = proc then .zombie else (s.procs x).state
  exitStatus : ∀ x, (s'.procs x).exitStatus = if x = proc then status else (s.procs x).exitStatus
  up : ∀ x, (s'.procs x).parent =
    if x ∈ children proc then some kernelProcess else (s.procs x).parent
  waiter : ∀ x, (s'.procs x).waiter = if x = parent then none else (s.procs x).waiter
  orphans : Linked (nextOf s'.procs) (s'.procs kernelProcess).childrenHead
    ((children proc).reverse ++ children kernelProcess)
  next : ∀ x ∉ children proc, nextOf s'.procs x = nextOf s.procs x
  leaf : (s'.procs proc).childrenHead = none
  heads : ∀ x ≠ kernelProcess, x ≠ proc → (s'.procs x).childrenHead = (s.procs x).childrenHead
  hung : s'.hung = s.hung

theorem setProc_waiter (procs : Nat → Proc) (proc : Nat) (waiter : Option Tid) (x : Nat) :
    setProc procs proc { procs proc with waiter := waiter } x =
      { procs x with waiter := if x = proc then waiter else (procs x).waiter } := by
  rcases eq_or_ne x proc with rfl | hOther
  · rw [setProc_same, if_pos rfl]
  · rw [setProc_ne _ hOther, if_neg hOther]

theorem Forest.processExit_exited (h : Forest s children) (hMem : proc ∈ children parent)
    (status : Int) :
    ∃ s', processExit s proc status = ((s.procs parent).waiter, s') ∧
      Exited s children proc parent status s' := by
  obtain ⟨hProc, hKernel, hUp⟩ := h.member parent proc hMem
  let marked := setProc s.procs proc { s.procs proc with exitStatus := status, state := .zombie }
  have hMarked : ∀ x, marked x = { s.procs x with
      exitStatus := if x = proc then status else (s.procs x).exitStatus
      state := if x = proc then .zombie else (s.procs x).state } := fun x => by
    change setProc s.procs proc _ x = _
    rcases eq_or_ne x proc with rfl | hOther
    · rw [setProc_same, if_pos rfl, if_pos rfl]
    · rw [setProc_ne _ hOther, if_neg hOther, if_neg hOther]
  have hNext : nextOf marked = nextOf s.procs := funext fun x => by
    rw [nextOf, hMarked]
    rfl
  have hHead : ∀ x, (marked x).childrenHead = (s.procs x).childrenHead := fun x => by rw [hMarked]
  have hChildren : Linked (nextOf marked) (marked proc).childrenHead (children proc) := by
    rw [hNext, hHead]
    exact h.linked proc hProc
  have hKernels :
      Linked (nextOf marked) (marked kernelProcess).childrenHead (children kernelProcess) := by
    rw [hNext, hHead]
    exact h.linked kernelProcess h.kernel
  have hDisjoint : ∀ c ∈ children proc, c ∉ children kernelProcess ∧ c ≠ kernelProcess :=
    fun c hc =>
    ⟨fun hIn => hKernel (h.unique_parent hc hIn), (h.member proc c hc).2.1⟩
  obtain ⟨after, hRun, hOrphans, hBare, hSame, hLeaf, hHeads⟩ :=
    processReparentChildren_spec hChildren hKernels hDisjoint hKernel (h.length_le proc)
  have hAfterUp : (after proc).parent = some parent := by
    have hField := congrArg Proc.parent (hBare proc)
    rw [if_neg (h.not_self proc), hMarked] at hField
    exact hField.trans hUp
  have hWaiter : (after parent).waiter = (s.procs parent).waiter := by
    have hField := congrArg Proc.waiter (hBare parent)
    rw [hMarked] at hField
    exact hField
  have hLast := setProc_waiter after parent none
  have hAll : ∀ x, (setProc after parent { after parent with waiter := none } x).bare =
      { (s.procs x).bare with
        exitStatus := if x = proc then status else (s.procs x).exitStatus
        state := if x = proc then .zombie else (s.procs x).state
        parent := if x ∈ children proc then some kernelProcess else (s.procs x).parent
        waiter := if x = parent then none else (s.procs x).waiter } := fun x => by
    have hWaiters := congrArg Proc.waiter (hBare x)
    have hRest := congrArg (fun p : Proc => { p with
      waiter := if x = parent then none else (after x).waiter }) (hBare x)
    rw [hMarked] at hWaiters hRest
    rw [hLast, ← show (after x).waiter = (s.procs x).waiter from hWaiters]
    exact hRest
  have hLinks : nextOf (setProc after parent { after parent with waiter := none }) = nextOf after :=
    funext fun x => by
      rw [nextOf, hLast]
      rfl
  refine ⟨{ s with procs := setProc after parent { after parent with waiter := none } }, ?_, ?_⟩
  · have hRun' : processReparentChildren (setProc s.procs proc
        { s.procs proc with exitStatus := status, state := .zombie }) proc kernelProcess
        s.allocated.card = some after := hRun
    rw [processExit, if_neg hKernel]
    simp only [hRun', hAfterUp, hWaiter]
  · refine ⟨rfl, rfl, fun x => (congrArg Proc.pid (hAll x) :), fun x =>
      (congrArg Proc.state (hAll x) :),
      fun x => (congrArg Proc.exitStatus (hAll x) :), fun x => (congrArg Proc.parent (hAll x) :),
      fun x => (congrArg Proc.waiter (hAll x) :), ?_, fun x hx => ?_, ?_, fun x hx hNe => ?_, rfl⟩
    · simp only [hLinks, hLast]
      exact hOrphans
    · simp only [hLinks]
      rw [hSame x hx, hNext]
    · simp only [hLast]
      exact hLeaf
    · simp only [hLast]
      rw [hHeads x hx hNe, hHead]

/-- The children of an exited process are the first children of the kernel process. -/
theorem Forest.exited {s' : Tree} {status : Int} (h : Forest s children)
    (hExited : Exited s children proc parent status s') (hMem : proc ∈ children parent) :
    Forest s' (update (update children proc []) kernelProcess
      ((children proc).reverse ++ children kernelProcess)) := by
  obtain ⟨hProc, hKernel, hUp⟩ := h.member parent proc hMem
  have hThere : ∀ {x}, x ∈ s'.allocated ↔ x ∈ s.allocated := by
    rw [hExited.allocated]
  have hMoved : ∀ {p c}, c ∈ update (update children proc []) kernelProcess
      ((children proc).reverse ++ children kernelProcess) p ↔
      c ∈ children p ∧ p ≠ proc ∨ p = kernelProcess ∧ c ∈ children proc := by
    intro p c
    rcases eq_or_ne p kernelProcess with rfl | hNotKernel
    · rw [update_self, List.mem_append, List.mem_reverse]
      constructor
      · rintro (hIn | hIn)
        · exact .inr ⟨rfl, hIn⟩
        · exact .inl ⟨hIn, hKernel.symm⟩
      · rintro (⟨hIn, _⟩ | ⟨_, hIn⟩)
        · exact .inr hIn
        · exact .inl hIn
    · rcases eq_or_ne p proc with rfl | hNe
      · simp [hNotKernel]
      · simp [hNotKernel, hNe]
  have hUpSame : ∀ {p c}, c ∈ children p → p ≠ proc → (s'.procs c).parent = some p := by
    intro p c hIn hNe
    rw [hExited.up, if_neg fun hOther => hNe (h.unique_parent hIn hOther)]
    exact (h.member p c hIn).2.2
  refine
    { kernel := hThere.mpr h.kernel
      kernel_running := ?_
      kernel_root := ?_
      linked := fun p hp => ?_
      outside := fun p hp => ?_
      member := fun p c hc => ?_
      parent := fun c hc hNotKernel => ?_
      zombie := fun p hp hZombie => ?_
      acyclic := ?_
      not_hung := hExited.hung.trans h.not_hung }
  · rw [hExited.state, if_neg hKernel.symm]
    exact h.kernel_running
  · rw [hExited.up, if_neg fun hIn => (h.member proc _ hIn).2.1 rfl]
    exact h.kernel_root
  · rcases eq_or_ne p kernelProcess with rfl | hNotKernel
    · exact hExited.orphans
    · rw [update_of_ne hNotKernel]
      rcases eq_or_ne p proc with rfl | hNe
      · rw [update_self, hExited.leaf]
        rfl
      · rw [update_of_ne hNe, hExited.heads p hNotKernel hNe]
        exact (h.linked p (hThere.mp hp)).congr fun a ha =>
          hExited.next a fun hIn => hNe (h.unique_parent ha hIn)
  · have hNot : p ∉ s.allocated := fun hIn => hp (hThere.mpr hIn)
    rw [update_of_ne fun hSame : p = kernelProcess => hNot (hSame ▸ h.kernel)]
    rw [update_of_ne fun hSame : p = proc => hNot (hSame ▸ hProc)]
    exact h.outside p hNot
  · rcases hMoved.mp hc with ⟨hIn, hNe⟩ | ⟨rfl, hIn⟩
    · obtain ⟨hAllocated, hNotKernel, _⟩ := h.member p c hIn
      exact ⟨hThere.mpr hAllocated, hNotKernel, hUpSame hIn hNe⟩
    · obtain ⟨hAllocated, hNotKernel, _⟩ := h.member proc c hIn
      refine ⟨hThere.mpr hAllocated, hNotKernel, ?_⟩
      rw [hExited.up, if_pos hIn]
  · obtain ⟨p, hPointer, hIn⟩ := h.parent c (hThere.mp hc) hNotKernel
    rcases eq_or_ne p proc with rfl | hNe
    · refine ⟨kernelProcess, ?_, hMoved.mpr (.inr ⟨rfl, hIn⟩)⟩
      rw [hExited.up, if_pos hIn]
    · exact ⟨p, hUpSame hIn hNe, hMoved.mpr (.inl ⟨hIn, hNe⟩)⟩
  · refine List.eq_nil_iff_forall_not_mem.mpr fun c hc => ?_
    rw [hExited.state] at hZombie
    rcases hMoved.mp hc with ⟨hIn, hNe⟩ | ⟨rfl, _⟩
    · rw [if_neg hNe] at hZombie
      rw [h.zombie p (hThere.mp hp) hZombie] at hIn
      cases hIn
    · rw [if_neg hKernel.symm, h.kernel_running] at hZombie
      cases hZombie
  · obtain ⟨rank, hZero, hRank⟩ := h.acyclic
    refine ⟨rank, hZero, fun p c hc => ?_⟩
    rcases hMoved.mp hc with ⟨hIn, _⟩ | ⟨rfl, hIn⟩
    · exact hRank p c hIn
    · exact hZero ▸ Nat.zero_lt_of_lt (hRank proc c hIn)

theorem Forest.setWaiter (h : Forest s children) (proc : Nat) (waiter : Option Tid) :
    Forest (s.setWaiter proc waiter) children := by
  have hNext :
      nextOf (setProc s.procs proc { s.procs proc with waiter := waiter }) = nextOf s.procs :=
    funext fun x => by
      rw [nextOf, setProc_waiter]
      rfl
  exact
    { kernel := h.kernel
      kernel_running := by simpa only [Tree.setWaiter, setProc_waiter] using h.kernel_running
      kernel_root := by simpa only [Tree.setWaiter, setProc_waiter] using h.kernel_root
      linked := fun p hp => by
        simpa only [Tree.setWaiter, hNext, setProc_waiter] using h.linked p hp
      outside := h.outside
      member := fun p c hc => by simpa only [Tree.setWaiter, setProc_waiter] using h.member p c hc
      parent := fun c hc hKernel => by
        simpa only [Tree.setWaiter, setProc_waiter] using h.parent c hc hKernel
      zombie := fun p hp hZombie =>
        h.zombie p hp (by simpa only [Tree.setWaiter, setProc_waiter] using hZombie)
      acyclic := h.acyclic
      not_hung := h.not_hung }

/-- What a turn of `sys_waitpid` comes to. -/
inductive Waited (s : Tree) (children : Nat → List Nat) (proc : Nat) (thread : Tid) (pid : Int)
    (status : StatusPtr) : WaitResult × Tree → Prop where
  | echild (hNone : ∀ c ∈ children proc, ¬Matches pid (s.procs c)) :
      Waited s children proc thread pid status (.echild, s)
  | reaped {z : Nat} (hMem : z ∈ children proc) (hMatches : Matches pid (s.procs z))
      (hZombie : (s.procs z).state = .zombie) :
      Waited s children proc thread pid status
        (.reaped (s.procs z).pid (if status = .writable then some (s.procs z).exitStatus else none),
          processDestroy s z)
  | blocks {c : Nat} (hMem : c ∈ children proc) (hMatches : Matches pid (s.procs c))
      (hNone : ∀ c ∈ children proc, Matches pid (s.procs c) → (s.procs c).state ≠ .zombie) :
      Waited s children proc thread pid status
        (.blocks, s.setWaiter proc (some thread))

theorem Forest.waitTurn_waited (h : Forest s children) (hProc : proc ∈ s.allocated) (thread : Tid)
    (pid : Int) (status : StatusPtr) :
    Waited s children proc thread pid status (waitTurn s proc thread pid status) := by
  have hScan := @scanChildren_eq s.procs pid _ _ _ (h.linked proc hProc) (h.length_le proc) false
  rw [waitTurn, hScan, Bool.false_or]
  cases hFind : (children proc).find?
      (fun c => decide (Matches pid (s.procs c) ∧ (s.procs c).state = .zombie)) with
  | some z =>
    have hIn := List.mem_of_find?_eq_some hFind
    have hBoth : Matches pid (s.procs z) ∧ (s.procs z).state = .zombie := by
      simpa using List.find?_some hFind
    have hAny : (children proc).any (fun c => decide (Matches pid (s.procs c))) = true :=
      List.any_eq_true.mpr ⟨z, hIn, decide_eq_true hBoth.1⟩
    simp only [hAny]
    exact .reaped hIn hBoth.1 hBoth.2
  | none =>
    have hNone : ∀ c ∈ children proc, Matches pid (s.procs c) → (s.procs c).state ≠ .zombie :=
      fun c hc hMatches hZombie => by
        simpa [hMatches, hZombie] using List.find?_eq_none.mp hFind c hc
    cases hAny : (children proc).any (fun c => decide (Matches pid (s.procs c))) with
    | false =>
      refine .echild fun c hc hMatches => ?_
      simpa [hMatches] using List.any_eq_false.mp hAny c hc
    | true =>
      obtain ⟨c, hc, hMatches⟩ := List.any_eq_true.mp hAny
      exact .blocks hc (of_decide_eq_true hMatches) hNone

end Forest

end Kryos.ProcessTree
