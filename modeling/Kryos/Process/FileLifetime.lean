import Kryos.Base.Trace
import Kryos.Process.FileTable
import Kryos.Process.ProcessForest

/-! The lifetime of file objects. Descriptor tables share file objects after
`sys_spawn`, and `sys_close` frees the object whoever else points to it. -/
namespace Kryos.ProcessTree

open Function Thread

section Links

variable {procs procs' procs'' : Nat → Proc} {proc parent node fuel : Nat} {child : Option Nat}

/-- What differs is links, waiting threads and the states of processes that ended. -/
def Keeps (procs procs' : Nat → Proc) : Prop :=
  ∀ x, (procs' x).fdTable = (procs x).fdTable ∧
    ((procs' x).state = .running → (procs x).state = .running)

theorem Keeps.refl (procs : Nat → Proc) : Keeps procs procs := fun _ => ⟨rfl, id⟩

theorem Keeps.trans (first : Keeps procs procs') (second : Keeps procs' procs'') :
    Keeps procs procs'' :=
  fun x => ⟨(second x).1.trans (first x).1, fun hState => (first x).2 ((second x).2 hState)⟩

theorem keeps_setProc {record : Proc} (hTable : record.fdTable = (procs proc).fdTable)
    (hState : record.state = .running → (procs proc).state = .running) :
    Keeps procs (setProc procs proc record) := by
  intro x
  rcases eq_or_ne x proc with rfl | hNe
  · rw [setProc_same]
    exact ⟨hTable, hState⟩
  · rw [setProc_ne _ hNe]
    exact ⟨rfl, id⟩

theorem unlinkFrom_keeps (h : unlinkFrom procs proc fuel node = some procs') :
    Keeps procs procs' := by
  induction fuel generalizing node with
  | zero => cases h
  | succ fuel ih =>
    rw [unlinkFrom] at h
    split at h
    · cases h
      exact .refl _
    · split at h
      · cases h
        exact keeps_setProc rfl id
      · exact ih h

theorem unlinkChild_keeps (h : unlinkChild procs proc parent fuel = some procs') :
    Keeps procs procs' := by
  rw [unlinkChild] at h
  split at h
  · cases h
    exact .refl _
  · split at h
    · cases h
      exact keeps_setProc rfl id
    · exact unlinkFrom_keeps h

theorem reparentLoop_keeps (h : reparentLoop parent fuel procs child = some procs') :
    Keeps procs procs' := by
  induction fuel generalizing procs child with
  | zero =>
    rw [reparentLoop] at h
    split at h
    · cases h
      exact .refl _
    · cases h
  | succ fuel ih =>
    cases child with
    | none =>
      cases h
      exact .refl _
    | some child =>
      have hAdopt : Keeps procs (adoptChild procs parent child) :=
        Keeps.trans (keeps_setProc (by rfl) (by exact id)) (keeps_setProc (by rfl) (by exact id))
      exact hAdopt.trans (ih h)

theorem processReparentChildren_keeps
    (h : processReparentChildren procs proc parent fuel = some procs') : Keeps procs procs' := by
  rw [processReparentChildren] at h
  split at h
  · cases h
  · cases h
    exact (reparentLoop_keeps ‹_›).trans (keeps_setProc rfl id)

end Links

/-- Processes ended, and no table of a live one changed. -/
def Ends (s s' : Tree) : Prop :=
  ∀ p, s'.Live p → s.Live p ∧ (s'.procs p).fdTable = (s.procs p).fdTable

section Trees

variable {s s' : Tree} {parent child p : Nat}

theorem Ends.refl (s : Tree) : Ends s s := fun _ hLive => ⟨hLive, rfl⟩

theorem Keeps.ends (h : Keeps s.procs s'.procs) (hAllocated : s'.allocated ⊆ s.allocated) :
    Ends s s' :=
  fun p hLive => ⟨⟨hAllocated hLive.1, (h p).2 hLive.2⟩, (h p).1⟩

theorem processDestroy_ends (s : Tree) (proc : Nat) : Ends s (processDestroy s proc) := by
  rw [processDestroy]
  split
  · exact .refl s
  · split
    · exact Keeps.ends (.refl _) (Finset.erase_subset ..)
    · split
      · exact Keeps.ends (.refl _) subset_rfl
      · exact Keeps.ends (unlinkChild_keeps ‹_›) (Finset.erase_subset ..)

theorem processExit_ends (s : Tree) (proc : Nat) (status : Int) :
    Ends s (processExit s proc status).2 := by
  have hMarked : Keeps s.procs
      (setProc s.procs proc { s.procs proc with exitStatus := status, state := .zombie }) :=
    keeps_setProc rfl (by simp)
  rw [processExit]
  split
  · exact .refl s
  · dsimp only
    split
    · exact Keeps.ends (.refl _) subset_rfl
    · have hMoved := hMarked.trans (processReparentChildren_keeps ‹_›)
      split
      · exact Keeps.ends hMoved subset_rfl
      · exact Keeps.ends (hMoved.trans (keeps_setProc (by rfl) (by exact id))) subset_rfl

theorem sysWaitpid_ends (s : Tree) (proc : Nat) (thread : Tid) (pid : Int) (status : StatusPtr) :
    Ends s (sysWaitpid s proc thread pid status).2 := by
  rw [sysWaitpid]
  split
  · exact .refl s
  split
  · exact .refl s
  rw [waitTurn]
  split
  · exact Keeps.ends (.refl _) subset_rfl
  · split
    · exact .refl s
    · split
      · exact processDestroy_ends s _
      · exact Keeps.ends (keeps_setProc (by rfl) (by exact id)) subset_rfl

theorem live_of_bare {procs : Nat → Proc} (hBare : (procs p).bare = (s.procs p).bare)
    (hState : (procs p).state = .running) (hMem : p ∈ s.allocated) :
    s.Live p ∧ (procs p).fdTable = (s.procs p).fdTable :=
  ⟨⟨hMem, (Proc.state_of_bare hBare).symm.trans hState⟩, Proc.fdTable_of_bare hBare⟩

theorem Created.old (h : Created s child parent s') (hLive : s'.Live p) (hNe : p ≠ child) :
    s.Live p ∧ (s'.procs p).fdTable = (s.procs p).fdTable := by
  refine live_of_bare (h.others p hNe) hLive.2 ?_
  have hMem := hLive.1
  rw [h.allocated] at hMem
  exact Finset.mem_of_mem_insert_of_ne hMem hNe

/-- A new process that is destroyed again is found at the head of the list of its parent. -/
theorem Created.destroyed (h : Created s child parent s') (hUser : child ≠ kernelProcess) :
    Ends s (processDestroy s' child) := by
  have hErased : (processDestroy s' child).allocated = s'.allocated.erase child := by
    simp only [processDestroy, if_neg hUser, h.up, unlinkChild, h.head, if_true]
  intro p hLive
  have hNe : p ≠ child := by
    have hMem := hLive.1
    rw [hErased] at hMem
    exact (Finset.mem_erase.mp hMem).1
  obtain ⟨hLive', hTable'⟩ := processDestroy_ends s' child p hLive
  obtain ⟨hOld, hTable⟩ := h.old hLive' hNe
  exact ⟨hOld, hTable'.trans hTable⟩

end Trees

end Kryos.ProcessTree

namespace Kryos.Process

open Function ProcessTree Thread Trace

/-- A call that the processes can make: the caller runs, and everything it is given by
`kmalloc` is new. -/
def World.admits (w : World) : Call → Bool
  | .openFile proc opened => decide (w.Live proc) && w.fresh opened.toOption
  | .closeFile proc _ => decide (w.Live proc)
  | .spawn proc outcome =>
    decide (w.Live proc) && w.fresh outcome.opened.toOption && w.freshTty outcome.created.tty &&
      outcome.created.proc.all
        (fun child => decide (child ≠ kernelProcess ∧ child ∉ w.tree.allocated))
  | .exit proc _ => decide (w.Live proc)
  | .waitpid proc _ _ _ => decide (w.Live proc)

/-- What the call released was allocated, and no live process points to it afterwards. -/
def World.SafeCall (w : World) (call : Call) : Prop :=
  ∃ new, (w.step call).releases = w.releases ++ new ∧
    ∀ r ∈ new, r.wasAllocated = true ∧
      ∀ proc, (w.step call).Live proc → ∀ fd, (w.step call).fdTable proc fd ≠ some r.file

/-- A file is closed through the only descriptor of a live process that refers to it. -/
def World.Unshared (w : World) : Call → Prop
  | .closeFile proc fd =>
    ∀ h : fd < maxFds, ∀ file, w.fdTable proc ⟨fd, h⟩ = some file →
      ∀ other, w.Live other → ∀ fd', (other, fd') ≠ (proc, ⟨fd, h⟩) →
        w.fdTable other fd' ≠ some file
  | _ => True

/-- No descriptor of a live process dangles. -/
def World.Sound (w : World) : Prop :=
  ∀ proc, w.Live proc → ∀ fd file, w.fdTable proc fd = some file → file ∈ w.allocated

section Steps

variable {w w' : World} {proc child : Nat}

theorem World.mem_allocFile (w : World) (answer : Option Nat) (file : Nat) :
    file ∈ (w.allocFile answer).allocated ↔ answer = some file ∨ file ∈ w.allocated := by
  cases answer <;> simp [World.allocFile, eq_comm]

theorem World.allocTty_grows (w : World) (tty : Fin 3 → Option Nat) :
    (w.allocTty tty).tree = w.tree ∧ (w.allocTty tty).releases = w.releases ∧
      w.allocated ⊆ (w.allocTty tty).allocated := by
  have hFile (v : World) (answer : Option Nat) :
      (v.allocFile answer).tree = v.tree ∧ (v.allocFile answer).releases = v.releases := by
    cases answer <;> exact ⟨rfl, rfl⟩
  refine ⟨by simp only [World.allocTty,
    (hFile _ _).1], by simp only [World.allocTty, (hFile _ _).2], fun file hMem => ?_⟩
  simp only [World.allocTty, World.mem_allocFile]
  exact .inr (.inr (.inr hMem))

theorem World.processCreate_cases (hLive : w.Live proc) {answer : CreateAnswer}
    (hNew : ∀ child ∈ answer.proc, child ≠ kernelProcess ∧ child ∉ w.tree.allocated) :
    ∃ result w', w.processCreate (some proc) answer = (result, w') ∧ w'.releases = w.releases ∧
      w.allocated ⊆ w'.allocated ∧
      ((result = none ∧ Ends w.tree w'.tree) ∨
        ∃ child, result = some child ∧ child ≠ kernelProcess ∧ child ∉ w.tree.allocated ∧
          Created w.tree child proc w'.tree) := by
  obtain ⟨_, hReleases, hAllocated⟩ := w.allocTty_grows answer.tty
  rw [World.processCreate]
  cases hProc : answer.proc with
  | none =>
    refine ⟨none, w, ?_, rfl, subset_rfl, .inl ⟨rfl, .refl _⟩⟩
    simp only [ProcessTree.processCreate, hProc, if_true]
  | some child =>
    obtain ⟨hUser, hFresh⟩ := hNew child hProc
    have hNe : child ≠ (some proc).getD kernelProcess := fun hEq => hFresh (hEq ▸ hLive.1)
    simp only [reduceCtorEq, if_false]
    cases hSpace : answer.addressSpace with
    | false =>
      refine ⟨_, _, rfl, hReleases, hAllocated, .inl ?_⟩
      simp only [ProcessTree.processCreate, hProc, hSpace, Bool.false_eq_true, if_false, true_and]
      exact fun p hLive =>
        live_of_bare (linkNew_bare_ne fun hEq => hFresh (hEq ▸ hLive.1)) hLive.2 hLive.1
    | true =>
      obtain ⟨tree, hRun, hCreated⟩ := processCreate_created hProc hSpace hNe
      rw [hRun]
      exact ⟨_, _, rfl, hReleases, hAllocated, .inr ⟨child, rfl, hUser, hFresh, hCreated⟩⟩

/-! ### Safety of each call -/

/-- Every live table of the second world is one of a live process of the first. -/
structure World.Inherits (w w' : World) : Prop where
  tables : ∀ p, w'.Live p → ∃ q, w.Live q ∧ w'.fdTable p = w.fdTable q
  allocated : w.allocated ⊆ w'.allocated

theorem World.inherits_of_ends (h : Ends w.tree w'.tree) (hAllocated : w.allocated ⊆ w'.allocated) :
    w.Inherits w' where
  tables p hLive := ⟨p, h p hLive⟩
  allocated := hAllocated

theorem World.Inherits.sound (hInherits : w.Inherits w') (hSound : w.Sound) : w'.Sound := by
  intro p hLive fd file hFile
  obtain ⟨q, hq, hTable⟩ := hInherits.tables p hLive
  rw [hTable] at hFile
  exact hInherits.allocated (hSound q hq fd file hFile)

theorem World.fdTable_setTable (w : World) (proc other : Nat) (table : Fin maxFds → Option Nat) :
    (w.setTable proc table).fdTable other = if other = proc then table else w.fdTable other := by
  change (setProc w.tree.procs proc _ other).fdTable = _
  rcases eq_or_ne other proc with rfl | hNe
  · rw [setProc_same, if_pos rfl]
  · rw [setProc_ne _ hNe, if_neg hNe, World.fdTable]

theorem World.live_setTable (w : World) (proc other : Nat) (table : Fin maxFds → Option Nat) :
    (w.setTable proc table).Live other ↔ w.Live other := by
  refine and_congr Iff.rfl ?_
  change (setProc w.tree.procs proc _ other).state = _ ↔ _
  rcases eq_or_ne other proc with rfl | hNe
  · rw [setProc_same]
  · rw [setProc_ne _ hNe]

/-- A child that was loaded shares every file of its parent. -/
theorem World.inherits_of_created (h : Created w.tree child proc w'.tree) (hLive : w.Live proc)
    (hNe : proc ≠ child) (hAllocated : w.allocated ⊆ w'.allocated) :
    w.Inherits (w'.setTable child (w'.fdTable proc)) where
  tables p hp := by
    rw [World.live_setTable] at hp
    rw [World.fdTable_setTable]
    split
    · exact ⟨proc, hLive, Proc.fdTable_of_bare (h.others proc hNe)⟩
    case isFalse hOther => exact ⟨p, h.old hp hOther⟩
  allocated := hAllocated

/-- `sys_spawn` releases the file it opened itself, and nothing else. -/
theorem World.sysSpawn_inherits (hLive : w.Live proc) {outcome : SpawnOutcome}
    (hFresh : w.fresh outcome.opened.toOption = true)
    (hNew : ∀ child ∈ outcome.created.proc, child ≠ kernelProcess ∧ child ∉ w.tree.allocated) :
    w.Inherits (sysSpawn w proc outcome).1 ∧
    ∃ new, (sysSpawn w proc outcome).1.releases = w.releases ++ new ∧
      ∀ r ∈ new, r.wasAllocated = true ∧ r.file ∉ w.allocated := by
  have hSame : w.Inherits w ∧ ∃ new, w.releases = w.releases ++ new ∧
      ∀ r ∈ new, r.wasAllocated = true ∧ r.file ∉ w.allocated :=
    ⟨World.inherits_of_ends (.refl _) subset_rfl, [], by simp, by simp⟩
  unfold sysSpawn
  cases outcome.arguments with
  | some error => exact hSame
  | none =>
    cases hOpened : outcome.opened with
    | error error => exact hSame
    | ok file =>
      have hFile : file ∉ w.allocated := by
        simpa [World.fresh, hOpened, Except.toOption] using hFresh
      dsimp only
      have hTemporary : vfsClose (w.allocFile (some file)) file =
          { w with releases := w.releases ++ [⟨file, true⟩] } := by
        simp [vfsClose, World.allocFile, hFile]
      rw [hTemporary]
      -- the rest of the call starts from a world that differs in its log only
      have hRest (w' : World) (hInherits : w.Inherits w')
          (hReleases : w'.releases = w.releases ++ [⟨file, true⟩]) :
          w.Inherits w' ∧ ∃ new, w'.releases = w.releases ++ new ∧
            ∀ r ∈ new, r.wasAllocated = true ∧ r.file ∉ w.allocated :=
        ⟨hInherits, [⟨file, true⟩], hReleases, by simp [hFile]⟩
      cases outcome.elfBuf with
      | false =>
        simp only [Bool.not_false, if_true]
        exact hRest _ (World.inherits_of_ends (.refl _) subset_rfl) rfl
      | true =>
        obtain ⟨result, w', hRun, hReleases, hAllocated, hResult⟩ :=
          @World.processCreate_cases { w with releases := w.releases ++ [⟨file, true⟩] } proc hLive
            outcome.created hNew
        rcases hResult with ⟨rfl, hEnds⟩ | ⟨child, rfl, hUser, hOwn, hCreated⟩
        · simp only [Bool.not_true, Bool.false_eq_true, if_false, hRun]
          exact hRest w' (World.inherits_of_ends hEnds hAllocated) hReleases
        · have hDestroyed : w.Inherits (w'.processDestroy child) :=
            World.inherits_of_ends (hCreated.destroyed hUser) hAllocated
          have hNe : proc ≠ child := fun hEq => hOwn (hEq ▸ hLive.1)
          simp only [Bool.not_true, Bool.false_eq_true, if_false, hRun]
          split
          · exact hRest _ hDestroyed hReleases
          · split
            · exact hRest _ hDestroyed hReleases
            · exact hRest _ (World.inherits_of_created hCreated hLive hNe hAllocated) hReleases

/-- A caller changed its own table, and the set of files changed with it. -/
theorem World.Sound.setTable {allocated : Finset Nat} {releases : List Release}
    {table : Fin maxFds → Option Nat} (hOwn : ∀ fd file, table fd = some file → file ∈ allocated)
    (hOthers : ∀ other, other ≠ proc → w.Live other →
      ∀ fd file, w.fdTable other fd = some file → file ∈ allocated) :
    (({ w with allocated := allocated, releases := releases } : World).setTable
      proc table).Sound := by
  intro other hOther fd file hFile
  rw [World.live_setTable] at hOther
  rw [World.fdTable_setTable] at hFile
  split at hFile
  · exact hOwn fd file hFile
  case isFalse hNe => exact hOthers other hNe hOther fd file hFile

theorem World.Sound.sysOpen (hSound : w.Sound) (hLive : w.Live proc) (opened : Except Int Nat) :
    (sysOpen w proc opened).1.Sound ∧ (Process.sysOpen w proc opened).1.releases = w.releases := by
  unfold Process.sysOpen
  cases freeDescriptor (w.fdTable proc) with
  | none => exact ⟨hSound, rfl⟩
  | some fd =>
    cases opened with
    | error error => exact ⟨hSound, rfl⟩
    | ok file =>
      refine ⟨World.Sound.setTable ?_ ?_, rfl⟩
      · intro fd' file' hFile
        rcases eq_or_ne fd' fd with rfl | hNe
        · rw [update_self] at hFile
          cases hFile
          exact Finset.mem_insert_self _ _
        · rw [update_of_ne hNe] at hFile
          exact Finset.mem_insert_of_mem (hSound proc hLive fd' file' hFile)
      · intro other _ hOther fd' file' hFile
        exact Finset.mem_insert_of_mem (hSound other hOther fd' file' hFile)

/-- Closing an unshared file keeps the other descriptors valid. -/
theorem World.Sound.sysClose (hSound : w.Sound) (hLive : w.Live proc) {fd : Nat}
    (hUnshared : w.Unshared (.closeFile proc fd)) : (sysClose w proc fd).1.Sound := by
  unfold Process.sysClose
  split
  · rename_i hFd
    cases hFile : w.fdTable proc ⟨fd, hFd⟩ with
    | none => exact hSound
    | some file =>
      have hOther := hUnshared hFd file hFile
      refine World.Sound.setTable ?_ ?_
      · intro fd' file' hFile'
        by_cases hEq : fd' = ⟨fd, hFd⟩
        · rw [hEq, update_self] at hFile'
          cases hFile'
        · rw [update_of_ne hEq] at hFile'
          refine Finset.mem_erase.mpr ⟨?_, hSound proc hLive fd' file' hFile'⟩
          rintro rfl
          exact hOther proc hLive fd' (by simp [hEq]) hFile'
      · intro other hNe hLive' fd' file' hFile'
        refine Finset.mem_erase.mpr ⟨?_, hSound other hLive' fd' file' hFile'⟩
        rintro rfl
        exact hOther other hLive' fd' (by simp [hNe]) hFile'
  · exact hSound

/-- A call of `sys_close` is safe exactly if the file is not shared. -/
theorem World.Sound.safe_close_iff (hSound : w.Sound) (hLive : w.Live proc) {fd : Nat} :
    w.SafeCall (.closeFile proc fd) ↔ w.Unshared (.closeFile proc fd) := by
  have hRefused : (Process.sysClose w proc fd).1 = w → w.SafeCall (.closeFile proc fd) := by
    intro hSame
    exact ⟨[], by simp [World.step, hSame], by simp⟩
  by_cases hFd : fd < maxFds
  · cases hFile : w.fdTable proc ⟨fd, hFd⟩ with
    | none =>
      refine iff_of_true (hRefused (by simp [Process.sysClose, hFd, hFile])) ?_
      intro _ file hSome
      rw [hFile] at hSome
      cases hSome
    | some file =>
      have hStep : w.step (.closeFile proc fd) =
          (vfsClose w file).setTable proc (update (w.fdTable proc) ⟨fd, hFd⟩ none) := by
        simp only [World.step, Process.sysClose, hFd, dif_pos, hFile]
      have hTable (other : Nat) (fd' : Fin maxFds) :
          (w.step (.closeFile proc fd)).fdTable other fd' =
          if (other, fd') = (proc, ⟨fd, hFd⟩) then none else w.fdTable other fd' := by
        rw [hStep, World.fdTable_setTable]
        rcases eq_or_ne other proc with rfl | hNe
        · by_cases hEq : fd' = ⟨fd, hFd⟩
          · simp [hEq]
          · simp [hEq]
        · simp [hNe, World.fdTable, vfsClose]
      have hLives (other : Nat) : (w.step (.closeFile proc fd)).Live other ↔ w.Live other := by
        rw [hStep, World.live_setTable]
        rfl
      have hReleases : (w.step (.closeFile proc fd)).releases =
          w.releases ++ [⟨file, decide (file ∈ w.allocated)⟩] := by
        rw [hStep]
        rfl
      constructor
      · rintro ⟨new, hNew, hSafe⟩ _ file' hFile'
        rw [hFile] at hFile'
        cases hFile'
        rw [hReleases, List.append_cancel_left_eq] at hNew
        subst hNew
        intro other hOther fd' hNe
        have hClear := (hSafe _ (List.mem_singleton_self _)).2 other ((hLives other).mpr hOther) fd'
        rwa [hTable, if_neg hNe] at hClear
      · intro hUnshared
        refine ⟨_, hReleases, ?_⟩
        simp only [List.mem_singleton, forall_eq, decide_eq_true_eq]
        refine ⟨hSound proc hLive _ file hFile, ?_⟩
        intro other hOther fd'
        rw [hTable]
        split
        · simp
        · rename_i hNe
          exact hUnshared hFd file hFile other ((hLives other).mp hOther) fd' hNe
  · exact iff_of_true (hRefused (by simp [Process.sysClose, hFd])) fun h => absurd h hFd

/-- From a sound world, a call is safe exactly if it closes no shared file, and then
the world stays sound. -/
theorem World.Sound.step (hSound : w.Sound) {call : Call} (hAdmitted : w.admits call = true) :
    (w.SafeCall call ↔ w.Unshared call) ∧ (w.Unshared call → (w.step call).Sound) := by
  cases call with
  | openFile proc opened =>
    simp only [World.admits, Bool.and_eq_true, decide_eq_true_eq] at hAdmitted
    obtain ⟨hNext, hReleases⟩ := hSound.sysOpen hAdmitted.1 opened
    exact ⟨iff_of_true ⟨[], by rw [List.append_nil]; exact hReleases, by simp⟩ trivial, fun _ =>
      hNext⟩
  | closeFile proc fd =>
    simp only [World.admits, decide_eq_true_eq] at hAdmitted
    exact ⟨hSound.safe_close_iff hAdmitted, hSound.sysClose hAdmitted⟩
  | spawn proc outcome =>
    simp only [World.admits, Bool.and_eq_true, decide_eq_true_eq, Option.all_eq_true] at hAdmitted
    obtain ⟨⟨⟨hLive, hFresh⟩, _⟩, hNewProc⟩ := hAdmitted
    obtain ⟨hInherits, new, hReleases, hNew⟩ := World.sysSpawn_inherits hLive hFresh hNewProc
    refine ⟨iff_of_true ⟨new, hReleases, ?_⟩ trivial, fun _ => hInherits.sound hSound⟩
    intro r hr
    refine ⟨(hNew r hr).1, ?_⟩
    intro other hOther fd hFile
    obtain ⟨q, hq, hTable⟩ := hInherits.tables other hOther
    rw [show (w.step (.spawn proc outcome)).fdTable other = _ from hTable] at hFile
    exact (hNew r hr).2 (hSound q hq fd r.file hFile)
  | exit proc status =>
    exact ⟨iff_of_true ⟨[], by simp [World.step], by simp⟩ trivial, fun _ =>
      World.Inherits.sound
        (World.inherits_of_ends (processExit_ends w.tree proc status) subset_rfl) hSound⟩
  | waitpid proc thread pid status =>
    exact ⟨iff_of_true ⟨[], by simp [World.step], by simp⟩ trivial, fun _ =>
      World.Inherits.sound
        (World.inherits_of_ends (sysWaitpid_ends w.tree proc thread pid status) subset_rfl) hSound⟩

end Steps

/-! ### Runs -/

theorem World.mem_allocTty (w : World) {tty : Fin 3 → Option Nat} {fd : Fin maxFds} {file : Nat}
    (hFile : ttyTable tty fd = some file) : file ∈ (w.allocTty tty).allocated := by
  unfold ttyTable at hFile
  split at hFile
  · rename_i hFd
    simp only [World.allocTty, World.mem_allocFile]
    match fd, hFd with
    | ⟨0, _⟩, _ => exact Or.inr (Or.inr (Or.inl hFile))
    | ⟨1, _⟩, _ => exact Or.inr (Or.inl hFile)
    | ⟨2, _⟩, _ => exact Or.inl hFile
  · cases hFile

theorem boot_sound (kernelTty initTty : Fin 3 → Option Nat) : (boot kernelTty initTty).Sound := by
  intro p hLive fd file hFile
  rcases eq_or_ne p 1 with rfl | hInit
  · exact World.mem_allocTty _ hFile
  · have hTable : (boot kernelTty initTty).fdTable p = ttyTable kernelTty := by
      have hProcs : (boot kernelTty initTty).tree.procs =
          linkNew (processInit kernelTty) kernelProcess 1 initTty := by
        simp only [boot, World.processCreate, ProcessTree.processCreate,
          World.allocTty_grows, if_true]
        rfl
      rw [World.fdTable, hProcs, Proc.fdTable_of_bare (linkNew_bare_ne hInit), processInit]
    rw [hTable] at hFile
    exact (World.allocTty_grows _ initTty).2.2 (World.mem_allocTty _ hFile)

/-- In every run from boot, no file is released while a live process points to it
and none is released twice, exactly if every `sys_close` is of a file that no
other live descriptor refers to. -/
theorem file_lifetime_safe_iff (kernelTty initTty : Fin 3 → Option Nat) {calls : List Call}
    (hAdmitted : EachStep World.step (fun w call => w.admits call = true)
      (boot kernelTty initTty) calls) :
    EachStep World.step World.SafeCall (boot kernelTty initTty) calls ↔
      EachStep World.step World.Unshared (boot kernelTty initTty) calls :=
  @eachStep_iff World Call World.step World.Sound _ _ _
    (fun _ _ hSound hAdmits => (hSound.step hAdmits).1)
    (fun _ _ hSound hAdmits => (hSound.step hAdmits).2)
    _ (boot_sound kernelTty initTty) _ hAdmitted

/-- Terminal files at three addresses. -/
def ttyAt (first : Nat) : Fin 3 → Option Nat := fun i => some (first + i)

/-- The first process starts a child. -/
def spawnChild : Call := .spawn 1 ⟨none, .ok 7, true, ⟨some 2, ttyAt 7, true⟩, true, true⟩

/-- A process opens a file of its own, closes it and exits after its child did. -/
theorem file_lifetime_safe_iff_ownFile :
    EachStep World.step (fun w call => w.admits call = true) (boot (ttyAt 1) (ttyAt 4))
      [spawnChild, .openFile 1 (.ok 10), .closeFile 1 3, .exit 2 0, .waitpid 1 1 2 .null] ∧
    (EachStep World.step World.SafeCall (boot (ttyAt 1) (ttyAt 4))
        [spawnChild, .openFile 1 (.ok 10), .closeFile 1 3, .exit 2 0, .waitpid 1 1 2 .null] ↔
      EachStep World.step World.Unshared (boot (ttyAt 1) (ttyAt 4))
        [spawnChild, .openFile 1 (.ok 10), .closeFile 1 3, .exit 2 0, .waitpid 1 1 2 .null]) :=
  ⟨by decide, file_lifetime_safe_iff (ttyAt 1) (ttyAt 4) (by decide)⟩

/-- Parent and child both close their standard input: the file is released while the
child points to it, and then a second time. -/
theorem close_in_both_releases_twice :
    let calls := [spawnChild, .closeFile 1 0, .closeFile 2 0]
    EachStep World.step (fun w call => w.admits call = true) (boot (ttyAt 1) (ttyAt 4)) calls ∧
    ¬ EachStep World.step World.SafeCall (boot (ttyAt 1) (ttyAt 4)) calls ∧
    (calls.foldl World.step (boot (ttyAt 1) (ttyAt 4))).releases =
      [⟨7, true⟩, ⟨4, true⟩, ⟨4, false⟩] := by
  refine ⟨by decide, ?_, by decide⟩
  rintro ⟨_, ⟨new, hNew, hSafe⟩, _⟩
  have hReleases : new = [⟨4, true⟩] := by
    rw [show ((boot (ttyAt 1) (ttyAt 4)).step spawnChild).releases = [⟨7, true⟩] by decide,
      show (((boot (ttyAt 1) (ttyAt 4)).step spawnChild).step (.closeFile 1 0)).releases =
        [⟨7, true⟩] ++ [⟨4, true⟩] by decide, List.append_cancel_left_eq] at hNew
    exact hNew.symm
  exact (hSafe ⟨4, true⟩ (by simp [hReleases])).2 2 (by decide) ⟨0, by decide⟩ (by decide)

end Kryos.Process
