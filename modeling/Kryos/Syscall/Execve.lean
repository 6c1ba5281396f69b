import Kryos.Syscall.UserCopy
import Kryos.Syscall.WriteExecute

/-! `sys_execve`. The new address space is built beside the old one, and the
process switches over only when nothing can fail any more; until then neither
its memory nor its record is touched. -/
namespace Kryos.Syscall

open Memory Process

variable {k k' k₁ : Kmem} {root : Nat} {s : ExecState}

/-- The saved registers of a system call. -/
structure SyscallFrame where
  r15 : Nat
  r14 : Nat
  r13 : Nat
  r12 : Nat
  rbp : Nat
  rbx : Nat
  r11 : Nat
  rcx : Nat
  rsp : Nat
deriving DecidableEq, Repr

/-- What `sys_execve` reads and writes of a process. -/
structure ExecProcess where
  pml4 : Nat
  brkStart : Nat
  brkCurrent : Nat
  fdTable : Nat → Nat

structure ExecState where
  kmem : Kmem
  process : ExecProcess
  frame : SyscallFrame

/-- The file and the arguments, copied into the kernel heap. -/
structure Program where
  path : CString 256
  image : ElfImage
  buffer : Nat
  argv : Option KernelStrings
  envp : Option KernelStrings

/-- The arguments of the program: without an array, only its path. -/
def Program.arguments (p : Program) : List ArgString :=
  match p.argv with
  | none => [⟨p.path.1, p.path.2.1, p.path.2.2.trans (by decide)⟩]
  | some strings => strings.contents

def Program.environment (p : Program) : List ArgString :=
  match p.envp with
  | none => []
  | some strings => strings.contents

section Model

variable {kernel : Nat} {boot : Nat → Prop} (sv : Services kernel boot)

/-- Free both arrays. -/
def freeArguments (argv envp : Option KernelStrings) (k : Kmem) : Kmem :=
  freeKernelStringArray sv envp (freeKernelStringArray sv argv k)

def Program.release (p : Program) (k : Kmem) : Kmem :=
  freeArguments sv p.argv p.envp ((sv.kfree p.buffer).run k).2

/-- Open the file and read it into a buffer of 64 KiB. The result of `vfs_read`
is ignored: the size of the image is what was read. -/
def readProgram (k : Kmem) (path : CString 256) (argv envp : Option KernelStrings) :
    Except Int Program × Kmem :=
  match (sv.vfsOpen path.1).run k with
  | (.error err, k) => (.error err, freeArguments sv argv envp k)
  | (.ok file, k) =>
    match (sv.kmalloc 65536).run k with
    | (none, k) => (.error (-12), freeArguments sv argv envp ((sv.vfsClose file).run k).2)
    | (some buffer, k) =>
      let (image, k) := (sv.vfsRead file buffer 65536).run k
      (.ok ⟨path, image, buffer, argv, envp⟩, ((sv.vfsClose file).run k).2)

/-- The copies of the path and of both arrays. -/
def copyArguments (k : Kmem) (root path argv envp : Nat) :
    Except Int (CString 256 × Option KernelStrings × Option KernelStrings) × Kmem :=
  if !userRangeReadable k root path 1 then (.error (-14), k)
  else
    match copyPath k root 255 path with
    | none => (.error (-14), k)
    | some kpath =>
      match copyUserStringArray sv k root argv with
      | (.error error, k) => (.error error.errno, k)
      | (.ok kargv, k) =>
        match copyUserStringArray sv k root envp with
        | (.error error, k) => (.error error.errno, freeKernelStringArray sv kargv k)
        | (.ok kenvp, k) => (.ok (kpath, kargv, kenvp), k)

/-- The part of `sys_execve` that it shares with `sys_spawn`: copy the path and
the arguments, read the file. -/
def prepareProgram (k : Kmem) (root path argv envp : Nat) : Except Int Program × Kmem :=
  match copyArguments sv k root path argv envp with
  | (.error err, k) => (.error err, k)
  | (.ok (kpath, kargv, kenvp), k) => readProgram sv k kpath kargv kenvp

/-- The commit: the old address space is destroyed, the record, the saved
registers and CR3 are those of the new program. -/
def commitExec (s : ExecState) (k : Kmem) (root entry rsp : Nat) : Except PmmPanic ExecState :=
  match vmmDestroyAddressSpace k s.process.pml4 with
  | .error reason => .error reason
  | .ok k =>
    .ok { kmem := { k with cr3 := root }
          process := { s.process with
            pml4 := root, brkStart := 0x10000000, brkCurrent := 0x10000000 }
          frame := { s.frame with rcx := entry, rsp := rsp, r11 := 0x202 } }

/-- `sys_execve`: an error number, or success, and the state it leaves. -/
def sysExecve (s : ExecState) (path argv envp : Nat) :
    Except PmmPanic (Except Int Unit × ExecState) :=
  match prepareProgram sv s.kmem s.process.pml4 path argv envp with
  | (.error err, k) => .ok (.error err, { s with kmem := k })
  | (.ok program, k) =>
    match vmmCreateAddressSpace k with
    | (none, k) => .ok (.error (-12), { s with kmem := program.release sv k })
    | (some root, k) =>
      match elfLoadImage k root program.image program.arguments program.environment with
      | .error reason => .error reason
      | .ok (.error _, k) =>
        match vmmDestroyAddressSpace (program.release sv k) root with
        | .error reason => .error reason
        | .ok k => .ok (.error (-22), { s with kmem := k })
      | .ok (.ok (entry, rsp), k) =>
        match commitExec s (program.release sv k) root entry rsp with
        | .error reason => .error reason
        | .ok s => .ok (.ok (), s)

theorem freeArguments_works (argv envp : Option KernelStrings) (k : Kmem) :
    Works kernel boot k (freeArguments sv argv envp k) :=
  (freeKernelStringArray_works sv argv k).trans (freeKernelStringArray_works sv envp _)

theorem Program.release_works (p : Program) (k : Kmem) : Works kernel boot k (p.release sv k) :=
  ((sv.kfree p.buffer).works k).trans (freeArguments_works sv p.argv p.envp _)

theorem readProgram_works (k : Kmem) (path : CString 256) (argv envp : Option KernelStrings) :
    Works kernel boot k (readProgram sv k path argv envp).2 := by
  unfold readProgram
  have hOpen := (sv.vfsOpen path.1).works k
  generalize (sv.vfsOpen path.1).run k = opened at hOpen
  obtain ⟨err | file, k₁⟩ := opened
  · exact hOpen.trans (freeArguments_works sv argv envp k₁)
  dsimp only
  have hAlloc := (sv.kmalloc 65536).works k₁
  generalize (sv.kmalloc 65536).run k₁ = answer at hAlloc
  obtain ⟨_ | buffer, k₂⟩ := answer
  · exact ((hOpen.trans hAlloc).trans ((sv.vfsClose file).works k₂)).trans
      (freeArguments_works sv argv envp _)
  · exact ((hOpen.trans hAlloc).trans ((sv.vfsRead file buffer 65536).works k₂)).trans
      ((sv.vfsClose file).works _)

theorem copyArguments_works (k : Kmem) (root path argv envp : Nat) :
    Works kernel boot k (copyArguments sv k root path argv envp).2 := by
  unfold copyArguments
  split
  · exact Works.refl k
  cases copyPath k root 255 path with
  | none => exact Works.refl k
  | some kpath =>
    have hArgv := copyUserStringArray_works sv k root argv
    generalize copyUserStringArray sv k root argv = copied at hArgv
    obtain ⟨error | kargv, k₁⟩ := copied
    · exact hArgv
    dsimp only
    have hEnvp := copyUserStringArray_works sv k₁ root envp
    generalize copyUserStringArray sv k₁ root envp = copied at hEnvp
    obtain ⟨error | kenvp, k₂⟩ := copied
    · exact (hArgv.trans hEnvp).trans (freeKernelStringArray_works sv kargv k₂)
    · exact hArgv.trans hEnvp

theorem prepareProgram_works (k : Kmem) (root path argv envp : Nat) :
    Works kernel boot k (prepareProgram sv k root path argv envp).2 := by
  unfold prepareProgram
  have hCopy := copyArguments_works sv k root path argv envp
  generalize copyArguments sv k root path argv envp = copied at hCopy
  obtain ⟨err | ⟨kpath, kargv, kenvp⟩, k₁⟩ := copied
  · exact hCopy
  · exact hCopy.trans (readProgram_works sv k₁ kpath kargv kenvp)

end Model

section Transaction

variable {kernel : Nat} {boot live : Nat → Prop}

theorem vmmCreateAddressSpace_none (hReady : k.pmm.Ready)
    (hCreate : vmmCreateAddressSpace k = (none, k')) : k' = k := by
  unfold vmmCreateAddressSpace at hCreate
  rcases hReady.alloc with ⟨_, hFail⟩ | ⟨frame, hPos, _, _, hAlloc⟩
  · simp only [hFail, beq_self_eq_true, if_true, Prod.mk.injEq, true_and] at hCreate
    exact hCreate.symm
  · simp [hAlloc, frame_beq_zero hPos] at hCreate

theorem vmmCreateAddressSpace_cr3 (k : Kmem) : (vmmCreateAddressSpace k).2.cr3 = k.cr3 := by
  unfold vmmCreateAddressSpace
  dsimp only
  split <;> rfl

/-- A program is loaded into a new address space, beside all the others. -/
theorem load_beside (h : Spaces k kernel boot live)
    (hCreate : vmmCreateAddressSpace k = (some root, k₁)) (img : ElfImage)
    (argv envp : List ArgString) :
    ∃ result k', elfLoadImage k₁ root img argv envp = .ok (result, k') ∧ ¬ live root ∧
      Spaces k' kernel boot (fun r => live r ∨ r = root) ∧ k'.cr3 = k.cr3 ∧
      ∀ q, live q → Undisturbed k k' q := by
  obtain ⟨hSpaces, hNew, hQuiet⟩ := h.create hCreate
  have hOwn := hSpaces.others (Or.inr rfl)
  obtain ⟨result, k', hLoad, hStep⟩ :=
    (spaceStep_loaderInvariant k₁ root _).elfLoadImage img argv envp (SpaceStep.refl hOwn)
  obtain ⟨hSpaces', hQuiet'⟩ := hSpaces.step (Or.inr rfl) hStep
  have hCr3 : k₁.cr3 = k.cr3 := by
    rw [← vmmCreateAddressSpace_cr3 k, hCreate]
  refine ⟨result, k', hLoad, hNew, hSpaces', hStep.cr3.trans hCr3, fun q hq => ?_⟩
  have hNe : q ≠ root := fun hq' => hNew (hq' ▸ hq)
  exact (hQuiet q hq).trans (h.space q hq).inv (hQuiet' q (Or.inl hq) hNe)

/-- The caller is as it was: its translations, its frames with their contents,
its record, its saved registers and CR3. -/
structure Unchanged (s s' : ExecState) : Prop where
  translations : ∀ va < 2 ^ 47,
    translation s'.kmem s.process.pml4 va = translation s.kmem s.process.pml4 va
  contents : ∀ a, s.kmem.OwnFrame s.process.pml4 (a / pmmPageSize) → s'.kmem.mem a = s.kmem.mem a
  allocated : ∀ f, s.kmem.OwnFrame s.process.pml4 f → Bitmap.isSet s'.kmem.pmm.bitmap f = true
  process : s'.process = s.process
  frame : s'.frame = s.frame
  cr3 : s'.kmem.cr3 = s.kmem.cr3

theorem Unchanged.of_quiet (h : Spaces s.kmem kernel boot live) (hLive : live s.process.pml4)
    (hQuiet : Quiet s.kmem k kernel boot live) :
    Unchanged s { s with kmem := k } where
  translations := by
    intro va hva
    have hOwn := hQuiet.undisturbed _ hLive
    have hInv := (h.space _ hLive).inv
    rw [hInv.translation_eq hva, (hQuiet.spaces.space _ hLive).inv.translation_eq hva,
      hOwn.leafOf_eq hInv hva]
  contents := (hQuiet.undisturbed _ hLive).words
  allocated := (hQuiet.undisturbed _ hLive).bits
  process := rfl
  frame := rfl
  cr3 := hQuiet.cr3

/-- What a call leaves behind. After an error every address space is as it was;
after success the old space of the caller is gone and the new one is loaded. -/
structure ExecOutcome (kernel : Nat) (boot live : Nat → Prop) (s s' : ExecState)
    (result : Except Int Unit) : Prop where
  failed : ∀ err, result = .error err →
    Quiet s.kmem s'.kmem kernel boot live ∧ s' = { s with kmem := s'.kmem }
  replaced : result = .ok () →
    Spaces s'.kmem kernel boot
      (fun r => (live r ∧ r ≠ s.process.pml4) ∨ r = s'.process.pml4) ∧
    s'.kmem.cr3 = s'.process.pml4 ∧
    ∀ q, live q → q ≠ s.process.pml4 → Undisturbed s.kmem s'.kmem q

theorem ExecOutcome.of_quiet (err : Int) (h : Quiet s.kmem k kernel boot live) :
    ExecOutcome kernel boot live s { s with kmem := k } (.error err) where
  failed := fun _ _ => ⟨h, rfl⟩
  replaced := by simp

theorem discard_new (h : Spaces k kernel boot live) (hNew : ¬ live root)
    (hBeside : Spaces k₁ kernel boot (fun r => live r ∨ r = root)) (hCr3 : k₁.cr3 = k.cr3)
    (hQuiet : ∀ q, live q → Undisturbed k k₁ q) (hWorks : Works kernel boot k₁ k') :
    ∃ k'', vmmDestroyAddressSpace k' root = .ok k'' ∧ Quiet k k'' kernel boot live := by
  have hWork := hBeside.work_quiet (hWorks hBeside.half)
  obtain ⟨k'', hDestroy, hLeft, _, _, hCr3', hQuiet'⟩ := hWork.spaces.destroy (Or.inr rfl)
  have hNe {q : Nat} (hq : live q) : q ≠ root := fun hq' => hNew (hq' ▸ hq)
  refine ⟨k'', hDestroy, hLeft.of_iff ?_, hCr3'.trans (hWork.cr3.trans hCr3), fun q hq => ?_⟩
  · intro r
    constructor
    · rintro ⟨hr | hr, hOther⟩
      · exact hr
      · exact (hOther hr).elim
    · exact fun hr => ⟨Or.inl hr, hNe hr⟩
  · have hInv := (h.space q hq).inv
    have hFirst := (hQuiet q hq).trans hInv (hWork.undisturbed q (Or.inl hq))
    exact hFirst.trans hInv (hQuiet' q (Or.inl hq) (hNe hq))

/-- The commit cannot fail. -/
theorem commitExec_replaced (h : Spaces s.kmem kernel boot live) (hLive : live s.process.pml4)
    (hNew : ¬ live root) (hBeside : Spaces k₁ kernel boot (fun r => live r ∨ r = root))
    (hQuiet : ∀ q, live q → Undisturbed s.kmem k₁ q) (hWorks : Works kernel boot k₁ k')
    (entry rsp : Nat) :
    ∃ s', commitExec s k' root entry rsp = .ok s' ∧ ExecOutcome kernel boot live s s' (.ok ()) := by
  have hWork := hBeside.work_quiet (hWorks hBeside.half)
  obtain ⟨k'', hDestroy, hLeft, _, _, _, hQuiet'⟩ := hWork.spaces.destroy (Or.inl hLive)
  obtain ⟨hLoaded, hSame⟩ := hLeft.loadCr3 root
  have hRoot : root ≠ s.process.pml4 := fun hEq => hNew (hEq ▸ hLive)
  refine ⟨_, by rw [commitExec, hDestroy], by simp, fun _ => ⟨hLoaded.of_iff ?_, rfl, ?_⟩⟩
  · intro r
    constructor
    · rintro ⟨hr | hr, hOther⟩
      · exact Or.inl ⟨hr, hOther⟩
      · exact Or.inr hr
    · rintro (⟨hr, hOther⟩ | hr)
      · exact ⟨Or.inl hr, hOther⟩
      · exact ⟨Or.inr hr, fun hEq => hRoot (hr.symm.trans hEq)⟩
  · intro q hq hOther
    have hInv := (h.space q hq).inv
    have hFirst := (hQuiet q hq).trans hInv (hWork.undisturbed q (Or.inl hq))
    have hSecond := hFirst.trans hInv (hQuiet' q (Or.inl hq) hOther)
    exact hSecond.trans hInv (hSame q ⟨Or.inl hq, hOther⟩)

theorem sysExecve_outcome (sv : Services kernel boot) (h : Spaces s.kmem kernel boot live)
    (hLive : live s.process.pml4) (path argv envp : Nat) :
    ∃ result s', sysExecve sv s path argv envp = .ok (result, s') ∧
      ExecOutcome kernel boot live s s' result := by
  have hPrepare :=
    h.work_quiet (prepareProgram_works sv s.kmem s.process.pml4 path argv envp h.half)
  unfold sysExecve
  generalize prepareProgram sv s.kmem s.process.pml4 path argv envp = prepared at hPrepare
  obtain ⟨err | program, k₁⟩ := prepared
  · exact ⟨_, _, rfl, ExecOutcome.of_quiet err hPrepare⟩
  dsimp only at hPrepare ⊢
  cases hCreate : vmmCreateAddressSpace k₁ with
  | mk created k₂ =>
  cases created with
  | none =>
    obtain rfl := vmmCreateAddressSpace_none hPrepare.spaces.half.ready hCreate
    have hRelease := hPrepare.spaces.work_quiet
      (program.release_works sv k₂ hPrepare.spaces.half)
    exact ⟨_, _, rfl, ExecOutcome.of_quiet _ (hPrepare.trans h hRelease)⟩
  | some root =>
    obtain ⟨result, k₃, hLoad, hNew, hBeside, hCr3, hQuiet⟩ := load_beside hPrepare.spaces hCreate
      program.image program.arguments program.environment
    have hWorks := program.release_works sv k₃
    have hQuiet' (q : Nat) (hq : live q) : Undisturbed s.kmem k₃ q :=
      (hPrepare.undisturbed q hq).trans (h.space q hq).inv (hQuiet q hq)
    cases result with
    | error error =>
      obtain ⟨k₄, hDestroy, hKept⟩ := discard_new h hNew hBeside (hCr3.trans hPrepare.cr3)
        hQuiet' hWorks
      exact ⟨_, _, by simp only [hLoad, hDestroy], ExecOutcome.of_quiet (-22) hKept⟩
    | ok start =>
      obtain ⟨entry, rsp⟩ := start
      obtain ⟨s', hCommit, hOutcome⟩ :=
        commitExec_replaced h hLive hNew hBeside hQuiet' hWorks entry rsp
      exact ⟨_, _, by simp only [hLoad, hCommit], hOutcome⟩

/-- The call never panics, and whenever it returns an error the caller is as it
was before: whatever its arguments are, whatever the heap and the file system
answer, and wherever the frames run out. -/
theorem sysExecve_transactional (sv : Services kernel boot) {s : ExecState}
    (h : Spaces s.kmem kernel boot live) (hLive : live s.process.pml4) (path argv envp : Nat) :
    ∃ result s', sysExecve sv s path argv envp = .ok (result, s') ∧
      ∀ err, result = .error err → Unchanged s s' := by
  obtain ⟨result, s', hRun, hOutcome⟩ := sysExecve_outcome sv h hLive path argv envp
  refine ⟨result, s', hRun, fun err hErr => ?_⟩
  obtain ⟨hQuiet, hState⟩ := hOutcome.failed err hErr
  rw [hState]
  exact Unchanged.of_quiet h hLive hQuiet

end Transaction

/-- The machine after its heap got a first page. -/
def heapMachine : Kmem :=
  match mapNewPage directMapMachine 0x1000 (kernelHeapBase + 0) vmmFlagWritable with
  | .error _ => directMapMachine
  | .ok (_, k) => k

/-- The frames of the kernel image on this machine. -/
def imageFrame (f : Nat) : Prop := f < 8 ∧ f ≠ 1

theorem heapMachine_half : KernelHalf heapMachine 0x1000 imageFrame := by
  have hPage :
      (mapNewPage directMapMachine 0x1000 (kernelHeapBase + 0) vmmFlagWritable).toOption.map
      Prod.fst = some (some 0x8000) := by decide +kernel
  cases hRun : mapNewPage directMapMachine 0x1000 (kernelHeapBase + 0) vmmFlagWritable with
  | error reason =>
    rw [hRun] at hPage
    cases hPage
  | ok r =>
    obtain ⟨result, k⟩ := r
    rw [hRun] at hPage
    obtain rfl : result = some 0x8000 := Option.some.inj hPage
    have hBoot (f : Nat) (hf : imageFrame f) :
        Bitmap.isSet directMapMachine.pmm.bitmap f = true := by
      obtain ⟨hLt, _⟩ := hf
      interval_cases f <;> decide
    rw [heapMachine, hRun]
    exact KernelHalf.first directMapMachine_ready (show 0x1000 = 1 * pmmPageSize from rfl)
      (by decide) (by decide) hBoot (fun hf => hf.2 rfl) (by decide +kernel) (by decide) hRun

/-- A first process with an empty address space. -/
def firstProcess : ExecState where
  kmem := (vmmCreateAddressSpace heapMachine).2
  process := ⟨0xC000, 0x10000000, 0x10000000, fun _ => 0⟩
  frame := ⟨0, 0, 0, 0, 0, 0, 0x202, 0x400000, 0x7FFFFFFFF000⟩

theorem firstProcess_created :
    vmmCreateAddressSpace heapMachine = (some 0xC000, firstProcess.kmem) :=
  Prod.ext (by decide +kernel) rfl

theorem firstProcess_spaces :
    Spaces firstProcess.kmem 0x1000 imageFrame (fun r => False ∨ r = 0xC000) :=
  ((Spaces.none heapMachine_half).create firstProcess_created).1

/-- A heap without memory and a file system without files. -/
def emptyServices (kernel : Nat) (boot : Nat → Prop) : Services kernel boot where
  kmalloc := fun _ => ⟨fun k => (none, k), Works.refl⟩
  kfree := fun _ => ⟨fun k => ((), k), Works.refl⟩
  store := fun _ _ => ⟨fun k => ((), k), Works.refl⟩
  vfsOpen := fun _ => ⟨fun k => (.error (-2), k), Works.refl⟩
  vfsRead := fun _ _ _ => ⟨fun k => (⟨fun _ => 0, 0⟩, k), Works.refl⟩
  vfsClose := fun _ => ⟨fun k => ((), k), Works.refl⟩

/-- The string `sh`. -/
def shArgument : ArgString := ⟨[0x73, 0x68], by decide, by decide⟩

/-- The machine after the process was loaded with one argument, which lies at `0x7FFFFFFFEFFD`. -/
@[irreducible] def loadedMachine : Kmem :=
  loadedKmem (elfLoadImage firstProcess.kmem 0xC000 codeAndDataElf [shArgument] [])

theorem loadedMachine_loaded :
    elfLoadImage firstProcess.kmem 0xC000 codeAndDataElf [shArgument] [] =
      .ok (.ok (0x400000, 0x7FFFFFFFEFD0), loadedMachine) := by
  unfold loadedMachine
  exact loadedKmem_eq (by decide +kernel)

theorem loadedMachine_spaces :
    Spaces loadedMachine 0x1000 imageFrame (fun r => False ∨ r = 0xC000) := by
  obtain ⟨_, _, hLoad, _, hSpaces, _⟩ := load_beside (Spaces.none heapMachine_half)
    firstProcess_created codeAndDataElf [shArgument] []
  cases hLoad.symm.trans loadedMachine_loaded
  exact hSpaces

/-- A file with a data segment but no code at its entry point. -/
def noEntryElf : ElfImage where
  data := fun i => (elfHeader 56 1 ++ byteSegment 6 0x10).getD i 0
  size := 120

/-- A heap with one buffer, and a file system in which every file is `image`. -/
def imageServices (kernel : Nat) (boot : Nat → Prop) (image : ElfImage) : Services kernel boot :=
  { emptyServices kernel boot with
    kmalloc := fun _ => ⟨fun k => (some kernelHeapBase, k), Works.refl⟩
    vfsOpen := fun _ => ⟨fun k => (.ok 1, k), Works.refl⟩
    vfsRead := fun _ _ _ => ⟨fun k => (image, k), Works.refl⟩ }

def loadedProcess : ExecState := { firstProcess with kmem := loadedMachine }

/-- The loaded process calls `sys_execve` with its first argument. The load of the file fails
after its segment was mapped. -/
theorem sysExecve_transactional_noEntry :
    (vmmGetPhys loadedMachine 0xC000 0x400000).isSome = true ∧
    ∃ s', sysExecve (imageServices 0x1000 imageFrame noEntryElf) loadedProcess 0x7FFFFFFFEFFD 0 0 =
      .ok (.error (-22), s') ∧ Unchanged loadedProcess s' := by
  refine ⟨by decide +kernel, ?_⟩
  have hFails : (sysExecve (imageServices 0x1000 imageFrame noEntryElf) loadedProcess
      0x7FFFFFFFEFFD 0 0).toOption.map Prod.fst = some (.error (-22)) := by decide +kernel
  obtain ⟨result, s', hRun, hKept⟩ := sysExecve_transactional (s := loadedProcess)
    (imageServices 0x1000 imageFrame noEntryElf) loadedMachine_spaces (Or.inr rfl)
    0x7FFFFFFFEFFD 0 0
  rw [hRun] at hFails
  obtain rfl : result = .error (-22) := Option.some.inj hFails
  exact ⟨s', hRun, hKept _ rfl⟩

end Kryos.Syscall
