import Mathlib.Data.List.FinRange
import Kryos.Process.ProcessTree

/-! File objects and the descriptor tables that point to them, as the system calls
use them. System calls run with interrupts off, so each is one step; a `sys_waitpid` that
blocks is tried again later. -/
namespace Kryos.Process

open Function ProcessTree Thread

def ebadf : Int := 9
def enomem : Int := 12
def efault : Int := 14
def einval : Int := 22

/-- A call of `kfree` by `vfs_close`, and whether the file was allocated. -/
structure Release where
  file : Nat
  wasAllocated : Bool
  deriving DecidableEq, Repr

structure World where
  tree : Tree
  /-- The `struct file` objects that `kmalloc` returned and `kfree` did not take back. -/
  allocated : Finset Nat
  releases : List Release

def World.Live (w : World) (proc : Nat) : Prop := w.tree.Live proc

instance (w : World) (proc : Nat) : Decidable (w.Live proc) :=
  inferInstanceAs (Decidable (_ ∧ _))

def World.fdTable (w : World) (proc : Nat) : Fin maxFds → Option Nat := (w.tree.procs proc).fdTable

def World.setTable (w : World) (proc : Nat) (table : Fin maxFds → Option Nat) : World :=
  { w with tree := { w.tree with
      procs := setProc w.tree.procs proc { w.tree.procs proc with fdTable := table } } }

/-- The answer of `kmalloc(sizeof(struct file))`. -/
def World.allocFile (w : World) : Option Nat → World
  | some file => { w with allocated := insert file w.allocated }
  | none => w

/-- `vfs_close`. -/
def vfsClose (w : World) (file : Nat) : World :=
  { w with
    allocated := w.allocated.erase file
    releases := w.releases ++ [⟨file, decide (file ∈ w.allocated)⟩] }

/-- The descriptor that `sys_open` takes. -/
def freeDescriptor (table : Fin maxFds → Option Nat) : Option (Fin maxFds) :=
  (List.finRange maxFds).find? (fun fd => decide (3 ≤ fd.val) && (table fd).isNone)

/-- `sys_open` after its argument checks, with the answer of `vfs_open`. -/
def sysOpen (w : World) (proc : Nat) (opened : Except Int Nat) : World × Int :=
  match freeDescriptor (w.fdTable proc) with
  | none => (w, -enomem)
  | some fd =>
    match opened with
    | .error error => (w, error)
    | .ok file =>
      ((w.allocFile (some file)).setTable proc (update (w.fdTable proc) fd (some file)), fd.val)

/-- `sys_close`. -/
def sysClose (w : World) (proc fd : Nat) : World × Int :=
  if h : fd < maxFds then
    match w.fdTable proc ⟨fd, h⟩ with
    | none => (w, -ebadf)
    | some file =>
      ((vfsClose w file).setTable proc (update (w.fdTable proc) ⟨fd, h⟩ none), 0)
  else (w, -ebadf)

def World.allocTty (w : World) (tty : Fin 3 → Option Nat) : World :=
  ((w.allocFile (tty 0)).allocFile (tty 1)).allocFile (tty 2)

/-- `kmalloc` returns no file that is still allocated. -/
def World.fresh (w : World) (answer : Option Nat) : Bool :=
  answer.all (fun file => decide (file ∉ w.allocated))

def World.freshTty (w : World) (tty : Fin 3 → Option Nat) : Bool :=
  w.fresh (tty 0) && (w.allocFile (tty 0)).fresh (tty 1) &&
  ((w.allocFile (tty 0)).allocFile (tty 1)).fresh (tty 2)

/-- `process_create` with the terminal files it allocates. -/
def World.processCreate (w : World) (current : Option Nat) (answer : CreateAnswer) :
    Option Nat × World :=
  let (proc, tree) := ProcessTree.processCreate w.tree current answer
  let w := if answer.proc = none then w else w.allocTty answer.tty
  (proc, { w with tree })

/-- `process_destroy`. The files of the process stay allocated. -/
def World.processDestroy (w : World) (proc : Nat) : World :=
  { w with tree := ProcessTree.processDestroy w.tree proc }

/-- What happens inside `sys_spawn`. `arguments` is the error of the checks before
the file is opened, `thread` whether `thread_create_user` got its memory. -/
structure SpawnOutcome where
  arguments : Option Int
  opened : Except Int Nat
  elfBuf : Bool
  created : CreateAnswer
  loaded : Bool
  thread : Bool

/-- `sys_spawn`. -/
def sysSpawn (w : World) (proc : Nat) (outcome : SpawnOutcome) : World × Int :=
  match outcome.arguments with
  | some error => (w, error)
  | none =>
    match outcome.opened with
    | .error error => (w, error)
    | .ok file =>
      let w := w.allocFile (some file)
      let w := vfsClose w file
      if !outcome.elfBuf then (w, -enomem)
      else
        match w.processCreate (some proc) outcome.created with
        | (none, w) => (w, -enomem)
        | (some child, w) =>
          if !outcome.loaded then (w.processDestroy child, -einval)
          else if !outcome.thread then (w.processDestroy child, -enomem)
          else (w.setTable child (w.fdTable proc), (w.tree.procs child).pid)

/-- A system call, with the answers of the functions it calls. -/
inductive Call where
  | openFile (proc : Nat) (opened : Except Int Nat)
  | closeFile (proc fd : Nat)
  | spawn (proc : Nat) (outcome : SpawnOutcome)
  | exit (proc : Nat) (status : Int)
  | waitpid (proc : Nat) (thread : Tid) (pid : Int) (status : StatusPtr)

def World.step (w : World) : Call → World
  | .openFile proc opened => (sysOpen w proc opened).1
  | .closeFile proc fd => (sysClose w proc fd).1
  | .spawn proc outcome => (sysSpawn w proc outcome).1
  | .exit proc status => { w with tree := (processExit w.tree proc status).2 }
  | .waitpid proc thread pid status =>
    { w with tree := (sysWaitpid w.tree proc thread pid status).2 }

/-- The world after `process_init` and the `process_create` of the first user process. -/
def boot (kernelTty initTty : Fin 3 → Option Nat) : World :=
  let w : World := ⟨processInit kernelTty, ∅, []⟩
  ((w.allocTty kernelTty).processCreate none ⟨some 1, initTty, true⟩).2

end Kryos.Process
