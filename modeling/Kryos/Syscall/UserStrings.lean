import Kryos.Process.FileTable
import Kryos.Process.UserMemory
import Kryos.Syscall.Execve
import Kryos.Syscall.UserRange

/-! Strings that a system call takes from user memory. Four calls refuse a path
that does not fit their buffer; `sys_spawn` and `sys_execve` cut it off, and
their argument arrays end at the limit of the copying loop. -/
namespace Kryos.Syscall

open Word Memory Process LittleEndian ProcessTree

variable {n ptr addr va path root : Nat} {bytes : List UInt8} {strings : List (List UInt8)}
  {pointers : List Nat} {k' k : Kmem} {kpath : CString 256}

/-! ### What the user has in memory -/

/-- The string at an address: its bytes and the NUL behind them. -/
def UserString (k : Kmem) : Nat → List UInt8 → Prop
  | ptr, [] => readByte k ptr = 0
  | ptr, c :: rest => readByte k ptr = c ∧ c ≠ 0 ∧ UserString k (u64 (ptr + 1)) rest

/-- The strings of an array that ends with NULL. -/
def UserStrings (k : Kmem) : Nat → List (List UInt8) → Prop
  | addr, [] => readPointer k addr = 0
  | addr, s :: rest =>
    readPointer k addr ≠ 0 ∧ UserString k (readPointer k addr) s ∧
      UserStrings k (u64 (addr + 8)) rest

/-- An argument array; `none` stands for the pointer NULL. -/
def UserArray (k : Kmem) (addr : Nat) : Option (List (List UInt8)) → Prop
  | none => addr = 0
  | some strings => addr ≠ 0 ∧ UserStrings k addr strings

/-! ### The calls with a checked path -/

/-- The path copy of `sys_open`, `sys_mkdir`, `sys_unlink` and `sys_rmdir`: a path that
fills the loop is refused. -/
def copyPathChecked (k : Kmem) (root path : Nat) : Except Int (CString 256) :=
  if !userRangeReadable k root path 1 then .error (-14)
  else
    match copyPath k root 255 path with
    | none => .error (-14)
    | some kpath => if kpath.1.length = 255 then .error (-22) else .ok kpath

section PathCalls

variable {V : Type} (k : Kmem) (root path : Nat)

/-- The common body of `sys_mkdir`, `sys_unlink` and `sys_rmdir`, for a call of the VFS. -/
def pathCall (vfs : List UInt8 → V → Int × V) (fs : V) : Int × V :=
  match copyPathChecked k root path with
  | .error err => (err, fs)
  | .ok kpath =>
    let (err, fs) := vfs kpath.1 fs
    (if err < 0 then err else 0, fs)

/-- `sys_mkdir`. -/
def sysMkdir (vfsMkdir : List UInt8 → Nat → V → Int × V) (mode : Nat) : V → Int × V :=
  pathCall k root path fun kpath => vfsMkdir kpath mode

/-- `sys_unlink`. -/
def sysUnlink (vfsUnlink : List UInt8 → V → Int × V) : V → Int × V := pathCall k root path vfsUnlink

/-- `sys_rmdir`. -/
def sysRmdir (vfsRmdir : List UInt8 → V → Int × V) : V → Int × V := pathCall k root path vfsRmdir

/-- `SUPPORTED_OPEN_FLAGS`. -/
def supportedOpenFlags : Nat := 0x6C3

/-- `sys_open`: the descriptor or the error, the descriptors and the file system. -/
def sysOpenPath (vfsOpen : List UInt8 → Nat → V → Except Int Nat × V) (flags : Nat)
    (fdTable : Fin maxFds → Option Nat) (fs : V) : Int × (Fin maxFds → Option Nat) × V :=
  if flags &&& (2 ^ 64 - 1 - supportedOpenFlags) ≠ 0 then (-22, fdTable, fs)
  else
    match copyPathChecked k root path with
    | .error err => (err, fdTable, fs)
    | .ok kpath =>
      match freeDescriptor fdTable with
      | none => (-12, fdTable, fs)
      | some fd =>
        match vfsOpen kpath.1 flags fs with
        | (.error err, fs) => (err, fdTable, fs)
        | (.ok file, fs) => (fd.val, Function.update fdTable fd (some file), fs)

end PathCalls

/-! ### The calls that load a program -/

section Load

variable {kernel : Nat} {boot : Nat → Prop} (sv : Services kernel boot)

/-- What a call hands over: a path to the VFS, the argument lists to the loader. -/
inductive Handed where
  | path (bytes : List UInt8)
  | lists (argv envp : List (List UInt8))
deriving DecidableEq, Repr

/-- What `sys_spawn` and `sys_execve` hand over, in order. The two differ in how they come
to a new address space. -/
def handed (create : Kmem → Option Nat × Kmem) (k : Kmem) (root path argv envp : Nat) :
    List Handed :=
  match copyArguments sv k root path argv envp with
  | (.error _, _) => []
  | (.ok (kpath, kargv, kenvp), k) =>
    .path kpath.1 ::
      match readProgram sv k kpath kargv kenvp with
      | (.error _, _) => []
      | (.ok program, k) =>
        match create k with
        | (none, _) => []
        | (some _, _) =>
          [.lists (program.arguments.map ArgString.bytes)
            (program.environment.map ArgString.bytes)]

/-- `sizeof(struct process)`. -/
def processBytes : Nat := 328

/-- `process_create` as far as memory is concerned: the record, three files of the
terminal, and the address space. -/
def processCreateSpace (k : Kmem) : Option Nat × Kmem :=
  match (sv.kmalloc processBytes).run k with
  | (none, k) => (none, k)
  | (some record, k) =>
    let k := ((sv.kmalloc 32).run k).2
    let k := ((sv.kmalloc 32).run k).2
    let k := ((sv.kmalloc 32).run k).2
    match vmmCreateAddressSpace k with
    | (none, k) => (none, ((sv.kfree record).run k).2)
    | (some root, k) => (some root, k)

end Load

/-! ### The copying loops -/

section Loops

variable {k : Kmem} {root : Nat}

/-- The path loop copies the user's path as far as its limit. -/
theorem copyPath_eq (h : UserString k ptr bytes) {kpath : CString (n + 1)}
    (hCopy : copyPath k root n ptr = some kpath) : kpath.1 = bytes.take n := by
  induction n generalizing ptr bytes with
  | zero =>
    cases hCopy
    rfl
  | succ n ih =>
    rw [copyPath] at hCopy
    split at hCopy
    · cases hCopy
    cases bytes with
    | nil =>
      rw [UserString] at h
      rw [dif_pos h] at hCopy
      cases hCopy
      rfl
    | cons c rest =>
      obtain ⟨hByte, hNonzero, hRest⟩ := h
      rw [dif_neg (hByte ▸ hNonzero), Option.map_eq_some_iff] at hCopy
      obtain ⟨tail, hTail, rfl⟩ := hCopy
      exact congrArg₂ List.cons hByte (ih hRest hTail)

/-- The length loop over one string accepts it whole or not at all. -/
theorem scanString_eq (h : UserString k ptr bytes) {s : CString n}
    (hScan : scanString k root n ptr = .ok s) : s.1 = bytes := by
  induction n generalizing ptr bytes with
  | zero => cases hScan
  | succ n ih =>
    rw [scanString] at hScan
    split at hScan
    · cases hScan
    cases bytes with
    | nil =>
      rw [UserString] at h
      rw [dif_pos h] at hScan
      cases hScan
      rfl
    | cons c rest =>
      obtain ⟨hByte, hNonzero, hRest⟩ := h
      rw [dif_neg (hByte ▸ hNonzero)] at hScan
      rcases hTail : scanString k root n (u64 (ptr + 1)) with error | tail <;>
        rw [hTail] at hScan <;> cases hScan
      exact congrArg₂ List.cons hByte (ih hRest hTail)

/-- The counting loop stops at its limit: it takes the first strings of the array. -/
theorem scanPointers_eq (h : UserStrings k addr strings)
    (hScan : scanPointers k root n addr = .ok pointers) :
    List.Forall₂ (UserString k) pointers (strings.take n) := by
  induction n generalizing addr strings pointers with
  | zero =>
    cases hScan
    exact List.Forall₂.nil
  | succ n ih =>
    rw [scanPointers] at hScan
    split at hScan
    · cases hScan
    cases strings with
    | nil =>
      rw [if_pos (beq_iff_eq.mpr h)] at hScan
      cases hScan
      exact List.Forall₂.nil
    | cons s rest =>
      obtain ⟨hPointer, hString, hRest⟩ := h
      rw [if_neg (fun hNull => hPointer (beq_iff_eq.mp hNull))] at hScan
      rcases hTail : scanPointers k root n (u64 (addr + 8)) with error | tail <;>
        rw [hTail] at hScan <;> cases hScan
      exact List.Forall₂.cons hString (ih hRest hTail)

end Loops

/-! ### User memory while the kernel works -/

section View

variable {kernel : Nat} {boot live : Nat → Prop} {k k' : Kmem} {root : Nat}

theorem userRange_congr {page page' : Nat → Bool} (h : ∀ va < 2 ^ 47, page va = page' va)
    (addr len : Nat) : userRange page addr len = userRange page' addr len := by
  unfold userRange
  dsimp only
  split
  · rfl
  split
  · rfl
  split
  · rfl
  rw [Bool.eq_iff_iff, List.all_eq_true, List.all_eq_true]
  refine forall_congr' fun i => forall_congr' fun hi => ?_
  rw [List.mem_range] at hi
  rw [h _ (by omega)]

theorem lower_of_readable {len : Nat} (hLen : 0 < len) (hSmall : len < 2 ^ 64)
    (h : userRangeReadable k root ptr len = true) : ptr + len ≤ 2 ^ 47 := by
  unfold userRangeReadable userRange at h
  dsimp only at h
  rw [if_neg (by rw [beq_iff_eq]; omega)] at h
  split at h
  · cases h
  split at h
  · cases h
  simp only [u64] at *
  omega

/-- Kernel work does not show in what can be read of a process. -/
theorem userRangeReadable_quiet (hQuiet : Quiet k k' kernel boot live)
    (hSpaces : Spaces k kernel boot live) (hLive : live root) (addr len : Nat) :
    userRangeReadable k' root addr len = userRangeReadable k root addr len := by
  apply userRange_congr
  intro va hva
  have hInv := (hSpaces.space root hLive).inv
  rw [(hQuiet.spaces.space root hLive).inv.isUserReadable_memory hva,
    hInv.isUserReadable_memory hva, (hQuiet.undisturbed root hLive).memory_eq hInv]

theorem readByte_eq (hInv : AsInv k root) (hCr3 : vmmGetCurrentPml4 k = root) (hva : va < 2 ^ 47) :
    readByte k va = ((k.memory root).bytes va).getD 0 := by
  rw [hInv.memory_bytes hva, readByte, hCr3]
  cases vmmGetPhys k root va <;> rfl

section

variable (hQuiet : Quiet k k' kernel boot live) (hSpaces : Spaces k kernel boot live)
  (hLive : live root) (hCr3 : vmmGetCurrentPml4 k = root)

include hQuiet hSpaces hLive hCr3

theorem readByte_quiet (hva : va < 2 ^ 47) : readByte k' va = readByte k va := by
  have hInv := (hSpaces.space root hLive).inv
  have hCr3' : vmmGetCurrentPml4 k' = root := by
    rw [← hCr3, vmmGetCurrentPml4, vmmGetCurrentPml4, hQuiet.cr3]
  rw [readByte_eq (hQuiet.spaces.space root hLive).inv hCr3' hva,
    readByte_eq hInv hCr3 hva, (hQuiet.undisturbed root hLive).memory_eq hInv]

theorem scanString_quiet (n ptr : Nat) : scanString k' root n ptr = scanString k root n ptr := by
  induction n generalizing ptr with
  | zero => rfl
  | succ n ih =>
    rw [scanString, scanString, userRangeReadable_quiet hQuiet hSpaces hLive]
    cases hReadable : userRangeReadable k root ptr 1 with
    | false => rfl
    | true =>
      have hByte := readByte_quiet hQuiet hSpaces hLive hCr3
        (lower_of_readable (by decide) (by decide) hReadable)
      rw [ih]
      generalize readByte k' ptr = c at hByte
      subst hByte
      rfl

theorem scanPointers_quiet (n addr : Nat) :
    scanPointers k' root n addr = scanPointers k root n addr := by
  induction n generalizing addr with
  | zero => rfl
  | succ n ih =>
    rw [scanPointers, scanPointers, userRangeReadable_quiet hQuiet hSpaces hLive, ih]
    by_cases hReadable : userRangeReadable k root addr 8 = true
    · have hLower := lower_of_readable (by decide) (by decide) hReadable
      have hPointer : readPointer k' addr = readPointer k addr := by
        apply readLe_congr
        intro i hi
        rw [u64_of_lt (by omega)]
        exact readByte_quiet hQuiet hSpaces hLive hCr3 (by omega)
      rw [hPointer]
    · rw [Bool.not_eq_true] at hReadable
      rw [hReadable, Bool.not_false, if_pos rfl, if_pos rfl]

end

end View

/-! ### The arrays -/

section Arrays

variable {kernel : Nat} {boot live : Nat → Prop} (sv : Services kernel boot) {k₀ k : Kmem}
  {root : Nat}

/-- The copied bytes of an array; `none` stands for NULL. -/
def copiedBytes (strings : Option KernelStrings) : Option (List (List UInt8)) :=
  strings.map fun s => s.contents.map ArgString.bytes

section

variable (hSpaces : Spaces k₀ kernel boot live) (hLive : live root)
  (hCr3 : vmmGetCurrentPml4 k₀ = root)

include hSpaces hLive hCr3

/-- The copying loop hands over every string as the user had it when the call began. -/
theorem copyStrings_eq (h : List.Forall₂ (UserString k₀) pointers strings)
    {copied result : KernelStrings} (hQuiet : Quiet k₀ k kernel boot live)
    (hCopy : copyStrings sv root pointers copied k = (.ok result, k')) :
    result.contents.map ArgString.bytes = copied.contents.map ArgString.bytes ++ strings := by
  induction h generalizing copied k with
  | nil =>
    cases hCopy
    rw [List.append_nil]
  | @cons ptr s rest others hString _ ih =>
    rw [copyStrings, scanString_quiet hQuiet hSpaces hLive hCr3] at hCopy
    split at hCopy
    · cases hCopy
    rename_i bytes hScan
    have hAlloc := (sv.kmalloc (bytes.1.length + 1)).works k
    generalize (sv.kmalloc (bytes.1.length + 1)).run k = answer at hAlloc hCopy
    obtain ⟨_ | addr, k₁⟩ := answer
    · cases hCopy
    have hWork := hAlloc.trans ((sv.store addr (bytes.1 ++ [0])).works k₁)
    have hNext := hQuiet.trans hSpaces
      (hQuiet.spaces.work_quiet (hWork hQuiet.spaces.half))
    rw [ih hNext hCopy]
    simp only [KernelStrings.contents, List.map_append, List.map_cons, List.map_nil,
      List.append_assoc, List.singleton_append, scanString_eq hString hScan]

/-- `copy_user_string_array` takes the first 32 strings. -/
theorem copyUserStringArray_eq {strings : Option (List (List UInt8))}
    (h : UserArray k₀ addr strings) {result : Option KernelStrings}
    (hQuiet : Quiet k₀ k kernel boot live)
    (hCopy : copyUserStringArray sv k root addr = (.ok result, k')) :
    copiedBytes result = strings.map (List.take 32) := by
  unfold copyUserStringArray at hCopy
  cases strings with
  | none =>
    rw [if_pos (beq_iff_eq.mpr h)] at hCopy
    cases hCopy
    rfl
  | some strings =>
    obtain ⟨hArray, hStrings⟩ := h
    rw [if_neg (fun hNull => hArray (beq_iff_eq.mp hNull)),
      scanPointers_quiet hQuiet hSpaces hLive hCr3] at hCopy
    split at hCopy
    · cases hCopy
    rename_i pointers hScan
    have hAlloc := (sv.kmalloc (8 * (pointers.length + 1))).works k
    generalize (sv.kmalloc (8 * (pointers.length + 1))).run k = answer at hAlloc hCopy
    obtain ⟨_ | array, k₁⟩ := answer
    · cases hCopy
    dsimp only at hAlloc hCopy
    have hNext := hQuiet.trans hSpaces
      (hQuiet.spaces.work_quiet (hAlloc hQuiet.spaces.half))
    generalize hStringsRun : copyStrings sv root pointers ⟨array, []⟩ k₁ = copied at hCopy
    obtain ⟨error | copied, k₂⟩ := copied
    · cases hCopy
    cases hCopy
    have hCopied := copyStrings_eq sv hSpaces hLive hCr3 (scanPointers_eq hStrings hScan) hNext
      hStringsRun
    rw [copiedBytes, Option.map_some, hCopied]
    rfl

/-- The copies that reach the VFS and the loader. -/
theorem copyArguments_eq {argv envp : Nat} {args env : Option (List (List UInt8))}
    (hPath : UserString k₀ path bytes) (hArgv : UserArray k₀ argv args)
    (hEnvp : UserArray k₀ envp env) {kargv kenvp : Option KernelStrings}
    (hCopy : copyArguments sv k₀ root path argv envp = (.ok (kpath, kargv, kenvp), k')) :
    kpath.1 = bytes.take 255 ∧ copiedBytes kargv = args.map (List.take 32) ∧
      copiedBytes kenvp = env.map (List.take 32) := by
  unfold copyArguments at hCopy
  split at hCopy
  · cases hCopy
  split at hCopy
  · cases hCopy
  rename_i copied hCopyPath
  have hStart : Quiet k₀ k₀ kernel boot live :=
    hSpaces.work_quiet Relation.ReflTransGen.refl
  have hFirst := hSpaces.work_quiet (copyUserStringArray_works sv k₀ root argv hSpaces.half)
  generalize hRun : copyUserStringArray sv k₀ root argv = first at hCopy hFirst
  obtain ⟨error | first, k₁⟩ := first
  · cases hCopy
  dsimp only at hCopy hFirst
  generalize hRun' : copyUserStringArray sv k₁ root envp = second at hCopy
  obtain ⟨error | second, k₂⟩ := second
  · cases hCopy
  cases hCopy
  exact ⟨copyPath_eq hPath hCopyPath,
    copyUserStringArray_eq sv hSpaces hLive hCr3 hArgv hStart hRun,
    copyUserStringArray_eq sv hSpaces hLive hCr3 hEnvp hFirst hRun'⟩

end

end Arrays

/-! ### Whole or not at all -/

/-- What was handed over is what the user has. Without an array the only argument is the
path. -/
def Handed.Whole (bytes : List UInt8) (args env : Option (List (List UInt8))) : Handed → Prop
  | .path given => given = bytes
  | .lists argv envp => argv = args.getD [bytes] ∧ envp = env.getD []

/-- Nothing that was handed over is longer than the limits of the copying loops: 255 bytes
of path once the VFS is called, 32 strings once the loader is called. -/
def WithinLimits (bytes : List UInt8) (args env : Option (List (List UInt8)))
    (calls : List Handed) : Prop :=
  (calls ≠ [] → bytes.length ≤ 255) ∧
    (calls.length = 2 → (args.getD []).length ≤ 32 ∧ (env.getD []).length ≤ 32)

section Checked

variable {k : Kmem} {root path : Nat} {bytes : List UInt8}

theorem copyPathChecked_eq (h : UserString k path bytes)
    (hCopy : copyPathChecked k root path = .ok kpath) : kpath.1 = bytes := by
  unfold copyPathChecked at hCopy
  split at hCopy
  · cases hCopy
  split at hCopy
  · cases hCopy
  rename_i copied hPath
  split at hCopy
  · cases hCopy
  · rename_i hShort
    cases hCopy
    -- a copy that did not fill the loop was not cut off
    have hTake := copyPath_eq h hPath
    rw [hTake, List.length_take] at hShort
    rw [hTake, List.take_of_length_le (by omega)]

theorem copyPathChecked_error {err : Int} (h : copyPathChecked k root path = .error err) :
    err < 0 := by
  unfold copyPathChecked at h
  split at h
  · cases h
    decide
  cases hPath : copyPath k root 255 path with
  | none =>
    rw [hPath] at h
    cases h
    decide
  | some copied =>
    rw [hPath] at h
    dsimp only at h
    split at h
    · cases h
      decide
    · cases h

/-- What `sys_mkdir`, `sys_unlink` and `sys_rmdir` make of the answer of the VFS. -/
def pathAnswer {V : Type} (answer : Int × V) : Int × V :=
  (if answer.1 < 0 then answer.1 else 0, answer.2)

/-- What `sys_open` makes of it. -/
def openAnswer {V : Type} (fdTable : Fin maxFds → Option Nat) (fd : Fin maxFds) :
    Except Int Nat × V → Int × (Fin maxFds → Option Nat) × V
  | (.error err, fs) => (err, fdTable, fs)
  | (.ok file, fs) => (fd.val, Function.update fdTable fd (some file), fs)

/-- The call fails with the same error whatever the VFS is, so before it is called, or it
is the answer of the VFS for the user's path. -/
theorem pathCall_whole (h : UserString k path bytes) :
    (∃ err < 0, ∀ (V : Type) (vfs : List UInt8 → V → Int × V) (fs : V),
      pathCall k root path vfs fs = (err, fs)) ∨
    ∀ (V : Type) (vfs : List UInt8 → V → Int × V) (fs : V),
      pathCall k root path vfs fs = pathAnswer (vfs bytes fs) := by
  unfold pathCall
  cases hCopy : copyPathChecked k root path with
  | error err => exact Or.inl ⟨err, copyPathChecked_error hCopy, fun _ _ _ => rfl⟩
  | ok kpath =>
    refine Or.inr fun V vfs fs => ?_
    dsimp only
    rw [copyPathChecked_eq h hCopy]
    rfl

theorem sysOpenPath_whole (h : UserString k path bytes) (flags : Nat)
    (fdTable : Fin maxFds → Option Nat) :
    (∃ err < 0, ∀ (V : Type) (vfs : List UInt8 → Nat → V → Except Int Nat × V) (fs : V),
      sysOpenPath k root path vfs flags fdTable fs = (err, fdTable, fs)) ∨
    ∃ fd, ∀ (V : Type) (vfs : List UInt8 → Nat → V → Except Int Nat × V) (fs : V),
      sysOpenPath k root path vfs flags fdTable fs =
        openAnswer fdTable fd (vfs bytes flags fs) := by
  unfold sysOpenPath
  by_cases hFlags : flags &&& (2 ^ 64 - 1 - supportedOpenFlags) ≠ 0
  · exact Or.inl ⟨-22, by decide, fun _ _ _ => if_pos hFlags⟩
  simp only [if_neg hFlags]
  cases hCopy : copyPathChecked k root path with
  | error err => exact Or.inl ⟨err, copyPathChecked_error hCopy, fun _ _ _ => rfl⟩
  | ok kpath =>
    cases freeDescriptor fdTable with
    | none => exact Or.inl ⟨-12, by decide, fun _ _ _ => rfl⟩
    | some fd =>
      refine Or.inr ⟨fd, fun V vfs fs => ?_⟩
      dsimp only
      rw [copyPathChecked_eq h hCopy]
      rcases vfs bytes flags fs with ⟨err | file, fs'⟩ <;> rfl

end Checked

section Whole

variable {kernel : Nat} {boot live : Nat → Prop} (sv : Services kernel boot)

theorem readProgram_ok {path : CString 256} {argv envp : Option KernelStrings} {program : Program}
    (h : readProgram sv k path argv envp = (.ok program, k')) :
    program.path = path ∧ program.argv = argv ∧ program.envp = envp ∧
      ∃ k file k', (sv.vfsOpen path.1).run k = (.ok file, k') := by
  unfold readProgram at h
  cases hOpen : (sv.vfsOpen path.1).run k with
  | mk opened k₁ =>
  rw [hOpen] at h
  obtain err | file := opened
  · cases h
  dsimp only at h
  generalize (sv.kmalloc 65536).run k₁ = answer at h
  obtain ⟨_ | buffer, k₂⟩ := answer
  · cases h
  · cases h
    exact ⟨rfl, rfl, rfl, k, file, k₁, hOpen⟩

theorem Program.arguments_bytes (p : Program) :
    p.arguments.map ArgString.bytes = (copiedBytes p.argv).getD [p.path.1] := by
  obtain ⟨path, image, buffer, argv, envp⟩ := p
  cases argv <;> rfl

theorem Program.environment_bytes (p : Program) :
    p.environment.map ArgString.bytes = (copiedBytes p.envp).getD [] := by
  obtain ⟨path, image, buffer, argv, envp⟩ := p
  cases envp <;> rfl

/-- A list handed over is whole exactly if it was within the limit. -/
theorem taken_iff (strings : Option (List (List UInt8))) (default : List (List UInt8)) :
    (strings.map (List.take 32)).getD default = strings.getD default ↔
      (strings.getD []).length ≤ 32 := by
  cases strings with
  | none => simp
  | some strings =>
    exact List.take_eq_self_iff _

variable {k : Kmem} {root path argv envp : Nat} {bytes : List UInt8}
  {args env : Option (List (List UInt8))}

/-- One of the two loading calls hands over whole strings exactly if what it hands over is
within its limits. -/
theorem handed_whole_iff (hSpaces : Spaces k kernel boot live) (hLive : live root)
    (hCr3 : vmmGetCurrentPml4 k = root) (hPath : UserString k path bytes)
    (hArgv : UserArray k argv args) (hEnvp : UserArray k envp env)
    (create : Kmem → Option Nat × Kmem) :
    (∀ call ∈ handed sv create k root path argv envp, call.Whole bytes args env) ↔
      WithinLimits bytes args env (handed sv create k root path argv envp) := by
  unfold handed
  generalize hCopy : copyArguments sv k root path argv envp = copied
  obtain ⟨err | ⟨kpath, kargv, kenvp⟩, k₁⟩ := copied
  · simp [WithinLimits]
  obtain ⟨hBytes, hArgs, hEnv⟩ := copyArguments_eq sv hSpaces hLive hCr3 hPath hArgv hEnvp hCopy
  have hPathIff : kpath.1 = bytes ↔ bytes.length ≤ 255 := by
    rw [hBytes]
    exact List.take_eq_self_iff _
  dsimp only
  generalize hRead : readProgram sv k₁ kpath kargv kenvp = read
  obtain ⟨err | program, k₂⟩ := read
  · simp [WithinLimits, Handed.Whole, hPathIff]
  obtain ⟨hPath', hArgv', hEnvp', _⟩ := readProgram_ok sv hRead
  dsimp only
  rcases create k₂ with ⟨_ | space, k₃⟩
  · simp [WithinLimits, Handed.Whole, hPathIff]
  rw [Program.arguments_bytes, Program.environment_bytes, hPath', hArgv', hEnvp', hArgs, hEnv]
  simp only [List.forall_mem_cons, Handed.Whole, hPathIff, WithinLimits, taken_iff]
  constructor
  · rintro ⟨hShort, ⟨hFirst, hSecond⟩, _⟩
    rw [hPathIff.mpr hShort, taken_iff] at hFirst
    exact ⟨fun _ => hShort, fun _ => ⟨hFirst, hSecond⟩⟩
  · rintro ⟨hShort, hLists⟩
    have hShort := hShort (by simp)
    obtain ⟨hFirst, hSecond⟩ := hLists rfl
    refine ⟨hShort, ⟨?_, hSecond⟩, by simp⟩
    rw [hPathIff.mpr hShort, taken_iff]
    exact hFirst

end Whole

section Calls

variable {kernel : Nat} {boot live : Nat → Prop}

/-- What is handed over is what `sys_execve` calls with: a program that starts was opened with
the path and loaded with the lists. -/
theorem sysExecve_handed {sv : Services kernel boot} {s s' : ExecState} {path argv envp : Nat}
    (hRun : sysExecve sv s path argv envp = .ok (.ok (), s')) :
    ∃ kpath args env, handed sv vmmCreateAddressSpace s.kmem s.process.pml4 path argv envp =
        [.path kpath, .lists (args.map ArgString.bytes) (env.map ArgString.bytes)] ∧
      (∃ k file k', (sv.vfsOpen kpath).run k = (.ok file, k')) ∧
      ∃ k root image start k', elfLoadImage k root image args env = .ok (.ok start, k') := by
  unfold sysExecve prepareProgram at hRun
  unfold handed
  generalize copyArguments sv s.kmem s.process.pml4 path argv envp = copied at hRun ⊢
  obtain ⟨err | ⟨kpath, kargv, kenvp⟩, k⟩ := copied
  · cases hRun
  dsimp only at hRun ⊢
  cases hRead : readProgram sv k kpath kargv kenvp with
  | mk read k₁ =>
  rw [hRead] at hRun
  cases read with
  | error err => cases hRun
  | ok program =>
    dsimp only at hRun ⊢
    cases hCreate : vmmCreateAddressSpace k₁ with
    | mk created k₂ =>
    rw [hCreate] at hRun
    cases created with
    | none => cases hRun
    | some root =>
      refine ⟨_, _, _, rfl, (readProgram_ok sv hRead).2.2.2, k₂, root, program.image, ?_⟩
      dsimp only at hRun
      generalize elfLoadImage k₂ root _ _ _ = loaded at hRun
      obtain reason | ⟨error | start, k₃⟩ := loaded
      · cases hRun
      · dsimp only at hRun
        split at hRun <;> cases hRun
      · exact ⟨start, k₃, rfl⟩

/-- For one state and one set of arguments, each of the six calls fails before it hands
anything over, or it hands over exactly what the user has in memory. -/
structure StringsWhole (sv : Services kernel boot) (k : Kmem) (root path argv envp : Nat)
    (bytes : List UInt8) (args env : Option (List (List UInt8))) : Prop where
  opened : ∀ flags fdTable,
    (∃ err < 0, ∀ (V : Type) (vfs : List UInt8 → Nat → V → Except Int Nat × V) (fs : V),
      sysOpenPath k root path vfs flags fdTable fs = (err, fdTable, fs)) ∨
    ∃ fd, ∀ (V : Type) (vfs : List UInt8 → Nat → V → Except Int Nat × V) (fs : V),
      sysOpenPath k root path vfs flags fdTable fs = openAnswer fdTable fd (vfs bytes flags fs)
  made : ∀ mode,
    (∃ err < 0, ∀ (V : Type) (vfs : List UInt8 → Nat → V → Int × V) (fs : V),
      sysMkdir k root path vfs mode fs = (err, fs)) ∨
    ∀ (V : Type) (vfs : List UInt8 → Nat → V → Int × V) (fs : V),
      sysMkdir k root path vfs mode fs = pathAnswer (vfs bytes mode fs)
  unlinked :
    (∃ err < 0, ∀ (V : Type) (vfs : List UInt8 → V → Int × V) (fs : V),
      sysUnlink k root path vfs fs = (err, fs)) ∨
    ∀ (V : Type) (vfs : List UInt8 → V → Int × V) (fs : V),
      sysUnlink k root path vfs fs = pathAnswer (vfs bytes fs)
  removed :
    (∃ err < 0, ∀ (V : Type) (vfs : List UInt8 → V → Int × V) (fs : V),
      sysRmdir k root path vfs fs = (err, fs)) ∨
    ∀ (V : Type) (vfs : List UInt8 → V → Int × V) (fs : V),
      sysRmdir k root path vfs fs = pathAnswer (vfs bytes fs)
  spawned : ∀ call ∈ handed sv (processCreateSpace sv) k root path argv envp,
    call.Whole bytes args env
  executed : ∀ call ∈ handed sv vmmCreateAddressSpace k root path argv envp,
    call.Whole bytes args env

/-- The strings reach the kernel whole or not at all, except that `sys_spawn` and
`sys_execve` cut a path at 255 bytes and an array at 32 strings: the property holds exactly
if neither call hands over strings beyond these limits. -/
theorem strings_whole_iff (sv : Services kernel boot) {k : Kmem} {root path argv envp : Nat}
    {bytes : List UInt8} {args env : Option (List (List UInt8))}
    (hSpaces : Spaces k kernel boot live) (hLive : live root) (hCr3 : vmmGetCurrentPml4 k = root)
    (hPath : UserString k path bytes) (hArgv : UserArray k argv args)
    (hEnvp : UserArray k envp env) :
    StringsWhole sv k root path argv envp bytes args env ↔
      WithinLimits bytes args env (handed sv (processCreateSpace sv) k root path argv envp) ∧
      WithinLimits bytes args env (handed sv vmmCreateAddressSpace k root path argv envp) := by
  rw [← handed_whole_iff sv hSpaces hLive hCr3 hPath hArgv hEnvp,
    ← handed_whole_iff sv hSpaces hLive hCr3 hPath hArgv hEnvp]
  constructor
  · exact fun h => ⟨h.spawned, h.executed⟩
  · rintro ⟨hSpawned, hExecuted⟩
    refine ⟨sysOpenPath_whole hPath, fun mode => ?_, pathCall_whole hPath, pathCall_whole hPath,
      hSpawned, hExecuted⟩
    refine (@pathCall_whole k root path bytes hPath).imp ?_ ?_
    · rintro ⟨err, hErr, hCall⟩
      exact ⟨err, hErr, fun V vfs fs => hCall V (fun kpath => vfs kpath mode) fs⟩
    · exact fun hCall V vfs fs => hCall V (fun kpath => vfs kpath mode) fs

end Calls

/-! ### A path that is cut off -/

theorem userString_replicate {c : UInt8} (hc : c ≠ 0) (hBytes : ∀ i < n, readByte k (ptr + i) = c)
    (hEnd : readByte k (ptr + n) = 0) (hPtr : ptr + n < 2 ^ 64) :
    UserString k ptr (List.replicate n c) := by
  induction n generalizing ptr with
  | zero => exact hEnd
  | succ n ih =>
    rw [List.replicate_succ, UserString, u64_of_lt (by omega)]
    refine ⟨hBytes 0 (by omega), hc, ih (fun i hi => ?_) ?_ (by omega)⟩
    · rw [← hBytes (i + 1) (by omega), Nat.add_assoc, Nat.add_comm 1 i]
    · rw [← hEnd, Nat.add_assoc, Nat.add_comm 1 n]

theorem copyPath_isSome (h : ∀ i < n, userRangeReadable k root (ptr + i) 1 = true)
    (hPtr : ptr + n < 2 ^ 64) : (copyPath k root n ptr).isSome = true := by
  induction n generalizing ptr with
  | zero => rfl
  | succ n ih =>
    have hFirst := h 0 (by omega)
    rw [Nat.add_zero] at hFirst
    rw [copyPath, hFirst, u64_of_lt (by omega)]
    simp only [Bool.not_true, Bool.false_eq_true, if_false]
    split
    · rfl
    · rw [Option.isSome_map]
      refine ih (fun i hi => ?_) (by omega)
      rw [Nat.add_assoc, Nat.add_comm 1 i]
      exact h (i + 1) (by omega)

/-- A process with one page, whose first 256 bytes are the letter A. -/
def longPathMachine : Kmem :=
  match mapFreshPage { firstProcess.kmem with cr3 := 0xC000 } 0xC000 0x400000 vmmFlagUser with
  | .ok (true, k) => copyIn k ((vmmGetPhys k 0xC000 0x400000).getD 0 + 0) (fun _ => 65) 256
  | _ => firstProcess.kmem

theorem longPathMachine_memory :
    Spaces longPathMachine 0x1000 imageFrame (fun r => False ∨ r = 0xC000) ∧
    vmmGetCurrentPml4 longPathMachine = 0xC000 ∧
    ∀ va, 0x400000 ≤ va → va < 0x401000 →
      longPathMachine.memory 0xC000 va =
        some ⟨if va < 0x400100 then 65 else 0, Access.requested vmmFlagUser⟩ := by
  have hStart := (firstProcess_spaces.loadCr3 0xC000).1
  have hOwn := hStart.others (Or.inr rfl)
  have hRun : (mapFreshPage { firstProcess.kmem with cr3 := 0xC000 } 0xC000 0x400000
      vmmFlagUser).toOption.map Prod.fst = some true := by decide +kernel
  obtain ⟨ok, k, hMap, hStep, _, hMapped⟩ := mapFreshPage_memory hOwn
    (show 0x400000 ≤ 2 ^ 47 by decide) (by decide) vmmFlagUser
  rw [hMap] at hRun
  obtain rfl : ok = true := Option.some.inj hRun
  obtain ⟨hLower, _, hMemory⟩ := hMapped rfl
  have hFirst : (k.memory 0xC000 0x400000).isSome = true := by
    rw [hMemory, Sparse.Memory.clear, if_pos (by decide)]
    rfl
  have hPhys : ∃ frame, vmmGetPhys k 0xC000 0x400000 = some frame := by
    rw [Kmem.memory_of_lower hLower, Option.isSome_map] at hFirst
    obtain ⟨e, hLeaf⟩ := Option.isSome_iff_exists.mp hFirst
    exact ⟨_, by rw [hStep.space.inv.getPhys hLower, hLeaf, Option.map_some]⟩
  obtain ⟨frame, hFrame⟩ := hPhys
  obtain ⟨hStored, hStep', _⟩ := copyIn_memory hStep.space hLower (by decide) hFrame
    (fun _ => 65) 256 (show 0 + 256 ≤ pmmPageSize by decide)
  have hEq : longPathMachine = copyIn k (frame + 0) (fun _ => 65) 256 := by
    rw [longPathMachine, hMap]
    dsimp only
    rw [hFrame]
    rfl
  have hWhole := hStep.trans hStep'
  rw [hEq]
  refine ⟨(hStart.step (Or.inr rfl) hWhole).1, ?_, fun va hLow hHigh => ?_⟩
  · rw [vmmGetCurrentPml4, hWhole.cr3]
    decide
  · rw [hStored, hMemory, Sparse.Memory.put, Sparse.Memory.clear,
      if_pos (show 0x400000 ≤ va ∧ va < 0x400000 + 0x1000 by omega)]
    by_cases hText : va < 0x400100
    · rw [if_pos (by omega), if_pos hText]
      rfl
    · rw [if_neg (by omega), if_neg hText]

theorem longPathMachine_path :
    UserString longPathMachine 0x400000 (List.replicate 256 65) ∧
    (∀ i < 256, userRangeReadable longPathMachine 0xC000 (0x400000 + i) 1 = true) := by
  obtain ⟨hSpaces, hCr3, hMemory⟩ := longPathMachine_memory
  have hInv := (hSpaces.space 0xC000 (Or.inr rfl)).inv
  have hByte (i : Nat) (hi : i < 0x1000) :
      readByte longPathMachine (0x400000 + i) = if i < 256 then 65 else 0 := by
    rw [readByte_eq hInv hCr3 (by omega), Sparse.Memory.bytes, hMemory _ (by omega) (by omega)]
    have hSame : 0x400000 + i < 0x400100 ↔ i < 256 := by omega
    simp only [Option.map_some, Option.getD_some, hSame]
  refine ⟨userString_replicate (by decide) (fun i hi => ?_) ?_ (by decide), fun i hi => ?_⟩
  · rw [hByte i (by omega), if_pos hi]
  · exact hByte 256 (by decide)
  · refine (userRange_iff (fun va hva => userWalk_page _ _ _ hva) (by omega) (by decide)
      (by decide)).mpr ⟨by omega, by omega, fun va hLow hHigh => ?_⟩
    change vmmIsUserReadable longPathMachine 0xC000 va = true
    rw [hInv.isUserReadable_memory (by omega), hMemory va (by omega) (by omega), Option.any_some]
    rfl

/-- Without arrays, a readable path is all it takes to call the VFS. -/
theorem handed_of_readable {kernel : Nat} {boot : Nat → Prop} (sv : Services kernel boot)
    (create : Kmem → Option Nat × Kmem)
    (h : ∀ i < 255, userRangeReadable k root (path + i) 1 = true) (hPath : path + 255 < 2 ^ 64) :
    handed sv create k root path 0 0 ≠ [] := by
  obtain ⟨kpath, hCopy⟩ := Option.isSome_iff_exists.mp (copyPath_isSome h hPath)
  have hFirst := h 0 (by decide)
  rw [Nat.add_zero] at hFirst
  have hCopies : copyArguments sv k root path 0 0 = (.ok (kpath, none, none), k) := by
    simp [copyArguments, hFirst, hCopy, copyUserStringArray]
  simp [handed, hCopies]

/-- `sys_execve` opens the first 255 bytes of a path of 256 bytes. -/
theorem longPath_not_whole :
    ¬ StringsWhole (emptyServices 0x1000 imageFrame) longPathMachine 0xC000 0x400000 0 0
      (List.replicate 256 65) none none := by
  intro h
  obtain ⟨hSpaces, hCr3, _⟩ := longPathMachine_memory
  obtain ⟨hString, hReadable⟩ := longPathMachine_path
  have hNull : UserArray longPathMachine 0 none := rfl
  have hLimits := (handed_whole_iff (emptyServices 0x1000 imageFrame) hSpaces (Or.inr rfl) hCr3
    hString hNull hNull vmmCreateAddressSpace).mp h.executed
  have hHanded := handed_of_readable (emptyServices 0x1000 imageFrame) vmmCreateAddressSpace
    (fun i hi => hReadable i (by omega)) (by decide)
  have hShort := hLimits.1 hHanded
  rw [List.length_replicate] at hShort
  omega

/-- The same machine meets the assumptions of the equivalence. -/
theorem strings_whole_iff_longPath :
    StringsWhole (emptyServices 0x1000 imageFrame) longPathMachine 0xC000 0x400000 0 0
      (List.replicate 256 65) none none ↔
    WithinLimits (List.replicate 256 65) none none
      (handed (emptyServices 0x1000 imageFrame)
        (processCreateSpace (emptyServices 0x1000 imageFrame)) longPathMachine
          0xC000 0x400000 0 0) ∧
    WithinLimits (List.replicate 256 65) none none
      (handed (emptyServices 0x1000 imageFrame) vmmCreateAddressSpace longPathMachine 0xC000
        0x400000 0 0) :=
  strings_whole_iff (emptyServices 0x1000 imageFrame) longPathMachine_memory.1 (Or.inr rfl)
    longPathMachine_memory.2.1 longPathMachine_path.1 rfl rfl

end Kryos.Syscall
