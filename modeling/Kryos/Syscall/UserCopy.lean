import Kryos.Process.UserPages
import Kryos.Memory.Spaces

/-! Copying paths and string arrays from user memory. The heap and the file
system enter as services: they answer, and what they do to memory on the way is
kernel work. -/
namespace Kryos.Syscall

open Word Memory Process LittleEndian

/-- From a sound kernel half, only kernel work was done. -/
def Works (kernel : Nat) (boot : Nat → Prop) (k k' : Kmem) : Prop :=
  KernelHalf k kernel boot → KernelWork kernel boot k k'

namespace Works

variable {kernel : Nat} {boot : Nat → Prop} {k k' k'' : Kmem}

theorem refl (k : Kmem) : Works kernel boot k k := fun _ => Relation.ReflTransGen.refl

theorem trans (h : Works kernel boot k k') (h' : Works kernel boot k' k'') :
    Works kernel boot k k'' := by
  intro hHalf
  exact (h hHalf).trans (h' (hHalf.work (h hHalf)).half)

end Works

/-- A kernel function outside the memory manager: what it answers may depend on
all of memory. -/
structure Service (kernel : Nat) (boot : Nat → Prop) (α : Type) where
  run : Kmem → α × Kmem
  works : ∀ k, Works kernel boot k (run k).2

/-- The heap and file functions that loading a program calls. A failed
`vfs_open` answers with its error code; `store` fills a block of the heap. -/
structure Services (kernel : Nat) (boot : Nat → Prop) where
  kmalloc : Nat → Service kernel boot (Option Nat)
  kfree : Nat → Service kernel boot Unit
  store : Nat → List UInt8 → Service kernel boot Unit
  vfsOpen : List UInt8 → Service kernel boot (Except Int Nat)
  vfsRead : Nat → Nat → Nat → Service kernel boot ElfImage
  vfsClose : Nat → Service kernel boot Unit

/-- The byte at a virtual address, through the page tables in CR3. -/
def readByte (k : Kmem) (va : Nat) : UInt8 :=
  match vmmGetPhys k (vmmGetCurrentPml4 k) va with
  | none => 0
  | some phys => byteOf (k.mem (phys / 8 * 8)) (phys % 8)

/-- The pointer at a virtual address. -/
def readPointer (k : Kmem) (va : Nat) : Nat := readLe (fun i => readByte k (u64 (va + i))) 0 8

/-- The common test of `user_range_readable` and `user_range_writable`; the two differ
in the test of a page. -/
def userRange (page : Nat → Bool) (addr len : Nat) : Bool :=
  if len == 0 then true
  else
    let stop := u64 (addr + len)
    if stop < addr then false
    else if stop > 0x0000800000000000 then false
    else
      let pageStart := addr - addr % 0x1000
      (List.range ((stop - pageStart + 0xFFF) / 0x1000)).all fun i => page (pageStart + i * 0x1000)

/-- `user_range_readable`, for the address space of the running process. -/
def userRangeReadable (k : Kmem) (root addr len : Nat) : Bool :=
  userRange (vmmIsUserReadable k root) addr len

/-- `user_range_writable`. -/
def userRangeWritable (k : Kmem) (root addr len : Nat) : Bool :=
  userRange (vmmIsUserWritable k root) addr len

/-- The bytes of a C string of fewer than `n` bytes. -/
abbrev CString (n : Nat) := { bytes : List UInt8 // 0 ∉ bytes ∧ bytes.length < n }

def CString.nil {n : Nat} : CString (n + 1) := ⟨[], by simp, Nat.succ_pos n⟩

def CString.cons {n : Nat} (c : UInt8) (hc : c ≠ 0) (s : CString n) : CString (n + 1) :=
  ⟨c :: s.1, by simp [s.2.1, hc.symm], Nat.succ_lt_succ s.2.2⟩

/-- The path loop: at most `n` bytes, the rest of a longer path is cut off. -/
def copyPath (k : Kmem) (root : Nat) : (n : Nat) → Nat → Option (CString (n + 1))
  | 0, _ => some CString.nil
  | n + 1, ptr =>
    if !userRangeReadable k root ptr 1 then none
    else if hc : readByte k ptr = 0 then some CString.nil
    else (copyPath k root n (u64 (ptr + 1))).map (CString.cons (readByte k ptr) hc)

/-- What `copy_user_string_array` returns in place of an array: -1, -2 and -3. -/
inductive CopyError where
  | fault
  | noMemory
  | tooBig
deriving DecidableEq, Repr

/-- The error number `sys_spawn` and `sys_execve` make of it: `-EFAULT`,
`-ENOMEM`, `-EINVAL`. -/
def CopyError.errno : CopyError → Int
  | .fault => -14
  | .noMemory => -12
  | .tooBig => -22

/-- The length loop over one string, up to its limit of `n` bytes. -/
def scanString (k : Kmem) (root : Nat) : (n : Nat) → Nat → Except CopyError (CString n)
  | 0, _ => .error .tooBig
  | n + 1, ptr =>
    if !userRangeReadable k root ptr 1 then .error .fault
    else if hc : readByte k ptr = 0 then .ok CString.nil
    else (scanString k root n (u64 (ptr + 1))).map (CString.cons (readByte k ptr) hc)

/-- The counting loop of `copy_user_string_array`: the pointers before NULL, at
most `n` of them. -/
def scanPointers (k : Kmem) (root : Nat) : (n : Nat) → Nat → Except CopyError (List Nat)
  | 0, _ => .ok []
  | n + 1, addr =>
    if !userRangeReadable k root addr 8 then .error .fault
    else if readPointer k addr == 0 then .ok []
    else (scanPointers k root n (u64 (addr + 8))).map (readPointer k addr :: ·)

/-- An array of strings in the kernel heap, with the address of each copy. -/
structure KernelStrings where
  array : Nat
  strings : List (Nat × ArgString)

def KernelStrings.contents (s : KernelStrings) : List ArgString := s.strings.map Prod.snd

section Copy

variable {kernel : Nat} {boot : Nat → Prop} (sv : Services kernel boot)

def kfreeAll : List Nat → Kmem → Kmem
  | [], k => k
  | addr :: rest, k => kfreeAll rest ((sv.kfree addr).run k).2

/-- The strings first, then the array. -/
def KernelStrings.free (s : KernelStrings) (k : Kmem) : Kmem :=
  kfreeAll sv (s.strings.map Prod.fst ++ [s.array]) k

/-- `free_kernel_string_array`; `none` is the NULL array. -/
def freeKernelStringArray : Option KernelStrings → Kmem → Kmem
  | none, k => k
  | some s, k => s.free sv k

/-- The copying loop of `copy_user_string_array`. On an error the strings
copied so far and the array are freed. -/
def copyStrings (root : Nat) :
    List Nat → KernelStrings → Kmem → Except CopyError KernelStrings × Kmem
  | [], copied, k => (.ok copied, k)
  | ptr :: rest, copied, k =>
    match scanString k root 4096 ptr with
    | .error error => (.error error, copied.free sv k)
    | .ok s =>
      match (sv.kmalloc (s.1.length + 1)).run k with
      | (none, k) => (.error .noMemory, copied.free sv k)
      | (some addr, k) =>
        let k := ((sv.store addr (s.1 ++ [0])).run k).2
        copyStrings root rest
          { copied with
            strings := copied.strings ++ [(addr, ⟨s.1, s.2.1, s.2.2.trans (by decide)⟩)] } k

/-- `copy_user_string_array`. -/
def copyUserStringArray (k : Kmem) (root userArray : Nat) :
    Except CopyError (Option KernelStrings) × Kmem :=
  if userArray == 0 then (.ok none, k)
  else
    match scanPointers k root 32 userArray with
    | .error error => (.error error, k)
    | .ok pointers =>
      match (sv.kmalloc (8 * (pointers.length + 1))).run k with
      | (none, k) => (.error .noMemory, k)
      | (some array, k) =>
        let (copied, k) := copyStrings sv root pointers ⟨array, []⟩ k
        (copied.map some, k)

theorem kfreeAll_works (addrs : List Nat) (k : Kmem) :
    Works kernel boot k (kfreeAll sv addrs k) := by
  induction addrs generalizing k with
  | nil => exact Works.refl k
  | cons addr rest ih => exact ((sv.kfree addr).works k).trans (ih _)

theorem freeKernelStringArray_works (strings : Option KernelStrings) (k : Kmem) :
    Works kernel boot k (freeKernelStringArray sv strings k) := by
  cases strings with
  | none => exact Works.refl k
  | some s => exact kfreeAll_works sv _ k

theorem copyStrings_works (root : Nat) (pointers : List Nat) (copied : KernelStrings) (k : Kmem) :
    Works kernel boot k (copyStrings sv root pointers copied k).2 := by
  induction pointers generalizing copied k with
  | nil => exact Works.refl k
  | cons ptr rest ih =>
    rw [copyStrings]
    cases hScan : scanString k root 4096 ptr with
    | error error => exact kfreeAll_works sv _ k
    | ok s =>
      have hAlloc := (sv.kmalloc (s.1.length + 1)).works k
      dsimp only
      generalize (sv.kmalloc (s.1.length + 1)).run k = answer at hAlloc
      obtain ⟨_ | addr, k₁⟩ := answer
      · exact hAlloc.trans (kfreeAll_works sv _ k₁)
      · exact (hAlloc.trans ((sv.store addr (s.1 ++ [0])).works k₁)).trans (ih _ _)

theorem copyUserStringArray_works (k : Kmem) (root userArray : Nat) :
    Works kernel boot k (copyUserStringArray sv k root userArray).2 := by
  unfold copyUserStringArray
  split
  · exact Works.refl k
  cases hScan : scanPointers k root 32 userArray with
  | error error => exact Works.refl k
  | ok pointers =>
    have hAlloc := (sv.kmalloc (8 * (pointers.length + 1))).works k
    dsimp only
    generalize (sv.kmalloc (8 * (pointers.length + 1))).run k = answer at hAlloc
    obtain ⟨_ | array, k₁⟩ := answer
    · exact hAlloc
    · exact hAlloc.trans (copyStrings_works sv root pointers ⟨array, []⟩ k₁)

end Copy

end Kryos.Syscall
