import Kryos.Base.RadixTable
import Kryos.Memory.Pmm

/-! Four-level page tables. Tables live in physical memory, which is reached
through the direct map; the translation cache is not part of the model. -/
namespace Kryos.Memory

open Word Radix

/-- `PTE_PRESENT`. -/
def ptePresent : Nat := 2 ^ 0
/-- `PTE_WRITABLE`. -/
def pteWritable : Nat := 2 ^ 1
/-- `PTE_USER`. -/
def pteUser : Nat := 2 ^ 2
/-- `PDE_PS`. -/
def pdePs : Nat := 2 ^ 7
/-- `PTE_NO_EXECUTE`. -/
def pteNoExecute : Nat := 2 ^ 63
/-- `PTE_FRAME_MASK`. -/
def pteFrameMask : Nat := 0x000FFFFFFFFFF000

/-- `VMM_FLAG_WRITABLE`. -/
def vmmFlagWritable : Nat := 2 ^ 0
/-- `VMM_FLAG_USER`. -/
def vmmFlagUser : Nat := 2 ^ 1
/-- `VMM_FLAG_NO_EXECUTE`. -/
def vmmFlagNoExecute : Nat := 2 ^ 2

/-- The frame allocator, the 64-bit words of physical memory at their aligned
addresses, and the register that names the active PML4. -/
structure Kmem where
  pmm : Pmm
  mem : Nat → Nat
  cr3 : Nat

/-- Store one word. -/
def Kmem.write (k : Kmem) (addr value : Nat) : Kmem :=
  { k with mem := Function.update k.mem addr value }

@[simp] theorem Kmem.write_self (k : Kmem) (addr : Nat) : k.write addr (k.mem addr) = k := by
  simp [Kmem.write]

@[simp] theorem Kmem.write_write (k : Kmem) (addr first second : Nat) :
    (k.write addr first).write addr second = k.write addr second := by
  simp [Kmem.write]

@[simp] theorem Kmem.write_mem_self (k : Kmem) (addr value : Nat) :
    (k.write addr value).mem addr = value := by
  simp [Kmem.write]

/-- Zero the frame at `page`. -/
def Kmem.zeroPage (k : Kmem) (page : Nat) : Kmem :=
  { k with mem := fun a => if page ≤ a ∧ a < page + pmmPageSize then 0 else k.mem a }

def pml4Index (addr : Nat) : Nat := (addr >>> 39) &&& 0x1FF
def pdptIndex (addr : Nat) : Nat := (addr >>> 30) &&& 0x1FF
def pdIndex (addr : Nat) : Nat := (addr >>> 21) &&& 0x1FF
def ptIndex (addr : Nat) : Nat := (addr >>> 12) &&& 0x1FF

/-- `is_canonical`: bits 47 to 63 are all equal. -/
def isCanonical (virtAddr : Nat) : Bool :=
  let upper17 := virtAddr >>> 47
  upper17 == 0 || upper17 == 0x1FFFF

/-- `flags_to_pte`. -/
def flagsToPte (flags : Nat) : Nat :=
  let pte := if hasFlag flags vmmFlagWritable then 0 ||| pteWritable else 0
  let pte := if hasFlag flags vmmFlagUser then pte ||| pteUser else pte
  if hasFlag flags vmmFlagNoExecute then pte ||| pteNoExecute else pte

/-- `vmm_get_current_pml4`. -/
def vmmGetCurrentPml4 (k : Kmem) : Nat := k.cr3 &&& pteFrameMask

/-- `get_next_level`. Permission bits of a present entry are raised before the
caller knows whether its own mapping will succeed. -/
def getNextLevel (k : Kmem) (currentTable index : Nat) (allocate : Bool) (pteFlags : Nat) :
    Option Nat × Kmem :=
  let entry := k.mem (slot currentTable index)
  if hasFlag entry ptePresent then
    if hasFlag entry pdePs then (none, k)
    else
      let k₁ := if hasFlag pteFlags pteWritable && !hasFlag entry pteWritable then
          k.write (slot currentTable index) (k.mem (slot currentTable index) ||| pteWritable)
        else k
      let k₂ := if hasFlag pteFlags pteUser && !hasFlag entry pteUser then
          k₁.write (slot currentTable index) (k₁.mem (slot currentTable index) ||| pteUser)
        else k₁
      (some (entry &&& pteFrameMask), k₂)
  else if !allocate then (none, k)
  else
    let (nextTablePhys, pmm) := pmmAllocPage k.pmm
    let k := { k with pmm := pmm }
    if nextTablePhys == 0 then (none, k)
    else
      let k := k.zeroPage nextTablePhys
      let flags := if hasFlag pteFlags pteWritable then ptePresent ||| pteWritable else ptePresent
      let flags := if hasFlag pteFlags pteUser then flags ||| pteUser else flags
      (some nextTablePhys, k.write (slot currentTable index) (nextTablePhys ||| flags))

/-- `vmm_map_page`. -/
def vmmMapPage (k : Kmem) (pml4Phys virtAddr physAddr flags : Nat) : Bool × Kmem :=
  if !isCanonical virtAddr then (false, k)
  else if virtAddr % pmmPageSize ≠ 0 ∨ physAddr % pmmPageSize ≠ 0 then (false, k)
  else
    let archFlags := flagsToPte flags
    match getNextLevel k pml4Phys (pml4Index virtAddr) true archFlags with
    | (none, k) => (false, k)
    | (some pdpt, k) =>
      match getNextLevel k pdpt (pdptIndex virtAddr) true archFlags with
      | (none, k) => (false, k)
      | (some pd, k) =>
        match getNextLevel k pd (pdIndex virtAddr) true archFlags with
        | (none, k) => (false, k)
        | (some pt, k) =>
          if hasFlag (k.mem (slot pt (ptIndex virtAddr))) ptePresent then (false, k)
          else
            (true, k.write (slot pt (ptIndex virtAddr)) (physAddr ||| archFlags ||| ptePresent))

/-- `vmm_unmap_page`. -/
def vmmUnmapPage (k : Kmem) (pml4Phys virtAddr : Nat) : Bool × Kmem :=
  if !isCanonical virtAddr then (false, k)
  else if virtAddr % pmmPageSize ≠ 0 then (false, k)
  else
    match getNextLevel k pml4Phys (pml4Index virtAddr) false 0 with
    | (none, k) => (false, k)
    | (some pdpt, k) =>
      match getNextLevel k pdpt (pdptIndex virtAddr) false 0 with
      | (none, k) => (false, k)
      | (some pd, k) =>
        match getNextLevel k pd (pdIndex virtAddr) false 0 with
        | (none, k) => (false, k)
        | (some pt, k) =>
          if !hasFlag (k.mem (slot pt (ptIndex virtAddr))) ptePresent then (false, k)
          else (true, k.write (slot pt (ptIndex virtAddr)) 0)

/-- `vmm_get_phys`. -/
def vmmGetPhys (k : Kmem) (pml4Phys virtAddr : Nat) : Option Nat :=
  if !isCanonical virtAddr then none
  else
    let pml4e := k.mem (slot pml4Phys (pml4Index virtAddr))
    if !hasFlag pml4e ptePresent then none
    else
      let pdpte := k.mem (slot (pml4e &&& pteFrameMask) (pdptIndex virtAddr))
      if !hasFlag pdpte ptePresent then none
      else if hasFlag pdpte pdePs then none
      else
        let pde := k.mem (slot (pdpte &&& pteFrameMask) (pdIndex virtAddr))
        if !hasFlag pde ptePresent then none
        else if hasFlag pde pdePs then
          some (u64 ((pde &&& pteFrameMask) + (virtAddr &&& 0x1FFFFF)))
        else
          let pte := k.mem (slot (pde &&& pteFrameMask) (ptIndex virtAddr))
          if !hasFlag pte ptePresent then none
          else some (u64 ((pte &&& pteFrameMask) + (virtAddr &&& 0xFFF)))

/-- `vmm_create_address_space`: the new PML4, or `none` when no frame is free. -/
def vmmCreateAddressSpace (k : Kmem) : Option Nat × Kmem :=
  let (pml4Phys, pmm) := pmmAllocPage k.pmm
  let k := { k with pmm := pmm }
  if pml4Phys == 0 then (none, k)
  else
    let kernelPml4 := vmmGetCurrentPml4 k
    (some pml4Phys,
      { k with mem := fun a =>
          if pml4Phys ≤ a ∧ a < slot pml4Phys 256 then 0
          else if slot pml4Phys 256 ≤ a ∧ a < slot pml4Phys 512 then
            k.mem (kernelPml4 + (a - pml4Phys))
          else k.mem a })

/-- `free_page_table` on a table with `below` levels of tables under it; the
source's `level` is `below + 1`. Leaf entries are not visited. -/
def freePageTable (mem : Nat → Nat) : Nat → Nat → Pmm → Except PmmPanic Pmm
  | 0, tablePhys, p => pmmFreePage p tablePhys
  | below + 1, tablePhys, p => do
      let p ← (List.range 512).foldlM (fun p i =>
        let entry := mem (slot tablePhys i)
        if hasFlag entry ptePresent then
          if !hasFlag entry pdePs then freePageTable mem below
            (entry &&& pteFrameMask) p else pure p
        else pure p) p
      pmmFreePage p tablePhys

/-- `vmm_destroy_address_space`. -/
def vmmDestroyAddressSpace (k : Kmem) (pml4Phys : Nat) : Except PmmPanic Kmem :=
  if pml4Phys == 0 then .ok k
  else do
    let p ← (List.range 256).foldlM (fun p i =>
      let entry := k.mem (slot pml4Phys i)
      if hasFlag entry ptePresent then freePageTable k.mem 2 (entry &&& pteFrameMask) p
      else pure p) k.pmm
    let p ← pmmFreePage p pml4Phys
    pure { k with pmm := p }

/-- The common walk of `vmm_is_user_readable` and `vmm_is_user_writable`; the
two differ in the flags required of every entry. -/
def userWalk (required : Nat → Bool) (k : Kmem) (pml4Phys va : Nat) : Bool :=
  if !isCanonical va then false
  else
    let pml4e := k.mem (slot pml4Phys (pml4Index va))
    if !required pml4e then false
    else
      let pdpte := k.mem (slot (pml4e &&& pteFrameMask) (pdptIndex va))
      if !required pdpte then false
      else if hasFlag pdpte pdePs then true
      else
        let pde := k.mem (slot (pdpte &&& pteFrameMask) (pdIndex va))
        if !required pde then false
        else if hasFlag pde pdePs then true
        else
          let pte := k.mem (slot (pde &&& pteFrameMask) (ptIndex va))
          required pte

/-- `vmm_is_user_readable`. -/
def vmmIsUserReadable : Kmem → Nat → Nat → Bool :=
  userWalk (fun e => hasFlag e ptePresent && hasFlag e pteUser)

/-- `vmm_is_user_writable`. -/
def vmmIsUserWritable : Kmem → Nat → Nat → Bool :=
  userWalk (fun e => hasFlag e ptePresent && hasFlag e pteUser && hasFlag e pteWritable)

end Kryos.Memory
