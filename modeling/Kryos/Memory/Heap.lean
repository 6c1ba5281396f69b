import Kryos.Memory.Pmm

/-! The kernel heap: first fit over a doubly linked list of blocks that live in
the heap itself. Frames and mappings are abstracted to the outcome of each page
of a growth. -/
namespace Kryos.Memory

open Word

def heapMagic : Nat := 0xC001BEEFDEADBEEF
def heapFree : Nat := 0
def heapUsed : Nat := 0xFFFFFFFFFFFFFFFF
/-- `sizeof(struct heap_block)`. -/
def heapHeader : Nat := 48
def kernelHeapBase : Nat := 0xFFFFC00000000000
def kernelHeapMax : Nat := 0xFFFFC00040000000

/-- The allocator's variables and the 64-bit words of virtual memory. -/
structure Heap where
  mem : Nat → Nat
  heapStart : Nat
  heapCommittedEnd : Nat
  heapReservedEnd : Nat
  head : Nat

/-! The fields of `struct heap_block` at an address. -/

def Heap.magic (h : Heap) (block : Nat) : Nat := h.mem block
def Heap.size (h : Heap) (block : Nat) : Nat := h.mem (block + 8)
def Heap.state (h : Heap) (block : Nat) : Nat := h.mem (block + 16)
def Heap.next (h : Heap) (block : Nat) : Nat := h.mem (block + 24)
def Heap.prev (h : Heap) (block : Nat) : Nat := h.mem (block + 32)

def Heap.store (h : Heap) (address value : Nat) : Heap :=
  { h with mem := Function.update h.mem address value }

def Heap.setMagic (h : Heap) (block value : Nat) : Heap := h.store block value
def Heap.setSize (h : Heap) (block value : Nat) : Heap := h.store (block + 8) value
def Heap.setState (h : Heap) (block value : Nat) : Heap := h.store (block + 16) value
def Heap.setNext (h : Heap) (block value : Nat) : Heap := h.store (block + 24) value
def Heap.setPrev (h : Heap) (block value : Nat) : Heap := h.store (block + 32) value

/-- `kheap_init`. -/
def kheapInit (mem : Nat → Nat) (virtualBase : Nat) : Heap where
  mem := mem
  heapStart := virtualBase
  heapCommittedEnd := virtualBase
  heapReservedEnd := kernelHeapMax
  head := 0

/-- What happens to one page of a growth. -/
inductive PageOutcome where
  | noFrame
  | notMapped
  | mapped
  deriving DecidableEq, Repr

/-- The page loop of `expand_heap`, from page `i` on. Pages mapped before a
failure stay committed. -/
def expandLoop (outcome : Nat → PageOutcome) : Nat → Nat → Heap → Bool × Heap
  | 0, _, h => (true, h)
  | remaining + 1, i, h =>
    match outcome i with
    | .noFrame => (false, h)
    | .notMapped => (false, h)
    | .mapped =>
      expandLoop outcome remaining (i + 1)
        { h with heapCommittedEnd := u64 (h.heapCommittedEnd + pmmPageSize) }

/-- `expand_heap`. -/
def expandHeap (h : Heap) (bytes : Nat) (outcome : Nat → PageOutcome) : Bool × Heap :=
  let pagesNeeded := alignUp bytes pmmPageSize / pmmPageSize
  if u64 (h.heapCommittedEnd + u64 (pagesNeeded * pmmPageSize)) > h.heapReservedEnd then (false, h)
  else expandLoop outcome pagesNeeded 0 h

/-- How the inner loop of `kmalloc` ends. -/
inductive SearchResult where
  | found (curr : Nat)
  | missing (tail : Nat)
  deriving DecidableEq, Repr

/-- The fuel of the list loops. A list of blocks in 64-bit memory is shorter. -/
def heapFuel : Nat := 2 ^ 64

/-- The inner loop of `kmalloc`. -/
def Heap.search (h : Heap) (alignedSize : Nat) : Nat → Nat → Nat → Option SearchResult
  | 0, _, _ => none
  | fuel + 1, curr, tail =>
    if curr == 0 then some (.missing tail)
    else if h.state curr == heapFree && decide (h.size curr ≥ alignedSize) then some (.found curr)
    else h.search alignedSize fuel (h.next curr) curr

/-- Cut the rest of a block off as a new free block. -/
def Heap.split (h : Heap) (curr alignedSize remaining : Nat) : Heap :=
  let newBlock := u64 (curr + (heapHeader + alignedSize))
  let h := h.setMagic newBlock heapMagic
  let h := h.setSize newBlock (remaining - heapHeader)
  let h := h.setState newBlock heapFree
  let h := h.setPrev newBlock curr
  let h := h.setNext newBlock (h.next curr)
  let h := if h.next newBlock != 0 then h.setPrev (h.next newBlock) newBlock else h
  let h := h.setNext curr newBlock
  h.setSize curr alignedSize

/-- Hand a block out, splitting it if the rest can hold a block. -/
def Heap.claim (h : Heap) (curr alignedSize : Nat) : Heap :=
  let remaining := sub64 (h.size curr) alignedSize
  let h := if remaining ≥ heapHeader + 16 then h.split curr alignedSize remaining else h
  h.setState curr heapUsed

/-- Turn newly committed memory into free memory at the tail of the list. -/
def Heap.addGrowth (h : Heap) (prevEnd tail : Nat) : Heap :=
  if h.heapCommittedEnd > prevEnd then
    let grown := h.heapCommittedEnd - prevEnd
    if tail != 0 && h.state tail == heapFree then h.setSize tail (u64 (h.size tail + grown))
    else
      let newBlock := prevEnd
      let h := h.setMagic newBlock heapMagic
      let h := h.setSize newBlock (sub64 grown heapHeader)
      let h := h.setState newBlock heapFree
      let h := h.setNext newBlock 0
      let h := h.setPrev newBlock tail
      if tail != 0 then h.setNext tail newBlock else { h with head := newBlock }
  else h

/-- The outer loop of `kmalloc`. The outcomes of attempt `i` are `outcome i`. -/
def kmallocLoop (alignedSize : Nat) (outcome : Nat → Nat → PageOutcome) :
    Nat → Nat → Heap → Option (Nat × Heap)
  | 0, _, _ => none
  | fuel + 1, attempt, h =>
    match h.search alignedSize heapFuel h.head 0 with
    | none => none
    | some (.found curr) => some (u64 (curr + heapHeader), h.claim curr alignedSize)
    | some (.missing tail) =>
      let prevEnd := h.heapCommittedEnd
      let (expanded, h) := expandHeap h (heapHeader + alignedSize) (outcome attempt)
      let h := h.addGrowth prevEnd tail
      if !expanded then some (0, h)
      else kmallocLoop alignedSize outcome fuel (attempt + 1) h

/-- `kmalloc`. The result is `none` only if a loop does not end. -/
def kmalloc (h : Heap) (size : Nat) (outcome : Nat → Nat → PageOutcome) : Option (Nat × Heap) :=
  if size == 0 then some (0, h)
  else kmallocLoop (alignUp size 16) outcome heapFuel 0 h

/-- The assertions of `kfree`. -/
inductive KfreeAssert where
  | outOfRange
  | unaligned
  | badMagic
  | notUsed
  deriving DecidableEq, Repr

/-- Merge a block with the one after it, as both coalescing steps do. -/
def Heap.absorb (h : Heap) (left right : Nat) : Heap :=
  let h := h.setSize left (u64 (h.size left + (heapHeader + h.size right)))
  let h := h.setNext left (h.next right)
  if h.next left != 0 then h.setPrev (h.next left) left else h

/-- `kfree` after its assertions. -/
def Heap.release (h : Heap) (block : Nat) : Heap :=
  let h := h.setState block heapFree
  let h :=
    if h.next block != 0 && h.state (h.next block) == heapFree then h.absorb block (h.next block)
    else h
  if h.prev block != 0 && h.state (h.prev block) == heapFree then h.absorb (h.prev block) block
  else h

/-- `kfree`. -/
def kfree (h : Heap) (ptr : Nat) : Except KfreeAssert Heap :=
  if ptr == 0 then .ok h
  else if !(decide (ptr ≥ u64 (h.heapStart + heapHeader)) && decide (ptr < h.heapCommittedEnd)) then
    .error .outOfRange
  else if ptr % 16 != 0 then .error .unaligned
  else
    let block := sub64 ptr heapHeader
    if h.magic block != heapMagic then .error .badMagic
    else if h.state block != heapUsed then .error .notUsed
    else .ok (h.release block)

/-- The assertions of one round of `kheap_verify`. -/
def Heap.verifyBlock (h : Heap) (curr : Nat) : Bool :=
  let extent := u64 (heapHeader + h.size curr)
  decide (curr ≥ h.heapStart) && decide (curr < h.heapCommittedEnd) &&
  decide (u64 (curr + extent) ≤ h.heapCommittedEnd) &&
  u64 (curr + heapHeader) % 16 == 0 &&
  h.size curr % 16 == 0 &&
  extent % 16 == 0 &&
  (if h.next curr != 0 then
    h.prev (h.next curr) == curr && u64 (curr + extent) == h.next curr
  else u64 (curr + extent) == h.heapCommittedEnd) &&
  (if h.prev curr != 0 then h.next (h.prev curr) == curr else curr == h.head) &&
  (if h.state curr == heapFree && h.next curr != 0 then h.state (h.next curr) == heapUsed else true)

/-- The loop of `kheap_verify`. -/
def Heap.verifyLoop (h : Heap) : Nat → Nat → Nat → Option Bool
  | 0, _, _ => none
  | fuel + 1, curr, totalExtent =>
    if curr == 0 then
      some (totalExtent == sub64 h.heapCommittedEnd h.heapStart)
    else if !h.verifyBlock curr then some false
    else h.verifyLoop fuel (h.next curr) (u64 (totalExtent + u64 (heapHeader + h.size curr)))

/-- `kheap_verify`: whether all of its assertions hold. -/
def kheapVerify (h : Heap) : Option Bool :=
  if h.head == 0 then some true else h.verifyLoop heapFuel h.head 0

end Kryos.Memory
