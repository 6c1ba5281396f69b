import Kryos.Base.LittleEndian
import Kryos.Memory.VmmRun

/-! The ELF loader. It maps the loadable segments and a user stack into an
address space and writes the argument block to the stack; every error returns
with whatever has been mapped so far. -/
namespace Kryos.Process

open Word Memory LittleEndian

/-- The errors of `elf_load_error_t`. -/
inductive ElfLoadError where
  | badMagic
  | unsupportedClass
  | wrongMachine
  | malformedHeader
  | malformedPhdr
  | fileszGtMemsz
  | segmentOutOfBounds
  | vaddrOverflow
  | segmentNotUser
  | entryOutOfBounds
  | rwxRejected
  | vmmError
  | stackError
  deriving DecidableEq, Repr

/-- The file contents and their size. Program headers may be read past the size,
so the buffer is a total function. -/
structure ElfImage where
  data : Nat → UInt8
  size : Nat

/-- The fields of `Elf64_Ehdr` that the loader reads. -/
structure Elf64Ehdr where
  magic : Nat
  class_ : Nat
  machine : Nat
  entry : Nat
  phoff : Nat
  phentsize : Nat
  phnum : Nat

/-- The fields of `Elf64_Phdr` that the loader reads. -/
structure Elf64Phdr where
  type : Nat
  flags : Nat
  offset : Nat
  vaddr : Nat
  filesz : Nat
  memsz : Nat

def elfMagic : Nat := 0x464C457F
def elfClass64 : Nat := 2
def elfMachineAmd64 : Nat := 62
def ptLoad : Nat := 1
def pfX : Nat := 2 ^ 0
def pfW : Nat := 2 ^ 1
def userStackTop : Nat := 0x00007FFFFFFFF000
def userStackPages : Nat := 16

def ElfImage.ehdr (img : ElfImage) : Elf64Ehdr where
  magic := readLe img.data 0 4
  class_ := readLe img.data 4 1
  machine := readLe img.data 18 2
  entry := readLe img.data 24 8
  phoff := readLe img.data 32 8
  phentsize := readLe img.data 54 2
  phnum := readLe img.data 56 2

/-- Program header `i`. -/
def ElfImage.phdr (img : ElfImage) (i : Nat) : Elf64Phdr :=
  let base := img.ehdr.phoff + i * img.ehdr.phentsize
  { type := readLe img.data base 4
    flags := readLe img.data (base + 4) 4
    offset := readLe img.data (base + 8) 8
    vaddr := readLe img.data (base + 16) 8
    filesz := readLe img.data (base + 32) 8
    memsz := readLe img.data (base + 40) 8 }

/-- `check_elf_header`. -/
def checkElfHeader (img : ElfImage) : Option ElfLoadError :=
  let hdr := img.ehdr
  if img.size < 64 then some .malformedHeader
  else if hdr.magic != elfMagic then some .badMagic
  else if hdr.class_ != elfClass64 then some .unsupportedClass
  else if hdr.machine != elfMachineAmd64 then some .wrongMachine
  else
    let phEnd := u64 (hdr.phoff + hdr.phnum * hdr.phentsize)
    if phEnd < hdr.phoff ∨ phEnd > img.size then some .malformedPhdr else none

def Elf64Phdr.segMemEnd (ph : Elf64Phdr) : Nat := u64 (ph.vaddr + ph.memsz)

/-- The checks of a loadable segment, in the order of the source. -/
def Elf64Phdr.check (ph : Elf64Phdr) (size : Nat) : Option ElfLoadError :=
  if ph.filesz > ph.memsz then some .fileszGtMemsz
  else
    let segFileEnd := u64 (ph.offset + ph.filesz)
    if segFileEnd < ph.offset ∨ segFileEnd > size then some .segmentOutOfBounds
    else if ph.segMemEnd < ph.vaddr then some .vaddrOverflow
    else if ph.segMemEnd > 0x00007FFFFFFFFFFF then some .segmentNotUser
    else if hasFlag ph.flags pfW && hasFlag ph.flags pfX then some .rwxRejected
    else none

def Elf64Phdr.startPage (ph : Elf64Phdr) : Nat := alignDown ph.vaddr 0x1000
def Elf64Phdr.endPage (ph : Elf64Phdr) : Nat := alignUp ph.segMemEnd 0x1000

/-- The rounds of the page loop. Both ends are page boundaries of the user half,
so the loop variable does not wrap. -/
def Elf64Phdr.pageCount (ph : Elf64Phdr) : Nat := (ph.endPage - ph.startPage) / 0x1000

/-- Whether the segment contains the entry point. -/
def Elf64Phdr.hasEntry (ph : Elf64Phdr) (entry : Nat) : Bool :=
  hasFlag ph.flags pfX && decide (ph.vaddr ≤ entry ∧ entry < ph.segMemEnd)

def Elf64Phdr.vmmFlags (ph : Elf64Phdr) : Nat :=
  let flags := vmmFlagUser
  let flags := if hasFlag ph.flags pfW then flags ||| vmmFlagWritable else flags
  if !hasFlag ph.flags pfX then flags ||| vmmFlagNoExecute else flags

/-! ### Bytes in physical memory -/

/-- Store one byte into the word that contains it. -/
def writeByte (k : Kmem) (addr : Nat) (value : UInt8) : Kmem :=
  let word := k.mem (addr / 8 * 8)
  let unit := 256 ^ (addr % 8)
  k.write (addr / 8 * 8) (word - word / unit % 256 * unit + value.toNat * unit)

/-- `memcpy` into physical memory. -/
def copyIn (k : Kmem) (dst : Nat) (bytes : Nat → UInt8) : Nat → Kmem
  | 0 => k
  | n + 1 => writeByte (copyIn k dst bytes n) (dst + n) (bytes n)

/-- `write_user_stack_bytes`. Bytes that fall on unmapped pages are dropped. -/
def writeUserStackBytes (root : Nat) : Nat → List UInt8 → Kmem → Kmem
  | _, [], k => k
  | vaddr, byte :: rest, k =>
    let k := match vmmGetPhys k root (alignDown vaddr 0x1000) with
      | none => k
      | some paddr => writeByte k (paddr + vaddr % 0x1000) byte
    writeUserStackBytes root (u64 (vaddr + 1)) rest k

/-! ### Mapping -/

/-- The allocate, map and clear sequence of both page loops. The result is
`false` when the loop returns its error. -/
def mapFreshPage (k : Kmem) (root page flags : Nat) : Except PmmPanic (Bool × Kmem) :=
  let (paddr, pmm) := pmmAllocPage k.pmm
  let k := { k with pmm := pmm }
  if paddr == 0 then .ok (false, k)
  else
    match vmmMapPage k root page paddr flags with
    | (false, k) =>
      match pmmFreePage k.pmm paddr with
      | .error reason => .error reason
      | .ok pmm => .ok (false, { k with pmm := pmm })
    | (true, k) => .ok (true, k.zeroPage paddr)

/-- Copy the file bytes of a segment that belong on one page. -/
def copySegment (img : ElfImage) (ph : Elf64Phdr) (page vpage : Nat) (k : Kmem) : Kmem :=
  let pageOffset := if page < ph.vaddr then ph.vaddr - page else 0
  let copyStart := u64 (page + pageOffset)
  let fileVaddrEnd := u64 (ph.vaddr + ph.filesz)
  if copyStart < fileVaddrEnd then
    let fileOffset := u64 (ph.offset + (copyStart - ph.vaddr))
    let copySize := 0x1000 - pageOffset
    let fileRemaining := fileVaddrEnd - copyStart
    let copySize := if copySize > fileRemaining then fileRemaining else copySize
    copyIn k (vpage + pageOffset) (fun i => img.data (fileOffset + i)) copySize
  else k

/-- Map a page of a segment. A page that an earlier segment already mapped is
shared. -/
def ensureMapped (k : Kmem) (root page flags : Nat) : Except PmmPanic (Bool × Kmem) :=
  match vmmGetPhys k root page with
  | some _ => .ok (true, k)
  | none => mapFreshPage k root page flags

/-- One round of the page loop of a segment. -/
def loadPage (img : ElfImage) (ph : Elf64Phdr) (root page : Nat) (k : Kmem) :
    Except PmmPanic (Bool × Kmem) :=
  match ensureMapped k root page ph.vmmFlags with
  | .error reason => .error reason
  | .ok (false, k) => .ok (false, k)
  | .ok (true, k) => .ok (true, copySegment img ph page ((vmmGetPhys k root page).getD 0) k)

/-- The page loop of a segment. -/
def loadPages (img : ElfImage) (ph : Elf64Phdr) (root : Nat) :
    Nat → Nat → Kmem → Except PmmPanic (Bool × Kmem)
  | 0, _, k => .ok (true, k)
  | remaining + 1, page, k =>
    match loadPage img ph root page k with
    | .error reason => .error reason
    | .ok (false, k) => .ok (false, k)
    | .ok (true, k) => loadPages img ph root remaining (page + 0x1000) k

/-- The loop over program headers. The value is whether the entry point was
found in an executable segment. -/
def loadSegments (img : ElfImage) (root : Nat) :
    List Nat → Bool → Kmem → Except PmmPanic (Except ElfLoadError Bool × Kmem)
  | [], entryFound, k => .ok (.ok entryFound, k)
  | i :: rest, entryFound, k =>
    let ph := img.phdr i
    if ph.type != ptLoad then loadSegments img root rest entryFound k
    else
      match ph.check img.size with
      | some error => .ok (.error error, k)
      | none =>
        match loadPages img ph root ph.pageCount ph.startPage k with
        | .error reason => .error reason
        | .ok (false, k) => .ok (.error .vmmError, k)
        | .ok (true, k) =>
          loadSegments img root rest (entryFound || ph.hasEntry img.ehdr.entry) k

/-- The loop that maps the user stack. -/
def mapStack (root : Nat) : Nat → Nat → Kmem → Except PmmPanic (Bool × Kmem)
  | 0, _, k => .ok (true, k)
  | remaining + 1, page, k =>
    match mapFreshPage k root page (vmmFlagWritable ||| vmmFlagUser ||| vmmFlagNoExecute) with
    | .error reason => .error reason
    | .ok (false, k) => .ok (false, k)
    | .ok (true, k) => mapStack root remaining (page + 0x1000) k

/-! ### The argument block -/

/-- A string for the argument block. No string whose block fits on the stack is longer;
`copy_user_string_array` produces strings of less than 4096 bytes. -/
structure ArgString where
  bytes : List UInt8
  noNul : 0 ∉ bytes
  short : bytes.length < userStackPages * 0x1000

/-- Push the strings of an array, the last one first. -/
def pushStrings (root : Nat) : List ArgString → Nat → Kmem → List Nat × Nat × Kmem
  | [], rsp, k => ([], rsp, k)
  | s :: rest, rsp, k =>
    let (ptrs, rsp, k) := pushStrings root rest rsp k
    let rsp := sub64 rsp (s.bytes.length + 1)
    (rsp :: ptrs, rsp, writeUserStackBytes root rsp (s.bytes ++ [0]) k)

/-- Push 64-bit words, the last one first. -/
def pushWords (root : Nat) : List Nat → Nat → Kmem → Nat × Kmem
  | [], rsp, k => (rsp, k)
  | word :: rest, rsp, k =>
    let (rsp, k) := pushWords root rest rsp k
    let rsp := sub64 rsp 8
    (rsp, writeUserStackBytes root rsp (bytesOf word 8) k)

/-- Inject `argc`, `argv` and `envp` into the stack. -/
def injectArguments (root : Nat) (argv envp : List ArgString) (k : Kmem) : Nat × Kmem :=
  let envp := envp.take 32
  let argv := argv.take 32
  let (envpPtrs, rsp, k) := pushStrings root envp userStackTop k
  let (argvPtrs, rsp, k) := pushStrings root argv rsp k
  let rsp := alignDown rsp 16
  let (rsp, k) := pushWords root (envpPtrs ++ [0]) rsp k
  let (rsp, k) := pushWords root (argvPtrs ++ [0]) rsp k
  pushWords root [argv.length] rsp k

/-- `elf_load_image`. On success the value is the entry point and the initial
stack pointer. -/
def elfLoadImage (k : Kmem) (root : Nat) (img : ElfImage) (argv envp : List ArgString) :
    Except PmmPanic (Except ElfLoadError (Nat × Nat) × Kmem) :=
  match checkElfHeader img with
  | some error => .ok (.error error, k)
  | none =>
    match loadSegments img root (List.range img.ehdr.phnum) false k with
    | .error reason => .error reason
    | .ok (.error error, k) => .ok (.error error, k)
    | .ok (.ok entryFound, k) =>
      if !entryFound then .ok (.error .entryOutOfBounds, k)
      else
        match mapStack root userStackPages (userStackTop - userStackPages * 0x1000) k with
        | .error reason => .error reason
        | .ok (false, k) => .ok (.error .stackError, k)
        | .ok (true, k) =>
          let (rsp, k) := injectArguments root argv envp k
          .ok (.ok (img.ehdr.entry, rsp), k)

/-- The life of an address space: create it, load an image, destroy it. -/
def loadAndDestroy (k : Kmem) (img : ElfImage) (argv envp : List ArgString) :
    Except PmmPanic Kmem :=
  match vmmCreateAddressSpace k with
  | (none, k) => .ok k
  | (some root, k) =>
    match elfLoadImage k root img argv envp with
    | .error reason => .error reason
    | .ok (_, k) => vmmDestroyAddressSpace k root

/-- The header of an executable that starts at `0x400000`, its program headers behind it. -/
def elfHeader (phentsize phnum : UInt8) : List UInt8 :=
  [0x7F, 0x45, 0x4C, 0x46, 2, 1, 1, 0, 0, 0, 0, 0, 0, 0, 0, 0, 2, 0, 62, 0, 1, 0, 0, 0] ++
    [0, 0, 0x40, 0, 0, 0, 0, 0, 64, 0, 0, 0, 0, 0, 0, 0, 0, 0, 0, 0, 0, 0, 0, 0] ++
    [0, 0, 0, 0, 64, 0, phentsize, 0, phnum, 0, 0, 0, 0, 0, 0, 0]

/-- The program header of a segment of one zero byte at `0x400000` plus 256 times `offset`. -/
def byteSegment (flags offset : UInt8) : List UInt8 :=
  [1, 0, 0, 0, flags, 0, 0, 0, 0, 0, 0, 0, 0, 0, 0, 0, 0, offset, 0x40, 0, 0, 0, 0, 0] ++
    [0, 0, 0, 0, 0, 0, 0, 0, 0, 0, 0, 0, 0, 0, 0, 0, 1, 0, 0, 0, 0, 0, 0, 0] ++
    [0, 0x10, 0, 0, 0, 0, 0, 0]

end Kryos.Process
