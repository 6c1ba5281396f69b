import Kryos.Process.ElfMemory
import Kryos.Syscall.WriteExecute

/-! What the ELF loader reads from the file buffer. The segment copies stay in
the file, but the program header table is checked with the entry size that the
file gives while its entries are read as whole `Elf64_Phdr` structures. -/
namespace Kryos.Process

open Word Memory LittleEndian

variable {size offset length page root : Nat} {img : ElfImage} {k : Kmem} {ph : Elf64Phdr}

/-! ### The reads -/

/-- A read from the file buffer. -/
structure FileRead where
  offset : Nat
  length : Nat
  deriving DecidableEq

/-- Every byte of the read is a byte of the file. -/
def FileRead.Inside (read : FileRead) (size : Nat) : Prop :=
  ∀ j < read.length, read.offset + j < size

/-- The fields that `check_elf_header` reads, up to the check that fails. -/
def headerReads (img : ElfImage) : List FileRead :=
  let hdr := img.ehdr
  if img.size < 64 then []
  else ⟨0, 4⟩ ::
    if hdr.magic != elfMagic then []
    else ⟨4, 1⟩ ::
      if hdr.class_ != elfClass64 then []
      else ⟨18, 2⟩ ::
        if hdr.machine != elfMachineAmd64 then [] else [⟨32, 8⟩, ⟨56, 2⟩, ⟨54, 2⟩]

/-- Where program header `i` is read. -/
def ElfImage.phdrBase (img : ElfImage) (i : Nat) : Nat := img.ehdr.phoff + i * img.ehdr.phentsize

/-- The fields that the checks of a loadable segment read, up to the check that fails. A field
that is read again is listed once. -/
def Elf64Phdr.checkReads (ph : Elf64Phdr) (base size : Nat) : List FileRead :=
  ⟨base + 32, 8⟩ :: ⟨base + 40, 8⟩ ::
    if ph.filesz > ph.memsz then []
    else
      let segFileEnd := u64 (ph.offset + ph.filesz)
      ⟨base + 8, 8⟩ ::
        if segFileEnd < ph.offset ∨ segFileEnd > size then []
        else ⟨base + 16, 8⟩ ::
          if ph.segMemEnd < ph.vaddr then []
          else if ph.segMemEnd > 0x00007FFFFFFFFFFF then []
          else [⟨base + 4, 4⟩]

/-- The file bytes that `memcpy` reads for one page. -/
def Elf64Phdr.copyReads (ph : Elf64Phdr) (page : Nat) : List FileRead :=
  let pageOffset := if page < ph.vaddr then ph.vaddr - page else 0
  let copyStart := u64 (page + pageOffset)
  let fileVaddrEnd := u64 (ph.vaddr + ph.filesz)
  if copyStart < fileVaddrEnd then
    let fileOffset := u64 (ph.offset + (copyStart - ph.vaddr))
    let copySize := 0x1000 - pageOffset
    let fileRemaining := fileVaddrEnd - copyStart
    [⟨fileOffset, if copySize > fileRemaining then fileRemaining else copySize⟩]
  else []

/-- The reads of the page loop. -/
def pageReads (img : ElfImage) (ph : Elf64Phdr) (root : Nat) : Nat → Nat → Kmem → List FileRead
  | 0, _, _ => []
  | remaining + 1, page, k =>
    match loadPage img ph root page k with
    | .ok (true, k) => ph.copyReads page ++ pageReads img ph root remaining (page + 0x1000) k
    | _ => []

/-- The reads of the loop over program headers. -/
def segmentReads (img : ElfImage) (root : Nat) : List Nat → Bool → Kmem → List FileRead
  | [], _, _ => []
  | i :: rest, entryFound, k =>
    let ph := img.phdr i
    ⟨img.phdrBase i, 4⟩ ::
      if ph.type != ptLoad then segmentReads img root rest entryFound k
      else
        ph.checkReads (img.phdrBase i) img.size ++
          match ph.check img.size with
          | some _ => []
          | none =>
            (if !entryFound && hasFlag ph.flags pfX then [⟨24, 8⟩] else []) ++
            (pageReads img ph root ph.pageCount ph.startPage k ++
            match loadPages img ph root ph.pageCount ph.startPage k with
            | .ok (true, k) =>
              segmentReads img root rest (entryFound || ph.hasEntry img.ehdr.entry) k
            | _ => [])

/-- Every read of `elf_load_image` from the file buffer, in order. -/
def elfReads (k : Kmem) (root : Nat) (img : ElfImage) (argv envp : List ArgString) :
    List FileRead :=
  headerReads img ++
    match checkElfHeader img with
    | some _ => []
    | none =>
      segmentReads img root (List.range img.ehdr.phnum) false k ++
        match elfLoadImage k root img argv envp with
        | .ok (.ok _, _) => [⟨24, 8⟩]
        | _ => []

/-! ### Reads that stay in the file -/

theorem FileRead.inside_of_le {read : FileRead} (h : read.offset + read.length ≤ size) :
    read.Inside size := fun j hj => by omega

theorem FileRead.inside_iff (hLength : 0 < length) :
    FileRead.Inside ⟨offset, length⟩ size ↔ offset + length ≤ size := by
  constructor
  · intro h
    have hLast := h (length - 1) (Nat.sub_lt hLength Nat.one_pos)
    dsimp only at hLast
    omega
  · exact fun h => FileRead.inside_of_le h

theorem headerReads_inside (img : ElfImage) : ∀ read ∈ headerReads img, read.Inside img.size := by
  intro read hRead
  apply FileRead.inside_of_le
  unfold headerReads at hRead
  dsimp only at hRead
  split at hRead
  · cases hRead
  -- every field of the header ends within its 64 bytes
  have hMem : read ∈ [⟨0, 4⟩, ⟨4, 1⟩, ⟨18, 2⟩, ⟨32, 8⟩, ⟨56, 2⟩, (⟨54, 2⟩ : FileRead)] := by
    split at hRead
    · exact List.mem_of_mem_take (i := 1) hRead
    split at hRead
    · exact List.mem_of_mem_take (i := 2) hRead
    split at hRead
    · exact List.mem_of_mem_take (i := 3) hRead
    exact hRead
  have hEnd : read.offset + read.length ≤ 64 := by
    simp only [List.mem_cons, List.not_mem_nil, or_false] at hMem
    obtain rfl | rfl | rfl | rfl | rfl | rfl := hMem <;> decide
  omega

/-- The checks read the last field they use first. -/
theorem Elf64Phdr.checkReads_inside_iff (ph : Elf64Phdr) (base size : Nat) :
    (∀ read ∈ ph.checkReads base size, read.Inside size) ↔ base + 48 ≤ size := by
  constructor
  · intro h
    have hMemsz : FileRead.Inside ⟨base + 40, 8⟩ size := by
      apply h
      simp [checkReads]
    have := (FileRead.inside_iff (by decide)).mp hMemsz
    omega
  · intro h read hRead
    apply FileRead.inside_of_le
    have hEnd : read.offset + read.length ≤ base + 48 := by
      unfold checkReads at hRead
      dsimp only at hRead
      have hMem : read ∈ [⟨base + 32, 8⟩, ⟨base + 40, 8⟩, ⟨base + 8, 8⟩, ⟨base + 16, 8⟩,
          (⟨base + 4, 4⟩ : FileRead)] := by
        split at hRead
        · exact List.mem_of_mem_take (i := 2) hRead
        split at hRead
        · exact List.mem_of_mem_take (i := 3) hRead
        split at hRead
        · exact List.mem_of_mem_take (i := 4) hRead
        split at hRead
        · exact List.mem_of_mem_take (i := 4) hRead
        exact hRead
      simp only [List.mem_cons, List.not_mem_nil, or_false] at hMem
      obtain rfl | rfl | rfl | rfl | rfl := hMem <;> dsimp only <;> omega
    omega

/-! ### Sums on header fields -/

/-- Where the copy for a page begins. -/
def Elf64Phdr.copyStart (ph : Elf64Phdr) (page : Nat) : Nat :=
  page + if page < ph.vaddr then ph.vaddr - page else 0

theorem Elf64Phdr.copyStart_eq (ph : Elf64Phdr) (page : Nat) :
    ph.copyStart page = max page ph.vaddr := by
  unfold copyStart
  split <;> omega

/-- A sum of the loader either cannot wrap, or the comparison that follows it finds out
whether it has. -/
structure ElfImage.SumsChecked (img : ElfImage) : Prop where
  table : u64 (img.ehdr.phoff + img.ehdr.phnum * img.ehdr.phentsize) < img.ehdr.phoff ↔
    2 ^ 64 ≤ img.ehdr.phoff + img.ehdr.phnum * img.ehdr.phentsize
  -- the product of two 16-bit fields is an `int`
  entries : checkElfHeader img = none → ∀ i < img.ehdr.phnum,
    i * img.ehdr.phentsize < 2 ^ 31 ∧ img.phdrBase i < 2 ^ 64
  file : ∀ i, u64 ((img.phdr i).offset + (img.phdr i).filesz) < (img.phdr i).offset ↔
    2 ^ 64 ≤ (img.phdr i).offset + (img.phdr i).filesz
  memory : ∀ i, u64 ((img.phdr i).vaddr + (img.phdr i).memsz) < (img.phdr i).vaddr ↔
    2 ^ 64 ≤ (img.phdr i).vaddr + (img.phdr i).memsz
  rounding : ∀ i, (img.phdr i).check img.size = none → (img.phdr i).segMemEnd + 0xFFF < 2 ^ 64
  copying : ∀ i, (img.phdr i).check img.size = none → ∀ n < (img.phdr i).pageCount,
    let page := (img.phdr i).startPage + n * 0x1000
    page + 0x1000 < 2 ^ 64 ∧ (img.phdr i).vaddr - page ≤ 0x1000 ∧
    (img.phdr i).copyStart page < 2 ^ 64 ∧ (img.phdr i).vaddr ≤ (img.phdr i).copyStart page ∧
    (img.phdr i).vaddr + (img.phdr i).filesz < 2 ^ 64 ∧
    ((img.phdr i).copyStart page < (img.phdr i).vaddr + (img.phdr i).filesz →
      (img.phdr i).offset + ((img.phdr i).copyStart page - (img.phdr i).vaddr) < 2 ^ 64)

theorem u64_add_lt_iff {a b : Nat} (ha : a < 2 ^ 64) (hb : b < 2 ^ 64) :
    u64 (a + b) < a ↔ 2 ^ 64 ≤ a + b := by
  simp only [u64]
  omega

/-- The header fields and the table that a passed header check has established. -/
theorem checkElfHeader_table (h : checkElfHeader img = none) :
    64 ≤ img.size ∧ img.ehdr.phoff + img.ehdr.phnum * img.ehdr.phentsize ≤ img.size ∧
      img.ehdr.phoff + img.ehdr.phnum * img.ehdr.phentsize < 2 ^ 64 := by
  unfold checkElfHeader at h
  dsimp only at h
  split at h
  · cases h
  split at h
  · cases h
  split at h
  · cases h
  split at h
  · cases h
  split at h
  · cases h
  rename_i hSize _ _ _ hTable
  have hPhoff : img.ehdr.phoff < 2 ^ 64 := readLe_lt _ _ 8
  have hProduct : img.ehdr.phnum * img.ehdr.phentsize < 2 ^ 16 * 2 ^ 16 :=
    Nat.mul_lt_mul'' (readLe_lt _ _ 2) (readLe_lt _ _ 2)
  have hWrap := (u64_add_lt_iff hPhoff (b := img.ehdr.phnum * img.ehdr.phentsize) (by omega)).not.mp
    (fun hLt => hTable (Or.inl hLt))
  rw [u64_of_lt (by omega)] at hTable
  omega

theorem ElfImage.sumsChecked (hSize : img.size ≤ 65536) : img.SumsChecked := by
  have hFits := fun i => img.phdr_fits i
  have hProduct : img.ehdr.phnum * img.ehdr.phentsize < 2 ^ 16 * 2 ^ 16 :=
    Nat.mul_lt_mul'' (readLe_lt _ _ 2) (readLe_lt _ _ 2)
  refine ⟨u64_add_lt_iff (readLe_lt _ _ 8) (by omega), ?_,
    fun i => u64_add_lt_iff (hFits i).offset (hFits i).filesz,
    fun i => u64_add_lt_iff (hFits i).vaddr (hFits i).memsz, ?_, ?_⟩
  · intro hHeader i hi
    have hTable := checkElfHeader_table hHeader
    have hEntry : i * img.ehdr.phentsize ≤ img.ehdr.phnum * img.ehdr.phentsize :=
      Nat.mul_le_mul_right _ hi.le
    unfold phdrBase
    omega
  · intro i hCheck
    have hChecked := (Elf64Phdr.check_iff (hFits i) _).mp hCheck
    have hUser := hChecked.user
    rw [hChecked.memory]
    omega
  · intro i hCheck n hn
    obtain ⟨hFilesz, ⟨hFile, hFileWrap⟩, _, hUser, _⟩ :=
      (Elf64Phdr.check_iff (hFits i) _).mp hCheck
    obtain ⟨hPages, hTop, hStart, hFirst, _⟩ := ((Elf64Phdr.check_iff (hFits i) _).mp hCheck).pages
    dsimp only
    rw [Elf64Phdr.copyStart_eq]
    omega

/-! ### Segment copies -/

section Copies

variable {ph : Elf64Phdr} {size : Nat} (hChecked : ph.Checked size)

include hChecked

theorem Elf64Phdr.Checked.copyReads_inside (hEnd : page ≤ ph.endPage) :
    ∀ read ∈ ph.copyReads page, read.Inside size := by
  obtain ⟨_, hTop, hStart, hFirst, _⟩ := hChecked.pages
  obtain ⟨hFilesz, ⟨hFile, hFileWrap⟩, _, hUser, _⟩ := hChecked
  intro read hRead
  apply FileRead.inside_of_le
  unfold copyReads at hRead
  dsimp only at hRead
  rw [show page + (if page < ph.vaddr then ph.vaddr - page else 0) = ph.copyStart page from rfl,
    copyStart_eq, u64_of_lt (by omega), u64_of_lt (by omega)] at hRead
  split at hRead
  · rw [u64_of_lt (by omega), List.mem_singleton] at hRead
    subst hRead
    dsimp only
    -- whichever bound the copy has, it ends with the file bytes at the latest
    have hCopy : ∀ n, (if n > ph.vaddr + ph.filesz - max page ph.vaddr then
        ph.vaddr + ph.filesz - max page ph.vaddr else n) ≤
          ph.vaddr + ph.filesz - max page ph.vaddr := by
      intro n
      split <;> omega
    have hLength := hCopy (0x1000 - if page < ph.vaddr then ph.vaddr - page else 0)
    omega
  · cases hRead

theorem pageReads_inside (img : ElfImage) (root remaining : Nat)
    (hEnd : page + remaining * 0x1000 ≤ ph.endPage) :
    ∀ read ∈ pageReads img ph root remaining page k, read.Inside size := by
  induction remaining generalizing page k with
  | zero => simp [pageReads]
  | succ remaining ih =>
    intro read hRead
    unfold pageReads at hRead
    split at hRead
    · obtain hRead | hRead := List.mem_append.mp hRead
      · exact hChecked.copyReads_inside (by omega) read hRead
      · exact ih (by omega) read hRead
    · cases hRead

end Copies

/-! ### The program headers -/

/-- How far the loader reads program header `i`. -/
def ElfImage.phdrEnd (img : ElfImage) (i : Nat) : Nat :=
  img.phdrBase i + if (img.phdr i).type == ptLoad then 48 else 4

theorem segmentReads_inside_iff (hSize : 64 ≤ img.size) (root : Nat) (headers : List Nat)
    (entryFound : Bool) (k : Kmem) :
    (∀ read ∈ segmentReads img root headers entryFound k, read.Inside img.size) ↔
      ∀ n i, headers[n]? = some i →
        (∃ found k', loadSegments img root (headers.take n) entryFound k = .ok (.ok found, k')) →
        img.phdrEnd i ≤ img.size := by
  induction headers generalizing entryFound k with
  | nil => simp [segmentReads]
  | cons i rest ih =>
    -- header `i` itself, and the headers that the loop reaches after it
    have hSplit : (∀ n j, (i :: rest)[n]? = some j →
        (∃ found k',
          loadSegments img root ((i :: rest).take n) entryFound k = .ok (.ok found, k')) →
        img.phdrEnd j ≤ img.size) ↔
        img.phdrEnd i ≤ img.size ∧ ∀ n j, rest[n]? = some j →
          (∃ found k', loadSegments img root (i :: rest.take n) entryFound k =
            .ok (.ok found, k')) → img.phdrEnd j ≤ img.size := by
      constructor
      · intro h
        exact ⟨h 0 i rfl ⟨entryFound, k, rfl⟩, fun n j hj => h (n + 1) j hj⟩
      · rintro ⟨hFirst, hRest⟩ n j hj hReached
        cases n with
        | zero =>
          cases Option.some.inj hj
          exact hFirst
        | succ n => exact hRest n j hj hReached
    rw [hSplit, segmentReads, List.forall_mem_cons, FileRead.inside_iff (by decide)]
    by_cases hType : (img.phdr i).type = ptLoad
    · have hEnd : img.phdrEnd i = img.phdrBase i + 48 := by
        rw [ElfImage.phdrEnd, hType, if_pos (by rfl)]
      have hType' : ((img.phdr i).type != ptLoad) = false := by rw [hType]; rfl
      simp only [loadSegments, hType', Bool.false_eq_true, if_false]
      rw [List.forall_mem_append, Elf64Phdr.checkReads_inside_iff, hEnd]
      cases hCheck : (img.phdr i).check img.size with
      | some error =>
        simp only [List.not_mem_nil, false_implies, implies_true, and_true]
        constructor
        · exact fun h => ⟨h.2, by simp⟩
        · exact fun h => ⟨by omega, h.1⟩
      | none =>
        have hChecked := (Elf64Phdr.check_iff (img.phdr_fits i) _).mp hCheck
        have hEntry : ∀ read ∈ (if !entryFound && hasFlag (img.phdr i).flags pfX then
            [(⟨24, 8⟩ : FileRead)] else []), read.Inside img.size := by
          intro read hRead
          split at hRead
          · rw [List.mem_singleton] at hRead
            subst hRead
            exact FileRead.inside_of_le (by dsimp only; omega)
          · cases hRead
        have hPages := pageReads_inside hChecked img root (img.phdr i).pageCount
          (show (img.phdr i).startPage + (img.phdr i).pageCount * 0x1000 ≤ _ from
            hChecked.pages.1.le) (k := k)
        have hHeader : img.phdrBase i + 48 ≤ img.size → img.phdrBase i + 4 ≤ img.size := by omega
        rw [List.forall_mem_append, List.forall_mem_append]
        -- only what is reached after the segment is left to compare
        rw [← and_assoc, and_iff_right_of_imp hHeader]
        refine and_congr_right fun _ => ?_
        rw [and_iff_right hEntry, and_iff_right hPages]
        obtain reason | ⟨_ | _, k'⟩ :=
          loadPages img (img.phdr i) root (img.phdr i).pageCount (img.phdr i).startPage k
        · simp
        · simp
        · exact ih _ k'
    · have hEnd : img.phdrEnd i = img.phdrBase i + 4 := by
        rw [ElfImage.phdrEnd, if_neg (by rwa [beq_iff_eq])]
      have hType' : ((img.phdr i).type != ptLoad) = true := by rwa [bne_iff_ne]
      simp only [loadSegments, hType', if_true]
      rw [hEnd]
      exact and_congr_right fun _ => ih entryFound k

/-- The program headers that the loader reaches lie in the file, as far as it reads them. -/
def HeadersInside (k : Kmem) (root : Nat) (img : ElfImage) : Prop :=
  checkElfHeader img = none → ∀ i < img.ehdr.phnum,
    (∃ found k', loadSegments img root (List.range i) false k = .ok (.ok found, k')) →
    img.phdrEnd i ≤ img.size

/-- The loader reads bytes of the file only, and no sum on header fields wraps unnoticed. -/
def ReadsOnlyFile (k : Kmem) (root : Nat) (img : ElfImage) (argv envp : List ArgString) : Prop :=
  (∀ read ∈ elfReads k root img argv envp, read.Inside img.size) ∧ img.SumsChecked

theorem elfReads_inside_iff (k : Kmem) (root : Nat) (img : ElfImage) (argv envp : List ArgString) :
    (∀ read ∈ elfReads k root img argv envp, read.Inside img.size) ↔ HeadersInside k root img := by
  unfold elfReads HeadersInside
  rw [List.forall_mem_append, and_iff_right (headerReads_inside img)]
  cases hHeader : checkElfHeader img with
  | some error => simp
  | none =>
    have hSize := (checkElfHeader_table hHeader).1
    have hEntry : ∀ read ∈ (match elfLoadImage k root img argv envp with
        | .ok (.ok _, _) => [(⟨24, 8⟩ : FileRead)]
        | _ => []), read.Inside img.size := by
      intro read hRead
      split at hRead
      · rw [List.mem_singleton] at hRead
        subst hRead
        exact FileRead.inside_of_le (by dsimp only; omega)
      · cases hRead
    rw [List.forall_mem_append, and_iff_left hEntry, segmentReads_inside_iff hSize]
    simp only [true_implies]
    constructor
    · intro h i hi hReached
      refine h i i (List.getElem?_range hi) ?_
      rwa [List.take_range, Nat.min_eq_left hi.le]
    · intro h n i hn hReached
      obtain ⟨hLt, rfl⟩ := List.getElem?_eq_some_iff.mp hn
      rw [List.length_range] at hLt
      rw [List.take_range, Nat.min_eq_left hLt.le] at hReached
      rw [List.getElem_range]
      exact h n hLt hReached

/-- Entries of at least 48 bytes are enough. -/
theorem headersInside_of_phentsize (h : 48 ≤ img.ehdr.phentsize) (k : Kmem) (root : Nat) :
    HeadersInside k root img := by
  intro hHeader i hi _
  have hTable := (checkElfHeader_table hHeader).2.1
  have hNext : (i + 1) * img.ehdr.phentsize ≤ img.ehdr.phnum * img.ehdr.phentsize :=
    Nat.mul_le_mul_right _ hi
  rw [Nat.succ_mul] at hNext
  unfold ElfImage.phdrEnd ElfImage.phdrBase
  split <;> omega

/-- A load reads nothing but the file exactly if the program headers that it reads lie in
the file. -/
theorem elf_reads_only_file_iff (k : Kmem) (root : Nat) {img : ElfImage}
    (argv envp : List ArgString) (hSize : img.size ≤ 65536) :
    ReadsOnlyFile k root img argv envp ↔ HeadersInside k root img := by
  unfold ReadsOnlyFile
  rw [elfReads_inside_iff, and_iff_left (ElfImage.sumsChecked hSize)]

section Example

open Syscall

theorem elf_reads_only_file_iff_codeAndData :
    ReadsOnlyFile directMapMachine 0x8000 codeAndDataElf [] [] :=
  (elf_reads_only_file_iff directMapMachine 0x8000 [] [] (by decide +kernel)).mpr
    (headersInside_of_phentsize (by decide +kernel) _ _)

/-- A file that ends with its ELF header, and one program header of size zero behind it. -/
def shortTableElf : ElfImage where
  data := fun i => (elfHeader 0 1).getD i 0
  size := 64

/-- The type of the program header is read behind the end of the file. -/
theorem shortTable_reads_outside :
    shortTableElf.size = 64 ∧ ⟨64, 4⟩ ∈ elfReads directMapMachine 0x8000 shortTableElf [] [] ∧
      ¬ ReadsOnlyFile directMapMachine 0x8000 shortTableElf [] [] := by
  have hMem : ⟨64, 4⟩ ∈ elfReads directMapMachine 0x8000 shortTableElf [] [] := by decide +kernel
  refine ⟨rfl, hMem, fun h => ?_⟩
  have hFirst := h.1 _ hMem 0 (by decide)
  exact absurd hFirst (by decide)

end Example

/-! ### The list is complete

A load depends on the file only through its size and the bytes that are listed as read. -/

section Complete

variable {img img' : ElfImage}

/-- Both files have the same bytes where one of them is read. -/
def SameAt (img img' : ElfImage) (read : FileRead) : Prop :=
  ∀ j < read.length, img'.data (read.offset + j) = img.data (read.offset + j)

theorem header_same (hSize : img'.size = img.size)
    (h : ∀ read ∈ headerReads img, SameAt img img' read) :
    checkElfHeader img' = checkElfHeader img ∧ (checkElfHeader img = none →
      img'.ehdr.phnum = img.ehdr.phnum ∧ ∀ i, img'.phdrBase i = img.phdrBase i) := by
  unfold headerReads at h
  unfold checkElfHeader
  rw [hSize]
  by_cases hShort : img.size < 64
  · simp [hShort]
  rw [if_neg hShort, List.forall_mem_cons] at h
  have hMagic : img'.ehdr.magic = img.ehdr.magic := readLe_congr h.1
  rw [if_neg hShort, if_neg hShort, hMagic]
  by_cases hBad : img.ehdr.magic != elfMagic
  · simp [hBad]
  rw [if_neg hBad, List.forall_mem_cons] at h
  have hClass : img'.ehdr.class_ = img.ehdr.class_ := readLe_congr h.2.1
  rw [if_neg hBad, if_neg hBad, hClass]
  by_cases hUnsupported : img.ehdr.class_ != elfClass64
  · simp [hUnsupported]
  rw [if_neg hUnsupported, List.forall_mem_cons] at h
  have hMachine : img'.ehdr.machine = img.ehdr.machine := readLe_congr h.2.2.1
  rw [if_neg hUnsupported, if_neg hUnsupported, hMachine]
  by_cases hWrong : img.ehdr.machine != elfMachineAmd64
  · simp [hWrong]
  rw [if_neg hWrong, List.forall_mem_cons, List.forall_mem_cons, List.forall_mem_cons] at h
  have hPhoff : img'.ehdr.phoff = img.ehdr.phoff := readLe_congr h.2.2.2.1
  have hPhnum : img'.ehdr.phnum = img.ehdr.phnum := readLe_congr h.2.2.2.2.1
  have hPhentsize : img'.ehdr.phentsize = img.ehdr.phentsize := readLe_congr h.2.2.2.2.2.1
  rw [hPhoff, hPhnum, hPhentsize]
  refine ⟨rfl, fun _ => ⟨rfl, fun i => ?_⟩⟩
  rw [ElfImage.phdrBase, ElfImage.phdrBase, hPhoff, hPhentsize]

/-- A field of a program header, if its bytes are read. -/
theorem field_same {base base' : Nat} (hBase : base' = base)
    (h : SameAt img img' ⟨base + offset, length⟩) :
    readLe img'.data (base' + offset) length = readLe img.data (base + offset) length := by
  rw [hBase]
  exact readLe_congr h

/-- The checks compare fields that are read, and a header that passes is read in full. -/
theorem check_same {i : Nat} (hBase : img'.phdrBase i = img.phdrBase i)
    (hType : (img'.phdr i).type = (img.phdr i).type)
    (h : ∀ read ∈ (img.phdr i).checkReads (img.phdrBase i) img.size, SameAt img img' read) :
    (img'.phdr i).check img.size = (img.phdr i).check img.size ∧
      ((img.phdr i).check img.size = none → img'.phdr i = img.phdr i) := by
  unfold Elf64Phdr.checkReads at h
  rw [List.forall_mem_cons, List.forall_mem_cons] at h
  have hFilesz : (img'.phdr i).filesz = (img.phdr i).filesz := field_same hBase h.1
  have hMemsz : (img'.phdr i).memsz = (img.phdr i).memsz := field_same hBase h.2.1
  unfold Elf64Phdr.check
  rw [hFilesz, hMemsz]
  by_cases hGt : (img.phdr i).filesz > (img.phdr i).memsz
  · simp [hGt]
  rw [if_neg hGt, List.forall_mem_cons] at h
  have hOffset : (img'.phdr i).offset = (img.phdr i).offset := field_same hBase h.2.2.1
  rw [if_neg hGt, if_neg hGt, hOffset]
  by_cases hOutside : u64 ((img.phdr i).offset + (img.phdr i).filesz) < (img.phdr i).offset ∨
      u64 ((img.phdr i).offset + (img.phdr i).filesz) > img.size
  · simp [hOutside]
  rw [if_neg hOutside, List.forall_mem_cons] at h
  have hVaddr : (img'.phdr i).vaddr = (img.phdr i).vaddr := field_same hBase h.2.2.2.1
  have hEnd : (img'.phdr i).segMemEnd = (img.phdr i).segMemEnd := by
    rw [Elf64Phdr.segMemEnd, Elf64Phdr.segMemEnd, hVaddr, hMemsz]
  rw [if_neg hOutside, if_neg hOutside, hVaddr, hEnd]
  by_cases hWrap : (img.phdr i).segMemEnd < (img.phdr i).vaddr
  · simp [hWrap]
  rw [if_neg hWrap] at h
  rw [if_neg hWrap, if_neg hWrap]
  by_cases hKernel : (img.phdr i).segMemEnd > 0x00007FFFFFFFFFFF
  · simp [hKernel]
  rw [if_neg hKernel, List.forall_mem_cons] at h
  have hFlags : (img'.phdr i).flags = (img.phdr i).flags := field_same hBase h.2.2.2.2.1
  rw [if_neg hKernel, if_neg hKernel, hFlags]
  refine ⟨rfl, fun _ => ?_⟩
  cases hHeader : img.phdr i
  cases hHeader' : img'.phdr i
  simp only [hHeader, hHeader'] at hType hFilesz hMemsz hOffset hVaddr hFlags
  rw [hType, hFilesz, hMemsz, hOffset, hVaddr, hFlags]

theorem copyIn_congr {first second : Nat → UInt8} (k : Kmem) (dst : Nat) {n : Nat}
    (h : ∀ i < n, first i = second i) : copyIn k dst first n = copyIn k dst second n := by
  induction n with
  | zero => rfl
  | succ n ih => rw [copyIn, copyIn, ih fun i hi => h i (by omega), h n (by omega)]

theorem copySegment_same (vpage : Nat) (k : Kmem)
    (h : ∀ read ∈ ph.copyReads page, SameAt img img' read) :
    copySegment img' ph page vpage k = copySegment img ph page vpage k := by
  unfold Elf64Phdr.copyReads at h
  unfold copySegment
  dsimp only at h ⊢
  generalize (if page < ph.vaddr then ph.vaddr - page else 0) = pageOffset at h ⊢
  split
  · rename_i hCopies
    rw [if_pos hCopies, List.forall_mem_singleton] at h
    exact copyIn_congr k _ h
  · rfl

theorem loadPages_same (remaining : Nat)
    (h : ∀ read ∈ pageReads img ph root remaining page k, SameAt img img' read) :
    loadPages img' ph root remaining page k = loadPages img ph root remaining page k := by
  induction remaining generalizing page k with
  | zero => rfl
  | succ remaining ih =>
    unfold pageReads loadPage at h
    unfold loadPages loadPage
    generalize ensureMapped k root page ph.vmmFlags = mapped at h ⊢
    obtain reason | ⟨_ | _, k'⟩ := mapped
    · rfl
    · rfl
    · dsimp only at h ⊢
      rw [List.forall_mem_append] at h
      rw [copySegment_same _ _ h.1]
      exact ih h.2

theorem loadSegments_same (hSize : img'.size = img.size)
    (hBase : ∀ i, img'.phdrBase i = img.phdrBase i) (headers : List Nat) {entryFound : Bool}
    (h : ∀ read ∈ segmentReads img root headers entryFound k, SameAt img img' read) :
    loadSegments img' root headers entryFound k = loadSegments img root headers entryFound k := by
  induction headers generalizing entryFound k with
  | nil => rfl
  | cons i rest ih =>
    rw [segmentReads, List.forall_mem_cons] at h
    have hType : (img'.phdr i).type = (img.phdr i).type := by
      show readLe img'.data (img'.phdrBase i) 4 = readLe img.data (img.phdrBase i) 4
      rw [hBase]
      exact readLe_congr h.1
    unfold loadSegments
    dsimp only
    rw [hType, hSize]
    by_cases hLoad : (img.phdr i).type != ptLoad
    · rw [if_pos hLoad, if_pos hLoad]
      rw [if_pos hLoad] at h
      exact ih h.2
    · rw [if_neg hLoad, List.forall_mem_append] at h
      obtain ⟨hCheck, hHeader⟩ := check_same (hBase i) hType h.2.1
      rw [if_neg hLoad, if_neg hLoad, hCheck]
      cases hPassed : (img.phdr i).check img.size with
      | some error => rfl
      | none =>
        rw [hPassed] at h
        rw [List.forall_mem_append, List.forall_mem_append] at h
        obtain ⟨hEntry, hPages, hRest⟩ := h.2.2
        rw [hHeader hPassed, loadPages_same _ hPages]
        -- the entry point is only read while it has not been found
        have hFound : (entryFound || (img.phdr i).hasEntry img'.ehdr.entry) =
            (entryFound || (img.phdr i).hasEntry img.ehdr.entry) := by
          by_cases hRead : (!entryFound && hasFlag (img.phdr i).flags pfX) = true
          · rw [if_pos hRead, List.forall_mem_singleton] at hEntry
            rw [show img'.ehdr.entry = img.ehdr.entry from readLe_congr hEntry]
          · unfold Elf64Phdr.hasEntry
            cases entryFound <;> simp_all
        rw [hFound]
        generalize loadPages img (img.phdr i) root (img.phdr i).pageCount (img.phdr i).startPage k =
          loaded at hRest ⊢
        obtain reason | ⟨_ | _, k'⟩ := loaded
        · rfl
        · rfl
        · exact ih hRest

/-- A load depends on the file only through the bytes that it reads. -/
theorem elfLoadImage_same (k : Kmem) (root : Nat) (argv envp : List ArgString)
    (hSize : img'.size = img.size)
    (h : ∀ read ∈ elfReads k root img argv envp, SameAt img img' read) :
    elfLoadImage k root img' argv envp = elfLoadImage k root img argv envp := by
  unfold elfReads at h
  rw [List.forall_mem_append] at h
  obtain ⟨hHeader, hRest⟩ := h
  obtain ⟨hCheck, hTable⟩ := header_same hSize hHeader
  cases hPassed : checkElfHeader img with
  | some error => rw [elfLoadImage, elfLoadImage, hCheck, hPassed]
  | none =>
    obtain ⟨hPhnum, hBase⟩ := hTable hPassed
    rw [hPassed] at hRest
    rw [List.forall_mem_append] at hRest
    obtain ⟨hSegments, hEntry⟩ := hRest
    have hSame := loadSegments_same hSize hBase _ hSegments
    unfold elfLoadImage at hEntry ⊢
    rw [hPassed] at hEntry
    rw [hCheck, hPassed, hPhnum]
    rw [hSame]
    generalize loadSegments img root (List.range img.ehdr.phnum) false k = segments at hEntry ⊢
    obtain reason | ⟨error | entryFound, k₁⟩ := segments
    · rfl
    · rfl
    dsimp only at hEntry ⊢
    cases entryFound with
    | false => rw [Bool.not_false, if_pos rfl, if_pos rfl]
    | true =>
    rw [Bool.not_true, if_neg Bool.false_ne_true] at hEntry ⊢
    rw [if_neg Bool.false_ne_true]
    obtain ⟨stack, hStack⟩ : ∃ stack,
        mapStack root userStackPages (userStackTop - userStackPages * 0x1000) k₁ = stack := ⟨_, rfl⟩
    rw [hStack] at hEntry ⊢
    obtain reason | ⟨ok, k₂⟩ := stack
    · rfl
    cases ok with
    | false => rfl
    | true =>
      -- a load that succeeds looks at the entry point once more
      have hStart : img'.ehdr.entry = img.ehdr.entry :=
        readLe_congr (hEntry _ (List.mem_singleton_self _))
      rw [hStart]

end Complete

/-- The type of the file, at offset 16, is never read. -/
theorem elfLoadImage_same_type : elfLoadImage Syscall.directMapMachine 0x8000
      { shortTableElf with data := Function.update shortTableElf.data 16 3 } [] [] =
    elfLoadImage Syscall.directMapMachine 0x8000 shortTableElf [] [] :=
  elfLoadImage_same _ 0x8000 [] [] rfl (by unfold SameAt; decide +kernel)

end Kryos.Process
