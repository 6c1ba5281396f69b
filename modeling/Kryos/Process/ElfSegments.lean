import Kryos.Process.ArgumentBlock
import Kryos.Syscall.WriteExecute

/-! The segments in memory after a successful load: which bytes, which pages and
which permissions. Where segments share a page, later file bytes win, but the
page keeps the permissions of the segment that mapped it. -/
namespace Kryos.Process

open Word Memory

variable {k k' : Kmem} {root entry rsp va i : Nat} {img : ElfImage} {argv envp : List ArgString}

/-- The lowest address of the stack. -/
def userStackBottom : Nat := userStackTop - userStackPages * 0x1000

/-! ### A successful load -/

/-- What a successful `elf_load_image` leaves, on the memory that it found. -/
structure LoadedImage (k k' : Kmem) (root : Nat) (foreign : Nat → Prop) (img : ElfImage)
    (argv envp : List ArgString) (entry rsp : Nat) : Prop where
  step : SpaceStep k k' root foreign
  entry_eq : entry = img.ehdr.entry
  rsp_eq : rsp = blockBase (argv.take 32) (envp.take 32)
  checked : ∀ i < img.ehdr.phnum, (img.phdr i).type = ptLoad → (img.phdr i).Checked img.size
  found : ∃ i < img.ehdr.phnum, (img.phdr i).type = ptLoad ∧ (img.phdr i).hasEntry entry = true
  stackFree : ∀ va, userStackBottom ≤ va → va < userStackTop →
    (List.range img.ehdr.phnum).foldl (loadHeader img) (k.memory root) va = none
  memory : k'.memory root = blockOn (argv.take 32) (envp.take 32)
    (((List.range img.ehdr.phnum).foldl (loadHeader img) (k.memory root)).clear userStackBottom
      userStackTop stackAccess)

theorem injectArguments_take (root : Nat) (argv envp : List ArgString) (k : Kmem) :
    injectArguments root argv envp k = injectArguments root (argv.take 32) (envp.take 32) k := by
  unfold injectArguments
  rw [List.take_take, List.take_take, Nat.min_self]

theorem elfLoadImage_eq_ok : elfLoadImage k root img argv envp = .ok (.ok (entry, rsp), k') ↔
    checkElfHeader img = none ∧
      ∃ k₁ k₂, loadSegments img root (List.range img.ehdr.phnum) false k = .ok (.ok true, k₁) ∧
        mapStack root userStackPages userStackBottom k₁ = .ok (true, k₂) ∧
        injectArguments root argv envp k₂ = (rsp, k') ∧ entry = img.ehdr.entry := by
  constructor
  · intro hLoad
    unfold elfLoadImage at hLoad
    split at hLoad
    · cases hLoad
    rename_i hHeader
    split at hLoad
    · cases hLoad
    · cases hLoad
    rename_i entryFound k₁ hSegments
    cases entryFound with
    | false => cases hLoad
    | true =>
      rw [Bool.not_true, if_neg Bool.false_ne_true] at hLoad
      split at hLoad
      · cases hLoad
      · cases hLoad
      · rename_i k₂ hStack
        simp only [Except.ok.injEq, Prod.mk.injEq] at hLoad
        exact ⟨hHeader, k₁, k₂, hSegments, hStack, Prod.ext hLoad.1.2 hLoad.2, hLoad.1.1.symm⟩
  · rintro ⟨hHeader, k₁, k₂, hSegments, hStack, hInject, rfl⟩
    unfold elfLoadImage
    simp only [hHeader, hSegments, Bool.not_true, Bool.false_eq_true, if_false]
    rw [show userStackTop - userStackPages * 0x1000 = userStackBottom from rfl, hStack]
    dsimp only
    rw [hInject]

theorem elfLoadImage_loaded {foreign : Nat → Prop} (h : Space k root foreign noSpare)
    (hLoad : elfLoadImage k root img argv envp = .ok (.ok (entry, rsp), k')) :
    LoadedImage k k' root foreign img argv envp entry rsp := by
  obtain ⟨_, k₁, k₂, hSegments, hStack, hInject, hStart⟩ := elfLoadImage_eq_ok.mp hLoad
  obtain ⟨hStep₁, hMemory₁, hChecks, hEntry⟩ := loadSegments_memory img _ false h hSegments
  obtain ⟨hStep₂, hFree, hMemory₂, _⟩ := mapStack_memory userStackPages hStep₁.space (by decide)
    (by decide) hStack
  have hTop : userStackBottom + userStackPages * 0x1000 = userStackTop := by decide
  rw [hTop] at hMemory₂
  rw [hTop, hMemory₁] at hFree
  obtain ⟨k₃, hInject₃, hStep₃, hMemory₃⟩ := injectArguments_memory
    (List.length_take_le 32 argv) (List.length_take_le 32 envp) hStep₂.space
  rw [injectArguments_take, hInject₃] at hInject
  cases hInject
  refine ⟨(hStep₁.trans hStep₂).trans hStep₃, hStart, rfl, ?_, ?_, hFree, ?_⟩
  · exact fun i hi => hChecks i (List.mem_range.mpr hi)
  · obtain hNone | ⟨i, hi, hIs⟩ := hEntry rfl
    · cases hNone
    · rw [← hStart] at hIs
      exact ⟨i, List.mem_range.mp hi, hIs⟩
  · rw [hMemory₃, hMemory₂, hMemory₁]

/-! ### The image of the segments -/

section Image

variable (img : ElfImage)

/-- Header `i` is a loadable segment with `va` on one of its pages. -/
def covers (va i : Nat) : Bool :=
  (img.phdr i).type == ptLoad && decide ((img.phdr i).startPage ≤ va ∧ va < (img.phdr i).endPage)

/-- Header `i` is a loadable segment with a file byte at `va`. -/
def hasFileByte (va i : Nat) : Bool :=
  (img.phdr i).type == ptLoad &&
    decide ((img.phdr i).vaddr ≤ va ∧ va < (img.phdr i).vaddr + (img.phdr i).filesz)

/-- The file bytes of the headers at one address, over what was there. -/
def overlay (va : Nat) (headers : List Nat) (byte : UInt8) : UInt8 :=
  headers.foldl (fun byte i => if hasFileByte img va i then
    img.data ((img.phdr i).offset + (va - (img.phdr i).vaddr)) else byte) byte

theorem covers_of_hasFileByte (hChecked : (img.phdr i).type = ptLoad →
    (img.phdr i).Checked img.size) (h : hasFileByte img va i = true) : covers img va i = true := by
  rw [hasFileByte, Bool.and_eq_true, beq_iff_eq, decide_eq_true_eq] at h
  obtain ⟨hType, hIn⟩ := h
  have hSizes := (hChecked hType).filesz
  obtain ⟨_, _, hStart, _, hEnd⟩ := (hChecked hType).pages
  rw [covers, Bool.and_eq_true, beq_iff_eq, decide_eq_true_eq]
  exact ⟨hType, by omega, by omega⟩

theorem loadHeader_at (m : Sparse.Memory Access) (va i : Nat) :
    loadHeader img m i va = if covers img va i then
      some ⟨overlay img va [i] ((m va).getD ⟨0, Access.requested (img.phdr i).vmmFlags⟩).byte,
        ((m va).getD ⟨0, Access.requested (img.phdr i).vmmFlags⟩).attr⟩
    else m va := by
  unfold loadHeader covers overlay hasFileByte
  by_cases hType : (img.phdr i).type = ptLoad
  · simp only [hType, bne_self_eq_false, Bool.false_eq_true, if_false, beq_self_eq_true,
      Bool.true_and, decide_eq_true_eq, List.foldl_cons, List.foldl_nil]
    unfold loadOn
    by_cases hIn : (img.phdr i).startPage ≤ va ∧ va < (img.phdr i).endPage
    · rw [if_pos hIn, if_pos hIn]
      split <;> rfl
    · rw [if_neg hIn, if_neg hIn]
  · have hOther : ((img.phdr i).type == ptLoad) = false := by simpa using hType
    simp [bne, hOther]

/-- All headers at one address. What was mapped keeps its access; what was not gets the
access of the first segment that covers it. -/
theorem loadHeaders_at (headers : List Nat) (hChecked : ∀ i ∈ headers, (img.phdr i).type = ptLoad →
    (img.phdr i).Checked img.size) (m : Sparse.Memory Access) (va : Nat) :
    headers.foldl (loadHeader img) m va =
      match m va with
      | some c => some ⟨overlay img va headers c.byte, c.attr⟩
      | none => (headers.find? (covers img va)).map fun first =>
        ⟨overlay img va headers 0, Access.requested (img.phdr first).vmmFlags⟩ := by
  induction headers generalizing m with
  | nil =>
    cases hCell : m va with
    | none => exact hCell
    | some c => exact hCell
  | cons i rest ih =>
    have hRest := ih (fun j hj => hChecked j (List.mem_cons_of_mem i hj)) (loadHeader img m i)
    rw [List.foldl_cons, hRest, loadHeader_at]
    cases hCovers : covers img va i with
    | true =>
      cases hCell : m va with
      | some c => rfl
      | none =>
        rw [List.find?_cons_of_pos hCovers]
        rfl
    | false =>
      have hNoByte : hasFileByte img va i = false := by
        rw [Bool.eq_false_iff]
        intro hByte
        rw [covers_of_hasFileByte img (hChecked i List.mem_cons_self) hByte] at hCovers
        cases hCovers
      have hSkip (byte : UInt8) : overlay img va (i :: rest) byte = overlay img va rest byte := by
        rw [overlay, List.foldl_cons, hNoByte]
        rfl
      rw [if_neg Bool.false_ne_true,
        List.find?_cons_of_neg (by rw [hCovers]; exact Bool.false_ne_true)]
      simp only [hSkip]

end Image

/-! ### What is read, mapped and permitted -/

/-- The page of `va` has a byte of the segment. -/
def Elf64Phdr.TouchesPage (ph : Elf64Phdr) (va : Nat) : Prop :=
  ∃ a, ph.vaddr ≤ a ∧ a < ph.vaddr + ph.memsz ∧ va / 0x1000 = a / 0x1000

/-- The page of `va` is the one page of an empty segment that does not begin at a page. -/
def Elf64Phdr.EmptyPage (ph : Elf64Phdr) (va : Nat) : Prop :=
  ph.memsz = 0 ∧ ph.vaddr % 0x1000 ≠ 0 ∧ va / 0x1000 = ph.vaddr / 0x1000

theorem Elf64Phdr.Checked.covered_iff {ph : Elf64Phdr} {size : Nat}
    (h : ph.Checked size) (va : Nat) :
    ph.startPage ≤ va ∧ va < ph.endPage ↔ ph.TouchesPage va ∨ ph.EmptyPage va := by
  have hStart := h.startPage_eq
  have hEnd := h.endPage_eq
  constructor
  · rintro ⟨hLow, hHigh⟩
    by_cases hEmpty : ph.memsz = 0
    · exact Or.inr ⟨hEmpty, by omega, by omega⟩
    · exact Or.inl ⟨max ph.vaddr (va / 0x1000 * 0x1000), by omega, by omega, by omega⟩
  · rintro (⟨a, hLow, hHigh, hPage⟩ | ⟨hEmpty, hUnaligned, hPage⟩) <;> omega

theorem Elf64Phdr.vmmFlags_access (ph : Elf64Phdr) : Access.requested ph.vmmFlags =
    ⟨true, hasFlag ph.flags pfW, !hasFlag ph.flags pfX⟩ := by
  unfold vmmFlags
  cases hasFlag ph.flags pfW <;> cases hasFlag ph.flags pfX <;> decide

section Block

variable {argv envp : List ArgString} (hArgv : argv.length ≤ 32) (hEnvp : envp.length ≤ 32)

include hArgv hEnvp

theorem blockOn_outside (m : Sparse.Memory Access)
    (h : va < blockBase argv envp ∨ userStackTop ≤ va) : blockOn argv envp m va = m va := by
  obtain ⟨hEnvpBase, hArgvBase, hWords, _⟩ := layout_bounds hArgv hEnvp
  rw [blockOn, Sparse.Memory.putList_outside, Sparse.Memory.putList_outside]
  · rw [List.length_append]
    omega
  · rw [wordBytes_length, blockWords_length]
    omega

omit hArgv hEnvp in
theorem putList_attr (m : Sparse.Memory Access) (base : Nat) (bytes : List UInt8) (va : Nat) :
    (m.putList base bytes va).map Sparse.Cell.attr = (m va).map Sparse.Cell.attr := by
  unfold Sparse.Memory.putList Sparse.Memory.put
  split
  · rw [Option.map_map]
    rfl
  · rfl

omit hArgv hEnvp in
theorem blockOn_attr (m : Sparse.Memory Access) (va : Nat) :
    (blockOn argv envp m va).map Sparse.Cell.attr = (m va).map Sparse.Cell.attr := by
  rw [blockOn, putList_attr, putList_attr]

end Block

section Fresh

variable {k k' : Kmem} {root entry rsp : Nat} {foreign : Nat → Prop} {img : ElfImage}
  {argv envp : List ArgString}

theorem memory_of_fresh (h : Space k root foreign noSpare)
    (hFresh : ∀ va < 2 ^ 47, vmmGetPhys k root va = none) : k.memory root = fun _ => none := by
  funext va
  unfold Kmem.memory
  split
  · rename_i hva
    have hNone := hFresh va hva
    rw [h.inv.getPhys hva, Option.map_eq_none_iff] at hNone
    rw [hNone]
    rfl
  · rfl

/-- The cell that the segments leave at an address. -/
def segmentCell (img : ElfImage) (va : Nat) : Option (Sparse.Cell Access) :=
  ((List.range img.ehdr.phnum).find? (covers img va)).map fun first =>
    ⟨overlay img va (List.range img.ehdr.phnum) 0,
      ⟨true, hasFlag (img.phdr first).flags pfW, !hasFlag (img.phdr first).flags pfX⟩⟩

variable (hLoaded : LoadedImage k k' root foreign img argv envp entry rsp)
  (hEmpty : k.memory root = fun _ => none)

include hLoaded hEmpty

theorem LoadedImage.segments_at (va : Nat) :
    (List.range img.ehdr.phnum).foldl (loadHeader img) (k.memory root) va = segmentCell img va := by
  rw [loadHeaders_at img _ (fun i hi => hLoaded.checked i (List.mem_range.mp hi)),
    hEmpty, segmentCell]
  simp only [Elf64Phdr.vmmFlags_access]

theorem LoadedImage.segments_outside (h : segmentCell img va ≠ none) :
    va < userStackBottom ∨ userStackTop ≤ va := by
  by_contra hIn
  push Not at hIn
  have hFree := hLoaded.stackFree va hIn.1 hIn.2
  rw [hLoaded.segments_at hEmpty] at hFree
  exact h hFree

/-- Outside the stack memory is that of the segments, if the argument block fits. -/
theorem LoadedImage.memory_outside
    (hFit : blockSize (argv.take 32) (envp.take 32) ≤ userStackPages * 0x1000)
    (hva : va < userStackBottom ∨ userStackTop ≤ va) : k'.memory root va = segmentCell img va := by
  have hArgv := List.length_take_le 32 argv
  have hEnvp := List.length_take_le 32 envp
  have hSize := blockBase_add_size hArgv hEnvp
  have hBottom : userStackBottom + userStackPages * 0x1000 = userStackTop := by decide
  rw [hLoaded.memory, blockOn_outside hArgv hEnvp _ (by omega), Sparse.Memory.clear,
    if_neg (by omega), hLoaded.segments_at hEmpty]

/-- The permissions of the segments, whatever the argument block does. -/
theorem LoadedImage.access_at {c : Sparse.Cell Access} (hCell : segmentCell img va = some c) :
    (k'.memory root va).map Sparse.Cell.attr = some c.attr := by
  have hOutside : va < userStackBottom ∨ userStackTop ≤ va :=
    hLoaded.segments_outside hEmpty (by simp [hCell])
  rw [hLoaded.memory, blockOn_attr, Sparse.Memory.clear, if_neg (by omega),
    hLoaded.segments_at hEmpty, hCell, Option.map_some]

omit hEmpty in
theorem LoadedImage.covered (hi : i < img.ehdr.phnum) (hType : (img.phdr i).type = ptLoad)
    (hva : (img.phdr i).TouchesPage va ∨ (img.phdr i).EmptyPage va) :
    va < 2 ^ 47 ∧ ∃ first, (List.range img.ehdr.phnum).find? (covers img va) = some first := by
  have hChecked := hLoaded.checked i hi hType
  have hPages := (hChecked.covered_iff va).mpr hva
  obtain ⟨_, hUser, _⟩ := hChecked.pages
  refine ⟨by omega, Option.isSome_iff_exists.mp (List.find?_isSome.mpr ?_)⟩
  refine ⟨i, List.mem_range.mpr hi, ?_⟩
  rw [covers, Bool.and_eq_true, beq_iff_eq, decide_eq_true_eq]
  exact ⟨hType, hPages⟩

end Fresh

/-- Segments are loaded faithfully into a fresh address space whose arguments fit the stack.
Outside the stack, every mapped byte is zero overwritten by the file bytes of the segments in
order; every page of a non-empty segment is there and readable; no other page is, except that
of an empty unaligned segment; and the entry point lies in an executable segment. -/
theorem elf_segments_faithful {k k' : Kmem} {root entry rsp : Nat} {foreign : Nat → Prop}
    {img : ElfImage} {argv envp : List ArgString} (h : Space k root foreign noSpare)
    (hFresh : ∀ va < 2 ^ 47, vmmGetPhys k root va = none)
    (hLoad : elfLoadImage k root img argv envp = .ok (.ok (entry, rsp), k'))
    (hFit : blockSize (argv.take 32) (envp.take 32) ≤ userStackPages * 0x1000) :
    (∀ va < 2 ^ 47, va < userStackBottom ∨ userStackTop ≤ va → ∀ phys,
      vmmGetPhys k' root va = some phys →
      k'.physByte phys = overlay img va (List.range img.ehdr.phnum) 0) ∧
    (∀ i < img.ehdr.phnum, (img.phdr i).type = ptLoad → ∀ va, (img.phdr i).TouchesPage va →
      va < 2 ^ 47 ∧ vmmIsUserReadable k' root va = true) ∧
    (∀ va < 2 ^ 47, va < userStackBottom ∨ userStackTop ≤ va → vmmGetPhys k' root va ≠ none →
      ∃ i < img.ehdr.phnum, (img.phdr i).type = ptLoad ∧
        ((img.phdr i).TouchesPage va ∨ (img.phdr i).EmptyPage va)) ∧
    ∃ i < img.ehdr.phnum, (img.phdr i).type = ptLoad ∧ hasFlag (img.phdr i).flags pfX = true ∧
      (img.phdr i).vaddr ≤ entry ∧ entry < (img.phdr i).vaddr + (img.phdr i).memsz := by
  have hLoaded := elfLoadImage_loaded h hLoad
  have hEmpty := memory_of_fresh h hFresh
  have hInv := hLoaded.step.space.inv
  have hCell {va : Nat} (hva : va < 2 ^ 47) (hOutside : va < userStackBottom ∨ userStackTop ≤ va) :
      (vmmGetPhys k' root va).map k'.physByte = (segmentCell img va).map Sparse.Cell.byte := by
    rw [← hInv.memory_bytes hva, Sparse.Memory.bytes, hLoaded.memory_outside hEmpty hFit hOutside]
  refine ⟨?_, ?_, ?_, ?_⟩
  · intro va hva hOutside phys hPhys
    have hByte := hCell hva hOutside
    rw [hPhys, Option.map_some, eq_comm, Option.map_eq_some_iff] at hByte
    obtain ⟨c, hSegment, hByte⟩ := hByte
    rw [segmentCell, Option.map_eq_some_iff] at hSegment
    obtain ⟨first, _, rfl⟩ := hSegment
    exact hByte.symm
  · intro i hi hType va hTouches
    obtain ⟨hva, first, hFirst⟩ := hLoaded.covered hi hType (Or.inl hTouches)
    refine ⟨hva, ?_⟩
    have hAccess := hLoaded.access_at hEmpty (by rw [segmentCell, hFirst]; rfl)
    rw [Option.map_eq_some_iff] at hAccess
    obtain ⟨c, hMemory, hAttr⟩ := hAccess
    rw [hInv.isUserReadable_memory hva, hMemory, Option.any_some, hAttr]
  · intro va hva hOutside hMapped
    have hByte := hCell hva hOutside
    have hSome : segmentCell img va ≠ none := by
      intro hNone
      rw [hNone, Option.map_none, Option.map_eq_none_iff] at hByte
      exact hMapped hByte
    obtain ⟨c, hSegment⟩ := Option.ne_none_iff_exists'.mp hSome
    rw [segmentCell, Option.map_eq_some_iff] at hSegment
    obtain ⟨first, hFirst, _⟩ := hSegment
    have hCovers := List.find?_some hFirst
    have hi := List.mem_range.mp (List.mem_of_find?_eq_some hFirst)
    rw [covers, Bool.and_eq_true, beq_iff_eq, decide_eq_true_eq] at hCovers
    exact ⟨first, hi, hCovers.1,
      ((hLoaded.checked first hi hCovers.1).covered_iff va).mp hCovers.2⟩
  · obtain ⟨i, hi, hType, hEntry⟩ := hLoaded.found
    rw [Elf64Phdr.hasEntry, Bool.and_eq_true, decide_eq_true_eq,
      (hLoaded.checked i hi hType).memory] at hEntry
    exact ⟨i, hi, hType, hEntry.1, hEntry.2.1, hEntry.2.2⟩

/-! ### A file with code and data -/

section Example

open Syscall

theorem fresh_of_create (hReady : k.pmm.Ready)
    (hCreate : vmmCreateAddressSpace k = (some root, k')) :
    ∀ va < 2 ^ 47, vmmGetPhys k' root va = none := by
  intro va hva
  rw [(AsInv.create hReady hCreate).1.getPhys hva,
    leafOf_of_empty (vmmCreateAddressSpace_some hReady hCreate).2 hva]
  rfl

theorem directMapMachine_space :
    Space (vmmCreateAddressSpace directMapMachine).2 0x8000 (fun _ => False) noSpare ∧
    ∀ va < 2 ^ 47, vmmGetPhys (vmmCreateAddressSpace directMapMachine).2 0x8000 va = none := by
  have hRoot : (vmmCreateAddressSpace directMapMachine).1 = some 0x8000 := by decide +kernel
  have hCreate : vmmCreateAddressSpace directMapMachine =
      (some 0x8000, (vmmCreateAddressSpace directMapMachine).2) := Prod.ext hRoot rfl
  exact ⟨Space.create directMapMachine_ready (fun _ hNone => hNone.elim) hCreate,
    fresh_of_create directMapMachine_ready hCreate⟩

/-- The code page of a file with code and data can be read. -/
theorem elf_segments_faithful_codeAndData :
    vmmIsUserReadable (loadedKmem codeAndDataLoaded) 0x8000 0x400123 = true := by
  have hFaithful := elf_segments_faithful directMapMachine_space.1 directMapMachine_space.2
    codeAndDataLoaded_ok (by decide)
  have hTouches : (codeAndDataElf.phdr 0).TouchesPage 0x400123 :=
    ⟨0x400000, by decide +kernel, by decide +kernel, rfl⟩
  exact (hFaithful.2.1 0 (by decide +kernel) (by decide +kernel) _ hTouches).2

end Example

/-- User code may execute what is at `va`. -/
def UserExecutable (k : Kmem) (root va : Nat) : Prop :=
  ∃ m, translation k root va = some m ∧ m.noExecute = false

/-- Every byte of a writable segment can be written, every byte of an executable segment can
be executed. -/
def PermissionsHonoured (k : Kmem) (root : Nat) (img : ElfImage) : Prop :=
  ∀ i < img.ehdr.phnum, (img.phdr i).type = ptLoad → ∀ va, (img.phdr i).vaddr ≤ va →
    va < (img.phdr i).vaddr + (img.phdr i).memsz →
    (hasFlag (img.phdr i).flags pfW = true → vmmIsUserWritable k root va = true) ∧
    (hasFlag (img.phdr i).flags pfX = true → UserExecutable k root va)

/-- On each page of a segment, the first segment that covers the page has its permissions
too. -/
def FirstCoverPermits (img : ElfImage) : Prop :=
  ∀ i < img.ehdr.phnum, (img.phdr i).type = ptLoad → ∀ va, (img.phdr i).vaddr ≤ va →
    va < (img.phdr i).vaddr + (img.phdr i).memsz →
    ∀ first, (List.range img.ehdr.phnum).find? (covers img va) = some first →
      (hasFlag (img.phdr i).flags pfW = true → hasFlag (img.phdr first).flags pfW = true) ∧
      (hasFlag (img.phdr i).flags pfX = true → hasFlag (img.phdr first).flags pfX = true)

/-- A successful load into a fresh address space honours the permissions of the segments
exactly if the first segment on each page has them. -/
theorem elf_permissions_iff {k k' : Kmem} {root entry rsp : Nat} {foreign : Nat → Prop}
    {img : ElfImage} {argv envp : List ArgString} (h : Space k root foreign noSpare)
    (hFresh : ∀ va < 2 ^ 47, vmmGetPhys k root va = none)
    (hLoad : elfLoadImage k root img argv envp = .ok (.ok (entry, rsp), k')) :
    PermissionsHonoured k' root img ↔ FirstCoverPermits img := by
  have hLoaded := elfLoadImage_loaded h hLoad
  have hEmpty := memory_of_fresh h hFresh
  have hInv := hLoaded.step.space.inv
  refine forall_congr' fun i => forall_congr' fun hi => forall_congr' fun hType =>
    forall_congr' fun va => forall_congr' fun hLow => forall_congr' fun hHigh => ?_
  obtain ⟨hva, first, hFirst⟩ := hLoaded.covered hi hType (Or.inl ⟨va, hLow, hHigh, rfl⟩)
  have hAccess := hLoaded.access_at hEmpty (by rw [segmentCell, hFirst]; rfl)
  rw [Option.map_eq_some_iff] at hAccess
  obtain ⟨c, hMemory, hAttr⟩ := hAccess
  have hWritable : vmmIsUserWritable k' root va = true ↔
      hasFlag (img.phdr first).flags pfW = true := by
    rw [hInv.isUserWritable_memory hva, hMemory, Option.any_some, hAttr, Bool.true_and]
  have hExecutable : UserExecutable k' root va ↔ hasFlag (img.phdr first).flags pfX = true := by
    have hMapped := hMemory
    rw [Kmem.memory_of_lower hva, Option.map_eq_some_iff] at hMapped
    obtain ⟨e, hLeaf, rfl⟩ := hMapped
    rw [UserExecutable, hInv.translation_eq hva, hLeaf, Option.map_some]
    have hBit : e.testBit 63 = !hasFlag (img.phdr first).flags pfX :=
      congrArg Access.noExecute hAttr
    constructor
    · rintro ⟨m, hm, hNx⟩
      cases hm
      rw [Mapping.at, Mapping.ofLeaf] at hNx
      rw [hBit] at hNx
      simpa using hNx
    · intro hFlag
      refine ⟨_, rfl, ?_⟩
      rw [Mapping.at, Mapping.ofLeaf]
      rw [hBit, hFlag]
      rfl
  rw [hWritable, hExecutable]
  constructor
  · rintro hPermits other hOther
    obtain rfl : first = other := Option.some.inj (hFirst.symm.trans hOther)
    exact hPermits
  · exact fun hPermits => hPermits first hFirst

section SharedPage

open Syscall

theorem elf_permissions_iff_codeAndData :
    PermissionsHonoured (loadedKmem codeAndDataLoaded) 0x8000 codeAndDataElf ↔
      FirstCoverPermits codeAndDataElf :=
  elf_permissions_iff directMapMachine_space.1 directMapMachine_space.2 codeAndDataLoaded_ok

/-- A file with code at `0x400000` and data at `0x400800`, on one page. -/
def sharedPageElf : ElfImage where
  data := fun i => (elfHeader 56 2 ++ byteSegment 5 0 ++ byteSegment 6 8).getD i 0
  size := 176

/-- The sample machine with that file loaded into its first address space. -/
def sharedPageLoaded : Except PmmPanic (Except ElfLoadError (Nat × Nat) × Kmem) :=
  elfLoadImage (vmmCreateAddressSpace directMapMachine).2 0x8000 sharedPageElf [] []

/-- The load succeeds, and the program cannot write to its data. -/
theorem sharedPage_not_writable :
    sharedPageLoaded = .ok (.ok (0x400000, 0x7FFFFFFFEFE8), loadedKmem sharedPageLoaded) ∧
    ¬ PermissionsHonoured (loadedKmem sharedPageLoaded) 0x8000 sharedPageElf := by
  refine ⟨loadedKmem_eq (by decide +kernel), fun h => ?_⟩
  have hWritable := (h 1 (by decide +kernel) (by decide +kernel) 0x400800 (by decide +kernel)
    (by decide +kernel)).1 (by decide +kernel)
  have hReadOnly : vmmIsUserWritable (loadedKmem sharedPageLoaded) 0x8000 0x400800 = false := by
    decide +kernel
  rw [hReadOnly] at hWritable
  cases hWritable

end SharedPage

end Kryos.Process
