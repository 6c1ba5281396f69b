import Kryos.Process.UserMemory

/-! What the ELF loader leaves in user memory. Each stage of the loader is a step
on the memory that the process will see: a segment is loaded over what is
mapped already, the stack is new zeroed memory, and the argument block is stored
over it. -/
namespace Kryos.Process

open Word Memory LittleEndian

variable {ph : Elf64Phdr} {page size : Nat} {k k' : Kmem}

/-! ### Program headers -/

/-- The fields of a program header are 64-bit values. -/
structure Elf64Phdr.Fits (ph : Elf64Phdr) : Prop where
  offset : ph.offset < 2 ^ 64
  vaddr : ph.vaddr < 2 ^ 64
  filesz : ph.filesz < 2 ^ 64
  memsz : ph.memsz < 2 ^ 64

theorem ElfImage.phdr_fits (img : ElfImage) (i : Nat) : (img.phdr i).Fits :=
  ⟨readLe_lt _ _ 8, readLe_lt _ _ 8, readLe_lt _ _ 8, readLe_lt _ _ 8⟩

/-- What the checks of a loadable segment establish, without wrapping sums. -/
structure Elf64Phdr.Checked (ph : Elf64Phdr) (size : Nat) : Prop where
  filesz : ph.filesz ≤ ph.memsz
  file : ph.offset + ph.filesz ≤ size ∧ ph.offset + ph.filesz < 2 ^ 64
  memory : ph.segMemEnd = ph.vaddr + ph.memsz
  user : ph.vaddr + ph.memsz < 2 ^ 47
  rwx : (hasFlag ph.flags pfW && hasFlag ph.flags pfX) = false

theorem Elf64Phdr.check_iff (hFits : ph.Fits) (size : Nat) :
    ph.check size = none ↔ ph.Checked size := by
  obtain ⟨hOffset, hVaddr, hFilesz, hMemsz⟩ := hFits
  unfold check
  dsimp only
  constructor
  · intro h
    split at h
    · cases h
    split at h
    · cases h
    split at h
    · cases h
    split at h
    · cases h
    split at h
    · cases h
    rename_i hSize hFile hWrap hUser hRwx
    have hEnd : ph.segMemEnd = ph.vaddr + ph.memsz := by
      simp only [segMemEnd, u64] at hWrap hUser ⊢
      omega
    refine ⟨by omega, ?_, hEnd, by omega, Bool.not_eq_true _ ▸ hRwx⟩
    simp only [u64] at hFile
    omega
  · rintro ⟨hSize, ⟨hFile, hFileWrap⟩, hEnd, hUser, hRwx⟩
    have hSum : u64 (ph.offset + ph.filesz) = ph.offset + ph.filesz := u64_of_lt hFileWrap
    rw [hSum, hEnd, if_neg (by omega), if_neg (by omega), if_neg (by omega), if_neg (by omega),
      hRwx]
    rfl

namespace Elf64Phdr

variable {ph : Elf64Phdr} {size : Nat}

theorem Checked.startPage_eq (h : ph.Checked size) : ph.startPage = ph.vaddr / 0x1000 * 0x1000 := by
  have hUser := h.user
  exact alignDown_eq (k := 12) (by omega) (by decide)

theorem Checked.endPage_eq (h : ph.Checked size) :
    ph.endPage = (ph.vaddr + ph.memsz + 0xFFF) / 0x1000 * 0x1000 := by
  have hUser := h.user
  have hRound := alignUp_eq ph.segMemEnd (by decide : 12 ≤ 64)
  rw [endPage, ← h.memory]
  rwa [show ph.segMemEnd + 2 ^ 12 - 1 = ph.segMemEnd + 0xFFF by omega,
    u64_of_lt (by rw [h.memory]; omega)] at hRound

theorem Checked.pages (h : ph.Checked size) :
    ph.startPage + ph.pageCount * 0x1000 = ph.endPage ∧ ph.endPage ≤ 2 ^ 47 ∧
      ph.startPage ≤ ph.vaddr ∧ ph.vaddr < ph.startPage + 0x1000 ∧
      ph.vaddr + ph.memsz ≤ ph.endPage := by
  have hUser := h.user
  have hStart := h.startPage_eq
  have hEnd := h.endPage_eq
  unfold pageCount
  omega

end Elf64Phdr

/-! ### Segments on memory -/

/-- A segment on the addresses between two bounds. What is not mapped yet becomes zero and
gets the access of the segment; then the file bytes are stored. -/
def loadOn (img : ElfImage) (ph : Elf64Phdr) (low high : Nat) (m : Sparse.Memory Access) :
    Sparse.Memory Access := fun va =>
  if low ≤ va ∧ va < high then
    let c := (m va).getD ⟨0, Access.requested ph.vmmFlags⟩
    some (if ph.vaddr ≤ va ∧ va < ph.vaddr + ph.filesz then
      { c with byte := img.data (ph.offset + (va - ph.vaddr)) } else c)
  else m va

/-- Program header `i` on memory. -/
def loadHeader (img : ElfImage) (m : Sparse.Memory Access) (i : Nat) : Sparse.Memory Access :=
  if (img.phdr i).type != ptLoad then m
  else loadOn img (img.phdr i) (img.phdr i).startPage (img.phdr i).endPage m

theorem loadOn_empty (img : ElfImage) (ph : Elf64Phdr) (low : Nat) (m : Sparse.Memory Access) :
    loadOn img ph low low m = m := by
  funext va
  exact if_neg (by omega)

theorem loadOn_append (img : ElfImage) (ph : Elf64Phdr) {low middle high : Nat}
    (hLow : low ≤ middle) (hHigh : middle ≤ high) (m : Sparse.Memory Access) :
    loadOn img ph middle high (loadOn img ph low middle m) = loadOn img ph low high m := by
  funext va
  unfold loadOn
  by_cases hUpper : middle ≤ va ∧ va < high
  · rw [if_pos hUpper, if_neg (show ¬ (low ≤ va ∧ va < middle) by omega),
      if_pos (show low ≤ va ∧ va < high by omega)]
  · rw [if_neg hUpper]
    by_cases hLower : low ≤ va ∧ va < middle
    · rw [if_pos hLower, if_pos (by omega)]
    · rw [if_neg hLower, if_neg (by omega)]

theorem memory_isSome_page {k : Kmem} {root va page : Nat} (hva : va < 2 ^ 47)
    (hPage : page < 2 ^ 47) (h : va / pmmPageSize = page / pmmPageSize) :
    (k.memory root va).isSome = (k.memory root page).isSome := by
  rw [Kmem.memory_of_lower hva, Kmem.memory_of_lower hPage, Option.isSome_map, Option.isSome_map,
    leafOf_page h]

/-! ### The stages on memory -/

section Stages

variable {k : Kmem} {root : Nat} {foreign : Nat → Prop}

section

variable (h : Space k root foreign noSpare) (hPage : page < 2 ^ 47)
  (hAligned : page % pmmPageSize = 0)

include h hPage hAligned

/-- A page of a segment: what is there stays, what is missing becomes zero. -/
theorem ensureMapped_memory (flags : Nat) :
    ∃ ok k', ensureMapped k root page flags = .ok (ok, k') ∧ SpaceStep k k' root foreign ∧
      (ok = true → (∃ frame, vmmGetPhys k' root page = some frame) ∧
        ∀ va, k'.memory root va = if page ≤ va ∧ va < page + 0x1000 then
          some ((k.memory root va).getD ⟨0, Access.requested flags⟩) else k.memory root va) := by
  have hInPage {va : Nat} (hva : page ≤ va ∧ va < page + 0x1000) :
      va < 2 ^ 47 ∧ va / pmmPageSize = page / pmmPageSize := by
    simp only [pmmPageSize] at *
    omega
  unfold ensureMapped
  cases hPhys : vmmGetPhys k root page with
  | some frame =>
    refine ⟨true, k, rfl, SpaceStep.refl h, fun _ => ⟨⟨frame, hPhys⟩, fun va => ?_⟩⟩
    split
    · rename_i hva
      obtain ⟨hLower, hSame⟩ := hInPage hva
      have hThere : (k.memory root va).isSome = true := by
        rw [memory_isSome_page hLower hPage hSame, Kmem.memory_of_lower hPage, Option.isSome_map]
        rw [h.inv.getPhys hPage] at hPhys
        cases hLeaf : k.leafOf root page with
        | none => simp [hLeaf] at hPhys
        | some e => rfl
      obtain ⟨c, hCell⟩ := Option.isSome_iff_exists.mp hThere
      rw [hCell]
      rfl
    · rfl
  | none =>
    obtain ⟨ok, k', hRun, hStep, _, hMapped⟩ := mapFreshPage_memory h hPage.le hAligned flags
    refine ⟨ok, k', hRun, hStep, fun hOk => ?_⟩
    obtain ⟨_, hFree, hMemory⟩ := hMapped hOk
    have hCell : k'.memory root page = some ⟨0, Access.requested flags⟩ := by
      rw [hMemory, Sparse.Memory.clear, if_pos (by omega)]
    constructor
    · rw [Kmem.memory_of_lower hPage, Option.map_eq_some_iff] at hCell
      obtain ⟨e, hLeaf, _⟩ := hCell
      exact ⟨_, by rw [hStep.space.inv.getPhys hPage, hLeaf, Option.map_some]⟩
    · intro va
      rw [hMemory, Sparse.Memory.clear]
      split
      · rename_i hva
        obtain ⟨hLower, hSame⟩ := hInPage hva
        have hNone : k.memory root va = none := by
          rw [← Option.isNone_iff_eq_none, ← Option.not_isSome,
            memory_isSome_page hLower hPage hSame, hFree]
          rfl
        rw [hNone]
        rfl
      · rfl

theorem copySegment_memory {frame : Nat} (hPhys : vmmGetPhys k root page = some frame)
    (img : ElfImage) (hChecked : ph.Checked size) (hFirst : ph.startPage ≤ page) :
    SpaceStep k (copySegment img ph page frame k) root foreign ∧
    ∀ va, (copySegment img ph page frame k).memory root va =
      if (page ≤ va ∧ va < page + 0x1000) ∧ ph.vaddr ≤ va ∧ va < ph.vaddr + ph.filesz then
        (k.memory root va).map fun c => { c with byte := img.data (ph.offset + (va - ph.vaddr)) }
      else k.memory root va := by
  have hFilesz := hChecked.filesz
  have hFile := hChecked.file
  obtain ⟨_, _, _, hIn, _⟩ := hChecked.pages
  unfold copySegment
  dsimp only
  generalize hOffset : (if page < ph.vaddr then ph.vaddr - page else 0) = pageOffset
  have hStart : page + pageOffset = max page ph.vaddr ∧ pageOffset < 0x1000 := by
    split at hOffset <;> omega
  rw [u64_of_lt (by omega), u64_of_lt (show ph.vaddr + ph.filesz < 2 ^ 64 by omega)]
  split
  · rw [u64_of_lt (by omega)]
    generalize hSize : (if 0x1000 - pageOffset > ph.vaddr + ph.filesz - (page + pageOffset) then
      ph.vaddr + ph.filesz - (page + pageOffset) else 0x1000 - pageOffset) = copySize
    have hBound :
        copySize = min (0x1000 - pageOffset) (ph.vaddr + ph.filesz - (page + pageOffset)) := by
      split at hSize <;> omega
    obtain ⟨hMemory, hStep, _⟩ := copyIn_memory h hPage hAligned hPhys
      (fun i => img.data (ph.offset + (page + pageOffset - ph.vaddr) + i)) copySize
      (show pageOffset + copySize ≤ pmmPageSize by simp only [pmmPageSize]; omega)
    refine ⟨hStep, fun va => ?_⟩
    rw [hMemory, Sparse.Memory.put]
    have hRange : (page + pageOffset ≤ va ∧ va < page + pageOffset + copySize) ↔
        (page ≤ va ∧ va < page + 0x1000) ∧ ph.vaddr ≤ va ∧ va < ph.vaddr + ph.filesz := by
      omega
    simp only [hRange]
    split
    · rw [show ph.offset + (page + pageOffset - ph.vaddr) + (va - (page + pageOffset)) =
        ph.offset + (va - ph.vaddr) by omega]
    · rfl
  · refine ⟨SpaceStep.refl h, fun va => ?_⟩
    rw [if_neg (by omega)]

theorem loadPage_memory (img : ElfImage) (hChecked : ph.Checked size)
    (hFirst : ph.startPage ≤ page) :
    ∃ ok k', loadPage img ph root page k = .ok (ok, k') ∧ SpaceStep k k' root foreign ∧
      (ok = true → k'.memory root = loadOn img ph page (page + 0x1000) (k.memory root)) := by
  obtain ⟨ok, k₁, hRun, hStep, hMapped⟩ := ensureMapped_memory h hPage hAligned ph.vmmFlags
  unfold loadPage
  rw [hRun]
  cases ok with
  | false => exact ⟨false, k₁, rfl, hStep, by simp⟩
  | true =>
    obtain ⟨⟨frame, hPhys⟩, hMemory⟩ := hMapped rfl
    obtain ⟨hStep', hCopied⟩ := copySegment_memory hStep.space hPage hAligned hPhys img hChecked
      hFirst
    refine ⟨true, _, by dsimp only; rw [hPhys]; rfl, hStep.trans hStep', fun _ => ?_⟩
    funext va
    rw [hCopied va, hMemory va, loadOn]
    by_cases hHere : page ≤ va ∧ va < page + 0x1000
    · rw [if_pos hHere, if_pos hHere]
      dsimp only
      by_cases hText : ph.vaddr ≤ va ∧ va < ph.vaddr + ph.filesz
      · rw [if_pos ⟨hHere, hText⟩, if_pos hText]
        rfl
      · rw [if_neg (fun hBoth => hText hBoth.2), if_neg hText]
    · rw [if_neg hHere, if_neg hHere, if_neg (fun hBoth => hHere hBoth.1)]

end

theorem loadPages_memory (img : ElfImage) (hChecked : ph.Checked size) (remaining : Nat)
    (h : Space k root foreign noSpare) (hPages : page + remaining * 0x1000 ≤ 2 ^ 47)
    (hAligned : page % pmmPageSize = 0) (hFirst : ph.startPage ≤ page) :
    ∃ ok k', loadPages img ph root remaining page k = .ok (ok, k') ∧ SpaceStep k k' root foreign ∧
      (ok = true →
        k'.memory root = loadOn img ph page (page + remaining * 0x1000) (k.memory root)) := by
  induction remaining generalizing page k with
  | zero => exact ⟨true, k, rfl, SpaceStep.refl h, by
      rw [Nat.zero_mul, Nat.add_zero, loadOn_empty]
      exact fun _ => rfl⟩
  | succ remaining ih =>
    obtain ⟨ok, k₁, hRun, hStep, hLoaded⟩ :=
      loadPage_memory h (by omega) hAligned img hChecked hFirst
    rw [loadPages, hRun]
    cases ok with
    | false => exact ⟨false, k₁, rfl, hStep, by simp⟩
    | true =>
      have hNext : (page + 0x1000) % pmmPageSize = 0 := by
        simp only [pmmPageSize] at hAligned ⊢
        omega
      obtain ⟨ok, k₂, hRest, hStep', hLoaded'⟩ := ih hStep.space (by omega) hNext (by omega)
      refine ⟨ok, k₂, hRest, hStep.trans hStep', fun hOk => ?_⟩
      rw [hLoaded' hOk, hLoaded rfl, loadOn_append img ph (by omega) (by omega), Nat.add_assoc,
        Nat.succ_mul, Nat.add_comm 0x1000]

/-- The loop over program headers: on success every loadable segment passed its checks, and
memory is what the headers make of it in order. -/
theorem loadSegments_memory (img : ElfImage) (headers : List Nat) (entryFound : Bool) {found : Bool}
    (h : Space k root foreign noSpare)
    (hRun : loadSegments img root headers entryFound k = .ok (.ok found, k')) :
    SpaceStep k k' root foreign ∧ k'.memory root = headers.foldl (loadHeader img) (k.memory root) ∧
      (∀ i ∈ headers, (img.phdr i).type = ptLoad → (img.phdr i).Checked img.size) ∧
      (found = true → entryFound = true ∨ ∃ i ∈ headers, (img.phdr i).type = ptLoad ∧
        (img.phdr i).hasEntry img.ehdr.entry = true) := by
  induction headers generalizing entryFound k with
  | nil =>
    cases hRun
    exact ⟨SpaceStep.refl h, rfl, by simp, Or.inl⟩
  | cons i rest ih =>
    unfold loadSegments at hRun
    dsimp only at hRun
    split at hRun
    · rename_i hOther
      obtain ⟨hStep, hMemory, hChecks, hFound⟩ := ih entryFound h hRun
      refine ⟨hStep, ?_, ?_, ?_⟩
      · rw [hMemory, List.foldl_cons, loadHeader, if_pos hOther]
      · intro j hj hLoad
        rcases List.mem_cons.mp hj with rfl | hRest
        · rw [hLoad] at hOther
          simp at hOther
        · exact hChecks j hRest hLoad
      · intro hEntry
        rcases hFound hEntry with hBefore | ⟨j, hj, hIs⟩
        · exact Or.inl hBefore
        · exact Or.inr ⟨j, List.mem_cons_of_mem i hj, hIs⟩
    · rename_i hLoad
      have hType : (img.phdr i).type = ptLoad := by simpa using hLoad
      split at hRun
      · cases hRun
      rename_i hCheck
      have hChecked := (Elf64Phdr.check_iff (img.phdr_fits i) img.size).mp hCheck
      obtain ⟨hCount, hUser, _⟩ := hChecked.pages
      obtain ⟨ok, k₁, hPages, hStep, hLoaded⟩ := loadPages_memory img hChecked _ h
        (by rw [hCount]; exact hUser) (Elf64Phdr.startPage_aligned hCheck) (Nat.le_refl _)
      rw [hPages] at hRun
      cases ok with
      | false => cases hRun
      | true =>
        obtain ⟨hStep', hMemory, hChecks, hFound⟩ := ih _ hStep.space hRun
        refine ⟨hStep.trans hStep', ?_, ?_, ?_⟩
        · rw [hMemory, hLoaded rfl, hCount, List.foldl_cons, loadHeader, if_neg hLoad]
        · intro j hj hIs
          rcases List.mem_cons.mp hj with rfl | hRest
          · exact hChecked
          · exact hChecks j hRest hIs
        · intro hEntry
          rcases hFound hEntry with hHere | ⟨j, hj, hIs⟩
          · rcases Bool.or_eq_true _ _ ▸ hHere with hBefore | hNow
            · exact Or.inl hBefore
            · exact Or.inr ⟨i, List.mem_cons_self, hType, hNow⟩
          · exact Or.inr ⟨j, List.mem_cons_of_mem i hj, hIs⟩

/-- The access of the pages of the stack. -/
def stackAccess : Access := ⟨true, true, true⟩

/-- Zeroed pages were added where nothing was, `count` of them from `page` on. -/
structure NewPages (k k' : Kmem) (root : Nat) (foreign : Nat → Prop) (page count : Nat)
    (access : Access) : Prop where
  step : SpaceStep k k' root foreign
  wasFree : ∀ va, page ≤ va → va < page + count * 0x1000 → k.memory root va = none
  memory : k'.memory root = (k.memory root).clear page (page + count * 0x1000) access
  leaves : ∀ va < 2 ^ 47, va < page ∨ page + count * 0x1000 ≤ va →
    k'.leafOf root va = k.leafOf root va

theorem NewPages.nil (h : Space k root foreign noSpare) (page : Nat) (access : Access) :
    NewPages k k root foreign page 0 access := by
  refine ⟨SpaceStep.refl h, by omega, ?_, fun _ _ _ => rfl⟩
  funext va
  exact (if_neg (by omega)).symm

theorem NewPages.cons {k' k'' : Kmem} {page count : Nat} {access : Access}
    (h : NewPages k k' root foreign page 1 access)
    (h' : NewPages k' k'' root foreign (page + 0x1000) count access) :
    NewPages k k'' root foreign page (count + 1) access := by
  have hMemory := h.memory
  have hEnd : page + 0x1000 + count * 0x1000 = page + (count + 1) * 0x1000 := by omega
  refine ⟨h.step.trans h'.step, ?_, ?_, ?_⟩
  · intro va hLow hHigh
    by_cases hHere : va < page + 0x1000
    · exact h.wasFree va hLow (by omega)
    · have hOld := h'.wasFree va (by omega) (by omega)
      rwa [hMemory, Sparse.Memory.clear, if_neg (by omega)] at hOld
  · rw [h'.memory, hMemory, hEnd]
    exact Sparse.Memory.clear_append (Nat.le_add_right _ _) (by omega) access
  · intro va hva hOutside
    have hRest : va < page + 0x1000 ∨ page + 0x1000 + count * 0x1000 ≤ va := by omega
    have hFirst : va < page ∨ page + 0x1000 ≤ va := by omega
    exact (h'.leaves va hva hRest).trans (h.leaves va hva (by rwa [Nat.one_mul]))

theorem mapFreshPage_newPage (h : Space k root foreign noSpare) (hPage : page ≤ 2 ^ 47)
    (hAligned : page % pmmPageSize = 0) (flags : Nat) :
    ∃ ok k', mapFreshPage k root page flags = .ok (ok, k') ∧
      (ok = false → NewPages k k' root foreign page 0 (Access.requested flags)) ∧
      (ok = true → page + 0x1000 ≤ 2 ^ 47 ∧
        NewPages k k' root foreign page 1 (Access.requested flags)) := by
  obtain ⟨ok, k', hFresh, hStep, hSame, hMapped⟩ := mapFreshPage_memory h hPage hAligned flags
  obtain ⟨ok', k'', hFresh', _, hLeaves⟩ := mapFreshPage_space h hPage flags
  obtain ⟨rfl, rfl⟩ := Prod.mk.inj (Except.ok.inj (hFresh.symm.trans hFresh'))
  refine ⟨ok, k', hFresh, fun hOk => ?_, fun hOk => ?_⟩
  · refine ⟨hStep, by omega, (hSame hOk).trans ?_, fun va hva _ => hLeaves.refused hOk va hva⟩
    exact (NewPages.nil h page (Access.requested flags)).memory
  · obtain ⟨hLower, hFree, hMemory⟩ := hMapped hOk
    obtain ⟨_, _, _, _, hOther, _⟩ := hLeaves.mapped hOk
    refine ⟨?_, hStep, ?_, by rwa [Nat.one_mul], fun va hva hOutside => ?_⟩
    · simp only [pmmPageSize] at hAligned
      omega
    · intro va hLow hHigh
      have hSame : va / pmmPageSize = page / pmmPageSize := by
        simp only [pmmPageSize] at *
        omega
      have hva : va < 2 ^ 47 := by
        simp only [pmmPageSize] at *
        omega
      rw [← Option.isNone_iff_eq_none, ← Option.not_isSome,
        memory_isSome_page hva hLower hSame, hFree]
      rfl
    · rw [hOther va hva, if_neg]
      simp only [pmmPageSize] at *
      omega

/-- The stack loop maps zeroed pages where nothing was. -/
theorem mapStack_memory (remaining : Nat) (h : Space k root foreign noSpare)
    (hPages : page + remaining * 0x1000 ≤ 2 ^ 47) (hAligned : page % pmmPageSize = 0)
    (hRun : mapStack root remaining page k = .ok (true, k')) :
    NewPages k k' root foreign page remaining stackAccess := by
  induction remaining generalizing page k with
  | zero =>
    cases hRun
    exact NewPages.nil h page stackAccess
  | succ remaining ih =>
    have hAccess : Access.requested (vmmFlagWritable ||| vmmFlagUser ||| vmmFlagNoExecute) =
        stackAccess := by decide
    obtain ⟨ok, k₁, hFresh, _, hMapped⟩ := mapFreshPage_newPage h
      (show page ≤ 2 ^ 47 by omega) hAligned
      (vmmFlagWritable ||| vmmFlagUser ||| vmmFlagNoExecute)
    rw [mapStack, hFresh] at hRun
    cases ok with
    | false => cases hRun
    | true =>
      have hFirst := (hMapped rfl).2
      have hNext : (page + 0x1000) % pmmPageSize = 0 := by
        simp only [pmmPageSize] at hAligned ⊢
        omega
      exact hFirst.cons (ih hFirst.step.space (by omega) hNext hRun)

end Stages

end Kryos.Process
