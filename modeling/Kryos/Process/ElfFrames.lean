import Kryos.Process.UserMemory

/-! Frame accounting of the ELF loader. Every frame the loader takes ends up as
a table or as a page of the address space; destroying the space gives back the
tables only. -/
namespace Kryos.Process

open Memory

variable {start : Pmm} {root page : Nat} {k k' k'' : Kmem}

/-- A stage of the loader took `k` to `k'`: ownership holds and no page was
unmapped. -/
structure Loaded (start : Pmm) (root : Nat) (k k' : Kmem) : Prop where
  owned : Owned start k' root noSpare
  keeps : ∀ va < 2 ^ 47, k.leafOf root va ≠ none → k'.leafOf root va ≠ none

theorem Loaded.trans (h : Loaded start root k k') (h' : Loaded start root k' k'') :
    Loaded start root k k'' :=
  ⟨h'.owned, fun va hva => h'.keeps va hva ∘ h.keeps va hva⟩

/-- The pages of `k'` are those of `k`. -/
def SamePages (root : Nat) (k k' : Kmem) : Prop :=
  ∀ va < 2 ^ 47, k'.leafOf root va = k.leafOf root va

theorem SamePages.loaded (h : SamePages root k k') (hOwned : Owned start k' root noSpare) :
    Loaded start root k k' :=
  ⟨hOwned, fun va hva hLeaf => by rwa [h va hva]⟩

/-- The stages since `k₀`, with the space apart from what was allocated at the start. -/
def Stage (start : Pmm) (root : Nat) (k₀ k : Kmem) : Prop :=
  Space k root (AtStart start) noSpare ∧ Loaded start root k₀ k

theorem Stage.refl (hSpace : Space k root (AtStart start) noSpare)
    (h : Owned start k root noSpare) : Stage start root k k := ⟨hSpace, h, fun _ _ => id⟩

theorem Stage.trans (h : Stage start root k k') (h' : Stage start root k' k'') :
    Stage start root k k'' := ⟨h'.1, h.2.trans h'.2⟩

/-! ### Mapping -/

section Stages

variable {start : Pmm} {root : Nat}

/-- The allocate, map and clear sequence maps the page, or changes no page. -/
theorem mapFreshPage_spec (hSpace : Space k root (AtStart start) noSpare)
    (h : Owned start k root noSpare) (hPage : page < 2 ^ 47) (flags : Nat) :
    ∃ ok k', mapFreshPage k root page flags = .ok (ok, k') ∧ Stage start root k k' ∧
      (ok = true → k'.leafOf root page ≠ none) ∧ (ok = false → SamePages root k k') := by
  obtain ⟨ok, k', hRun, hStep, hFresh⟩ := mapFreshPage_space hSpace hPage.le flags
  have hOwned := h.step hStep hFresh.gains
  refine ⟨ok, k', hRun, ⟨hStep.space, hOwned, fun va hva hOld => ?_⟩, fun hOk => ?_, hFresh.refused⟩
  · cases ok with
    | false => rwa [hFresh.refused rfl va hva]
    | true =>
      obtain ⟨_, frame, _, _, hMapped, _⟩ := hFresh.mapped rfl
      rw [hMapped va hva]
      split
      · simp
      · exact hOld
  · obtain ⟨_, frame, _, _, hMapped, _⟩ := hFresh.mapped hOk
    rw [hMapped page hPage, if_pos rfl]
    simp

theorem Stage.store {k₀ k k' : Kmem} {frame : Nat} (h : Stage start root k₀ k)
    (hFrame : k.LeafFrame root frame) (hWrite : FrameWrite k k' frame) (hCr3 : k'.cr3 = k.cr3) :
    Stage start root k₀ k' ∧ SamePages root k k' := by
  obtain ⟨hSpace, hLoaded⟩ := h
  have hLeaves := (hSpace.outsideWrite hWrite (hSpace.pages frame (Or.inl hFrame)).2.2.2.2).2
  have hStep := hSpace.frameWrite_step hFrame hWrite hCr3
  have hOwned := hLoaded.owned.step hStep (hSpace.frameWrite_gains hFrame hWrite)
  exact ⟨⟨hStep.space, hLoaded.trans (SamePages.loaded hLeaves hOwned)⟩, hLeaves⟩

/-- Ownership, and the pages mapped since `k₀`, are kept by every stage. -/
theorem Stage.loaderInvariant (k₀ : Kmem) : LoaderInvariant root (Stage start root k₀) where
  asInv := fun _ h => h.1.inv
  fresh := by
    intro k page flags h hPage _
    obtain ⟨ok, k', hRun, hStage, hLeaf, _⟩ := mapFreshPage_spec h.1 h.2.owned hPage flags
    exact ⟨ok, k', hRun, h.trans hStage, hLeaf⟩
  store := fun _ _ _ h hFrame hWrite hCr3 => (h.store hFrame hWrite hCr3).1

end Stages

/-! ### Which images map a page -/

/-- A loadable header at which the loader either stops or maps a page. -/
def ElfImage.decisive (img : ElfImage) (i : Nat) : Bool :=
  (img.phdr i).type == ptLoad &&
    (((img.phdr i).check img.size).isSome || decide (0 < (img.phdr i).pageCount))

/-- The first decisive header of a list passes its checks. -/
def ElfImage.mapsFirst (img : ElfImage) (headers : List Nat) : Bool :=
  match headers.find? img.decisive with
  | some i => ((img.phdr i).check img.size).isNone
  | none => false

/-- The image has a good file header, and the first loadable segment that fails
a check or covers a page is one that passes its checks. -/
def ElfImage.mapsPage (img : ElfImage) : Bool :=
  (checkElfHeader img).isNone && img.mapsFirst (List.range img.ehdr.phnum)

/-- Headers that are not decisive are passed over. -/
theorem loadSegments_skip {img : ElfImage} {i : Nat} (hSkip : img.decisive i = false) (root : Nat)
    (rest : List Nat) (entryFound : Bool) (k : Kmem) :
    loadSegments img root (i :: rest) entryFound k = loadSegments img root rest entryFound k := by
  unfold ElfImage.decisive at hSkip
  rw [loadSegments]
  cases hType : (img.phdr i).type == ptLoad with
  | false => simp [bne, hType]
  | true =>
    rw [hType, Bool.true_and, Bool.or_eq_false_iff, Option.isSome_eq_false_iff,
      Option.isNone_iff_eq_none, decide_eq_false_iff_not] at hSkip
    obtain ⟨hCheck, hCount⟩ := hSkip
    have hEntry : (img.phdr i).hasEntry img.ehdr.entry = false := by
      rw [← Bool.not_eq_true]
      exact fun hEntry => hCount (Elf64Phdr.pageCount_of_hasEntry hCheck hEntry)
    have hZero : (img.phdr i).pageCount = 0 := by omega
    simp [bne, hType, hCheck, hZero, loadPages, hEntry]

section FirstPage

variable {start : Pmm} {root : Nat} {k : Kmem} (hSpace : Space k root (AtStart start) noSpare)
  (h : Owned start k root noSpare) (hEmpty : ∀ i < 256, k.mem (Radix.slot root i) = 0)

include hSpace h hEmpty

/-- The first page of an empty space takes four frames: itself and three
tables. -/
theorem mapFreshPage_first (hPage : page < 2 ^ 47) (hAligned : page % pmmPageSize = 0)
    (flags : Nat) :
    ∃ k', mapFreshPage k root page flags = .ok (decide (4 ≤ k.pmm.clearFrames.card), k') ∧
      Stage start root k k' ∧
      (4 ≤ k.pmm.clearFrames.card → k'.leafOf root page ≠ none) ∧
      (¬ 4 ≤ k.pmm.clearFrames.card → SamePages root k k') := by
  obtain ⟨ok, k', hRun, hStage, hLeaf, hSame⟩ := mapFreshPage_spec hSpace h hPage flags
  have hOk : ok = decide (4 ≤ k.pmm.clearFrames.card) := by
    obtain ⟨_, _, hRun', hFrames, _⟩ := mapFreshPage_frames hSpace hPage hAligned flags
    cases hRun.symm.trans hRun'
    rw [Bool.eq_iff_iff, decide_eq_true_eq, hFrames, missing_of_empty hEmpty hPage]
    exact and_iff_right (leafOf_of_empty hEmpty hPage)
  subst hOk
  exact ⟨k', hRun, hStage, fun hFree => hLeaf (decide_eq_true hFree),
    fun hFree => hSame (decide_eq_false hFree)⟩

/-- A non-empty segment of an empty space is mapped, at least in part, exactly
when four frames are free. -/
theorem loadPages_first (img : ElfImage) {ph : Elf64Phdr} (hCheck : ph.check img.size = none)
    (hCount : 0 < ph.pageCount) :
    ∃ ok k', loadPages img ph root ph.pageCount ph.startPage k = .ok (ok, k') ∧
      Stage start root k k' ∧
      (4 ≤ k.pmm.clearFrames.card → ∃ va < 2 ^ 47, k'.leafOf root va ≠ none) ∧
      (¬ 4 ≤ k.pmm.clearFrames.card → ok = false ∧ SamePages root k k') := by
  have hUser := Elf64Phdr.pages_user hCheck
  have hAligned := Elf64Phdr.startPage_aligned hCheck
  generalize ph.startPage = page at *
  obtain ⟨remaining, hRemaining⟩ := Nat.exists_eq_add_of_lt hCount
  rw [Nat.zero_add] at hRemaining
  rw [hRemaining] at hUser ⊢
  have hPage : page < 2 ^ 47 := by omega
  have hNone : vmmGetPhys k root page = none := by
    rw [h.inv.getPhys hPage, leafOf_of_empty hEmpty hPage]
    rfl
  obtain ⟨k₁, hFresh, hStage, hYes, hNo⟩ :=
    mapFreshPage_first hSpace h hEmpty hPage hAligned ph.vmmFlags
  by_cases hFree : 4 ≤ k.pmm.clearFrames.card
  · rw [decide_eq_true hFree] at hFresh
    have hPhys : vmmGetPhys k₁ root page ≠ none := by
      rw [hStage.1.inv.getPhys hPage, ne_eq, Option.map_eq_none_iff]
      exact hYes hFree
    obtain ⟨paddr, hPaddr⟩ := Option.ne_none_iff_exists'.mp hPhys
    obtain ⟨frame, rfl, hFrame⟩ := getPhys_leafFrame hStage.1.inv hPage hAligned hPaddr
    obtain ⟨hStage₁, hSame⟩ := hStage.store hFrame (@copySegment_frameWrite k₁ page frame img ph)
      (copySegment_cr3 img ph page _ k₁)
    have hNext : (page + 0x1000) % pmmPageSize = 0 := by
      simp only [pmmPageSize] at hAligned ⊢
      omega
    obtain ⟨ok, k₂, hRest, hStage₂⟩ := (Stage.loaderInvariant _).loadPages img
      (Elf64Phdr.vmmFlags_writeOrExecute hCheck) remaining (.refl hStage₁.1 hStage₁.2.owned)
      (by omega) hNext
    have hLoad : loadPage img ph root page k =
        .ok (true, copySegment img ph page (frame * pmmPageSize) k₁) := by
      simp only [loadPage, ensureMapped, hNone, hFresh, hPaddr]
      rfl
    refine ⟨ok, k₂, by rw [loadPages, hLoad]; exact hRest, hStage₁.trans hStage₂,
      fun _ => ⟨page, hPage, hStage₂.2.keeps page hPage ?_⟩, fun hNot => absurd hFree hNot⟩
    rw [hSame page hPage]
    exact hYes hFree
  · rw [decide_eq_false hFree] at hFresh
    refine ⟨false, k₁, ?_, hStage, fun hFrames => absurd hFrames hFree, fun _ => ⟨rfl, hNo hFree⟩⟩
    simp only [loadPages, loadPage, ensureMapped, hNone, hFresh]

/-- What the segment loop leaves in an empty space. -/
theorem loadSegments_first (img : ElfImage) (headers : List Nat) :
    ∃ result k', loadSegments img root headers false k = .ok (result, k') ∧
      Stage start root k k' ∧
      (img.mapsFirst headers = true ∧ 4 ≤ k.pmm.clearFrames.card →
        ∃ va < 2 ^ 47, k'.leafOf root va ≠ none) ∧
      (¬ (img.mapsFirst headers = true ∧ 4 ≤ k.pmm.clearFrames.card) →
        SamePages root k k' ∧ result ≠ .ok true) := by
  induction headers with
  | nil =>
    refine ⟨.ok false, k, rfl, .refl hSpace h, ?_, fun _ => ⟨fun _ _ => rfl, by simp⟩⟩
    simp [ElfImage.mapsFirst]
  | cons i rest ih =>
    unfold ElfImage.mapsFirst at ih ⊢
    cases hDecisive : img.decisive i with
    | false =>
      rw [loadSegments_skip hDecisive, List.find?_cons_of_neg (by simp [hDecisive])]
      exact ih
    | true =>
      rw [List.find?_cons_of_pos hDecisive]
      unfold ElfImage.decisive at hDecisive
      rw [Bool.and_eq_true, beq_iff_eq, Bool.or_eq_true, decide_eq_true_eq] at hDecisive
      obtain ⟨hType, hSome⟩ := hDecisive
      rw [loadSegments]
      simp only [hType, bne_self_eq_false, Bool.false_eq_true, if_false]
      cases hCheck : (img.phdr i).check img.size with
      | some error =>
        refine ⟨.error error, k, rfl, .refl hSpace h, ?_, fun _ => ⟨fun _ _ => rfl, by simp⟩⟩
        simp
      | none =>
        rw [hCheck] at hSome
        obtain ⟨ok, k₁, hPages, hStage, hYes, hNo⟩ :=
          loadPages_first hSpace h hEmpty img hCheck (by simpa using hSome)
        rw [hPages]
        simp only [Option.isNone_none, true_and]
        cases ok with
        | false =>
          exact ⟨_, k₁, rfl, hStage, hYes, fun hFree => ⟨(hNo hFree).2, by simp⟩⟩
        | true =>
          obtain ⟨result, k₂, hRest, hStage'⟩ :=
            (Stage.loaderInvariant k₁).loadSegments img rest
              (false || (img.phdr i).hasEntry img.ehdr.entry)
              (.refl hStage.1 hStage.2.owned)
          refine ⟨result, k₂, hRest, hStage.trans hStage', ?_, ?_⟩
          · intro hFree
            obtain ⟨va, hva, hLeaf⟩ := hYes hFree
            exact ⟨va, hva, hStage'.2.keeps va hva hLeaf⟩
          · intro hFree
            cases (hNo hFree).1

/-- Loading an image into an empty space leaves a page mapped exactly if the
image maps a page and there are frames for it. -/
theorem elfLoadImage_maps_iff (img : ElfImage) (argv envp : List ArgString)
    {result : Except ElfLoadError (Nat × Nat)}
    (hLoad : elfLoadImage k root img argv envp = .ok (result, k')) :
    (∃ va < 2 ^ 47, k'.leafOf root va ≠ none) ↔
      img.mapsPage = true ∧ 4 ≤ k.pmm.clearFrames.card := by
  have hNoPage {k₁ : Kmem} (hSame : SamePages root k k₁) :
      ¬ ∃ va < 2 ^ 47, k₁.leafOf root va ≠ none := by
    rintro ⟨va, hva, hLeaf⟩
    rw [hSame va hva] at hLeaf
    exact hLeaf (leafOf_of_empty hEmpty hva)
  unfold ElfImage.mapsPage
  cases hHeader : checkElfHeader img with
  | some error =>
    rw [elfLoadImage, hHeader] at hLoad
    cases hLoad
    simpa using hNoPage (fun _ _ => rfl)
  | none =>
    obtain ⟨segments, k₁, hSegments, hStage, hYes, hNo⟩ :=
      loadSegments_first hSpace h hEmpty img (List.range img.ehdr.phnum)
    by_cases hMaps : img.mapsFirst (List.range img.ehdr.phnum) = true ∧
        4 ≤ k.pmm.clearFrames.card
    · refine iff_of_true ?_ hMaps
      obtain ⟨va, hva, hLeaf⟩ := hYes hMaps
      obtain ⟨_, k₂, hLoad', hStage'⟩ := (Stage.loaderInvariant k₁).tail img argv envp
        hHeader hSegments (.refl hStage.1 hStage.2.owned)
      obtain ⟨rfl, rfl⟩ := Prod.mk.inj (Except.ok.inj (hLoad.symm.trans hLoad'))
      exact ⟨va, hva, hStage'.2.keeps va hva hLeaf⟩
    · refine iff_of_false ?_ hMaps
      obtain ⟨hSame, hResult⟩ := hNo hMaps
      rw [elfLoadImage, hHeader, hSegments] at hLoad
      obtain error | _ | _ := segments
      · cases hLoad
        exact hNoPage hSame
      · cases hLoad
        exact hNoPage hSame
      · exact absurd rfl hResult

end FirstPage

/-- Creating an address space, loading an image into it and destroying it
restores the number of free frames, unless five frames were free and the image
maps a page: mapped pages are never given back. -/
theorem loadAndDestroy_restores_iff {k : Kmem} (hReady : k.pmm.Ready) (img : ElfImage)
    (argv envp : List ArgString) :
    ∃ k', loadAndDestroy k img argv envp = .ok k' ∧
      (pmmFreeFrames k'.pmm = pmmFreeFrames k.pmm ↔
        ¬ (img.mapsPage = true ∧ 5 ≤ pmmFreeFrames k.pmm)) := by
  unfold loadAndDestroy
  rw [pmmFreeFrames_eq hReady.consistent]
  rcases hCreate : vmmCreateAddressSpace k with ⟨_ | root, k₁⟩
  · -- no frame was free
    unfold vmmCreateAddressSpace at hCreate
    rcases hReady.alloc with ⟨hNone, hFail⟩ | ⟨frame, hPos, _, _, hAlloc⟩
    · simp only [hFail, beq_self_eq_true, if_true, Prod.mk.injEq] at hCreate
      refine ⟨k₁, rfl, ?_⟩
      rw [← hCreate.2, pmmFreeFrames_eq hReady.consistent, hNone]
      simp
    · simp [hAlloc, frame_beq_zero hPos] at hCreate
  · obtain ⟨hSpace, hOwned⟩ := Owned.create hReady hCreate
    obtain ⟨⟨frame, _, _, hLt, hClear, hTake⟩, hEmpty⟩ := vmmCreateAddressSpace_some hReady hCreate
    have hCard := hReady.consistent.card_take hLt hClear
    obtain ⟨result, k₂, hLoad, hStage⟩ :=
      (Stage.loaderInvariant k₁).elfLoadImage img argv envp (.refl hSpace hOwned)
    have hMaps := elfLoadImage_maps_iff hSpace hOwned hEmpty img argv envp hLoad
    obtain ⟨k₃, hDestroy, hRestored⟩ := hStage.2.owned.destroy hReady
    refine ⟨k₃, by dsimp only; rw [hLoad]; exact hDestroy, ?_⟩
    rw [← pmmFreeFrames_eq hReady.consistent, hRestored, pmmFreeFrames_eq hReady.consistent]
    have hFive : 4 ≤ k₁.pmm.clearFrames.card ↔ 5 ≤ k.pmm.clearFrames.card := by
      rw [hTake]
      omega
    rw [← hFive, ← hMaps]
    constructor
    · rintro hNone ⟨va, hva, hLeaf⟩
      exact hLeaf (hNone va hva)
    · intro hNo va hva
      by_contra hLeaf
      exact hNo ⟨va, hva, hLeaf⟩

/-- A file with one loadable segment: a single readable byte at `0x400000`. -/
def dataOnlyElf : ElfImage where
  data := fun i => (elfHeader 56 1 ++ byteSegment 4 0).getD i 0
  size := 120

/-- Three free frames are used up by the PML4, the page and one table, and all of them are
given back. -/
theorem loadAndDestroy_restores_iff_fourFrame :
    dataOnlyElf.mapsPage = true ∧ pmmFreeFrames fourFrameStart = 3 ∧
      ∃ k', loadAndDestroy ⟨fourFrameStart, fun _ => 0, 0⟩ dataOnlyElf [] [] = .ok k' ∧
        pmmFreeFrames k'.pmm = 3 := by
  have hReady : fourFrameStart.Ready :=
    ⟨fourFrameStart_bootMarking.consistent, fourFrameStart_bitmapReserved, by decide⟩
  have hFree : pmmFreeFrames fourFrameStart = 3 := by decide
  obtain ⟨k', hRun, hRestored⟩ :=
    @loadAndDestroy_restores_iff ⟨fourFrameStart, fun _ => 0, 0⟩ hReady
    dataOnlyElf [] []
  refine ⟨by decide +kernel, hFree, k', hRun, (hRestored.mpr ?_).trans hFree⟩
  rintro ⟨_, hFive⟩
  exact absurd (hFree ▸ hFive) (by decide)

/-- Loading this file fails with `ELF_ENTRY_OUT_OF_BOUNDS` after its page was
mapped, and the page is lost when the address space is destroyed. -/
theorem loadAndDestroy_leaks_page :
    pmmFreeFrames sixteenFrameMachine.pmm = 15 ∧
    ((elfLoadImage (vmmCreateAddressSpace sixteenFrameMachine).2 4096 dataOnlyElf []
      []).toOption.map (fun r => r.1.toOption)) = some none ∧
    (loadAndDestroy sixteenFrameMachine dataOnlyElf [] []).toOption.map
      (fun k => pmmFreeFrames k.pmm) = some 14 := by
  decide +kernel

end Kryos.Process
