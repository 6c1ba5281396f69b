import Kryos.Syscall.BrkPages

/-! No user page is writable and executable at the same time. The loader refuses
segments that ask for both and the heap is never executable; the one way around
is a break outside the user half, from which `sys_brk` frees page tables. -/
namespace Kryos.Syscall

open Memory Process

/-- The processor may write to the address and execute from it. -/
def writableExecutable (k : Kmem) (root va : Nat) : Bool :=
  match translation k root va with
  | none => false
  | some m => m.writable && !m.noExecute

/-- Every writable page is non-executable, as its leaf entry says. -/
def LeavesExclusive (k : Kmem) (root : Nat) : Prop :=
  ∀ va < 2 ^ 47, ∀ e, k.leafOf root va = some e → e.testBit 1 = true → e.testBit 63 = true

theorem LeavesExclusive.translation {k : Kmem} {root : Nat} (h : LeavesExclusive k root)
    (hInv : AsInv k root) {va : Nat} (hva : va < 2 ^ 47) :
    writableExecutable k root va = false := by
  unfold writableExecutable
  rw [hInv.translation_eq hva]
  cases hLeaf : k.leafOf root va with
  | none => rfl
  | some e =>
    simp only [Option.map_some, Mapping.at, Mapping.ofLeaf]
    cases hW : e.testBit 1 with
    | false => rfl
    | true => simp [h va hva e hLeaf hW]

theorem LeavesExclusive.fresh {k k' : Kmem} {root page flags : Nat} {ok : Bool}
    (h : LeavesExclusive k root) (hFlags : WriteOrExecute flags)
    (hFresh : FreshPage k k' root page flags ok) : LeavesExclusive k' root := by
  intro va hva e hLeaf
  cases ok with
  | false =>
    rw [hFresh.refused rfl va hva] at hLeaf
    exact h va hva e hLeaf
  | true =>
    obtain ⟨_, frame, hPhys, _, hLeaves, _⟩ := hFresh.mapped rfl
    rw [hLeaves va hva] at hLeaf
    split at hLeaf
    · obtain rfl := Option.some.inj hLeaf
      obtain ⟨_, _, hW, _, hX⟩ := leafEntry_bits hPhys flags
      rw [hW, hX, ← hasFlag_flagWritable, ← hasFlag_flagNoExecute]
      exact hFlags
    · exact h va hva e hLeaf

/-- What the loader and `sys_brk` keep. -/
def PagesExclusive (root : Nat) (k : Kmem) : Prop :=
  Space k root noSpare noSpare ∧ LeavesExclusive k root

theorem pagesExclusive_loader (root : Nat) : LoaderInvariant root (PagesExclusive root) where
  asInv := fun _ h => h.1.inv
  fresh := by
    rintro k page flags ⟨hSpace, hLeaves⟩ hPage hFlags
    obtain ⟨ok, k', hRun, hStep, hFresh⟩ := mapFreshPage_space hSpace hPage.le flags
    refine ⟨ok, k', hRun, ⟨hStep.space, hLeaves.fresh hFlags hFresh⟩, ?_⟩
    intro hOk
    obtain ⟨_, frame, _, _, hMapped, _⟩ := hFresh.mapped hOk
    rw [hMapped page hPage, if_pos rfl]
    simp
  store := by
    rintro k k' frame ⟨hSpace, hLeaves⟩ hFrame hWrite _
    obtain ⟨hSpace', hSame⟩ := hSpace.outsideWrite hWrite
      (hSpace.pages frame (Or.inl hFrame)).2.2.2.2
    refine ⟨hSpace', fun va hva e hLeaf => ?_⟩
    rw [hSame va hva] at hLeaf
    exact hLeaves va hva e hLeaf

theorem pagesExclusive_brk (root : Nat) : BrkInvariant root (PagesExclusive root) where
  fresh := by
    rintro k page ⟨hSpace, hLeaves⟩ hPage
    obtain ⟨ok, k', hRun, hStep, hFresh⟩ := mapFreshPage_space hSpace hPage brkFlags
    have hFlags : WriteOrExecute brkFlags := fun _ => by decide
    exact ⟨ok, k', hRun, ⟨hStep.space, hLeaves.fresh hFlags hFresh⟩,
      fun hOk => (hFresh.mapped hOk).1⟩
  free := by
    rintro k page phys ⟨hSpace, hLeaves⟩ hPage hAligned hPhys
    obtain ⟨p', hFree, hStep, hLeft⟩ := unmapFree_space hSpace hPage hAligned hPhys
    refine ⟨p', hFree, hStep.space, fun va hva e hLeaf => ?_⟩
    have hOld := (hLeft va hva).symm.trans hLeaf
    split at hOld
    · cases hOld
    · exact hLeaves va hva e hOld

/-- A sequence of `sys_brk` calls. A panic stops the machine. -/
def brkCalls (p : BrkProcess) : List Nat → Option BrkProcess
  | [] => some p
  | newBrk :: rest =>
    match (sysBrk p newBrk).ending with
    | .panicked _ => none
    | _ => brkCalls (sysBrk p newBrk).process rest

theorem brkCalls_cons {p : BrkProcess} {newBrk : Nat}
    (h : ∀ reason, (sysBrk p newBrk).ending ≠ .panicked reason) (rest : List Nat) :
    brkCalls p (newBrk :: rest) = brkCalls (sysBrk p newBrk).process rest := by
  rw [brkCalls]
  split
  · rename_i reason hPanic
    exact absurd hPanic (h reason)
  · rfl

theorem sysBrk_pml4 (p : BrkProcess) (newBrk : Nat) : (sysBrk p newBrk).process.pml4 = p.pml4 := by
  unfold sysBrk
  split
  · rfl
  split
  · rfl
  dsimp only
  split <;> rfl

theorem BrkInvariant.brkCalls {root : Nat} {Inv : Kmem → Prop} (inv : BrkInvariant root Inv)
    {args : List Nat} (hArgs : ∀ a ∈ args, a ≤ 2 ^ 64 - 4096) {p : BrkProcess}
    (hRoot : p.pml4 = root) (h : Inv p.kmem) (hUser : p.InUser) :
    ∃ q, brkCalls p args = some q ∧ Inv q.kmem := by
  induction args generalizing p with
  | nil => exact ⟨p, rfl, h⟩
  | cons newBrk rest ih =>
    have hArg := hArgs newBrk List.mem_cons_self
    obtain ⟨hInv, hReturns⟩ := inv.sysBrk hRoot h hUser hArg
    obtain ⟨hLow, hHigh, _⟩ := sysBrk_safe hUser hArg
    rw [brkCalls_cons hReturns]
    refine ih (fun a ha => hArgs a (List.mem_cons_of_mem _ ha))
      ((sysBrk_pml4 p newBrk).trans hRoot) hInv ⟨?_, hHigh⟩
    rw [(sysBrk_cases p newBrk).1]
    exact hLow

/-- An image is loaded into a new address space and the process then moves its
break, with arguments that can be rounded up to a page: every such sequence of
calls returns, and leaves no page of the user half both writable and
executable. -/
theorem user_pages_write_xor_execute {k k₁ k₂ : Kmem} {root : Nat} (hReady : k.pmm.Ready)
    (hCreate : vmmCreateAddressSpace k = (some root, k₁)) {img : ElfImage}
    {argv envp : List ArgString} {start : Nat × Nat}
    (hLoad : elfLoadImage k₁ root img argv envp = .ok (.ok start, k₂)) {args : List Nat}
    (hArgs : ∀ a ∈ args, a ≤ 2 ^ 64 - 4096) :
    ∃ p, brkCalls (spawned k₂ root) args = some p ∧
      ∀ va < 2 ^ 47, writableExecutable p.kmem root va = false := by
  obtain ⟨_, hEmpty⟩ := vmmCreateAddressSpace_some hReady hCreate
  have hStart : PagesExclusive root k₁ := by
    refine ⟨Space.create hReady (fun _ hNone => hNone.elim) hCreate, fun va hva e hLeaf => ?_⟩
    simp [leafOf_of_empty hEmpty hva] at hLeaf
  obtain ⟨_, _, hLoad', hLoaded⟩ := (pagesExclusive_loader root).elfLoadImage img argv envp hStart
  obtain ⟨_, rfl⟩ := Prod.mk.inj (Except.ok.inj (hLoad.symm.trans hLoad'))
  have hUser : (spawned k₂ root).InUser := ⟨Nat.le_refl _, by simp only [spawned]; omega⟩
  obtain ⟨p, hCalls, hSpace, hLeaves⟩ := (pagesExclusive_brk root).brkCalls hArgs rfl hLoaded hUser
  exact ⟨p, hCalls, fun va hva => hLeaves.translation hSpace.inv hva⟩

/-- A machine of 64 frames whose kernel half maps the first two megabytes of
memory as the boot code does, with one huge page. -/
def directMapMachine : Kmem where
  pmm :=
    { bitmap := fun i => if i = 0 then 0xFF else 0
      totalFrames := 64
      usedFrames := 8
      maxPhysicalAddress := 64 * pmmPageSize
      bitmapPhysAddr := 0x7000
      bitmapSize := 8 }
  mem := fun a =>
    if a = Radix.slot 0x1000 511 then 0x2003
    else if a = Radix.slot 0x2000 510 then 0x3003
    else if a = Radix.slot 0x3000 0 then 0x83
    else 0
  cr3 := 0x1000

theorem directMapMachine_ready : directMapMachine.pmm.Ready where
  consistent :=
    { aligned := rfl
      bounded := by decide
      size := rfl
      spare := by
        intro i hLow hHigh
        simp only [directMapMachine] at hLow hHigh
        omega
      count := by decide +kernel }
  reserved := by
    intro frame _ hBelow
    simp only [directMapMachine, Pmm.bitmapEnd, pmmPageSize] at hBelow
    have hLow : frame < 8 := by omega
    interval_cases frame <;> decide
  physical := by decide

/-- A file with two loadable segments: an executable page at `0x400000`, where
it starts, and a writable page after it. -/
def codeAndDataElf : ElfImage where
  data := fun i => (elfHeader 56 2 ++ byteSegment 5 0 ++ byteSegment 6 0x10).getD i 0
  size := 176

/-- The machine with that file loaded into its first address space. -/
def codeAndDataLoaded : Except PmmPanic (Except ElfLoadError (Nat × Nat) × Kmem) :=
  elfLoadImage (vmmCreateAddressSpace directMapMachine).2 0x8000 codeAndDataElf [] []

/-- The state that a load leaves behind. -/
def loadedKmem (result : Except PmmPanic (Except ElfLoadError (Nat × Nat) × Kmem)) : Kmem :=
  match result with
  | .error _ => directMapMachine
  | .ok (_, k) => k

theorem loadedKmem_eq {loaded : Except PmmPanic (Except ElfLoadError (Nat × Nat) × Kmem)}
    {start : Nat × Nat} (h : loaded.toOption.map (fun r => r.1.toOption) = some (some start)) :
    loaded = .ok (.ok start, loadedKmem loaded) := by
  obtain reason | ⟨error | result, k⟩ := loaded
  · cases h
  · cases h
  · cases h
    rfl

theorem codeAndDataLoaded_ok :
    codeAndDataLoaded = .ok (.ok (0x400000, 0x7FFFFFFFEFE8), loadedKmem codeAndDataLoaded) :=
  loadedKmem_eq (by decide +kernel)

/-- Growing the heap of that process by a page keeps its code page read-only. -/
theorem user_pages_write_xor_execute_onePage :
    ∃ p, brkCalls (spawned (loadedKmem codeAndDataLoaded) 0x8000) [0x10001000] = some p ∧
      ∀ va < 2 ^ 47, writableExecutable p.kmem 0x8000 va = false :=
  user_pages_write_xor_execute directMapMachine_ready rfl codeAndDataLoaded_ok (by decide)

/-- With arguments that wrap, the process frees its code page and the last-level
table above it through the kernel's huge page, and then maps a page in a part of
the user half that has no tables yet. The freed table is taken as a page
directory pointer table, whose entry the old path shows as a page of code that
the process may write. -/
theorem sysBrk_makes_code_writable :
    vmmCreateAddressSpace directMapMachine =
      (some 0x8000, (vmmCreateAddressSpace directMapMachine).2) ∧
    codeAndDataLoaded = .ok (.ok (0x400000, 0x7FFFFFFFEFE8), loadedKmem codeAndDataLoaded) ∧
    (brkCalls (spawned (loadedKmem codeAndDataLoaded) 0x8000)
        [2 ^ 64 - 1, 0xFFFFFFFF8000D000, 0xFFFFFFFF8000C000,
          2 ^ 64 - 1, 0xFFFFFFFF8000A000, 0xFFFFFFFF80009000,
          2 ^ 64 - 1, 2 ^ 39, 2 ^ 39 + 0x1000]).map
      (fun p => (translation p.kmem 0x8000 0x400000, writableExecutable p.kmem 0x8000 0x400000)) =
      some (some { frame := 0x21000, user := true, writable := true, noExecute := false },
        true) := by
  refine ⟨rfl, codeAndDataLoaded_ok, ?_⟩
  decide +kernel

end Kryos.Syscall
