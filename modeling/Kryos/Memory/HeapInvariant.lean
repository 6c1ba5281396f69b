import Kryos.Memory.HeapChain

/-! The heap invariant: which lists of blocks the allocator can leave behind, and
what each of its functions does to the list. -/
namespace Kryos.Memory

open Function Layout Word

variable {b c : Block} {a alignedSize grown : Nat} {h' : Heap} {blocks' : List Block}

/-- The pointers and capacities of the blocks in use. -/
def payloads : Nat → List Block → List (Nat × Nat)
  | _, [] => []
  | a, b :: rest =>
    if b.used then (a + heapHeader, b.size) :: payloads (a + b.extent) rest
    else payloads (a + b.extent) rest

@[simp] theorem payloads_nil (a : Nat) : payloads a [] = [] := rfl

theorem payloads_free (a : Nat) (hFree : b.used = false) (rest : List Block) :
    payloads a (b :: rest) = payloads (a + b.extent) rest := by
  simp [payloads, hFree]

theorem payloads_used (a : Nat) (hUsed : b.used = true) (rest : List Block) :
    payloads a (b :: rest) = (a + heapHeader, b.size) :: payloads (a + b.extent) rest := by
  simp [payloads, hUsed]

theorem payloads_append (a : Nat) (first second : List Block) :
    payloads a (first ++ second) =
      payloads a first ++ payloads (a + total Block.extent first) second := by
  induction first generalizing a with
  | nil => simp
  | cons b rest ih =>
    simp only [List.cons_append, payloads, ih, total_cons, ← Nat.add_assoc]
    split <;> simp

theorem mem_payloads {p size : Nat} {blocks : List Block} :
    (p, size) ∈ payloads a blocks ↔
      ∃ x, p = x + heapHeader ∧ (x, ⟨size, true⟩) ∈ placed Block.extent a blocks := by
  induction blocks generalizing a with
  | nil => simp
  | cons b rest ih =>
    obtain ⟨capacity, used⟩ := b
    cases used with
    | false => simp [payloads, ih]
    | true =>
      simp only [payloads, if_true, List.mem_cons, Prod.mk.injEq, ih, placed_cons]
      constructor
      · rintro (⟨rfl, rfl⟩ | ⟨x, rfl, hx⟩)
        · exact ⟨a, rfl, Or.inl ⟨rfl, rfl⟩⟩
        · exact ⟨x, rfl, Or.inr hx⟩
      · rintro ⟨x, rfl, hHere | hx⟩
        · cases hHere.2
          exact Or.inl ⟨by rw [hHere.1], rfl⟩
        · exact Or.inr ⟨x, rfl, hx⟩

theorem payloads_merge (a : Nat) (hb : b.used = false) (hc : c.used = false) (rest : List Block) :
    payloads a (⟨b.size + c.extent, b.used⟩ :: rest) = payloads a (b :: c :: rest) := by
  rw [payloads_free a hb, payloads_free _ hc, payloads_free (b := ⟨b.size + c.extent, b.used⟩) a hb]
  congr 1
  simp only [Block.extent]
  omega

/-- Sizes are aligned and no two free blocks are adjacent. -/
def Tidy (blocks : List Block) : Prop :=
  (∀ b ∈ blocks, b.size % 16 = 0) ∧ blocks.IsChain (fun b c => b.used ∨ c.used)

theorem tidy_append {first second : List Block} :
    Tidy (first ++ second) ↔ Tidy first ∧ Tidy second ∧
      ∀ b ∈ first.getLast?, ∀ c ∈ second.head?, b.used ∨ c.used := by
  simp only [Tidy, List.isChain_append, List.mem_append, or_imp, forall_and]
  tauto

theorem tidy_cons {rest : List Block} :
    Tidy (c :: rest) ↔ c.size % 16 = 0 ∧ Tidy rest ∧ ∀ d ∈ rest.head?, c.used ∨ d.used := by
  simp only [Tidy, List.isChain_cons, List.forall_mem_cons]
  tauto

/-- The blocks of the heap are `blocks`, from `start` on. -/
structure Heap.Represents (h : Heap) (start : Nat) (blocks : List Block) : Prop where
  chain : Chain h.mem 0 0 start blocks
  head : h.head = linkTo 0 start blocks
  start_eq : h.heapStart = start
  start_pos : 0 < start
  start_aligned : start % 16 = 0
  committed : h.heapCommittedEnd = start + total Block.extent blocks
  reserved : h.heapCommittedEnd ≤ h.heapReservedEnd
  limit : h.heapReservedEnd = kernelHeapMax
  tidy : Tidy blocks

section Invariant

variable {h : Heap} {start : Nat} {blocks before after : List Block} {b : Block}

theorem Heap.Represents.range (hRep : h.Represents start blocks) :
    start + total Block.extent blocks ≤ kernelHeapMax := by
  rw [← hRep.committed, ← hRep.limit]
  exact hRep.reserved

theorem Tidy.extents_aligned (hTidy : Tidy blocks) :
    total Block.extent blocks % 16 = 0 := by
  induction blocks with
  | nil => rfl
  | cons b rest ih =>
    obtain ⟨hSize, hRest, _⟩ := tidy_cons.mp hTidy
    have hTotal := ih hRest
    simp only [total_cons, Block.extent, heapHeader]
    omega

theorem length_le_total (blocks : List Block) : blocks.length ≤ total Block.extent blocks := by
  induction blocks with
  | nil => simp
  | cons b rest ih =>
    simp only [List.length_cons, total_cons, Block.extent, heapHeader]
    omega

/-! ### The search -/

/-- The search walks the list to the first free block that fits, or to its end. -/
theorem Heap.search_spec (alignedSize : Nat) {prev fuel : Nat} (hPos : 0 < a)
    (hChain : Chain h.mem 0 prev a blocks) (hFuel : blocks.length < fuel) :
    (∃ before b after, blocks = before ++ b :: after ∧ b.used = false ∧ alignedSize ≤ b.size ∧
      h.search alignedSize fuel (linkTo 0 a blocks) prev =
        some (.found (a + total Block.extent before))) ∨
    ((∀ b ∈ blocks, b.used = false → b.size < alignedSize) ∧
      h.search alignedSize fuel (linkTo 0 a blocks) prev =
        some (.missing (lastOf prev a blocks))) := by
  induction blocks generalizing a prev fuel with
  | nil =>
    obtain ⟨fuel, rfl⟩ := Nat.exists_eq_succ_of_ne_zero (Nat.ne_of_gt hFuel)
    exact Or.inr ⟨by simp, rfl⟩
  | cons b rest ih =>
    obtain ⟨fuel, rfl⟩ := Nat.exists_eq_succ_of_ne_zero (Nat.ne_of_gt (Nat.zero_lt_of_lt hFuel))
    obtain ⟨_, hSize, hState, hNext, _, hRest⟩ := hChain
    have hNonzero : (a == 0) = false := by simp; omega
    simp only [linkTo_cons, Heap.search, hNonzero, Bool.false_eq_true, if_false, Heap.state, hState,
      Block.stateWord_free, Heap.size, hSize, Heap.next, hNext]
    by_cases hFits : b.used = false ∧ alignedSize ≤ b.size
    · refine Or.inl ⟨[], b, rest, rfl, hFits.1, hFits.2, ?_⟩
      simp [hFits.1, hFits.2]
    · have hSkip : (!b.used && decide (b.size ≥ alignedSize)) = false := by
        simpa [not_and_or, imp_iff_not_or] using hFits
      simp only [hSkip, Bool.false_eq_true, if_false]
      rcases ih (by omega) hRest (Nat.lt_of_succ_lt_succ hFuel) with
        ⟨before, c, after, rfl, hFree, hRoom, hFound⟩ | ⟨hNone, hMissing⟩
      · refine Or.inl ⟨b :: before, c, after, rfl, hFree, hRoom, ?_⟩
        rw [hFound, total_cons, Nat.add_assoc]
      · refine Or.inr ⟨?_, hMissing⟩
        intro c hc hFree
        rcases List.mem_cons.mp hc with rfl | hc
        · by_contra hLarge
          exact hFits ⟨hFree, by omega⟩
        · exact hNone c hc hFree

/-! ### Handing a block out -/

theorem Heap.Represents.update (hRep : h.Represents start blocks) (hBounds : h.SameBounds h')
    (hChain : Chain h'.mem 0 0 start blocks')
    (hTotal : total Block.extent blocks' = total Block.extent blocks) (hTidy : Tidy blocks') :
    h'.Represents start blocks' := by
  have hHead : linkTo 0 start blocks' = linkTo 0 start blocks := by
    cases blocks <;> cases blocks' <;> simp [Block.extent, heapHeader] at hTotal ⊢
    omega
  rw [hBounds]
  exact ⟨hChain, by rw [hHead]; exact hRep.head, hRep.start_eq, hRep.start_pos,
    hRep.start_aligned, by rw [hTotal]; exact hRep.committed, hRep.reserved, hRep.limit,
    hTidy⟩

theorem Heap.Represents.markUsed (hRep : h.Represents start (before ++ b :: after)) :
    (h.setState (start + total Block.extent before) heapUsed).Represents start
      (before ++ ⟨b.size, true⟩ :: after) := by
  apply hRep.update (h.sameBounds_store _ _) (hRep.chain.setState true)
  · simp [Block.extent]
  · obtain ⟨hBefore, hTidy, _⟩ := tidy_append.mp hRep.tidy
    obtain ⟨hSize, hAfter, _⟩ := tidy_cons.mp hTidy
    exact tidy_append.mpr ⟨hBefore, tidy_cons.mpr ⟨hSize, hAfter, by simp⟩, by simp⟩

/-- Splitting a free block. The used part is marked afterwards, so the two free
parts are adjacent in between. -/
theorem Heap.Represents.split_used (hRep : h.Represents start (before ++ b :: after))
    (hFree : b.used = false) (hAligned : alignedSize % 16 = 0)
    (hRoom : alignedSize + heapHeader + 16 ≤ b.size) :
    ((h.split (start + total Block.extent before) alignedSize (b.size - alignedSize)).setState
      (start + total Block.extent before) heapUsed).Represents start
      (before ++ ⟨alignedSize, true⟩ :: ⟨b.size - alignedSize - heapHeader, false⟩ :: after) := by
  have hRange : start + total Block.extent (before ++ b :: after) < 2 ^ 64 :=
    lt_of_le_of_lt hRep.range (by decide)
  have hBounds : h.SameBounds
      ((h.split (start + total Block.extent before) alignedSize (b.size - alignedSize)).setState
        (start + total Block.extent before) heapUsed) := by
    unfold Heap.split
    dsimp only
    split <;> rfl
  apply hRep.update hBounds ((hRep.chain.split hRep.start_pos hRange hRoom).setState true)
  · simp only [total_append, total_cons, Block.extent, heapHeader] at hRoom ⊢
    omega
  · obtain ⟨hBefore, hTidy, _⟩ := tidy_append.mp hRep.tidy
    obtain ⟨hSize, hAfter, hHead⟩ := tidy_cons.mp hTidy
    refine tidy_append.mpr
      ⟨hBefore, tidy_cons.mpr ⟨hAligned, tidy_cons.mpr ⟨?_, hAfter, ?_⟩, by simp⟩, by simp⟩
    · simp only [heapHeader]
      omega
    · simpa [hFree] using hHead

/-- `claim` uses a free block, whole or split. -/
theorem Heap.Represents.claim (hRep : h.Represents start (before ++ b :: after))
    (hFree : b.used = false) (hFits : alignedSize ≤ b.size) (hAligned : alignedSize % 16 = 0) :
    ∃ blocks' capacity, alignedSize ≤ capacity ∧
      (h.claim (start + total Block.extent before) alignedSize).Represents start blocks' ∧
      payloads start blocks' = payloads start before ++
        (start + total Block.extent before + heapHeader, capacity) ::
          payloads (start + total Block.extent before + b.extent) after := by
  have hRange := hRep.range
  have hSize := hRep.chain.middle.2.1
  have hRemaining : sub64 (h.size (start + total Block.extent before)) alignedSize =
      b.size - alignedSize := by
    rw [Heap.size, hSize]
    apply sub64_of_le hFits
    simp only [total_append, total_cons, Block.extent, heapHeader, kernelHeapMax] at hRange
    omega
  unfold Heap.claim
  simp only [hRemaining]
  by_cases hSplit : b.size - alignedSize ≥ heapHeader + 16
  · rw [if_pos hSplit]
    refine ⟨_, alignedSize, le_rfl, hRep.split_used hFree hAligned ?_, ?_⟩
    · omega
    · have hEnd : start + total Block.extent before + (heapHeader + alignedSize) +
          (heapHeader + (b.size - alignedSize - heapHeader)) =
          start + total Block.extent before + b.extent := by
        simp only [Block.extent, heapHeader] at hSplit ⊢
        omega
      rw [payloads_append, payloads_used _ rfl, payloads_free _ rfl, ← hEnd]
      rfl
  · rw [if_neg hSplit]
    refine ⟨_, b.size, hFits, hRep.markUsed, ?_⟩
    rw [payloads_append, payloads_used _ rfl]
    rfl

/-! ### Taking a block back -/

section

variable (hPos : 0 < start) (hChain : Chain h.mem 0 0 start (before ++ b :: after))
  (hRange : start + total Block.extent (before ++ b :: after) < 2 ^ 64) (hFree : b.used = false)

include hPos hChain hRange hFree

theorem Heap.mergeNext (hSize : b.size % 16 = 0) (hTidy : Tidy after) :
    let x := start + total Block.extent before
    let h' := if h.next x != 0 && h.state (h.next x) == heapFree then h.absorb x (h.next x) else h
    ∃ c rest, Chain h'.mem 0 0 start (before ++ c :: rest) ∧ c.used = false ∧ Tidy (c :: rest) ∧
      total Block.extent (c :: rest) = total Block.extent (b :: after) ∧
      payloads x (c :: rest) = payloads x (b :: after) := by
  dsimp only
  have hNext := hChain.middle.2.2.2.1
  rw [Heap.next, hNext]
  cases after with
  | nil => exact ⟨b, [], by simpa [linkTo] using hChain, hFree, by simp [Tidy, hSize], rfl, rfl⟩
  | cons c rest =>
    have hState := (Chain.middle
      (show Chain h.mem 0 0 start ((before ++ [b]) ++ c :: rest) by simpa using hChain)).2.2.1
    simp only [total_append, total_cons, total_nil, Nat.add_zero, ← Nat.add_assoc] at hState
    have hNonzero : (start + total Block.extent before + b.extent != 0) = true := by simp; omega
    obtain ⟨hSizeC, hTidyRest, hHead⟩ := tidy_cons.mp hTidy
    simp only [linkTo_cons, Heap.state, hState, Block.stateWord_free, hNonzero, Bool.true_and]
    cases hUsed : c.used with
    | true =>
      refine ⟨b, c :: rest, by simpa using hChain, hFree,
        tidy_cons.mpr ⟨hSize, hTidy, ?_⟩, rfl, rfl⟩
      simp [hUsed]
    | false =>
      refine ⟨⟨b.size + c.extent, b.used⟩, rest, hChain.absorb hPos hRange, hFree, ?_, ?_, ?_⟩
      · refine tidy_cons.mpr ⟨?_, hTidyRest, ?_⟩
        · simp only [Block.extent, heapHeader]
          omega
        · simpa [hFree, hUsed] using hHead
      · simp only [total_cons, Block.extent]
        omega
      · exact payloads_merge _ hFree hUsed rest

theorem Heap.mergePrev (hBefore : Tidy before) (hTidy : Tidy (b :: after)) :
    let x := start + total Block.extent before
    let h' := if h.prev x != 0 && h.state (h.prev x) == heapFree then h.absorb (h.prev x) x else h
    ∃ blocks', Chain h'.mem 0 0 start blocks' ∧ Tidy blocks' ∧
      total Block.extent blocks' = total Block.extent (before ++ b :: after) ∧
      payloads start blocks' = payloads start (before ++ b :: after) := by
  dsimp only
  have hPrev := hChain.middle.2.2.2.2
  rw [Heap.prev, hPrev]
  rcases lastOf_cases 0 start before with ⟨rfl, hLast⟩ | ⟨front, p, rfl, hLast⟩
  · exact ⟨b :: after, by simpa [hLast] using hChain, hTidy, rfl, rfl⟩
  · rw [hLast]
    have hSplit : front ++ [p] ++ b :: after = front ++ p :: b :: after := by simp
    rw [hSplit] at hChain hRange ⊢
    have hState := hChain.middle.2.2.1
    have hNonzero : (start + total Block.extent front != 0) = true := by simp; omega
    obtain ⟨hTidyFront, hTidyP, hJoin⟩ := tidy_append.mp hBefore
    simp only [Heap.state, hState, Block.stateWord_free, hNonzero, Bool.true_and]
    cases hUsed : p.used with
    | true =>
      refine ⟨front ++ p :: b :: after, by simpa using hChain, ?_, rfl, rfl⟩
      rw [← hSplit]
      exact tidy_append.mpr ⟨hBefore, hTidy, by simp [hUsed]⟩
    | false =>
      have hAbsorb := hChain.absorb hPos hRange
      obtain ⟨hSizeB, hTidyAfter, hHead⟩ := tidy_cons.mp hTidy
      have hSizeP := hTidyP.1 p (by simp)
      refine ⟨front ++ ⟨p.size + b.extent, p.used⟩ :: after, ?_, ?_, ?_, ?_⟩
      · simpa [Nat.add_assoc] using hAbsorb
      · refine tidy_append.mpr ⟨hTidyFront, tidy_cons.mpr ⟨?_, hTidyAfter, ?_⟩, ?_⟩
        · simp only [Block.extent, heapHeader]
          omega
        · simpa [hFree, hUsed] using hHead
        · simpa [hUsed] using hJoin
      · simp only [total_append, total_cons, Block.extent]
        omega
      · rw [payloads_append, payloads_append, payloads_merge _ hUsed hFree]

end

/-- `release` removes one payload. -/
theorem Heap.Represents.release (hRep : h.Represents start (before ++ b :: after)) :
    ∃ blocks', (h.release (start + total Block.extent before)).Represents start blocks' ∧
      payloads start blocks' = payloads start before ++
        payloads (start + total Block.extent before + b.extent) after := by
  have hRange : start + total Block.extent (before ++ b :: after) < 2 ^ 64 :=
    lt_of_le_of_lt hRep.range (by decide)
  obtain ⟨hTidyBefore, hTidyB, _⟩ := tidy_append.mp hRep.tidy
  obtain ⟨hSize, hTidyAfter, _⟩ := tidy_cons.mp hTidyB
  have hExtent : total Block.extent (before ++ ⟨b.size, false⟩ :: after) =
      total Block.extent (before ++ b :: after) := by simp [Block.extent]
  obtain ⟨c, rest, hChain, hFree, hTidy, hTotal, hPayloads⟩ := Heap.mergeNext hRep.start_pos
    (hRep.chain.setState false) (by rw [hExtent]; exact hRange) rfl hSize hTidyAfter
  have hTotal' :
      total Block.extent (before ++ c :: rest) = total Block.extent (before ++ b :: after) := by
    rw [total_append, hTotal, ← total_append, hExtent]
  obtain ⟨blocks', hChain', hTidy', hTotal'', hPayloads'⟩ := Heap.mergePrev hRep.start_pos hChain
    (by rw [hTotal']; exact hRange) hFree hTidyBefore hTidy
  refine ⟨blocks', hRep.update (h.sameBounds_release _) hChain' (hTotal''.trans hTotal')
    hTidy', ?_⟩
  rw [hPayloads', payloads_append, hPayloads, payloads_free _ rfl]
  rfl

/-! ### Growth -/

/-- The heap with `grown` more bytes committed. -/
def Heap.commit (h : Heap) (grown : Nat) : Heap :=
  { h with heapCommittedEnd := h.heapCommittedEnd + grown }

theorem expandLoop_spec (outcome : Nat → PageOutcome) (remaining i : Nat) (h : Heap)
    (hRange : h.heapCommittedEnd + remaining * pmmPageSize < 2 ^ 64) :
    ∃ done ≤ remaining, (expandLoop outcome remaining i h).2 = h.commit (done * pmmPageSize) ∧
      ((expandLoop outcome remaining i h).1 = true → done = remaining) := by
  induction remaining generalizing i h with
  | zero => exact ⟨0, le_rfl, by simp [expandLoop, Heap.commit], fun _ => rfl⟩
  | succ remaining ih =>
    unfold expandLoop
    cases outcome i with
    | noFrame => exact ⟨0, Nat.zero_le _, by simp [Heap.commit], by simp⟩
    | notMapped => exact ⟨0, Nat.zero_le _, by simp [Heap.commit], by simp⟩
    | mapped =>
      have hEnd : u64 (h.heapCommittedEnd + pmmPageSize) = h.heapCommittedEnd + pmmPageSize :=
        u64_of_lt (by simp only [pmmPageSize] at hRange ⊢; omega)
      obtain ⟨done, hDone, hHeap, hAll⟩ := ih (i + 1) (h.commit pmmPageSize)
        (by simp only [Heap.commit, pmmPageSize] at hRange ⊢; omega)
      refine ⟨done + 1, by omega, ?_, ?_⟩
      · simp only [hEnd]
        rw [show ({ h with heapCommittedEnd := h.heapCommittedEnd + pmmPageSize } : Heap) =
          h.commit pmmPageSize from rfl, hHeap]
        simp only [Heap.commit, Heap.mk.injEq, true_and, and_true]
        ring
      · simp only [hEnd]
        intro hTrue
        rw [hAll hTrue]

/-- `expand_heap` commits whole pages, and enough of them if it succeeds. -/
theorem Heap.Represents.expand (hRep : h.Represents start blocks) {bytes : Nat}
    (hBytes : kernelHeapMax + bytes + pmmPageSize ≤ 2 ^ 64) (outcome : Nat → PageOutcome) :
    ∃ grown, grown % pmmPageSize = 0 ∧ (expandHeap h bytes outcome).2 = h.commit grown ∧
      h.heapCommittedEnd + grown ≤ h.heapReservedEnd ∧
      ((expandHeap h bytes outcome).1 = true → bytes ≤ grown) := by
  have hLimit := hRep.limit
  have hReserved := hRep.reserved
  simp only [pmmPageSize] at hBytes
  obtain ⟨pages, hCount, hEnough, hFew⟩ : ∃ pages, alignUp bytes pmmPageSize / pmmPageSize = pages ∧
      bytes ≤ pages * pmmPageSize ∧ pages * pmmPageSize < bytes + 4096 := by
    have hAlign := alignUp_eq bytes (by decide : 12 ≤ 64)
    rw [u64_of_lt (by simp only [kernelHeapMax] at hBytes; omega)] at hAlign
    refine ⟨_, rfl, ?_⟩
    rw [show pmmPageSize = 2 ^ 12 from rfl, hAlign]
    omega
  have hEnd : u64 (h.heapCommittedEnd + u64 (pages * pmmPageSize)) =
      h.heapCommittedEnd + pages * pmmPageSize := by
    rw [u64_of_lt (by omega : pages * pmmPageSize < 2 ^ 64), u64_of_lt (by omega)]
  unfold expandHeap
  simp only [hCount, hEnd]
  split
  · exact ⟨0, rfl, by simp [Heap.commit], hReserved, by simp⟩
  · obtain ⟨done, hDone, hHeap, hAll⟩ := expandLoop_spec outcome pages 0 h (by omega)
    have hLess : done * pmmPageSize ≤ pages * pmmPageSize := Nat.mul_le_mul_right _ hDone
    refine ⟨done * pmmPageSize, Nat.mul_mod_left _ _, hHeap, by omega, ?_⟩
    intro hTrue
    rw [hAll hTrue]
    exact hEnough

theorem Heap.Represents.grow (hRep : h.Represents start blocks)
    (hChain : Chain h'.mem 0 0 start blocks') (hHead : h'.head = linkTo 0 start blocks')
    (hBounds : h' = { h.commit grown with mem := h'.mem, head := h'.head })
    (hTotal : total Block.extent blocks' = total Block.extent blocks + grown)
    (hLimit : h.heapCommittedEnd + grown ≤ h.heapReservedEnd) (hTidy : Tidy blocks') :
    h'.Represents start blocks' := by
  rw [hBounds]
  refine ⟨hChain, hHead, hRep.start_eq, hRep.start_pos, hRep.start_aligned, ?_,
    hLimit, hRep.limit, hTidy⟩
  rw [hTotal, ← Nat.add_assoc, ← hRep.committed]
  rfl

theorem Heap.Represents.growLast (hRep : h.Represents start (before ++ [b]))
    (hFree : b.used = false) (hGrown : grown % 16 = 0)
    (hLimit : h.heapCommittedEnd + grown ≤ h.heapReservedEnd) :
    ((h.commit grown).setSize (start + total Block.extent before)
      (u64 (h.size (start + total Block.extent before) + grown))).Represents start
      (before ++ [⟨b.size + grown, false⟩]) := by
  have hMax := hRep.limit
  have hCommitted := hRep.committed
  simp only [total_append, total_cons, total_nil, Block.extent, kernelHeapMax] at hMax hCommitted
  have hSum : u64 (h.size (start + total Block.extent before) + grown) = b.size + grown := by
    rw [Heap.size, hRep.chain.middle.2.1]
    exact u64_of_lt (by omega)
  obtain ⟨hBefore, hLast, hJoin⟩ := tidy_append.mp hRep.tidy
  have hSize := hLast.1 b (by simp)
  have hHead := hRep.head
  rw [hSum]
  apply hRep.grow _ _ rfl _ hLimit
  · refine tidy_append.mpr ⟨hBefore, by simp [Tidy]; omega, ?_⟩
    simpa [hFree] using hJoin
  · have hChain :=
      (show Chain (h.commit grown).mem 0 0 start (before ++ [b]) from hRep.chain).growTail
      (b.size + grown)
    rwa [hFree] at hChain
  · rw [show linkTo 0 start (before ++ [⟨b.size + grown, false⟩]) = linkTo 0 start
      (before ++ [b]) by
      cases before <;> rfl]
    exact hHead
  · simp only [total_append, total_cons, total_nil, Block.extent]
    omega

theorem Heap.Represents.appendFree (hRep : h.Represents start blocks)
    (hUsed : ∀ d ∈ blocks.getLast?, d.used = true) (hGrown : grown % 16 = 0)
    (hRoom : heapHeader ≤ grown) (hLimit : h.heapCommittedEnd + grown ≤ h.heapReservedEnd) :
    let e := h.heapCommittedEnd
    let g := ((((((h.commit grown).setMagic e heapMagic).setSize e
      (sub64 grown heapHeader)).setState e
      heapFree).setNext e 0).setPrev e (lastOf 0 start blocks))
    (if lastOf 0 start blocks != 0 then g.setNext (lastOf 0 start blocks) e
      else { g with head := e }).Represents start (blocks ++ [⟨grown - heapHeader, false⟩]) := by
  intro e g
  have hPos := hRep.start_pos
  have hMax := hRep.limit
  have hEnd : e = start + total Block.extent blocks := hRep.committed
  have hRest : sub64 grown heapHeader = grown - heapHeader :=
    sub64_of_le hRoom (by simp only [kernelHeapMax] at hMax; omega)
  have hTidy : Tidy (blocks ++ [⟨grown - heapHeader, false⟩]) := by
    refine tidy_append.mpr ⟨hRep.tidy, ?_, fun d hd _ _ => Or.inl (hUsed d hd)⟩
    simp only [Tidy, List.mem_singleton, forall_eq, heapHeader, List.isChain_singleton, and_true]
    omega
  have hTotal : total Block.extent (blocks ++ [⟨grown - heapHeader, false⟩]) =
      total Block.extent blocks + grown := by
    simp only [total_append, total_cons, total_nil, Block.extent]
    omega
  have hHeader : Chain g.mem 0 (lastOf 0 start blocks) e [⟨grown - heapHeader, false⟩] := by
    simp (disch := omega) [Chain, g, Heap.setMagic, Heap.setSize, Heap.setState, Heap.setNext,
      Heap.setPrev, linkTo, hRest, Block.stateWord]
  have hLow : ∀ x < e, g.mem x = h.mem x := by
    intro x hx
    simp (disch := omega) only [g, Heap.setMagic, Heap.setSize, Heap.setState, Heap.setNext,
      Heap.setPrev, Heap.store_mem, update_of_ne]
    rfl
  have hHead := hRep.head
  rw [hEnd] at hHeader hLow
  rcases lastOf_cases 0 start blocks with ⟨rfl, hLast⟩ | ⟨before, d, rfl, hLast⟩
  · apply hRep.grow _ _ rfl hTotal hLimit hTidy
    · exact hRep.chain.appendBlock hHeader (by simp) (fun x hx _ => hLow x hx)
    · exact hEnd
  · rw [if_pos (by rw [hLast]; simp; omega)]
    have hBelow : lastOf 0 start (before ++ [d]) + heapHeader ≤
        start + total Block.extent (before ++ [d]) := by
      simp only [total_append, total_cons, total_nil, Block.extent]
      omega
    simp only [heapHeader] at hBelow
    apply hRep.grow _ _ rfl hTotal hLimit hTidy
    · apply hRep.chain.appendBlock
      · apply hHeader.congr_range
        intro x hx _
        exact update_of_ne (by omega) _ _
      · intro _
        rw [← hEnd]
        exact update_self _ _ _
      · intro x hx hNe
        rw [← hLow x hx]
        exact update_of_ne hNe _ _
    · rw [show linkTo 0 start (before ++ [d] ++ _) = linkTo 0 start (before ++ [d]) by
        cases before <;> rfl]
      exact hHead

theorem Heap.Represents.addGrowth (hRep : h.Represents start blocks)
    (hGrown : grown % pmmPageSize = 0) (hLimit : h.heapCommittedEnd + grown ≤ h.heapReservedEnd) :
    ∃ blocks', ((h.commit grown).addGrowth h.heapCommittedEnd (lastOf 0 start blocks)).Represents
        start blocks' ∧ payloads start blocks' = payloads start blocks ∧
      (0 < grown → ∃ b ∈ blocks', b.used = false ∧ grown ≤ heapHeader + b.size) := by
  simp only [pmmPageSize] at hGrown
  have hEnd : (h.commit grown).heapCommittedEnd = h.heapCommittedEnd + grown := rfl
  unfold Heap.addGrowth
  rw [hEnd, Nat.add_sub_cancel_left]
  by_cases hZero : grown = 0
  · subst hZero
    rw [if_neg (by simp)]
    exact ⟨blocks, hRep, rfl, by simp⟩
  rw [if_pos (by omega)]
  have hAppend (hUsed : ∀ d ∈ blocks.getLast?, d.used = true) :=
    hRep.appendFree hUsed (by omega) (by simp only [heapHeader]; omega) hLimit
  have hSame :
      payloads start (blocks ++ [⟨grown - heapHeader, false⟩]) = payloads start blocks := by
    rw [payloads_append, payloads_free _ rfl, payloads_nil, List.append_nil]
  have hRoom : ∃ b ∈ blocks ++ [⟨grown - heapHeader, false⟩], b.used = false ∧
      grown ≤ heapHeader + b.size := ⟨⟨grown - heapHeader, false⟩, by simp, rfl, by simp; omega⟩
  rcases lastOf_cases 0 start blocks with ⟨rfl, hLast⟩ | ⟨before, d, rfl, hLast⟩
  · exact ⟨_, hAppend (by simp), hSame, fun _ => hRoom⟩
  · have hTail : (lastOf 0 start (before ++ [d]) != 0 &&
        (h.commit grown).state (lastOf 0 start (before ++ [d])) == heapFree) = !d.used := by
      have hPos := hRep.start_pos
      have hState : (h.commit grown).state (start + total Block.extent before) = d.stateWord :=
        hRep.chain.middle.2.2.1
      have hNonzero : (start + total Block.extent before != 0) = true := by simp; omega
      rw [hLast, hState, hNonzero, Block.stateWord_free, Bool.true_and]
    rw [hTail]
    cases hUsed : d.used with
    | true => exact ⟨_, hAppend (by simp [hUsed]), hSame, fun _ => hRoom⟩
    | false =>
      rw [hLast]
      refine ⟨_, hRep.growLast hUsed (by omega) hLimit, ?_, fun _ =>
        ⟨⟨d.size + grown, false⟩, by simp, rfl, by simp; omega⟩⟩
      rw [payloads_append, payloads_append, payloads_free _ rfl, payloads_free _ hUsed]
      rfl

/-! ### The calls -/

/-- What a call of the allocator does to the payloads: nothing, or it adds one of at
least the given size. -/
def Allocates (alignedSize pointer : Nat) (old new : List (Nat × Nat)) : Prop :=
  (pointer = 0 ∧ new = old) ∨
  (pointer ≠ 0 ∧ ∃ capacity first second, alignedSize ≤ capacity ∧ old = first ++ second ∧
    new = first ++ (pointer, capacity) :: second)

theorem Heap.Represents.fuel (hRep : h.Represents start blocks) : blocks.length < heapFuel := by
  have hRange := hRep.range
  have hLength := length_le_total blocks
  simp only [kernelHeapMax, heapFuel] at hRange ⊢
  omega

theorem Heap.Represents.kmalloc_found (hRep : h.Represents start (before ++ b :: after))
    (hFree : b.used = false) (hFits : alignedSize ≤ b.size) (hAligned : alignedSize % 16 = 0) :
    ∃ blocks', (h.claim (start + total Block.extent before) alignedSize).Represents start blocks' ∧
      Allocates alignedSize (u64 (start + total Block.extent before + heapHeader))
        (payloads start (before ++ b :: after)) (payloads start blocks') := by
  obtain ⟨blocks', capacity, hCapacity, hClaim, hPayloads⟩ := hRep.claim hFree hFits hAligned
  have hRange := hRep.range
  have hPointer : u64 (start + total Block.extent before + heapHeader) =
      start + total Block.extent before + heapHeader := by
    apply u64_of_lt
    simp only [total_append, total_cons, Block.extent, kernelHeapMax] at hRange
    omega
  refine ⟨blocks', hClaim, Or.inr ⟨?_, capacity, payloads start before,
    payloads (start + total Block.extent before + b.extent) after, hCapacity, ?_, ?_⟩⟩
  · rw [hPointer]
    simp only [heapHeader]
    omega
  · rw [payloads_append, payloads_free _ hFree]
  · rw [hPointer, hPayloads]

theorem Heap.addGrowth_committedEnd (h : Heap) (prevEnd tail : Nat) :
    (h.addGrowth prevEnd tail).heapCommittedEnd = h.heapCommittedEnd := by
  unfold Heap.addGrowth
  repeat' split
  all_goals rfl

/-- A round of `kmalloc` with a free block that fits. -/
theorem Heap.Represents.kmallocLoop_fits (hRep : h.Represents start blocks)
    (hAligned : alignedSize % 16 = 0) (hFits : ∃ b ∈ blocks, b.used = false ∧ alignedSize ≤ b.size)
    (outcome : Nat → Nat → PageOutcome) (fuel attempt : Nat) :
    ∃ pointer h' blocks', kmallocLoop alignedSize outcome (fuel + 1) attempt h =
      some (pointer, h') ∧ h'.Represents start blocks' ∧ h.heapCommittedEnd ≤ h'.heapCommittedEnd ∧
      Allocates alignedSize pointer (payloads start blocks) (payloads start blocks') := by
  unfold kmallocLoop
  rw [hRep.head]
  rcases Heap.search_spec alignedSize hRep.start_pos hRep.chain hRep.fuel with
    ⟨before, b, after, rfl, hFree, hRoom, hFound⟩ | ⟨hNone, _⟩
  · obtain ⟨blocks', hClaim, hPayloads⟩ := hRep.kmalloc_found hFree hRoom hAligned
    have hBounds := h.sameBounds_claim (start + total Block.extent before) alignedSize
    rw [hFound]
    exact ⟨_, _, blocks', rfl, hClaim, by rw [hBounds], hPayloads⟩
  · obtain ⟨b, hMem, hFree, hRoom⟩ := hFits
    exact absurd (hNone b hMem hFree) (by omega)

/-- The outer loop of `kmalloc` ends in its second round at the latest: a growth
that succeeds leaves a free block that is large enough. -/
theorem Heap.Represents.kmallocLoop (hRep : h.Represents start blocks)
    (hAligned : alignedSize % 16 = 0)
    (hSize : kernelHeapMax + (heapHeader + alignedSize) + pmmPageSize ≤ 2 ^ 64)
    (outcome : Nat → Nat → PageOutcome) (fuel attempt : Nat) :
    ∃ pointer h' blocks', kmallocLoop alignedSize outcome (fuel + 2) attempt h =
      some (pointer, h') ∧ h'.Represents start blocks' ∧ h.heapCommittedEnd ≤ h'.heapCommittedEnd ∧
      Allocates alignedSize pointer (payloads start blocks) (payloads start blocks') := by
  rcases Heap.search_spec alignedSize hRep.start_pos hRep.chain hRep.fuel with
    ⟨before, b, after, rfl, hFree, hRoom, _⟩ | ⟨_, hMissing⟩
  · exact hRep.kmallocLoop_fits hAligned ⟨b, by simp, hFree, hRoom⟩ outcome (fuel + 1) attempt
  · unfold Memory.kmallocLoop
    rw [hRep.head, hMissing]
    obtain ⟨grown, hGrown, hHeap, hLimit, hEnough⟩ := hRep.expand hSize (outcome attempt)
    obtain ⟨blocks', hRep', hPayloads, hRoom⟩ := hRep.addGrowth hGrown hLimit
    have hMore : h.heapCommittedEnd ≤ ((h.commit grown).addGrowth h.heapCommittedEnd
        (lastOf 0 start blocks)).heapCommittedEnd := by
      rw [Heap.addGrowth_committedEnd]
      exact Nat.le_add_right _ _
    dsimp only
    generalize expandHeap h (heapHeader + alignedSize) (outcome attempt) = result at hHeap hEnough
    obtain ⟨expanded, grownHeap⟩ := result
    dsimp only at hHeap hEnough ⊢
    subst hHeap
    cases expanded with
    | false => exact ⟨0, _, blocks', rfl, hRep', hMore, Or.inl ⟨rfl, hPayloads⟩⟩
    | true =>
      have hBytes := hEnough rfl
      simp only [heapHeader] at hBytes hRoom
      obtain ⟨b, hMem, hFree, hFits⟩ := hRoom (by omega)
      obtain ⟨pointer, h', blocks'', hLoop, hRep'', hLater, hAllocates⟩ := hRep'.kmallocLoop_fits
        hAligned ⟨b, hMem, hFree, by omega⟩ outcome fuel (attempt + 1)
      rw [hPayloads] at hAllocates
      exact ⟨pointer, h', blocks'', hLoop, hRep'', hMore.trans hLater, hAllocates⟩

end Invariant

end Kryos.Memory
