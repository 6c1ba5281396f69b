import Kryos.Memory.HeapRun

/-! The sizes that `kmalloc` is right for. Rounding the size, adding the header, rounding
to pages and adding the result to the end of the heap can each wrap around, and each does
so for other sizes. -/
namespace Kryos.Memory

open Word Layout

/-- What `kmalloc` owes its caller: it returns, the heap stays within its reserved region,
and a pointer that is not null has at least `size` bytes in the committed heap. -/
def Served (size : Nat) : Option (Nat × Heap) → Prop
  | none => False
  | some (pointer, h) => h.heapCommittedEnd ≤ h.heapReservedEnd ∧
      (pointer = 0 ∨ h.heapStart + heapHeader ≤ pointer ∧ size ≤ h.size (pointer - heapHeader) ∧
        pointer + h.size (pointer - heapHeader) ≤ h.heapCommittedEnd)

/-- The size is served by every heap that is in order, whatever pages can be committed. -/
def AlwaysServed (size : Nat) : Prop :=
  ∀ (h : Heap) (start : Nat) (blocks : List Block), h.Represents start blocks →
    ∀ outcome, Served size (kmalloc h size outcome)

section Served

variable {h : Heap} {start size : Nat} {blocks : List Block}

theorem served_of_limit (hRep : h.Represents start blocks) (hSize : size ≤ kmallocLimit)
    (outcome : Nat → Nat → PageOutcome) : Served size (kmalloc h size outcome) := by
  obtain ⟨pointer, h', blocks', hCall, hRep', _, _, hAllocates⟩ := hRep.kmalloc hSize outcome
  rw [hCall]
  refine ⟨hRep'.reserved, ?_⟩
  rcases hAllocates with ⟨hNull, _⟩ | ⟨_, capacity, first, second, hCapacity, _, hNew⟩
  · exact .inl hNull
  · obtain ⟨x, rfl, hx⟩ :=
      mem_payloads.mp (show (pointer, capacity) ∈ payloads start blocks' by simp [hNew])
    have hBounds := placed_bounds Block.extent hx
    obtain ⟨before, after, rfl, rfl⟩ := placed_split Block.extent hx
    have hField : h'.size (start + total Block.extent before) = capacity := hRep'.chain.middle.2.1
    rw [Nat.add_sub_cancel, hField, hRep'.start_eq, hRep'.committed]
    simp only [Block.extent] at hBounds ⊢
    omega

/-- No block is as large as a size within 32 bytes of the top, and the extent of such a
size is that of a small one. So every round grows the heap by a page, until it cannot. -/
theorem kmallocLoop_top (hRep : h.Represents start blocks) {alignedSize bytes : Nat}
    (hLarge : kernelHeapMax < alignedSize) (hBytes : heapHeader + alignedSize = 2 ^ 64 + bytes)
    (hPos : 0 < bytes) (hSmall : bytes ≤ 32) (outcome : Nat → Nat → PageOutcome) {fuel : Nat}
    (hFuel : kernelHeapMax - h.heapCommittedEnd < fuel) (attempt : Nat) :
    ∃ h' blocks', kmallocLoop alignedSize outcome fuel attempt h = some (0, h') ∧
      h'.Represents start blocks' := by
  induction fuel generalizing h blocks attempt with
  | zero => omega
  | succ fuel ih =>
    rw [kmallocLoop, hRep.head]
    rcases Heap.search_spec alignedSize hRep.start_pos hRep.chain hRep.fuel with
      ⟨before, b, after, rfl, _, hRoom, _⟩ | ⟨_, hMissing⟩
    · have hRange := hRep.range
      simp only [total_append, total_cons, Block.extent] at hRange
      omega
    rw [hMissing]
    have hExpand : expandHeap h (heapHeader + alignedSize) (outcome attempt) =
        expandHeap h bytes (outcome attempt) := by
      have hAlign : alignUp (2 ^ 64 + bytes) pmmPageSize = alignUp bytes pmmPageSize := by
        rw [alignUp, alignUp, pmmPageSize, Nat.add_assoc, Nat.add_sub_assoc (by omega), u64,
          Nat.add_mod_left, u64, Nat.add_sub_assoc (by omega)]
      rw [hBytes, expandHeap, expandHeap, hAlign]
    obtain ⟨grown, hGrown, hHeap, hLimit, hEnough⟩ := hRep.expand
      (show kernelHeapMax + bytes + pmmPageSize ≤ 2 ^ 64 by
        simp only [kernelHeapMax, pmmPageSize]
        omega) (outcome attempt)
    obtain ⟨blocks', hRep', _⟩ := hRep.addGrowth hGrown hLimit
    simp only [hExpand]
    generalize expandHeap h bytes (outcome attempt) = result at hHeap hEnough
    obtain ⟨expanded, grownHeap⟩ := result
    subst hHeap
    cases expanded with
    | false => exact ⟨_, blocks', rfl, hRep'⟩
    | true =>
      have hMore := hEnough rfl
      have hMax := hRep.limit
      refine ih hRep' ?_ (attempt + 1)
      rw [Heap.addGrowth_committedEnd]
      change kernelHeapMax - (h.heapCommittedEnd + grown) < fuel
      omega

theorem served_of_top (hRep : h.Represents start blocks) (hLo : 2 ^ 64 - 48 < size)
    (hHi : size ≤ 2 ^ 64 - 16) (outcome : Nat → Nat → PageOutcome) :
    Served size (kmalloc h size outcome) := by
  have hUp : alignUp size 16 = (size + 15) / 16 * 16 := by
    have hAlign := alignUp_eq size (by decide : 4 ≤ 64)
    rwa [u64_of_lt (by omega)] at hAlign
  have hLarge : kernelHeapMax < alignUp size 16 := by
    simp only [kernelHeapMax]
    omega
  have hBytes :
      heapHeader + alignUp size 16 = 2 ^ 64 + (heapHeader + alignUp size 16 - 2 ^ 64) := by
    simp only [heapHeader]
    omega
  have hFuel : kernelHeapMax - h.heapCommittedEnd < heapFuel := by
    simp only [kernelHeapMax, heapFuel]
    omega
  obtain ⟨h', blocks', hLoop, hRep'⟩ := kmallocLoop_top hRep hLarge hBytes
    (by simp only [heapHeader]; omega) (by simp only [heapHeader]; omega) outcome hFuel 0
  rw [kmalloc, if_neg (by simp; omega), hLoop]
  exact ⟨hRep'.reserved, .inl rfl⟩

end Served

section Unserved

variable {size : Nat}

/-- A value less than the alignment below the top is rounded to 0. -/
theorem alignUp_top {value k : Nat} (hk : k ≤ 64) (hLo : 2 ^ 64 < value + 2 ^ k)
    (hHi : value ≤ 2 ^ 64) : alignUp value (2 ^ k) = 0 := by
  have hPow : 2 ^ k ≤ 2 ^ 64 := Nat.pow_le_pow_right (by decide) hk
  have hWrap : u64 (value + 2 ^ k - 1) = value + 2 ^ k - 1 - 2 ^ 64 := by
    rw [u64, Nat.mod_eq_sub_mod (by omega), Nat.mod_eq_of_lt (by omega)]
  rw [alignUp_eq value hk, hWrap, Nat.div_eq_of_lt (by omega), Nat.zero_mul]

/-- A heap of one block. -/
def oneBlockHeap (b : Block) : Heap where
  mem := fun a =>
    if a = kernelHeapBase then heapMagic
    else if a = kernelHeapBase + 8 then b.size
    else if a = kernelHeapBase + 16 then b.stateWord
    else 0
  heapStart := kernelHeapBase
  heapCommittedEnd := kernelHeapBase + b.extent
  heapReservedEnd := kernelHeapMax
  head := kernelHeapBase

theorem oneBlockHeap_represents {b : Block} (hAligned : b.size % 16 = 0)
    (hFits : kernelHeapBase + b.extent ≤ kernelHeapMax) :
    (oneBlockHeap b).Represents kernelHeapBase [b] where
  chain := by simp [Chain, oneBlockHeap, linkTo]
  head := rfl
  start_eq := rfl
  start_pos := by decide
  start_aligned := by decide
  committed := by simp [oneBlockHeap]
  reserved := hFits
  limit := rfl
  tidy := ⟨by simpa using hAligned, List.isChain_singleton _⟩

/-- A size at the very top is rounded to 0, and any free block will do for it. -/
theorem not_alwaysServed_of_zero (hLo : 2 ^ 64 - 16 < size) (hHi : size < 2 ^ 64) :
    ¬ AlwaysServed size := by
  intro hServed
  have hOne := hServed (oneBlockHeap ⟨16, false⟩) kernelHeapBase _
    (oneBlockHeap_represents rfl (by decide)) (fun _ _ => .noFrame)
  have hUp : alignUp size 16 = 0 := alignUp_top (by decide : 4 ≤ 64) (by omega) (by omega)
  have hRun : (kmallocLoop 0 (fun _ _ => .noFrame) heapFuel 0 (oneBlockHeap ⟨16, false⟩)).map
      (fun result => (result.1, result.2.size (result.1 - heapHeader))) =
      some (kernelHeapBase + heapHeader, 16) := by decide +kernel
  rw [kmalloc, if_neg (by simp; omega), hUp] at hOne
  obtain ⟨⟨pointer, h'⟩, hLoop, hResult⟩ := Option.map_eq_some_iff.mp hRun
  obtain ⟨rfl, hField⟩ := Prod.mk.inj hResult
  rw [hLoop] at hOne
  obtain ⟨_, hNull | ⟨_, hEnough, _⟩⟩ := hOne
  · cases hNull
  · dsimp only at hField
    omega

/-- An extent that is rounded to no page at all is never found and never grown for. -/
theorem kmallocLoop_stuck {alignedSize : Nat} {outcome : Nat → Nat → PageOutcome} {mem : Nat → Nat}
    (hPages : alignUp (heapHeader + alignedSize) pmmPageSize = 0) (fuel attempt : Nat) :
    kmallocLoop alignedSize outcome fuel attempt (kheapInit mem kernelHeapBase) = none := by
  induction fuel generalizing attempt with
  | zero => rfl
  | succ fuel ih =>
    have hSearch : (kheapInit mem kernelHeapBase).search alignedSize heapFuel
        (kheapInit mem kernelHeapBase).head 0 = some (.missing 0) := rfl
    have hExpand : expandHeap (kheapInit mem kernelHeapBase) (heapHeader + alignedSize)
        (outcome attempt) = (true, kheapInit mem kernelHeapBase) := by
      rw [expandHeap, hPages]
      rfl
    rw [kmallocLoop, hSearch]
    simp only [hExpand, Heap.addGrowth, lt_irrefl, if_false]
    exact ih (attempt + 1)

theorem not_alwaysServed_of_stuck (hLo : 2 ^ 64 - 4096 < heapHeader + alignUp size 16)
    (hHi : heapHeader + alignUp size 16 ≤ 2 ^ 64) (hSome : size ≠ 0) : ¬ AlwaysServed size := by
  intro hServed
  have hOne := hServed (kheapInit (fun _ => 0) kernelHeapBase) kernelHeapBase []
    (HeapInvariant.init (by decide) (by decide) (by decide)).represents (fun _ _ => .noFrame)
  have hPages : alignUp (heapHeader + alignUp size 16) pmmPageSize = 0 := by
    rw [show pmmPageSize = 2 ^ 12 from rfl]
    exact alignUp_top (by decide) (by omega) hHi
  rw [kmalloc, if_neg (by simpa using hSome), kmallocLoop_stuck hPages] at hOne
  exact hOne

/-- A heap without a byte to spare. -/
def fullHeap : Heap := oneBlockHeap ⟨kernelHeapMax - kernelHeapBase - heapHeader, true⟩

theorem Heap.addGrowth_reservedEnd (h : Heap) (prevEnd tail : Nat) :
    (h.addGrowth prevEnd tail).heapReservedEnd = h.heapReservedEnd := by
  unfold Heap.addGrowth
  repeat' split
  all_goals rfl

/-- An extent that wraps around behind the end of a full heap passes the check, and the
heap grows past its reserved region. -/
theorem not_alwaysServed_of_wrap
    (hLo : 2 ^ 64 < kernelHeapMax + (heapHeader + alignUp size 16) + pmmPageSize)
    (hHi : heapHeader + alignUp size 16 ≤ 2 ^ 64 - 4096) (hSome : size ≠ 0) :
    ¬ AlwaysServed size := by
  intro hServed
  have hOne := hServed fullHeap kernelHeapBase _
    (oneBlockHeap_represents (by decide) (by decide))
    (fun _ i => if i = 0 then .mapped else .noFrame)
  have hSearch : fullHeap.search (alignUp size 16)
      heapFuel fullHeap.head 0 = some (.missing kernelHeapBase) := rfl
  obtain ⟨pages, hPages, hEnd, hFew⟩ : ∃ pages,
      alignUp (heapHeader + alignUp size 16) pmmPageSize / pmmPageSize = pages + 2 ∧
      2 ^ 64 ≤ kernelHeapMax + (pages + 2) * pmmPageSize ∧ (pages + 2) * pmmPageSize < 2 ^ 64 := by
    have hAlign := alignUp_eq (heapHeader + alignUp size 16) (by decide : 12 ≤ 64)
    rw [u64_of_lt (by omega)] at hAlign
    rw [show pmmPageSize = 2 ^ 12 from rfl] at hLo ⊢
    simp only [kernelHeapMax] at hLo ⊢
    exact ⟨(heapHeader + alignUp size 16 + 2 ^ 12 - 1) / 2 ^ 12 - 2, by omega⟩
  have hExpand : expandHeap fullHeap
      (heapHeader + alignUp size 16) (fun i => if i = 0 then .mapped else .noFrame) =
      (false, { fullHeap with
        heapCommittedEnd := kernelHeapMax + pmmPageSize }) := by
    have hPasses : ¬ u64 (kernelHeapMax + u64 ((pages + 2) * pmmPageSize)) > kernelHeapMax := by
      rw [u64_of_lt hFew, u64]
      omega
    rw [expandHeap, hPages]
    exact if_neg hPasses
  rw [kmalloc, if_neg (by simpa using hSome), show heapFuel = 2 ^ 64 - 1 + 1 from rfl, kmallocLoop,
    hSearch] at hOne
  simp only [hExpand, Bool.not_false, if_true, Served, Heap.addGrowth_committedEnd,
    Heap.addGrowth_reservedEnd] at hOne
  exact absurd hOne.1 (by decide)

end Unserved

/-- `kmalloc` is right for a size in every heap exactly if the size is at most
`kmallocLimit`, or so large that its extent is that of a small size. -/
theorem kmalloc_alwaysServed_iff {size : Nat} (hSize : size < 2 ^ 64) :
    AlwaysServed size ↔ size ≤ kmallocLimit ∨ 2 ^ 64 - 48 < size ∧ size ≤ 2 ^ 64 - 16 := by
  constructor
  · intro hServed
    by_contra hNot
    rw [not_or, not_and_or, not_le, not_lt, not_le] at hNot
    obtain ⟨hLimit, hRange⟩ := hNot
    rcases Nat.lt_or_ge (2 ^ 64 - 16) size with hTop | hBelow
    · exact not_alwaysServed_of_zero hTop hSize hServed
    · have hUp : alignUp size 16 = (size + 15) / 16 * 16 := by
        have hAlign := alignUp_eq size (by decide : 4 ≤ 64)
        rwa [u64_of_lt (by omega)] at hAlign
      simp only [kmallocLimit, kernelHeapMax, pmmPageSize, heapHeader] at hLimit
      rcases Nat.lt_or_ge (2 ^ 64 - 4096) (heapHeader + alignUp size 16) with hStuck | hWrap
      · exact not_alwaysServed_of_stuck hStuck (by simp only [heapHeader]; omega) (by omega) hServed
      · refine not_alwaysServed_of_wrap ?_ hWrap (by omega) hServed
        simp only [kernelHeapMax, pmmPageSize, heapHeader]
        omega
  · rintro (hLimit | ⟨hLo, hHi⟩) h start blocks hRep outcome
    · exact served_of_limit hRep hLimit outcome
    · exact served_of_top hRep hLo hHi outcome

theorem kmalloc_alwaysServed_4096 : AlwaysServed 4096 :=
  (kmalloc_alwaysServed_iff (by decide)).mpr (.inl (by decide))

/-- The largest size is taken for one of no bytes, a size of less than a page from the top
is never given up on, and one of 64 TiB lets the heap grow past its end. -/
theorem kmalloc_not_alwaysServed :
    ¬ AlwaysServed (2 ^ 64 - 1) ∧ ¬ AlwaysServed (2 ^ 64 - 4096) ∧ ¬ AlwaysServed (2 ^ 46) :=
  ⟨not_alwaysServed_of_zero (by decide) (by decide),
    not_alwaysServed_of_stuck (by decide) (by decide) (by decide),
    not_alwaysServed_of_wrap (by decide) (by decide) (by decide)⟩

end Kryos.Memory
