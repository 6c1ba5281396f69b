import Kryos.Memory.HeapInvariant

/-! Runs of the kernel heap. Clients allocate, free what they hold and write inside
their payloads; pages fail to be committed in any pattern. -/
namespace Kryos.Memory

open Function Layout Word

variable {pointer size p : Nat}

section Verify

variable {h : Heap} {start : Nat} {blocks before after : List Block} {b : Block}

theorem Heap.Represents.verifyBlock (hRep : h.Represents start (before ++ b :: after)) :
    h.verifyBlock (start + total Block.extent before) = true := by
  have hPos := hRep.start_pos
  have hRange := hRep.range
  obtain ⟨_, hSize, hState, hNext, hPrev⟩ := hRep.chain.middle
  obtain ⟨hTidyBefore, hTidy, _⟩ := tidy_append.mp hRep.tidy
  obtain ⟨hSizeAligned, _, hHead⟩ := tidy_cons.mp hTidy
  have hBefore := hTidyBefore.extents_aligned
  have hStart := hRep.start_aligned
  have hEnd := hRep.committed
  simp only [total_append, total_cons, ← Nat.add_assoc, kernelHeapMax] at hRange hEnd
  have hExtent : u64 (heapHeader + b.size) = b.extent := u64_of_lt (by
    simp only [Block.extent] at hRange
    omega)
  have hAfter : u64 (start + total Block.extent before + b.extent) =
      start + total Block.extent before + b.extent := u64_of_lt (by omega)
  unfold Heap.verifyBlock
  simp only [Heap.size, hSize, hExtent, hAfter, Bool.and_eq_true, decide_eq_true_eq, beq_iff_eq]
  refine ⟨⟨⟨⟨⟨⟨⟨⟨?_, ?_⟩, ?_⟩, ?_⟩, hSizeAligned⟩, ?_⟩, ?_⟩, ?_⟩, ?_⟩
  · rw [hRep.start_eq]
    omega
  · rw [hEnd]
    simp only [Block.extent, heapHeader]
    omega
  · omega
  · rw [u64_of_lt (by simp only [Block.extent] at hRange; omega)]
    simp only [heapHeader]
    omega
  · simp only [Block.extent, heapHeader]
    omega
  · rw [Heap.next, hNext]
    cases after with
    | nil => simp [linkTo, hEnd]
    | cons c rest =>
      have hBack := hRep.chain.back (by simp)
      simp [Heap.prev, hBack, hPos.ne']
  · rw [Heap.prev, hPrev]
    rcases lastOf_cases 0 start before with ⟨rfl, hLast⟩ | ⟨front, p, rfl, hLast⟩
    · simp [hLast, hRep.head]
    · rw [show front ++ [p] ++ b :: after = front ++ p :: b :: after by simp] at hRep
      have hForward := hRep.chain.middle.2.2.2.1
      have hNonzero : (start + total Block.extent front != 0) = true := by simp; omega
      rw [hLast, if_pos hNonzero, Heap.next, hForward]
      simp [Nat.add_assoc]
  · rw [Heap.next, hNext, Heap.state, hState]
    cases after with
    | nil => simp [linkTo]
    | cons c rest =>
      have hFree : b.stateWord = heapFree ↔ b.used = false := by
        rw [← beq_iff_eq, Block.stateWord_free, Bool.not_eq_true']
      rw [show before ++ b :: c :: rest = (before ++ [b]) ++ c :: rest by simp] at hRep
      have hStateC := hRep.chain.middle.2.2.1
      simp only [total_append, total_cons, total_nil, Nat.add_zero, ← Nat.add_assoc] at hStateC
      have hOne := hHead c (by simp)
      simp only [linkTo_cons, Heap.state, hStateC, Block.stateWord_used, hFree]
      split
      · rename_i hBoth
        simpa [hBoth.1] using hOne
      · rfl

theorem Heap.Represents.verifyLoop {fuel : Nat} (hRep : h.Represents start (before ++ after))
    (hFuel : after.length < fuel) :
    h.verifyLoop fuel (linkTo 0 (start + total Block.extent before) after)
      (total Block.extent before) = some true := by
  have hPos := hRep.start_pos
  have hRange := hRep.range
  simp only [kernelHeapMax, total_append] at hRange
  induction after generalizing before fuel with
  | nil =>
    obtain ⟨fuel, rfl⟩ := Nat.exists_eq_succ_of_ne_zero (Nat.ne_of_gt hFuel)
    have hEnd := hRep.committed
    simp only [List.append_nil] at hEnd
    simp only [Heap.verifyLoop, linkTo, beq_self_eq_true, if_true]
    rw [hEnd, hRep.start_eq, sub64_of_le (by omega) (by omega),
      Nat.add_sub_cancel_left, beq_self_eq_true]
  | cons b rest ih =>
    obtain ⟨fuel, rfl⟩ := Nat.exists_eq_succ_of_ne_zero (Nat.ne_of_gt (Nat.zero_lt_of_lt hFuel))
    obtain ⟨_, hSize, _, hNext, _⟩ := hRep.chain.middle
    have hNonzero : (start + total Block.extent before == 0) = false := by simp; omega
    simp only [total_cons, Block.extent] at hRange
    have hExtent : u64 (total Block.extent before + u64 (heapHeader + b.size)) =
        total Block.extent (before ++ [b]) := by
      rw [show u64 (heapHeader + b.size) = heapHeader + b.size from u64_of_lt (by omega),
        u64_of_lt (by omega)]
      simp [Block.extent]
    simp only [linkTo_cons, Heap.verifyLoop, hNonzero, hRep.verifyBlock, Bool.not_true,
      Bool.false_eq_true, if_false, Heap.next, hNext, Heap.size, hSize, hExtent]
    rw [show start + total Block.extent before + b.extent =
      start + total Block.extent (before ++ [b]) by simp [Nat.add_assoc]]
    apply ih (by simpa using hRep) (Nat.lt_of_succ_lt_succ hFuel)
    simp only [total_append, total_cons, total_nil, Block.extent]
    omega

/-- Every assertion of `kheap_verify` holds. -/
theorem Heap.Represents.verify (hRep : h.Represents start blocks) : kheapVerify h = some true := by
  unfold kheapVerify
  split
  · rfl
  · rw [hRep.head]
    exact @Heap.Represents.verifyLoop h start [] blocks _ hRep hRep.fuel

/-- No assertion of `kfree` fires for a pointer in use, and it removes that payload. -/
theorem Heap.Represents.kfree {capacity : Nat} (hRep : h.Represents start blocks)
    (hPointer : (pointer, capacity) ∈ payloads start blocks) (hCapacity : 0 < capacity) :
    ∃ h' blocks', kfree h pointer = .ok h' ∧ h'.Represents start blocks' ∧
      h'.heapCommittedEnd = h.heapCommittedEnd ∧
      ∀ q size, (q, size) ∈ payloads start blocks' ↔
        (q, size) ∈ payloads start blocks ∧ q ≠ pointer := by
  have hPos := hRep.start_pos
  have hRange := hRep.range
  obtain ⟨x, rfl, hx⟩ := mem_payloads.mp hPointer
  obtain ⟨before, after, rfl, rfl⟩ := placed_split Block.extent hx
  obtain ⟨blocks', hRelease, hPayloads⟩ := hRep.release
  have hBounds := h.sameBounds_release (start + total Block.extent before)
  obtain ⟨hMagic, _, hState, _⟩ := hRep.chain.middle
  have hAligned := (tidy_append.mp hRep.tidy).1.extents_aligned
  have hStart := hRep.start_aligned
  refine ⟨h.release (start + total Block.extent before), blocks', ?_, hRelease, by rw [hBounds], ?_⟩
  · have hEnd := hRep.committed
    simp only [total_append, total_cons, Block.extent, kernelHeapMax] at hRange hEnd
    have hNonzero : (start + total Block.extent before + heapHeader == 0) = false := by simp; omega
    have hInside : (decide (start + total Block.extent before + heapHeader ≥
        u64 (h.heapStart + heapHeader)) &&
        decide (start + total Block.extent before + heapHeader < h.heapCommittedEnd)) = true := by
      rw [hRep.start_eq, u64_of_lt (by omega), hEnd]
      simp only [Bool.and_eq_true, decide_eq_true_eq]
      omega
    have hSixteen : ((start + total Block.extent before + heapHeader) % 16 != 0) = false := by
      simp only [bne_eq_false_iff_eq, heapHeader]
      omega
    have hBlock : sub64 (start + total Block.extent before + heapHeader) heapHeader =
        start + total Block.extent before := by
      rw [sub64_of_le (by omega) (by omega), Nat.add_sub_cancel]
    unfold Memory.kfree
    simp only [hNonzero, hInside, hSixteen, hBlock, Heap.magic, hMagic, Heap.state, hState,
      Bool.false_eq_true, if_false, Bool.not_true, bne_self_eq_false, Block.stateWord, if_true]
  · intro q size
    rw [hPayloads, payloads_append, payloads_used _ rfl]
    have hBefore : (q, size) ∈ payloads start before →
        q ≠ start + total Block.extent before + heapHeader := by
      intro hq
      obtain ⟨y, rfl, hy⟩ := mem_payloads.mp hq
      have hBounds := placed_bounds Block.extent hy
      simp only [Block.extent, heapHeader] at hBounds ⊢
      omega
    have hAfter : (q, size) ∈ payloads (start + total Block.extent before +
        (⟨capacity, true⟩ : Block).extent) after →
          q ≠ start + total Block.extent before + heapHeader := by
      intro hq
      obtain ⟨y, rfl, hy⟩ := mem_payloads.mp hq
      have hBounds := placed_bounds Block.extent hy
      simp only [Block.extent, heapHeader] at hBounds ⊢
      omega
    simp only [List.mem_append, List.mem_cons, Prod.mk.injEq]
    tauto

end Verify

/-! ### Runs -/

/-- A run of the heap from `kheap_init`. The map gives the size that was asked for each
pointer a client holds; the counter is the number of pointers handed out. -/
inductive HeapRun (mem : Nat → Nat) (base : Nat) : Heap → (Nat → Option Nat) → Nat → Prop
  | init : HeapRun mem base (kheapInit mem base) (fun _ => none) 0
  | refused {h h' : Heap} {live : Nat → Option Nat} {count size : Nat}
      {outcome : Nat → Nat → PageOutcome} (run : HeapRun mem base h live count)
      (hSize : size ≤ 2 ^ 32) (call : kmalloc h size outcome = some (0, h')) :
      HeapRun mem base h' live count
  | allocated {h h' : Heap} {live : Nat → Option Nat} {count size pointer : Nat}
      {outcome : Nat → Nat → PageOutcome} (run : HeapRun mem base h live count)
      (hSize : size ≤ 2 ^ 32) (hPointer : pointer ≠ 0)
      (call : kmalloc h size outcome = some (pointer, h')) :
      HeapRun mem base h' (update live pointer (some size)) (count + 1)
  | freed {h h' : Heap} {live : Nat → Option Nat} {count size pointer : Nat}
      (run : HeapRun mem base h live count) (hLive : live pointer = some size)
      (call : kfree h pointer = .ok h') :
      HeapRun mem base h' (update live pointer none) count
  /-- Clients store inside their payloads. -/
  | written {h : Heap} {live : Nat → Option Nat} {count : Nat} {mem' : Nat → Nat}
      (run : HeapRun mem base h live count)
      (hInside : ∀ y, (∀ p size, live p = some size → y < p ∨ p + size ≤ y) → mem' y = h.mem y) :
      HeapRun mem base { h with mem := mem' } live count

/-- The blocks in use are the pointers that clients hold. -/
structure HeapInvariant (base : Nat) (h : Heap) (live : Nat → Option Nat) (count : Nat)
    (blocks : List Block) : Prop where
  represents : h.Represents base blocks
  held : ∀ p size, live p = some size →
    0 < size ∧ ∃ capacity, size ≤ capacity ∧ (p, capacity) ∈ payloads base blocks
  live_of_used : ∀ p capacity, (p, capacity) ∈ payloads base blocks → ∃ size, live p = some size
  committed : 0 < count → base < h.heapCommittedEnd

section Run

variable {mem : Nat → Nat} {base : Nat} {h : Heap} {live : Nat → Option Nat} {count : Nat}
  {blocks : List Block}

/-- The largest size whose extent in whole pages can be added to any end of the heap
without a wrap. -/
def kmallocLimit : Nat := 2 ^ 64 - kernelHeapMax - pmmPageSize - heapHeader

/-- `kmalloc` ends, and adds one payload if it returns a pointer. -/
theorem Heap.Represents.kmalloc (hRep : h.Represents base blocks) (hSize : size ≤ kmallocLimit)
    (outcome : Nat → Nat → PageOutcome) :
    ∃ pointer h' blocks', kmalloc h size outcome = some (pointer, h') ∧ h'.Represents base blocks' ∧
      h.heapCommittedEnd ≤ h'.heapCommittedEnd ∧ (pointer ≠ 0 → 0 < size) ∧
      Allocates size pointer (payloads base blocks) (payloads base blocks') := by
  unfold Memory.kmalloc
  by_cases hZero : size = 0
  · exact ⟨0, h, blocks, by simp [hZero], hRep, le_rfl, by simp, Or.inl ⟨rfl, rfl⟩⟩
  · simp only [kmallocLimit, kernelHeapMax, pmmPageSize, heapHeader] at hSize
    have hUp : alignUp size 16 = (size + 15) / 16 * 16 := by
      have hAlign := alignUp_eq size (by decide : 4 ≤ 64)
      rwa [u64_of_lt (by omega)] at hAlign
    obtain ⟨pointer, h', blocks', hLoop, hRep', hMore, hAllocates⟩ := hRep.kmallocLoop
      (by omega : alignUp size 16 % 16 = 0)
      (by simp only [kernelHeapMax, heapHeader, pmmPageSize]; omega) outcome (2 ^ 64 - 2) 0
    refine ⟨pointer, h', blocks', ?_, hRep', hMore, fun _ => by omega, ?_⟩
    · rw [if_neg (by simpa using hZero)]
      exact hLoop
    · rcases hAllocates with hNone | ⟨hPointer, capacity, first, second, hCapacity, hOld, hNew⟩
      · exact Or.inl hNone
      · exact Or.inr ⟨hPointer, capacity, first, second, by omega, hOld, hNew⟩

theorem HeapInvariant.init (hPos : 0 < base) (hAligned : base % 16 = 0)
    (hBase : base ≤ kernelHeapMax) :
    HeapInvariant base (kheapInit mem base) (fun _ => none) 0 [] where
  represents := ⟨trivial, rfl, rfl, hPos, hAligned, rfl, hBase, rfl, by simp [Tidy]⟩
  held := by simp
  live_of_used := by simp
  committed := by simp

theorem HeapInvariant.kmalloc (hInv : HeapInvariant base h live count blocks) {h' : Heap}
    {outcome : Nat → Nat → PageOutcome} (hSize : size ≤ 2 ^ 32)
    (hCall : kmalloc h size outcome = some (pointer, h')) :
    (pointer = 0 → ∃ blocks', HeapInvariant base h' live count blocks') ∧
    (pointer ≠ 0 → ∃ blocks',
      HeapInvariant base h' (update live pointer (some size)) (count + 1) blocks') := by
  obtain ⟨pointer', h'', blocks', hCall', hRep, hMore, hNonempty, hAllocates⟩ :=
    hInv.represents.kmalloc (hSize.trans (by decide)) outcome
  rw [hCall] at hCall'
  cases hCall'
  rcases hAllocates with ⟨rfl, hSame⟩ | ⟨hPointer, capacity, first, second, hCapacity, hOld, hNew⟩
  · refine ⟨fun _ => ⟨blocks', hRep, ?_, ?_, fun hCount => ?_⟩, fun hNe => absurd rfl hNe⟩
    · rw [hSame]
      exact hInv.held
    · rw [hSame]
      exact hInv.live_of_used
    · exact lt_of_lt_of_le (hInv.committed hCount) hMore
  · refine ⟨fun hZero => absurd hZero hPointer, fun _ => ⟨blocks', hRep, ?_, ?_, fun _ => ?_⟩⟩
    · intro q s hq
      by_cases hEq : q = pointer
      · subst hEq
        cases (update_self (f := live) q (some size)).symm.trans hq
        exact ⟨hNonempty hPointer, capacity, hCapacity, by simp [hNew]⟩
      · rw [update_of_ne hEq] at hq
        obtain ⟨hPos, room, hRoom, hMem⟩ := hInv.held q s hq
        refine ⟨hPos, room, hRoom, ?_⟩
        rw [hOld, List.mem_append] at hMem
        rw [hNew, List.mem_append, List.mem_cons]
        tauto
    · intro q room hMem
      by_cases hEq : q = pointer
      · exact ⟨size, by rw [hEq, update_self]⟩
      · rw [update_of_ne hEq]
        apply hInv.live_of_used q room
        rw [hNew, List.mem_append, List.mem_cons] at hMem
        rw [hOld, List.mem_append]
        rcases hMem with hMem | hMem | hMem
        · exact Or.inl hMem
        · exact absurd (congrArg Prod.fst hMem) hEq
        · exact Or.inr hMem
    · rw [hRep.committed]
      cases blocks' with
      | nil => simp at hNew
      | cons c rest =>
        simp only [total_cons, Block.extent, heapHeader]
        omega

theorem HeapInvariant.kfree_ok (hInv : HeapInvariant base h live count blocks)
    (hLive : live pointer = some size) :
    ∃ h' blocks', kfree h pointer = .ok h' ∧
      HeapInvariant base h' (update live pointer none) count blocks' := by
  obtain ⟨hPos, capacity, hCapacity, hMem⟩ := hInv.held pointer size hLive
  obtain ⟨h', blocks', hCall, hRep, hEnd, hPayloads⟩ := hInv.represents.kfree hMem (by omega)
  refine ⟨h', blocks', hCall, hRep, ?_, ?_, ?_⟩
  · intro q s hq
    by_cases hEq : q = pointer
    · rw [hEq, update_self] at hq
      cases hq
    · rw [update_of_ne hEq] at hq
      obtain ⟨hPos, room, hRoom, hMem⟩ := hInv.held q s hq
      exact ⟨hPos, room, hRoom, (hPayloads q room).mpr ⟨hMem, hEq⟩⟩
  · intro q room hMem
    obtain ⟨hMem, hEq⟩ := (hPayloads q room).mp hMem
    rw [update_of_ne hEq]
    exact hInv.live_of_used q room hMem
  · rw [hEnd]
    exact hInv.committed

/-- Stores inside payloads reach no header. -/
theorem HeapInvariant.write (hInv : HeapInvariant base h live count blocks) {mem' : Nat → Nat}
    (hInside : ∀ y, (∀ p size, live p = some size → y < p ∨ p + size ≤ y) → mem' y = h.mem y) :
    HeapInvariant base { h with mem := mem' } live count blocks := by
  refine ⟨hInv.represents.update rfl ?_ rfl hInv.represents.tidy, hInv.held, hInv.live_of_used,
    hInv.committed⟩
  apply hInv.represents.chain.congr
  intro x b hx i hi
  apply hInside
  intro p size hLive
  obtain ⟨_, capacity, hCapacity, hMem⟩ := hInv.held p size hLive
  obtain ⟨y, rfl, hy⟩ := mem_payloads.mp hMem
  rcases placed_apart Block.extent hx hy with ⟨rfl, _⟩ | hLeft | hRight
  · omega
  · omega
  · simp only [Block.extent] at hRight
    omega

/-- The invariant holds along every run. -/
theorem HeapRun.invariant (hPos : 0 < base) (hAligned : base % 16 = 0)
    (hBase : base ≤ kernelHeapMax)
    (run : HeapRun mem base h live count) : ∃ blocks, HeapInvariant base h live count blocks := by
  induction run with
  | init => exact ⟨[], HeapInvariant.init hPos hAligned hBase⟩
  | refused _ hSize call ih =>
    obtain ⟨blocks, hInv⟩ := ih
    exact (hInv.kmalloc hSize call).1 rfl
  | allocated _ hSize hPointer call ih =>
    obtain ⟨blocks, hInv⟩ := ih
    exact (hInv.kmalloc hSize call).2 hPointer
  | freed _ hLive call ih =>
    obtain ⟨blocks, hInv⟩ := ih
    obtain ⟨h', blocks', hCall, hInv'⟩ := hInv.kfree_ok hLive
    rw [call] at hCall
    cases hCall
    exact ⟨blocks', hInv'⟩
  | written _ hInside ih =>
    obtain ⟨blocks, hInv⟩ := ih
    exact ⟨blocks, hInv.write hInside⟩

/-! ### What a run keeps -/

theorem payloads_sorted (a : Nat) (blocks : List Block) :
    (payloads a blocks).Pairwise (fun u v => u.1 < v.1) := by
  induction blocks generalizing a with
  | nil => exact List.Pairwise.nil
  | cons b rest ih =>
    cases hUsed : b.used with
    | false =>
      rw [payloads_free a hUsed]
      exact ih _
    | true =>
      rw [payloads_used a hUsed]
      refine List.Pairwise.cons ?_ (ih _)
      rintro ⟨p, capacity⟩ hp
      obtain ⟨x, rfl, hx⟩ := mem_payloads.mp hp
      have hBounds := placed_bounds Block.extent hx
      simp only [Block.extent, heapHeader] at hBounds ⊢
      omega

theorem payloads_eq_nil {a : Nat} (h : payloads a blocks = []) : ∀ b ∈ blocks, b.used = false := by
  induction blocks generalizing a with
  | nil => simp
  | cons b rest ih =>
    cases hUsed : b.used with
    | true => simp [payloads, hUsed] at h
    | false =>
      rw [payloads_free a hUsed] at h
      simpa [hUsed] using ih h

theorem Tidy.eq_single (hTidy : Tidy blocks) (hFree : ∀ b ∈ blocks, b.used = false) :
    blocks = [] ∨ ∃ size, blocks = [⟨size, false⟩] := by
  cases blocks with
  | nil => exact Or.inl rfl
  | cons b rest =>
    cases rest with
    | nil =>
      obtain ⟨size, used⟩ := b
      exact Or.inr ⟨size, by simpa using hFree⟩
    | cons c rest =>
      have hUsed := (tidy_cons.mp hTidy).2.2 c (by simp)
      rw [hFree b (by simp), hFree c (by simp)] at hUsed
      simp at hUsed

/-- The state of the heap between two calls, with the sizes its clients asked for
and the number of pointers handed out so far. -/
structure HeapSafe (base : Nat) (h : Heap) (live : Nat → Option Nat) (count : Nat) : Prop where
  /-- Every assertion of `kheap_verify` holds. -/
  verified : kheapVerify h = some true
  /-- The list is a gap-free chain of aligned blocks without two adjacent free ones. -/
  chained : ∃ blocks, h.Represents base blocks
  /-- Live payloads are aligned, large enough and inside the committed heap. -/
  payload : ∀ p size, live p = some size → p % 16 = 0 ∧ size ≤ h.size (p - heapHeader) ∧
    base + heapHeader ≤ p ∧ p + h.size (p - heapHeader) ≤ h.heapCommittedEnd
  disjoint : ∀ p q, live p ≠ none → live q ≠ none → p ≠ q →
    p + h.size (p - heapHeader) ≤ q ∨ q + h.size (q - heapHeader) ≤ p
  /-- `kmalloc` ends, and returns no pointer that is live. -/
  allocates :
    ∀ size ≤ 2 ^ 32, ∀ outcome, ∃ pointer h', kmalloc h size outcome = some (pointer, h') ∧
    (pointer = 0 ∨ live pointer = none)
  /-- No assertion of `kfree` fires. -/
  frees : ∀ p size, live p = some size → ∃ h', kfree h p = .ok h'
  /-- Once everything is freed, one free block spans the committed heap. -/
  merged : (∀ p, live p = none) → 0 < count →
    ∃ size, base + heapHeader + size = h.heapCommittedEnd ∧ h.Represents base [⟨size, false⟩]

section

variable (hInv : HeapInvariant base h live count blocks)

include hInv

theorem HeapInvariant.capacity (hLive : live p = some size) :
    ∃ x, p = x + heapHeader ∧ size ≤ h.size x ∧
      (x, ⟨h.size x, true⟩) ∈ placed Block.extent base blocks := by
  obtain ⟨_, capacity, hCapacity, hMem⟩ := hInv.held p size hLive
  obtain ⟨x, rfl, hx⟩ := mem_payloads.mp hMem
  have hSize : h.size x = capacity := by
    obtain ⟨before, after, rfl, rfl⟩ := placed_split Block.extent hx
    exact hInv.represents.chain.middle.2.1
  exact ⟨x, rfl, by rw [hSize]; exact hCapacity, by rw [hSize]; exact hx⟩

theorem HeapInvariant.payload (hLive : live p = some size) :
    p % 16 = 0 ∧ size ≤ h.size (p - heapHeader) ∧
      base + heapHeader ≤ p ∧ p + h.size (p - heapHeader) ≤ h.heapCommittedEnd := by
  obtain ⟨x, rfl, hSize, hx⟩ := hInv.capacity hLive
  have hBounds := placed_bounds Block.extent hx
  obtain ⟨before, after, hBlocks, hAt⟩ := placed_split Block.extent hx
  have hTidy := hInv.represents.tidy
  have hStart := hInv.represents.start_aligned
  rw [hBlocks] at hTidy
  have hBefore := (tidy_append.mp hTidy).1.extents_aligned
  rw [Nat.add_sub_cancel, hInv.represents.committed]
  simp only [Block.extent] at hBounds
  refine ⟨?_, hSize, by omega, by omega⟩
  simp only [heapHeader]
  omega

theorem HeapInvariant.disjoint {q size' : Nat} (hp : live p = some size) (hq : live q = some size')
    (hNe : p ≠ q) : p + h.size (p - heapHeader) ≤ q ∨ q + h.size (q - heapHeader) ≤ p := by
  obtain ⟨x, rfl, _, hx⟩ := hInv.capacity hp
  obtain ⟨y, rfl, _, hy⟩ := hInv.capacity hq
  rw [Nat.add_sub_cancel, Nat.add_sub_cancel]
  rcases placed_apart Block.extent hx hy with ⟨rfl, _⟩ | hLeft | hRight
  · exact absurd rfl hNe
  · simp only [Block.extent] at hLeft
    omega
  · simp only [Block.extent] at hRight
    omega

theorem HeapInvariant.fresh {blocks' : List Block} (hPointer : pointer ≠ 0)
    (hAllocates : Allocates size pointer (payloads base blocks) (payloads base blocks')) :
    live pointer = none := by
  rcases hAllocates with ⟨hZero, _⟩ | ⟨_, capacity, first, second, _, hOld, hNew⟩
  · exact absurd hZero hPointer
  · by_contra hSome
    obtain ⟨asked, hLive⟩ := Option.ne_none_iff_exists'.mp hSome
    obtain ⟨_, room, _, hMem⟩ := hInv.held pointer asked hLive
    have hSorted := payloads_sorted base blocks'
    rw [hNew, List.pairwise_append, List.pairwise_cons] at hSorted
    rw [hOld, List.mem_append] at hMem
    rcases hMem with hMem | hMem
    · exact lt_irrefl pointer (hSorted.2.2 _ hMem (pointer, capacity) (List.mem_cons_self ..))
    · exact lt_irrefl pointer (hSorted.2.1.1 (pointer, room) hMem)

theorem HeapInvariant.merged (hNone : ∀ p, live p = none) (hCount : 0 < count) :
    ∃ size, base + heapHeader + size = h.heapCommittedEnd ∧ h.Represents base [⟨size, false⟩] := by
  have hNil : payloads base blocks = [] := by
    apply List.eq_nil_iff_forall_not_mem.mpr
    rintro ⟨p, capacity⟩ hMem
    obtain ⟨size, hLive⟩ := hInv.live_of_used p capacity hMem
    rw [hNone p] at hLive
    cases hLive
  have hRep := hInv.represents
  have hEnd := hRep.committed
  have hCommitted := hInv.committed hCount
  rcases hRep.tidy.eq_single (payloads_eq_nil hNil) with rfl | ⟨size, rfl⟩
  · simp only [total_nil] at hEnd
    omega
  · refine ⟨size, ?_, hRep⟩
    rw [hEnd]
    simp [Block.extent, Nat.add_assoc]

end

/-- In every run the heap is well formed after each call, allocation ends, no
assertion fires, and freeing everything leaves one block. -/
theorem heap_safe_along_runs (hPos : 0 < base) (hAligned : base % 16 = 0)
    (hBase : base ≤ kernelHeapMax)
    (run : HeapRun mem base h live count) : HeapSafe base h live count := by
  obtain ⟨blocks, hInv⟩ := run.invariant hPos hAligned hBase
  refine ⟨hInv.represents.verify, ⟨blocks, hInv.represents⟩, fun p size => hInv.payload, ?_, ?_, ?_,
    hInv.merged⟩
  · intro p q hp hq hNe
    obtain ⟨size, hp⟩ := Option.ne_none_iff_exists'.mp hp
    obtain ⟨size', hq⟩ := Option.ne_none_iff_exists'.mp hq
    exact hInv.disjoint hp hq hNe
  · intro size hSize outcome
    obtain ⟨pointer, h', blocks', hCall, _, _, _, hAllocates⟩ :=
      hInv.represents.kmalloc (hSize.trans (by decide)) outcome
    refine ⟨pointer, h', hCall, ?_⟩
    by_cases hPointer : pointer = 0
    · exact Or.inl hPointer
    · exact Or.inr (hInv.fresh hPointer hAllocates)
  · intro p size hLive
    obtain ⟨h', _, hCall, _⟩ := hInv.kfree_ok hLive
    exact ⟨h', hCall⟩

/-- One allocation from the kernel's own heap base. -/
theorem heap_safe_along_runs_oneBlock :
    ∃ h', kmalloc (kheapInit (fun _ => 0) kernelHeapBase) 100 (fun _ _ => .mapped) =
        some (kernelHeapBase + heapHeader, h') ∧
      HeapSafe kernelHeapBase h'
        (update (fun _ => none) (kernelHeapBase + heapHeader) (some 100)) 1 := by
  have hFirst :
      (kmalloc (kheapInit (fun _ => 0) kernelHeapBase) 100 (fun _ _ => .mapped)).map Prod.fst =
      some (kernelHeapBase + heapHeader) := by decide +kernel
  obtain ⟨⟨pointer, h'⟩, hCall, hPointer⟩ := Option.map_eq_some_iff.mp hFirst
  cases hPointer
  exact ⟨h', hCall, heap_safe_along_runs (by decide) (by decide) (by decide)
    (HeapRun.init.allocated (by decide) (by decide) hCall)⟩

end Run

end Kryos.Memory
