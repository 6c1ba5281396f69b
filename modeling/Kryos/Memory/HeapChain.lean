import Kryos.Base.Layout
import Kryos.Memory.Heap
import Mathlib.Data.List.Chain

/-! The block list as a list. A chain of blocks in memory is described by the
sizes and states of its blocks; each store of the allocator is a step on that
description. -/
namespace Kryos.Memory

open Function Layout Word

variable {b : Block} {before after blocks : List Block} {x y n : Nat}

/-- A block of the heap. -/
structure Block where
  size : Nat
  used : Bool
  deriving DecidableEq, Repr

def Block.extent (b : Block) : Nat := heapHeader + b.size

def Block.stateWord (b : Block) : Nat := if b.used then heapUsed else heapFree

theorem Block.stateWord_free : (b.stateWord == heapFree) = !b.used := by
  cases hUsed : b.used <;> simp [Block.stateWord, hUsed, heapUsed, heapFree]

theorem Block.stateWord_used : (b.stateWord == heapUsed) = b.used := by
  cases hUsed : b.used <;> simp [Block.stateWord, hUsed, heapUsed, heapFree]

/-- The pointer to the first block of a list that begins at `a`. -/
def linkTo (next a : Nat) : List Block → Nat
  | [] => next
  | _ :: _ => a

@[simp] theorem linkTo_cons (next a : Nat) (b : Block) (rest : List Block) :
    linkTo next a (b :: rest) = a := rfl

/-- The address of the last block of a list that begins at `a`. -/
def lastOf (prev a : Nat) : List Block → Nat
  | [] => prev
  | b :: rest => lastOf a (a + b.extent) rest

/-- The headers of consecutive blocks from `a` on, with `prev` before the first
and `next` after the last. -/
def Chain (mem : Nat → Nat) (next : Nat) : Nat → Nat → List Block → Prop
  | _, _, [] => True
  | prev, a, b :: rest =>
    mem a = heapMagic ∧ mem (a + 8) = b.size ∧ mem (a + 16) = b.stateWord ∧
    mem (a + 24) = linkTo next (a + b.extent) rest ∧ mem (a + 32) = prev ∧
    Chain mem next a (a + b.extent) rest

section Chain

variable {mem mem' : Nat → Nat} {next prev a : Nat} {blocks : List Block}

theorem chain_append (first second : List Block) :
    Chain mem next prev a (first ++ second) ↔
      Chain mem (linkTo next (a + total Block.extent first) second) prev a first ∧
      Chain mem next (lastOf prev a first) (a + total Block.extent first) second := by
  induction first generalizing prev a with
  | nil => simp [Chain, lastOf]
  | cons b rest ih =>
    have hLink : linkTo next (a + b.extent) (rest ++ second) =
        linkTo (linkTo next (a + b.extent + total Block.extent rest) second)
          (a + b.extent) rest := by
      cases rest <;> simp [linkTo]
    simp only [List.cons_append, Chain, ih, hLink, total_cons, lastOf, ← Nat.add_assoc]
    tauto

theorem Chain.congr (h : Chain mem next prev a blocks)
    (hHeaders : ∀ x b, (x, b) ∈ placed Block.extent a blocks → ∀ i < heapHeader,
      mem' (x + i) = mem (x + i)) : Chain mem' next prev a blocks := by
  induction blocks generalizing prev a with
  | nil => trivial
  | cons b rest ih =>
    obtain ⟨hMagic, hSize, hState, hNext, hPrev, hRest⟩ := h
    have hHere := hHeaders a b (by simp)
    refine ⟨(hHere 0 (by decide)).trans hMagic, (hHere 8 (by decide)).trans hSize,
      (hHere 16 (by decide)).trans hState, (hHere 24 (by decide)).trans hNext,
      (hHere 32 (by decide)).trans hPrev, ih hRest ?_⟩
    intro x c hx
    exact hHeaders x c (by simp [hx])

/-- Stores outside the blocks leave a chain alone. -/
theorem Chain.congr_range (h : Chain mem next prev a blocks)
    (hRange : ∀ x, a ≤ x → x < a + total Block.extent blocks → mem' x = mem x) :
    Chain mem' next prev a blocks := by
  apply h.congr
  intro x b hx i hi
  have hBounds := placed_bounds Block.extent hx
  simp only [Block.extent] at hBounds
  exact hRange _ (by omega) (by omega)

theorem Chain.middle (h : Chain mem next prev a (before ++ b :: after)) :
    mem (a + total Block.extent before) = heapMagic ∧
    mem (a + total Block.extent before + 8) = b.size ∧
    mem (a + total Block.extent before + 16) = b.stateWord ∧
    mem (a + total Block.extent before + 24) =
      linkTo next (a + total Block.extent before + b.extent) after ∧
    mem (a + total Block.extent before + 32) = lastOf prev a before := by
  obtain ⟨_, hMagic, hSize, hState, hNext, hPrev, _⟩ := (chain_append before (b :: after)).mp h
  exact ⟨hMagic, hSize, hState, hNext, hPrev⟩

theorem Chain.relink {prev' : Nat} (h : Chain mem next prev a blocks)
    (hPrev : blocks ≠ [] → mem' (a + 32) = prev')
    (hRange : ∀ x, a ≤ x → x < a + total Block.extent blocks → x ≠ a + 32 → mem' x = mem x) :
    Chain mem' next prev' a blocks := by
  cases blocks with
  | nil => trivial
  | cons b rest =>
    obtain ⟨hMagic, hSize, hState, hNext, _, hRest⟩ := h
    have hKeep (i : Nat) (hi : i < 32) : mem' (a + i) = mem (a + i) := by
      apply hRange _ (by omega) _ (by omega)
      simp only [total_cons, Block.extent, heapHeader]
      omega
    refine ⟨(hKeep 0 (by decide)).trans hMagic, (hKeep 8 (by decide)).trans hSize,
      (hKeep 16 (by decide)).trans hState, (hKeep 24 (by decide)).trans hNext, hPrev (by simp), ?_⟩
    apply hRest.congr_range
    intro x hLow hHigh
    simp only [Block.extent, heapHeader] at hLow hHigh
    apply hRange x (by omega) _ (by omega)
    simp only [total_cons, Block.extent, heapHeader]
    omega

theorem lastOf_append (prev a : Nat) (first second : List Block) :
    lastOf prev a (first ++ second) =
      lastOf (lastOf prev a first) (a + total Block.extent first) second := by
  induction first generalizing prev a with
  | nil => simp [lastOf]
  | cons b rest ih => simp [lastOf, ih, Nat.add_assoc]

theorem lastOf_cases (prev a : Nat) (blocks : List Block) :
    (blocks = [] ∧ lastOf prev a blocks = prev) ∨
    ∃ before b, blocks = before ++ [b] ∧ lastOf prev a blocks = a + total Block.extent before := by
  rcases List.eq_nil_or_concat blocks with rfl | ⟨before, b, rfl⟩
  · exact Or.inl ⟨rfl, rfl⟩
  · right
    refine ⟨before, b, by simp, ?_⟩
    rw [List.concat_eq_append, lastOf_append]
    rfl

theorem Chain.back {before after : List Block} {b : Block}
    (h : Chain mem next prev a (before ++ b :: after)) (hNe : after ≠ []) :
    mem (a + total Block.extent before + b.extent + 32) = a + total Block.extent before := by
  obtain ⟨c, rest, rfl⟩ := List.exists_cons_of_ne_nil hNe
  rw [show before ++ b :: c :: rest = (before ++ [b]) ++ c :: rest by simp] at h
  have hLink := h.middle.2.2.2.2
  rw [lastOf_append] at hLink
  simpa [lastOf, Nat.add_assoc] using hLink

/-- Some blocks in the middle of a chain were rewritten. The words outside them stay, except
for the back link of the first block after. -/
theorem Chain.replace {old new : List Block} (hOld : old ≠ []) (hNew : new ≠ [])
    (h : Chain mem next prev a (before ++ old ++ after))
    (hTotal : after ≠ [] → total Block.extent new = total Block.extent old) (hMiddle : Chain mem'
      (linkTo next (a + total Block.extent before + total Block.extent new) after)
      (lastOf prev a before) (a + total Block.extent before) new)
    (hLink : after ≠ [] → mem' (a + total Block.extent before + total Block.extent old + 32) =
      lastOf (lastOf prev a before) (a + total Block.extent before) new)
    (hSame : ∀ x, x < a + total Block.extent before ∨
      a + total Block.extent before + total Block.extent old ≤ x →
      (after ≠ [] → x ≠ a + total Block.extent before + total Block.extent old + 32) →
      mem' x = mem x) :
    Chain mem' next prev a (before ++ new ++ after) := by
  have hFirst (blocks : List Block) (hNe : blocks ≠ []) (rest : List Block) (n x : Nat) :
      linkTo n x (blocks ++ rest) = x := by
    cases blocks with
    | nil => exact absurd rfl hNe
    | cons b tail => rfl
  rw [List.append_assoc, chain_append, chain_append, hFirst _ hOld] at h
  rw [List.append_assoc, chain_append, chain_append, hFirst _ hNew]
  obtain ⟨hChainBefore, _, hChainAfter⟩ := h
  refine ⟨hChainBefore.congr_range (fun x _ hx => hSame x (.inl hx) fun _ => by omega), hMiddle, ?_⟩
  cases after with
  | nil => trivial
  | cons c rest =>
    rw [hTotal (by simp)]
    exact hChainAfter.relink (fun _ => hLink (by simp))
      (fun x hx _ hNe => hSame x (.inr hx) fun _ => hNe)

end Chain

/-! ### Stores of the allocator -/

@[simp] theorem Heap.store_mem (h : Heap) (address value : Nat) :
    (h.store address value).mem = update h.mem address value := rfl

/-- Only memory changed. -/
def Heap.SameBounds (h h' : Heap) : Prop := h' = { h with mem := h'.mem }

theorem Heap.sameBounds_store (h : Heap) (address value : Nat) :
    h.SameBounds (h.store address value) := rfl

theorem Heap.SameBounds.trans {h h' h'' : Heap} (first : h.SameBounds h')
    (second : h'.SameBounds h'') : h.SameBounds h'' := by
  unfold Heap.SameBounds at *
  rw [second, first]

theorem Heap.sameBounds_absorb (h : Heap) (left right : Nat) :
    h.SameBounds (h.absorb left right) := by
  unfold Heap.absorb
  dsimp only
  split <;> rfl

theorem Heap.sameBounds_release (h : Heap) (block : Nat) : h.SameBounds (h.release block) := by
  unfold Heap.release
  dsimp only
  have hFirst : h.SameBounds (h.setState block heapFree) := rfl
  generalize h.setState block heapFree = h₁ at hFirst ⊢
  split
  · have hSecond := hFirst.trans (h₁.sameBounds_absorb block (h₁.next block))
    generalize h₁.absorb block (h₁.next block) = h₂ at hSecond ⊢
    split
    · exact hSecond.trans (h₂.sameBounds_absorb _ _)
    · exact hSecond
  · split
    · exact hFirst.trans (h₁.sameBounds_absorb _ _)
    · exact hFirst

theorem Heap.sameBounds_claim (h : Heap) (curr alignedSize : Nat) :
    h.SameBounds (h.claim curr alignedSize) := by
  unfold Heap.claim Heap.split
  dsimp only
  split
  · split <;> rfl
  · rfl

theorem linkTo_eq {z : Nat} (h : linkTo 0 z blocks ≠ 0) : blocks ≠ [] ∧ linkTo 0 z blocks = z := by
  cases blocks with
  | nil => exact absurd rfl h
  | cons b rest => exact ⟨List.cons_ne_nil b rest, rfl⟩

section Stores

variable {h : Heap} {a : Nat} {before after : List Block} {b c : Block}

theorem Chain.setState (hChain : Chain h.mem 0 0 a (before ++ b :: after)) (used : Bool) :
    Chain (h.setState (a + total Block.extent before) (Block.stateWord ⟨b.size, used⟩)).mem 0 0 a
      (before ++ ⟨b.size, used⟩ :: after) := by
  obtain ⟨hMagic, hSize, _, hNext, hPrev⟩ := hChain.middle
  have hBack := @Chain.back _ _ _ _ _ _ _ hChain
  have hOne (b : Block) : before ++ b :: after = before ++ [b] ++ after := by simp
  rw [hOne] at hChain ⊢
  apply hChain.replace (by simp) (by simp) (fun _ => by simp [Block.extent]) <;>
    generalize a + total Block.extent before = x at *
  · simp (disch := omega) only [Chain, Heap.setState, Heap.store_mem, total_cons, total_nil,
      Nat.add_zero, linkTo, update_of_ne, update_self, hMagic, hSize, hNext, hPrev,
      Block.extent, and_self]
  · intro hNe
    simp only [total_cons, total_nil, Nat.add_zero, lastOf, Heap.setState, Heap.store_mem]
    rw [update_of_ne (by simp only [Block.extent, heapHeader]; omega), hBack hNe]
  · intro y hy _
    simp only [total_cons, total_nil, Block.extent, heapHeader] at hy
    exact update_of_ne (by omega) _ _

/-- The words that `absorb` stores: the size and forward link of the left block,
and the back link of the block `n` after the right one. -/
theorem Heap.absorb_reads (hNext : h.mem (y + 24) = n) (hApart : x + heapHeader ≤ y)
    (hAfter : n ≠ 0 → y ≤ n) :
    (h.absorb x y).mem (x + 8) = u64 (h.size x + (heapHeader + h.size y)) ∧
    (h.absorb x y).mem (x + 24) = n ∧
    (n ≠ 0 → (h.absorb x y).mem (n + 32) = x) ∧
    ∀ w, w ≠ x + 8 → w ≠ x + 24 → (n ≠ 0 → w ≠ n + 32) → (h.absorb x y).mem w = h.mem w := by
  have hNextY : ∀ v, (h.setSize x v).next y = n := by
    intro v
    simp only [Heap.next, Heap.setSize, Heap.store_mem]
    rw [update_of_ne (by omega), hNext]
  have hNextX (g : Heap) (v : Nat) : (g.setNext x v).next x = v := update_self _ _ _
  unfold Heap.absorb
  simp only [hNextY, hNextX]
  by_cases hn : n = 0
  · subst hn
    simp only [bne_self_eq_false, Bool.false_eq_true, if_false, Heap.setNext, Heap.setSize,
      Heap.store_mem]
    refine ⟨?_, update_self _ _ _, fun h0 => absurd rfl h0, ?_⟩
    · rw [update_of_ne (by omega), update_self]
    · intro w h8 h24 _
      rw [update_of_ne h24, update_of_ne h8]
  · simp only [bne_iff_ne, ne_eq, hn, not_false_eq_true, if_true, Heap.setNext, Heap.setSize,
      Heap.setPrev, Heap.store_mem, forall_const]
    refine ⟨?_, ?_, update_self _ _ _, ?_⟩
    · rw [update_of_ne (by omega), update_of_ne (by omega), update_self]
    · rw [update_of_ne (by omega), update_self]
    · intro w h8 h24 h32
      rw [update_of_ne h32, update_of_ne h24, update_of_ne h8]

theorem Chain.absorb (hPos : 0 < a) (hChain : Chain h.mem 0 0 a (before ++ b :: c :: after))
    (hRange : a + total Block.extent (before ++ b :: c :: after) < 2 ^ 64) :
    Chain (h.absorb (a + total Block.extent before)
        (a + total Block.extent before + b.extent)).mem 0 0 a
      (before ++ ⟨b.size + c.extent, b.used⟩ :: after) := by
  obtain ⟨hMagic, hSize, hState, hNext, hPrev⟩ := hChain.middle
  rw [show before ++ b :: c :: after = (before ++ [b]) ++ c :: after by simp] at hChain
  obtain ⟨_, hSize', _, hNext', _⟩ := hChain.middle
  rw [show (before ++ [b]) ++ c :: after = before ++ [b, c] ++ after by simp] at hChain
  simp only [total_append, total_cons, total_nil, Nat.add_zero,
    ← Nat.add_assoc] at hRange hSize' hNext'
  have hSum : u64 (b.size + (heapHeader + c.size)) = b.size + c.extent :=
    u64_of_lt (by simp only [Block.extent, heapHeader] at hRange ⊢; omega)
  have hz : 0 < a + total Block.extent before + b.extent + c.extent := by omega
  obtain ⟨hNewSize, hNewNext, hBack, hSame⟩ := Heap.absorb_reads (h := h) hNext'
    (x := a + total Block.extent before) (by simp only [Block.extent]; omega)
    (fun hn => by rw [(linkTo_eq hn).2]; omega)
  simp only [Heap.size, hSize, hSize', hSum] at hNewSize
  rw [show ∀ d : Block, before ++ d :: after = before ++ [d] ++ after by simp]
  generalize (h.absorb (a + total Block.extent before)
    (a + total Block.extent before + b.extent)).mem = mem' at *
  apply hChain.replace (by simp) (by simp) (fun _ => by simp [Block.extent]; omega) <;>
    simp only [total_cons, total_nil, Nat.add_zero, ← Nat.add_assoc] at * <;>
    generalize a + total Block.extent before = x at *
  · have hKeep (i : Nat) (hi : i < 48) (h8 : i ≠ 8) (h24 : i ≠ 24) :
        mem' (x + i) = h.mem (x + i) := by
      apply hSame _ (by omega) (by omega)
      intro hn
      rw [(linkTo_eq hn).2]
      simp only [Block.extent, heapHeader]
      omega
    have hEnd : x + (⟨b.size + c.extent, b.used⟩ : Block).extent = x + b.extent + c.extent := by
      simp only [Block.extent]
      omega
    refine ⟨(hKeep 0 (by decide) (by decide) (by decide)).trans hMagic, hNewSize,
      (hKeep 16 (by decide) (by decide) (by decide)).trans hState, ?_,
      (hKeep 32 (by decide) (by decide) (by decide)).trans hPrev, trivial⟩
    rw [hNewNext, hEnd]
    rfl
  · intro hNe
    obtain ⟨d, rest, rfl⟩ := List.exists_cons_of_ne_nil hNe
    exact hBack (by simp only [linkTo]; omega)
  · intro y hy hNe
    simp only [Block.extent, heapHeader] at hy
    refine hSame y (by omega) (by omega) fun hn => ?_
    rw [(linkTo_eq hn).2]
    exact hNe (linkTo_eq hn).1

/-- The words that `split` stores: the new block at `y`, the size and forward link
of the old one, and the back link of the block `n` after it. -/
theorem Heap.split_reads (alignedSize remaining : Nat) (hNext : h.mem (x + 24) = n)
    (hy : u64 (x + (heapHeader + alignedSize)) = y) (hApart : x + heapHeader ≤ y)
    (hAfter : n ≠ 0 → y + heapHeader ≤ n) :
    let mem' := (h.split x alignedSize remaining).mem
    (mem' y = heapMagic ∧ mem' (y + 8) = remaining - heapHeader ∧ mem' (y + 16) = heapFree ∧
      mem' (y + 24) = n ∧ mem' (y + 32) = x) ∧
    mem' (x + 8) = alignedSize ∧ mem' (x + 24) = y ∧ (n ≠ 0 → mem' (n + 32) = y) ∧
    ∀ w, w < y ∨ y + heapHeader ≤ w → w ≠ x + 8 → w ≠ x + 24 → (n ≠ 0 → w ≠ n + 32) →
      mem' w = h.mem w := by
  unfold Heap.split
  simp only [hy]
  simp only [heapHeader] at hApart hAfter
  by_cases hn : n = 0
  · subst hn
    simp (disch := omega) only [Heap.setMagic, Heap.setSize, Heap.setState, Heap.setPrev,
      Heap.setNext, Heap.next, Heap.store_mem, update_self, update_of_ne, hNext,
      bne_self_eq_false, Bool.false_eq_true, if_false, ne_eq, not_true_eq_false, false_implies,
      and_self, true_and]
    intro w hw h8 h24 _
    simp only [heapHeader] at hw
    simp (disch := omega) only [update_of_ne]
  · simp (disch := omega) only [Heap.setMagic, Heap.setSize, Heap.setState, Heap.setPrev,
      Heap.setNext, Heap.next, Heap.store_mem, update_self, update_of_ne, hNext,
      bne_iff_ne, ne_eq, hn, not_false_eq_true, if_true, forall_const, and_self, true_and]
    intro w hw h8 h24 h32
    simp only [heapHeader] at hw
    simp (disch := omega) only [update_of_ne]

theorem Chain.split (hPos : 0 < a) (hChain : Chain h.mem 0 0 a (before ++ b :: after))
    (hRange : a + total Block.extent (before ++ b :: after) < 2 ^ 64) {alignedSize : Nat}
    (hRoom : alignedSize + heapHeader + 16 ≤ b.size) :
    Chain (h.split (a + total Block.extent before) alignedSize (b.size - alignedSize)).mem 0 0 a
      (before ++ ⟨alignedSize, b.used⟩ :: ⟨b.size - alignedSize - heapHeader, false⟩ :: after) := by
  obtain ⟨hMagic, hSize, hState, hNext, hPrev⟩ := hChain.middle
  simp only [total_append, total_cons, ← Nat.add_assoc] at hRange
  have hz : 0 < a + total Block.extent before + b.extent := by omega
  obtain ⟨hNew, hNewSize, hNewNext, hBack, hSame⟩ := Heap.split_reads (h := h) alignedSize
    (b.size - alignedSize) hNext (y := a + total Block.extent before + (heapHeader + alignedSize))
    (u64_of_lt (by simp only [Block.extent, heapHeader] at hRange hRoom ⊢; omega)) (by omega)
    (fun hn => by
      rw [(linkTo_eq hn).2]
      simp only [Block.extent, heapHeader] at hRoom ⊢
      omega)
  rw [show before ++ b :: after = before ++ [b] ++ after by simp] at hChain
  rw [show ∀ c d : Block, before ++ c :: d :: after = before ++ [c, d] ++ after by simp]
  generalize (h.split (a + total Block.extent before) alignedSize (b.size - alignedSize)).mem =
    mem' at *
  apply hChain.replace (by simp) (by simp) (fun _ => by simp [Block.extent]; omega) <;>
    simp only [total_cons, total_nil, Nat.add_zero, ← Nat.add_assoc] at * <;>
    generalize a + total Block.extent before = x at *
  · have hKeep (i : Nat) (hi : i < 48) (h8 : i ≠ 8) (h24 : i ≠ 24) :
        mem' (x + i) = h.mem (x + i) := by
      apply hSame _ (by simp only [heapHeader]; omega) (by omega) (by omega)
      intro hn
      rw [(linkTo_eq hn).2]
      simp only [Block.extent, heapHeader]
      omega
    have hMid : x + (⟨alignedSize, b.used⟩ : Block).extent = x + heapHeader + alignedSize := by
      simp only [Block.extent]
      omega
    have hEnd : x + heapHeader + alignedSize +
        (⟨b.size - alignedSize - heapHeader, false⟩ : Block).extent = x + b.extent := by
      simp only [Block.extent, heapHeader] at hRoom ⊢
      omega
    simp only [Chain, linkTo, hMid, hEnd]
    exact ⟨(hKeep 0 (by decide) (by decide) (by decide)).trans hMagic, hNewSize,
      (hKeep 16 (by decide) (by decide) (by decide)).trans hState, hNewNext,
      (hKeep 32 (by decide) (by decide) (by decide)).trans hPrev, hNew.1, hNew.2.1, hNew.2.2.1,
      hNew.2.2.2.1, hNew.2.2.2.2, trivial⟩
  · intro hNe
    obtain ⟨d, rest, rfl⟩ := List.exists_cons_of_ne_nil hNe
    rw [show lastOf (lastOf 0 a before) x _ = x + heapHeader + alignedSize
      from (Nat.add_assoc ..).symm]
    exact hBack (by simp only [linkTo]; omega)
  · intro y hy hNe
    simp only [Block.extent, heapHeader] at hy hRoom
    refine hSame y (by simp only [heapHeader]; omega) (by omega) (by omega) fun hn => ?_
    rw [(linkTo_eq hn).2]
    exact hNe (linkTo_eq hn).1

theorem Chain.growTail (hChain : Chain h.mem 0 0 a (before ++ [b])) (size : Nat) :
    Chain (h.setSize (a + total Block.extent before) size).mem 0 0 a
      (before ++ [⟨size, b.used⟩]) := by
  obtain ⟨hMagic, _, hState, hNext, hPrev⟩ := hChain.middle
  rw [← List.append_nil (before ++ _)] at hChain ⊢
  apply hChain.replace (by simp) (by simp) (fun hNe => absurd rfl hNe) <;>
    generalize a + total Block.extent before = x at *
  · simp (disch := omega) only [Chain, Heap.setSize, Heap.store_mem, linkTo, update_of_ne,
      update_self, hMagic, hState, hNext, hPrev, and_self]
    exact ⟨trivial, trivial, rfl, trivial⟩
  · intro hNe
    exact absurd rfl hNe
  · intro y hy _
    simp only [total_cons, total_nil, Block.extent, heapHeader] at hy
    exact update_of_ne (by omega) _ _

theorem Chain.appendBlock {mem' : Nat → Nat} (hChain : Chain h.mem 0 0 a blocks)
    (hNew : Chain mem' 0 (lastOf 0 a blocks)
      (a + total Block.extent blocks) [b])
    (hLink : blocks ≠ [] → mem' (lastOf 0 a blocks + 24) = a + total Block.extent blocks)
    (hSame : ∀ x < a + total Block.extent blocks, x ≠ lastOf 0 a blocks + 24 → mem' x = h.mem x) :
    Chain mem' 0 0 a (blocks ++ [b]) := by
  rw [chain_append]
  refine ⟨?_, hNew⟩
  rcases lastOf_cases 0 a blocks with ⟨rfl, _⟩ | ⟨before, d, rfl, hLast⟩
  · trivial
  · rw [hLast] at hLink hSame
    obtain ⟨hBefore, hMagic, hSize, hState, _, hPrev, _⟩ := (chain_append before [d]).mp hChain
    have hLink := hLink (by simp)
    simp only [total_append, total_cons, total_nil, Nat.add_zero, ← Nat.add_assoc] at *
    rw [chain_append]
    have hKeep (i : Nat) (hi : i < 48) (h24 : i ≠ 24) :
        mem' (a + total Block.extent before + i) = h.mem (a + total Block.extent before + i) := by
      apply hSame _ _ (by omega)
      simp only [Block.extent, heapHeader]
      omega
    refine ⟨hBefore.congr_range (fun x _ hx => hSame x (by omega) (by omega)),
      (hKeep 0 (by decide) (by decide)).trans hMagic, (hKeep 8 (by decide) (by decide)).trans hSize,
      (hKeep 16 (by decide) (by decide)).trans hState, hLink,
      (hKeep 32 (by decide) (by decide)).trans hPrev, trivial⟩

end Stores

end Kryos.Memory
