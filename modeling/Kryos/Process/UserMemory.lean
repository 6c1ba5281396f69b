import Kryos.Base.SparseMemory
import Kryos.Process.UserPages

/-! User memory as the process sees it: bytes at virtual addresses, with the
permissions of their pages. The primitive steps of the loader and of `sys_brk`
are stores, new zeroed pages and dropped pages of that memory. -/
namespace Kryos.Memory

open Word LittleEndian

variable {phys e va page frame : Nat}

/-- What user code may do with a page. -/
structure Access where
  user : Bool
  writable : Bool
  noExecute : Bool
  deriving DecidableEq, Repr

def Access.ofLeaf (e : Nat) : Access := ⟨e.testBit 2, e.testBit 1, e.testBit 63⟩

/-- The access that a call of `vmm_map_page` asks for. -/
def Access.requested (flags : Nat) : Access :=
  ⟨hasFlag flags vmmFlagUser, hasFlag flags vmmFlagWritable, hasFlag flags vmmFlagNoExecute⟩

theorem Access.ofLeaf_leafEntry (hPhys : IsFrame phys) (flags : Nat) :
    Access.ofLeaf (leafEntry phys flags) = Access.requested flags := by
  obtain ⟨_, _, hW, hU, hX⟩ := leafEntry_bits hPhys flags
  simp [Access.ofLeaf, Access.requested, hW, hU, hX]

/-- A byte of physical memory. -/
def Kmem.physByte (k : Kmem) (addr : Nat) : UInt8 := byteOf (k.mem (addr / 8 * 8)) (addr % 8)

/-- The lower half of an address space. -/
def Kmem.memory (k : Kmem) (root : Nat) : Sparse.Memory Access := fun va =>
  if va < 2 ^ 47 then
    (k.leafOf root va).map fun e =>
      ⟨k.physByte ((e &&& pteFrameMask) + va % pmmPageSize), Access.ofLeaf e⟩
  else none

section Read

variable {k : Kmem} {root va : Nat}

theorem Kmem.memory_of_lower (hva : va < 2 ^ 47) : k.memory root va =
    (k.leafOf root va).map fun e =>
      ⟨k.physByte ((e &&& pteFrameMask) + va % pmmPageSize), Access.ofLeaf e⟩ := if_pos hva

theorem Kmem.memory_eq_none_iff (hva : va < 2 ^ 47) :
    k.memory root va = none ↔ k.leafOf root va = none := by
  rw [Kmem.memory_of_lower hva, Option.map_eq_none_iff]

section

variable (h : AsInv k root) (hva : va < 2 ^ 47)

include h hva

/-- What the processor reads is what the tables and physical memory say. -/
theorem AsInv.memory_bytes : (k.memory root).bytes va = (vmmGetPhys k root va).map k.physByte := by
  rw [Sparse.Memory.bytes, Kmem.memory_of_lower hva, h.getPhys hva, Option.map_map, Option.map_map]
  rfl

theorem AsInv.getPhys_eq_none_iff : vmmGetPhys k root va = none ↔ k.memory root va = none := by
  rw [h.getPhys hva, Option.map_eq_none_iff, Kmem.memory_eq_none_iff hva]

theorem AsInv.isUserReadable_memory :
    vmmIsUserReadable k root va = (k.memory root va).any (·.attr.user) := by
  rw [h.isUserReadable hva, Kmem.memory_of_lower hva]
  cases hLeaf : k.leafOf root va with
  | none => rfl
  | some e =>
    have hPresent := (Kmem.leaf_eq_some.mp hLeaf).2
    simp only [Option.any_some, Option.map_some, hasFlag_present, hasFlag_user, hPresent,
      Bool.true_and, Access.ofLeaf]

theorem AsInv.isUserWritable_memory :
    vmmIsUserWritable k root va =
      (k.memory root va).any (fun c => c.attr.user && c.attr.writable) := by
  rw [h.isUserWritable hva, Kmem.memory_of_lower hva]
  cases hLeaf : k.leafOf root va with
  | none => rfl
  | some e =>
    have hPresent := (Kmem.leaf_eq_some.mp hLeaf).2
    simp only [Option.any_some, Option.map_some, hasFlag_present, hasFlag_user, hasFlag_writable,
      hPresent, Bool.true_and, Access.ofLeaf]

/-- The NX bit in force over all four levels. -/
theorem AsInv.effectiveNoExecute_memory {c : Sparse.Cell Access}
    (hCell : k.memory root va = some c) : effectiveNoExecute k root va = c.attr.noExecute := by
  rw [Kmem.memory_of_lower hva, Option.map_eq_some_iff] at hCell
  obtain ⟨e, hLeaf, rfl⟩ := hCell
  exact (h.effective hva hLeaf).2.2

end

end Read

/-! ### Who is not concerned -/

section Frame

variable {k k' : Kmem} {root va : Nat}

theorem leafByte_frame (e va : Nat) :
    ((e &&& pteFrameMask) + va % pmmPageSize) / 8 * 8 / pmmPageSize =
      (e &&& pteFrameMask) / pmmPageSize := by
  have hFrame := (isFrame_and_mask e).1
  simp only [pmmPageSize] at *
  omega

theorem Kmem.memory_congr (hLeaf : va < 2 ^ 47 → k'.leafOf root va = k.leafOf root va)
    (hWords : va < 2 ^ 47 → ∀ e, k.leafOf root va = some e →
      ∀ a, a / pmmPageSize = (e &&& pteFrameMask) / pmmPageSize → k'.mem a = k.mem a) :
    k'.memory root va = k.memory root va := by
  unfold Kmem.memory
  split
  · rename_i hva
    rw [hLeaf hva]
    cases hSome : k.leafOf root va with
    | none => rfl
    | some e =>
      rw [Option.map_some, Option.map_some, Kmem.physByte, Kmem.physByte,
        hWords hva e hSome _ (leafByte_frame e va)]
  · rfl

theorem leafFrame_of_leaf (hva : va < 2 ^ 47) (hLeaf : k.leafOf root va = some e) :
    k.LeafFrame root ((e &&& pteFrameMask) / pmmPageSize) :=
  ⟨va, hva, e, hLeaf,
    (Nat.div_mul_cancel (Nat.dvd_of_mod_eq_zero (isFrame_and_mask e).1)).symm⟩

theorem Undisturbed.memory_eq (h : Undisturbed k k' root) (hInv : AsInv k root) :
    k'.memory root = k.memory root := by
  funext va
  refine Kmem.memory_congr (fun hva => h.leafOf_eq hInv hva) (fun hva e hLeaf a ha => ?_)
  apply h.words
  rw [ha]
  exact Or.inr (leafFrame_of_leaf hva hLeaf)

/-- Page-table work does not touch the words of a page that stays. -/
theorem OwnWrites.page_words {foreign spare foreign' spare' : Nat → Prop}
    (hWrites : OwnWrites k k' root) (h : Space k root foreign spare)
    (h' : Space k' root foreign' spare') (hva : va < 2 ^ 47) (hLeaf : k.leafOf root va = some e)
    (hKept : k'.leafOf root va = some e) {a : Nat}
    (ha : a / pmmPageSize = (e &&& pteFrameMask) / pmmPageSize) : k'.mem a = k.mem a := by
  by_contra hNe
  rcases hWrites.words a hNe with hSlot | hFree
  · have hTable := h'.inv.ownSlot_frame hSlot
    rw [ha] at hTable
    exact (h'.pages _ (Or.inl (leafFrame_of_leaf hva hKept))).2.2.2.2 hTable
  · rw [ha, (h.pages _ (Or.inl (leafFrame_of_leaf hva hLeaf))).2.1] at hFree
    cases hFree

end Frame

end Kryos.Memory

namespace Kryos.Process

open Word Memory LittleEndian

/-- The byte that user code reads, if its page is mapped. -/
def userByte (k : Kmem) (root va : Nat) : Option UInt8 := (vmmGetPhys k root va).map k.physByte

theorem userByte_eq {k : Kmem} {root : Nat} (hInv : AsInv k root) (hva : va < 2 ^ 47) :
    userByte k root va = (k.memory root).bytes va := (hInv.memory_bytes hva).symm

/-! ### Stores -/

theorem writeByte_physByte (k : Kmem) (addr : Nat) (value : UInt8) (a : Nat) :
    (writeByte k addr value).physByte a = if a = addr then value else k.physByte a := by
  unfold Kmem.physByte writeByte Kmem.write
  dsimp only
  by_cases hWord : a / 8 * 8 = addr / 8 * 8
  · rw [hWord, Function.update_self, byteOf_replace]
    have hSame : a % 8 = addr % 8 ↔ a = addr := by omega
    simp only [hSame]
  · rw [Function.update_of_ne hWord, if_neg]
    rintro rfl
    exact hWord rfl

section Steps

variable {k : Kmem} {root : Nat} {foreign : Nat → Prop} (h : Space k root foreign noSpare)

include h

/-- A store through the translation of an address is a store at that address. -/
theorem writeByte_memory (hva : va < 2 ^ 47) (hPhys : vmmGetPhys k root va = some phys)
    (value : UInt8) :
    (writeByte k phys value).memory root = (k.memory root).put va 1 (fun _ => value) ∧
    SpaceStep k (writeByte k phys value) root foreign := by
  rw [h.inv.getPhys hva, Option.map_eq_some_iff] at hPhys
  obtain ⟨e, hLeaf, rfl⟩ := hPhys
  have hFrame : ((e &&& pteFrameMask) + va % pmmPageSize) / pmmPageSize =
      (e &&& pteFrameMask) / pmmPageSize := by
    have hAligned := (isFrame_and_mask e).1
    simp only [pmmPageSize] at *
    omega
  have hWrite := writeByte_frameWrite (k := k) hFrame value
  have hPage := leafFrame_of_leaf hva hLeaf
  have hLeaves := (h.outsideWrite hWrite (h.pages _ (Or.inl hPage)).2.2.2.2).2
  refine ⟨?_, h.frameWrite_step hPage hWrite rfl⟩
  funext vb
  rw [Kmem.memory, Sparse.Memory.put]
  by_cases hvb : vb < 2 ^ 47
  · rw [if_pos hvb, hLeaves vb hvb, Kmem.memory_of_lower hvb]
    cases hOther : k.leafOf root vb with
    | none => simp
    | some e' =>
      simp only [Option.map_some, writeByte_physByte]
      by_cases hSame : vb = va
      · subst hSame
        obtain rfl : e' = e := Option.some.inj (hOther.symm.trans hLeaf)
        rw [if_pos rfl, if_pos (by omega)]
      · -- two addresses of one frame lie on one page, at different offsets
        rw [if_neg, if_neg (by omega)]
        intro hAddr
        have hMask : e' &&& pteFrameMask = e &&& pteFrameMask := by
          have hAligned := (isFrame_and_mask e).1
          have hAligned' := (isFrame_and_mask e').1
          simp only [pmmPageSize] at *
          omega
        have hPages := h.once vb hvb va hva e' e hOther hLeaf hMask
        simp only [pmmPageSize] at *
        omega
  · rw [if_neg hvb, if_neg (by omega), Kmem.memory, if_neg hvb]

omit h in
theorem getPhys_offset (hInv : AsInv k root) (hPage : page < 2 ^ 47)
    (hAligned : page % pmmPageSize = 0) (hPhys : vmmGetPhys k root page = some frame)
    (hOffset : offset < pmmPageSize) : page + offset < 2 ^ 47 ∧
      vmmGetPhys k root (page + offset) = some (frame + offset) := by
  have hLower : page + offset < 2 ^ 47 := by
    simp only [pmmPageSize] at *
    omega
  refine ⟨hLower, ?_⟩
  have hDiv : (page + offset) / pmmPageSize = page / pmmPageSize := by
    simp only [pmmPageSize] at *
    omega
  have hLeaf : k.leafOf root (page + offset) = k.leafOf root page := leafOf_page hDiv
  rw [hInv.getPhys hPage, Option.map_eq_some_iff] at hPhys
  obtain ⟨e, hSome, rfl⟩ := hPhys
  rw [hInv.getPhys hLower, hLeaf, hSome, Option.map_some]
  congr 1
  simp only [pmmPageSize] at *
  omega

theorem copyIn_memory (hPage : page < 2 ^ 47) (hAligned : page % pmmPageSize = 0)
    (hPhys : vmmGetPhys k root page = some frame) (bytes : Nat → UInt8) (n : Nat)
    (hInside : offset + n ≤ pmmPageSize) :
    (copyIn k (frame + offset) bytes n).memory root = (k.memory root).put (page + offset) n bytes ∧
    SpaceStep k (copyIn k (frame + offset) bytes n) root foreign ∧
    ∀ va < 2 ^ 47, vmmGetPhys (copyIn k (frame + offset) bytes n) root va =
      vmmGetPhys k root va := by
  induction n with
  | zero => exact ⟨(Sparse.Memory.put_zero _ _).symm, SpaceStep.refl h, fun _ _ => rfl⟩
  | succ n ih =>
    obtain ⟨hMemory, hStep, hSame⟩ := ih (by omega)
    obtain ⟨hLower, hAt⟩ := getPhys_offset h.inv hPage hAligned hPhys
      (show offset + n < pmmPageSize by omega)
    rw [← hSame _ hLower] at hAt
    obtain ⟨hStored, hStep'⟩ := writeByte_memory hStep.space hLower hAt (bytes n)
    rw [copyIn, Nat.add_assoc]
    refine ⟨?_, hStep.trans hStep', fun va hva => ?_⟩
    · rw [hStored, hMemory, ← Nat.add_assoc, Sparse.Memory.put_last]
    · obtain ⟨f, hf, hPages⟩ := getPhys_leafFrame hStep.space.inv hPage hAligned
        ((hSame page hPage).trans hPhys)
      have hIn : (frame + (offset + n)) / pmmPageSize = f := by
        simp only [pmmPageSize] at *
        omega
      have hWrite := @writeByte_frameWrite (copyIn k (frame + offset) bytes n) _ f hIn (bytes n)
      rw [hStep'.space.inv.getPhys hva, ← hSame va hva, hStep.space.inv.getPhys hva,
        (hStep.space.outsideWrite hWrite (hStep.space.pages f (Or.inl hPages)).2.2.2.2).2 va hva]

/-! ### Pages -/

/-- The allocate, map and clear sequence adds a zeroed page to memory, or nothing. -/
theorem mapFreshPage_memory (hPage : page ≤ 2 ^ 47) (hAligned : page % pmmPageSize = 0)
    (flags : Nat) :
    ∃ ok k', mapFreshPage k root page flags = .ok (ok, k') ∧ SpaceStep k k' root foreign ∧
      (ok = false → k'.memory root = k.memory root) ∧
      (ok = true → page < 2 ^ 47 ∧ k.memory root page = none ∧
        k'.memory root = (k.memory root).clear page (page + 0x1000) (Access.requested flags)) := by
  obtain ⟨ok, k', hRun, hStep, hFresh⟩ := mapFreshPage_space h hPage flags
  refine ⟨ok, k', hRun, hStep, ?_⟩
  obtain ⟨result, k₁, hNew, ⟨hStep₁, hPage₁, hWrites, _⟩, hWasFree⟩ :=
    mapNewPage_space h hPage flags
  rw [mapFreshPage_eq, hNew] at hRun
  cases result with
  | none =>
    cases hRun
    refine ⟨fun _ => ?_, by simp⟩
    have hLeaves := hFresh.refused rfl
    funext va
    refine Kmem.memory_congr (hLeaves va) (fun hva e hLeaf a ha => ?_)
    exact hWrites.page_words h hStep.space hva hLeaf ((hLeaves va hva).trans hLeaf) ha
  | some phys =>
    cases hRun
    refine ⟨by simp, fun _ => ?_⟩
    obtain ⟨hUser, frame, hFrame, hClear, hLeaves, hZero⟩ := hFresh.mapped rfl
    have hNone := hWasFree (by simp)
    refine ⟨hUser, (Kmem.memory_eq_none_iff hUser).mpr hNone, ?_⟩
    have hInPage (va : Nat) : va / pmmPageSize = page / pmmPageSize ↔
        page ≤ va ∧ va < page + 0x1000 := by
      simp only [pmmPageSize] at *
      omega
    funext va
    rw [Sparse.Memory.clear]
    by_cases hHere : va / pmmPageSize = page / pmmPageSize
    · have hva : va < 2 ^ 47 := by
        simp only [pmmPageSize] at *
        omega
      rw [if_pos ((hInPage va).mp hHere), Kmem.memory_of_lower hva, hLeaves va hva, if_pos hHere,
        Option.map_some, Access.ofLeaf_leafEntry hFrame, (leafEntry_bits hFrame flags).1]
      have hIn : (frame * pmmPageSize + va % pmmPageSize) / 8 * 8 / pmmPageSize = frame := by
        simp only [pmmPageSize] at *
        omega
      rw [Kmem.physByte, hZero _ hIn]
      simp [byteOf]
    · rw [if_neg (fun hIn => hHere ((hInPage va).mpr hIn))]
      refine Kmem.memory_congr (fun hva => (hLeaves va hva).trans (if_neg hHere)) ?_
      intro hva e hLeaf a ha
      obtain ⟨_, hPhys, hFree, hLeaves₁⟩ := hPage₁.mapped phys rfl
      have hKept := (hLeaves₁ va hva).trans ((if_neg hHere).trans hLeaf)
      have hSet := (h.pages _ (Or.inl (leafFrame_of_leaf hva hLeaf))).2.1
      -- the cleared frame was free, the frame of the old page was not
      have hOutside : ¬ (phys ≤ a ∧ a < phys + pmmPageSize) := by
        intro hIn
        have hSame : phys / pmmPageSize = (e &&& pteFrameMask) / pmmPageSize := by
          have hMod := hPhys.1
          simp only [pmmPageSize] at *
          omega
        rw [hSame, hSet] at hFree
        cases hFree
      exact (if_neg hOutside).trans (hWrites.page_words h hStep₁.space hva hLeaf hKept ha)

theorem unmapPage_pmm (hva : va < 2 ^ 47) (hAligned : va % pmmPageSize = 0) :
    (vmmUnmapPage k root va).2.pmm = k.pmm := by
  rw [vmmUnmapPage_eq hva hAligned, h.inv.walk_readOnly h.ready hva]
  cases k.table root (vaPath va) with
  | none => rfl
  | some pt =>
    dsimp only
    split <;> rfl

/-- The unmap and free sequence drops a page from memory and gives back its frame. -/
theorem unmapFree_memory (hva : va < 2 ^ 47) (hAligned : va % pmmPageSize = 0)
    (hPhys : vmmGetPhys k root va = some phys) :
    ∃ p', pmmFreePage (vmmUnmapPage k root va).2.pmm phys = .ok p' ∧
      SpaceStep k { (vmmUnmapPage k root va).2 with pmm := p' } root foreign ∧
      k.pmm.Freed p' (· = phys / pmmPageSize) ∧
      (∀ vb < 2 ^ 47, Kmem.leafOf { (vmmUnmapPage k root va).2 with pmm := p' } root vb =
        if vb / pmmPageSize = va / pmmPageSize then none else k.leafOf root vb) ∧
      Kmem.memory { (vmmUnmapPage k root va).2 with pmm := p' } root =
        (k.memory root).drop va (va + 0x1000) := by
  obtain ⟨p', hFree, hStep, hLeaves⟩ := unmapFree_space h hva hAligned hPhys
  have hFreed : k.pmm.Freed p' (· = phys / pmmPageSize) := by
    obtain ⟨f, rfl, hFrame⟩ := getPhys_leafFrame h.inv hva hAligned hPhys
    obtain ⟨hLt, hSet, hAbove, _⟩ := h.pages f (Or.inl hFrame)
    obtain ⟨p'', hFree', hFreed⟩ := @pmmFreePage_freed _ h.ready f
      (by rintro _ rfl; exact ⟨hLt, hSet, hAbove⟩)
    rw [unmapPage_pmm h hva hAligned, hFree'] at hFree
    cases hFree
    rwa [Nat.mul_div_cancel _ (by decide)]
  refine ⟨p', hFree, hStep, hFreed, hLeaves, ?_⟩
  have hOwn := (h.inv.unmapPage h.ready hva).1.writes
  have hWrites : OwnWrites k { (vmmUnmapPage k root va).2 with pmm := p' } root :=
    ⟨hOwn.cr3, hOwn.words⟩
  have hInPage (vb : Nat) : vb / pmmPageSize = va / pmmPageSize ↔ va ≤ vb ∧ vb < va + 0x1000 := by
    simp only [pmmPageSize] at *
    omega
  funext vb
  rw [Sparse.Memory.drop]
  by_cases hHere : vb / pmmPageSize = va / pmmPageSize
  · rw [if_pos ((hInPage vb).mp hHere), Kmem.memory]
    split
    · rename_i hvb
      rw [Option.map_eq_none_iff]
      exact (hLeaves vb hvb).trans (if_pos hHere)
    · rfl
  · rw [if_neg (fun hIn => hHere ((hInPage vb).mpr hIn))]
    refine Kmem.memory_congr (fun hvb => (hLeaves vb hvb).trans (if_neg hHere)) ?_
    intro hvb e hLeaf a ha
    exact hWrites.page_words h hStep.space hvb hLeaf
      ((hLeaves vb hvb).trans ((if_neg hHere).trans hLeaf)) ha

end Steps

end Kryos.Process
