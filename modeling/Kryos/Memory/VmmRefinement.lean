import Kryos.Memory.PageWalk

/-! Page tables refine a partial map from lower-half pages to frames with
permissions. -/
namespace Kryos.Memory

open Word Radix

variable {va vb pt phys e : Nat}

/-! ### Indices of a virtual address -/

theorem and_511 (n : Nat) : n &&& 0x1FF = n % 512 := Nat.and_two_pow_sub_one_eq_mod n 9

theorem pml4Index_eq (va : Nat) : pml4Index va = va / 2 ^ 39 % 512 := by
  rw [pml4Index, Nat.shiftRight_eq_div_pow, and_511]
theorem pdptIndex_eq (va : Nat) : pdptIndex va = va / 2 ^ 30 % 512 := by
  rw [pdptIndex, Nat.shiftRight_eq_div_pow, and_511]
theorem pdIndex_eq (va : Nat) : pdIndex va = va / 2 ^ 21 % 512 := by
  rw [pdIndex, Nat.shiftRight_eq_div_pow, and_511]
theorem ptIndex_eq (va : Nat) : ptIndex va = va / 2 ^ 12 % 512 := by
  rw [ptIndex, Nat.shiftRight_eq_div_pow, and_511]

/-- The slots that lead to the last-level table of an address. -/
def vaPath (va : Nat) : List Nat := [pml4Index va, pdptIndex va, pdIndex va]

theorem ptIndex_lt (va : Nat) : ptIndex va < 512 := by
  rw [ptIndex_eq]
  exact Nat.mod_lt _ (by decide)

theorem isCanonical_of_lower (h : va < 2 ^ 47) : isCanonical va = true := by
  have hZero : va >>> 47 = 0 := by
    omega
  simp [isCanonical, hZero]

section Slots

variable {va : Nat} (h : va < 2 ^ 47)

include h

theorem lowerSlot_pml4 : LowerSlot [] (pml4Index va) := by
  have hLt : pml4Index va < 256 := by
    rw [pml4Index_eq]
    omega
  exact ⟨by omega, fun _ => hLt⟩

omit h in
theorem lowerSlot_pdpt (va : Nat) : LowerSlot [pml4Index va] (pdptIndex va) := by
  refine ⟨?_, by simp⟩
  rw [pdptIndex_eq]
  exact Nat.mod_lt _ (by decide)

omit h in
theorem lowerSlot_pd (va : Nat) : LowerSlot [pml4Index va, pdptIndex va] (pdIndex va) := by
  refine ⟨?_, by simp⟩
  rw [pdIndex_eq]
  exact Nat.mod_lt _ (by decide)

theorem tablePath_one : TablePath [pml4Index va] :=
  TablePath.nil.concat (by simp) (lowerSlot_pml4 h)

theorem tablePath_two : TablePath [pml4Index va, pdptIndex va] :=
  (tablePath_one h).concat (by simp) (lowerSlot_pdpt va)

theorem tablePath_vaPath : TablePath (vaPath va) :=
  (tablePath_two h).concat (by simp) (lowerSlot_pd va)

theorem page_eq_of_path (hb : vb < 2 ^ 47) (hPath : vaPath va = vaPath vb)
    (hIndex : ptIndex va = ptIndex vb) : va / pmmPageSize = vb / pmmPageSize := by
  simp only [vaPath, List.cons.injEq, and_true, pml4Index_eq, pdptIndex_eq, pdIndex_eq] at hPath
  rw [ptIndex_eq, ptIndex_eq] at hIndex
  simp only [pmmPageSize]
  omega

end Slots

theorem vaPath_split {j : Nat} {before after : List Nat} (h : vaPath va = before ++ j :: after) :
    (before = [] ∧ j = pml4Index va) ∨ (before = [pml4Index va] ∧ j = pdptIndex va) ∨
      (before = [pml4Index va, pdptIndex va] ∧ j = pdIndex va) := by
  unfold vaPath at h
  match before with
  | [] =>
    simp only [List.nil_append, List.cons.injEq] at h
    exact Or.inl ⟨rfl, h.1.symm⟩
  | [a] =>
    simp only [List.cons_append, List.nil_append, List.cons.injEq] at h
    exact Or.inr (Or.inl ⟨by rw [h.1], h.2.1.symm⟩)
  | [a, b] =>
    simp only [List.cons_append, List.nil_append, List.cons.injEq] at h
    exact Or.inr (Or.inr ⟨by rw [h.1, h.2.1], h.2.2.1.symm⟩)
  | a :: b :: c :: rest => simp at h

theorem vaPath_of_page_eq (h : va / pmmPageSize = vb / pmmPageSize) :
    vaPath va = vaPath vb ∧ ptIndex va = ptIndex vb := by
  simp only [vaPath, pml4Index_eq, pdptIndex_eq, pdIndex_eq, ptIndex_eq, pmmPageSize] at *
  refine ⟨?_, by omega⟩
  congr 1
  · omega
  congr 1
  · omega
  congr 1
  omega

/-! ### One level of the walk -/

section Slots

variable {k : Kmem} {root table va : Nat} (h : AsInv k root) (hReady : k.pmm.Ready)
  (hva : va < 2 ^ 47)

include h hReady hva

/-- The three slots on the way to the last-level table of an address. -/
theorem AsInv.pml4Slot : InnerSlot k root [] root (pml4Index va) :=
  ⟨h, hReady, TablePath.nil, by simp, rfl, lowerSlot_pml4 hva⟩
@[inherit_doc AsInv.pml4Slot]
theorem AsInv.pdptSlot (hPdpt : k.table root [pml4Index va] = some table) :
    InnerSlot k root [pml4Index va] table (pdptIndex va) :=
  ⟨h, hReady, tablePath_one hva, by simp, hPdpt, lowerSlot_pdpt va⟩
@[inherit_doc AsInv.pml4Slot]
theorem AsInv.pdSlot (hPd : k.table root [pml4Index va, pdptIndex va] = some table) :
    InnerSlot k root [pml4Index va, pdptIndex va] table (pdIndex va) :=
  ⟨h, hReady, tablePath_two hva, by simp, hPd, lowerSlot_pd va⟩

end Slots

section NextLevel

variable {k : Kmem} {root table i : Nat} {path : List Nat} (h : InnerSlot k root path table i)

include h

/-- What `get_next_level` guarantees at a slot of the lower half. -/
theorem InnerSlot.nextLevel (allocate : Bool) (pteFlags : Nat) :
    AsInv (getNextLevel k table i allocate pteFlags).2 root ∧
    (getNextLevel k table i allocate pteFlags).2.pmm.Ready ∧
    Grows k (getNextLevel k table i allocate pteFlags).2 root ∧
    ∀ child, (getNextLevel k table i allocate pteFlags).1 = some child →
      (getNextLevel k table i allocate pteFlags).2.table root (path ++ [i]) = some child ∧
      ∃ e, (getNextLevel k table i allocate pteFlags).2.entry root path i = some e ∧
        e.testBit 0 = true ∧
        (pteFlags.testBit 1 = true → e.testBit 1 = true) ∧
        (pteFlags.testBit 2 = true → e.testBit 2 = true) := by
  rcases getNextLevel_cases h.ready table i allocate pteFlags with
    ⟨_, _, hResult⟩ | ⟨hPresent, _, hResult⟩ | ⟨_, hResult, _⟩ |
    ⟨hAbsent, _, frame, _, hLt, hClear, hResult⟩
  · rw [hResult]
    exact ⟨h.inv, h.ready, Grows.refl h.inv, by simp⟩
  · rw [hResult]
    refine ⟨h.raise pteFlags, h.ready, h.raise_grows pteFlags, ?_⟩
    rintro child ⟨⟩
    have hSame := @raise_table k root table i pteFlags path
    obtain ⟨hNext, hKeep, hW, hU⟩ := raised_entry (k.mem (slot table i)) pteFlags
    have hEntry : (k.write (slot table i) (k.mem (slot table i) ||| innerFlags pteFlags)).entry
        root path i = some (k.mem (slot table i) ||| innerFlags pteFlags) :=
      Kmem.entry_eq_some.mpr ⟨table, hSame.trans h.reached, Kmem.write_mem_self _ _ _⟩
    refine ⟨?_, _, hEntry, ?_, ?_, ?_⟩
    · rw [Kmem.table_concat, hEntry, Option.bind_some, hNext, pteNext_of_present hPresent]
    · rw [hKeep 0 (by decide) (by decide), hPresent]
    · intro hb
      rw [hW, hb, Bool.or_true]
    · intro hb
      rw [hU, hb, Bool.or_true]
  · rw [hResult]
    exact ⟨h.inv, h.ready, Grows.refl h.inv, by simp⟩
  · rw [hResult]
    have hNew : NewTable k root path table i frame := ⟨h, hAbsent, hLt, hClear⟩
    refine ⟨hNew.asInv pteFlags, h.ready.take hLt hClear, hNew.grows pteFlags, ?_⟩
    rintro child ⟨⟩
    obtain ⟨hNext, _, _, hW, hU⟩ := tableEntry_bits hNew.isFrame pteFlags
    refine ⟨hNew.table_here pteFlags, _, hNew.entry_here pteFlags,
      (present_of_pteNext hNext).1, ?_, ?_⟩
    · rw [hW]
      exact id
    · rw [hU]
      exact id

/-- A read-only walk changes nothing and finds exactly the existing table. -/
theorem InnerSlot.nextLevel_readOnly :
    getNextLevel k table i false 0 = (k.table root (path ++ [i]), k) := by
  have hEntry : k.entry root path i = some (k.mem (slot table i)) :=
    Kmem.entry_eq_some.mpr ⟨table, h.reached, rfl⟩
  rw [Kmem.table_concat, hEntry, Option.bind_some]
  rcases getNextLevel_cases h.ready table i false 0 with
    ⟨hPresent, hPs, _⟩ | ⟨hPresent, _, hResult⟩ | ⟨hAbsent, hResult, _⟩ | ⟨_, hFalse, _⟩
  · have hInner := h.inv.inner path i _ h.valid h.short h.lower hEntry hPresent
    simp [hPs] at hInner
  · rw [hResult, innerFlags_zero, Nat.or_zero, Kmem.write_self, pteNext_of_present hPresent]
  · rw [hResult, pteNext_of_absent hAbsent]
  · cases hFalse

end NextLevel

/-! ### Mapping and unmapping one page -/

section Map

variable {k : Kmem} {root va : Nat}

/-- The leaf of an address. -/
def Kmem.leafOf (k : Kmem) (root va : Nat) : Option Nat := k.leaf root (vaPath va) (ptIndex va)

theorem leafOf_page {k : Kmem} {root : Nat} (h : va / pmmPageSize = vb / pmmPageSize) :
    k.leafOf root va = k.leafOf root vb := by
  obtain ⟨hPath, hIndex⟩ := vaPath_of_page_eq h
  rw [Kmem.leafOf, Kmem.leafOf, hPath, hIndex]

/-- A leaf store at the page of `va` is seen by exactly the addresses of that
page. -/
theorem AsInv.leafOf_write (h : AsInv k root) (hva : va < 2 ^ 47) {value : Nat}
    (hPt : k.table root (vaPath va) = some pt) (hvb : vb < 2 ^ 47) :
    (k.write (slot pt (ptIndex va)) value).leafOf root vb =
      if vb / pmmPageSize = va / pmmPageSize then (some value).filter (fun e => e.testBit 0)
      else k.leafOf root vb := by
  unfold Kmem.leafOf Kmem.leaf
  rw [h.leaf_entry (tablePath_vaPath hva) hPt rfl (ptIndex_lt va) (tablePath_vaPath hvb)
    (ptIndex_lt vb)]
  by_cases hPage : vb / pmmPageSize = va / pmmPageSize
  · rw [if_pos hPage, if_pos (vaPath_of_page_eq hPage)]
  · rw [if_neg hPage, if_neg]
    rintro ⟨hPath, hIndex⟩
    exact hPage (page_eq_of_path hvb hva hPath hIndex)

theorem AsInv.tablesGrow_write (h : AsInv k root) (hva : va < 2 ^ 47)
    (hPt : k.table root (vaPath va) = some pt) (value : Nat) :
    TablesGrow k (k.write (slot pt (ptIndex va)) value) root :=
  TablesGrow.of_table_eq h
    (fun _ hq => h.leaf_table (tablePath_vaPath hva) hPt rfl (ptIndex_lt va) hq) rfl

theorem AsInv.ownWrites_write (h : AsInv k root) (hva : va < 2 ^ 47)
    (hPt : k.table root (vaPath va) = some pt) (value : Nat) :
    OwnWrites k (k.write (slot pt (ptIndex va)) value) root :=
  OwnWrites.write (tablePath_vaPath hva) ⟨ptIndex_lt va, by simp [vaPath]⟩
    ((h.leaf_table (tablePath_vaPath hva) hPt rfl (ptIndex_lt va) (tablePath_vaPath hva)).trans hPt)

/-- The three calls of `get_next_level` that `vmm_map_page` and
`vmm_unmap_page` begin with. -/
def walkTables (k : Kmem) (root va : Nat) (allocate : Bool) (pteFlags : Nat) : Option Nat × Kmem :=
  match getNextLevel k root (pml4Index va) allocate pteFlags with
  | (none, k) => (none, k)
  | (some pdpt, k) =>
    match getNextLevel k pdpt (pdptIndex va) allocate pteFlags with
    | (none, k) => (none, k)
    | (some pd, k) => getNextLevel k pd (pdIndex va) allocate pteFlags

theorem vmmMapPage_eq (hva : va < 2 ^ 47) (hAligned : va % pmmPageSize = 0) (hPhys : IsFrame phys)
    (flags : Nat) :
    vmmMapPage k root va phys flags =
      match walkTables k root va true (flagsToPte flags) with
      | (none, k) => (false, k)
      | (some pt, k) =>
        if (k.mem (slot pt (ptIndex va))).testBit 0 then (false, k)
        else (true, k.write (slot pt (ptIndex va)) (leafEntry phys flags)) := by
  unfold vmmMapPage walkTables
  simp only [isCanonical_of_lower hva, Bool.not_true, Bool.false_eq_true, if_false, hAligned,
    hPhys.1, ne_eq, not_true_eq_false, or_false, hasFlag_present, leafEntry]
  rcases getNextLevel k root (pml4Index va) true (flagsToPte flags) with ⟨_ | pdpt, k₁⟩
  · rfl
  · dsimp only
    rcases getNextLevel k₁ pdpt (pdptIndex va) true (flagsToPte flags) with ⟨_ | pd, k₂⟩
    · rfl
    · cases hTable : getNextLevel k₂ pd (pdIndex va) true (flagsToPte flags) with
      | mk pt k₃ => cases pt <;> simp only [hTable]

/-- The first page of the non-canonical hole cannot be mapped. -/
theorem vmmMapPage_hole (k : Kmem) (pml4 phys flags : Nat) :
    vmmMapPage k pml4 (2 ^ 47) phys flags = (false, k) := by
  have hHole : isCanonical (2 ^ 47) = false := by decide
  unfold vmmMapPage
  rfl

theorem vmmUnmapPage_eq (hva : va < 2 ^ 47) (hAligned : va % pmmPageSize = 0) :
    vmmUnmapPage k root va =
      match walkTables k root va false 0 with
      | (none, k) => (false, k)
      | (some pt, k) =>
        if !(k.mem (slot pt (ptIndex va))).testBit 0 then (false, k)
        else (true, k.write (slot pt (ptIndex va)) 0) := by
  unfold vmmUnmapPage walkTables
  simp only [isCanonical_of_lower hva, Bool.not_true, Bool.false_eq_true, if_false, hAligned,
    ne_eq, not_true_eq_false, hasFlag_present]
  rcases getNextLevel k root (pml4Index va) false 0 with ⟨_ | pdpt, k₁⟩
  · rfl
  · dsimp only
    rcases getNextLevel k₁ pdpt (pdptIndex va) false 0 with ⟨_ | pd, k₂⟩
    · rfl
    · cases hTable : getNextLevel k₂ pd (pdIndex va) false 0 with
      | mk pt k₃ => cases pt <;> simp only [hTable]

/-- Every intermediate entry above the page carries the requested permissions. -/
def Kmem.Raised (k : Kmem) (root va pteFlags : Nat) : Prop :=
  ∀ before j after e, vaPath va = before ++ j :: after → k.entry root before j = some e →
    (pteFlags.testBit 1 = true → e.testBit 1 = true) ∧
    (pteFlags.testBit 2 = true → e.testBit 2 = true)

/-- The walk keeps the tree valid. When it succeeds it has reached the
last-level table, with the requested permissions on every entry above it. -/
theorem AsInv.walk (h : AsInv k root) (hReady : k.pmm.Ready) (hva : va < 2 ^ 47)
    (allocate : Bool) (pteFlags : Nat) :
    AsInv (walkTables k root va allocate pteFlags).2 root ∧
    (walkTables k root va allocate pteFlags).2.pmm.Ready ∧
    Grows k (walkTables k root va allocate pteFlags).2 root ∧
    ∀ pt, (walkTables k root va allocate pteFlags).1 = some pt →
      (walkTables k root va allocate pteFlags).2.table root (vaPath va) = some pt ∧
      (walkTables k root va allocate pteFlags).2.Raised root va pteFlags := by
  unfold walkTables
  obtain ⟨hInv₁, hReady₁, hGrows₁, hNext₁⟩ :=
    (h.pml4Slot hReady hva).nextLevel allocate pteFlags
  generalize getNextLevel k root (pml4Index va) allocate pteFlags = r₁
    at hInv₁ hReady₁ hGrows₁ hNext₁ ⊢
  obtain ⟨_ | pdpt, k₁⟩ := r₁
  · exact ⟨hInv₁, hReady₁, hGrows₁, by simp⟩
  obtain ⟨hPdpt, e₁, hEntry₁, hBit₁, hW₁, hU₁⟩ := hNext₁ pdpt rfl
  obtain ⟨hInv₂, hReady₂, hGrows₂, hNext₂⟩ :=
    (hInv₁.pdptSlot hReady₁ hva hPdpt).nextLevel allocate pteFlags
  dsimp only at hInv₂ hReady₂ hGrows₂ hNext₂ hGrows₁ hEntry₁ ⊢
  generalize getNextLevel k₁ pdpt (pdptIndex va) allocate pteFlags = r₂
    at hInv₂ hReady₂ hGrows₂ hNext₂ ⊢
  obtain ⟨_ | pd, k₂⟩ := r₂
  · exact ⟨hInv₂, hReady₂, hGrows₁.trans hGrows₂, by simp⟩
  obtain ⟨hPd, e₂, hEntry₂, hBit₂, hW₂, hU₂⟩ := hNext₂ pd rfl
  obtain ⟨hInv₃, hReady₃, hGrows₃, hNext₃⟩ :=
    (hInv₂.pdSlot hReady₂ hva hPd).nextLevel allocate pteFlags
  refine ⟨hInv₃, hReady₃, (hGrows₁.trans hGrows₂).trans hGrows₃, ?_⟩
  intro pt hPt
  obtain ⟨hTable, e₃, hEntry₃, _, hW₃, hU₃⟩ := hNext₃ pt hPt
  refine ⟨hTable, ?_⟩
  -- entries raised at the first two levels keep their permissions below
  obtain ⟨f₁, hf₁, _, hw₁, hu₁⟩ := (hGrows₂.trans hGrows₃).inner _ _ e₁
    TablePath.nil (by simp) (lowerSlot_pml4 hva) hEntry₁ hBit₁
  obtain ⟨f₂, hf₂, _, hw₂, hu₂⟩ := hGrows₃.inner _ _ e₂
    (tablePath_one hva) (by simp) (lowerSlot_pdpt va) hEntry₂ hBit₂
  intro before j after e hSplit he
  rcases vaPath_split hSplit with ⟨rfl, rfl⟩ | ⟨rfl, rfl⟩ | ⟨rfl, rfl⟩
  · obtain rfl := Option.some.inj (hf₁.symm.trans he)
    exact ⟨hw₁ ∘ hW₁, hu₁ ∘ hU₁⟩
  · obtain rfl := Option.some.inj (hf₂.symm.trans he)
    exact ⟨hw₂ ∘ hW₂, hu₂ ∘ hU₂⟩
  · obtain rfl := Option.some.inj (hEntry₃.symm.trans he)
    exact ⟨hW₃, hU₃⟩

theorem AsInv.walk_readOnly (h : AsInv k root) (hReady : k.pmm.Ready) (hva : va < 2 ^ 47) :
    walkTables k root va false 0 = (k.table root (vaPath va), k) := by
  have hSplit₁ : k.table root [pml4Index va, pdptIndex va] =
      (k.table root [pml4Index va]).bind (fun t => tableAt pteNext k.mem t [pdptIndex va]) :=
    tableAt_append k.mem root [pml4Index va] [pdptIndex va]
  have hSplit₂ : k.table root (vaPath va) = (k.table root [pml4Index va, pdptIndex va]).bind
      (fun t => tableAt pteNext k.mem t [pdIndex va]) :=
    tableAt_append k.mem root [pml4Index va, pdptIndex va] [pdIndex va]
  unfold walkTables
  rw [(h.pml4Slot hReady hva).nextLevel_readOnly]
  simp only [List.nil_append]
  cases hPdpt : k.table root [pml4Index va] with
  | none =>
    rw [hPdpt, Option.bind_none] at hSplit₁
    rw [hSplit₁, Option.bind_none] at hSplit₂
    rw [hSplit₂]
  | some pdpt =>
    dsimp only
    rw [(h.pdptSlot hReady hva hPdpt).nextLevel_readOnly]
    simp only [List.cons_append, List.nil_append]
    cases hPd : k.table root [pml4Index va, pdptIndex va] with
    | none =>
      rw [hPd, Option.bind_none] at hSplit₂
      rw [hSplit₂]
    | some pd =>
      exact (h.pdSlot hReady hva hPd).nextLevel_readOnly

theorem leafOf_of_table (hPt : k.table root (vaPath va) = some pt) :
    k.leafOf root va = (some (k.mem (slot pt (ptIndex va)))).filter (fun e => e.testBit 0) := by
  rw [Kmem.leafOf, Kmem.leaf, Kmem.entry_eq_some.mpr ⟨pt, hPt, rfl⟩]

theorem leafOf_of_no_table (hPt : k.table root (vaPath va) = none) : k.leafOf root va = none := by
  have hEntry : k.entry root (vaPath va) (ptIndex va) =
      (k.table root (vaPath va)).map (fun leaf => k.mem (slot leaf (ptIndex va))) := rfl
  rw [Kmem.leafOf, Kmem.leaf, hEntry, hPt]
  rfl

/-- What one call does to the leaves: `changed` is the new leaf of the page of
`va`, when the call succeeds. -/
structure LeafUpdate (k k' : Kmem) (root va : Nat) (success : Bool) (changed : Option Nat) :
    Prop where
  inv : AsInv k' root
  ready : k'.pmm.Ready
  growth : TablesGrow k k' root
  writes : OwnWrites k k' root
  leaves : ∀ vb < 2 ^ 47, k'.leafOf root vb =
    if success = true ∧ vb / pmmPageSize = va / pmmPageSize then changed else k.leafOf root vb

theorem LeafUpdate.refused {k' : Kmem} (hInv : AsInv k' root) (hReady : k'.pmm.Ready)
    (hGrows : Grows k k' root) (changed : Option Nat) : LeafUpdate k k' root va false changed where
  inv := hInv
  ready := hReady
  growth := hGrows.toTablesGrow
  writes := hGrows.toOwnWrites
  leaves := by
    intro vb hvb
    exact hGrows.leaves _ _ (tablePath_vaPath hvb) rfl (ptIndex_lt vb)

/-- The result of `vmm_map_page` on a lower-half address. -/
theorem AsInv.mapPage (h : AsInv k root) (hReady : k.pmm.Ready) (hva : va < 2 ^ 47)
    (hPhys : IsFrame phys) (flags : Nat) :
    LeafUpdate k (vmmMapPage k root va phys flags).2 root va (vmmMapPage k root va phys flags).1
      (some (leafEntry phys flags)) ∧
    ((vmmMapPage k root va phys flags).1 = true →
      va % pmmPageSize = 0 ∧ k.leafOf root va = none) := by
  by_cases hAligned : va % pmmPageSize = 0
  · rw [vmmMapPage_eq hva hAligned hPhys]
    obtain ⟨hInv, hReady', hGrows, hReached⟩ := h.walk hReady hva true (flagsToPte flags)
    rcases hWalk : walkTables k root va true (flagsToPte flags) with ⟨_ | pt, k'⟩ <;>
      rw [hWalk] at hInv hReady' hGrows hReached <;> dsimp only at hInv hReady' hGrows hReached ⊢
    · exact ⟨LeafUpdate.refused hInv hReady' hGrows _, by simp⟩
    obtain ⟨hPt, hRaised⟩ := hReached pt rfl
    have hBits := leafEntry_bits hPhys flags
    have hPteW := testBit_flagsToPte flags 1
    have hPteU := testBit_flagsToPte flags 2
    cases hPresent : (k'.mem (slot pt (ptIndex va))).testBit 0 with
    | true => exact ⟨LeafUpdate.refused hInv hReady' hGrows _, by simp⟩
    | false =>
      simp only [Bool.false_eq_true, if_false]
      have hStore := hInv.tablesGrow_write hva hPt (leafEntry phys flags)
      refine ⟨⟨?_, hReady', hGrows.toTablesGrow.trans hStore, hGrows.toOwnWrites.trans
        (hInv.ownWrites_write hva hPt _) hGrows.toTablesGrow hStore, ?_⟩, fun _ => ⟨hAligned, ?_⟩⟩
      · apply hInv.leaf_write (tablePath_vaPath hva) hPt rfl (ptIndex_lt va)
        intro _ before j after e hSplit he
        have hEntry := hRaised before j after e hSplit he
        rw [hBits.2.2.1, hBits.2.2.2.1]
        simpa [hPteW, hPteU] using hEntry
      · intro vb hvb
        rw [hInv.leafOf_write hva hPt hvb]
        have hSame := hGrows.leaves _ _ (tablePath_vaPath hvb) rfl (ptIndex_lt vb)
        simp only [Option.filter, hBits.2.1, if_true, true_and]
        split
        · rfl
        · exact hSame
      · have hSame := hGrows.leaves _ _ (tablePath_vaPath hva) rfl (ptIndex_lt va)
        rw [Kmem.leafOf, ← hSame]
        change k'.leafOf root va = none
        rw [leafOf_of_table hPt]
        simp [Option.filter, hPresent]
  · have hFalse : vmmMapPage k root va phys flags = (false, k) := by
      simp [vmmMapPage, isCanonical_of_lower hva, hAligned]
    rw [hFalse]
    exact ⟨LeafUpdate.refused h hReady (Grows.refl h) _, by simp⟩

/-- The result of `vmm_unmap_page` on a lower-half address. -/
theorem AsInv.unmapPage (h : AsInv k root) (hReady : k.pmm.Ready) (hva : va < 2 ^ 47) :
    LeafUpdate k (vmmUnmapPage k root va).2 root va (vmmUnmapPage k root va).1 none ∧
    ((vmmUnmapPage k root va).1 = true ↔ va % pmmPageSize = 0 ∧ k.leafOf root va ≠ none) := by
  by_cases hAligned : va % pmmPageSize = 0
  · rw [vmmUnmapPage_eq hva hAligned, h.walk_readOnly hReady hva]
    cases hPt : k.table root (vaPath va) with
    | none =>
      exact ⟨LeafUpdate.refused h hReady (Grows.refl h) _, by simp [leafOf_of_no_table hPt]⟩
    | some pt =>
      dsimp only
      have hLeaf := leafOf_of_table hPt
      cases hPresent : (k.mem (slot pt (ptIndex va))).testBit 0 with
      | false =>
        rw [Option.filter_some, hPresent] at hLeaf
        exact ⟨LeafUpdate.refused h hReady (Grows.refl h) _, by simp [hLeaf]⟩
      | true =>
        rw [Option.filter_some, hPresent] at hLeaf
        simp only [Bool.not_true, Bool.false_eq_true, if_false]
        refine ⟨⟨?_, hReady, h.tablesGrow_write hva hPt _, h.ownWrites_write hva hPt _, ?_⟩,
          by simp [hLeaf, hAligned]⟩
        · apply h.leaf_write (tablePath_vaPath hva) hPt rfl (ptIndex_lt va)
          simp
        · intro vb hvb
          rw [h.leafOf_write hva hPt hvb]
          simp [Option.filter]
  · have hFalse : vmmUnmapPage k root va = (false, k) := by
      simp [vmmUnmapPage, isCanonical_of_lower hva, hAligned]
    rw [hFalse]
    exact ⟨LeafUpdate.refused h hReady (Grows.refl h) _, by simp [hAligned]⟩

end Map

/-! ### Reading translations -/

/-- The four entries on the hardware walk of an address. -/
def Kmem.pml4e (k : Kmem) (root va : Nat) : Nat := k.mem (slot root (pml4Index va))
@[inherit_doc Kmem.pml4e]
def Kmem.pdpte (k : Kmem) (root va : Nat) : Nat :=
  k.mem (slot (k.pml4e root va &&& pteFrameMask) (pdptIndex va))
@[inherit_doc Kmem.pml4e]
def Kmem.pde (k : Kmem) (root va : Nat) : Nat :=
  k.mem (slot (k.pdpte root va &&& pteFrameMask) (pdIndex va))
@[inherit_doc Kmem.pml4e]
def Kmem.pte (k : Kmem) (root va : Nat) : Nat :=
  k.mem (slot (k.pde root va &&& pteFrameMask) (ptIndex va))

/-- The permissions the processor enforces: a page is user-accessible or
writable when all four entries allow it, and not executable when any entry
forbids it. -/
def effectiveUser (k : Kmem) (root va : Nat) : Bool :=
  [k.pml4e root va, k.pdpte root va, k.pde root va, k.pte root va].all (hasFlag · pteUser)
@[inherit_doc effectiveUser]
def effectiveWritable (k : Kmem) (root va : Nat) : Bool :=
  [k.pml4e root va, k.pdpte root va, k.pde root va, k.pte root va].all (hasFlag · pteWritable)
@[inherit_doc effectiveUser]
def effectiveNoExecute (k : Kmem) (root va : Nat) : Bool :=
  [k.pml4e root va, k.pdpte root va, k.pde root va, k.pte root va].any (hasFlag · pteNoExecute)

section Read

variable {k : Kmem} {root va : Nat}

theorem leafOf_eq (k : Kmem) (root va : Nat) :
    k.leafOf root va =
      if (k.pml4e root va).testBit 0 ∧ (k.pdpte root va).testBit 0 ∧ (k.pde root va).testBit 0 ∧
        (k.pte root va).testBit 0 then some (k.pte root va) else none := by
  unfold Kmem.leafOf Kmem.leaf Kmem.entry entryAt vaPath
  change ((((pteNext (k.pml4e root va)).bind _).map _).filter _) = _
  cases h₁ : (k.pml4e root va).testBit 0 with
  | false => simp [pteNext_of_absent h₁]
  | true =>
    simp only [pteNext_of_present h₁, Option.bind_some]
    change ((((pteNext (k.pdpte root va)).bind _).map _).filter _) = _
    cases h₂ : (k.pdpte root va).testBit 0 with
    | false => simp [pteNext_of_absent h₂]
    | true =>
      simp only [pteNext_of_present h₂, Option.bind_some]
      change ((((pteNext (k.pde root va)).bind _).map _).filter _) = _
      cases h₃ : (k.pde root va).testBit 0 with
      | false => simp [pteNext_of_absent h₃]
      | true =>
        simp only [pteNext_of_present h₃, Option.bind_some]
        change (some (k.pte root va)).filter _ = _
        rw [Option.filter_some]
        simp

variable (h : AsInv k root) (hva : va < 2 ^ 47)

include h hva

theorem AsInv.pml4e_inner (h₁ : (k.pml4e root va).testBit 0 = true) :
    (k.pml4e root va).testBit 7 = false ∧ (k.pml4e root va).testBit 63 = false :=
  h.inner [] _ _ TablePath.nil (by simp) (lowerSlot_pml4 hva)
    (Kmem.entry_eq_some.mpr ⟨root, rfl, rfl⟩) h₁

omit h hva in
theorem entry_pdpte (h₁ : (k.pml4e root va).testBit 0 = true) :
    k.entry root [pml4Index va] (pdptIndex va) = some (k.pdpte root va) := by
  refine Kmem.entry_eq_some.mpr ⟨k.pml4e root va &&& pteFrameMask, ?_, rfl⟩
  change (pteNext (k.pml4e root va)).bind _ = _
  rw [pteNext_of_present h₁]
  rfl

omit h hva in
theorem entry_pde (h₁ : (k.pml4e root va).testBit 0 = true)
    (h₂ : (k.pdpte root va).testBit 0 = true) :
    k.entry root [pml4Index va, pdptIndex va] (pdIndex va) = some (k.pde root va) := by
  refine Kmem.entry_eq_some.mpr ⟨k.pdpte root va &&& pteFrameMask, ?_, rfl⟩
  have hConcat := k.table_concat root (pdptIndex va) [pml4Index va]
  rw [entry_pdpte h₁, Option.bind_some, pteNext_of_present h₂] at hConcat
  exact hConcat

omit h hva in
theorem entry_pte (h₁ : (k.pml4e root va).testBit 0 = true)
    (h₂ : (k.pdpte root va).testBit 0 = true) (h₃ : (k.pde root va).testBit 0 = true) :
    k.entry root (vaPath va) (ptIndex va) = some (k.pte root va) := by
  refine Kmem.entry_eq_some.mpr ⟨k.pde root va &&& pteFrameMask, ?_, rfl⟩
  have hConcat := k.table_concat root (pdIndex va) [pml4Index va, pdptIndex va]
  rw [entry_pde h₁ h₂, Option.bind_some, pteNext_of_present h₃] at hConcat
  exact hConcat

theorem AsInv.pdpte_inner (h₁ : (k.pml4e root va).testBit 0 = true)
    (h₂ : (k.pdpte root va).testBit 0 = true) :
    (k.pdpte root va).testBit 7 = false ∧ (k.pdpte root va).testBit 63 = false :=
  h.inner _ _ _ (tablePath_one hva) (by simp) (lowerSlot_pdpt va) (entry_pdpte h₁) h₂

theorem AsInv.pde_inner (h₁ : (k.pml4e root va).testBit 0 = true)
    (h₂ : (k.pdpte root va).testBit 0 = true) (h₃ : (k.pde root va).testBit 0 = true) :
    (k.pde root va).testBit 7 = false ∧ (k.pde root va).testBit 63 = false :=
  h.inner _ _ _ (tablePath_two hva) (by simp) (lowerSlot_pd va) (entry_pde h₁ h₂) h₃

/-- `vmm_get_phys` reads the leaf. -/
theorem AsInv.getPhys : vmmGetPhys k root va =
    (k.leafOf root va).map (fun e => (e &&& pteFrameMask) + va % pmmPageSize) := by
  have hOffset : va &&& 0xFFF = va % pmmPageSize := Nat.and_two_pow_sub_one_eq_mod va 12
  have hSum : ∀ e, u64 ((e &&& pteFrameMask) + va % pmmPageSize) =
      (e &&& pteFrameMask) + va % pmmPageSize := by
    intro e
    apply u64_of_lt
    have hFrame := (isFrame_and_mask e).2
    have hMod : va % pmmPageSize < pmmPageSize := Nat.mod_lt _ (by decide)
    simp only [pmmPageSize] at hMod ⊢
    omega
  rw [leafOf_eq]
  unfold vmmGetPhys
  simp only [isCanonical_of_lower hva, Bool.not_true, Bool.false_eq_true, if_false, hasFlag_present,
    hasFlag_ps, hOffset, hSum]
  change (if (!(k.pml4e root va).testBit 0) = true then none
    else if (!(k.pdpte root va).testBit 0) = true then none
    else if (k.pdpte root va).testBit 7 = true then none
    else if (!(k.pde root va).testBit 0) = true then none
    else if (k.pde root va).testBit 7 = true then _
    else if (!(k.pte root va).testBit 0) = true then none
    else some ((k.pte root va &&& pteFrameMask) + va % pmmPageSize)) = _
  cases h₁ : (k.pml4e root va).testBit 0 with
  | false => simp
  | true =>
    cases h₂ : (k.pdpte root va).testBit 0 with
    | false => simp
    | true =>
      have hPs := (h.pdpte_inner hva h₁ h₂).1
      cases h₃ : (k.pde root va).testBit 0 with
      | false => simp [hPs]
      | true =>
        have hPs' := (h.pde_inner hva h₁ h₂ h₃).1
        cases h₄ : (k.pte root va).testBit 0 <;> simp [hPs, hPs']

/-- The entries above a mapped page are present and carry its permissions. -/
theorem AsInv.mapped_levels (hLeaf : k.leafOf root va = some e) :
    e = k.pte root va ∧ e.testBit 0 = true ∧
    ∀ inner ∈ [k.pml4e root va, k.pdpte root va, k.pde root va],
      inner.testBit 0 = true ∧ inner.testBit 7 = false ∧ inner.testBit 63 = false ∧
      (e.testBit 1 = true → inner.testBit 1 = true) ∧
      (e.testBit 2 = true → inner.testBit 2 = true) := by
  rw [leafOf_eq] at hLeaf
  split at hLeaf
  · rename_i hAll
    obtain ⟨h₁, h₂, h₃, h₄⟩ := hAll
    obtain rfl := (Option.some.inj hLeaf).symm
    have hPerms := h.perms (vaPath va) (ptIndex va) _ (tablePath_vaPath hva) rfl (ptIndex_lt va)
      (entry_pte h₁ h₂ h₃) h₄
    refine ⟨rfl, h₄, ?_⟩
    intro inner hInner
    simp only [List.mem_cons, List.not_mem_nil, or_false] at hInner
    rcases hInner with rfl | rfl | rfl
    · have hBits := h.pml4e_inner hva h₁
      exact ⟨h₁, hBits.1, hBits.2, hPerms [] _ _ _ rfl (Kmem.entry_eq_some.mpr ⟨root, rfl, rfl⟩)⟩
    · have hBits := h.pdpte_inner hva h₁ h₂
      exact ⟨h₂, hBits.1, hBits.2, hPerms [pml4Index va] _ _ _ rfl (entry_pdpte h₁)⟩
    · have hBits := h.pde_inner hva h₁ h₂ h₃
      exact ⟨h₃, hBits.1, hBits.2,
        hPerms [pml4Index va, pdptIndex va] _ [] _ rfl (entry_pde h₁ h₂)⟩
  · cases hLeaf

/-- The effective permissions of a mapped page are those of its leaf. -/
theorem AsInv.effective (hLeaf : k.leafOf root va = some e) :
    effectiveUser k root va = e.testBit 2 ∧ effectiveWritable k root va = e.testBit 1 ∧
    effectiveNoExecute k root va = e.testBit 63 := by
  obtain ⟨rfl, _, hInner⟩ := h.mapped_levels hva hLeaf
  have hAll₁ := hInner (k.pml4e root va) (by simp)
  have hAll₂ := hInner (k.pdpte root va) (by simp)
  have hAll₃ := hInner (k.pde root va) (by simp)
  simp only [effectiveUser, effectiveWritable, effectiveNoExecute, List.all_cons, List.all_nil,
    List.any_cons, List.any_nil, hasFlag_user, hasFlag_writable, hasFlag_noExecute]
  refine ⟨?_, ?_, ?_⟩
  · cases hUser : (k.pte root va).testBit 2 with
    | false => simp
    | true => simp [hAll₁.2.2.2.2 hUser, hAll₂.2.2.2.2 hUser, hAll₃.2.2.2.2 hUser]
  · cases hWritable : (k.pte root va).testBit 1 with
    | false => simp
    | true => simp [hAll₁.2.2.2.1 hWritable, hAll₂.2.2.2.1 hWritable, hAll₃.2.2.2.1 hWritable]
  · simp [hAll₁.2.2.1, hAll₂.2.2.1, hAll₃.2.2.1]

/-- A walk that requires presence and some of the permission flags succeeds
exactly on pages whose leaf has these flags. -/
theorem AsInv.userWalk_eq (required : Nat → Bool)
    (hRequired : ∀ e, required e = true → e.testBit 0 = true)
    (hInner : ∀ e inner, required e = true → inner.testBit 0 = true →
      (e.testBit 1 = true → inner.testBit 1 = true) →
      (e.testBit 2 = true → inner.testBit 2 = true) → required inner = true) :
    userWalk required k root va = (k.leafOf root va).any required := by
  unfold userWalk
  simp only [isCanonical_of_lower hva, Bool.not_true, Bool.false_eq_true, if_false, hasFlag_ps]
  change (if (!required (k.pml4e root va)) = true then false
    else if (!required (k.pdpte root va)) = true then false
    else if (k.pdpte root va).testBit 7 = true then true
    else if (!required (k.pde root va)) = true then false
    else if (k.pde root va).testBit 7 = true then true
    else required (k.pte root va)) = _
  cases hLeaf : k.leafOf root va with
  | some e =>
    obtain ⟨rfl, _, hLevels⟩ := h.mapped_levels hva hLeaf
    have hAll₁ := hLevels (k.pml4e root va) (by simp)
    have hAll₂ := hLevels (k.pdpte root va) (by simp)
    have hAll₃ := hLevels (k.pde root va) (by simp)
    rw [Option.any_some]
    cases hPte : required (k.pte root va) with
    | false => simp [hAll₂.2.1, hAll₃.2.1]
    | true =>
      have hReq₁ := hInner _ _ hPte hAll₁.1 hAll₁.2.2.2.1 hAll₁.2.2.2.2
      have hReq₂ := hInner _ _ hPte hAll₂.1 hAll₂.2.2.2.1 hAll₂.2.2.2.2
      have hReq₃ := hInner _ _ hPte hAll₃.1 hAll₃.2.2.2.1 hAll₃.2.2.2.2
      simp [hReq₁, hReq₂, hReq₃, hAll₂.2.1, hAll₃.2.1]
  | none =>
    rw [leafOf_eq] at hLeaf
    cases hReq₁ : required (k.pml4e root va) with
    | false => simp
    | true =>
      cases hReq₂ : required (k.pdpte root va) with
      | false => simp
      | true =>
        have h₁ := hRequired _ hReq₁
        have h₂ := hRequired _ hReq₂
        cases hReq₃ : required (k.pde root va) with
        | false => simp [(h.pdpte_inner hva h₁ h₂).1]
        | true =>
          have h₃ := hRequired _ hReq₃
          have hPs := (h.pdpte_inner hva h₁ h₂).1
          have hPs' := (h.pde_inner hva h₁ h₂ h₃).1
          cases hReq₄ : required (k.pte root va) with
          | false => simp [hPs, hPs']
          | true =>
            have h₄ := hRequired _ hReq₄
            simp [h₁, h₂, h₃, h₄] at hLeaf

theorem AsInv.isUserReadable : vmmIsUserReadable k root va =
    (k.leafOf root va).any (fun e => hasFlag e ptePresent && hasFlag e pteUser) := by
  apply h.userWalk_eq hva
  · intro e
    simp only [hasFlag_present, Bool.and_eq_true]
    exact fun he => he.1
  · simp only [hasFlag_present, hasFlag_user, Bool.and_eq_true]
    rintro e inner ⟨_, hUser⟩ hPresent _ hKeep
    exact ⟨hPresent, hKeep hUser⟩

theorem AsInv.isUserWritable : vmmIsUserWritable k root va =
    (k.leafOf root va).any
      (fun e => hasFlag e ptePresent && hasFlag e pteUser && hasFlag e pteWritable) := by
  apply h.userWalk_eq hva
  · intro e
    simp only [hasFlag_present, Bool.and_eq_true]
    exact fun he => he.1.1
  · simp only [hasFlag_present, hasFlag_user, hasFlag_writable, Bool.and_eq_true]
    rintro e inner ⟨⟨_, hUser⟩, hWritable⟩ hPresent hKeepW hKeepU
    exact ⟨⟨hPresent, hKeepU hUser⟩, hKeepW hWritable⟩

end Read

end Kryos.Memory
