import Kryos.Memory.VmmRefinement

/-! Whole runs over one address space. The lower half of an address space that
was created by `vmm_create_address_space` behaves as a partial map from pages to
frames with permissions, whatever happens elsewhere in the kernel. -/
namespace Kryos.Memory

open Function Radix Word

variable {k k' : Kmem} {root va : Nat} {path : List Nat} {m : PageMap} {success : Bool}
  {changed : Option Nat}

/-! ### The abstract map -/

/-- What a page is mapped to. -/
structure Mapping where
  frame : Nat
  user : Bool
  writable : Bool
  noExecute : Bool
  deriving DecidableEq, Repr

/-- The mapping that a call of `vmm_map_page` asks for. -/
def Mapping.requested (phys flags : Nat) : Mapping where
  frame := phys
  user := hasFlag flags vmmFlagUser
  writable := hasFlag flags vmmFlagWritable
  noExecute := hasFlag flags vmmFlagNoExecute

/-- Pages, by number, to mappings. -/
abbrev PageMap := Nat → Option Mapping

/-- The mapping recorded in a leaf entry. -/
def Mapping.ofLeaf (e : Nat) : Mapping where
  frame := e &&& pteFrameMask
  user := e.testBit 2
  writable := e.testBit 1
  noExecute := e.testBit 63

theorem Mapping.ofLeaf_leafEntry {phys : Nat} (hPhys : IsFrame phys) (flags : Nat) :
    Mapping.ofLeaf (leafEntry phys flags) = Mapping.requested phys flags := by
  obtain ⟨hFrame, _, hW, hU, hX⟩ := leafEntry_bits hPhys flags
  simp [Mapping.ofLeaf, Mapping.requested, hFrame, hW, hU, hX]

/-- The processor's translation of an address: where it goes, and the
permissions in force over all four levels. -/
def translation (k : Kmem) (root va : Nat) : Option Mapping :=
  (vmmGetPhys k root va).map fun phys =>
    { frame := phys
      user := effectiveUser k root va
      writable := effectiveWritable k root va
      noExecute := effectiveNoExecute k root va }

/-- The mapping of the page, moved to one address inside the page. -/
def Mapping.at (m : Mapping) (va : Nat) : Mapping := { m with frame := m.frame + va % pmmPageSize }

theorem AsInv.translation_eq (h : AsInv k root) (hva : va < 2 ^ 47) :
    translation k root va = (k.leafOf root va).map (fun e => (Mapping.ofLeaf e).at va) := by
  unfold translation
  rw [h.getPhys hva]
  cases hLeaf : k.leafOf root va with
  | none => rfl
  | some e =>
    obtain ⟨hU, hW, hX⟩ := h.effective hva hLeaf
    simp [Mapping.ofLeaf, Mapping.at, hU, hW, hX]

/-! ### Creation and interference -/

/-- A successful `vmm_create_address_space` takes one frame, whose lower half it
clears. -/
theorem vmmCreateAddressSpace_some (hReady : k.pmm.Ready)
    (hCreate : vmmCreateAddressSpace k = (some root, k')) :
    (∃ frame, 0 < frame ∧ root = frame * pmmPageSize ∧ frame < k.pmm.totalFrames ∧
      Bitmap.isSet k.pmm.bitmap frame = false ∧ k'.pmm = k.pmm.take frame) ∧
    ∀ i < 256, k'.mem (slot root i) = 0 := by
  unfold vmmCreateAddressSpace at hCreate
  rcases hReady.alloc with ⟨_, hFail⟩ | ⟨frame, hPos, hLt, hClear, hAlloc⟩
  · simp [hFail] at hCreate
  simp only [hAlloc, frame_beq_zero hPos, Bool.false_eq_true, if_false, Prod.mk.injEq,
    Option.some.injEq] at hCreate
  obtain ⟨rfl, rfl⟩ := hCreate
  refine ⟨⟨frame, hPos, rfl, hLt, hClear, rfl⟩, ?_⟩
  intro i hi
  exact if_pos (by simp only [slot]; omega)

section Empty

variable {k : Kmem} {root : Nat} (hEmpty : ∀ i < 256, k.mem (slot root i) = 0)

include hEmpty

theorem table_of_empty {path : List Nat} {table : Nat} (hPath : TablePath path)
    (hTable : k.table root path = some table) : path = [] ∧ table = root := by
  rcases path with _ | ⟨i, rest⟩
  · exact ⟨rfl, (Option.some.inj hTable).symm⟩
  · have hi : i < 256 := (hPath.2 [] i rest rfl).2 rfl
    rw [Kmem.table, tableAt_cons, hEmpty i hi, pteNext_of_absent (by simp)] at hTable
    cases hTable

theorem AsInv.of_empty {frame : Nat} (hRoot : root = frame * pmmPageSize)
    (hLt : frame < k.pmm.totalFrames) (hSet : Bitmap.isSet k.pmm.bitmap frame = true) :
    AsInv k root where
  unique := by
    intro path other table hPath hOther hTable hTable'
    rw [(table_of_empty hEmpty hPath hTable).1, (table_of_empty hEmpty hOther hTable').1]
  owned := by
    intro path table hPath hTable
    rw [(table_of_empty hEmpty hPath hTable).2]
    exact ⟨frame, hRoot, hLt, hSet⟩
  inner := by
    intro path i e hPath _ hi hEntry hPresent
    obtain ⟨table, hTable, rfl⟩ := Kmem.entry_eq_some.mp hEntry
    obtain ⟨rfl, rfl⟩ := table_of_empty hEmpty hPath hTable
    rw [hEmpty i (hi.2 rfl)] at hPresent
    simp at hPresent
  perms := by
    intro path i leaf hPath hLength _ hEntry
    obtain ⟨table, hTable, _⟩ := Kmem.entry_eq_some.mp hEntry
    rw [(table_of_empty hEmpty hPath hTable).1] at hLength
    simp at hLength

theorem leafOf_of_empty (hva : va < 2 ^ 47) : k.leafOf root va = none := by
  apply leafOf_of_no_table
  cases hTable : k.table root (vaPath va) with
  | none => rfl
  | some table => cases (table_of_empty hEmpty (tablePath_vaPath hva) hTable).1

end Empty

theorem AsInv.create (hReady : k.pmm.Ready) (hCreate : vmmCreateAddressSpace k = (some root, k')) :
    AsInv k' root ∧ k'.pmm.Ready := by
  obtain ⟨⟨frame, _, hRoot, hLt, hClear, hTake⟩, hEmpty⟩ :=
    vmmCreateAddressSpace_some hReady hCreate
  refine ⟨AsInv.of_empty hEmpty hRoot ?_ ?_, ?_⟩ <;> rw [hTake]
  · exact hLt
  · simp [Pmm.take]
  · exact hReady.take hLt hClear

/-- Other kernel code ran: it may allocate and free frames and write memory, but
it leaves the slots of the tables alone and does not free the tables. -/
structure LeavesTables (k k' : Kmem) (root : Nat) : Prop where
  ready : k'.pmm.Ready
  slots : ∀ a, k.OwnSlot root a → k'.mem a = k.mem a
  held : ∀ frame, k.TableFrame root frame →
    frame < k'.pmm.totalFrames ∧ Bitmap.isSet k'.pmm.bitmap frame = true

namespace LeavesTables

variable {k k' : Kmem} {root : Nat}

theorem table_eq (h : LeavesTables k k' root) (hPath : TablePath path) :
    k'.table root path = k.table root path := by
  apply tableAt_congr
  intro before i after table hSplit hTable
  obtain ⟨hBefore, hi⟩ := hPath.split hSplit
  exact h.slots _ ⟨before, table, i, hBefore, hTable, hi, rfl⟩

theorem entry_eq (h : LeavesTables k k' root) {i : Nat} (hPath : TablePath path)
    (hi : LowerSlot path i) : k'.entry root path i = k.entry root path i := by
  have hEntry (m : Kmem) : m.entry root path i =
      (m.table root path).map (fun table => m.mem (slot table i)) := rfl
  rw [hEntry, hEntry, h.table_eq hPath]
  cases hTable : k.table root path with
  | none => rfl
  | some table =>
    exact congrArg some (h.slots _ ⟨path, table, i, hPath, hTable, hi, rfl⟩)

theorem leafOf_eq (h : LeavesTables k k' root) (hva : va < 2 ^ 47) :
    k'.leafOf root va = k.leafOf root va := by
  unfold Kmem.leafOf Kmem.leaf
  rw [h.entry_eq (tablePath_vaPath hva) ⟨ptIndex_lt va, by simp [vaPath]⟩]

theorem asInv (h : LeavesTables k k' root) (hInv : AsInv k root) : AsInv k' root where
  unique := by
    intro path other table hPath hOther hTable hTable'
    rw [h.table_eq hPath] at hTable
    rw [h.table_eq hOther] at hTable'
    exact hInv.unique path other table hPath hOther hTable hTable'
  owned := by
    intro path table hPath hTable
    rw [h.table_eq hPath] at hTable
    obtain ⟨frame, rfl, _⟩ := hInv.owned path table hPath hTable
    exact ⟨frame, rfl, h.held frame ⟨path, hPath, hTable⟩⟩
  inner := by
    intro path i e hPath hLength hi hEntry
    rw [h.entry_eq hPath hi] at hEntry
    exact hInv.inner path i e hPath hLength hi hEntry
  perms := by
    intro path i leaf hPath hLength hi hEntry hPresent before j after e hSplit he
    obtain ⟨hBefore, hj⟩ := hPath.split hSplit
    have hLower : LowerSlot path i := ⟨hi, by rintro rfl; simp at hLength⟩
    rw [h.entry_eq hPath hLower] at hEntry
    rw [h.entry_eq hBefore hj] at he
    exact hInv.perms path i leaf hPath hLength hi hEntry hPresent before j after e hSplit he

end LeavesTables

/-! ### Runs -/

/-- The states of one address space, each with the map its calls amount to:
a successful `vmm_map_page` adds the requested entry, a successful
`vmm_unmap_page` removes the entry, and nothing else changes the map. -/
inductive VmmRun (root : Nat) : Kmem → PageMap → Prop where
  | create {k k' : Kmem} (hReady : k.pmm.Ready)
      (hCreate : vmmCreateAddressSpace k = (some root, k')) : VmmRun root k' (fun _ => none)
  | map {k : Kmem} {m : PageMap} (prior : VmmRun root k m) {va phys : Nat} (flags : Nat)
      (hva : va < 2 ^ 47) (hPhys : IsFrame phys) :
      VmmRun root (vmmMapPage k root va phys flags).2
        (if (vmmMapPage k root va phys flags).1
          then update m (va / pmmPageSize) (some (Mapping.requested phys flags)) else m)
  | unmap {k : Kmem} {m : PageMap} (prior : VmmRun root k m) {va : Nat} (hva : va < 2 ^ 47) :
      VmmRun root (vmmUnmapPage k root va).2
        (if (vmmUnmapPage k root va).1 then update m (va / pmmPageSize) none else m)
  | other {k k' : Kmem} {m : PageMap} (prior : VmmRun root k m) (h : LeavesTables k k' root) :
      VmmRun root k' m

/-- The page tables represent the map. -/
structure Represents (k : Kmem) (root : Nat) (m : PageMap) : Prop where
  inv : AsInv k root
  ready : k.pmm.Ready
  leaves : ∀ va < 2 ^ 47, (k.leafOf root va).map Mapping.ofLeaf = m (va / pmmPageSize)

theorem Represents.update (h : Represents k root m)
    (hUpdate : LeafUpdate k k' root va success changed) :
    Represents k' root
      (if success then update m (va / pmmPageSize) (changed.map Mapping.ofLeaf) else m) where
  inv := hUpdate.inv
  ready := hUpdate.ready
  leaves := by
    intro vb hvb
    rw [hUpdate.leaves vb hvb]
    cases success with
    | false => simpa using h.leaves vb hvb
    | true =>
      by_cases hPage : vb / pmmPageSize = va / pmmPageSize
      · simp [hPage]
      · simpa [hPage] using h.leaves vb hvb

/-- Every state of a run represents its map. -/
theorem VmmRun.represents (h : VmmRun root k m) : Represents k root m := by
  induction h with
  | create hReady hCreate =>
    obtain ⟨hInv, hReady'⟩ := AsInv.create hReady hCreate
    refine ⟨hInv, hReady', ?_⟩
    intro va hva
    rw [leafOf_of_empty (vmmCreateAddressSpace_some hReady hCreate).2 hva]
    rfl
  | map _ flags hva hPhys ih =>
    have hNext := ih.update (ih.inv.mapPage ih.ready hva hPhys flags).1
    rwa [Option.map_some, Mapping.ofLeaf_leafEntry hPhys] at hNext
  | unmap _ hva ih => exact ih.update (ih.inv.unmapPage ih.ready hva).1
  | other _ hLeaves ih =>
    refine ⟨hLeaves.asInv ih.inv, hLeaves.ready, ?_⟩
    intro va hva
    rw [hLeaves.leafOf_eq hva]
    exact ih.leaves va hva

theorem Represents.leafOf_eq_none_iff (h : Represents k root m) (hva : va < 2 ^ 47) :
    k.leafOf root va = none ↔ m (va / pmmPageSize) = none := by
  rw [← h.leaves va hva, Option.map_eq_none_iff]

/-- The user checks of a leaf, in terms of the mapping it records. -/
theorem Represents.isUser (h : Represents k root m) (hva : va < 2 ^ 47) :
    vmmIsUserReadable k root va = (m (va / pmmPageSize)).any (·.user) ∧
    vmmIsUserWritable k root va = (m (va / pmmPageSize)).any (fun e => e.user && e.writable) := by
  rw [h.inv.isUserReadable hva, h.inv.isUserWritable hva, ← h.leaves va hva]
  cases hLeaf : k.leafOf root va with
  | none => exact ⟨rfl, rfl⟩
  | some e =>
    have hPresent := (Kmem.leaf_eq_some.mp hLeaf).2
    simp only [Option.any_some, Option.map_some, hasFlag_present, hasFlag_user, hasFlag_writable,
      hPresent, Bool.true_and, Mapping.ofLeaf, and_self]

theorem Represents.translation_update (h : Represents k root m)
    (hUpdate : LeafUpdate k k' root va success changed) {vb : Nat} (hvb : vb < 2 ^ 47) :
    translation k' root vb =
      if success = true ∧ vb / pmmPageSize = va / pmmPageSize
      then changed.map (fun e => (Mapping.ofLeaf e).at vb) else translation k root vb := by
  rw [hUpdate.inv.translation_eq hvb, h.inv.translation_eq hvb, hUpdate.leaves vb hvb]
  split <;> rfl

/-- The lower half of an address space is a partial map from pages to frames
with permissions, in every state of every run. Reads agree with the map; a
successful call changes exactly the entry of its page, and a refused call
changes no translation. -/
theorem vmm_refines_pageMap {root : Nat} {k : Kmem} {m : PageMap} (hRun : VmmRun root k m) :
    (∀ va < 2 ^ 47, vmmGetPhys k root va =
      (m (va / pmmPageSize)).map (fun e => e.frame + va % pmmPageSize)) ∧
    (∀ va < 2 ^ 47, ∀ e, m (va / pmmPageSize) = some e →
      effectiveUser k root va = e.user ∧ effectiveWritable k root va = e.writable ∧
      effectiveNoExecute k root va = e.noExecute) ∧
    (∀ va < 2 ^ 47, vmmIsUserReadable k root va = (m (va / pmmPageSize)).any (·.user) ∧
      vmmIsUserWritable k root va =
        (m (va / pmmPageSize)).any (fun e => e.user && e.writable)) ∧
    (∀ va < 2 ^ 47, ∀ phys flags, IsFrame phys →
      ((vmmMapPage k root va phys flags).1 = true →
        va % pmmPageSize = 0 ∧ m (va / pmmPageSize) = none) ∧
      ∀ vb < 2 ^ 47, translation (vmmMapPage k root va phys flags).2 root vb =
        if (vmmMapPage k root va phys flags).1 = true ∧ vb / pmmPageSize = va / pmmPageSize
        then some ((Mapping.requested phys flags).at vb) else translation k root vb) ∧
    (∀ va < 2 ^ 47,
      ((vmmUnmapPage k root va).1 = true ↔ va % pmmPageSize = 0 ∧ m (va / pmmPageSize) ≠ none) ∧
      ∀ vb < 2 ^ 47, translation (vmmUnmapPage k root va).2 root vb =
        if (vmmUnmapPage k root va).1 = true ∧ vb / pmmPageSize = va / pmmPageSize
        then none else translation k root vb) := by
  have h := hRun.represents
  refine ⟨?_, ?_, fun va hva => h.isUser hva, ?_, ?_⟩
  · intro va hva
    rw [h.inv.getPhys hva, ← h.leaves va hva, Option.map_map]
    rfl
  · intro va hva e he
    rw [← h.leaves va hva, Option.map_eq_some_iff] at he
    obtain ⟨leaf, hLeaf, rfl⟩ := he
    exact h.inv.effective hva hLeaf
  · intro va hva phys flags hPhys
    obtain ⟨hUpdate, hFree⟩ := h.inv.mapPage h.ready hva hPhys flags
    refine ⟨?_, ?_⟩
    · rw [← h.leafOf_eq_none_iff hva]
      exact hFree
    · intro vb hvb
      rw [h.translation_update hUpdate hvb, Option.map_some, Mapping.ofLeaf_leafEntry hPhys]
  · intro va hva
    obtain ⟨hUpdate, hMapped⟩ := h.inv.unmapPage h.ready hva
    refine ⟨?_, fun vb hvb => h.translation_update hUpdate hvb⟩
    rw [hMapped, ne_eq, ne_eq, h.leafOf_eq_none_iff hva]

/-- Sixteen frames, of which all but the first are free. -/
def sixteenFrames : Pmm where
  bitmap := fun i => if i = 0 then 1 else 0
  totalFrames := 16
  usedFrames := 1
  maxPhysicalAddress := 16 * pmmPageSize
  bitmapPhysAddr := 0
  bitmapSize := 2

theorem sixteenFrames_ready : sixteenFrames.Ready where
  consistent :=
    { aligned := rfl
      bounded := by decide
      size := rfl
      spare := by
        intro i hLow hHigh
        simp only [sixteenFrames] at hLow hHigh
        omega
      count := by decide }
  reserved := by
    intro frame _ hBelow
    obtain rfl : frame = 0 := by
      simp only [sixteenFrames, Pmm.bitmapEnd, pmmPageSize] at hBelow
      omega
    rfl
  physical := by decide

/-- A machine with sixteen frames and cleared memory. -/
def sixteenFrameMachine : Kmem where
  pmm := sixteenFrames
  mem := fun _ => 0
  cr3 := 0

/-- A new address space with one user page, read-only and executable. -/
def onePageSpace : Bool × Kmem :=
  vmmMapPage (vmmCreateAddressSpace sixteenFrameMachine).2 4096 0x400000 0x8000 vmmFlagUser

theorem vmm_refines_pageMap_onePage :
    vmmGetPhys onePageSpace.2 4096 0x400123 = some 0x8123 ∧
    effectiveWritable onePageSpace.2 4096 0x400123 = false ∧
    vmmIsUserReadable onePageSpace.2 4096 0x400123 = true ∧
    (vmmUnmapPage onePageSpace.2 4096 0x400000).1 = true := by
  have hCreate : vmmCreateAddressSpace sixteenFrameMachine =
      (some 4096, (vmmCreateAddressSpace sixteenFrameMachine).2) := rfl
  have hRun := (VmmRun.create sixteenFrames_ready hCreate).map vmmFlagUser
    (by decide : 0x400000 < 2 ^ 47) (⟨by decide, by decide⟩ : IsFrame 0x8000)
  obtain ⟨hPhys, hPerms, hUser, _, hUnmap⟩ := vmm_refines_pageMap hRun
  refine ⟨(hPhys 0x400123 (by decide)).trans rfl, ?_, ?_, ?_⟩
  · exact (hPerms 0x400123 (by decide) (Mapping.requested 0x8000 vmmFlagUser) rfl).2.1
  · exact (hUser 0x400123 (by decide)).1.trans rfl
  · exact (hUnmap 0x400000 (by decide)).1.mpr ⟨rfl, by decide⟩

end Kryos.Memory
