import Kryos.Memory.AddressSpace

/-! What the individual stores of the page-table code do to the tree of
tables, and what `get_next_level` does as a whole. -/
namespace Kryos.Memory

open Function Radix

variable {other : List Nat} {j old e : Nat}

variable {k : Kmem} {root : Nat}

/-- A store that leaves the tables in place changes exactly one entry. -/
theorem AsInv.entry_write (h : AsInv k root) {path : List Nat} {table i value : Nat}
    (hPath : TablePath path) (hTable : k.table root path = some table) (hi : i < 512)
    (hSame : ∀ other, TablePath other →
      (k.write (slot table i) value).table root other = k.table root other)
    (hOther : TablePath other) (hj : j < 512) :
    (k.write (slot table i) value).entry root other j =
      if other = path ∧ j = i then some value else k.entry root other j := by
  have hEntry : (k.write (slot table i) value).entry root other j =
      ((k.write (slot table i) value).table root other).map
        (fun leaf => (k.write (slot table i) value).mem (slot leaf j)) := rfl
  rw [hEntry, hSame other hOther]
  by_cases hHere : other = path ∧ j = i
  · obtain ⟨rfl, rfl⟩ := hHere
    simp [hTable, Kmem.write]
  · rw [if_neg hHere]
    change _ = (k.table root other).map (fun leaf => k.mem (slot leaf j))
    cases hLeaf : k.table root other with
    | none => rfl
    | some leaf =>
      have hSlot := h.slot_ne hOther hPath hLeaf hTable hj hi hHere
      simp [Kmem.write, update_of_ne hSlot]

/-- A slot of the lower half that leads to a further table. -/
structure InnerSlot (k : Kmem) (root : Nat) (path : List Nat) (table i : Nat) : Prop where
  inv : AsInv k root
  ready : k.pmm.Ready
  valid : TablePath path
  short : path.length < 3
  reached : k.table root path = some table
  lower : LowerSlot path i

section Raise

variable {path : List Nat} {table i : Nat}

/-- A store guarded by a test that the flag is missing can be made always. -/
theorem raise_one (k : Kmem) (a flag : Nat) (wanted has : Bool)
    (hHas : has = true → k.mem a ||| flag = k.mem a) :
    (if wanted && !has then k.write a (k.mem a ||| flag) else k) =
      k.write a (k.mem a ||| if wanted then flag else 0) := by
  cases wanted with
  | false => simp
  | true =>
    cases has with
    | false => simp
    | true => simp [hHas rfl]

/-- The two conditional stores of `get_next_level` amount to one store. -/
theorem raise_eq (k : Kmem) (a pteFlags : Nat) :
    (let k₁ := if pteFlags.testBit 1 && !(k.mem a).testBit 1 then
        k.write a (k.mem a ||| pteWritable) else k
     if pteFlags.testBit 2 && !(k.mem a).testBit 2 then
        k₁.write a (k₁.mem a ||| pteUser) else k₁) =
      k.write a (k.mem a ||| innerFlags pteFlags) := by
  rw [raise_one k a pteWritable _ _ or_pteWritable, raise_one _ a pteUser]
  · rw [Kmem.write_write, Kmem.write_mem_self, innerFlags, Nat.or_assoc]
  · intro hUser
    rw [Kmem.write_mem_self]
    apply or_pteUser
    rw [Nat.testBit_or, hUser, Bool.true_or]

theorem raise_table (pteFlags : Nat) (other : List Nat) :
    (k.write (slot table i) (k.mem (slot table i) ||| innerFlags pteFlags)).table root other =
      k.table root other := by
  apply tableAt_of_next_eq
  intro a
  by_cases ha : a = slot table i
  · subst ha
    simp [Kmem.write, (raised_entry _ pteFlags).1]
  · simp [Kmem.write, update_of_ne ha]

variable (h : InnerSlot k root path table i) (pteFlags : Nat)

include h

theorem InnerSlot.raise :
    AsInv (k.write (slot table i) (k.mem (slot table i) ||| innerFlags pteFlags)) root := by
  have hSame : ∀ other, TablePath other →
      (k.write (slot table i) (k.mem (slot table i) ||| innerFlags pteFlags)).table root other =
        k.table root other := fun other _ => raise_table pteFlags other
  have hEntry := fun {other : List Nat} {j : Nat} (hOther : TablePath other) (hj : j < 512) =>
    h.inv.entry_write h.valid h.reached h.lower.1 hSame hOther hj
  have hOld : k.entry root path i = some (k.mem (slot table i)) :=
    Kmem.entry_eq_some.mpr ⟨table, h.reached, rfl⟩
  obtain ⟨_, hKeep, hW, hU⟩ := raised_entry (k.mem (slot table i)) pteFlags
  refine ⟨?_, ?_, ?_, ?_⟩
  · intro p q t hp hq
    rw [hSame p hp, hSame q hq]
    exact h.inv.unique p q t hp hq
  · intro p t hp
    rw [hSame p hp]
    exact h.inv.owned p t hp
  · intro p j e hp hpLength hj
    rw [hEntry hp hj.1]
    split
    · rename_i hHere
      obtain ⟨rfl, rfl⟩ := hHere
      rintro ⟨⟩ hPresent
      rw [hKeep 0 (by decide) (by decide)] at hPresent
      rw [hKeep 7 (by decide) (by decide), hKeep 63 (by decide) (by decide)]
      exact h.inv.inner p j _ hp hpLength hj hOld hPresent
    · exact h.inv.inner p j e hp hpLength hj
  · intro p j leaf hp hpLength hj
    have hNe : ¬ (p = path ∧ j = i) := by
      rintro ⟨rfl, _⟩
      exact absurd h.short (by omega)
    rw [hEntry hp hj, if_neg hNe]
    intro hLeaf hPresent before j' after e hSplit
    obtain ⟨hBefore, hSlot⟩ := hp.split hSplit
    rw [hEntry hBefore hSlot.1]
    split
    · rename_i hHere
      obtain ⟨rfl, rfl⟩ := hHere
      rintro ⟨⟩
      have hPerms :=
        h.inv.perms p j leaf hp hpLength hj hLeaf hPresent before j' after _ hSplit hOld
      rw [hW, hU]
      exact ⟨fun hb => by rw [hPerms.1 hb]; rfl, fun hb => by rw [hPerms.2 hb]; rfl⟩
    · exact h.inv.perms p j leaf hp hpLength hj hLeaf hPresent before j' after e hSplit

theorem InnerSlot.raise_grows :
    Grows k (k.write (slot table i) (k.mem (slot table i) ||| innerFlags pteFlags)) root := by
  have hSame : ∀ other, TablePath other →
      (k.write (slot table i) (k.mem (slot table i) ||| innerFlags pteFlags)).table root other =
        k.table root other := fun other _ => raise_table pteFlags other
  have hEntry := fun {other : List Nat} {j : Nat} (hOther : TablePath other) (hj : j < 512) =>
    h.inv.entry_write h.valid h.reached h.lower.1 hSame hOther hj
  have hOld : k.entry root path i = some (k.mem (slot table i)) :=
    Kmem.entry_eq_some.mpr ⟨table, h.reached, rfl⟩
  obtain ⟨_, hKeep, hW, hU⟩ := raised_entry (k.mem (slot table i)) pteFlags
  refine ⟨TablesGrow.of_table_eq h.inv hSame rfl,
    OwnWrites.write h.valid h.lower ((hSame path h.valid).trans h.reached), ?_, ?_⟩
  · intro p j e hp hpLength hj he hPresent
    rw [hEntry hp hj.1]
    split
    · rename_i hHere
      obtain ⟨rfl, rfl⟩ := hHere
      obtain rfl : k.mem (slot table j) = e := by
        rw [hOld] at he
        exact Option.some.inj he
      refine ⟨_, rfl, by rw [hKeep 0 (by decide) (by decide)]; exact hPresent, ?_, ?_⟩
      · intro hb
        rw [hW, hb]
        rfl
      · intro hb
        rw [hU, hb]
        rfl
    · exact ⟨e, he, hPresent, id, id⟩
  · intro p j hp hpLength hj
    have hNe : ¬ (p = path ∧ j = i) := by
      rintro ⟨rfl, _⟩
      exact absurd h.short (by omega)
    unfold Kmem.leaf
    rw [hEntry hp hj, if_neg hNe]

end Raise

section NewTable

variable {path : List Nat} {table i frame : Nat}

/-- The state after `get_next_level` linked the fresh frame into slot `i`. -/
def Kmem.link (k : Kmem) (table i frame pteFlags : Nat) : Kmem :=
  ({ k with pmm := k.pmm.take frame }.zeroPage (frame * pmmPageSize)).write (slot table i)
    (tableEntry (frame * pmmPageSize) pteFlags)

/-- An empty slot, and a free frame for the table it lacks. -/
structure NewTable (k : Kmem) (root : Nat) (path : List Nat) (table i frame : Nat) : Prop extends
    InnerSlot k root path table i where
  absent : (k.mem (slot table i)).testBit 0 = false
  below : frame < k.pmm.totalFrames
  clear : Bitmap.isSet k.pmm.bitmap frame = false

namespace NewTable

variable {k : Kmem} {root : Nat} (h : NewTable k root path table i frame)

include h

theorem isFrame : IsFrame (frame * pmmPageSize) := ⟨Nat.mul_mod_left _ _, h.ready.below h.below⟩

theorem ne_frame {f : Nat} (hOther : TablePath other)
    (hOld : k.table root other = some (f * pmmPageSize)) : f ≠ frame := by
  rintro rfl
  have hSet := (h.inv.tableFrame_set ⟨other, hOther, hOld⟩).2
  simp [h.clear] at hSet

theorem ne_slot (hOld : k.entry root other j = some e) (hPresent : e.testBit 0 = true) :
    ¬ (other = path ∧ j = i) := by
  rintro ⟨rfl, rfl⟩
  obtain ⟨leaf, hLeaf, rfl⟩ := Kmem.entry_eq_some.mp hOld
  rw [h.reached] at hLeaf
  cases hLeaf
  simp [h.absent] at hPresent

variable (pteFlags : Nat)

theorem mem_old (hOther : TablePath other) (hOld : k.table root other = some old)
    (hj : j < 512) (hNe : ¬ (other = path ∧ j = i)) :
    (k.link table i frame pteFlags).mem (slot old j) = k.mem (slot old j) := by
  have hSlot := h.inv.slot_ne hOther h.valid hOld h.reached hj h.lower.1 hNe
  obtain ⟨oldFrame, rfl, _⟩ := h.inv.owned other old hOther hOld
  have hFrames := h.ne_frame hOther hOld
  have hOutside : ¬ (frame * pmmPageSize ≤ slot (oldFrame * pmmPageSize) j ∧
      slot (oldFrame * pmmPageSize) j < frame * pmmPageSize + pmmPageSize) := by
    simp only [slot, pmmPageSize]
    omega
  simp only [Kmem.link, Kmem.write, Kmem.zeroPage]
  rw [update_of_ne hSlot, if_neg hOutside]

theorem mem_new (hj : j < 512) :
    (k.link table i frame pteFlags).mem (slot (frame * pmmPageSize) j) = 0 := by
  obtain ⟨oldFrame, rfl, _⟩ := h.inv.owned path table h.valid h.reached
  have hFrames := h.ne_frame h.valid h.reached
  have hSlot : slot (frame * pmmPageSize) j ≠ slot (oldFrame * pmmPageSize) i := by
    have hi := h.lower.1
    simp only [slot, pmmPageSize]
    omega
  have hInside : frame * pmmPageSize ≤ slot (frame * pmmPageSize) j ∧
      slot (frame * pmmPageSize) j < frame * pmmPageSize + pmmPageSize := by
    simp only [slot, pmmPageSize]
    omega
  simp only [Kmem.link, Kmem.write, Kmem.zeroPage]
  rw [update_of_ne hSlot, if_pos hInside]

theorem table_old (hOther : TablePath other) (hOld : k.table root other = some old) :
    (k.link table i frame pteFlags).table root other = some old := by
  rw [← hOld]
  apply tableAt_congr
  intro before j after leaf hSplit hLeaf
  obtain ⟨hBefore, hj⟩ := hOther.split hSplit
  -- the linked slot was empty, so no existing table lies beyond it
  obtain ⟨e, hEntry, hPresent⟩ := Kmem.table_split (hSplit ▸ hOld)
  exact h.mem_old pteFlags hBefore hLeaf hj.1 (h.ne_slot hEntry hPresent)

theorem entry_here : (k.link table i frame pteFlags).entry root path i =
    some (tableEntry (frame * pmmPageSize) pteFlags) :=
  Kmem.entry_eq_some.mpr ⟨table, h.table_old pteFlags h.valid h.reached, Kmem.write_mem_self _ _ _⟩

theorem table_here :
    (k.link table i frame pteFlags).table root (path ++ [i]) = some (frame * pmmPageSize) := by
  rw [Kmem.table_concat, h.entry_here]
  exact (tableEntry_bits h.isFrame pteFlags).1

theorem table_cases {other : List Nat} {t : Nat} (hOther : TablePath other)
    (hNew : (k.link table i frame pteFlags).table root other = some t) :
    k.table root other = some t ∨ (other = path ++ [i] ∧ t = frame * pmmPageSize) := by
  induction other using List.reverseRecOn generalizing t with
  | nil => exact Or.inl hNew
  | append_singleton front j ih =>
    obtain ⟨hFront, hj⟩ := hOther.of_concat
    by_cases hHere : front = path ∧ j = i
    · obtain ⟨rfl, rfl⟩ := hHere
      exact Or.inr ⟨rfl, Option.some.inj (hNew.symm.trans (h.table_here pteFlags))⟩
    rw [Kmem.table_concat] at hNew
    obtain ⟨e, hEntry, hNext⟩ := Option.bind_eq_some_iff.mp hNew
    obtain ⟨leaf, hLeaf, rfl⟩ := Kmem.entry_eq_some.mp hEntry
    rcases ih hFront hLeaf with hOld | ⟨rfl, rfl⟩
    · left
      rw [h.mem_old pteFlags hFront hOld hj.1 hHere] at hNext
      rw [Kmem.table_concat, Kmem.entry_eq_some.mpr ⟨leaf, hOld, rfl⟩]
      exact hNext
    · rw [h.mem_new pteFlags hj.1] at hNext
      simp [pteNext] at hNext

theorem entry_old (hOther : TablePath other) (hj : j < 512)
    (hNe : ¬ (other = path ∧ j = i)) (hOld : k.entry root other j = some e) :
    (k.link table i frame pteFlags).entry root other j = some e := by
  obtain ⟨old, hTableOld, rfl⟩ := Kmem.entry_eq_some.mp hOld
  exact Kmem.entry_eq_some.mpr ⟨old, h.table_old pteFlags hOther hTableOld,
    h.mem_old pteFlags hOther hTableOld hj hNe⟩

theorem entry_cases (hOther : TablePath other) (hj : j < 512)
    (hNew : (k.link table i frame pteFlags).entry root other j = some e)
    (hPresent : e.testBit 0 = true) :
    (k.entry root other j = some e ∧ ¬ (other = path ∧ j = i)) ∨
      (other = path ∧ j = i ∧ e = tableEntry (frame * pmmPageSize) pteFlags) := by
  by_cases hHere : other = path ∧ j = i
  · obtain ⟨rfl, rfl⟩ := hHere
    exact Or.inr ⟨rfl, rfl, Option.some.inj (hNew.symm.trans (h.entry_here pteFlags))⟩
  obtain ⟨new, hTableNew, rfl⟩ := Kmem.entry_eq_some.mp hNew
  rcases h.table_cases pteFlags hOther hTableNew with hOld | ⟨_, rfl⟩
  · left
    refine ⟨Kmem.entry_eq_some.mpr ⟨new, hOld, ?_⟩, hHere⟩
    exact (h.mem_old pteFlags hOther hOld hj hHere).symm
  · rw [h.mem_new pteFlags hj] at hPresent
    simp at hPresent

theorem asInv : AsInv (k.link table i frame pteFlags) root := by
  have hTables := fun {other : List Nat} {t : Nat} (hOther : TablePath other) =>
    h.table_cases pteFlags (t := t) hOther
  have hEntries := fun {other : List Nat} {j e : Nat} (hOther : TablePath other) (hj : j < 512) =>
    h.entry_cases pteFlags (e := e) hOther hj
  refine ⟨?_, ?_, ?_, ?_⟩
  · intro p q t hp hq hTp hTq
    rcases hTables hp hTp with hOldP | ⟨hEqP, rfl⟩
    · rcases hTables hq hTq with hOldQ | ⟨_, rfl⟩
      · exact h.inv.unique p q t hp hq hOldP hOldQ
      · exact absurd rfl (h.ne_frame hp hOldP)
    · rcases hTables hq hTq with hOldQ | ⟨hEqQ, _⟩
      · exact absurd rfl (h.ne_frame hq hOldQ)
      · rw [hEqP, hEqQ]
  · intro p t hp hTp
    rcases hTables hp hTp with hOld | ⟨_, rfl⟩
    · obtain ⟨oldFrame, rfl, hLt, hSet⟩ := h.inv.owned p t hp hOld
      exact ⟨oldFrame, rfl, hLt, by simp [Kmem.link, Kmem.write, Kmem.zeroPage, Pmm.take, hSet]⟩
    · exact ⟨frame, rfl, h.below, by simp [Kmem.link, Kmem.write, Kmem.zeroPage, Pmm.take]⟩
  · intro p j e hp hpLength hj he hPresent
    rcases hEntries hp hj.1 he hPresent with ⟨hOld, _⟩ | ⟨_, _, rfl⟩
    · exact h.inv.inner p j e hp hpLength hj hOld hPresent
    · have hBits := tableEntry_bits h.isFrame pteFlags
      exact ⟨hBits.2.1, hBits.2.2.1⟩
  · intro p j leaf hp hpLength hj hLeaf hPresent before j' after e hSplit he
    rcases hEntries hp hj hLeaf hPresent with ⟨hOldLeaf, _⟩ | ⟨rfl, _, _⟩
    · obtain ⟨hBefore, hSlot⟩ := hp.split hSplit
      -- an ancestor of an old leaf was present, so it is not the linked slot
      obtain ⟨leafTable, hLeafTable, _⟩ := Kmem.entry_eq_some.mp hOldLeaf
      obtain ⟨e₀, he₀, hPresent₀⟩ := Kmem.table_split (hSplit ▸ hLeafTable)
      have hSame := h.entry_old pteFlags hBefore hSlot.1 (h.ne_slot he₀ hPresent₀) he₀
      obtain rfl := Option.some.inj (hSame.symm.trans he)
      exact h.inv.perms p j leaf hp hpLength hj hOldLeaf hPresent before j' after _ hSplit he₀
    · exact absurd h.short (by omega)

theorem tablesGrow : TablesGrow k (k.link table i frame pteFlags) root := by
  have hCases {j : Nat} (hNew : (k.link table i frame pteFlags).TableFrame root j) :
      k.TableFrame root j ∨ j = frame := by
    obtain ⟨p, hp, hTp⟩ := hNew
    rcases h.table_cases pteFlags hp hTp with hOld | ⟨_, hEq⟩
    · exact Or.inl ⟨p, hp, hOld⟩
    · exact Or.inr (Nat.eq_of_mul_eq_mul_right (by decide) hEq)
  refine ⟨?_, ?_, ?_, rfl⟩
  · intro p t hp hOld
    exact h.table_old pteFlags hp hOld
  · intro j
    have hBit : Bitmap.isSet (k.link table i frame pteFlags).pmm.bitmap j =
        (decide (j = frame) || Bitmap.isSet k.pmm.bitmap j) := Bitmap.isSet_set _ _ _
    rw [hBit, Bool.or_eq_true, decide_eq_true_eq]
    constructor
    · rintro (rfl | hSet)
      · exact Or.inr ⟨path ++ [i], h.valid.concat h.short h.lower, h.table_here pteFlags⟩
      · exact Or.inl hSet
    · rintro (hSet | hNew)
      · exact Or.inr hSet
      · rcases hCases hNew with hOld | rfl
        · exact Or.inr (h.inv.tableFrame_set hOld).2
        · exact Or.inl rfl
  · intro j hNew
    rcases hCases hNew with hOld | rfl
    · exact Or.inl hOld
    · exact Or.inr h.clear

theorem ownWrites : OwnWrites k (k.link table i frame pteFlags) root := by
  refine ⟨rfl, ?_⟩
  intro a hNe
  by_cases hSlot : a = slot table i
  · exact Or.inl ⟨path, table, i, h.valid, h.table_old pteFlags h.valid h.reached, h.lower, hSlot⟩
  · right
    by_contra hSet
    apply hNe
    refine (update_of_ne hSlot _ _).trans (if_neg ?_)
    rintro ⟨hLow, hHigh⟩
    have hFrame : a / pmmPageSize = frame := by
      simp only [pmmPageSize] at hLow hHigh ⊢
      omega
    exact hSet (hFrame ▸ h.clear)

theorem grows : Grows k (k.link table i frame pteFlags) root := by
  refine ⟨h.tablesGrow pteFlags, h.ownWrites pteFlags, ?_, ?_⟩
  · intro p j e hp hpLength hj he hPresent
    exact ⟨e, h.entry_old pteFlags hp hj.1 (h.ne_slot he hPresent) he, hPresent, id, id⟩
  · intro p j hp hpLength hj
    apply Option.ext
    intro e
    rw [Kmem.leaf_eq_some, Kmem.leaf_eq_some]
    constructor
    · rintro ⟨he, hPresent⟩
      rcases h.entry_cases pteFlags hp hj he hPresent with ⟨hOld, _⟩ | ⟨rfl, _⟩
      · exact ⟨hOld, hPresent⟩
      · exact absurd h.short (by omega)
    · rintro ⟨he, hPresent⟩
      exact ⟨h.entry_old pteFlags hp hj (h.ne_slot he hPresent) he, hPresent⟩

end NewTable

end NewTable

section Leaf

variable {path : List Nat} {table i value : Nat}

theorem AsInv.leaf_table (h : AsInv k root) (hPath : TablePath path)
    (hTable : k.table root path = some table) (hLength : path.length = 3) (hi : i < 512)
    {other : List Nat} (hOther : TablePath other) :
    (k.write (slot table i) value).table root other = k.table root other := by
  apply h.separated.tableAt_write hPath hTable hi
  · intro before j after hSplit
    obtain ⟨hBefore, hj⟩ := hOther.split hSplit
    exact ⟨hBefore, hj.1⟩
  · rintro after rfl
    have hLong := hOther.1
    simp only [List.length_append, List.length_cons] at hLong
    omega

variable (h : AsInv k root) (hPath : TablePath path) (hTable : k.table root path = some table)
  (hLength : path.length = 3) (hi : i < 512)

include h hPath hTable hLength hi

theorem AsInv.leaf_entry {other : List Nat} {j : Nat} (hOther : TablePath other) (hj : j < 512) :
    (k.write (slot table i) value).entry root other j =
      if other = path ∧ j = i then some value else k.entry root other j :=
  h.entry_write hPath hTable hi (fun _ hq => h.leaf_table hPath hTable hLength hi hq) hOther hj

/-- Storing a leaf whose permissions its ancestors already carry. -/
theorem AsInv.leaf_write
    (hPerms : value.testBit 0 = true → ∀ before j after e, path = before ++ j :: after →
      k.entry root before j = some e →
      (value.testBit 1 = true → e.testBit 1 = true) ∧
      (value.testBit 2 = true → e.testBit 2 = true)) :
    AsInv (k.write (slot table i) value) root := by
  have hSame := fun {other : List Nat} (hOther : TablePath other) =>
    @AsInv.leaf_table k root path table i value h hPath hTable hLength hi other hOther
  have hEntry := fun {other : List Nat} {j : Nat} (hOther : TablePath other) (hj : j < 512) =>
    @AsInv.leaf_entry k root path table i value h hPath hTable hLength hi other j hOther hj
  refine ⟨?_, ?_, ?_, ?_⟩
  · intro p q t hp hq
    rw [hSame hp, hSame hq]
    exact h.unique p q t hp hq
  · intro p t hp
    rw [hSame hp]
    exact h.owned p t hp
  · intro p j e hp hpLength hj
    have hNe : ¬ (p = path ∧ j = i) := by
      rintro ⟨rfl, _⟩
      omega
    rw [hEntry hp hj.1, if_neg hNe]
    exact h.inner p j e hp hpLength hj
  · intro p j leaf hp hpLength hj hLeaf hPresent before j' after e hSplit he
    obtain ⟨hBefore, hSlot⟩ := hp.split hSplit
    have hShort : ¬ (before = path ∧ j' = i) := by
      rintro ⟨rfl, _⟩
      rw [hSplit] at hpLength
      simp only [List.length_append, List.length_cons] at hpLength
      omega
    rw [hEntry hBefore hSlot.1, if_neg hShort] at he
    rw [hEntry hp hj] at hLeaf
    split at hLeaf
    · rename_i hHere
      obtain ⟨rfl, rfl⟩ := hHere
      cases hLeaf
      exact hPerms hPresent before j' after e hSplit he
    · exact h.perms p j leaf hp hpLength hj hLeaf hPresent before j' after e hSplit he

end Leaf

/-! ### `get_next_level` -/

theorem getNextLevel_eq (k : Kmem) (table i : Nat) (allocate : Bool) (pteFlags : Nat) :
    getNextLevel k table i allocate pteFlags =
      if (k.mem (slot table i)).testBit 0 then
        if (k.mem (slot table i)).testBit 7 then (none, k)
        else (some (k.mem (slot table i) &&& pteFrameMask),
          k.write (slot table i) (k.mem (slot table i) ||| innerFlags pteFlags))
      else if allocate then
        if (pmmAllocPage k.pmm).1 == 0 then (none, { k with pmm := (pmmAllocPage k.pmm).2 })
        else (some (pmmAllocPage k.pmm).1,
          ({ k with pmm := (pmmAllocPage k.pmm).2 }.zeroPage (pmmAllocPage k.pmm).1).write
            (slot table i) (tableEntry (pmmAllocPage k.pmm).1 pteFlags))
      else (none, k) := by
  have hFlags : (if pteFlags.testBit 2 = true then
      (if pteFlags.testBit 1 = true then ptePresent ||| pteWritable else ptePresent) ||| pteUser
    else if pteFlags.testBit 1 = true then ptePresent ||| pteWritable else ptePresent) =
      ptePresent ||| innerFlags pteFlags := by
    unfold innerFlags
    cases pteFlags.testBit 1 <;> cases pteFlags.testBit 2 <;> decide
  have hRaise := raise_eq k (slot table i) pteFlags
  unfold getNextLevel tableEntry
  simp only [hasFlag_present, hasFlag_ps, hasFlag_writable, hasFlag_user, hFlags]
  rw [hRaise]
  cases allocate <;> simp

/-- Everything `get_next_level` can do at one slot. -/
theorem getNextLevel_cases (hReady : k.pmm.Ready) (table i : Nat) (allocate : Bool)
    (pteFlags : Nat) :
    ((k.mem (slot table i)).testBit 0 = true ∧ (k.mem (slot table i)).testBit 7 = true ∧
      getNextLevel k table i allocate pteFlags = (none, k)) ∨
    ((k.mem (slot table i)).testBit 0 = true ∧ (k.mem (slot table i)).testBit 7 = false ∧
      getNextLevel k table i allocate pteFlags =
        (some (k.mem (slot table i) &&& pteFrameMask),
          k.write (slot table i) (k.mem (slot table i) ||| innerFlags pteFlags))) ∨
    ((k.mem (slot table i)).testBit 0 = false ∧
      getNextLevel k table i allocate pteFlags = (none, k) ∧
      (allocate = true → k.pmm.clearFrames = ∅)) ∨
    ((k.mem (slot table i)).testBit 0 = false ∧ allocate = true ∧
      ∃ frame, 0 < frame ∧ frame < k.pmm.totalFrames ∧ Bitmap.isSet k.pmm.bitmap frame = false ∧
        getNextLevel k table i allocate pteFlags =
          (some (frame * pmmPageSize), k.link table i frame pteFlags)) := by
  rw [getNextLevel_eq]
  cases hPresent : (k.mem (slot table i)).testBit 0 with
  | true =>
    cases hPs : (k.mem (slot table i)).testBit 7 with
    | true => exact Or.inl ⟨rfl, rfl, rfl⟩
    | false => exact Or.inr (Or.inl ⟨rfl, rfl, rfl⟩)
  | false =>
    cases allocate with
    | false => exact Or.inr (Or.inr (Or.inl ⟨rfl, rfl, by simp⟩))
    | true =>
      rcases hReady.alloc with ⟨hEmpty, hResult⟩ | ⟨frame, hPos, hLt, hClear, hResult⟩
      · refine Or.inr (Or.inr (Or.inl ⟨rfl, ?_, fun _ => hEmpty⟩))
        simp [hResult]
      · refine Or.inr (Or.inr (Or.inr ⟨rfl, rfl, frame, hPos, hLt, hClear, ?_⟩))
        simp only [hResult, frame_beq_zero hPos, Bool.false_eq_true, if_false, if_true]
        rfl

end Kryos.Memory
