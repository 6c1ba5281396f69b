import Kryos.Fs.BlockMap

/-! Mapping the blocks of an open file: `kfs_map_block` finds the block of a slot in
use, `kfs_map_or_alloc_block` also extends the file by one block. -/
namespace Kryos.Fs

open Bitmap Function LittleEndian

variable {l blk m : Nat} {inode inode' : Inode} {dirty dirty' : Bool}

theorem readWord_zero (index : Nat) : readWord (fun _ => 0) index = 0 := by
  simp [readWord, readLe]

section Slots

variable {disk disk' : Nat → Sector} {inode : Inode} {blk : Nat}

theorem slotBlock_setDirect (hl : l < 10)
    (hKeep : inode.indirect ≠ 0 → disk' inode.indirect = disk inode.indirect) :
    slotBlock disk' { inode with direct := update inode.direct ⟨l, hl⟩ blk } =
      update (slotBlock disk inode) l blk := by
  rw [← slotBlock_congr hKeep]
  funext j
  by_cases hj : j = l
  · subst hj
    simp [slotBlock, hl]
  · rw [update_of_ne hj]
    unfold slotBlock
    split
    · rename_i hLt
      change update inode.direct ⟨l, hl⟩ blk ⟨j, hLt⟩ = _
      rw [update_of_ne (by simpa using hj)]
    · rfl

theorem slotBlock_setIndirect (hZero : inode.indirect = 0) (hBlk : blk ≠ 0)
    (hFresh : disk' blk = fun _ => 0) :
    slotBlock disk' { inode with indirect := blk } =
      update (slotBlock disk inode) 138 blk := by
  funext j
  by_cases hj : j = 138
  · subst hj
    simp [slotBlock]
  · simp [slotBlock, hZero, hBlk, hFresh, readWord_zero, hj]

theorem slotBlock_setEntry {off : Nat} (hIndirect : inode.indirect ≠ 0) (hOff : off < 128)
    (hBlk : blk < 2 ^ 32)
    (hStored : disk' inode.indirect = storeWords (disk inode.indirect) off 1 (fun _ => blk)) :
    slotBlock disk' inode = update (slotBlock disk inode) (10 + off) blk := by
  funext j
  by_cases hj : j = 10 + off
  · subst hj
    have hEntry : 10 + off < 138 := by omega
    have hWord : blk % 2 ^ 32 = blk := Nat.mod_eq_of_lt hBlk
    simp only [slotBlock, hEntry, if_true, hIndirect, if_false, hStored, readWord_storeWords,
      update_self, Nat.add_sub_cancel_left, hWord]
    simp
  · rw [update_of_ne hj]
    unfold slotBlock
    split
    · rfl
    · split
      · rw [hStored, readWord_storeWords, if_neg (by omega)]
      · rfl

end Slots

theorem Inode.Fits.setDirect (h : inode.Fits) (i : Fin 10) (hBlk : blk < 2 ^ 32) :
    ({ inode with direct := update inode.direct i blk } : Inode).Fits := by
  intro k
  have hk := h k
  unfold Inode.word at hk ⊢
  split_ifs at hk ⊢ with h0 h1 hDirect h12 h13
  all_goals try exact hk
  by_cases hi : (⟨k - 2, hDirect⟩ : Fin 10) = i
  · simpa [hi] using hBlk
  · change update inode.direct i blk _ < _
    rw [update_of_ne hi]
    exact hk

theorem Inode.Fits.setIndirect (h : inode.Fits) (hBlk : blk < 2 ^ 32) :
    ({ inode with indirect := blk } : Inode).Fits := by
  intro k
  have hk := h k
  unfold Inode.word at hk ⊢
  split_ifs at hk ⊢ with h0 h1 hDirect h12 h13
  all_goals assumption

theorem Inode.Fits.setSize (h : inode.Fits) {size : Nat} (hSize : size < 2 ^ 32) :
    ({ inode with size := size } : Inode).Fits := by
  intro k
  have hk := h k
  unfold Inode.word at hk ⊢
  split_ifs at hk ⊢ with h0 h1 hDirect h12 h13
  all_goals assumption

/-- The blocks that a file of that many data blocks holds, its indirect block included. -/
def blockCost (blocks : Nat) : Nat := blocks + if 10 < blocks then 1 else 0

/-- What the call leaves when a block behind the indirect block cannot be had but the indirect
block can. -/
structure Torn (total : Nat) (s : Volume) (ind : Nat) : Prop where
  lo : 90 ≤ ind
  hi : ind < total
  clear : isSet s.blockBitmap ind = false
  last : s.freeBelow total = 1

namespace Volume

variable {total : Nat} {full : Prop} {s : Volume} {ino : Nat} {inode : Inode} {need : Nat → Prop}

theorem OpenedAt.congr_need {need' : Nat → Prop} (h : OpenedAt total full s ino inode need)
    (hNeed : ∀ k, need k ↔ need' k) : OpenedAt total full s ino inode need' :=
  { h with shape := fun k => (h.shape k).trans (hNeed k) }

/-- Size, type and link count of an open inode are not part of its block map. -/
theorem OpenedAt.sameBlocks (h : OpenedAt total full s ino inode need)
    (hDirect : inode'.direct = inode.direct) (hIndirect : inode'.indirect = inode.indirect)
    (hFits : inode'.Fits) : OpenedAt total full s ino inode' need := by
  have hOwn : slotBlock s.disk inode' = slotBlock s.disk inode := by
    funext k
    rw [slotBlock, slotBlock, hDirect, hIndirect]
  have hSlots : s.slots (update s.table ino inode') =
      s.slots (update s.table ino inode) := by
    funext x
    obtain ⟨i, j⟩ := x
    by_cases hi : i = ino
    · subst hi
      rw [slots_own h.live, slots_own h.live, hOwn]
    · simp [slots, hi]
  exact ⟨h.mounted, h.live, hSlots ▸ h.exclusive, hSlots ▸ h.covered, h.others,
    fun k => hOwn ▸ h.shape k, hFits⟩

/-- An open inode has got the fresh block `blk` for its empty slot `k`. -/
structure Took (total : Nat) (full : Prop) (ino : Nat) (need : Nat → Prop) (s : Volume)
    (inode : Inode) (k blk : Nat) (s' : Volume) (inode' : Inode) : Prop where
  opened : OpenedAt total full s' ino inode' (fun j => need j ∨ j = k)
  within : Within s s' ino
  bytes : ∀ p, p / 512 < 138 → slotBlock s.disk inode (p / 512) ≠ 0 →
    fileByte s'.disk inode' p = fileByte s.disk inode p
  slots : slotBlock s'.disk inode' = update (slotBlock s.disk inode) k blk
  empty : slotBlock s.disk inode k = 0
  block : blk ≠ 0
  free : s'.freeBelow total + 1 = s.freeBelow total
  size : inode'.size = inode.size
  type : inode'.type = inode.type

section Take

variable {blk : Nat} (h : OpenedAt total full s ino inode need) (hLo : 90 ≤ blk) (hHi : blk < total)
  (hFree : isSet s.blockBitmap blk = false)

include h hLo hHi hFree

theorem OpenedAt.takeDirect (hl : l < 10) (hSlot : slotBlock s.disk inode l = 0) :
    Took total full ino need s inode l blk (s.takeBlock blk)
      { inode with direct := update inode.direct ⟨l, hl⟩ blk } := by
  have hBlk := h.mounted.lt hHi
  have hSlots : slotBlock (s.takeBlock blk).disk
      { inode with direct := update inode.direct ⟨l, hl⟩ blk } =
        update (slotBlock s.disk inode) l blk := by
    apply slotBlock_setDirect hl
    intro hIndirect
    have hRange := h.indirect_range
    have hNe := h.exclusive.ne_of_free (by omega) hFree (ino, 138)
    rw [slots_own h.live, slotBlock_indirect] at hNe
    exact takeBlock_disk hBlk (by omega) hNe
  obtain ⟨hOpened, hWithin, hBytes⟩ := h.take hLo hHi hFree hSlot (h.mounted.takeBlock hLo hBlk)
    rfl rfl rfl (fun c hc hNe _ => takeBlock_disk hBlk (by omega) hNe) hSlots
    (h.fits.setDirect _ (by omega))
  exact ⟨hOpened, hWithin, hBytes, hSlots, hSlot, by omega, freeBelow_takeBlock hHi hFree, rfl, rfl⟩

theorem OpenedAt.takeIndirect (hZero : inode.indirect = 0) :
    Took total full ino need s inode 138 blk (s.takeBlock blk) { inode with indirect := blk } := by
  have hBlk := h.mounted.lt hHi
  have hSlot : slotBlock s.disk inode 138 = 0 := by
    exact hZero
  have hSlots : slotBlock (s.takeBlock blk).disk { inode with indirect := blk } =
      update (slotBlock s.disk inode) 138 blk :=
    slotBlock_setIndirect hZero (by omega) takeBlock_disk_self
  obtain ⟨hOpened, hWithin, hBytes⟩ := h.take hLo hHi hFree hSlot (h.mounted.takeBlock hLo hBlk)
    rfl rfl rfl (fun c hc hNe _ => takeBlock_disk hBlk (by omega) hNe) hSlots
    (h.fits.setIndirect (by omega))
  exact ⟨hOpened, hWithin, hBytes, hSlots, hSlot, by omega, freeBelow_takeBlock hHi hFree, rfl, rfl⟩

theorem OpenedAt.takeEntry {off : Nat} (hIndirect : inode.indirect ≠ 0) (hOff : off < 128)
    (hSlot : slotBlock s.disk inode (10 + off) = 0) :
    Took total full ino need s inode (10 + off) blk
      ((s.takeBlock blk).putSector inode.indirect
        (storeWords (s.disk inode.indirect) off 1 (fun _ => blk))) inode := by
  have hRange := h.indirect_range
  have hBlk := h.mounted.lt hHi
  generalize hPut : (s.takeBlock blk).putSector inode.indirect
    (storeWords (s.disk inode.indirect) off 1 (fun _ => blk)) = s'
  have hSlots : slotBlock s'.disk inode = update (slotBlock s.disk inode) (10 + off) blk :=
    slotBlock_setEntry hIndirect hOff (by omega) (hPut ▸ putSector_disk_self _)
  obtain ⟨hOpened, hWithin, hBytes⟩ := h.take hLo hHi hFree hSlot
    (hPut ▸ (h.mounted.takeBlock hLo hBlk).putSector (by omega) _) (hPut ▸ rfl) (hPut ▸ rfl)
    (hPut ▸ rfl) (fun c hc hNe hOwn => by
      rw [← hPut, putSector_disk _ hOwn, takeBlock_disk hBlk (by omega) hNe]) hSlots h.fits
  exact ⟨hOpened, hWithin, hBytes, hSlots, hSlot, by omega,
    hPut ▸ freeBelow_takeBlock hHi hFree, rfl, rfl⟩

end Take

/-- The results for the entry `off` of the indirect block. -/
inductive EntryEnd (total : Nat) (full : Prop) (ino : Nat) (need : Nat → Prop) (s : Volume)
    (inode : Inode) (off : Nat) : Except Int Nat × Volume → Prop where
  | found (hUsed : slotBlock s.disk inode (10 + off) ≠ 0) :
      EntryEnd total full ino need s inode off (.ok (slotBlock s.disk inode (10 + off)), s)
  | took {blk : Nat} {s' : Volume}
      (hTook : Took total full ino need s inode (10 + off) blk s' inode) :
      EntryEnd total full ino need s inode off (.ok blk, s')
  | none (hEmpty : slotBlock s.disk inode (10 + off) = 0) (hFree : s.freeBelow total = 0) :
      EntryEnd total full ino need s inode off (.error (-enospc), s)

theorem ensureEntry_ends (h : OpenedAt total full s ino inode need) (hReliable : s.mount.Reliable)
    (hIndirect : inode.indirect ≠ 0) {off : Nat} (hOff : off < 128) :
    EntryEnd total full ino need s inode off (ensureEntry s inode.indirect off) := by
  have hLt : 10 + off < 138 := by omega
  have hWord : slotBlock s.disk inode (10 + off) = readWord (s.disk inode.indirect) off := by
    simp [slotBlock, hIndirect, hLt]
  simp only [ensureEntry, s.readSectors_eq hReliable, ← hWord]
  split
  · rename_i hEmpty
    rcases kfsAllocBlock_cases h.mounted hReliable with ⟨hNone, hAlloc⟩ |
      ⟨blk, hLo, hHi, hClear, hAlloc⟩
    · rw [hAlloc]
      exact .none hEmpty hNone
    · have hAfter : (s.takeBlock blk).mount.Reliable := hReliable
      simp only [hAlloc, Volume.writeSectors_eq hAfter]
      exact .took (h.takeEntry hLo hHi hClear hIndirect hOff hEmpty)
  · rename_i hUsed
    exact .found hUsed

/-- The results of `kfs_map_or_alloc_block` for logical block `l`. -/
inductive MapEnd (total : Nat) (full : Prop) (ino : Nat) (need : Nat → Prop) (s : Volume)
    (inode : Inode) (l : Nat) (dirty : Bool) : Mapping × Volume → Prop where
  | tooBig (hl : 138 ≤ l) :
      MapEnd total full ino need s inode l dirty (⟨.error (-efbig), inode, dirty⟩, s)
  | found (hl : l < 138) (hUsed : slotBlock s.disk inode l ≠ 0) :
      MapEnd total full ino need s inode l dirty (⟨.ok (slotBlock s.disk inode l), inode, dirty⟩, s)
  | took {blk : Nat} {inode' : Inode} {dirty' : Bool} {s' : Volume} (hl : l < 138)
      (hTook : Took total full ino need s inode l blk s' inode')
      (hClean : dirty' = false → dirty = false ∧ inode' = inode)
      (hIndirect : 10 ≤ l → inode.indirect ≠ 0) :
      MapEnd total full ino need s inode l dirty (⟨.ok blk, inode', dirty'⟩, s')
  | tookBoth {ind blk : Nat} {s₁ s' : Volume} (hLo : 10 ≤ l) (hHi : l < 138)
      (hFirst : Took total full ino need s inode 138 ind s₁ { inode with indirect := ind })
      (hSecond : Took total full ino (fun j => need j ∨ j = 138) s₁ { inode with indirect := ind } l
        blk s' { inode with indirect := ind }) :
      MapEnd total full ino need s inode l dirty
        (⟨.ok blk, { inode with indirect := ind }, true⟩, s')
  | none (hl : l < 138) (hEmpty : slotBlock s.disk inode l = 0) (hFree : s.freeBelow total = 0) :
      MapEnd total full ino need s inode l dirty (⟨.error (-enospc), inode, dirty⟩, s)
  | torn {ind : Nat} (hLo : 10 ≤ l) (hHi : l < 138) (hTorn : Torn total s ind)
      (hTook : Took total full ino need s inode 138 ind (s.takeBlock ind)
        { inode with indirect := ind }) :
      MapEnd total full ino need s inode l dirty
        (⟨.error (-enospc), { inode with indirect := ind }, true⟩, s.takeBlock ind)

section

variable (h : OpenedAt total full s ino inode need) (hReliable : s.mount.Reliable)

include h hReliable

/-- The direct case of `kfs_map_or_alloc_block`. -/
theorem mapDirect_ends (hDirect : l < 10) (dirty : Bool) :
    MapEnd total full ino need s inode l dirty (kfsMapOrAllocBlock s inode l dirty) := by
  have hl : l < 138 := by omega
  have hSlot : inode.direct ⟨l, hDirect⟩ = slotBlock s.disk inode l := by simp [slotBlock, hDirect]
  simp only [kfsMapOrAllocBlock, hDirect, dif_pos, hSlot]
  split
  · rename_i hEmpty
    rcases kfsAllocBlock_cases h.mounted hReliable with ⟨hNone, hAlloc⟩ |
      ⟨blk, hLo, hHi, hClear, hAlloc⟩
    · rw [hAlloc]
      exact .none hl hEmpty hNone
    · rw [hAlloc]
      exact .took hl (h.takeDirect hLo hHi hClear hDirect hEmpty) (fun hClean => by cases hClean)
        (fun hFar => absurd hDirect (by omega))
  · rename_i hUsed
    exact .found hl hUsed

/-- The case of `kfs_map_or_alloc_block` that first needs an indirect block. -/
theorem mapNewIndirect_ends (hLo : 10 ≤ l) (hHi : l < 138) (hZero : inode.indirect = 0)
    (dirty : Bool) :
    MapEnd total full ino need s inode l dirty (kfsMapOrAllocBlock s inode l dirty) := by
  have hDirect : ¬l < 10 := by omega
  have hIndex : ¬l - 10 ≥ 128 := by omega
  have hEmpty : slotBlock s.disk inode l = 0 := by simp [slotBlock, hDirect, hHi, hZero]
  have hBack : 10 + (l - 10) = l := by omega
  simp only [kfsMapOrAllocBlock, hDirect, dif_neg, not_false_eq_true, hIndex, if_false,
    ensureIndirect, hZero, if_true]
  rcases kfsAllocBlock_cases h.mounted hReliable with
    ⟨hNone, hAlloc⟩ | ⟨ind, hIndLo, hIndHi, hClear, hAlloc⟩
  · rw [hAlloc]
    exact .none hHi hEmpty hNone
  · have hFirst := h.takeIndirect hIndLo hIndHi hClear hZero
    have hStill : slotBlock (s.takeBlock ind).disk { inode with indirect := ind } l = 0 := by
      rw [hFirst.slots, update_of_ne (by omega), hEmpty]
    have hEntry := @ensureEntry_ends _ _ _ _ _ _ hFirst.opened hReliable hFirst.block (l - 10)
      (by omega)
    simp only [hAlloc]
    generalize ensureEntry (s.takeBlock ind) ind (l - 10) = result at hEntry ⊢
    cases hEntry with
    | found hUsed =>
      rw [hBack] at hUsed
      exact absurd hStill hUsed
    | took hSecond => exact .tookBoth hLo hHi hFirst (hBack ▸ hSecond)
    | none _ hFree =>
      have hCount := hFirst.free
      exact .torn hLo hHi ⟨hIndLo, hIndHi, hClear, by omega⟩ hFirst

theorem kfsMapOrAllocBlock_ends (l : Nat) (dirty : Bool) :
    MapEnd total full ino need s inode l dirty (kfsMapOrAllocBlock s inode l dirty) := by
  by_cases hDirect : l < 10
  · exact mapDirect_ends h hReliable hDirect dirty
  by_cases hIndex : l - 10 ≥ 128
  · simp only [kfsMapOrAllocBlock, hDirect, dif_neg, not_false_eq_true, hIndex, if_true]
    exact .tooBig (by omega)
  by_cases hZero : inode.indirect = 0
  · exact mapNewIndirect_ends h hReliable (by omega) (by omega) hZero dirty
  have hl : l < 138 := by omega
  have hBack : 10 + (l - 10) = l := by omega
  have hEntry := ensureEntry_ends h hReliable hZero (by omega : l - 10 < 128)
  simp only [kfsMapOrAllocBlock, hDirect, dif_neg, not_false_eq_true, hIndex, if_false,
    ensureIndirect, hZero]
  generalize ensureEntry s inode.indirect (l - 10) = result at hEntry ⊢
  cases hEntry with
  | found hUsed =>
    rw [hBack] at hUsed ⊢
    exact .found hl hUsed
  | took hTook => exact .took hl (hBack ▸ hTook) (fun hClean => ⟨hClean, rfl⟩) (fun _ => hZero)
  | none hEmpty hFree => exact .none hl (hBack ▸ hEmpty) hFree

end

/-- What `kfs_map_or_alloc_block` achieves for logical block `l` of an open file of
`m` blocks. -/
structure Mapped (total : Nat) (full : Prop) (s : Volume) (ino : Nat) (inode : Inode)
    (m l : Nat) (dirty : Bool)
    (blk : Nat) (inode' : Inode) (dirty' : Bool) (s' : Volume) : Prop where
  opened : OpenedAt total full s' ino inode' (needed (max m (l + 1)))
  within : Within s s' ino
  slot : slotBlock s'.disk inode' l = blk
  bytes : ∀ p < 512 * m, fileByte s'.disk inode' p = fileByte s.disk inode p
  size : inode'.size = inode.size
  type : inode'.type = inode.type
  free : s'.freeBelow total + blockCost (max m (l + 1)) = s.freeBelow total + blockCost m
  clean : dirty' = false → dirty = false ∧ inode' = inode

theorem OpenedAt.mapped (h : OpenedAt total full s ino inode (needed m)) (hl : l < m)
    (hDirty : dirty' = false → dirty = false) :
    Mapped total full s ino inode m l dirty (slotBlock s.disk inode l) inode dirty' s where
  opened := by rwa [max_eq_left (by omega : l + 1 ≤ m)]
  within := Within.refl s ino
  slot := rfl
  bytes := fun _ _ => rfl
  size := rfl
  type := rfl
  free := by rw [max_eq_left (by omega : l + 1 ≤ m)]
  clean := fun hClean => ⟨hDirty hClean, rfl⟩

/-- The first empty slot of a file of `m` blocks is `m`. -/
theorem OpenedAt.eq_of_empty (h : OpenedAt total full s ino inode (needed m)) (hl : l ≤ m)
    (hEmpty : slotBlock s.disk inode l = 0) : l = m := by
  by_contra hNe
  exact (h.shape l).mpr (.inl (by omega)) hEmpty

theorem OpenedAt.indirect_iff (h : OpenedAt total full s ino inode (needed m)) (hMost : m ≤ 138) :
    inode.indirect ≠ 0 ↔ 10 < m := by
  rw [← slotBlock_indirect s.disk inode, h.shape 138, needed]
  omega

theorem Took.mapped {s' : Volume} (hTook : Took total full ino (needed m) s inode m blk s' inode')
    (hShape : Shape s.disk inode (needed m)) (hMost : m < 138) (hTen : m ≠ 10)
    (hClean : dirty' = false → dirty = false ∧ inode' = inode) :
    Mapped total full s ino inode m m dirty blk inode' dirty' s' where
  opened := hTook.opened.congr_need fun k => by
    unfold needed
    omega
  within := hTook.within
  slot := by rw [hTook.slots, update_self]
  bytes := fun p hp => hTook.bytes p (by omega) ((hShape _).mpr (.inl (by omega)))
  size := hTook.size
  type := hTook.type
  free := by
    have hCount := hTook.free
    unfold blockCost
    split_ifs <;> omega
  clean := hClean

/-- `kfs_map_or_alloc_block` maps every logical block up to the first unused one. -/
theorem kfsMapOrAllocBlock_spec (h : OpenedAt total full s ino inode (needed m))
    (hReliable : s.mount.Reliable) (hMost : m ≤ 138) (hl : l ≤ m) (hLt : l < 138) (dirty : Bool)
    (hRoom : blockCost (max m (l + 1)) ≤ s.freeBelow total + blockCost m) :
    ∃ blk inode' dirty' s', kfsMapOrAllocBlock s inode l dirty = (⟨.ok blk, inode', dirty'⟩, s') ∧
      Mapped total full s ino inode m l dirty blk inode' dirty' s' := by
  have hEnd := kfsMapOrAllocBlock_ends h hReliable l dirty
  have hIndirect := h.indirect_iff hMost
  generalize kfsMapOrAllocBlock s inode l dirty = result at hEnd ⊢
  cases hEnd with
  | tooBig hBig => omega
  | found _ hUsed =>
    refine ⟨_, inode, dirty, s, rfl, h.mapped ?_ id⟩
    have hNeed := (h.shape l).mp hUsed
    unfold needed at hNeed
    omega
  | took _ hTook hClean hSome =>
    obtain rfl := h.eq_of_empty hl hTook.empty
    exact ⟨_, _, _, _, rfl, hTook.mapped h.shape hLt (by omega) hClean⟩
  | @tookBoth ind blk s₁ s' hLo _ hFirst hSecond =>
    -- the eleventh block: the file gets its indirect block as well
    have hZero : ¬inode.indirect ≠ 0 := by
      rw [← slotBlock_indirect s.disk inode, hFirst.empty]
      exact not_not_intro rfl
    obtain ⟨rfl, rfl⟩ : m = 10 ∧ l = 10 := by omega
    have hCosts : blockCost (max 10 (10 + 1)) = 12 ∧ blockCost 10 = 10 := ⟨rfl, rfl⟩
    refine ⟨_, _, _, _, rfl, ?_, hFirst.within.trans hSecond.within, ?_, ?_, rfl, rfl, ?_, ?_⟩
    · refine hSecond.opened.congr_need (fun k => ?_)
      unfold needed
      omega
    · rw [hSecond.slots, update_self]
    · intro p hp
      have hUsed : slotBlock s.disk inode (p / 512) ≠ 0 := (h.shape _).mpr (.inl (by omega))
      rw [hSecond.bytes p (by omega) ((hFirst.opened.shape _).mpr (.inl (.inl (by omega)))),
        hFirst.bytes p (by omega) hUsed]
    · have hCount := hFirst.free
      have hCount' := hSecond.free
      omega
    · exact fun hClean => nomatch hClean
  | none _ hEmpty hFree =>
    obtain rfl := h.eq_of_empty hl hEmpty
    unfold blockCost at hRoom
    split_ifs at hRoom <;> omega
  | torn hLo _ hTorn hTook =>
    have hZero : ¬inode.indirect ≠ 0 := by
      rw [← slotBlock_indirect s.disk inode, hTook.empty]
      exact not_not_intro rfl
    have hLast := hTorn.last
    obtain ⟨rfl, rfl⟩ : m = 10 ∧ l = 10 := by omega
    have hCosts : blockCost (max 10 (10 + 1)) = 12 ∧ blockCost 10 = 10 := ⟨rfl, rfl⟩
    omega

/-- Without room for the next block of a file, its mapping fails. -/
theorem kfsMapOrAllocBlock_noRoom (h : OpenedAt total full s ino inode (needed m))
    (hReliable : s.mount.Reliable) (hMost : m < 138) (dirty : Bool)
    (hRoom : s.freeBelow total + blockCost m < blockCost (m + 1)) :
    (s.freeBelow total = 0 ∧
      kfsMapOrAllocBlock s inode m dirty = (⟨.error (-enospc), inode, dirty⟩, s)) ∨
    m = 10 ∧ ∃ ind, Torn total s ind ∧ kfsMapOrAllocBlock s inode m dirty =
      (⟨.error (-enospc), { inode with indirect := ind }, true⟩, s.takeBlock ind) := by
  have hEnd := kfsMapOrAllocBlock_ends h hReliable m dirty
  have hIndirect := h.indirect_iff hMost.le
  have hCost : s.freeBelow total = 0 ∨ s.freeBelow total = 1 ∧ m = 10 := by
    unfold blockCost at hRoom
    split_ifs at hRoom <;> omega
  generalize kfsMapOrAllocBlock s inode m dirty = result at hEnd ⊢
  cases hEnd with
  | tooBig hBig => omega
  | found _ hUsed =>
    have hNeed := (h.shape m).mp hUsed
    unfold needed at hNeed
    omega
  | took _ hTook _ hSome =>
    have hCount := hTook.free
    omega
  | tookBoth _ _ hFirst hSecond =>
    have hCount := hFirst.free
    have hCount' := hSecond.free
    omega
  | none _ _ hFree => exact .inl ⟨hFree, rfl⟩
  | torn _ _ hTorn _ =>
    have hLast := hTorn.last
    exact .inr ⟨by omega, _, hTorn, rfl⟩

end Volume

end Kryos.Fs
