import Kryos.Fs.FileBlocks

/-! Giving blocks back: the effect of `kfs_free_inode_blocks` and of the loops of
`kfs_remove_dirent` on an open inode. -/
namespace Kryos.Fs

open Bitmap Function LittleEndian

namespace Volume

variable {total : Nat} {full : Prop} {s s' : Volume} {ino : Nat} {inode inode' : Inode}
  {need need' : Nat → Prop}

/-- An open inode gives back the blocks of the slots outside `need'`. The step may
also change the inode's own indirect block. -/
theorem OpenedAt.shrink (h : OpenedAt total full s ino inode need) (hMounted : s'.MountedAt total)
    (hMount : s'.mount = s.mount) (hInodes : s'.inodeBitmap = s.inodeBitmap)
    (hDisk : ∀ c, 74 ≤ c → c ≠ inode.indirect → s'.disk c = s.disk c)
    (hKept : ∀ k, need' k → need k ∧ slotBlock s'.disk inode' k = slotBlock s.disk inode k)
    (hGone : ∀ k, ¬need' k → slotBlock s'.disk inode' k = 0)
    (hBits : ∀ c, isSet s'.blockBitmap c = true ↔
      isSet s.blockBitmap c = true ∧ ∀ k, need k → slotBlock s.disk inode k = c → need' k)
    (hFits : inode'.Fits) :
    OpenedAt total full s' ino inode' need' ∧ Within s s' ino := by
  have hLive := live_congr hInodes
  obtain ⟨hWithin, hOthers⟩ := h.keep hMount hInodes (fun c hc hHeld => by
    refine hDisk c hc ?_
    rintro rfl
    have hRange := h.indirect_range
    exact (hHeld (by omega)).2 138 rfl)
  -- the slots after the step, read in the state before it
  have hOwn : ∀ k, s'.slots (update s'.table ino inode') (ino, k) =
      slotBlock s'.disk inode' k := slots_own (by rw [hLive]; exact h.live)
  have hSame : ∀ x, s'.slots (update s'.table ino inode') x ≠ 0 →
      s'.slots (update s'.table ino inode') x =
        s.slots (update s.table ino inode) x := by
    intro x hx
    obtain ⟨i, k⟩ := x
    by_cases hi : i = ino
    · subst hi
      rw [hOwn] at hx ⊢
      have hNeed : need' k := by
        by_contra hNot
        exact hx (hGone k hNot)
      rw [(hKept k hNeed).2, slots_own h.live]
    · exact hWithin.slots_other hi inode inode' k
  refine ⟨⟨hMounted, by rw [hLive]; exact h.live, ?_, ?_, hOthers, ?_, hFits⟩, hWithin⟩
  · apply h.exclusive.shrink hSame
    intro x hx
    have hBefore := hSame x hx
    rw [hBefore] at hx
    rw [hBefore, hBits]
    refine ⟨h.exclusive.used x hx, ?_⟩
    intro k _ hEq
    rw [← slots_own h.live] at hEq
    have hUnique := h.exclusive.unique (ino, k) x (hEq ▸ hx) hEq
    subst hUnique
    by_contra hNot
    rw [hOwn, hGone k hNot] at hBefore
    exact hx hBefore.symm
  · intro hFull
    apply (h.covered hFull).shrink (by omega)
    · intro c _ hc
      exact ((hBits c).mp hc).1
    · intro x hx hc
      obtain ⟨i, k⟩ := x
      by_cases hi : i = ino
      · subst hi
        rw [slots_own h.live] at hx hc ⊢
        have hNeed := ((hBits _).mp hc).2 k ((h.shape k).mp hx) rfl
        rw [hOwn, (hKept k hNeed).2]
      · exact hWithin.slots_other hi inode inode' k
  · intro k
    constructor
    · intro hk
      by_contra hNot
      exact hk (hGone k hNot)
    · intro hk
      rw [(hKept k hk).2]
      exact (h.shape k).mpr (hKept k hk).1

/-- The effect of giving back the blocks of a list; the entry `0` stands for none. -/
structure Dropped (total : Nat) (s s' : Volume) (blocks : List Nat) : Prop where
  mounted : s'.MountedAt total
  mount : s'.mount = s.mount
  inodeBitmap : s'.inodeBitmap = s.inodeBitmap
  disk : ∀ c, 74 ≤ c → s'.disk c = s.disk c
  bits : ∀ c, 90 ≤ c → (isSet s'.blockBitmap c = true ↔
    isSet s.blockBitmap c = true ∧ c ∉ blocks)
  low : ∀ c < 90, isSet s'.blockBitmap c = isSet s.blockBitmap c

theorem Dropped.nil (h : s.MountedAt total) : Dropped total s s [] :=
  ⟨h, rfl, rfl, fun _ _ => rfl, fun _ _ => by simp, fun _ _ => rfl⟩

theorem Dropped.dropBlock (h : s.MountedAt total) {b : Nat} (hLo : 90 ≤ b) (hHi : b < total) :
    Dropped total s (s.dropBlock b) [b] where
  mounted := h.dropBlock hLo (h.lt hHi)
  mount := rfl
  inodeBitmap := rfl
  disk := fun _ hc => dropBlock_disk (h.lt hHi) (by omega)
  bits := by
    simp [and_comm]
  low := by
    intro c hc
    have hNe : c ≠ b := by omega
    simp [hNe]

theorem Dropped.trans {s'' : Volume} {first second : List Nat} (h : Dropped total s s' first)
    (h' : Dropped total s' s'' second) : Dropped total s s'' (first ++ second) where
  mounted := h'.mounted
  mount := h'.mount.trans h.mount
  inodeBitmap := h'.inodeBitmap.trans h.inodeBitmap
  disk := fun c hc => (h'.disk c hc).trans (h.disk c hc)
  bits := by
    intro c hc
    rw [h'.bits c hc, h.bits c hc, List.mem_append]
    tauto
  low := fun c hc => (h'.low c hc).trans (h.low c hc)

theorem Dropped.skip {blocks : List Nat} (h : Dropped total s s' blocks) :
    Dropped total s s' (0 :: blocks) where
  mounted := h.mounted
  mount := h.mount
  inodeBitmap := h.inodeBitmap
  disk := h.disk
  bits := by
    intro c hc
    have hNe : c ≠ 0 := by omega
    rw [h.bits c hc]
    simp [hNe]
  low := h.low

/-- `kfs_free_block` under the guard that the block is not `0`. -/
theorem Dropped.freeBlock (h : s.MountedAt total) (hReliable : s.mount.Reliable) {b : Nat}
    (hRange : b ≠ 0 → 90 ≤ b ∧ b < total) :
    Dropped total s (if b ≠ 0 then (kfsFreeBlock s b).2 else s) [b] := by
  by_cases hb : b = 0
  · rw [if_neg (by simp [hb]), hb]
    exact (Dropped.nil h).skip
  · rw [if_pos hb, kfsFreeBlock_eq h hReliable (hRange hb).1 (hRange hb).2]
    exact Dropped.dropBlock h (hRange hb).1 (hRange hb).2

theorem freeDirect_eq (i : Fin 10) :
    freeDirect (inode, s) i =
      ({ inode with direct := update inode.direct i 0 },
        if inode.direct i ≠ 0 then (kfsFreeBlock s (inode.direct i)).2 else s) := by
  unfold freeDirect
  by_cases hZero : inode.direct i = 0
  · have hSame : update inode.direct i 0 = inode.direct := by
      rw [← hZero, update_eq_self]
    simp [hZero, hSame]
  · simp [hZero]

/-- The first loop of `kfs_free_inode_blocks`, over any of the direct slots. -/
theorem freeDirect_fold (indices : List (Fin 10)) (hNodup : indices.Nodup) {inode : Inode}
    {s : Volume} (h : s.MountedAt total) (hReliable : s.mount.Reliable)
    (hRange : ∀ i, inode.direct i ≠ 0 → 90 ≤ inode.direct i ∧ inode.direct i < total) :
    ∃ s', indices.foldl freeDirect (inode, s) =
        ({ inode with direct := fun i => if i ∈ indices then 0 else inode.direct i }, s') ∧
      Dropped total s s' (indices.map inode.direct) := by
  induction indices generalizing inode s with
  | nil => exact ⟨s, by simp, Dropped.nil h⟩
  | cons i rest ih =>
    have hFirst := Dropped.freeBlock h hReliable (hRange i)
    have hNotMem := (List.nodup_cons.mp hNodup).1
    have hReliable' : (if inode.direct i ≠ 0 then
        (kfsFreeBlock s (inode.direct i)).2 else s).mount.Reliable := by
      rw [hFirst.mount]
      exact hReliable
    obtain ⟨s', hRun, hRest⟩ := @ih (List.nodup_cons.mp hNodup).2
      { inode with direct := update inode.direct i 0 } _ hFirst.mounted hReliable' (by
        intro j hj
        by_cases hij : j = i
        · subst hij
          simp at hj
        · simp only [update_of_ne hij] at hj ⊢
          exact hRange j hj)
    refine ⟨s', ?_, ?_⟩
    · rw [List.foldl_cons, freeDirect_eq, hRun]
      congr 2
      funext j
      by_cases hij : j = i
      · simp [hij]
      · simp [hij]
    · have hMap : rest.map (update inode.direct i 0) = rest.map inode.direct := by
        apply List.map_congr_left
        intro j hj
        apply update_of_ne
        rintro rfl
        exact hNotMem hj
      rw [hMap] at hRest
      exact hFirst.trans hRest

theorem freeEntry_fold (buf : Sector) (indices : List Nat) {s : Volume} (h : s.MountedAt total)
    (hReliable : s.mount.Reliable)
    (hRange : ∀ i ∈ indices, readWord buf i ≠ 0 → 90 ≤ readWord buf i ∧ readWord buf i < total) :
    Dropped total s (indices.foldl (freeEntry buf) s) (indices.map (readWord buf)) := by
  induction indices generalizing s with
  | nil => exact Dropped.nil h
  | cons i rest ih =>
    have hFirst := Dropped.freeBlock h hReliable (hRange i List.mem_cons_self)
    have hRest := @ih (freeEntry buf s i) hFirst.mounted
      (by rw [freeEntry, hFirst.mount]; exact hReliable)
      (fun j hj => hRange j (List.mem_cons_of_mem _ hj))
    exact hFirst.trans hRest

/-- The blocks that an inode holds, in the order in which they are given back. -/
def ownBlocks (disk : Nat → Sector) (inode : Inode) : List Nat :=
  (List.finRange 10).map inode.direct ++
    if inode.indirect ≠ 0 then
      (List.range 128).map (readWord (disk inode.indirect)) ++ [inode.indirect]
    else []

theorem mem_ownBlocks {disk : Nat → Sector} {b : Nat} (hb : b ≠ 0) :
    b ∈ ownBlocks disk inode ↔ ∃ k, slotBlock disk inode k = b := by
  unfold ownBlocks
  rw [List.mem_append, List.mem_map]
  constructor
  · intro h
    rcases h with ⟨i, _, hi⟩ | hIndirect
    · exact ⟨i, by simp [slotBlock, hi]⟩
    · split at hIndirect
      · rename_i hNe
        rw [List.mem_append, List.mem_map, List.mem_singleton] at hIndirect
        rcases hIndirect with ⟨i, hi, hEq⟩ | hEq
        · rw [List.mem_range] at hi
          refine ⟨10 + i, ?_⟩
          simp [slotBlock, hNe, hEq, show 10 + i < 138 by omega]
        · exact ⟨138, by rw [slotBlock_indirect, hEq]⟩
      · cases hIndirect
  · intro h
    obtain ⟨k, hk⟩ := h
    unfold slotBlock at hk
    split at hk
    · rename_i hDirect
      exact .inl ⟨⟨k, hDirect⟩, List.mem_finRange _, hk⟩
    · right
      split at hk
      · split at hk
        · exact absurd hk.symm hb
        · rename_i hNe
          rw [if_pos hNe, List.mem_append, List.mem_map]
          exact .inl ⟨k - 10, List.mem_range.mpr (by omega), hk⟩
      · split at hk
        · rw [if_pos (by rw [hk]; exact hb), List.mem_append, List.mem_singleton]
          exact .inr hk.symm
        · exact absurd hk.symm hb

theorem OpenedAt.direct_range (h : OpenedAt total full s ino inode need) (i : Fin 10)
    (hi : inode.direct i ≠ 0) : 90 ≤ inode.direct i ∧ inode.direct i < total := by
  have hSlot : slotBlock s.disk inode i = inode.direct i := by simp [slotBlock]
  have hRange := @OpenedAt.range _ _ _ _ _ _ h i
  rw [hSlot] at hRange
  exact hRange hi

theorem OpenedAt.entry_range (h : OpenedAt total full s ino inode need)
    (hIndirect : inode.indirect ≠ 0)
    {i : Nat} (hi : i < 128) (hEntry : readWord (s.disk inode.indirect) i ≠ 0) :
    90 ≤ readWord (s.disk inode.indirect) i ∧ readWord (s.disk inode.indirect) i < total := by
  have hSlot : slotBlock s.disk inode (10 + i) = readWord (s.disk inode.indirect) i := by
    simp [slotBlock, hIndirect, show 10 + i < 138 by omega]
  have hRange := @OpenedAt.range _ _ _ _ _ _ h (10 + i)
  rw [hSlot] at hRange
  exact hRange hEntry

/-- `kfs_free_inode_blocks` gives back every block of the inode. -/
theorem kfsFreeInodeBlocks_dropped (h : OpenedAt total full s ino inode need)
    (hReliable : s.mount.Reliable) :
    ∃ s', kfsFreeInodeBlocks s inode =
        ({ inode with direct := fun _ => 0, indirect := 0 }, s') ∧
      Dropped total s s' (ownBlocks s.disk inode) := by
  obtain ⟨s₁, hDirect, hDropped⟩ :=
    freeDirect_fold (List.finRange 10) (List.nodup_finRange 10) h.mounted hReliable h.direct_range
  have hReliable₁ : s₁.mount.Reliable := by rw [hDropped.mount]; exact hReliable
  have hCleared : (fun i => if i ∈ List.finRange 10 then 0 else inode.direct i) = fun _ => 0 := by
    simp
  by_cases hIndirect : inode.indirect = 0
  · refine ⟨s₁, ?_, ?_⟩
    · rw [kfsFreeInodeBlocks, hDirect]
      simp [hIndirect]
    · simpa [ownBlocks, hIndirect] using hDropped
  · have hInd := h.indirect_range
    have hSame : s₁.disk inode.indirect = s.disk inode.indirect :=
      hDropped.disk _ (by omega)
    have hEntries := freeEntry_fold (s.disk inode.indirect) (List.range 128) hDropped.mounted
      hReliable₁ (fun i hi => h.entry_range hIndirect (List.mem_range.mp hi))
    have hReliable₂ := hReliable₁
    rw [← hEntries.mount] at hReliable₂
    have hLast := @Dropped.freeBlock _ _ hEntries.mounted hReliable₂ inode.indirect
      (fun _ => by omega)
    rw [if_pos hIndirect] at hLast
    refine ⟨(kfsFreeBlock ((List.range 128).foldl (freeEntry (s.disk inode.indirect)) s₁)
      inode.indirect).2, ?_, ?_⟩
    · rw [kfsFreeInodeBlocks, hDirect]
      simp [hIndirect, s₁.readSectors_eq hReliable₁, hSame]
    · rw [ownBlocks, if_pos hIndirect, ← List.append_assoc]
      exact (hDropped.trans hEntries).trans hLast

theorem slotBlock_cleared (disk : Nat → Sector) (inode : Inode) (k : Nat) :
    slotBlock disk { inode with direct := fun _ => 0, indirect := 0 } k = 0 := by
  simp [slotBlock]

theorem fits_cleared {inode : Inode} (h : inode.Fits) :
    ({ inode with direct := fun _ => 0, indirect := 0 } : Inode).Fits := by
  intro k
  have hk := h k
  unfold Inode.word at hk ⊢
  split_ifs at hk ⊢ with h0 h1 hDirect h12 h13
  all_goals first | exact hk | exact Nat.two_pow_pos 32

/-- `kfs_free_inode_blocks` leaves an open inode without blocks. -/
theorem OpenedAt.freeAll (h : OpenedAt total full s ino inode need) (hReliable : s.mount.Reliable) :
    ∃ inode' s', kfsFreeInodeBlocks s inode = (inode', s') ∧ inode'.type = inode.type ∧
      OpenedAt total full s' ino inode' (fun _ => False) ∧ Within s s' ino := by
  obtain ⟨s', hRun, hDropped⟩ := kfsFreeInodeBlocks_dropped h hReliable
  refine ⟨_, s', hRun, rfl, h.shrink hDropped.mounted hDropped.mount hDropped.inodeBitmap
    (fun c hc _ => hDropped.disk c hc) (fun k hk => hk.elim)
    (fun k _ => slotBlock_cleared _ _ k) ?_ (fits_cleared h.fits)⟩
  intro c
  by_cases hc : 90 ≤ c
  · rw [hDropped.bits c hc, mem_ownBlocks (by omega)]
    constructor
    · intro hBits
      exact ⟨hBits.1, fun k _ hEq => hBits.2 ⟨k, hEq⟩⟩
    · intro hBits
      refine ⟨hBits.1, fun hOwn => ?_⟩
      obtain ⟨k, hk⟩ := hOwn
      exact hBits.2 k ((h.shape k).mp (by omega)) hk
  · rw [hDropped.low c (by omega)]
    refine ⟨fun hBit => ⟨hBit, ?_⟩, fun hBits => hBits.1⟩
    intro k hk hEq
    have hRange := h.range ((h.shape k).mpr hk)
    omega

end Volume

end Kryos.Fs
