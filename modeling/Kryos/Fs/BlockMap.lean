import Kryos.Fs.Volume

/-! The blocks behind the inodes. A volume is read as a table of files with their
bytes; the invariant says that no block is held twice. While an operation works on
an inode it holds a copy that may differ from the one on disk: the inode is open. -/
namespace Kryos.Fs

open Bitmap Function LittleEndian Slots

variable {disk disk' : Nat → Sector} {inode : Inode} {s'' : Volume} {touched touched' : List Nat}
  {i k : Nat}

/-- The block in a slot of an inode. Slots `0` to `137` are the logical blocks, slot
`138` is the indirect block itself. -/
def slotBlock (disk : Nat → Sector) (inode : Inode) (k : Nat) : Nat :=
  if h : k < 10 then inode.direct ⟨k, h⟩
  else if k < 138 then
    if inode.indirect = 0 then 0 else readWord (disk inode.indirect) (k - 10)
  else if k = 138 then inode.indirect
  else 0

/-- The slots that a file of that many blocks uses. -/
def needed (blocks k : Nat) : Prop := k < blocks ∨ k = 138 ∧ 10 < blocks

/-- The slots in use are those of `need`. -/
def Shape (disk : Nat → Sector) (inode : Inode) (need : Nat → Prop) : Prop :=
  ∀ k, slotBlock disk inode k ≠ 0 ↔ need k

/-- The slots in use are those that the size asks for, and there are enough. -/
structure Sized (disk : Nat → Sector) (inode : Inode) : Prop where
  bound : inode.size ≤ 138 * 512
  shape : Shape disk inode (needed (blocksOf inode.size))

def fileByte (disk : Nat → Sector) (inode : Inode) (p : Nat) : UInt8 :=
  disk (slotBlock disk inode (p / 512)) (p % 512)

/-- The `count` bytes of a file from `start` on. -/
def fileSlice (disk : Nat → Sector) (inode : Inode) (start count : Nat) : List UInt8 :=
  (List.range count).map (fun i => fileByte disk inode (start + i))

def fileContent (disk : Nat → Sector) (inode : Inode) : List UInt8 :=
  fileSlice disk inode 0 inode.size

/-- A file as its users see it. -/
structure File where
  type : Nat
  content : List UInt8
  deriving DecidableEq, Repr

namespace Volume

/-- The slots of all marked inodes, read through a table of inodes. -/
def slots (s : Volume) (table : Nat → Inode) : Nat × Nat → Nat :=
  fun x => if s.live x.1 then slotBlock s.disk (table x.1) x.2 else 0

/-- The files of a volume by inode number. -/
def files (s : Volume) : Nat → Option File :=
  fun i => if s.live i then some ⟨(s.table i).type, fileContent s.disk (s.table i)⟩ else none

/-- The blocks of the files by inode number and slot. -/
def blocks (s : Volume) : Nat → Option (Nat → Nat) :=
  fun i => if s.live i then some (slotBlock s.disk (s.table i)) else none

/-- What an operation on the files of `touched` keeps. -/
structure Frame (s s' : Volume) (touched : List Nat) : Prop where
  mount : s'.mount = s.mount
  blocks : ∀ i, i ∉ touched → s'.blocks i = s.blocks i

/-- The invariant of the blocks. Under `full`, every marked data block is held by an
inode. -/
structure ConsistentAt (total : Nat) (full : Prop) (s : Volume) : Prop where
  mounted : s.MountedAt total
  exclusive : Exclusive 90 total (isSet s.blockBitmap) (s.slots s.table)
  sized : ∀ i, s.live i = true → Sized s.disk (s.table i)
  covered : full → Covered 90 total (isSet s.blockBitmap) (s.slots s.table)

abbrev Consistent (full : Prop) (s : Volume) : Prop := s.ConsistentAt 32768 full

/-- The invariant while the inode `ino` is open: `inode` stands for the one on disk,
and its used slots are those of `need`. -/
structure OpenedAt (total : Nat) (full : Prop) (s : Volume) (ino : Nat) (inode : Inode)
    (need : Nat → Prop) : Prop where
  mounted : s.MountedAt total
  live : s.live ino = true
  exclusive : Exclusive 90 total (isSet s.blockBitmap) (s.slots (update s.table ino inode))
  covered : full →
    Covered 90 total (isSet s.blockBitmap) (s.slots (update s.table ino inode))
  others : ∀ i, i ≠ ino → s.live i = true → Sized s.disk (s.table i)
  shape : Shape s.disk inode need
  fits : inode.Fits

/-- What the work on an open inode keeps. -/
structure Within (s s' : Volume) (ino : Nat) : Prop where
  mount : s'.mount = s.mount
  inodeBitmap : s'.inodeBitmap = s.inodeBitmap
  table : s'.table = s.table
  files : ∀ i, i ≠ ino → s'.files i = s.files i
  blocks : ∀ i, i ≠ ino → s'.blocks i = s.blocks i

end Volume

theorem slotBlock_indirect (disk : Nat → Sector) (inode : Inode) :
    slotBlock disk inode 138 = inode.indirect := by
  simp [slotBlock]

theorem slotBlock_congr (h : inode.indirect ≠ 0 → disk' inode.indirect = disk inode.indirect) :
    slotBlock disk' inode = slotBlock disk inode := by
  unfold slotBlock
  by_cases hZero : inode.indirect = 0
  · simp only [hZero, if_true]
  · rw [h hZero]

theorem lt_blocksOf {p size : Nat} (h : p < size) : p / 512 < blocksOf size := by
  unfold blocksOf
  omega

/-- A file is not touched by writes to blocks it does not hold. -/
theorem Sized.congr (h : Sized disk inode) (hKeep : ∀ k, slotBlock disk inode k ≠ 0 →
      disk' (slotBlock disk inode k) = disk (slotBlock disk inode k)) :
    slotBlock disk' inode = slotBlock disk inode ∧ Sized disk' inode ∧
      fileContent disk' inode = fileContent disk inode := by
  have hSlots : slotBlock disk' inode = slotBlock disk inode := by
    apply slotBlock_congr
    intro hIndirect
    have hAt := hKeep 138
    exact hAt hIndirect
  refine ⟨hSlots, ⟨h.bound, ?_⟩, ?_⟩
  · rw [Shape, hSlots]
    exact h.shape
  · apply List.map_congr_left
    intro i hi
    rw [List.mem_range] at hi
    have hUsed := (h.shape ((0 + i) / 512)).mpr (.inl (lt_blocksOf (by omega)))
    rw [fileByte, fileByte, hSlots, hKeep _ hUsed]

namespace Volume

variable {total : Nat} {full : Prop} {s s' : Volume} {ino : Nat}
  {inode inode' : Inode} {need : Nat → Prop}

theorem Frame.refl (s : Volume) (touched : List Nat) : Frame s s touched := ⟨rfl, fun _ _ => rfl⟩

theorem Frame.trans (h : Frame s s' touched) (h' : Frame s' s'' touched') :
    Frame s s'' (touched ++ touched') := by
  refine ⟨h'.mount.trans h.mount, fun i hi => ?_⟩
  rw [List.mem_append, not_or] at hi
  rw [h'.blocks i hi.2, h.blocks i hi.1]

theorem Frame.mono (h : Frame s s' touched) (hSub : ∀ i ∈ touched, i ∈ touched') :
    Frame s s' touched' :=
  ⟨h.mount, fun i hi => h.blocks i (fun hMem => hi (hSub i hMem))⟩

theorem Frame.trans_same (h : Frame s s' touched) (h' : Frame s' s'' touched) :
    Frame s s'' touched :=
  (h.trans h').mono (fun _ hi => (List.mem_append.mp hi).elim id id)

/-- A file that is as before need not be named. -/
theorem Frame.drop (h : Frame s s' [ino]) (hSame : s'.blocks ino = s.blocks ino) :
    Frame s s' [] := by
  refine ⟨h.mount, fun i _ => ?_⟩
  by_cases hi : i = ino
  · rw [hi, hSame]
  · exact h.blocks i (fun hMem => hi (List.mem_singleton.mp hMem))

theorem blocks_eq_none (h : s.files i = none) : s.blocks i = none := by
  unfold files at h
  unfold blocks
  split at h
  · cases h
  · rename_i hDead
    rw [if_neg hDead]

theorem files_eq_some {file : File} :
    s.files i = some file ↔
      s.live i = true ∧ (s.table i).type = file.type ∧
        fileContent s.disk (s.table i) = file.content := by
  unfold files
  cases file with
  | mk type content =>
    split
    · rename_i hLive
      simp [hLive]
    · rename_i hDead
      simp [hDead]

theorem Within.frame (h : Within s s' ino) : Frame s s' [ino] :=
  ⟨h.mount, fun i hi => h.blocks i (fun hEq => hi (List.mem_singleton.mpr hEq))⟩

theorem Within.refl (s : Volume) (ino : Nat) : Within s s ino :=
  ⟨rfl, rfl, rfl, fun _ _ => rfl, fun _ _ => rfl⟩

theorem Within.trans (h : Within s s' ino) (h' : Within s' s'' ino) : Within s s'' ino :=
  ⟨h'.mount.trans h.mount, h'.inodeBitmap.trans h.inodeBitmap, h'.table.trans h.table,
    fun i hi => (h'.files i hi).trans (h.files i hi),
    fun i hi => (h'.blocks i hi).trans (h.blocks i hi)⟩

theorem live_congr (h : s'.inodeBitmap = s.inodeBitmap) : s'.live = s.live := by
  funext i
  rw [live, live, h]

theorem Within.live (h : Within s s' ino) : s'.live = s.live := live_congr h.inodeBitmap

theorem ConsistentAt.open (h : ConsistentAt total full s) (hLive : s.live ino = true) :
    OpenedAt total full s ino (s.table ino) (needed (blocksOf (s.table ino).size)) where
  mounted := h.mounted
  live := hLive
  exclusive := by
    rw [update_eq_self]
    exact h.exclusive
  covered := by
    rw [update_eq_self]
    exact h.covered
  others := fun i _ => h.sized i
  shape := (h.sized ino hLive).shape
  fits := Inode.Fits.table s ino

/-- An open inode that equals the one on disk need not be written. -/
theorem OpenedAt.settle
      (h : OpenedAt total full s ino (s.table ino) (needed (blocksOf (s.table ino).size)))
    (hBound : (s.table ino).size ≤ 138 * 512) : ConsistentAt total full s where
  mounted := h.mounted
  exclusive := by
    have hEq := h.exclusive
    rwa [update_eq_self] at hEq
  sized := by
    intro i hi
    by_cases hIno : i = ino
    · subst hIno
      exact ⟨hBound, h.shape⟩
    · exact h.others i hIno hi
  covered := by
    have hEq := h.covered
    rwa [update_eq_self] at hEq

theorem slots_own (hLive : s.live ino = true) (k : Nat) :
    s.slots (update s.table ino inode) (ino, k) = slotBlock s.disk inode k := by
  simp [slots, hLive]

theorem slots_other (hi : i ≠ ino) (hLive : s.live i = true) (k : Nat) :
    s.slots (update s.table ino inode) (i, k) = slotBlock s.disk (s.table i) k := by
  simp [slots, hLive, hi]

theorem OpenedAt.range (h : OpenedAt total full s ino inode need) {k : Nat}
    (hk : slotBlock s.disk inode k ≠ 0) :
    90 ≤ slotBlock s.disk inode k ∧ slotBlock s.disk inode k < total := by
  have hRange := h.exclusive.range (ino, k)
  rw [slots_own h.live] at hRange
  exact hRange hk

theorem OpenedAt.other_range (h : OpenedAt total full s ino inode need) (hi : i ≠ ino)
    (hLive : s.live i = true) (hk : slotBlock s.disk (s.table i) k ≠ 0) :
    90 ≤ slotBlock s.disk (s.table i) k ∧ slotBlock s.disk (s.table i) k < total := by
  have hRange := h.exclusive.range (i, k)
  rw [slots_other hi hLive] at hRange
  exact hRange hk

theorem OpenedAt.apart (h : OpenedAt total full s ino inode need) {i k l : Nat} (hi : i ≠ ino)
    (hLive : s.live i = true) (hk : slotBlock s.disk (s.table i) k ≠ 0) :
    slotBlock s.disk (s.table i) k ≠ slotBlock s.disk inode l := by
  intro hEq
  have hUnique := h.exclusive.unique (i, k) (ino, l)
  rw [slots_other hi hLive, slots_own h.live] at hUnique
  exact hi (congrArg Prod.fst (hUnique hk hEq))

theorem OpenedAt.own_inj (h : OpenedAt total full s ino inode need) {l : Nat}
    (hk : slotBlock s.disk inode k ≠ 0)
    (hEq : slotBlock s.disk inode k = slotBlock s.disk inode l) : k = l := by
  have hUnique := h.exclusive.unique (ino, k) (ino, l)
  rw [slots_own h.live, slots_own h.live] at hUnique
  exact congrArg Prod.snd (hUnique hk hEq)

theorem OpenedAt.indirect_range (h : OpenedAt total full s ino inode need) :
    inode.indirect = 0 ∨ 90 ≤ inode.indirect ∧ inode.indirect < total := by
  by_cases hZero : inode.indirect = 0
  · exact .inl hZero
  · have hRange := @OpenedAt.range _ _ _ _ _ _ h 138
    exact .inr (hRange hZero)

/-- A step that changes only free blocks and those of the inode keeps the files of the
others. -/
theorem OpenedAt.keep (h : OpenedAt total full s ino inode need) (hMount : s'.mount = s.mount)
    (hInodes : s'.inodeBitmap = s.inodeBitmap)
    (hDisk : ∀ c, 74 ≤ c → (90 ≤ c → isSet s.blockBitmap c = true ∧
      ∀ l, c ≠ slotBlock s.disk inode l) → s'.disk c = s.disk c) :
    Within s s' ino ∧ ∀ i, i ≠ ino → s'.live i = true → Sized s'.disk (s'.table i) := by
  have hTable : s'.table = s.table :=
    table_congr fun c hc hData => hDisk c hc fun hLo => by omega
  have hOthers : ∀ i, i ≠ ino → s.live i = true →
      slotBlock s'.disk (s.table i) = slotBlock s.disk (s.table i) ∧
        Sized s'.disk (s.table i) ∧
          fileContent s'.disk (s.table i) = fileContent s.disk (s.table i) := by
    intro i hi hLive
    refine (h.others i hi hLive).congr fun k hk => hDisk _ ?_ fun _ =>
      ⟨?_, fun _ => h.apart hi hLive hk⟩
    · have hRange := h.other_range hi hLive hk
      omega
    · have hUsed := h.exclusive.used (i, k)
      rw [slots_other hi hLive] at hUsed
      exact hUsed hk
  refine ⟨⟨hMount, hInodes, hTable, ?_, ?_⟩, ?_⟩
  · intro i hi
    rw [files, files, live_congr hInodes, hTable]
    cases hLive : s.live i with
    | false => rfl
    | true => rw [(hOthers i hi hLive).2.2]
  · intro i hi
    rw [blocks, blocks, live_congr hInodes, hTable]
    cases hLive : s.live i with
    | false => rfl
    | true => rw [(hOthers i hi hLive).1]
  · intro i hi hLive
    rw [live_congr hInodes] at hLive
    rw [hTable]
    exact (hOthers i hi hLive).2.1

theorem Within.slots_other (h : Within s s' ino) (hi : i ≠ ino) (inode inode' : Inode) (k : Nat) :
    s'.slots (update s'.table ino inode') (i, k) = s.slots (update s.table ino inode) (i, k) := by
  have hBlocks := h.blocks i hi
  simp only [Volume.blocks, Volume.slots, update_of_ne hi, h.live] at hBlocks ⊢
  split_ifs at hBlocks ⊢
  · exact congrFun (Option.some.inj hBlocks) k
  · rfl

/-- An open inode takes a fresh block into an empty slot. The step may also change
the inode's own indirect block. -/
theorem OpenedAt.take (h : OpenedAt total full s ino inode need) {blk k : Nat} (hLo : 90 ≤ blk)
    (hHi : blk < total) (hFree : isSet s.blockBitmap blk = false)
    (hSlot : slotBlock s.disk inode k = 0) (hMounted : s'.MountedAt total)
    (hMount : s'.mount = s.mount)
    (hInodes : s'.inodeBitmap = s.inodeBitmap) (hBlocks : s'.blockBitmap = set s.blockBitmap blk)
    (hDisk : ∀ c, 74 ≤ c → c ≠ blk → c ≠ inode.indirect → s'.disk c = s.disk c)
    (hOwn : slotBlock s'.disk inode' = update (slotBlock s.disk inode) k blk)
    (hFits : inode'.Fits) :
    OpenedAt total full s' ino inode' (fun j => need j ∨ j = k) ∧ Within s s' ino ∧
      ∀ p, p / 512 < 138 → slotBlock s.disk inode (p / 512) ≠ 0 →
        fileByte s'.disk inode' p = fileByte s.disk inode p := by
  have hLive := live_congr hInodes
  have hFresh : ∀ x, s.slots (update s.table ino inode) x ≠ blk :=
    h.exclusive.ne_of_free (by omega) hFree
  obtain ⟨hWithin, hOthers⟩ := h.keep hMount hInodes (fun c hc hHeld => by
    refine hDisk c hc ?_ ?_
    · rintro rfl
      exact Bool.false_ne_true (hFree.symm.trans (hHeld hLo).1)
    · rintro rfl
      have hRange := h.indirect_range
      exact (hHeld (by omega)).2 138 rfl)
  have hSlots : s'.slots (update s'.table ino inode') =
      update (s.slots (update s.table ino inode)) (ino, k) blk := by
    funext x
    obtain ⟨i, j⟩ := x
    by_cases hi : i = ino
    · subst hi
      rw [slots_own (by rw [hLive]; exact h.live), hOwn]
      by_cases hj : j = k
      · simp [hj]
      · rw [update_of_ne hj, update_of_ne (by simp [hj]), slots_own h.live]
    · rw [update_of_ne (by simp [hi])]
      exact hWithin.slots_other hi inode inode' j
  have hUsed : ∀ c, isSet s'.blockBitmap c = (decide (c = blk) || isSet s.blockBitmap c) := by
    intro c
    rw [hBlocks, isSet_set]
  refine ⟨⟨hMounted, by rw [hLive]; exact h.live, ?_, ?_, hOthers, ?_, hFits⟩, hWithin, ?_⟩
  · rw [hSlots]
    exact h.exclusive.assign (by omega) ⟨hLo, hHi⟩ hFree hUsed
  · intro hFull
    rw [hSlots]
    exact (h.covered hFull).assign (by rw [slots_own h.live]; exact hSlot) (by omega) hUsed
  · intro j
    rw [hOwn]
    by_cases hj : j = k
    · subst hj
      simp only [update_self, or_true, iff_true]
      omega
    · rw [update_of_ne hj, h.shape j]
      simp [hj]
  · intro p hp hUsedSlot
    have hNe : p / 512 ≠ k := fun hEq => hUsedSlot (hEq ▸ hSlot)
    have hNew := hFresh (ino, p / 512)
    rw [slots_own h.live] at hNew
    have hIndirect : slotBlock s.disk inode (p / 512) ≠ inode.indirect := by
      intro hEq
      rw [← slotBlock_indirect s.disk inode] at hEq
      have hIndex := h.own_inj hUsedSlot hEq
      omega
    have hRange := h.range hUsedSlot
    rw [fileByte, fileByte, hOwn, update_of_ne hNe, hDisk _ (by omega) hNew hIndirect]

theorem live_lt (hLive : s.live ino = true) : ino < 128 := by
  have hBits : ino < 128 ∧ isSet s.inodeBitmap ino = true := by simpa [live] using hLive
  exact hBits.1

theorem putInode_slotBlock (hIno : ino < 128) (inode : Inode) {other : Inode}
    (hIndirect : other.indirect = 0 ∨ 90 ≤ other.indirect) :
    slotBlock (s.putInode ino inode).disk other = slotBlock s.disk other :=
  slotBlock_congr (fun _ => putInode_disk inode hIno (by omega))

theorem OpenedAt.store (h : OpenedAt total full s ino inode need) :
    OpenedAt total full (s.putInode ino inode) ino inode need ∧
      (s.putInode ino inode).table = update s.table ino inode ∧
      slotBlock (s.putInode ino inode).disk inode = slotBlock s.disk inode ∧
      ∀ i, i ≠ ino → (s.putInode ino inode).files i = s.files i ∧
        (s.putInode ino inode).blocks i = s.blocks i := by
  have hIno := live_lt h.live
  have hTable := @putInode_table s _ _ hIno h.fits
  have hLive : (s.putInode ino inode).live = s.live := rfl
  have hRange := h.indirect_range
  have hOwn : slotBlock (s.putInode ino inode).disk inode = slotBlock s.disk inode :=
    putInode_slotBlock hIno inode (by omega)
  have hOther : ∀ i, i ≠ ino → s.live i = true →
      slotBlock (s.putInode ino inode).disk (s.table i) = slotBlock s.disk (s.table i) ∧
        Sized (s.putInode ino inode).disk (s.table i) ∧
          fileContent (s.putInode ino inode).disk (s.table i) = fileContent s.disk (s.table i) :=
    fun i hi hLive => (h.others i hi hLive).congr (fun k hk =>
      putInode_disk inode hIno (.inr (h.other_range hi hLive hk).1))
  have hSlots : (s.putInode ino inode).slots (update (s.putInode ino inode).table ino inode) =
      s.slots (update s.table ino inode) := by
    rw [hTable, update_idem]
    funext x
    obtain ⟨i, j⟩ := x
    simp only [slots, hLive]
    split
    · rename_i hAlive
      by_cases hi : i = ino
      · subst hi
        rw [update_self, hOwn]
      · rw [update_of_ne hi, (hOther i hi hAlive).1]
    · rfl
  refine ⟨⟨h.mounted.putInode hIno inode, h.live, ?_, ?_, ?_, ?_, h.fits⟩, hTable, hOwn, ?_⟩
  · rw [hSlots]
    exact h.exclusive
  · rw [hSlots]
    exact h.covered
  · intro i hi hAlive
    rw [hTable, update_of_ne hi]
    exact (hOther i hi hAlive).2.1
  · rw [Shape, hOwn]
    exact h.shape
  · intro i hi
    simp only [files, blocks, hLive, hTable, update_of_ne hi]
    constructor
    · split
      · rename_i hAlive
        rw [(hOther i hi hAlive).2.2]
      · rfl
    · split
      · rename_i hAlive
        rw [(hOther i hi hAlive).1]
      · rfl

theorem OpenedAt.close (h : OpenedAt total full s ino inode (needed (blocksOf inode.size)))
    (hBound : inode.size ≤ 138 * 512) :
    ConsistentAt total full (s.putInode ino inode) ∧
      (s.putInode ino inode).files =
        update s.files ino (some ⟨inode.type, fileContent s.disk inode⟩) ∧
      Frame s (s.putInode ino inode) [ino] := by
  obtain ⟨hStored, hTable, _, hOthers⟩ := h.store
  have hInode : (s.putInode ino inode).table ino = inode := by rw [hTable, update_self]
  have hSized : Sized s.disk inode := ⟨hBound, h.shape⟩
  obtain ⟨_, _, hContent⟩ := hSized.congr (fun k hk =>
    @putInode_disk s _ inode _ (live_lt h.live) (.inr (h.range hk).1))
  refine ⟨OpenedAt.settle (by rw [hInode]; exact hStored) (by rw [hInode]; exact hBound), ?_,
    rfl, ?_⟩
  · funext i
    by_cases hi : i = ino
    · subst hi
      have hLive : (s.putInode i inode).live i = true := h.live
      rw [update_self, files, hLive, hInode, hContent]
      rfl
    · rw [update_of_ne hi, (hOthers i hi).1]
  · intro i hi
    exact (hOthers i (by simpa using hi)).2

end Volume

end Kryos.Fs
