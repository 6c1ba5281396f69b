import Kryos.Base.Slots
import Kryos.Fs.KfsDirectory

/-! The state changes that KFS makes on a device that does not fail, and what they
keep of the metadata: superblock, bitmaps with their cached copies, and inode table. -/
namespace Kryos.Fs

open Bitmap Function LittleEndian Word

variable {c start stop i blk : Nat} {s' : Volume} {bitmap : Bytes}

/-- A device that never fails. -/
structure Mount.Reliable (m : Mount) : Prop where
  reads : ∀ sector, m.readFault sector = none
  writes : ∀ sector, m.writeFault sector = none

/-- A heap that serves every request but the empty one. -/
def Mount.HeapServes (m : Mount) : Prop := ∀ size, size ≠ 0 → m.heapFails size = false

def Superblock.word (sb : Superblock) (k : Nat) : Nat :=
  [sb.magic, sb.totalBlocks, sb.inodeCount, sb.blockBitmapStart, sb.blockBitmapBlks,
    sb.inodeBitmapStart, sb.inodeBitmapBlks, sb.inodeTableStart, sb.inodeTableBlks,
    sb.dataBlocksStart, sb.rootInode].getD k 0

/-- The superblock sector of `mkfs_kfs.py`: eleven words and zeros. -/
def superblockSector : Sector := storeWords (fun _ => 0) 0 11 mkfsSuperblock.word

/-- The same on a device of `total` blocks. -/
def superblockOf (total : Nat) : Superblock := { mkfsSuperblock with totalBlocks := total }

def superblockSectorOf (total : Nat) : Sector :=
  storeWords (fun _ => 0) 0 11 (superblockOf total).word

namespace Volume

/-- The inodes on disk. -/
def table (s : Volume) : Nat → Inode :=
  fun ino => if ino < 128 then decodeInode (s.disk (74 + ino / 8)) (ino % 8) else Inode.zero

/-- The inode is marked in the inode bitmap. -/
def live (s : Volume) (ino : Nat) : Bool := decide (ino < 128) && isSet s.inodeBitmap ino

/-- The metadata is that of a mounted volume: the superblock of `mkfs_kfs.py` for a device
of `total` blocks, cached bitmaps equal to those on disk, and every metadata block marked
used. -/
structure MountedAt (total : Nat) (s : Volume) : Prop where
  superblock : s.sb = superblockOf total
  total_le : total ≤ 32768
  superblockOnDisk : ∀ i < 512, s.disk 64 i = superblockSectorOf total i
  blockCache : ∀ i < 4096, s.disk (65 + i / 512) (i % 512) = s.blockBitmap i
  inodeCache : ∀ i < 512, s.disk 73 i = s.inodeBitmap i
  metadata : ∀ b < 90, isSet s.blockBitmap b = true

/-- The device has the size that `mkfs_kfs.py` assumes. -/
abbrev Mounted (s : Volume) : Prop := s.MountedAt 32768

def putSector (s : Volume) (sector : Nat) (data : Sector) : Volume :=
  { s with disk := update s.disk sector data }

def putInode (s : Volume) (ino : Nat) (inode : Inode) : Volume :=
  s.putSector (74 + ino / 8) (encodeInode (s.disk (74 + ino / 8)) (ino % 8) inode)

/-- Changes the cached block bitmap and flushes the sector of the bit of `blk`. -/
def setBlockBitmap (s : Volume) (bitmap : Bytes) (blk : Nat) : Volume :=
  { s with
    blockBitmap := bitmap
    disk := update s.disk (65 + blk / 8 / 512) (fun i => bitmap (blk / 8 / 512 * 512 + i)) }

/-- Changes the cached inode bitmap and flushes it. -/
def setInodeBitmap (s : Volume) (bitmap : Bytes) : Volume :=
  { s with inodeBitmap := bitmap, disk := update s.disk 73 bitmap }

def takeBlock (s : Volume) (blk : Nat) : Volume :=
  (s.setBlockBitmap (set s.blockBitmap blk) blk).putSector blk (fun _ => 0)

def dropBlock (s : Volume) (blk : Nat) : Volume :=
  s.setBlockBitmap (clear s.blockBitmap blk) blk

def takeInode (s : Volume) (ino : Nat) (inode : Inode) : Volume :=
  (s.setInodeBitmap (set s.inodeBitmap ino)).putInode ino inode

def dropInode (s : Volume) (ino : Nat) : Volume := s.setInodeBitmap (clear s.inodeBitmap ino)

variable {total : Nat} {s : Volume} {b blk ino : Nat}

@[simp] theorem putSector_mount (data : Sector) : (s.putSector b data).mount = s.mount := rfl
@[simp] theorem putSector_inodeBitmap (data : Sector) :
    (s.putSector b data).inodeBitmap = s.inodeBitmap := rfl
@[simp] theorem takeBlock_mount : (s.takeBlock blk).mount = s.mount := rfl
@[simp] theorem takeBlock_blockBitmap :
    (s.takeBlock blk).blockBitmap = set s.blockBitmap blk := rfl
@[simp] theorem dropBlock_blockBitmap :
    (s.dropBlock blk).blockBitmap = clear s.blockBitmap blk := rfl
@[simp] theorem takeInode_inodeBitmap (inode : Inode) :
    (s.takeInode ino inode).inodeBitmap = set s.inodeBitmap ino := rfl
@[simp] theorem dropInode_inodeBitmap :
    (s.dropInode ino).inodeBitmap = clear s.inodeBitmap ino := rfl

@[simp] theorem putSector_disk_self (data : Sector) : (s.putSector b data).disk b = data := by
  simp [putSector]

theorem putSector_disk (data : Sector) (h : c ≠ b) :
    (s.putSector b data).disk c = s.disk c := update_of_ne h _ _

theorem putInode_disk (inode : Inode) {c : Nat} (hIno : ino < 128) (h : c < 74 ∨ 90 ≤ c) :
    (s.putInode ino inode).disk c = s.disk c := by
  apply putSector_disk
  omega

theorem setBlockBitmap_disk (bitmap : Bytes) (hBlk : blk < 32768) (h : c < 65 ∨ 73 ≤ c) :
    (s.setBlockBitmap bitmap blk).disk c = s.disk c := by
  apply update_of_ne
  omega

theorem setInodeBitmap_disk (bitmap : Bytes) (h : c ≠ 73) :
    (s.setInodeBitmap bitmap).disk c = s.disk c := update_of_ne h _ _

theorem takeBlock_disk (hBlk : blk < 32768) (hc : c < 65 ∨ 73 ≤ c) (hNe : c ≠ blk) :
    (s.takeBlock blk).disk c = s.disk c := by
  rw [takeBlock, putSector_disk _ hNe, setBlockBitmap_disk _ hBlk hc]

theorem takeBlock_disk_self : (s.takeBlock blk).disk blk = fun _ => 0 := by
  simp [takeBlock]

theorem dropBlock_disk (hBlk : blk < 32768) (hc : c < 65 ∨ 73 ≤ c) :
    (s.dropBlock blk).disk c = s.disk c := setBlockBitmap_disk _ hBlk hc

section

variable (h : s.MountedAt total)

include h

theorem MountedAt.lt (hHi : blk < total) : blk < 32768 := hHi.trans_le h.total_le

theorem MountedAt.of_eq (hMount : s'.mount = s.mount) (hBlocks : s'.blockBitmap = s.blockBitmap)
    (hInodes : s'.inodeBitmap = s.inodeBitmap)
    (hDisk : ∀ c, 64 ≤ c → c < 74 → s'.disk c = s.disk c) : s'.MountedAt total := by
  constructor
  · rw [sb, hMount]
    exact h.superblock
  · exact h.total_le
  · intro i hi
    rw [hDisk 64 (by omega) (by omega)]
    exact h.superblockOnDisk i hi
  · intro i hi
    rw [hDisk _ (by omega) (by omega), hBlocks]
    exact h.blockCache i hi
  · intro i hi
    rw [hDisk 73 (by omega) (by omega), hInodes]
    exact h.inodeCache i hi
  · rw [hBlocks]
    exact h.metadata

theorem MountedAt.putSector (hb : 90 ≤ b) (data : Sector) : (s.putSector b data).MountedAt total :=
  h.of_eq rfl rfl rfl (fun _ _ _ => putSector_disk _ (by omega))

theorem MountedAt.putInode (hIno : ino < 128) (inode : Inode) :
    (s.putInode ino inode).MountedAt total :=
  h.of_eq rfl rfl rfl (fun _ _ hc => putInode_disk _ hIno (.inl hc))

/-- The flush after a change of one bit brings the disk in line with the cache. -/
theorem MountedAt.setBlockBitmap (hBlk : blk < 32768)
    (hSame : ∀ byte, byte ≠ blk / 8 → bitmap byte = s.blockBitmap byte)
    (hMeta : ∀ b < 90, isSet bitmap b = true) : (s.setBlockBitmap bitmap blk).MountedAt total := by
  constructor
  · exact h.superblock
  · exact h.total_le
  · intro i hi
    rw [setBlockBitmap_disk _ hBlk (by omega)]
    exact h.superblockOnDisk i hi
  · intro i hi
    change update s.disk _ _ _ _ = bitmap i
    by_cases hSector : i / 512 = blk / 8 / 512
    · rw [hSector, update_self]
      congr 1
      omega
    · rw [update_of_ne (by omega), h.blockCache i hi]
      exact (hSame i (fun hEq => hSector (by rw [hEq]))).symm
  · intro i hi
    rw [setBlockBitmap_disk _ hBlk (by omega)]
    exact h.inodeCache i hi
  · exact hMeta

theorem MountedAt.takeBlock (hLo : 90 ≤ blk) (hHi : blk < 32768) :
    (s.takeBlock blk).MountedAt total := by
  refine (h.setBlockBitmap hHi (fun _ hByte => set_apply_of_ne _ hByte) ?_).putSector hLo _
  intro b hb
  simp [h.metadata b hb]

theorem MountedAt.dropBlock (hLo : 90 ≤ blk) (hHi : blk < 32768) :
    (s.dropBlock blk).MountedAt total := by
  refine h.setBlockBitmap hHi (fun _ hByte => clear_apply_of_ne _ hByte) ?_
  intro b hb
  have hNe : b ≠ blk := by omega
  simp [h.metadata b hb, hNe]

theorem MountedAt.setInodeBitmap (bitmap : Bytes) : (s.setInodeBitmap bitmap).MountedAt total := by
  constructor
  · exact h.superblock
  · exact h.total_le
  · intro i hi
    exact h.superblockOnDisk i hi
  · intro i hi
    rw [setInodeBitmap_disk _ (by omega)]
    exact h.blockCache i hi
  · intro i _
    change update s.disk 73 bitmap 73 i = bitmap i
    rw [update_self]
  · exact h.metadata

theorem MountedAt.takeInode (hIno : ino < 128) (inode : Inode) :
    (s.takeInode ino inode).MountedAt total := (h.setInodeBitmap _).putInode hIno inode

end

theorem MountedAt.dropInode (h : s.MountedAt total) :
    (s.dropInode ino).MountedAt total := h.setInodeBitmap _

theorem table_congr (h : ∀ c, 74 ≤ c → c < 90 → s'.disk c = s.disk c) : s'.table = s.table := by
  funext i
  unfold table
  split
  · rw [h _ (by omega) (by omega)]
  · rfl

theorem putSector_table (hb : 90 ≤ b) (data : Sector) : (s.putSector b data).table = s.table :=
  table_congr (fun _ _ _ => putSector_disk _ (by omega))

theorem takeBlock_table (hLo : 90 ≤ blk) (hHi : blk < 32768) :
    (s.takeBlock blk).table = s.table :=
  table_congr (fun _ _ _ => takeBlock_disk hHi (by omega) (by omega))

theorem setInodeBitmap_table (bitmap : Bytes) : (s.setInodeBitmap bitmap).table = s.table :=
  table_congr (fun _ _ _ => setInodeBitmap_disk _ (by omega))

end Volume

/-- Every field is a 32-bit word. -/
def Inode.Fits (inode : Inode) : Prop := ∀ k, inode.word k < 2 ^ 32

theorem Inode.ofWords_word (inode : Inode) : Inode.ofWords inode.word = inode := by
  have hDirect : ∀ i : Fin 10, inode.word (2 + i) = inode.direct i := by
    intro i
    rw [Inode.word, if_neg (by omega), if_neg (by omega), dif_pos (by omega)]
    congr 1
    apply Fin.ext
    change 2 + i.val - 2 = i.val
    omega
  have hPad : ∀ i : Fin 2, inode.word (14 + i) = inode.pad i := by
    intro i
    rw [Inode.word, if_neg (by omega), if_neg (by omega), dif_neg (by omega), if_neg (by omega),
      if_neg (by omega)]
    congr 1
    apply Fin.ext
    change (14 + i.val) % 2 = i.val
    omega
  cases inode with
  | mk size type direct indirect linkCount pad =>
    simp only [Inode.ofWords, Inode.mk.injEq]
    exact ⟨rfl, rfl, funext hDirect, rfl, rfl, funext hPad⟩

theorem Inode.ofWords_congr {first second : Nat → Nat} (h : ∀ k < 16, first k = second k) :
    Inode.ofWords first = Inode.ofWords second := by
  simp only [Inode.ofWords, Inode.mk.injEq]
  exact ⟨h 0 (by omega), h 1 (by omega), funext (fun i => h _ (by omega)), h 12 (by omega),
    h 13 (by omega), funext (fun i => h _ (by omega))⟩

theorem decodeInode_encodeInode {inode : Inode} (hFits : inode.Fits) (buf : Sector)
    (index other : Nat) :
    decodeInode (encodeInode buf index inode) other =
      if other = index then inode else decodeInode buf other := by
  split
  · rename_i hEq
    subst hEq
    rw [← inode.ofWords_word]
    apply Inode.ofWords_congr
    intro k hk
    rw [encodeInode, readWord_storeWords, if_pos (by omega), Nat.add_sub_cancel_left,
      inode.ofWords_word, Nat.mod_eq_of_lt (hFits k)]
  · apply Inode.ofWords_congr
    intro k hk
    rw [encodeInode, readWord_storeWords, if_neg (by omega)]

theorem Volume.putInode_table {s : Volume} {ino : Nat} {inode : Inode} (hIno : ino < 128)
    (hFits : inode.Fits) : (s.putInode ino inode).table = update s.table ino inode := by
  funext i
  by_cases hi : i = ino
  · subst hi
    rw [update_self, table, if_pos hIno, putInode, putSector_disk_self,
      decodeInode_encodeInode hFits, if_pos rfl]
  · rw [update_of_ne hi, table, table]
    by_cases hSector : i / 8 = ino / 8
    · have hIndex : i % 8 ≠ ino % 8 := by omega
      rw [putInode, hSector, putSector_disk_self, decodeInode_encodeInode hFits, if_neg hIndex]
    · rw [putInode, putSector_disk _ (by omega)]

/-- An inode without blocks fits by its other fields. -/
theorem Inode.Fits.fresh {size type links : Nat} (hSize : size < 2 ^ 32) (hType : type < 2 ^ 32)
    (hLinks : links < 2 ^ 32) :
    ({ Inode.zero with size := size, type := type, linkCount := links } : Inode).Fits := by
  intro k
  unfold Inode.word
  split_ifs
  all_goals first | assumption | exact Nat.two_pow_pos 32

theorem Inode.Fits.decode (buf : Sector) (index : Nat) : (decodeInode buf index).Fits := by
  intro k
  unfold Inode.word
  split_ifs <;> exact readWord_lt _ _

theorem Inode.Fits.table (s : Volume) (ino : Nat) : (s.table ino).Fits := by
  unfold Volume.table
  split
  · exact Inode.Fits.decode _ _
  · exact Inode.Fits.fresh (Nat.two_pow_pos 32) (Nat.two_pow_pos 32) (Nat.two_pow_pos 32)

theorem firstClear_some (h : firstClear bitmap start stop = some i) :
    start ≤ i ∧ i < stop ∧ isSet bitmap i = false := by
  have hMem := List.mem_of_find?_eq_some h
  have hClear := List.find?_some h
  rw [List.mem_range'_1] at hMem
  have hBit : isSet bitmap i = false := by simpa using hClear
  exact ⟨hMem.1, by omega, hBit⟩

theorem firstClear_isSome (hStart : start ≤ i) (hStop : i < stop)
    (hClear : isSet bitmap i = false) : ∃ j, firstClear bitmap start stop = some j := by
  rw [← Option.isSome_iff_exists, firstClear, List.find?_isSome]
  refine ⟨i, ?_, by simp [hClear]⟩
  rw [List.mem_range'_1]
  omega

/-- The number of blocks that can still be allocated on a device of `total` blocks. -/
def Volume.freeBelow (s : Volume) (total : Nat) : Nat := (clearBits s.blockBitmap total).card

abbrev Volume.freeBlocks (s : Volume) : Nat := s.freeBelow 32768

theorem Volume.freeBelow_takeBlock {s : Volume} {total : Nat} (hHi : blk < total)
    (hFree : isSet s.blockBitmap blk = false) :
    (s.takeBlock blk).freeBelow total + 1 = s.freeBelow total := card_clearBits_set hHi hFree

section Operations

variable {total : Nat} {s : Volume} {ino : Nat}

theorem Volume.readSectors_eq (hReliable : s.mount.Reliable) (sector : Nat) :
    s.readSectors sector = .ok (s.disk sector) := by
  rw [Volume.readSectors, hReliable.reads]

theorem Volume.writeSectors_eq (hReliable : s.mount.Reliable) (sector : Nat) (data : Sector) :
    s.writeSectors sector data = (.ok (), s.putSector sector data) := by
  rw [Volume.writeSectors, hReliable.writes]
  rfl

theorem superblockOf_tableBlock (hIno : ino < 128) :
    (superblockOf total).tableBlock ino = 74 + ino / 8 :=
  u32_of_lt (show 74 + ino / 8 < 2 ^ 32 by omega)

section

variable (hMounted : s.MountedAt total)

include hMounted

theorem kfsReadInode_eq (hReliable : s.mount.Reliable) (hLive : s.live ino = true) :
    kfsReadInode s ino = .ok (s.table ino) := by
  have hBits : ino < 128 ∧ isSet s.inodeBitmap ino = true := by simpa [Volume.live] using hLive
  have hCount : ¬ ino ≥ (superblockOf total).inodeCount := Nat.not_le.mpr hBits.1
  simp [kfsReadInode, hMounted.superblock, hCount, hBits, superblockOf_tableBlock hBits.1,
    s.readSectors_eq hReliable, Volume.table]

theorem kfsReadInode_dead (hDead : s.live ino = false) :
    ∃ err, err ≠ -eio ∧ kfsReadInode s ino = .error err := by
  by_cases hIno : ino < 128
  · have hBit : isSet s.inodeBitmap ino = false := by simpa [Volume.live, hIno] using hDead
    exact ⟨-enoent, by decide, by simp [kfsReadInode, hMounted.superblock, superblockOf,
      mkfsSuperblock, hIno, hBit]⟩
  · exact ⟨-einval, by decide, by simp [kfsReadInode, hMounted.superblock, superblockOf,
      mkfsSuperblock, hIno]⟩

theorem kfsWriteInode_eq (hReliable : s.mount.Reliable) (hIno : ino < 128) (inode : Inode) :
    kfsWriteInode s ino inode = (.ok (), s.putInode ino inode) := by
  have hCount : ¬ ino ≥ (superblockOf total).inodeCount := Nat.not_le.mpr hIno
  simp [kfsWriteInode, hMounted.superblock, hCount, superblockOf_tableBlock hIno,
    s.readSectors_eq hReliable, s.writeSectors_eq hReliable, Volume.putInode]

theorem flushBlockBitmap_eq (hReliable : s.mount.Reliable) (bitmap : Bytes) (hBlk : blk < 32768) :
    flushBlockBitmap { s with blockBitmap := bitmap } blk =
      (.ok (), s.setBlockBitmap bitmap blk) := by
  have hSb : ({ s with blockBitmap := bitmap } : Volume).sb = superblockOf total :=
    hMounted.superblock
  have hSector : u32 ((superblockOf total).blockBitmapStart + blk / 8 / 512) = 65 + blk / 8 / 512 :=
    u32_of_lt (show 65 + blk / 8 / 512 < 2 ^ 32 by omega)
  rw [flushBlockBitmap, hSb, Volume.writeSectors_eq (by exact hReliable), hSector]
  rfl

theorem flushInodeBitmap_eq (hReliable : s.mount.Reliable) (bitmap : Bytes) (hIno : ino < 128) :
    flushInodeBitmap { s with inodeBitmap := bitmap } ino = (.ok (), s.setInodeBitmap bitmap) := by
  have hSb : ({ s with inodeBitmap := bitmap } : Volume).sb = superblockOf total :=
    hMounted.superblock
  have hSector : ino / 8 / 512 = 0 := by omega
  rw [flushInodeBitmap, hSb, Volume.writeSectors_eq (by exact hReliable), hSector]
  simp [Volume.putSector, Volume.setInodeBitmap, superblockOf, mkfsSuperblock, u32]

theorem kfsAllocBlock_eq (hReliable : s.mount.Reliable) (hFree : 0 < s.freeBelow total) :
    ∃ blk, 90 ≤ blk ∧ blk < total ∧ isSet s.blockBitmap blk = false ∧
      kfsAllocBlock s = (.ok blk, s.takeBlock blk) := by
  obtain ⟨b, hb⟩ := Finset.card_pos.mp hFree
  obtain ⟨hHi, hClear⟩ := mem_clearBits.mp hb
  have hLo : 90 ≤ b := by
    by_contra hMeta
    have hSet := hMounted.metadata b (by omega)
    rw [hClear] at hSet
    exact Bool.false_ne_true hSet
  obtain ⟨blk, hBlk⟩ := firstClear_isSome hLo hHi hClear
  obtain ⟨hBlkLo, hBlkHi, hBlkClear⟩ := firstClear_some hBlk
  refine ⟨blk, hBlkLo, hBlkHi, hBlkClear, ?_⟩
  have hFirst : firstClear s.blockBitmap s.sb.dataBlocksStart s.sb.totalBlocks = some blk := by
    rw [hMounted.superblock]
    exact hBlk
  have hAfter : (s.setBlockBitmap (set s.blockBitmap blk) blk).mount.Reliable := hReliable
  simp only [kfsAllocBlock, hFirst, flushBlockBitmap_eq hMounted hReliable _ (hMounted.lt hBlkHi),
    Volume.writeSectors_eq hAfter, Volume.takeBlock]

theorem kfsAllocBlock_none (hFree : s.freeBelow total = 0) :
    kfsAllocBlock s = (.error (-enospc), s) := by
  have hFirst : firstClear s.blockBitmap s.sb.dataBlocksStart s.sb.totalBlocks = none := by
    rw [hMounted.superblock]
    by_contra hSome
    obtain ⟨b, hb⟩ := Option.ne_none_iff_exists'.mp hSome
    obtain ⟨_, hHi, hClear⟩ := firstClear_some hb
    have hMem : b ∈ clearBits s.blockBitmap total := mem_clearBits.mpr ⟨hHi, hClear⟩
    rw [Finset.card_eq_zero.mp hFree] at hMem
    exact absurd hMem (Finset.notMem_empty b)
  rw [kfsAllocBlock, hFirst]

end

section

variable (hMounted : s.MountedAt total) (hReliable : s.mount.Reliable)

include hMounted hReliable

theorem kfsAllocBlock_cases :
    (s.freeBelow total = 0 ∧ kfsAllocBlock s = (.error (-enospc), s)) ∨
      ∃ blk, 90 ≤ blk ∧ blk < total ∧ isSet s.blockBitmap blk = false ∧
        kfsAllocBlock s = (.ok blk, s.takeBlock blk) := by
  rcases Nat.eq_zero_or_pos (s.freeBelow total) with hNone | hSome
  · exact .inl ⟨hNone, kfsAllocBlock_none hMounted hNone⟩
  · exact .inr (kfsAllocBlock_eq hMounted hReliable hSome)

theorem kfsFreeBlock_eq (hLo : 90 ≤ blk) (hHi : blk < total) :
    kfsFreeBlock s blk = (.ok (), s.dropBlock blk) := by
  have hRange : ¬(blk < s.sb.dataBlocksStart ∨ blk ≥ s.sb.totalBlocks) := by
    rw [hMounted.superblock]
    simp only [superblockOf, mkfsSuperblock]
    omega
  rw [kfsFreeBlock, if_neg hRange,
    flushBlockBitmap_eq hMounted hReliable _ (hMounted.lt hHi), Volume.dropBlock]

/-- `kfs_alloc_inode` either marks a free inode other than the root or changes nothing. -/
theorem kfsAllocInode_cases (type : Nat) :
    (∃ i, firstClear s.inodeBitmap 1 128 = some i ∧ 0 < i ∧ i < 128 ∧
      isSet s.inodeBitmap i = false ∧ kfsAllocInode s type =
        (.ok i, s.takeInode i { Inode.zero with type := type, linkCount := 1 })) ∨
    (∀ i, 0 < i → i < 128 → s.live i = true) ∧
      kfsAllocInode s type = (.error (-enospc), s) := by
  have hCount : s.sb.inodeCount = 128 := by rw [hMounted.superblock]; rfl
  cases hFirst : firstClear s.inodeBitmap 1 128 with
  | none =>
    refine .inr ⟨fun i hLo hHi => ?_, by rw [kfsAllocInode, hCount, hFirst]⟩
    by_contra hDead
    have hClear : isSet s.inodeBitmap i = false := by simpa [Volume.live, hHi] using hDead
    obtain ⟨j, hj⟩ := firstClear_isSome hLo hHi hClear
    rw [hFirst] at hj
    cases hj
  | some i =>
    left
    obtain ⟨hLo, hHi, hClear⟩ := firstClear_some hFirst
    refine ⟨i, rfl, hLo, hHi, hClear, ?_⟩
    have hSet := hMounted.setInodeBitmap (set s.inodeBitmap i)
    have hAfter : (s.setInodeBitmap (set s.inodeBitmap i)).mount.Reliable := hReliable
    simp only [kfsAllocInode, hCount, hFirst, flushInodeBitmap_eq hMounted hReliable _ hHi,
      kfsWriteInode_eq hSet hAfter hHi, Volume.takeInode]

theorem kfsFreeInode_eq (hLo : 0 < ino) (hHi : ino < 128) :
    kfsFreeInode s ino = (.ok (), s.dropInode ino) := by
  have hRange : ¬(ino = 0 ∨ ino ≥ s.sb.inodeCount) := by
    rw [hMounted.superblock]
    simp only [superblockOf, mkfsSuperblock]
    omega
  rw [kfsFreeInode, if_neg hRange, flushInodeBitmap_eq hMounted hReliable _ hHi, Volume.dropInode]

end

end Operations

end Kryos.Fs
