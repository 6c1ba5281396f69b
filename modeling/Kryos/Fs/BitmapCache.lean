import Kryos.Fs.Image
import Kryos.Fs.MountCheck

/-! The bitmaps in memory and their copies on the device. Every change sets or
clears the bit in memory first and then writes the sector that holds it, so that a
failed write leaves the two apart, and a failure after it leaves a bit behind. -/
namespace Kryos.Fs

open Bitmap Function Word

variable {bitmap : Bytes} {i b ino : Nat} {s : Volume}

/-- Block `b` is one of the `count` blocks from `start` on. -/
def InBlocks (start count b : Nat) : Prop := start ≤ b ∧ b < start + count

/-- The blocks from `start` on hold the bytes of the bitmap. -/
def Mirrored (disk : Nat → Sector) (start blks : Nat) (bitmap : Bytes) : Prop :=
  ∀ n < blks * 512, disk (start + n / 512) (n % 512) = bitmap n

/-- The cached bitmaps equal those on the device. -/
structure Volume.Mirrors (s : Volume) : Prop where
  blocks : Mirrored s.disk s.sb.blockBitmapStart s.sb.blockBitmapBlks s.blockBitmap
  inodes : Mirrored s.disk s.sb.inodeBitmapStart s.sb.inodeBitmapBlks s.inodeBitmap

/-- The layout of a file system: the bitmaps have a bit for every block and every
inode, and the bitmaps, the inode table and the data blocks lie apart. -/
structure Superblock.Apart (sb : Superblock) : Prop where
  blockEnd : sb.blockBitmapStart + sb.blockBitmapBlks ≤ 2 ^ 32
  inodeEnd : sb.inodeBitmapStart + sb.inodeBitmapBlks ≤ 2 ^ 32
  tableEnd : sb.inodeTableStart + sb.inodeTableBlks ≤ 2 ^ 32
  blockBits : sb.totalBlocks ≤ 4096 * sb.blockBitmapBlks
  inodeBits : sb.inodeCount ≤ 4096 * sb.inodeBitmapBlks
  table : sb.inodeCount ≤ 8 * sb.inodeTableBlks
  bitmaps : ∀ b, InBlocks sb.blockBitmapStart sb.blockBitmapBlks b →
    ¬ InBlocks sb.inodeBitmapStart sb.inodeBitmapBlks b
  tables : ∀ b, InBlocks sb.inodeTableStart sb.inodeTableBlks b →
    ¬ InBlocks sb.blockBitmapStart sb.blockBitmapBlks b ∧
    ¬ InBlocks sb.inodeBitmapStart sb.inodeBitmapBlks b
  data : ∀ b, sb.dataBlocksStart ≤ b → b < sb.totalBlocks →
    ¬ InBlocks sb.blockBitmapStart sb.blockBitmapBlks b ∧
    ¬ InBlocks sb.inodeBitmapStart sb.inodeBitmapBlks b

/-- The calls that change a bitmap. -/
inductive BitmapCall where
  | allocBlock
  | allocInode (type : Nat)
  | freeBlock (blk : Nat)
  | freeInode (ino : Nat)
deriving DecidableEq, Repr

/-- No bit that was clear in `s` is set in `t`. -/
def Volume.NoneLeft (s t : Volume) : Prop :=
  ∀ i, (isSet s.blockBitmap i = false → isSet t.blockBitmap i = false) ∧
    (isSet s.inodeBitmap i = false → isSet t.inodeBitmap i = false)

/-- After the call the cached bitmaps equal those on the device, and an allocation
that fails has left no bit set. -/
def BitmapCall.Kept (s : Volume) : BitmapCall → Prop
  | .allocBlock => (kfsAllocBlock s).2.Mirrors ∧
      ∀ err, (kfsAllocBlock s).1 = .error err → s.NoneLeft (kfsAllocBlock s).2
  | .allocInode type => (kfsAllocInode s type).2.Mirrors ∧
      ∀ err, (kfsAllocInode s type).1 = .error err → s.NoneLeft (kfsAllocInode s type).2
  | .freeBlock blk => (kfsFreeBlock s blk).2.Mirrors
  | .freeInode ino => (kfsFreeInode s ino).2.Mirrors

/-- The blocks of the device with the bits of a block and of an inode. -/
def Superblock.blockBitSector (sb : Superblock) (blk : Nat) : Nat :=
  u32 (sb.blockBitmapStart + blk / 8 / 512)

def Superblock.inodeBitSector (sb : Superblock) (ino : Nat) : Nat :=
  u32 (sb.inodeBitmapStart + ino / 8 / 512)

/-- A device operation of the call fails after the cached bit has changed. -/
def BitmapCall.Struck (s : Volume) : BitmapCall → Prop
  | .allocBlock =>
      ∃ blk, firstClear s.blockBitmap s.sb.dataBlocksStart s.sb.totalBlocks = some blk ∧
      (s.mount.writeFault (s.sb.blockBitSector blk) ≠ none ∨ s.mount.writeFault blk ≠ none)
  | .allocInode _ => ∃ ino, firstClear s.inodeBitmap 1 s.sb.inodeCount = some ino ∧
      (s.mount.writeFault (s.sb.inodeBitSector ino) ≠ none ∨
        s.mount.readFault (s.sb.tableBlock ino) ≠ none ∨
        s.mount.writeFault (s.sb.tableBlock ino) ≠ none)
  | .freeBlock blk => s.sb.dataBlocksStart ≤ blk ∧ blk < s.sb.totalBlocks ∧
      isSet s.blockBitmap blk = true ∧ s.mount.writeFault (s.sb.blockBitSector blk) ≠ none
  | .freeInode ino => ino ≠ 0 ∧ ino < s.sb.inodeCount ∧
      isSet s.inodeBitmap ino = true ∧ s.mount.writeFault (s.sb.inodeBitSector ino) ≠ none

theorem set_ne_self (hClear : isSet bitmap i = false) : set bitmap i ≠ bitmap := by
  intro h
  have hBit := congrArg (isSet · i) h
  simp [hClear] at hBit

theorem clear_eq_self_iff : clear bitmap i = bitmap ↔ isSet bitmap i = false := by
  constructor
  · intro h
    have hBit := congrArg (isSet · i) h
    simpa using hBit.symm
  · intro hClear
    refine ext_isSet fun j => ?_
    by_cases hj : j = i
    · simp [hj, hClear]
    · simp [hj]

namespace Mirrored

variable {disk : Nat → Sector} {start blks i : Nat} {bitmap bitmap' : Bytes}

/-- Writing the sector of a changed bit makes the copies equal again. -/
theorem flush (h : Mirrored disk start blks bitmap) (hEnd : start + blks ≤ 2 ^ 32)
    (hi : i < 4096 * blks) (hSame : ∀ n, n ≠ i / 8 → bitmap' n = bitmap n) :
    Mirrored (update disk (u32 (start + i / 8 / 512))
      (fun j => bitmap' (i / 8 / 512 * 512 + j))) start blks bitmap' := by
  intro n hn
  rw [u32_of_lt (show start + i / 8 / 512 < 2 ^ 32 by omega)]
  by_cases hSector : n / 512 = i / 8 / 512
  · rw [hSector, update_self]
    congr 1
    omega
  · rw [update_of_ne (by omega), h n hn, hSame n (fun hEq => hSector (by rw [hEq]))]

/-- Without the write they are equal only if no bit has changed. -/
theorem unflushed (h : Mirrored disk start blks bitmap) (hi : i < 4096 * blks)
    (hSame : ∀ n, n ≠ i / 8 → bitmap' n = bitmap n) :
    Mirrored disk start blks bitmap' ↔ bitmap' = bitmap := by
  constructor
  · intro h'
    funext n
    by_cases hn : n = i / 8
    · have hLt : n < blks * 512 := by omega
      rw [← h n hLt, h' n hLt]
    · exact hSame n hn
  · rintro rfl
    exact h

theorem elsewhere (h : Mirrored disk start blks bitmap) (hOut : ¬ InBlocks start blks b)
    (data : Sector) : Mirrored (update disk b data) start blks bitmap := by
  intro n hn
  have hNe : start + n / 512 ≠ b := by
    rintro rfl
    exact hOut ⟨Nat.le_add_right _ _, by omega⟩
  rw [update_of_ne hNe]
  exact h n hn

end Mirrored

namespace Superblock.Apart

variable {sb : Superblock} (h : sb.Apart)

include h

theorem blockBitSector_within {blk : Nat} (hBlk : blk < sb.totalBlocks) :
    InBlocks sb.blockBitmapStart sb.blockBitmapBlks (sb.blockBitSector blk) := by
  have hBits := h.blockBits
  have hEnd := h.blockEnd
  rw [Superblock.blockBitSector,
    u32_of_lt (show sb.blockBitmapStart + blk / 8 / 512 < 2 ^ 32 by omega)]
  exact ⟨Nat.le_add_right _ _, by omega⟩

theorem inodeBitSector_within (hIno : ino < sb.inodeCount) :
    InBlocks sb.inodeBitmapStart sb.inodeBitmapBlks (sb.inodeBitSector ino) := by
  have hBits := h.inodeBits
  have hEnd := h.inodeEnd
  rw [Superblock.inodeBitSector,
    u32_of_lt (show sb.inodeBitmapStart + ino / 8 / 512 < 2 ^ 32 by omega)]
  exact ⟨Nat.le_add_right _ _, by omega⟩

theorem tableBlock_within (hIno : ino < sb.inodeCount) :
    InBlocks sb.inodeTableStart sb.inodeTableBlks (sb.tableBlock ino) := by
  have hTable := h.table
  have hEnd := h.tableEnd
  rw [Superblock.tableBlock, u32_of_lt (show sb.inodeTableStart + ino / 8 < 2 ^ 32 by omega)]
  exact ⟨Nat.le_add_right _ _, by omega⟩

end Superblock.Apart

namespace Volume.Mirrors

variable {s : Volume} (h : s.Mirrors)

include h

theorem putSector (hOut : ¬ InBlocks s.sb.blockBitmapStart s.sb.blockBitmapBlks b ∧
    ¬ InBlocks s.sb.inodeBitmapStart s.sb.inodeBitmapBlks b) (data : Sector) :
    ({ s with disk := update s.disk b data } : Volume).Mirrors :=
  ⟨h.blocks.elsewhere hOut.1 data, h.inodes.elsewhere hOut.2 data⟩

variable (hApart : s.sb.Apart) {bitmap : Bytes} {i : Nat}

include hApart

/-- What is left of a changed block bitmap by the write of its sector. -/
theorem flushBlockBitmap (hi : i < s.sb.totalBlocks)
    (hSame : ∀ n, n ≠ i / 8 → bitmap n = s.blockBitmap n) :
    (∃ err, s.mount.writeFault (s.sb.blockBitSector i) = some err ∧
      Fs.flushBlockBitmap { s with blockBitmap := bitmap } i =
        (.error err, { s with blockBitmap := bitmap }) ∧
      (({ s with blockBitmap := bitmap } : Volume).Mirrors ↔ bitmap = s.blockBitmap)) ∨
    (∃ disk, s.mount.writeFault (s.sb.blockBitSector i) = none ∧
      Fs.flushBlockBitmap { s with blockBitmap := bitmap } i =
        (.ok (), { s with blockBitmap := bitmap, disk := disk }) ∧
      ({ s with blockBitmap := bitmap, disk := disk } : Volume).Mirrors) := by
  have hBit : i < 4096 * s.sb.blockBitmapBlks := hi.trans_le hApart.blockBits
  cases hFault : s.mount.writeFault (s.sb.blockBitSector i) with
  | some err =>
    refine .inl ⟨err, rfl, ?_, ?_⟩
    · exact show Volume.writeSectors _ (s.sb.blockBitSector i) _ = _ by
        simp [Volume.writeSectors, hFault]
    · rw [← h.blocks.unflushed hBit hSame]
      exact ⟨fun hMirrors => hMirrors.blocks, fun hBlocks => ⟨hBlocks, h.inodes⟩⟩
  | none =>
    refine .inr ⟨update s.disk (s.sb.blockBitSector i)
      (fun j => bitmap (i / 8 / 512 * 512 + j)), rfl, ?_, ?_, ?_⟩
    · exact show Volume.writeSectors _ (s.sb.blockBitSector i) _ = _ by
        simp [Volume.writeSectors, hFault]
    · exact h.blocks.flush hApart.blockEnd hBit hSame
    · exact h.inodes.elsewhere (hApart.bitmaps _ (hApart.blockBitSector_within hi)) _

theorem flushInodeBitmap (hi : i < s.sb.inodeCount)
    (hSame : ∀ n, n ≠ i / 8 → bitmap n = s.inodeBitmap n) :
    (∃ err, s.mount.writeFault (s.sb.inodeBitSector i) = some err ∧
      Fs.flushInodeBitmap { s with inodeBitmap := bitmap } i =
        (.error err, { s with inodeBitmap := bitmap }) ∧
      (({ s with inodeBitmap := bitmap } : Volume).Mirrors ↔ bitmap = s.inodeBitmap)) ∨
    (∃ disk, s.mount.writeFault (s.sb.inodeBitSector i) = none ∧
      Fs.flushInodeBitmap { s with inodeBitmap := bitmap } i =
        (.ok (), { s with inodeBitmap := bitmap, disk := disk }) ∧
      ({ s with inodeBitmap := bitmap, disk := disk } : Volume).Mirrors) := by
  have hBit : i < 4096 * s.sb.inodeBitmapBlks := hi.trans_le hApart.inodeBits
  cases hFault : s.mount.writeFault (s.sb.inodeBitSector i) with
  | some err =>
    refine .inl ⟨err, rfl, ?_, ?_⟩
    · exact show Volume.writeSectors _ (s.sb.inodeBitSector i) _ = _ by
        simp [Volume.writeSectors, hFault]
    · rw [← h.inodes.unflushed hBit hSame]
      exact ⟨fun hMirrors => hMirrors.inodes, fun hInodes => ⟨h.blocks, hInodes⟩⟩
  | none =>
    refine .inr ⟨update s.disk (s.sb.inodeBitSector i)
      (fun j => bitmap (i / 8 / 512 * 512 + j)), rfl, ?_, ?_, ?_⟩
    · exact show Volume.writeSectors _ (s.sb.inodeBitSector i) _ = _ by
        simp [Volume.writeSectors, hFault]
    · exact h.blocks.elsewhere
        (fun hIn => hApart.bitmaps _ hIn (hApart.inodeBitSector_within hi)) _
    · exact h.inodes.flush hApart.inodeEnd hBit hSame

end Volume.Mirrors

/-- How the update of an inode in block `b` of the table ends. -/
theorem kfsWriteInode_faults (hIno : ino < s.sb.inodeCount) (hb : s.sb.tableBlock ino = b)
    (inode : Inode) :
    (∃ err, ¬(s.mount.readFault b = none ∧ s.mount.writeFault b = none) ∧
      kfsWriteInode s ino inode = (.error err, s)) ∨
    (∃ data, (s.mount.readFault b = none ∧ s.mount.writeFault b = none) ∧
      kfsWriteInode s ino inode = (.ok (), { s with disk := update s.disk b data })) := by
  rw [kfsWriteInode, if_neg (Nat.not_le.mpr hIno), Volume.readSectors, hb]
  cases hRead : s.mount.readFault b with
  | some err => exact .inl ⟨err, by simp, rfl⟩
  | none =>
    simp only [Volume.writeSectors]
    cases hWrite : s.mount.writeFault b with
    | some err => exact .inl ⟨err, by simp, rfl⟩
    | none => exact .inr ⟨_, ⟨trivial, rfl⟩, rfl⟩

section Calls

variable {s : Volume} (hApart : s.sb.Apart) (hMirrors : s.Mirrors)

include hApart hMirrors

theorem allocBlock_kept_iff : BitmapCall.allocBlock.Kept s ↔ ¬ BitmapCall.allocBlock.Struck s := by
  simp only [BitmapCall.Kept, BitmapCall.Struck, kfsAllocBlock]
  cases hFirst : firstClear s.blockBitmap s.sb.dataBlocksStart s.sb.totalBlocks with
  | none => simpa [Volume.NoneLeft] using hMirrors
  | some blk =>
    obtain ⟨hLo, hHi, hClear⟩ := firstClear_some hFirst
    have hData := hApart.data blk hLo hHi
    obtain ⟨err, hFault, hFlush, hApart'⟩ | ⟨disk, hFault, hFlush, hFlushed⟩ :=
      hMirrors.flushBlockBitmap hApart hHi (fun n => set_apply_of_ne s.blockBitmap (i := blk))
    · simp [hFlush, hFault, hApart', set_ne_self hClear]
    · simp only [hFlush, Volume.writeSectors]
      cases hZero : s.mount.writeFault blk with
      | some err =>
        -- the bit is set on both sides, and the caller has no block
        have hLeft : ¬ s.NoneLeft { s with blockBitmap := set s.blockBitmap blk, disk := disk } :=
          fun h => by simpa using (h blk).1 hClear
        simp [hLeft, hZero]
      | none => simpa [hFault, hZero] using hFlushed.putSector hData _

theorem allocInode_kept_iff (type : Nat) :
    (BitmapCall.allocInode type).Kept s ↔ ¬ (BitmapCall.allocInode type).Struck s := by
  simp only [BitmapCall.Kept, BitmapCall.Struck, kfsAllocInode]
  cases hFirst : firstClear s.inodeBitmap 1 s.sb.inodeCount with
  | none => simpa [Volume.NoneLeft] using hMirrors
  | some ino =>
    obtain ⟨_, hHi, hClear⟩ := firstClear_some hFirst
    have hTable := hApart.tables _ (hApart.tableBlock_within hHi)
    obtain ⟨err, hFault, hFlush, hApart'⟩ | ⟨disk, hFault, hFlush, hFlushed⟩ :=
      hMirrors.flushInodeBitmap hApart hHi (fun n => set_apply_of_ne s.inodeBitmap (i := ino))
    · simp [hFlush, hFault, hApart', set_ne_self hClear]
    · have hLeft : ¬ s.NoneLeft { s with inodeBitmap := set s.inodeBitmap ino, disk := disk } :=
        fun h => by simpa using (h ino).2 hClear
      obtain ⟨err, hTableFault, hWrite⟩ | ⟨data, hTableFault, hWrite⟩ :=
        kfsWriteInode_faults (s := { s with inodeBitmap := set s.inodeBitmap ino, disk := disk })
          hHi (b := s.sb.tableBlock ino) rfl { Inode.zero with type := type, linkCount := 1 }
      · simpa [hFlush, hWrite, hLeft, hFault] using hTableFault
      · dsimp only at hTableFault
        simpa [hFlush, hWrite, hFault, hTableFault.1, hTableFault.2] using
          hFlushed.putSector hTable data

theorem freeBlock_kept_iff (blk : Nat) :
    (BitmapCall.freeBlock blk).Kept s ↔ ¬ (BitmapCall.freeBlock blk).Struck s := by
  simp only [BitmapCall.Kept, BitmapCall.Struck, kfsFreeBlock]
  split
  · have hNot : ¬ (s.sb.dataBlocksStart ≤ blk ∧ blk < s.sb.totalBlocks) := by omega
    simp only [← and_assoc, hNot, false_and, not_false_eq_true, iff_true]
    exact hMirrors
  · obtain ⟨hLo, hHi⟩ : s.sb.dataBlocksStart ≤ blk ∧ blk < s.sb.totalBlocks := by omega
    obtain ⟨err, hFault, hFlush, hApart'⟩ | ⟨disk, hFault, hFlush, hFlushed⟩ :=
      hMirrors.flushBlockBitmap hApart hHi (fun n => clear_apply_of_ne s.blockBitmap (i := blk))
    · simp [hFlush, hFault, hApart', clear_eq_self_iff, hLo, hHi]
    · simpa [hFlush, hFault] using hFlushed

theorem freeInode_kept_iff (ino : Nat) :
    (BitmapCall.freeInode ino).Kept s ↔ ¬ (BitmapCall.freeInode ino).Struck s := by
  simp only [BitmapCall.Kept, BitmapCall.Struck, kfsFreeInode]
  split
  · have hNot : ¬ (ino ≠ 0 ∧ ino < s.sb.inodeCount) := by omega
    simp only [← and_assoc, hNot, false_and, not_false_eq_true, iff_true]
    exact hMirrors
  · obtain ⟨hLo, hHi⟩ : ino ≠ 0 ∧ ino < s.sb.inodeCount := by omega
    obtain ⟨err, hFault, hFlush, hApart'⟩ | ⟨disk, hFault, hFlush, hFlushed⟩ :=
      hMirrors.flushInodeBitmap hApart hHi (fun n => clear_apply_of_ne s.inodeBitmap (i := ino))
    · simp [hFlush, hFault, hApart', clear_eq_self_iff, hLo, hHi]
    · simpa [hFlush, hFault] using hFlushed

end Calls

theorem loadBitmap_mirrored {d : Device} {start blks : Nat}
    (h : loadBitmap d start blks = .ok bitmap) : Mirrored d.disk start blks bitmap := by
  unfold loadBitmap Device.readSectors at h
  split at h
  · cases h
  split at h
  · cases h
  · cases h
    intro n hn
    simp [hn]

/-- The bitmaps that `kfs_mount` reads are those on the device. -/
theorem kfsMount_mirrors {d : Device} (h : kfsMount d = .ok s) : s.Mirrors := by
  obtain ⟨sb, blockBitmap, inodeBitmap, _, _, _, hBlocks, hInodes, _, _, rfl⟩ := kfsMount_eq_ok.mp h
  exact ⟨loadBitmap_mirrored hBlocks, loadBitmap_mirrored hInodes⟩

theorem mkfsVolume_apart : mkfsVolume.sb.Apart := by
  constructor
  all_goals simp only [mkfsVolume, Volume.sb, mkfsSuperblock, InBlocks]
  all_goals omega

theorem mkfsVolume_mirrors : mkfsVolume.Mirrors := by
  refine ⟨mkfsVolume_mounted.blockCache, fun n hn => ?_⟩
  change n < 512 at hn
  have hSector : mkfsVolume.sb.inodeBitmapStart + n / 512 = 73 := by
    rw [Nat.div_eq_of_lt hn]
    rfl
  rw [hSector, Nat.mod_eq_of_lt hn]
  rfl

/-- A call keeps the cached bitmaps and those on the device equal, and leaves no bit
behind when it fails, exactly if no device operation fails after the cached bit
has changed. -/
theorem bitmaps_kept_iff {s : Volume} (hApart : s.sb.Apart) (hMirrors : s.Mirrors)
    (call : BitmapCall) : call.Kept s ↔ ¬ call.Struck s := by
  cases call with
  | allocBlock => exact allocBlock_kept_iff hApart hMirrors
  | allocInode type => exact allocInode_kept_iff hApart hMirrors type
  | freeBlock blk => exact freeBlock_kept_iff hApart hMirrors blk
  | freeInode ino => exact freeInode_kept_iff hApart hMirrors ino

theorem bitmaps_kept_mkfs : mkfsVolume.sb.Apart ∧ mkfsVolume.Mirrors ∧
    BitmapCall.allocBlock.Kept mkfsVolume := by
  refine ⟨mkfsVolume_apart, mkfsVolume_mirrors, ?_⟩
  refine (bitmaps_kept_iff mkfsVolume_apart mkfsVolume_mirrors _).mpr ?_
  rintro ⟨_, _, hFault | hFault⟩
  · exact hFault rfl
  · exact hFault rfl

/-- The empty volume on a device whose block 65, the first of the block bitmap, cannot be written.
-/
def tornVolume : Volume :=
  { mkfsVolume with mount := ⟨mkfsSuperblock, fun _ => none,
      fun sector => if sector = 65 then some (-eio) else none, fun _ => false⟩ }

/-- The failed write leaves bit 90 set in memory and clear on the device, although
the caller is told that no block was allocated. -/
theorem kfsAllocBlock_torn : tornVolume.sb.Apart ∧ tornVolume.Mirrors ∧
    (kfsAllocBlock tornVolume).1 = .error (-eio) ∧
    isSet (kfsAllocBlock tornVolume).2.blockBitmap 90 = true ∧
    isSet ((kfsAllocBlock tornVolume).2.disk 65) 90 = false ∧
    ¬ BitmapCall.allocBlock.Kept tornVolume := by
  have hStruck : BitmapCall.allocBlock.Struck tornVolume :=
    ⟨90, by decide +kernel, .inl (by decide)⟩
  refine ⟨mkfsVolume_apart, ⟨mkfsVolume_mirrors.blocks, mkfsVolume_mirrors.inodes⟩, ?_⟩
  refine ⟨by decide +kernel, by decide +kernel, by decide +kernel, fun hKept => ?_⟩
  exact (allocBlock_kept_iff (s := tornVolume) mkfsVolume_apart
    ⟨mkfsVolume_mirrors.blocks, mkfsVolume_mirrors.inodes⟩).mp hKept hStruck

end Kryos.Fs
