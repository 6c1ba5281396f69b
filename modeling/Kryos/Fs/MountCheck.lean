import Kryos.Base.Trace
import Kryos.Fs.BitmapFrame

/-! What `kfs_mount` checks, and what the functions on inodes and blocks rely on.
The bitmaps live in buffers whose sizes come from the superblock, and the loops
over them run to bounds that come from other fields of it. -/
namespace Kryos.Fs

open Bitmap LittleEndian Word

def kfsMagic : Nat := 0x4B465331
def kfsSuperblockBlk : Nat := 64

/-- The superblock in a block of bytes. -/
def decodeSuperblock (buf : Sector) : Superblock where
  magic := readWord buf 0
  totalBlocks := readWord buf 1
  inodeCount := readWord buf 2
  blockBitmapStart := readWord buf 3
  blockBitmapBlks := readWord buf 4
  inodeBitmapStart := readWord buf 5
  inodeBitmapBlks := readWord buf 6
  inodeTableStart := readWord buf 7
  inodeTableBlks := readWord buf 8
  dataBlocksStart := readWord buf 9
  rootInode := readWord buf 10

/-- The machine that a mount finds: the device with its faults, the heap, the
memory behind a bitmap buffer, and whether a root is mounted already. -/
structure Device where
  disk : Nat → Sector
  readFault : Nat → Option Int
  writeFault : Nat → Option Int
  heapFails : Nat → Bool
  memory : Bytes
  rootMounted : Bool

def Device.kmalloc (d : Device) (size : Nat) : Bool := size != 0 && !d.heapFails size

/-- `read_sectors`: it stops at the first sector that fails. -/
def Device.readSectors (d : Device) (lba count : Nat) : Except Int Bytes :=
  match (List.range count).findSome? (fun i => d.readFault (lba + i)) with
  | some err => .error err
  | none => .ok (fun i => if i < count * 512 then d.disk (lba + i / 512) (i % 512) else d.memory i)

/-- The size of the buffer of a bitmap, a product of 32-bit words. -/
def bitmapBytes (blks : Nat) : Nat := u32 (blks * 512)

def kfsReadSuperblock (d : Device) : Except Int Superblock :=
  if !d.kmalloc 512 then .error (-enomem)
  else
    match d.readFault kfsSuperblockBlk with
    | some err => .error err
    | none =>
      let sb := decodeSuperblock (d.disk kfsSuperblockBlk)
      if sb.magic ≠ kfsMagic then .error (-einval) else .ok sb

/-- One of the two halves of `kfs_load_bitmaps`. -/
def loadBitmap (d : Device) (start blks : Nat) : Except Int Bytes :=
  if !d.kmalloc (bitmapBytes blks) then .error (-enomem) else d.readSectors start blks

def kfsLoadBitmaps (d : Device) (sb : Superblock) : Except Int (Bytes × Bytes) :=
  match loadBitmap d sb.blockBitmapStart sb.blockBitmapBlks with
  | .error err => .error err
  | .ok blockBitmap =>
    match loadBitmap d sb.inodeBitmapStart sb.inodeBitmapBlks with
    | .error err => .error err
    | .ok inodeBitmap => .ok (blockBitmap, inodeBitmap)

/-- `kfs_mount`; 24 is the size of a vnode. -/
def kfsMount (d : Device) : Except Int Volume :=
  match kfsReadSuperblock d with
  | .error err => .error err
  | .ok sb =>
    if sb.totalBlocks = 0 ∨ sb.totalBlocks > 1000000 then .error (-einval)
    else if sb.blockBitmapBlks = 0 then .error (-einval)
    else
      match kfsLoadBitmaps d sb with
      | .error err => .error err
      | .ok (blockBitmap, inodeBitmap) =>
        if !d.kmalloc 24 then .error (-enomem)
        else if d.rootMounted then .error (-einval)
        else .ok
          { mount := ⟨sb, d.readFault, d.writeFault, d.heapFails⟩
            disk := d.disk
            blockBitmap := blockBitmap
            inodeBitmap := inodeBitmap }

/-- The calls on a mounted volume that use its bitmaps and its inode table. -/
inductive MetaCall where
  | readInode (ino : Nat)
  | writeInode (ino : Nat) (inode : Inode)
  | allocInode (type : Nat)
  | freeInode (ino : Nat)
  | allocBlock
  | freeBlock (blk : Nat)

def metaStep (s : Volume) : MetaCall → Volume
  | .readInode _ => s
  | .writeInode ino inode => (kfsWriteInode s ino inode).2
  | .allocInode type => (kfsAllocInode s type).2
  | .freeInode ino => (kfsFreeInode s ino).2
  | .allocBlock => (kfsAllocBlock s).2
  | .freeBlock blk => (kfsFreeBlock s blk).2

/-- What a call touches: a byte of a bitmap buffer, a block of the inode table,
or a block that it hands out. -/
inductive Access where
  | blockByte (index : Nat)
  | inodeByte (index : Nat)
  | tableBlock (block : Nat)
  | allocated (block : Nat)
deriving DecidableEq, Repr

/-- The indices that a search for a clear bit tests. -/
def scanned (bitmap : Bytes) (start stop : Nat) : List Nat :=
  match firstClear bitmap start stop with
  | none => List.range' start (stop - start)
  | some i => List.range' start (i + 1 - start)

/-- The bytes that a flush of the sector with bit `i` passes to the device. -/
def flushed (i : Nat) : List Nat := (List.range 512).map (fun j => i / 8 / 512 * 512 + j)

def freed (i : Nat) : List Nat := i / 8 :: flushed i

/-- The bytes of a bitmap that an allocation touches. -/
def searched (bitmap : Bytes) (start stop : Nat) : List Nat :=
  (scanned bitmap start stop).map (· / 8) ++
    ((firstClear bitmap start stop).map flushed).getD []

/-- The accesses of a call, from the state it starts in. -/
def accesses (s : Volume) : MetaCall → List Access
  | .readInode ino =>
    if ino ≥ s.sb.inodeCount then []
    else .inodeByte (ino / 8) ::
      (if isSet s.inodeBitmap ino then [.tableBlock (s.sb.tableBlock ino)] else [])
  | .writeInode ino _ =>
    if ino ≥ s.sb.inodeCount then [] else [.tableBlock (s.sb.tableBlock ino)]
  | .allocInode _ =>
    (searched s.inodeBitmap 1 s.sb.inodeCount).map .inodeByte ++
      (match firstClear s.inodeBitmap 1 s.sb.inodeCount with
      | none => []
      | some i =>
        match (flushInodeBitmap { s with inodeBitmap := set s.inodeBitmap i } i).1 with
        | .error _ => []
        | .ok _ => [.tableBlock (s.sb.tableBlock i)])
  | .freeInode ino =>
    if ino = 0 ∨ ino ≥ s.sb.inodeCount then [] else (freed ino).map .inodeByte
  | .allocBlock =>
    (searched s.blockBitmap s.sb.dataBlocksStart s.sb.totalBlocks).map .blockByte ++
      (match (kfsAllocBlock s).1 with | .ok blk => [.allocated blk] | .error _ => [])
  | .freeBlock blk =>
    if blk < s.sb.dataBlocksStart ∨ blk ≥ s.sb.totalBlocks then []
    else (freed blk).map .blockByte

/-- Block 0, the superblock, the bitmaps and the inode table. -/
def Superblock.metadata (sb : Superblock) (b : Nat) : Prop :=
  b = 0 ∨ b = kfsSuperblockBlk ∨
  (sb.blockBitmapStart ≤ b ∧ b < sb.blockBitmapStart + sb.blockBitmapBlks) ∨
  (sb.inodeBitmapStart ≤ b ∧ b < sb.inodeBitmapStart + sb.inodeBitmapBlks) ∨
  (sb.inodeTableStart ≤ b ∧ b < sb.inodeTableStart + sb.inodeTableBlks)

instance (sb : Superblock) (b : Nat) : Decidable (sb.metadata b) := by
  unfold Superblock.metadata
  infer_instance

/-- The access stays where it belongs. -/
def Access.Allowed (sb : Superblock) : Access → Prop
  | .blockByte i => i < bitmapBytes sb.blockBitmapBlks
  | .inodeByte i => i < bitmapBytes sb.inodeBitmapBlks
  | .tableBlock b => sb.inodeTableStart ≤ b ∧ b < sb.inodeTableStart + sb.inodeTableBlks
  | .allocated b => ¬ sb.metadata b

instance (sb : Superblock) (a : Access) : Decidable (a.Allowed sb) := by
  cases a <;> unfold Access.Allowed <;> infer_instance

/-- Every access of every call in every run after a mount stays where it
belongs, on whatever device the superblock is found. -/
def SafeAfterMount (sb : Superblock) : Prop :=
  ∀ d s, kfsMount d = .ok s → s.sb = sb →
    ∀ calls, Trace.EachStep metaStep (fun s call => ∀ a ∈ accesses s call, a.Allowed sb) s calls

/-- What the mount would have to check: the bitmaps and the inode table are large
enough for the bounds of the loops, the table does not wrap around, and the data
blocks are apart from the metadata. -/
structure Superblock.Sound (sb : Superblock) : Prop where
  inodeBits : sb.inodeCount ≤ 8 * bitmapBytes sb.inodeBitmapBlks
  blockBits : sb.dataBlocksStart < sb.totalBlocks →
    sb.totalBlocks ≤ 8 * bitmapBytes sb.blockBitmapBlks
  table : sb.inodeCount ≤ 8 * sb.inodeTableBlks
  tableEnd : 0 < sb.inodeCount → sb.inodeTableStart + (sb.inodeCount - 1) / 8 < 2 ^ 32
  data : ∀ b, sb.dataBlocksStart ≤ b → b < sb.totalBlocks → ¬ sb.metadata b

section Steps

variable {s : Volume}

/-- No call changes the superblock or the device. -/
theorem metaStep_mount (s : Volume) (call : MetaCall) : (metaStep s call).mount = s.mount := by
  cases call with
  | readInode ino => rfl
  | writeInode ino inode => exact (kfsWriteInode_marks s ino inode).mount
  | allocInode type => exact (kfsAllocInode_marks s type).mount
  | freeInode ino => exact (kfsFreeInode_marks s ino).mount
  | allocBlock => exact (kfsAllocBlock_marks s).mount
  | freeBlock blk => exact (kfsFreeBlock_marks s blk).mount

theorem bitmapBytes_mod (blks : Nat) : bitmapBytes blks % 512 = 0 := by
  unfold bitmapBytes u32
  omega

/-- A flush stays in the buffer if the bit does: buffers are whole sectors. -/
theorem mem_flushed {blks i j : Nat} (hi : i < 8 * bitmapBytes blks) (hj : j ∈ flushed i) :
    j < bitmapBytes blks := by
  obtain ⟨n, hn, rfl⟩ := List.mem_map.mp hj
  have hLt := List.mem_range.mp hn
  have hWhole := bitmapBytes_mod blks
  omega

theorem mem_freed {blks i j : Nat} (hi : i < 8 * bitmapBytes blks) (hj : j ∈ freed i) :
    j < bitmapBytes blks := by
  rcases List.mem_cons.mp hj with rfl | hFlush
  · omega
  · exact mem_flushed hi hFlush

theorem mem_scanned {bitmap : Bytes} {start stop i : Nat} (hi : i ∈ scanned bitmap start stop) :
    start ≤ i ∧ i < stop := by
  unfold scanned at hi
  split at hi
  · have hRange := List.mem_range'_1.mp hi
    omega
  · rename_i first hFirst
    have hStop := (firstClear_some hFirst).2.1
    have hRange := List.mem_range'_1.mp hi
    omega

theorem mem_searched {bitmap : Bytes} {start stop blks j : Nat}
    (hBits : ∀ i, start ≤ i → i < stop → i < 8 * bitmapBytes blks)
    (hj : j ∈ searched bitmap start stop) : j < bitmapBytes blks := by
  rcases List.mem_append.mp hj with hScan | hFlush
  · obtain ⟨i, hi, rfl⟩ := List.mem_map.mp hScan
    obtain ⟨hLo, hHi⟩ := mem_scanned hi
    have hBit := hBits i hLo hHi
    omega
  · cases hFirst : firstClear bitmap start stop with
    | none => simp [hFirst] at hFlush
    | some i =>
      obtain ⟨hLo, hHi, _⟩ := firstClear_some hFirst
      simp only [hFirst, Option.map_some, Option.getD_some] at hFlush
      exact mem_flushed (hBits i hLo hHi) hFlush

namespace Superblock.Sound

variable {sb : Superblock} (h : sb.Sound)

include h

theorem tableBlock_allowed {ino : Nat} (hIno : ino < sb.inodeCount) :
    (Access.tableBlock (sb.tableBlock ino)).Allowed sb := by
  have hEnd := h.tableEnd (by omega)
  have hTable := h.table
  have hBlock : sb.tableBlock ino = sb.inodeTableStart + ino / 8 := u32_of_lt (by omega)
  simp only [Access.Allowed, hBlock]
  omega

theorem inodeBit {i : Nat} (hi : i < sb.inodeCount) : i < 8 * bitmapBytes sb.inodeBitmapBlks :=
  hi.trans_le h.inodeBits

theorem blockBit {i : Nat} (hLo : sb.dataBlocksStart ≤ i) (hHi : i < sb.totalBlocks) :
    i < 8 * bitmapBytes sb.blockBitmapBlks := hHi.trans_le (h.blockBits (hLo.trans_lt hHi))

end Superblock.Sound

theorem kfsAllocBlock_range {blk : Nat} (h : (kfsAllocBlock s).1 = .ok blk) :
    s.sb.dataBlocksStart ≤ blk ∧ blk < s.sb.totalBlocks := by
  unfold kfsAllocBlock at h
  cases hFirst : firstClear s.blockBitmap s.sb.dataBlocksStart s.sb.totalBlocks with
  | none =>
    rw [hFirst] at h
    cases h
  | some i =>
    obtain ⟨hLo, hHi, _⟩ := firstClear_some hFirst
    rw [hFirst] at h
    dsimp only at h
    generalize flushBlockBitmap { s with blockBitmap := set s.blockBitmap i } i = flush at h
    obtain ⟨_ | _, s₁⟩ := flush
    · cases h
    · dsimp only at h
      generalize s₁.writeSectors i (fun _ => 0) = write at h
      obtain ⟨_ | _, s₂⟩ := write
      · cases h
      · obtain rfl := Except.ok.inj h
        exact ⟨hLo, hHi⟩

theorem accesses_allowed (h : s.sb.Sound) (call : MetaCall) :
    ∀ a ∈ accesses s call, a.Allowed s.sb := by
  intro a ha
  cases call with
  | readInode ino =>
    rw [accesses] at ha
    split at ha
    · cases ha
    rename_i hIno
    have hLt : ino < s.sb.inodeCount := Nat.not_le.mp hIno
    rcases List.mem_cons.mp ha with rfl | hTable
    · have hBit := h.inodeBit hLt
      simp only [Access.Allowed]
      omega
    · split at hTable
      · obtain rfl := List.mem_singleton.mp hTable
        exact h.tableBlock_allowed hLt
      · cases hTable
  | writeInode ino inode =>
    rw [accesses] at ha
    split at ha
    · cases ha
    · rename_i hIno
      obtain rfl := List.mem_singleton.mp ha
      exact h.tableBlock_allowed (Nat.not_le.mp hIno)
  | allocInode type =>
    rw [accesses] at ha
    rcases List.mem_append.mp ha with hByte | hTable
    · obtain ⟨j, hj, rfl⟩ := List.mem_map.mp hByte
      exact mem_searched (fun i _ hi => h.inodeBit hi) hj
    · cases hFirst : firstClear s.inodeBitmap 1 s.sb.inodeCount with
      | none =>
        rw [hFirst] at hTable
        cases hTable
      | some i =>
        rw [hFirst] at hTable
        dsimp only at hTable
        split at hTable
        · cases hTable
        · obtain rfl := List.mem_singleton.mp hTable
          exact h.tableBlock_allowed (firstClear_some hFirst).2.1
  | freeInode ino =>
    rw [accesses] at ha
    split at ha
    · cases ha
    · rename_i hIno
      obtain ⟨j, hj, rfl⟩ := List.mem_map.mp ha
      exact mem_freed (h.inodeBit (by omega)) hj
  | allocBlock =>
    rw [accesses] at ha
    rcases List.mem_append.mp ha with hByte | hResult
    · obtain ⟨j, hj, rfl⟩ := List.mem_map.mp hByte
      exact mem_searched (fun i => h.blockBit) hj
    · cases hAlloc : (kfsAllocBlock s).1 with
      | error err =>
        rw [hAlloc] at hResult
        cases hResult
      | ok blk =>
        rw [hAlloc] at hResult
        obtain rfl := List.mem_singleton.mp hResult
        obtain ⟨hLo, hHi⟩ := kfsAllocBlock_range hAlloc
        exact h.data blk hLo hHi
  | freeBlock blk =>
    rw [accesses] at ha
    split at ha
    · cases ha
    · rename_i hBlk
      obtain ⟨j, hj, rfl⟩ := List.mem_map.mp ha
      exact mem_freed (h.blockBit (by omega) (by omega)) hj

theorem accesses_run {sb : Superblock} (h : sb.Sound) (hSb : s.sb = sb) (calls : List MetaCall) :
    Trace.EachStep metaStep (fun s call => ∀ a ∈ accesses s call, a.Allowed sb) s calls := by
  induction calls generalizing s with
  | nil => exact trivial
  | cons call rest ih =>
    subst hSb
    exact ⟨accesses_allowed h call, ih (congrArg Mount.sb (metaStep_mount s call))⟩

end Steps

section Necessary

/-- The same machine with a device that never fails. -/
def Device.repaired (d : Device) : Device :=
  { d with readFault := fun _ => none, writeFault := fun _ => none }

/-- The volume that a mount with these bitmaps gives. -/
def Device.volume (d : Device) (sb : Superblock) (blockBitmap inodeBitmap : Bytes) : Volume where
  mount := ⟨sb, d.readFault, d.writeFault, d.heapFails⟩
  disk := d.disk
  blockBitmap := blockBitmap
  inodeBitmap := inodeBitmap

theorem kfsMount_eq_ok {d : Device} {s : Volume} : kfsMount d = .ok s ↔
    ∃ sb blockBitmap inodeBitmap, kfsReadSuperblock d = .ok sb ∧
      ¬ (sb.totalBlocks = 0 ∨ sb.totalBlocks > 1000000) ∧ sb.blockBitmapBlks ≠ 0 ∧
      loadBitmap d sb.blockBitmapStart sb.blockBitmapBlks = .ok blockBitmap ∧
      loadBitmap d sb.inodeBitmapStart sb.inodeBitmapBlks = .ok inodeBitmap ∧
      d.kmalloc 24 = true ∧ d.rootMounted = false ∧ d.volume sb blockBitmap inodeBitmap = s := by
  unfold kfsMount kfsLoadBitmaps
  constructor
  · intro h
    split at h
    · cases h
    rename_i sb hRead
    split at h
    · cases h
    rename_i hTotal
    split at h
    · cases h
    rename_i hBlks
    cases hBlock : loadBitmap d sb.blockBitmapStart sb.blockBitmapBlks with
    | error err =>
      rw [hBlock] at h
      cases h
    | ok blockBitmap =>
    cases hInode : loadBitmap d sb.inodeBitmapStart sb.inodeBitmapBlks with
    | error err =>
      rw [hBlock, hInode] at h
      cases h
    | ok inodeBitmap =>
    rw [hBlock, hInode] at h
    dsimp only at h
    split at h
    · cases h
    rename_i hAlloc
    split at h
    · cases h
    rename_i hRoot
    exact ⟨sb, blockBitmap, inodeBitmap, hRead, hTotal, hBlks, hBlock, hInode,
      by simpa using hAlloc, by simpa using hRoot, Except.ok.inj h⟩
  · rintro ⟨sb, blockBitmap, inodeBitmap, hRead, hTotal, hBlks, hBlock, hInode, hAlloc, hRoot, rfl⟩
    simp only [hRead, if_neg hTotal, if_neg hBlks, hBlock, hInode, hAlloc, hRoot, Bool.not_true,
      Bool.false_eq_true, if_false]
    rfl

theorem kfsReadSuperblock_ok {d : Device} {sb : Superblock} (h : kfsReadSuperblock d = .ok sb) :
    sb = decodeSuperblock (d.disk kfsSuperblockBlk) ∧ kfsReadSuperblock d.repaired = .ok sb := by
  unfold kfsReadSuperblock at h
  split at h
  · cases h
  rename_i hAlloc
  split at h
  · cases h
  dsimp only at h
  split at h
  · cases h
  rename_i hMagic
  obtain rfl := Except.ok.inj h
  refine ⟨rfl, ?_⟩
  change (if !d.kmalloc 512 then _ else _) = _
  rw [if_neg hAlloc]
  exact if_neg hMagic

theorem loadBitmap_repaired {d : Device} {start blks : Nat} {bitmap : Bytes}
    (h : loadBitmap d start blks = .ok bitmap) : loadBitmap d.repaired start blks = .ok bitmap := by
  unfold loadBitmap at h ⊢
  split at h
  · cases h
  rename_i hAlloc
  change (if !d.kmalloc (bitmapBytes blks) then _ else _) = _
  rw [if_neg hAlloc]
  unfold Device.readSectors at h ⊢
  split at h
  · cases h
  · simpa [Device.repaired, List.findSome?_eq_none_iff.mpr] using h

/-- A superblock that is accepted at all is accepted on a device that never
fails. -/
theorem kfsMount_repaired {d : Device} {s : Volume} (h : kfsMount d = .ok s) :
    ∃ s', kfsMount d.repaired = .ok s' ∧ s'.sb = s.sb ∧ s'.mount.Reliable := by
  obtain ⟨sb, blockBitmap, inodeBitmap, hRead, hTotal, hBlks, hBlock, hInode, hAlloc, hRoot, rfl⟩ :=
    kfsMount_eq_ok.mp h
  refine ⟨d.repaired.volume sb blockBitmap inodeBitmap, kfsMount_eq_ok.mpr ?_, rfl, ?_⟩
  · exact ⟨sb, blockBitmap, inodeBitmap, (kfsReadSuperblock_ok hRead).2, hTotal, hBlks,
      loadBitmap_repaired hBlock, loadBitmap_repaired hInode, hAlloc, hRoot, rfl⟩
  · exact ⟨fun _ => rfl, fun _ => rfl⟩

/-- On a device that never fails, an allocation hands out the first free block. -/
theorem kfsAllocBlock_first {s : Volume} (hReliable : s.mount.Reliable) {i : Nat}
    (hFirst : firstClear s.blockBitmap s.sb.dataBlocksStart s.sb.totalBlocks = some i) :
    (kfsAllocBlock s).1 = .ok i ∧ (kfsAllocBlock s).2.blockBitmap = set s.blockBitmap i := by
  have hMarked : ({ s with blockBitmap := set s.blockBitmap i } : Volume).mount.Reliable :=
    hReliable
  simp only [kfsAllocBlock, hFirst, flushBlockBitmap, Volume.writeSectors_eq hMarked]
  rw [Volume.writeSectors_eq (by exact hReliable)]
  exact ⟨rfl, rfl⟩

/-- A free block is handed out after as many allocations as there are free
blocks below it. -/
theorem allocations_reach {s : Volume} (hReliable : s.mount.Reliable) {b : Nat}
    (hLo : s.sb.dataBlocksStart ≤ b) (hHi : b < s.sb.totalBlocks)
    (hClear : isSet s.blockBitmap b = false) {sb : Superblock} (hMeta : sb.metadata b) :
    ∃ n, ¬ Trace.EachStep metaStep (fun s call => ∀ a ∈ accesses s call, a.Allowed sb) s
      (List.replicate n .allocBlock) := by
  obtain ⟨i, hFirst⟩ := firstClear_isSome hLo hHi hClear
  obtain ⟨hResult, hBitmap⟩ := kfsAllocBlock_first hReliable hFirst
  have hAccess : Access.allocated i ∈ accesses s .allocBlock := by
    rw [accesses, hResult]
    exact List.mem_append.mpr (Or.inr (List.mem_singleton.mpr rfl))
  by_cases hi : i = b
  · subst hi
    exact ⟨1, fun hRun => hRun.1 _ hAccess hMeta⟩
  · have hMount : (metaStep s .allocBlock).mount = s.mount := metaStep_mount s .allocBlock
    have hSb : (metaStep s .allocBlock).sb = s.sb := congrArg Mount.sb hMount
    have hClear' : isSet (metaStep s .allocBlock).blockBitmap b = false := by
      rw [metaStep, hBitmap, isSet_set]
      simp [Ne.symm hi, hClear]
    have hFewer : (clearBits (metaStep s .allocBlock).blockBitmap s.sb.totalBlocks).card <
        (clearBits s.blockBitmap s.sb.totalBlocks).card := by
      obtain ⟨_, hiHi, hiClear⟩ := firstClear_some hFirst
      rw [metaStep, hBitmap]
      have hCard := card_clearBits_set hiHi hiClear
      omega
    obtain ⟨n, hn⟩ := allocations_reach (hMount ▸ hReliable) (hSb ▸ hLo) (hSb ▸ hHi) hClear' hMeta
    exact ⟨n + 1, fun hRun => hn hRun.2⟩
termination_by (clearBits s.blockBitmap s.sb.totalBlocks).card
decreasing_by
  rw [hSb]
  exact hFewer

/-- The fields of a superblock are 32-bit words. -/
theorem kfsMount_words {d : Device} {s : Volume} (h : kfsMount d = .ok s) :
    s.sb.inodeTableStart < 2 ^ 32 ∧ s.sb.inodeCount < 2 ^ 32 := by
  obtain ⟨sb, _, _, hRead, _, _, _, _, _, _, rfl⟩ := kfsMount_eq_ok.mp h
  change sb.inodeTableStart < _ ∧ sb.inodeCount < _
  rw [(kfsReadSuperblock_ok hRead).1]
  exact ⟨readWord_lt _ _, readWord_lt _ _⟩

theorem kfsFreeBlock_bitmap {s : Volume} (hReliable : s.mount.Reliable) {b : Nat}
    (hLo : s.sb.dataBlocksStart ≤ b) (hHi : b < s.sb.totalBlocks) :
    (kfsFreeBlock s b).2.blockBitmap = clear s.blockBitmap b := by
  have hRange : ¬ (b < s.sb.dataBlocksStart ∨ b ≥ s.sb.totalBlocks) := by omega
  rw [kfsFreeBlock, if_neg hRange, flushBlockBitmap, Volume.writeSectors_eq (by exact hReliable)]
  rfl

namespace SafeAfterMount

variable {d : Device} {s : Volume} (hSafe : SafeAfterMount s.sb) (hMount : kfsMount d = .ok s)

include hSafe hMount

theorem first (call : MetaCall) : ∀ a ∈ accesses s call, a.Allowed s.sb :=
  (hSafe d s hMount rfl [call]).1

theorem inodeBits : s.sb.inodeCount ≤ 8 * bitmapBytes s.sb.inodeBitmapBlks := by
  by_contra hMore
  have hLast : ¬ s.sb.inodeCount - 1 ≥ s.sb.inodeCount := by omega
  have hByte : (s.sb.inodeCount - 1) / 8 < bitmapBytes s.sb.inodeBitmapBlks := by
    apply hSafe.first hMount (.readInode (s.sb.inodeCount - 1)) (.inodeByte _)
    rw [accesses, if_neg hLast]
    exact List.mem_cons_self
  omega

theorem blockBits (hData : s.sb.dataBlocksStart < s.sb.totalBlocks) :
    s.sb.totalBlocks ≤ 8 * bitmapBytes s.sb.blockBitmapBlks := by
  have hLast : ¬ (s.sb.totalBlocks - 1 < s.sb.dataBlocksStart ∨
      s.sb.totalBlocks - 1 ≥ s.sb.totalBlocks) := by omega
  have hByte : (s.sb.totalBlocks - 1) / 8 < bitmapBytes s.sb.blockBitmapBlks := by
    apply hSafe.first hMount (.freeBlock (s.sb.totalBlocks - 1)) (.blockByte _)
    rw [accesses, if_neg hLast, freed]
    exact List.mem_cons_self
  omega

/-- The last inode lies in the table only if the sum of its block does not wrap
around. -/
theorem lastInode (hSome : 0 < s.sb.inodeCount) :
    s.sb.inodeTableStart + (s.sb.inodeCount - 1) / 8 < 2 ^ 32 ∧
      s.sb.inodeCount ≤ 8 * s.sb.inodeTableBlks := by
  obtain ⟨hStart, hCount⟩ := kfsMount_words hMount
  have hLast : ¬ s.sb.inodeCount - 1 ≥ s.sb.inodeCount := by omega
  have hBlock : s.sb.inodeTableStart ≤ s.sb.tableBlock (s.sb.inodeCount - 1) ∧
      s.sb.tableBlock (s.sb.inodeCount - 1) < s.sb.inodeTableStart + s.sb.inodeTableBlks := by
    apply hSafe.first hMount (.writeInode (s.sb.inodeCount - 1) Inode.zero) (.tableBlock _)
    rw [accesses, if_neg hLast]
    exact List.mem_cons_self
  simp only [Superblock.tableBlock, u32] at hBlock
  omega

/-- A metadata block among the data blocks can be freed, and is then handed out. -/
theorem data {b : Nat} (hLo : s.sb.dataBlocksStart ≤ b) (hHi : b < s.sb.totalBlocks) :
    ¬ s.sb.metadata b := by
  intro hMeta
  obtain ⟨s', hMount', hSb, hReliable⟩ := kfsMount_repaired hMount
  have hLo' : s'.sb.dataBlocksStart ≤ b := by rwa [hSb]
  have hHi' : b < s'.sb.totalBlocks := by rwa [hSb]
  have hStep : (metaStep s' (.freeBlock b)).mount = s'.mount := metaStep_mount s' (.freeBlock b)
  have hSb' : (metaStep s' (.freeBlock b)).sb = s'.sb := congrArg Mount.sb hStep
  have hClear : isSet (metaStep s' (.freeBlock b)).blockBitmap b = false := by
    rw [metaStep, kfsFreeBlock_bitmap hReliable hLo' hHi', isSet_clear]
    simp
  obtain ⟨n, hn⟩ := allocations_reach (hStep ▸ hReliable) (hSb' ▸ hLo') (hSb' ▸ hHi') hClear hMeta
  exact hn (hSafe _ s' hMount' hSb (.freeBlock b :: List.replicate n .allocBlock)).2

end SafeAfterMount

/-- The checks of `kfs_mount` do not imply it: after an accepted mount the later
calls stay in the buffers, in the inode table and off the metadata exactly if the
superblock is sound. -/
theorem mount_safe_iff_sound {d : Device} {s : Volume} (hMount : kfsMount d = .ok s) :
    SafeAfterMount s.sb ↔ s.sb.Sound := by
  constructor
  · intro hSafe
    exact
      { inodeBits := hSafe.inodeBits hMount
        blockBits := hSafe.blockBits hMount
        table := by
          rcases Nat.eq_zero_or_pos s.sb.inodeCount with hZero | hSome
          · omega
          · exact (hSafe.lastInode hMount hSome).2
        tableEnd := fun hSome => (hSafe.lastInode hMount hSome).1
        data := fun b => hSafe.data hMount }
  · intro hSound d' s' _ hSb calls
    exact accesses_run hSound hSb calls

end Necessary

/-- A disk that holds a superblock and zeros, on a machine where nothing fails. -/
def blankDevice (sb : Superblock) : Device where
  disk := fun b => if b = kfsSuperblockBlk then storeWords (fun _ => 0) 0 11 sb.word else fun _ => 0
  readFault := fun _ => none
  writeFault := fun _ => none
  heapFails := fun _ => false
  memory := fun _ => 0
  rootMounted := false

/-- The bitmap that such a disk gives. -/
def blankBitmap (sb : Superblock) (start blks : Nat) : Bytes :=
  fun i => if i < blks * 512 then (blankDevice sb).disk (start + i / 512) (i % 512) else 0

/-- The volume of such a disk. -/
def blankVolume (sb : Superblock) : Volume :=
  (blankDevice sb).volume sb (blankBitmap sb sb.blockBitmapStart sb.blockBitmapBlks)
    (blankBitmap sb sb.inodeBitmapStart sb.inodeBitmapBlks)

theorem blankDevice_loads (sb : Superblock) {start blks : Nat} (h : bitmapBytes blks ≠ 0) :
    loadBitmap (blankDevice sb) start blks = .ok (blankBitmap sb start blks) := by
  have hAlloc : (blankDevice sb).kmalloc (bitmapBytes blks) = true := by
    simp [Device.kmalloc, blankDevice, h]
  have hReads :
      (List.range blks).findSome? (fun i => (blankDevice sb).readFault (start + i)) = none :=
    List.findSome?_eq_none_iff.mpr fun _ _ => rfl
  rw [loadBitmap, hAlloc, Device.readSectors, hReads]
  rfl

theorem blankDevice_mounts {sb : Superblock}
    (hRead : kfsReadSuperblock (blankDevice sb) = .ok sb)
    (hTotal : ¬ (sb.totalBlocks = 0 ∨ sb.totalBlocks > 1000000)) (hBlks : sb.blockBitmapBlks ≠ 0)
    (hBlock : bitmapBytes sb.blockBitmapBlks ≠ 0) (hInode : bitmapBytes sb.inodeBitmapBlks ≠ 0) :
    kfsMount (blankDevice sb) = .ok (blankVolume sb) :=
  kfsMount_eq_ok.mpr ⟨sb, _, _, hRead, hTotal, hBlks, blankDevice_loads sb hBlock,
    blankDevice_loads sb hInode, rfl, rfl, rfl⟩

/-- What `mkfs_kfs.py` writes is sound. -/
theorem mkfsSuperblock_sound : mkfsSuperblock.Sound where
  inodeBits := by decide
  blockBits := by decide
  table := by decide
  tableEnd := by decide
  data := by
    intro b hLo _ hMeta
    simp only [mkfsSuperblock] at hLo
    simp only [Superblock.metadata, mkfsSuperblock, kfsSuperblockBlk] at hMeta
    omega

theorem mount_safe_iff_sound_mkfs :
    kfsMount (blankDevice mkfsSuperblock) = .ok (blankVolume mkfsSuperblock) ∧
      SafeAfterMount (blankVolume mkfsSuperblock).sb := by
  have hMount : kfsMount (blankDevice mkfsSuperblock) = .ok (blankVolume mkfsSuperblock) :=
    blankDevice_mounts (by rfl) (by decide) (by decide) (by decide) (by decide)
  exact ⟨hMount, (mount_safe_iff_sound hMount).mpr mkfsSuperblock_sound⟩

/-- A superblock with one block for each bitmap and for the inode table, but a
million blocks, all of them data, and 8192 inodes. -/
def looseSuperblock : Superblock where
  magic := kfsMagic
  totalBlocks := 1000000
  inodeCount := 8192
  blockBitmapStart := 65
  blockBitmapBlks := 1
  inodeBitmapStart := 66
  inodeBitmapBlks := 1
  inodeTableStart := 67
  inodeTableBlks := 1
  dataBlocksStart := 0
  rootInode := 0

/-- It is accepted. Then freeing a block writes far behind the block bitmap,
reading an inode reads behind the inode bitmap, writing one overwrites a block
behind the inode table, and block 0 is handed out. -/
theorem kfsMount_accepts_unsound :
    kfsMount (blankDevice looseSuperblock) = .ok (blankVolume looseSuperblock) ∧
    (∃ a ∈ accesses (blankVolume looseSuperblock) (.freeBlock 999999),
      a = .blockByte 124999 ∧ ¬ a.Allowed looseSuperblock) ∧
    (∃ a ∈ accesses (blankVolume looseSuperblock) (.readInode 8191),
      a = .inodeByte 1023 ∧ ¬ a.Allowed looseSuperblock) ∧
    (∃ a ∈ accesses (blankVolume looseSuperblock) (.writeInode 8191 Inode.zero),
      a = .tableBlock 1090 ∧ ¬ a.Allowed looseSuperblock) ∧
    (kfsAllocBlock (blankVolume looseSuperblock)).1 = .ok 0 := by
  refine ⟨blankDevice_mounts (by rfl) (by decide) (by decide) (by decide) (by decide),
    ⟨.blockByte 124999, ?_, rfl, by decide⟩, ⟨.inodeByte 1023, ?_, rfl, by decide⟩,
    ⟨.tableBlock 1090, ?_, rfl, by decide⟩, ?_⟩
  · exact List.mem_cons_self
  · exact List.mem_cons_self
  · exact List.mem_cons_self
  · rfl

end Kryos.Fs
