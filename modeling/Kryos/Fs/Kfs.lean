import Kryos.Base.Bitmap
import Kryos.Base.LittleEndian
import Kryos.Base.Word

/-! KFS on its block device: inodes, bitmaps, block maps and file contents.

A block is 512 bytes (`KFS_BLOCK_SIZE`). The disk and the cached bitmaps are the
state; reads leave it as it is. An error is the negative number the C function
returns. -/
namespace Kryos.Fs

open Bitmap LittleEndian Word

def enoent : Int := 2
def eio : Int := 5
def enomem : Int := 12
def eexist : Int := 17
def enotdir : Int := 20
def eisdir : Int := 21
def einval : Int := 22
def efbig : Int := 27
def enospc : Int := 28
def enotempty : Int := 39

def kfsTypeFile : Nat := 1
def kfsTypeDir : Nat := 2

/-- `struct kfs_superblock`, without its padding. -/
structure Superblock where
  magic : Nat
  totalBlocks : Nat
  inodeCount : Nat
  blockBitmapStart : Nat
  blockBitmapBlks : Nat
  inodeBitmapStart : Nat
  inodeBitmapBlks : Nat
  inodeTableStart : Nat
  inodeTableBlks : Nat
  dataBlocksStart : Nat
  rootInode : Nat
  deriving DecidableEq, Repr

/-- The superblock that `mkfs_kfs.py` writes. -/
def mkfsSuperblock : Superblock where
  magic := 0x4B465331
  totalBlocks := 32768
  inodeCount := 128
  blockBitmapStart := 65
  blockBitmapBlks := 8
  inodeBitmapStart := 73
  inodeBitmapBlks := 1
  inodeTableStart := 74
  inodeTableBlks := 16
  dataBlocksStart := 90
  rootInode := 0

/-- `struct kfs_inode`. -/
structure Inode where
  size : Nat
  type : Nat
  direct : Fin 10 → Nat
  indirect : Nat
  linkCount : Nat
  pad : Fin 2 → Nat

def Inode.zero : Inode where
  size := 0
  type := 0
  direct := fun _ => 0
  indirect := 0
  linkCount := 0
  pad := fun _ => 0

/-- The 16 words of an inode in the order of the C structure. -/
def Inode.word (inode : Inode) (k : Nat) : Nat :=
  if k = 0 then inode.size
  else if k = 1 then inode.type
  else if h : k - 2 < 10 then inode.direct ⟨k - 2, h⟩
  else if k = 12 then inode.indirect
  else if k = 13 then inode.linkCount
  else inode.pad ⟨k % 2, Nat.mod_lt _ (by decide)⟩

def Inode.ofWords (word : Nat → Nat) : Inode where
  size := word 0
  type := word 1
  direct := fun i => word (2 + i)
  indirect := word 12
  linkCount := word 13
  pad := fun i => word (14 + i)

/-- The bytes of one block. Only the first 512 are used. -/
abbrev Sector := Nat → UInt8

/-- `inode_arr[index]` of a block of the inode table. -/
def decodeInode (buf : Sector) (index : Nat) : Inode :=
  Inode.ofWords (fun k => readWord buf (16 * index + k))

/-- `inode_arr[index] = inode`. -/
def encodeInode (buf : Sector) (index : Nat) (inode : Inode) : Sector :=
  storeWords buf (16 * index) 16 inode.word

/-- What is fixed once the file system is mounted: the superblock, the sectors that
the device fails to read or write and with which error, and the sizes that `kmalloc`
cannot serve. -/
structure Mount where
  sb : Superblock
  readFault : Nat → Option Int
  writeFault : Nat → Option Int
  heapFails : Nat → Bool

structure Volume where
  mount : Mount
  disk : Nat → Sector
  blockBitmap : Bytes
  inodeBitmap : Bytes

def Volume.sb (s : Volume) : Superblock := s.mount.sb

/-- `kfs_blk->read_sectors` of one sector. -/
def Volume.readSectors (s : Volume) (sector : Nat) : Except Int Sector :=
  match s.mount.readFault sector with
  | some err => .error err
  | none => .ok (s.disk sector)

/-- `kfs_blk->write_sectors` of one sector. -/
def Volume.writeSectors (s : Volume) (sector : Nat) (data : Sector) : Except Int Unit × Volume :=
  match s.mount.writeFault sector with
  | some err => (.error err, s)
  | none => (.ok (), { s with disk := Function.update s.disk sector data })

/-- Whether `kmalloc` returns memory; it never does for size 0. -/
def Volume.kmalloc (s : Volume) (size : Nat) : Bool := size != 0 && !s.mount.heapFails size

/-- The block of the inode table that holds an inode. The sum is one of 32-bit
words, as those of the bitmap blocks below. -/
def Superblock.tableBlock (sb : Superblock) (ino : Nat) : Nat := u32 (sb.inodeTableStart + ino / 8)

def kfsReadInode (s : Volume) (ino : Nat) : Except Int Inode :=
  if ino ≥ s.sb.inodeCount then .error (-einval)
  else if !isSet s.inodeBitmap ino then .error (-enoent)
  else
    match s.readSectors (s.sb.tableBlock ino) with
    | .error err => .error err
    | .ok buf => .ok (decodeInode buf (ino % 8))

def kfsWriteInode (s : Volume) (ino : Nat) (inode : Inode) : Except Int Unit × Volume :=
  if ino ≥ s.sb.inodeCount then (.error (-einval), s)
  else
    match s.readSectors (s.sb.tableBlock ino) with
    | .error err => (.error err, s)
    | .ok buf => s.writeSectors (s.sb.tableBlock ino) (encodeInode buf (ino % 8) inode)

/-- Writes the sector of the cached inode bitmap that holds the bit of `ino`. -/
def flushInodeBitmap (s : Volume) (ino : Nat) : Except Int Unit × Volume :=
  s.writeSectors (u32 (s.sb.inodeBitmapStart + ino / 8 / 512))
    (fun i => s.inodeBitmap (ino / 8 / 512 * 512 + i))

/-- Writes the sector of the cached block bitmap that holds the bit of `blk`. -/
def flushBlockBitmap (s : Volume) (blk : Nat) : Except Int Unit × Volume :=
  s.writeSectors (u32 (s.sb.blockBitmapStart + blk / 8 / 512))
    (fun i => s.blockBitmap (blk / 8 / 512 * 512 + i))

/-- The first index in `[start, stop)` whose bit is clear. -/
def firstClear (bitmap : Bytes) (start stop : Nat) : Option Nat :=
  (List.range' start (stop - start)).find? (fun i => !isSet bitmap i)

def kfsAllocInode (s : Volume) (type : Nat) : Except Int Nat × Volume :=
  match firstClear s.inodeBitmap 1 s.sb.inodeCount with
  | none => (.error (-enospc), s)
  | some i =>
    match flushInodeBitmap { s with inodeBitmap := set s.inodeBitmap i } i with
    | (.error err, s) => (.error err, s)
    | (.ok _, s) =>
      match kfsWriteInode s i { Inode.zero with type := type, linkCount := 1 } with
      | (.error err, s) => (.error err, s)
      | (.ok _, s) => (.ok i, s)

def kfsFreeInode (s : Volume) (ino : Nat) : Except Int Unit × Volume :=
  if ino = 0 ∨ ino ≥ s.sb.inodeCount then (.error (-einval), s)
  else flushInodeBitmap { s with inodeBitmap := clear s.inodeBitmap ino } ino

def kfsAllocBlock (s : Volume) : Except Int Nat × Volume :=
  match firstClear s.blockBitmap s.sb.dataBlocksStart s.sb.totalBlocks with
  | none => (.error (-enospc), s)
  | some i =>
    match flushBlockBitmap { s with blockBitmap := set s.blockBitmap i } i with
    | (.error err, s) => (.error err, s)
    | (.ok _, s) =>
      match s.writeSectors i (fun _ => 0) with
      | (.error err, s) => (.error err, s)
      | (.ok _, s) => (.ok i, s)

def kfsFreeBlock (s : Volume) (blk : Nat) : Except Int Unit × Volume :=
  if blk < s.sb.dataBlocksStart ∨ blk ≥ s.sb.totalBlocks then (.error (-einval), s)
  else flushBlockBitmap { s with blockBitmap := clear s.blockBitmap blk } blk

/-- What `kfs_map_or_alloc_block` leaves in its arguments. The inode may have
changed even when the call fails. -/
structure Mapping where
  result : Except Int Nat
  inode : Inode
  dirty : Bool

/-- The indirect block of an inode, allocated when there is none. -/
def ensureIndirect (s : Volume) (inode : Inode) (dirty : Bool) : Mapping × Volume :=
  if inode.indirect = 0 then
    match kfsAllocBlock s with
    | (.error err, s) => (⟨.error err, inode, dirty⟩, s)
    | (.ok newInd, s) => (⟨.ok newInd, { inode with indirect := newInd }, true⟩, s)
  else (⟨.ok inode.indirect, inode, dirty⟩, s)

/-- The entry `indOffset` of the indirect block, allocated when it is 0. -/
def ensureEntry (s : Volume) (indirect indOffset : Nat) : Except Int Nat × Volume :=
  match s.readSectors indirect with
  | .error err => (.error err, s)
  | .ok indBuf =>
    if readWord indBuf indOffset = 0 then
      match kfsAllocBlock s with
      | (.error err, s) => (.error err, s)
      | (.ok newBlk, s) =>
        match s.writeSectors indirect (storeWords indBuf indOffset 1 (fun _ => newBlk)) with
        | (.error err, s) => (.error err, s)
        | (.ok _, s) => (.ok newBlk, s)
    else (.ok (readWord indBuf indOffset), s)

def kfsMapOrAllocBlock (s : Volume) (inode : Inode) (logicalBlk : Nat) (dirty : Bool) :
    Mapping × Volume :=
  if h : logicalBlk < 10 then
    if inode.direct ⟨logicalBlk, h⟩ = 0 then
      match kfsAllocBlock s with
      | (.error err, s) => (⟨.error err, inode, dirty⟩, s)
      | (.ok newBlk, s) =>
        (⟨.ok newBlk, { inode with direct := Function.update inode.direct ⟨logicalBlk, h⟩ newBlk },
          true⟩, s)
    else (⟨.ok (inode.direct ⟨logicalBlk, h⟩), inode, dirty⟩, s)
  else if logicalBlk - 10 ≥ 128 then (⟨.error (-efbig), inode, dirty⟩, s)
  else
    match ensureIndirect s inode dirty with
    | (⟨.error err, inode, dirty⟩, s) => (⟨.error err, inode, dirty⟩, s)
    | (⟨.ok indirect, inode, dirty⟩, s) =>
      match ensureEntry s indirect (logicalBlk - 10) with
      | (result, s) => (⟨result, inode, dirty⟩, s)

/-- `kfs_map_block`: the block that holds a logical block of a file. -/
def kfsMapBlock (s : Volume) (inode : Inode) (logicalBlk : Nat) : Except Int Nat :=
  if h : logicalBlk < 10 then
    if inode.direct ⟨logicalBlk, h⟩ = 0 then .error (-enoent)
    else .ok (inode.direct ⟨logicalBlk, h⟩)
  else if inode.indirect = 0 then .error (-enoent)
  else if logicalBlk - 10 ≥ 128 then .error (-einval)
  else
    match s.readSectors inode.indirect with
    | .error err => .error err
    | .ok buf =>
      if readWord buf (logicalBlk - 10) = 0 then .error (-enoent)
      else .ok (readWord buf (logicalBlk - 10))

/-- The `count` bytes of a block from `start` on. -/
def slice (buf : Sector) (start count : Nat) : List UInt8 :=
  (List.range count).map (fun i => buf (start + i))

/-- The loop of `kfs_vnode_read`: the bytes read and the new file offset. Each turn
reads at least one byte, so `fuel = toRead` turns are enough. -/
def readLoop (s : Volume) (inode : Inode) : Nat → Nat → Nat → Except Int (List UInt8) × Nat
  | 0, offset, _ => (.ok [], offset)
  | fuel + 1, offset, toRead =>
    if toRead = 0 then (.ok [], offset)
    else
      match kfsMapBlock s inode (u32 (offset / 512)) with
      | .error err => (.error err, offset)
      | .ok physBlk =>
        match s.readSectors physBlk with
        | .error err => (.error err, offset)
        | .ok blkBuf =>
          let chunk := min (512 - offset % 512) toRead
          match readLoop s inode fuel (u64 (offset + chunk)) (toRead - chunk) with
          | (.error err, offset) => (.error err, offset)
          | (.ok rest, end_) => (.ok (slice blkBuf (offset % 512) chunk ++ rest), end_)

/-- `kfs_vnode_read` on the inode `ino` at the offset of the handle. -/
def kfsVnodeRead (s : Volume) (ino offset count : Nat) : Except Int (List UInt8) × Nat :=
  match kfsReadInode s ino with
  | .error err => (.error err, offset)
  | .ok inode =>
    if offset ≥ inode.size then (.ok [], offset)
    else
      let toRead := if u64 (offset + count) > inode.size then inode.size - offset else count
      readLoop s inode toRead offset toRead

def oWronly : Nat := 1
def oRdwr : Nat := 2
def oAppend : Nat := 0x400

/-- The part of `struct file` that KFS uses. -/
structure OpenFile where
  offset : Nat
  flags : Nat
  deriving DecidableEq, Repr

/-- The local variables of `kfs_vnode_write`, with the offset of the handle. -/
structure WriteProgress where
  inode : Inode
  dirty : Bool
  offset : Nat
  totalWritten : Nat

/-- `memcpy(buf + start, src, n)`. -/
def copyInto (buf : Sector) (start : Nat) (src : List UInt8) : Sector :=
  fun i => if start ≤ i ∧ i < start + src.length then src.getD (i - start) 0 else buf i

/-- One turn of the loop of `kfs_vnode_write`: the number of bytes written. -/
def writeChunk (s : Volume) (p : WriteProgress) (src : List UInt8) :
    Except Int Nat × WriteProgress × Volume :=
  match kfsMapOrAllocBlock s p.inode (u32 (p.offset / 512)) p.dirty with
  | (⟨.error err, inode, dirty⟩, s) => (.error err, { p with inode := inode, dirty := dirty }, s)
  | (⟨.ok physBlk, inode, dirty⟩, s) =>
    let blkOffset := p.offset % 512
    let chunk := min (512 - blkOffset) src.length
    -- a whole block is overwritten without reading it
    match if blkOffset > 0 ∨ chunk < 512 then s.readSectors physBlk else .ok (fun _ => 0) with
    | .error err => (.error err, { p with inode := inode, dirty := dirty }, s)
    | .ok blkBuf =>
      match s.writeSectors physBlk (copyInto blkBuf blkOffset (src.take chunk)) with
      | (.error err, s) => (.error err, { p with inode := inode, dirty := dirty }, s)
      | (.ok _, s) =>
        let offset := u64 (p.offset + chunk)
        let grows := decide (offset > inode.size)
        (.ok chunk,
          { inode := if grows then { inode with size := u32 offset } else inode
            dirty := dirty || grows
            offset := offset
            totalWritten := p.totalWritten + chunk }, s)

/-- The loop of `kfs_vnode_write`. An error after the first turn ends the loop, an
error in the first turn ends the call. -/
def writeLoop : Nat → Volume → WriteProgress → List UInt8 → Except Int WriteProgress × Volume
  | 0, s, p, _ => (.ok p, s)
  | fuel + 1, s, p, src =>
    if src.length = 0 then (.ok p, s)
    else
      match writeChunk s p src with
      | (.error err, p, s) => if p.totalWritten > 0 then (.ok p, s) else (.error err, s)
      | (.ok chunk, p, s) => writeLoop fuel s p (src.drop chunk)

/-- `kfs_vnode_write`: the number of bytes written, and the handle's new offset. -/
def kfsVnodeWrite (s : Volume) (ino : Nat) (f : OpenFile) (buf : List UInt8) :
    Except Int Nat × Nat × Volume :=
  if f.flags &&& (oWronly ||| oRdwr) = 0 then (.error (-einval), f.offset, s)
  else if buf.length = 0 then (.ok 0, f.offset, s)
  else
    match kfsReadInode s ino with
    | .error err => (.error err, f.offset, s)
    | .ok inode =>
      let offset := if f.flags &&& oAppend ≠ 0 then inode.size else f.offset
      match writeLoop buf.length s ⟨inode, false, offset, 0⟩ buf with
      | (.error err, s) => (.error err, offset, s)
      | (.ok p, s) =>
        if p.dirty then
          match kfsWriteInode s ino p.inode with
          | (.error err, s) => (.error err, p.offset, s)
          | (.ok _, s) => (.ok p.totalWritten, p.offset, s)
        else (.ok p.totalWritten, p.offset, s)

end Kryos.Fs
