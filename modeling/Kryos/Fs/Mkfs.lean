import Kryos.Fs.FileBlocks
import Kryos.Fs.MountCheck

/-! `mkfs_kfs.py`: the image of a volume with the given files in its root
directory, as a byte array that the script fills from the front. -/
namespace Kryos.Fs

open Bitmap LittleEndian

/-- Why the script stops without writing an image. -/
inductive MkfsError where
  | usage
  | cannotOpen
  | notAscii
  | outOfInodes
  | outOfBlocks
  | assertion
deriving DecidableEq, Repr

/-- Slice assignment `img[offset:offset+len(data)] = data`. -/
def writeAt (img : Bytes) (offset : Nat) (data : List UInt8) : Bytes :=
  fun i => if offset ≤ i ∧ i < offset + data.length then data.getD (i - offset) 0 else img i

/-- `struct.pack` of 32-bit words. -/
def packWords (words : List Nat) : List UInt8 := words.flatMap (fun word => bytesOf word 4)

/-- The part of the image from a block on. -/
def fromBlock (img : Bytes) (blk : Nat) : Bytes := fun i => img (blk * 512 + i)

def writeBlock (img : Bytes) (blk : Nat) (data : List UInt8) : Except MkfsError Bytes :=
  if data.length > 512 then .error .assertion
  else .ok (writeAt img (blk * 512) (data ++ List.replicate (512 - data.length) 0))

/-- Marks a bit of the bitmap that starts at a block. -/
def markBit (start : Nat) (img : Bytes) (i : Nat) : Bytes :=
  Function.update img (start * 512 + i / 8) (img (start * 512 + i / 8) ||| bitMask i)

/-- `set_block_bitmap(blk, True)`; the script never clears a bit. -/
def setBlockBitmap : Bytes → Nat → Bytes := markBit 65

/-- `set_inode_bitmap(ino, True)`. -/
def setInodeBitmap : Bytes → Nat → Bytes := markBit 73

/-- `KFS.__init__`: the superblock, and the metadata blocks marked as used. -/
def freshImage : Bytes :=
  (List.range 90).foldl setBlockBitmap
    (writeAt (fun _ => 0) (64 * 512)
      (packWords [0x4B465331, 32768, 128, 65, 8, 73, 1, 74, 16, 90, 0] ++ List.replicate 468 0))

def writeInode (img : Bytes) (ino size type : Nat) (direct : List Nat) (indirect : Nat) : Bytes :=
  setInodeBitmap
    (writeAt img (74 * 512 + ino * 64)
      (packWords ([size, type] ++ direct ++ [indirect, 1]) ++ List.replicate 8 0)) ino

def allocateBlock (img : Bytes) : Except MkfsError (Nat × Bytes) :=
  match firstClear (fromBlock img 65) 90 32768 with
  | none => .error .outOfBlocks
  | some i => .ok (i, setBlockBitmap img i)

/-- `data[i:i+KFS_BLOCK_SIZE]` for the `k`-th value of `i`. -/
def chunkOf (data : List UInt8) (k : Nat) : List UInt8 := (data.drop (512 * k)).take 512

/-- The loop over the chunks of a file: the blocks it took. -/
def writeChunks (data : List UInt8) : List Nat → Bytes → Except MkfsError (List Nat × Bytes)
  | [], img => .ok ([], img)
  | k :: rest, img =>
    match allocateBlock img with
    | .error err => .error err
    | .ok (blk, img) =>
      match writeBlock img blk (chunkOf data k) with
      | .error err => .error err
      | .ok img =>
        match writeChunks data rest img with
        | .error err => .error err
        | .ok (blks, img) => .ok (blk :: blks, img)

/-- The block with the numbers of the blocks from the eleventh on, if there are
so many. -/
def writeIndirect (blocks : List Nat) (img : Bytes) : Except MkfsError (Nat × Bytes) :=
  if blocks.length > 10 then
    match allocateBlock img with
    | .error err => .error err
    | .ok (indirect, img) =>
      match writeBlock img indirect (packWords (blocks.drop 10)) with
      | .error err => .error err
      | .ok img => .ok (indirect, img)
  else .ok (0, img)

/-- Blocks, block numbers and inode of one file; the script has these lines once
for the input files and once for the root directory. -/
def storeFile (img : Bytes) (ino type : Nat) (data : List UInt8) : Except MkfsError Bytes :=
  match writeChunks data (List.range (blocksOf data.length)) img with
  | .error err => .error err
  | .ok (blocks, img) =>
    match writeIndirect blocks img with
    | .error err => .error err
    | .ok (indirect, img) =>
      .ok (writeInode img ino data.length type
        ((List.range 10).map (fun i => blocks.getD i 0)) indirect)

/-- A directory record: the name with its NUL, filled up to a multiple of four. -/
def mkfsDirent (ino : Nat) (name : List UInt8) : List UInt8 :=
  let nameBytes := name ++ [0]
  let baseLen := 4 + 2 + 1 + nameBytes.length
  let reclen := (baseLen + 3) / 4 * 4
  bytesOf ino 4 ++ bytesOf reclen 2 ++ bytesOf kfsTypeFile 1 ++ nameBytes ++
    List.replicate (reclen - baseLen) 0

/-- An input file: its basename and its bytes. -/
structure MkfsInput where
  name : List UInt8
  data : List UInt8

/-- `open` raises for a name with a NUL, the empty name, one of more than 255 bytes, and
for a directory. -/
def MkfsInput.opens (f : MkfsInput) : Bool :=
  !f.name.contains 0 && f.name.length != 0 && decide (f.name.length ≤ 255) && f.name != dot &&
    f.name != dotDot

def MkfsInput.ascii (f : MkfsInput) : Bool := f.name.all (· < 128)

/-- The loop over the input files, with the next inode number and the records of
the root directory so far. -/
def addInputs : List MkfsInput → Nat → List UInt8 → Bytes → Except MkfsError (List UInt8 × Bytes)
  | [], _, dirents, img => .ok (dirents, img)
  | f :: rest, ino, dirents, img =>
    if !f.opens then .error .cannotOpen
    else if ino ≥ 128 then .error .outOfInodes
    else
      match storeFile img ino kfsTypeFile f.data with
      | .error err => .error err
      | .ok img =>
        if !f.ascii then .error .notAscii
        else addInputs rest (ino + 1) (dirents ++ mkfsDirent ino f.name) img

/-- `main`: the bytes of the image. -/
def mkfs (inputs : List MkfsInput) : Except MkfsError Bytes :=
  if inputs.isEmpty then .error .usage
  else
    match addInputs inputs 1 [] freshImage with
    | .error err => .error err
    | .ok (dirents, img) => storeFile img 0 kfsTypeDir dirents

end Kryos.Fs
