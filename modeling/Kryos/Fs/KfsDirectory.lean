import Kryos.Fs.Kfs
import Mathlib.Data.List.FinRange

/-! The directory operations of KFS: a directory is a file of variable-length
records, scanned from the start by every operation. -/
namespace Kryos.Fs

open LittleEndian Word

def vnodeTypeFile : Nat := 1
def vnodeTypeDir : Nat := 2
def dtReg : Nat := 1
def dtDir : Nat := 2

/-- `sizeof(struct vnode)`. -/
def vnodeBytes : Nat := 24

/-- `sizeof(struct dirent)`. -/
def direntBytes : Nat := 280

/-- A string argument: its bytes before the terminating NUL. -/
structure CString where
  bytes : List UInt8
  nul_free : (0 : UInt8) ∉ bytes

def dot : List UInt8 := [46]
def dotDot : List UInt8 := [46, 46]

/-- A vnode of this file system: the inode in `fs_private`, and the type. -/
structure Vnode where
  ino : Nat
  type : Nat
  deriving DecidableEq, Repr

/-- `struct kfs_dirent`. The name ends before the first NUL. -/
structure KfsDirent where
  inode : Nat
  reclen : Nat
  type : Nat
  name : List UInt8
  deriving DecidableEq, Repr

/-- The record at the start of `bytes`. -/
def KfsDirent.ofBytes (bytes : List UInt8) : KfsDirent where
  inode := readLe (fun i => bytes.getD i 0) 0 4
  reclen := readLe (fun i => bytes.getD i 0) 4 2
  type := readLe (fun i => bytes.getD i 0) 6 1
  name := (bytes.drop 7).takeWhile (· != 0)

/-- A record of `reclen` bytes, zero after its name. -/
def direntRecord (inode reclen type : Nat) (name : List UInt8) : List UInt8 :=
  bytesOf inode 4 ++ bytesOf reclen 2 ++ bytesOf type 1 ++ name ++
    List.replicate (reclen - 7 - name.length) 0

/-- The vnode type for a type stored in a record. -/
def vnodeTypeOf (type : Nat) : Nat := if type = kfsTypeDir then vnodeTypeDir else vnodeTypeFile

/-- The scan that lookup, unlink and rmdir share: the offset of the first record of
that name. A record moves the scan on by at least four bytes, so `fuel = size` turns
are enough. -/
def findDirent (dirData : List UInt8) (size : Nat) (name : List UInt8) : Nat → Nat → Option Nat
  | 0, _ => none
  | fuel + 1, offset =>
    if offset < size then
      let ent := KfsDirent.ofBytes (dirData.drop offset)
      if ent.reclen = 0 ∨ ent.reclen % 4 ≠ 0 then none
      else if ent.name = name then some offset
      else findDirent dirData size name fuel (u32 (offset + ent.reclen))
    else none

def newVnode (s : Volume) (ino type : Nat) : Except Int Vnode :=
  if s.kmalloc vnodeBytes then .ok ⟨ino, type⟩ else .error (-enomem)

def kfsVnodeLookup (s : Volume) (ino : Nat) (name : CString) : Except Int Vnode :=
  match kfsReadInode s ino with
  | .error err => .error err
  | .ok inode =>
    if inode.type ≠ kfsTypeDir then .error (-enotdir)
    else if name.bytes = dot then newVnode s ino vnodeTypeDir
    else if ino = s.sb.rootInode ∧ name.bytes = dotDot then newVnode s ino vnodeTypeDir
    else if !s.kmalloc inode.size then .error (-enomem)
    else
      match kfsVnodeRead s ino 0 inode.size with
      | (.error err, _) => .error err
      | (.ok dirData, _) =>
        match findDirent dirData inode.size name.bytes inode.size 0 with
        | none => .error (-enoent)
        | some offset =>
          let ent := KfsDirent.ofBytes (dirData.drop offset)
          newVnode s ent.inode (vnodeTypeOf ent.type)

/-- `struct dirent`. -/
structure Dirent where
  ino : Nat
  type : Nat
  reclen : Nat
  name : List UInt8
  deriving DecidableEq, Repr

/-- `kfs_vnode_getdents`: the entry at the offset of the handle, or `none` at the end
of the directory, and the new offset. The C function returns `sizeof(struct dirent)`
for an entry and 0 at the end. -/
def kfsVnodeGetdents (s : Volume) (ino offset count : Nat) : Except Int (Option Dirent) × Nat :=
  if count = 0 then (.error (-einval), offset)
  else
    match kfsReadInode s ino with
    | .error err => (.error err, offset)
    | .ok inode =>
      if inode.type ≠ kfsTypeDir then (.error (-enotdir), offset)
      else if offset ≥ inode.size then (.ok none, offset)
      else if !s.kmalloc inode.size then (.error (-enomem), offset)
      else
        match kfsVnodeRead s ino 0 inode.size with
        | (.error err, _) => (.error err, offset)
        | (.ok dirData, _) =>
          let ent := KfsDirent.ofBytes (dirData.drop offset)
          if ent.reclen = 0 ∨ u64 (offset + ent.reclen) > inode.size then (.error (-eio), offset)
          else
            (.ok (some
              { ino := ent.inode
                type := if ent.type = kfsTypeDir then dtDir else dtReg
                reclen := direntBytes
                name := ent.name.take 255 }),
              u64 (offset + ent.reclen))

/-- One turn of the first loop of `kfs_free_inode_blocks`. -/
def freeDirect (state : Inode × Volume) (i : Fin 10) : Inode × Volume :=
  if state.1.direct i ≠ 0 then
    ({ state.1 with direct := Function.update state.1.direct i 0 },
      (kfsFreeBlock state.2 (state.1.direct i)).2)
  else state

/-- One turn of the second loop of `kfs_free_inode_blocks`. -/
def freeEntry (indBuf : Sector) (s : Volume) (i : Nat) : Volume :=
  if readWord indBuf i ≠ 0 then (kfsFreeBlock s (readWord indBuf i)).2 else s

/-- `kfs_free_inode_blocks`: errors are ignored. -/
def kfsFreeInodeBlocks (s : Volume) (inode : Inode) : Inode × Volume :=
  match (List.finRange 10).foldl freeDirect (inode, s) with
  | (inode, s) =>
    if inode.indirect ≠ 0 then
      let s := match s.readSectors inode.indirect with
        | .ok indBuf => (List.range 128).foldl (freeEntry indBuf) s
        | .error _ => s
      ({ inode with indirect := 0 }, (kfsFreeBlock s inode.indirect).2)
    else (inode, s)

def kfsVnodeTruncate (s : Volume) (ino : Nat) : Except Int Unit × Volume :=
  match kfsReadInode s ino with
  | .error err => (.error err, s)
  | .ok inode =>
    match kfsFreeInodeBlocks s inode with
    | (inode, s) => kfsWriteInode s ino { inode with size := 0 }

/-- One turn of the loop of `kfs_remove_dirent` that frees the blocks no longer
needed. -/
def freeDirBlock (state : Inode × Volume) (b : Nat) : Inode × Volume :=
  if h : b < 10 then freeDirect state ⟨b, h⟩
  else if state.1.indirect ≠ 0 then
    match state.2.readSectors state.1.indirect with
    | .error _ => state
    | .ok indBuf =>
      if readWord indBuf (b - 10) ≠ 0 then
        let s := (kfsFreeBlock state.2 (readWord indBuf (b - 10))).2
        (state.1, (s.writeSectors state.1.indirect (storeWords indBuf (b - 10) 1 (fun _ => 0))).2)
      else state
  else state

/-- The indirect block of a directory goes when ten blocks are enough. -/
def dropIndirect (newBlocks : Nat) (state : Inode × Volume) : Inode × Volume :=
  if newBlocks ≤ 10 ∧ state.1.indirect ≠ 0 then
    ({ state.1 with indirect := 0 }, (kfsFreeBlock state.2 state.1.indirect).2)
  else state

/-- The block that the last loop of `kfs_remove_dirent` writes. An unread indirect
block counts as zeros. -/
def remainingBlock (s : Volume) (dirInode : Inode) (b : Nat) : Nat :=
  if h : b < 10 then dirInode.direct ⟨b, h⟩
  else
    match s.readSectors dirInode.indirect with
    | .ok indBuf => readWord indBuf (b - 10)
    | .error _ => 0

/-- One turn of the loop of `kfs_remove_dirent` that writes the remaining blocks, each
padded with zeros. -/
def rewriteDirBlock (dirInode : Inode) (dirData : List UInt8) (newSize : Nat) (s : Volume)
    (b : Nat) : Volume :=
  (s.writeSectors (remainingBlock s dirInode b)
    (copyInto (fun _ => 0) 0 ((dirData.drop (512 * b)).take (min 512 (newSize - 512 * b))))).2

/-- The blocks a file of that size takes. -/
def blocksOf (size : Nat) : Nat := (size + 511) / 512

/-- The part of `kfs_remove_dirent` after the `memmove`: the directory shrinks to the
first `newSize` bytes of `dirData`. -/
def shrinkDir (s : Volume) (dirIno : Nat) (dirInode : Inode) (dirData : List UInt8)
    (newSize oldBlocks newBlocks : Nat) : Except Int Unit × Volume :=
  let state := dropIndirect newBlocks
    ((List.range' newBlocks (oldBlocks - newBlocks)).foldl freeDirBlock (dirInode, s))
  kfsWriteInode ((List.range newBlocks).foldl (rewriteDirBlock state.1 dirData newSize) state.2)
    dirIno { state.1 with size := newSize }

/-- `kfs_remove_dirent`: closes the gap left by the record at `targetOffset`. -/
def kfsRemoveDirent (s : Volume) (dirIno : Nat) (dirInode : Inode) (targetOffset reclen : Nat)
    (dirData : List UInt8) : Except Int Unit × Volume :=
  let remaining := sub32 dirInode.size (targetOffset + reclen)
  let newSize := sub32 dirInode.size reclen
  shrinkDir s dirIno dirInode
    (dirData.take targetOffset ++ (dirData.drop (targetOffset + reclen)).take remaining ++
      dirData.drop (targetOffset + remaining))
    newSize (u32 (dirInode.size + 511) / 512) (u32 (newSize + 511) / 512)

/-- What the common first half of unlink and rmdir finds. -/
structure Target where
  dirInode : Inode
  dirData : List UInt8
  offset : Nat
  ent : KfsDirent
  inode : Inode

/-- The common first half of `kfs_vnode_unlink` and `kfs_vnode_rmdir`. -/
def findTarget (s : Volume) (dirIno : Nat) (name : CString) : Except Int Target :=
  if name.bytes = dot ∨ name.bytes = dotDot then .error (-einval)
  else
    match kfsReadInode s dirIno with
    | .error err => .error err
    | .ok dirInode =>
      if dirInode.type ≠ kfsTypeDir then .error (-enotdir)
      else if dirInode.size = 0 then .error (-enoent)
      else if !s.kmalloc dirInode.size then .error (-enomem)
      else
        match kfsVnodeRead s dirIno 0 dirInode.size with
        | (.error err, _) => .error err
        | (.ok dirData, _) =>
          match findDirent dirData dirInode.size name.bytes dirInode.size 0 with
          | none => .error (-enoent)
          | some offset =>
            let ent := KfsDirent.ofBytes (dirData.drop offset)
            match kfsReadInode s ent.inode with
            | .error err => .error err
            | .ok inode => .ok ⟨dirInode, dirData, offset, ent, inode⟩

/-- The common second half: the inode and its blocks go first, then the record. -/
def removeTarget (s : Volume) (dirIno : Nat) (t : Target) : Except Int Unit × Volume :=
  match kfsFreeInodeBlocks s t.inode with
  | (inode, s) =>
    let s := (kfsWriteInode s t.ent.inode { inode with size := 0, type := 0, linkCount := 0 }).2
    let s := (kfsFreeInode s t.ent.inode).2
    kfsRemoveDirent s dirIno t.dirInode t.offset t.ent.reclen t.dirData

def kfsVnodeUnlink (s : Volume) (dirIno : Nat) (name : CString) : Except Int Unit × Volume :=
  match findTarget s dirIno name with
  | .error err => (.error err, s)
  | .ok t => if t.inode.type = kfsTypeDir then (.error (-eisdir), s) else removeTarget s dirIno t

/-- The scan of rmdir over the directory to remove: whether it meets a record other
than the two dots. -/
def hasEntry (subData : List UInt8) (size : Nat) : Nat → Nat → Bool
  | 0, _ => false
  | fuel + 1, subOff =>
    if subOff < size then
      let e := KfsDirent.ofBytes (subData.drop subOff)
      if e.reclen = 0 ∨ e.reclen % 4 ≠ 0 then false
      else if e.name ≠ dot ∧ e.name ≠ dotDot then true
      else hasEntry subData size fuel (u32 (subOff + e.reclen))
    else false

/-- The emptiness check of `kfs_vnode_rmdir`. -/
def checkEmpty (s : Volume) (t : Target) : Except Int Unit :=
  if t.inode.size > 0 then
    if !s.kmalloc t.inode.size then .error (-enomem)
    else
      match kfsVnodeRead s t.ent.inode 0 t.inode.size with
      | (.error err, _) => .error err
      | (.ok subData, _) =>
        if hasEntry subData t.inode.size t.inode.size 0 then .error (-enotempty) else .ok ()
  else .ok ()

def kfsVnodeRmdir (s : Volume) (dirIno : Nat) (name : CString) : Except Int Unit × Volume :=
  match findTarget s dirIno name with
  | .error err => (.error err, s)
  | .ok t =>
    if t.inode.type ≠ kfsTypeDir then (.error (-enotdir), s)
    else
      match checkEmpty s t with
      | .error err => (.error err, s)
      | .ok _ => removeTarget s dirIno t

/-- The block of a new directory. -/
def dotsBlock (newIno dirIno : Nat) : List UInt8 :=
  direntRecord newIno 12 kfsTypeDir dot ++ direntRecord dirIno 12 kfsTypeDir dotDot

/-- The part of `kfs_vnode_create` for a new directory: its block with the two dots. -/
def populateDir (s : Volume) (dirIno newIno : Nat) : Except Int Unit × Volume :=
  match kfsAllocBlock s with
  | (.error err, s) => (.error err, (kfsFreeInode s newIno).2)
  | (.ok dirBlk, s) =>
    match s.writeSectors dirBlk (copyInto (fun _ => 0) 0 (dotsBlock newIno dirIno)) with
    | (.error err, s) => (.error err, (kfsFreeInode (kfsFreeBlock s dirBlk).2 newIno).2)
    | (.ok _, s) =>
      match kfsWriteInode s newIno
          { Inode.zero with
            type := kfsTypeDir, size := 24, linkCount := 2
            direct := Function.update Inode.zero.direct 0 dirBlk } with
      | (.error err, s) => (.error err, (kfsFreeInode (kfsFreeBlock s dirBlk).2 newIno).2)
      | (.ok _, s) => (.ok (), s)

/-- What `kfs_vnode_create` takes back when the record cannot be written. -/
def undoCreate (s : Volume) (newIno kfsType : Nat) : Volume :=
  let s :=
    if kfsType = kfsTypeDir then
      match kfsReadInode s newIno with
      | .ok inTmp => if inTmp.direct 0 ≠ 0 then (kfsFreeBlock s (inTmp.direct 0)).2 else s
      | .error _ => s
    else s
  (kfsFreeInode s newIno).2

/-- The length of a record: inode, length, type, name and NUL, rounded up to four. -/
def reclenOf (nameLen : Nat) : Nat := alignUp (4 + 2 + 1 + nameLen + 1) 4

/-- The last part of `kfs_vnode_create`: appends the record to the directory. The
number of bytes written is not looked at. -/
def appendDirent (s : Volume) (dirIno : Nat) (dirInode : Inode) (newIno kfsType : Nat)
    (name : CString) : Except Int Vnode × Volume :=
  let reclen := reclenOf name.bytes.length
  if !s.kmalloc reclen then (.error (-enomem), undoCreate s newIno kfsType)
  else
    let dirInode := match kfsReadInode s dirIno with
      | .ok inode => inode
      | .error _ => dirInode
    match kfsVnodeWrite s dirIno ⟨dirInode.size, oWronly⟩
        (direntRecord newIno reclen kfsType name.bytes) with
    | (.error err, _, s) => (.error err, undoCreate s newIno kfsType)
    | (.ok _, _, s) => (newVnode s newIno (vnodeTypeOf kfsType), s)

/-- The part of `kfs_vnode_create` for a name that lookup did not find. -/
def createEntry (s : Volume) (dirIno : Nat) (dirInode : Inode) (name : CString) (type : Nat) :
    Except Int Vnode × Volume :=
  let kfsType := if type = vnodeTypeDir then kfsTypeDir else kfsTypeFile
  match kfsAllocInode s kfsType with
  | (.error err, s) => (.error err, s)
  | (.ok newIno, s) =>
    match if kfsType = kfsTypeDir then populateDir s dirIno newIno else (.ok (), s) with
    | (.error err, s) => (.error err, s)
    | (.ok _, s) => appendDirent s dirIno dirInode newIno kfsType name

def kfsVnodeCreate (s : Volume) (dirIno : Nat) (name : CString) (type : Nat) :
    Except Int Vnode × Volume :=
  match kfsReadInode s dirIno with
  | .error err => (.error err, s)
  | .ok dirInode =>
    if dirInode.type ≠ kfsTypeDir then (.error (-enotdir), s)
    else if name.bytes.length = 0 ∨ name.bytes.length > 255 then (.error (-einval), s)
    else if name.bytes = dot ∨ name.bytes = dotDot then (.error (-eexist), s)
    else
      match kfsVnodeLookup s dirIno name with
      | .ok existing => if type = vnodeTypeDir then (.error (-eexist), s) else (.ok existing, s)
      -- any error of the lookup counts as absence
      | .error _ => createEntry s dirIno dirInode name type

end Kryos.Fs
