import Kryos.Fs.KfsDirectory
import Mathlib.Data.List.DropRight

/-! The virtual file system over KFS, the terminals and the raw disk: paths, handles,
and the calls that a user can make. -/
namespace Kryos.Fs

open Function Word

def ebadf : Int := 9
def eacces : Int := 13
def enametoolong : Int := 36

def oCreat : Nat := 0x40
def oExcl : Nat := 0x80
def oTrunc : Nat := 0x200

/-- `sizeof(struct file)`. -/
def fileBytes : Nat := 32

def slash : UInt8 := 47

/-- The text `dev/tty`. -/
def devTty : List UInt8 := [100, 101, 118, 47, 116, 116, 121]

/-- The text `dev/hda`. -/
def devHda : List UInt8 := [100, 101, 118, 47, 104, 100, 97]

/-- The text `dev`. -/
def devName : List UInt8 := [100, 101, 118]

/-- A vnode by its operations: those of KFS, of the terminals, or of the block device. -/
inductive Node where
  | kfs (v : Vnode)
  | tty (number : Nat)
  | blk
  deriving DecidableEq, Repr

/-- `vn->type`: devices count as files. -/
def Node.type : Node → Nat
  | .kfs v => v.type
  | .tty _ => vnodeTypeFile
  | .blk => vnodeTypeFile

/-- The string in a buffer: what stands before the first NUL. -/
def CString.ofBytes (bytes : List UInt8) : CString where
  bytes := bytes.takeWhile (· != 0)
  nul_free := fun h => by simpa using List.mem_takeWhile_imp h

def rootVnode (s : Volume) : Vnode := ⟨s.sb.rootInode, vnodeTypeDir⟩

/-- The device that a path names, after its leading slashes. -/
def deviceNode (s : Volume) (path : List UInt8) : Option Node :=
  if path.take 7 = devTty ∧ path.length = 8 ∧ 48 ≤ path.getD 7 0 ∧ path.getD 7 0 ≤ 51 then
    some (.tty ((path.getD 7 0).toNat - 48))
  else if path = devHda ∧ s.kmalloc vnodeBytes then some .blk
  else none

/-- The loop of `vfs_resolve_path` over the components. A turn consumes at least one
byte, so `fuel = length` turns are enough. -/
def resolveLoop (s : Volume) : Nat → Vnode → List UInt8 → Except Int Vnode
  | 0, curr, _ => .ok curr
  | fuel + 1, curr, p =>
    if p = [] then .ok curr
    else
      let comp := p.takeWhile (· != slash)
      let rest := (p.dropWhile (· != slash)).dropWhile (· == slash)
      if comp.length > 255 then .error (-enametoolong)
      else if comp.length = 0 ∨ comp = dot then resolveLoop s fuel curr rest
      else if curr.type ≠ vnodeTypeDir then .error (-enotdir)
      else
        match kfsVnodeLookup s curr.ino (.ofBytes comp) with
        | .error err => .error err
        | .ok next => resolveLoop s fuel next rest

def vfsResolvePath (s : Volume) (path : CString) : Except Int Node :=
  let p := path.bytes.dropWhile (· == slash)
  if p = [] then .ok (.kfs (rootVnode s))
  else
    match deviceNode s p with
    | some node => .ok node
    | none =>
      match resolveLoop s p.length (rootVnode s) p with
      | .error err => .error err
      | .ok curr =>
        if path.bytes.getLast? = some slash ∧ curr.type ≠ vnodeTypeDir then .error (-enotdir)
        else .ok (.kfs curr)

/-- `vfs_resolve_parent`: the directory and the last component. -/
def vfsResolveParent (s : Volume) (path : CString) : Except Int (Vnode × CString) :=
  let p := path.bytes.dropWhile (· == slash)
  if p = [] then .error (-einval)
  else
    let text := p.rdropWhile (· == slash)
    let name := text.rtakeWhile (· != slash)
    let front := text.rdropWhile (· != slash)
    if front = [] then
      if text.length ≥ 256 then .error (-enametoolong) else .ok (rootVnode s, .ofBytes text)
    else if name.length = 0 ∨ name.length ≥ 256 then .error (-einval)
    else
      let dir := front.rdropWhile (· == slash)
      if dir = [] then .ok (rootVnode s, .ofBytes name)
      else if dir.length ≥ 256 then .error (-enametoolong)
      else
        match vfsResolvePath s (.ofBytes dir) with
        | .error err => .error err
        | .ok (.kfs parent) =>
          if parent.type ≠ vnodeTypeDir then .error (-enotdir) else .ok (parent, .ofBytes name)
        | .ok _ => .error (-enotdir)

/-- `struct file`. -/
structure Handle where
  node : Node
  file : OpenFile
  deriving DecidableEq, Repr

/-- The last part of `vfs_open`: the new handle. -/
def newHandle (s : Volume) (node : Node) (flags : Nat) : Except Int Handle :=
  if node.type ≠ vnodeTypeFile ∧ node.type ≠ vnodeTypeDir then .error (-einval)
  else if s.kmalloc fileBytes then .ok ⟨node, ⟨0, flags⟩⟩
  else .error (-enomem)

/-- The part of `vfs_open` for a path that does not exist. -/
def openCreate (s : Volume) (path : CString) (flags : Nat) : Except Int Handle × Volume :=
  match vfsResolveParent s path with
  | .error err => (.error err, s)
  | .ok (parent, name) =>
    if name.bytes = dot ∨ name.bytes = dotDot then (.error (-einval), s)
    else if (devName ++ [slash]).isPrefixOf name.bytes ∨ name.bytes = devName then
      (.error (-eacces), s)
    else
      match kfsVnodeCreate s parent.ino name vnodeTypeFile with
      | (.error err, s) => (.error err, s)
      | (.ok v, s) => (newHandle s (.kfs v) flags, s)

/-- `vn->ops->truncate`, which only KFS has. -/
def Node.truncate (s : Volume) : Node → Except Int Unit × Volume
  | .kfs v => kfsVnodeTruncate s v.ino
  | .tty _ => (.ok (), s)
  | .blk => (.ok (), s)

/-- The part of `vfs_open` for a path that exists. The type of the vnode is not looked
at before it is truncated. -/
def openExisting (s : Volume) (node : Node) (flags : Nat) : Except Int Handle × Volume :=
  if flags &&& (oCreat ||| oExcl) = oCreat ||| oExcl then (.error (-eexist), s)
  else if flags &&& oTrunc ≠ 0 ∧ flags &&& (oWronly ||| oRdwr) ≠ 0 then
    match node.truncate s with
    | (.error err, s) => (.error err, s)
    | (.ok _, s) => (newHandle s node flags, s)
  else (newHandle s node flags, s)

def vfsOpen (s : Volume) (path : CString) (flags : Nat) : Except Int Handle × Volume :=
  match vfsResolvePath s path with
  | .ok node => openExisting s node flags
  | .error err =>
    if err = -enoent ∧ flags &&& oCreat ≠ 0 then openCreate s path flags else (.error err, s)

def vfsMkdir (s : Volume) (path : CString) : Except Int Unit × Volume :=
  match vfsResolveParent s path with
  | .error err => (.error err, s)
  | .ok (parent, name) =>
    if name.bytes = dot ∨ name.bytes = dotDot then (.error (-einval), s)
    else
      match kfsVnodeLookup s parent.ino name with
      | .ok _ => (.error (-eexist), s)
      | .error _ =>
        match kfsVnodeCreate s parent.ino name vnodeTypeDir with
        | (.error err, s) => (.error err, s)
        | (.ok _, s) => (.ok (), s)

def vfsUnlink (s : Volume) (path : CString) : Except Int Unit × Volume :=
  match vfsResolveParent s path with
  | .error err => (.error err, s)
  | .ok (parent, name) =>
    if name.bytes = dot ∨ name.bytes = dotDot then (.error (-einval), s)
    else kfsVnodeUnlink s parent.ino name

def vfsRmdir (s : Volume) (path : CString) : Except Int Unit × Volume :=
  match vfsResolveParent s path with
  | .error err => (.error err, s)
  | .ok (parent, name) =>
    if name.bytes = dot ∨ name.bytes = dotDot then (.error (-einval), s)
    else kfsVnodeRmdir s parent.ino name

/-- The loop of `blk_vnode_read`: the bytes and the new offset. -/
def blkVnodeRead (s : Volume) (sectorCount : Nat) : Nat → Nat → Nat → List UInt8 × Nat
  | 0, offset, _ => ([], offset)
  | fuel + 1, offset, count =>
    if count > 0 ∧ offset / 512 < sectorCount then
      match s.readSectors (offset / 512) with
      | .error _ => ([], offset)
      | .ok bounce =>
        let toCopy := min (512 - offset % 512) count
        let rest := blkVnodeRead s sectorCount fuel (u64 (offset + toCopy)) (count - toCopy)
        (slice bounce (offset % 512) toCopy ++ rest.1, rest.2)
    else ([], offset)

/-- The loop of `blk_vnode_write`: the number of bytes written and the new offset. The
flags of the handle are not looked at. -/
def blkVnodeWrite (sectorCount : Nat) : Nat → Volume → Nat → Nat → List UInt8 → Nat × Nat × Volume
  | 0, s, total, offset, _ => (total, offset, s)
  | fuel + 1, s, total, offset, buf =>
    if buf.length > 0 ∧ offset / 512 < sectorCount then
      match if offset % 512 > 0 ∨ buf.length < 512 then s.readSectors (offset / 512)
          else .ok (fun _ => 0) with
      | .error _ => (total, offset, s)
      | .ok bounce =>
        let toCopy := min (512 - offset % 512) buf.length
        match s.writeSectors (offset / 512) (copyInto bounce (offset % 512) (buf.take toCopy)) with
        | (.error _, s) => (total, offset, s)
        | (.ok _, s) =>
          blkVnodeWrite sectorCount fuel s (total + toCopy) (u64 (offset + toCopy))
            (buf.drop toCopy)
    else (total, offset, s)

/-- `vfs_read`: the bytes and the new offset. A terminal delivers what was `typed`. -/
def vfsRead (s : Volume) (sectorCount : Nat) (f : Handle) (count : Nat) (typed : List UInt8) :
    Except Int (List UInt8) × Nat :=
  match f.node with
  | .kfs v => kfsVnodeRead s v.ino f.file.offset count
  | .tty _ => (.ok (typed.take count), f.file.offset)
  | .blk =>
    let result := blkVnodeRead s sectorCount count f.file.offset count
    (.ok result.1, result.2)

/-- `vfs_write`: the number of bytes written, the new offset and the volume. -/
def vfsWrite (s : Volume) (sectorCount : Nat) (f : Handle) (data : List UInt8) :
    Except Int Nat × Nat × Volume :=
  match f.node with
  | .kfs v => kfsVnodeWrite s v.ino f.file data
  | .tty _ => (.ok data.length, f.file.offset, s)
  | .blk =>
    let result := blkVnodeWrite sectorCount data.length s 0 f.file.offset data
    (.ok result.1, result.2)

/-- `vfs_getdents`: the entry and the new offset. -/
def vfsGetdents (s : Volume) (f : Handle) (count : Nat) : Except Int (Option Dirent) × Nat :=
  match f.node with
  | .kfs v =>
    if v.type ≠ vnodeTypeDir then (.error (-enotdir), f.file.offset)
    else kfsVnodeGetdents s v.ino f.file.offset count
  | _ => (.error (-enotdir), f.file.offset)

/-- The volume, the size of the disk, and the open files. A handle is named by a number
that is not used again. -/
structure Vfs where
  volume : Volume
  sectorCount : Nat
  handles : Nat → Option Handle
  next : Nat

inductive VfsCall where
  | open (path : CString) (flags : Nat)
  | read (file count : Nat) (typed : List UInt8)
  | write (file : Nat) (data : List UInt8)
  | getdents (file count : Nat)
  | close (file : Nat)
  | mkdir (path : CString)
  | unlink (path : CString)
  | rmdir (path : CString)

def Handle.moveTo (f : Handle) (offset : Nat) : Handle := { f with file.offset := offset }

/-- The state after a call. A call on a file that is not open changes nothing. -/
def vfsStep (x : Vfs) : VfsCall → Vfs
  | .open path flags =>
    match vfsOpen x.volume path flags with
    | (.ok f, s) =>
      { x with volume := s, handles := update x.handles x.next (some f), next := x.next + 1 }
    | (.error _, s) => { x with volume := s }
  | .read file count typed =>
    match x.handles file with
    | none => x
    | some f =>
      { x with
        handles := update x.handles file
          (some (f.moveTo (vfsRead x.volume x.sectorCount f count typed).2)) }
  | .write file data =>
    match x.handles file with
    | none => x
    | some f =>
      { x with
        volume := (vfsWrite x.volume x.sectorCount f data).2.2
        handles := update x.handles file
          (some (f.moveTo (vfsWrite x.volume x.sectorCount f data).2.1)) }
  | .getdents file count =>
    match x.handles file with
    | none => x
    | some f =>
      { x with
        handles := update x.handles file
          (some (f.moveTo (vfsGetdents x.volume f count).2)) }
  | .close file => { x with handles := update x.handles file none }
  | .mkdir path => { x with volume := (vfsMkdir x.volume path).2 }
  | .unlink path => { x with volume := (vfsUnlink x.volume path).2 }
  | .rmdir path => { x with volume := (vfsRmdir x.volume path).2 }

end Kryos.Fs
