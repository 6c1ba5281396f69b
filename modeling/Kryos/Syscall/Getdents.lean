import Kryos.Fs.VfsRun
import Kryos.Fs.DirectoryMap
import Kryos.Process.FileTable
import Kryos.Syscall.UserCopy

/-! The buffers of `sys_getdents`: the kernel buffer has the size that the caller gives,
the entry that is stored into it and copied out has its own. -/
namespace Kryos.Syscall

open Word Memory Process LittleEndian Fs ProcessTree

/-- The bytes of a `struct dirent`: three words and the name, padded to 256 bytes. -/
def direntLayout (e : Dirent) : List UInt8 :=
  bytesOf e.ino 8 ++ bytesOf e.type 8 ++ bytesOf e.reclen 8 ++
    (List.range 256).map fun i => e.name.getD i 0

theorem length_direntLayout (e : Dirent) : (direntLayout e).length = direntBytes := by
  simp only [direntLayout, List.length_append, length_bytesOf, List.length_map, List.length_range]
  rfl

/-- What a call answers and which bytes it writes: into the kernel buffer, by their
offsets, and to user addresses. There is no answer once the heap behind the buffer is
overwritten: what `kfree` makes of it depends on what lies there. -/
structure GetdentsRun where
  answer : Option (Except Int Nat)
  stores : List (UInt8 × Nat)
  copies : List (UInt8 × Nat)

/-- A call that returns before it writes anything. -/
def GetdentsRun.plain (answer : Except Int Nat) : GetdentsRun := ⟨some answer, [], []⟩

/-- The descriptor table of the process is given by the open files themselves. -/
def sysGetdents (k : Kmem) (root : Nat) (s : Volume) (fdTable : Nat → Option Handle)
    (fd dirp count : Nat) : GetdentsRun :=
  match if fd ≥ maxFds then none else fdTable fd with
  | none => .plain (.error (-Fs.ebadf))
  | some f =>
    let count := if count > 4096 then 4096 else count
    if !userRangeWritable k root dirp count then .plain (.error (-efault))
    else if !s.kmalloc count then .plain (.error (-Fs.enomem))
    else
      match (vfsGetdents s f count).1 with
      | .error err => .plain (.error err)
      | .ok none => .plain (.ok 0)
      | .ok (some e) =>
        let stores := (direntLayout e).zipIdx
        if count < direntBytes then ⟨none, stores, []⟩
        else ⟨some (.ok direntBytes), stores, stores.map fun x => (x.1, u64 (dirp + x.2))⟩

/-- No byte behind the first `n` of the kernel buffer is written, at most `n` bytes are
copied, and only to addresses of the range of `n` bytes, which has been tested. -/
structure GetdentsRun.Respects (run : GetdentsRun) (k : Kmem) (root dirp n : Nat) : Prop where
  stores : ∀ x ∈ run.stores, x.2 < n
  stored : run.stores.length ≤ n
  copied : run.copies.length ≤ n
  copies : ∀ x ∈ run.copies, (∃ i < n, x.2 = u64 (dirp + i)) ∧
    userRangeWritable k root dirp n = true

/-- The handle is on a directory that can be read as a whole, and a record starts at its
position. -/
def EntryAt (s : Volume) (f : Handle) : Prop :=
  ∃ v inode data, f.node = .kfs v ∧ v.type = vnodeTypeDir ∧ kfsReadInode s v.ino = .ok inode ∧
    inode.type = kfsTypeDir ∧ f.file.offset < inode.size ∧ s.kmalloc inode.size = true ∧
    (kfsVnodeRead s v.ino 0 inode.size).1 = .ok data ∧
    ¬((KfsDirent.ofBytes (data.drop f.file.offset)).reclen = 0 ∨
      u64 (f.file.offset + (KfsDirent.ofBytes (data.drop f.file.offset)).reclen) > inode.size)

/-- The call gets to an entry: the descriptor is open, the range is writable, the heap has
a buffer, and there is an entry at the position of the handle. -/
def GetsEntry (k : Kmem) (root : Nat) (s : Volume) (fdTable : Nat → Option Handle)
    (fd dirp count : Nat) : Prop :=
  ∃ f, fd < maxFds ∧ fdTable fd = some f ∧ userRangeWritable k root dirp (min count 4096) = true ∧
    s.kmalloc (min count 4096) = true ∧ EntryAt s f

section Bounds

variable {k : Kmem} {root : Nat} {s : Volume} {fdTable : Nat → Option Handle}
  {fd dirp count n : Nat}

theorem min_eq_ite (count : Nat) : (if count > 4096 then 4096 else count) = min count 4096 := by
  split <;> omega

theorem GetdentsRun.respects_plain (answer : Except Int Nat) :
    (GetdentsRun.plain answer).Respects k root dirp n :=
  ⟨by simp [plain], Nat.zero_le _, Nat.zero_le _, by simp [plain]⟩

/-- An entry is returned exactly if there is one. -/
theorem vfsGetdents_some_iff {f : Handle} (hCount : count ≠ 0) :
    (∃ e, (vfsGetdents s f count).1 = .ok (some e)) ↔ EntryAt s f := by
  unfold vfsGetdents EntryAt
  cases f.node with
  | tty => simp
  | blk => simp
  | kfs v =>
    simp only [kfsVnodeGetdents, if_neg hCount, Node.kfs.injEq, exists_and_left, exists_eq_left']
    split
    · simp [*]
    cases kfsReadInode s v.ino with
    | error err => simp
    | ok inode =>
      simp only [Except.ok.injEq, exists_eq_left']
      generalize kfsVnodeRead s v.ino 0 inode.size = read
      obtain ⟨_ | data, _⟩ := read
      · split_ifs <;> simp
      · simp only [Except.ok.injEq, exists_eq_left']
        split_ifs <;> simp_all

/-- A call writes nothing, or it stores a whole entry and copies it, if it fits. -/
theorem sysGetdents_cases :
    (∃ answer, sysGetdents k root s fdTable fd dirp count = .plain answer ∧
      ¬GetsEntry k root s fdTable fd dirp count) ∨
    ∃ e, sysGetdents k root s fdTable fd dirp count =
        (if min count 4096 < direntBytes then ⟨none, (direntLayout e).zipIdx, []⟩
        else ⟨some (.ok direntBytes), (direntLayout e).zipIdx,
          (direntLayout e).zipIdx.map fun x => (x.1, u64 (dirp + x.2))⟩) ∧
      GetsEntry k root s fdTable fd dirp count := by
  rw [sysGetdents]
  cases hFd : (if fd ≥ maxFds then none else fdTable fd) with
  | none =>
    refine .inl ⟨_, rfl, ?_⟩
    rintro ⟨f, hLt, hOpen, _⟩
    rw [if_neg (Nat.not_le.mpr hLt), hOpen] at hFd
    cases hFd
  | some f =>
    obtain ⟨hLt, hOpen⟩ : fd < maxFds ∧ fdTable fd = some f := by
      split at hFd
      · cases hFd
      · exact ⟨Nat.not_le.mp ‹_›, hFd⟩
    dsimp only
    rw [min_eq_ite]
    by_cases hRange : (!userRangeWritable k root dirp (min count 4096)) = true
    · refine .inl ⟨_, if_pos hRange, ?_⟩
      rintro ⟨_, _, _, hWritable, _⟩
      simp [hWritable] at hRange
    rw [if_neg hRange]
    by_cases hHeap : (!s.kmalloc (min count 4096)) = true
    · refine .inl ⟨_, if_pos hHeap, ?_⟩
      rintro ⟨_, _, _, _, hServed, _⟩
      simp [hServed] at hHeap
    rw [if_neg hHeap]
    rw [Bool.not_eq_true, Bool.not_eq_false'] at hRange hHeap
    have hSome := @vfsGetdents_some_iff s (min count 4096) f fun hZero => by
      rw [hZero] at hHeap
      cases hHeap
    have hNone (hNot : ¬EntryAt s f) : ¬GetsEntry k root s fdTable fd dirp count := by
      rintro ⟨g, _, hg, _, _, hEntry⟩
      rw [hOpen, Option.some.injEq] at hg
      exact hNot (hg ▸ hEntry)
    cases hRun : (vfsGetdents s f (min count 4096)).1 with
    | error err => exact .inl ⟨_, rfl, hNone fun hEntry => by simpa [hRun] using hSome.mpr hEntry⟩
    | ok entry =>
      cases entry with
      | none => exact .inl ⟨_, rfl, hNone fun hEntry => by simpa [hRun] using hSome.mpr hEntry⟩
      | some e => exact .inr ⟨e, rfl, f, hLt, hOpen, hRange, hHeap, hSome.mp ⟨e, hRun⟩⟩

/-- The buffers are respected exactly if the caller's buffer holds an entry or there is no
entry to return. -/
theorem sysGetdents_respects_iff (k : Kmem) (root : Nat) (s : Volume)
    (fdTable : Nat → Option Handle) (fd dirp count : Nat) :
    (sysGetdents k root s fdTable fd dirp count).Respects k root dirp (min count 4096) ↔
      direntBytes ≤ count ∨ ¬GetsEntry k root s fdTable fd dirp count := by
  rcases @sysGetdents_cases k root s fdTable fd dirp count with ⟨answer, hRun, hNone⟩ |
    ⟨e, hRun, hGets⟩
  · rw [hRun]
    exact iff_of_true (GetdentsRun.respects_plain answer) (.inr hNone)
  · have hLength := length_direntLayout e
    have hSize : direntBytes = 280 := rfl
    rw [hRun, or_iff_left (not_not.mpr hGets)]
    by_cases hShort : min count 4096 < direntBytes
    · rw [if_pos hShort]
      refine iff_of_false (fun h => ?_) (by omega)
      have hStored := h.stored
      rw [List.length_zipIdx] at hStored
      omega
    · rw [if_neg hShort]
      refine iff_of_true ⟨fun x hx => ?_, ?_, ?_, fun x hx => ?_⟩ (by omega)
      · have hIndex := List.snd_lt_of_mem_zipIdx hx
        omega
      · rw [List.length_zipIdx]
        omega
      · rw [List.length_map, List.length_zipIdx]
        omega
      · obtain ⟨y, hy, rfl⟩ := List.mem_map.mp hx
        have hIndex := List.snd_lt_of_mem_zipIdx hy
        exact ⟨⟨y.2, by omega, rfl⟩, hGets.choose_spec.2.2.1⟩

end Bounds

/-- A machine where huge pages make every address writable for the user. -/
def openMachine : Kmem where
  pmm := sixteenFrameMachine.pmm
  mem := fun _ => 0x87
  cr3 := 0

/-- The root directory, opened and not yet read. -/
def rootHandle : Handle := ⟨.kfs ⟨0, vnodeTypeDir⟩, ⟨0, 0⟩⟩

/-- The root directory with one file, and a buffer of 100 bytes: 280 bytes are stored into
the kernel buffer, the last of them 180 bytes behind its end. -/
theorem sysGetdents_overruns :
    ∃ (s : Volume) (dirs : Nat → List Record), s.WellFormed True dirs ∧
      (sysGetdents openMachine 0 s (fun _ => some rootHandle) 3 0x400000 100).stores.length = 280 ∧
      ¬(sysGetdents openMachine 0 s (fun _ => some rootHandle) 3 0x400000 100).Respects
        openMachine 0 0x400000 (min 100 4096) := by
  obtain ⟨dirs, _, hWell, _⟩ := fileVolume_wellFormed
  refine ⟨fileVolume, dirs, hWell, by decide +kernel, fun h => ?_⟩
  have hStored := h.stored
  revert hStored
  decide +kernel

end Kryos.Syscall
