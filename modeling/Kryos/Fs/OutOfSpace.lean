import Kryos.Fs.AnyWrite
import Kryos.Fs.KfsRun

/-! Writes and creations on a volume of any size with any number of free blocks. On the
device that `mkfs_kfs.py` assumes, the inodes cannot use up the blocks; on a smaller one
they can. -/
namespace Kryos.Fs

open Bitmap Function Word

variable {small size ind n count free : Nat} {full : Prop}

variable {total : Nat} {s : Volume} {dirs : Nat → List Record}

section Resize

/-- The volume on a device of `small` blocks. -/
def Volume.resize (s : Volume) (small : Nat) : Volume :=
  { s with
    mount := { s.mount with sb := superblockOf small }
    disk := update s.disk 64 (superblockSectorOf small) }

theorem Volume.resize_disk {c : Nat} (hc : c ≠ 64) : (s.resize small).disk c = s.disk c :=
  update_of_ne hc _ _

theorem Volume.MountedAt.resize (h : s.MountedAt total) (hSmall : small ≤ total) :
    (s.resize small).MountedAt small where
  superblock := rfl
  total_le := hSmall.trans h.total_le
  superblockOnDisk := fun i _ => by simp [Volume.resize]
  blockCache := fun i hi => by
    rw [Volume.resize_disk (by omega)]
    exact h.blockCache i hi
  inodeCache := fun i hi => by
    rw [Volume.resize_disk (by decide)]
    exact h.inodeCache i hi
  metadata := h.metadata

/-- A device may end anywhere above the blocks that are held. -/
theorem Volume.ConsistentAt.resize (h : s.ConsistentAt total full) (hSmall : small ≤ total)
    (hHeld : ∀ x, s.slots s.table x ≠ 0 → s.slots s.table x < small) :
    (s.resize small).ConsistentAt small full ∧ (s.resize small).files = s.files := by
  have hTable : (s.resize small).table = s.table :=
    Volume.table_congr (fun c hLo _ => Volume.resize_disk (by omega))
  have hLive : (s.resize small).live = s.live := rfl
  have hKept : ∀ i, s.live i = true →
      slotBlock (s.resize small).disk (s.table i) = slotBlock s.disk (s.table i) ∧
        Sized (s.resize small).disk (s.table i) ∧
          fileContent (s.resize small).disk (s.table i) = fileContent s.disk (s.table i) := by
    intro i hAlive
    apply (h.sized i hAlive).congr
    intro k hk
    have hRange := (h.open hAlive).range hk
    exact Volume.resize_disk (by omega)
  have hSlots : (s.resize small).slots (s.resize small).table = s.slots s.table := by
    funext x
    simp only [Volume.slots, hTable, hLive]
    split
    · rename_i hAlive
      rw [(hKept x.1 hAlive).1]
    · rfl
  refine ⟨⟨h.mounted.resize hSmall, ⟨?_, ?_, ?_⟩, ?_, ?_⟩, ?_⟩
  · rw [hSlots]
    exact fun x hx => ⟨(h.exclusive.range x hx).1, hHeld x hx⟩
  · rw [hSlots]
    exact h.exclusive.used
  · rw [hSlots]
    exact h.exclusive.unique
  · intro i hAlive
    rw [hTable]
    exact (hKept i hAlive).2.1
  · rw [hSlots]
    exact fun hFull b hLo hHi hUsed => h.covered hFull b hLo (hHi.trans_le hSmall) hUsed
  · funext i
    simp only [Volume.files, hTable, hLive]
    split
    · rename_i hAlive
      rw [(hKept i hAlive).2.2]
    · rfl

end Resize

section SmallDevice

/-- A device of `total` blocks with the root directory and an empty file. -/
def smallVolume (total : Nat) : Volume := (mkfsVolume.resize total).takeInode 1 emptyFile

theorem smallVolume_spec (hHi : total ≤ 32768) :
    (smallVolume total).ConsistentAt total True ∧
      (smallVolume total).files = update mkfsVolume.files 1 (some ⟨kfsTypeFile, []⟩) := by
  obtain ⟨hSmall, hSame⟩ := mkfsVolume_consistent.resize hHi
    (fun x hx => absurd (mkfsVolume_slots x) hx)
  have hFree : isSet (mkfsVolume.resize total).inodeBitmap 1 = false :=
    (by decide : isSet mkfsInodeBitmap 1 = false)
  obtain ⟨hTaken, hFiles, _⟩ := hSmall.takeInode (by decide : 1 < 128) hFree emptyFile_fits rfl
    (fun _ => rfl) rfl
  rw [hSame] at hFiles
  exact ⟨hTaken, hFiles⟩

theorem smallVolume_free (total : Nat) : (smallVolume total).freeBelow total = total - 90 := by
  have hBits : clearBits (smallVolume total).blockBitmap total = Finset.Ico 90 total := by
    ext b
    change b ∈ clearBits mkfsBlockBitmap total ↔ _
    rw [mem_clearBits, Finset.mem_Ico, mkfsBlockBitmap, isSet_mark, decide_eq_false_iff_not]
    omega
  rw [Volume.freeBelow, hBits, Nat.card_Ico]

/-- The same with the record of the file in the root directory. -/
theorem exists_smallVolume (hLo : 91 ≤ total) (hHi : total ≤ 32768) {name : CString}
    (hValid : name.Valid) :
    ∃ (s : Volume) (dirs : Nat → List Record), s.WellFormedAt total True dirs ∧ s.mount.Reliable ∧
      s.mount.HeapServes ∧ dirs 0 = [newRecord 1 vnodeTypeFile name hValid (by decide)] ∧
      s.files = update (update mkfsVolume.files 1 (some ⟨kfsTypeFile, []⟩)) 0
        (some ⟨kfsTypeDir, encodeDir (dirs 0)⟩) ∧
      s.freeBelow total + 91 = total := by
  obtain ⟨hConsistent, hFiles⟩ := smallVolume_spec hHi
  have hReliable : (smallVolume total).mount.Reliable := ⟨fun _ => rfl, fun _ => rfl⟩
  have hHeap : (smallVolume total).mount.HeapServes := fun _ _ => rfl
  have hRoot : (smallVolume total).files 0 = some ⟨kfsTypeDir, []⟩ := by
    rw [hFiles, update_of_ne (by decide), mkfsVolume_files]
    rfl
  have hLive := (Volume.files_eq_some.mp hRoot).1
  obtain ⟨dirs, hDirs, hTree⟩ := @TreeOk.addFile _ _ mkfsVolume_tree 1
    (newRecord 1 vnodeTypeFile name hValid (by decide)) (by rw [kindOf, mkfsVolume_files]; rfl)
    (by rw [mkfsVolume_files]; rfl) (by decide) (by decide) (newRecord_isEntry _ hValid _)
    (by rw [newRecord_ent]) (by rw [newRecord_ent]; rfl) (fun _ hq => by cases hq)
  rw [List.nil_append] at hDirs
  rw [← hDirs] at hTree
  have hLength : (encodeDir (dirs 0)).length = reclenOf name.bytes.length := by
    rw [hDirs]
    simp only [encodeDir_cons, encodeDir_nil, List.append_nil, Record.length_bytes, newRecord_ent]
  have hReclen := reclenOf_eq hValid.length_le
  have hName := hValid.length_le
  have hClear : isSet (smallVolume total).blockBitmap 90 = false :=
    (by decide : isSet mkfsBlockBitmap 90 = false)
  obtain ⟨hDone, hNew, _⟩ := hConsistent.putFirstBlock hLive (Volume.size_of_files hRoot)
    (le_refl 90) (by omega) hClear (rfl : Inode.size { rootInode with
      size := (encodeDir (dirs 0)).length, direct := update (fun _ => 0) 0 90 } = _) (by omega)
    (by omega) rfl rfl
      ((Inode.Fits.fresh (by omega) (by decide) (by decide)).setDirect 0 (by decide))
  rw [hFiles] at hNew
  refine ⟨_, dirs, ⟨hDone, by rw [hNew]; exact hTree⟩, hReliable, hHeap, hDirs, hNew, ?_⟩
  have hTaken := Volume.freeBelow_takeBlock (by omega : 90 < total) hClear
  rw [smallVolume_free] at hTaken
  change ((smallVolume total).takeBlock 90).freeBelow total + 91 = total
  omega

theorem letter_a_valid : (letter 97 (by decide)).Valid := letter_valid (by decide) (by decide)

end SmallDevice

section Write

variable {ino : Nat}

/-- The volume is well-formed after the write, and it is as before if there was no space. -/
structure WriteKeeps (total : Nat) (s : Volume) (result : Except Int Nat × Nat × Volume) :
    Prop where
  wellFormed : ∃ dirs, result.2.2.WellFormedAt total True dirs
  unchanged : result.1 = .error (-enospc) → result.2.2 = s

/-- A write from `start` on gets to the eleventh block of the file when one block is free. -/
def TearsFile (total : Nat) (s : Volume) (size start count : Nat) : Prop :=
  blocksOf size ≤ 10 ∧ 10 * 512 < start + count ∧ s.freeBelow total + blocksOf size = 11

theorem blocksOf_le_ten : blocksOf size ≤ 10 ↔ size ≤ 10 * 512 := by
  unfold blocksOf
  omega

theorem Torn.ne (h : Torn total s ind) : s.takeBlock ind ≠ s := by
  intro hEq
  have hSet : isSet (s.takeBlock ind).blockBitmap ind = true := by simp
  rw [hEq, h.clear] at hSet
  exact Bool.false_ne_true hSet

theorem not_consistent_of_indirect {s : Volume} (hLive : s.live ino = true)
    (hSize : (s.table ino).size = 10 * 512) (hIndirect : (s.table ino).indirect ≠ 0) :
    ¬s.ConsistentAt total full := by
  intro h
  have hNeed := ((h.sized ino hLive).shape 138).mp hIndirect
  unfold needed blocksOf at hNeed
  omega

/-- A write that ends otherwise has the blocks it needs. -/
theorem not_tearsFile_of_wrote {s' : Volume} {start : Nat}
    (hFree : s'.freeBelow total + blockCost (blocksOf (max size (start + n))) =
      s.freeBelow total + blockCost (blocksOf size))
    (hEnd : n = count ∨ s'.freeBelow total = 0 ∧ start + n = 512 * blocksOf (max size (start + n)) ∨
      start + n = 138 * 512) : ¬TearsFile total s size start count := by
  rintro ⟨hFew, hReach, hCount⟩
  have hCost : blockCost (blocksOf size) = blocksOf size := by
    rw [blockCost, if_neg (Nat.not_lt.mpr hFew), Nat.add_zero]
  -- no number of blocks costs eleven
  have hMany : ∀ b, blockCost b = if 10 < b then b + 1 else b := fun b => by
    unfold blockCost
    split_ifs <;> rfl
  rw [hMany] at hFree
  rcases hEnd with rfl | ⟨hNone, _⟩ | hLast
  · have hEleven : 10 < blocksOf (max size (start + n)) := by
      unfold blocksOf
      omega
    rw [if_pos hEleven] at hFree
    omega
  · split_ifs at hFree <;> omega
  · have hAll : 10 < blocksOf (max size (start + n)) := by
      unfold blocksOf
      omega
    rw [if_pos hAll] at hFree
    omega

variable {file : File}

/-- A write that gets to the eleventh block with one free block keeps a block for nothing:
either the file has it, or nothing does. -/
theorem not_writeKeeps_of_tearsFile (h : s.WellFormedAt total True dirs)
    (hReliable : s.mount.Reliable)
    (hFile : s.files ino = some file) {f : OpenFile} {data : List UInt8}
    (hStart : writeStart f file.content.length ≤ file.content.length)
    (hWritable : f.flags &&& (oWronly ||| oRdwr) ≠ 0)
    (hTears : TearsFile total s file.content.length
      (writeStart f file.content.length) data.length) :
    ¬WriteKeeps total s (kfsVnodeWrite s ino f data) := by
  obtain ⟨hLive, _, _⟩ := Volume.files_eq_some.mp hFile
  have hSize := Volume.size_of_files hFile
  have hData : data.length ≠ 0 := by
    have hFew := blocksOf_le_ten.mp hTears.1
    have hReach := hTears.2.1
    omega
  rw [← hSize] at hStart hTears
  have hOutcome := kfsVnodeWrite_outcome h.consistent hReliable hLive hWritable hData
    (rfl : writeStart f _ = _) hStart
  generalize kfsVnodeWrite s ino f data = result at hOutcome
  intro hKeeps
  cases hOutcome with
  | wrote _ _ hEnd _ _ _ hFree _ => exact not_tearsFile_of_wrote hFree hEnd hTears
  | refused hErr =>
    obtain ⟨hFew, _, hCount⟩ := hTears
    have hFew' := blocksOf_le_ten.mp hFew
    rcases hErr with ⟨_, hNone, _⟩ | ⟨_, hLast⟩
    · omega
    · omega
  | leaked hTorn _ _ => exact hTorn.ne (hKeeps.unchanged rfl)
  | torn _ _ _ _ _ hLive' hNewSize hIndirect =>
    obtain ⟨_, hWell⟩ := hKeeps.wellFormed
    exact not_consistent_of_indirect hLive' hNewSize hIndirect hWell.consistent

/-- A write to a regular file from within it keeps the volume well-formed, and changes
nothing when there is no space, unless it gets to the eleventh block of the file when one
block is free. -/
theorem kfsVnodeWrite_keeps_iff (h : s.WellFormedAt total True dirs) (hReliable : s.mount.Reliable)
    (hFile : s.files ino = some file) (hType : file.type = kfsTypeFile) (f : OpenFile)
    (data : List UInt8) (hStart : writeStart f file.content.length ≤ file.content.length) :
    WriteKeeps total s (kfsVnodeWrite s ino f data) ↔
      ¬(f.flags &&& (oWronly ||| oRdwr) ≠ 0 ∧
        TearsFile total s file.content.length (writeStart f file.content.length) data.length) := by
  constructor
  · rintro hKeeps ⟨hWritable, hTears⟩
    exact not_writeKeeps_of_tearsFile h hReliable hFile hStart hWritable hTears hKeeps
  intro hFits
  by_cases hWritable : f.flags &&& (oWronly ||| oRdwr) = 0
  · rw [kfsVnodeWrite, if_pos hWritable]
    exact ⟨⟨dirs, h⟩, fun _ => rfl⟩
  by_cases hData : data.length = 0
  · rw [kfsVnodeWrite, if_neg hWritable, if_pos hData]
    exact ⟨⟨dirs, h⟩, fun _ => rfl⟩
  obtain ⟨hLive, hKind, _⟩ := Volume.files_eq_some.mp hFile
  have hSize := Volume.size_of_files hFile
  rw [← hSize] at hStart hFits
  have hNotTears := fun hTears => hFits ⟨hWritable, hTears⟩
  have hOutcome := kfsVnodeWrite_outcome h.consistent hReliable hLive hWritable hData
    (rfl : writeStart f _ = _) hStart
  generalize kfsVnodeWrite s ino f data = result at hOutcome
  cases hOutcome with
  | wrote _ _ _ hConsistent _ _ _ hFiles =>
    refine ⟨⟨dirs, hConsistent, ?_⟩, fun hErr => by cases hErr⟩
    rw [hFiles]
    exact h.tree.setContent (Volume.files_of_live hLive) (by rw [hKind, hType]; decide) _
  | refused _ => exact ⟨⟨dirs, h⟩, fun _ => rfl⟩
  | leaked hTorn hOffset hTen =>
    refine absurd ⟨?_, ?_, ?_⟩ hNotTears
    · rw [hTen]
      decide
    · omega
    · rw [hTorn.last, hTen]
      rfl
  | torn hCount _ hOffset hTen hFree _ _ _ =>
    refine absurd ⟨blocksOf_le_ten.mpr hTen, ?_, hFree⟩ hNotTears
    omega

/-- A write of one byte more than ten blocks when eleven are free: the file keeps an
indirect block that its ten blocks do not need. -/
theorem kfsVnodeWrite_keeps_unused_block :
    ∃ (s : Volume) (dirs : Nat → List Record), s.WellFormedAt 102 True dirs ∧ s.mount.Reliable ∧
      s.files 1 = some ⟨kfsTypeFile, []⟩ ∧
      ¬WriteKeeps 102 s (kfsVnodeWrite s 1 ⟨0, oWronly⟩ (List.replicate 5121 7)) := by
  obtain ⟨s, dirs, hWell, hReliable, _, _, hFiles, hFree⟩ :=
    exists_smallVolume (by decide : 91 ≤ 102) (by decide) letter_a_valid
  have hFile : s.files 1 = some ⟨kfsTypeFile, []⟩ := by
    rw [hFiles, update_of_ne (by decide), update_self]
  refine ⟨s, dirs, hWell, hReliable, hFile, ?_⟩
  refine not_writeKeeps_of_tearsFile hWell hReliable hFile (le_refl 0) oWronly_writable ⟨?_, ?_, ?_⟩
  · decide
  · rw [List.length_replicate]
    decide
  · change s.freeBelow 102 + 0 = 11
    omega

/-- A write of one byte less has the blocks it needs. -/
theorem kfsVnodeWrite_keeps_ten_blocks :
    ∃ (s : Volume) (dirs : Nat → List Record), s.WellFormedAt 102 True dirs ∧
      WriteKeeps 102 s (kfsVnodeWrite s 1 ⟨0, oWronly⟩ (List.replicate 5120 7)) := by
  obtain ⟨s, dirs, hWell, hReliable, _, _, hFiles, _⟩ :=
    exists_smallVolume (by decide : 91 ≤ 102) (by decide) letter_a_valid
  have hFile : s.files 1 = some ⟨kfsTypeFile, []⟩ := by
    rw [hFiles, update_of_ne (by decide), update_self]
  refine ⟨s, dirs, hWell, ?_⟩
  refine (kfsVnodeWrite_keeps_iff hWell hReliable hFile rfl _ _ (le_refl 0)).mpr ?_
  rintro ⟨_, _, hReach, _⟩
  rw [List.length_replicate] at hReach
  exact absurd hReach (by decide)

end Write

section Append

variable {d n : Nat} {records : List Record} {name : CString}

/-- A record of `count` bytes behind a directory of `size` bytes needs a block that cannot
be had with `free` blocks, but the append does not fail cleanly: some of its bytes go into
the last block, or an indirect block is taken. -/
def CutsRecord (size count free : Nat) : Prop :=
  512 * blocksOf size < size + count ∧
    (size % 512 ≠ 0 ∧ (blocksOf size = 138 ∨ free < if blocksOf size = 10 then 2 else 1) ∨
      size = 10 * 512 ∧ free = 1)

instance CutsRecord.decidable (size count free : Nat) : Decidable (CutsRecord size count free) :=
  inferInstanceAs (Decidable (_ ∧ _))

/-- How the last part of a creation ends. -/
inductive Appended (total : Nat) (s : Volume) (d n : Nat) (records : List Record) (name : CString)
    (ty : Nat) : Except Int Vnode × Volume → Prop where
  | whole {s' : Volume}
      (hFits : ¬CutsRecord (encodeDir records).length (reclenOf name.bytes.length)
        (s.freeBelow total))
      (hConsistent : s'.ConsistentAt total True) (hFrame : s.Frame s' [d])
      (hFiles : s'.files = update s.files d (some ⟨kfsTypeDir, encodeDir records ++
        direntRecord n (reclenOf name.bytes.length) ty name.bytes⟩))
      (hGrown : GrownFile total True d s s') :
      Appended total s d n records name ty (.ok ⟨n, vnodeTypeOf ty⟩, s')
  | undone {err : Int}
      (hFits : ¬CutsRecord (encodeDir records).length (reclenOf name.bytes.length)
        (s.freeBelow total)) :
      Appended total s d n records name ty (.error err, undoCreate s n ty)
  | cut {s' : Volume} {file : File}
      (hCuts : CutsRecord (encodeDir records).length (reclenOf name.bytes.length)
        (s.freeBelow total))
      (hFile : s'.files d = some file)
      (hShort : file.content.length < (encodeDir records).length + reclenOf name.bytes.length) :
      Appended total s d n records name ty (.ok ⟨n, vnodeTypeOf ty⟩, s')
  | leaked {ind : Nat}
      (hCuts : CutsRecord (encodeDir records).length (reclenOf name.bytes.length)
        (s.freeBelow total))
      (hTorn : Torn total s ind) :
      Appended total s d n records name ty (.error (-enospc), undoCreate (s.takeBlock ind) n ty)

/-- A record that went in whole had the blocks it needs. -/
theorem not_cutsRecord_of_whole {rest : Nat} (hCount : count ≤ 512)
    (hBound : size + count ≤ 138 * 512)
    (hFree : rest + blockCost (blocksOf (size + count)) = free + blockCost (blocksOf size)) :
    ¬CutsRecord size count free := by
  rintro ⟨hReach, hCase⟩
  have hNext : blocksOf (size + count) = blocksOf size + 1 := by
    unfold blocksOf at hReach ⊢
    omega
  rw [hNext] at hFree
  unfold blockCost at hFree
  rcases hCase with ⟨_, hLast | hNone⟩ | ⟨hTen, hOne⟩
  · omega
  · split_ifs at hFree hNone <;> omega
  · have hBlocks : blocksOf size = 10 := by rw [hTen]; rfl
    rw [hBlocks] at hFree
    simp only [Nat.lt_irrefl, if_false, Nat.reduceAdd, Nat.reduceLT, if_true] at hFree
    omega

/-- A record that went in only in part began within a block. -/
theorem cutsRecord_of_part (hCount : count ≤ 512) (hSome : 0 < n) (hPart : n < count)
    (hFree : free = 0 ∧ size + n = 512 * blocksOf (size + n) ∨ size + n = 138 * 512 ∨
      free = 1 ∧ size + n = 10 * 512) : CutsRecord size count free := by
  have hInside : size % 512 ≠ 0 ∧ size + n = 512 * blocksOf size := by
    unfold blocksOf at hFree ⊢
    omega
  refine ⟨by omega, .inl ⟨hInside.1, ?_⟩⟩
  split_ifs <;> omega

theorem reclenOf_le (hLength : name.bytes.length ≤ 255) : reclenOf name.bytes.length ≤ 512 := by
  rw [reclenOf_eq hLength]
  omega

/-- A directory leaks a block only where its record does not go in. -/
theorem not_leaksBlock (h : s.ConsistentAt total True) (hHolds : s.Holds d records)
    (hCount : count ≠ 0)
    (hFits : ¬CutsRecord (encodeDir records).length count (s.freeBelow total)) :
    ¬LeaksBlock total s d ⟨(s.table d).size, oWronly⟩ := by
  intro hLeaks
  rw [LeaksBlock, oWronly_positioned] at hLeaks
  obtain ⟨hLo, _, hNone, hOne⟩ := hLeaks
  change 10 ≤ u32 ((s.table d).size / 512) at hLo
  have hSized := h.sized d hHolds.live
  have hBound := hSized.bound
  rw [u32_of_lt (by omega)] at hLo
  have hFew : ¬10 < blocksOf (s.table d).size := by
    intro hMany
    have hUsed := (hSized.shape 138).mpr (.inr ⟨rfl, hMany⟩)
    exact hUsed hNone
  have hTen : (s.table d).size = 10 * 512 := by
    unfold blocksOf at hFew
    omega
  rw [← hHolds.size, hTen] at hFits
  refine hFits ⟨?_, .inr ⟨rfl, hOne⟩⟩
  change 10 * 512 < 10 * 512 + count
  omega

theorem appendDirent_outcome (h : s.ConsistentAt total True) (hReliable : s.mount.Reliable)
    (hHeap : s.mount.HeapServes) (hHolds : s.Holds d records) (hLength : name.bytes.length ≤ 255)
    (dirInode : Inode) (ty : Nat) :
    Appended total s d n records name ty (appendDirent s d dirInode n ty name) := by
  have hReclen := reclenOf_le hLength
  have hSome : reclenOf name.bytes.length ≠ 0 := by
    rw [reclenOf_eq hLength]
    omega
  have hRecord := length_newDirent hLength n ty
  have hSize := hHolds.size
  rw [appendDirent_eq h hReliable hHeap hHolds hLength]
  generalize hDef : direntRecord n (reclenOf name.bytes.length) ty name.bytes = record at hRecord ⊢
  have hOutcome := @kfsVnodeWrite_outcome total True s d (s.table d).size record h hReliable
    hHolds.live ⟨(s.table d).size, oWronly⟩ oWronly_writable (by omega)
    (oWronly_positioned _ _).symm (le_refl _)
  have hAny := kfsVnodeWrite_any (h.open hHolds.live).loose hReliable ⟨(s.table d).size, oWronly⟩
    record
  generalize kfsVnodeWrite s d ⟨(s.table d).size, oWronly⟩ record = result at hOutcome hAny
  rw [hSize] at hOutcome
  cases hOutcome with
  | @wrote count s' hCount hPos hEnd hConsistent hFrame _ hFree hFiles =>
    rw [hHolds.type, hHolds.content, overwrite_end] at hFiles
    have hFile := congrFun hFiles d
    rw [update_self] at hFile
    obtain ⟨hLive', _, hContent'⟩ := Volume.files_eq_some.mp hFile
    have hTake : (record.take count).length = count := List.length_take_of_le hCount
    have hNewSize := congrArg List.length hContent'
    rw [length_fileContent, List.length_append, hTake] at hNewSize
    have hBound := (hConsistent.sized d hLive').bound
    rw [hSize, Nat.max_eq_right (Nat.le_add_right _ _)] at hEnd hFree
    by_cases hAll : count = reclenOf name.bytes.length
    · subst hAll
      rw [List.take_of_length_le (le_of_eq hRecord), ← hDef] at hFiles
      have hFits := not_cutsRecord_of_whole hReclen (by omega) hFree
      exact .whole hFits hConsistent hFrame hFiles (hAny (not_leaksBlock h hHolds hSome hFits))
    · have hPart : count < reclenOf name.bytes.length := by omega
      refine .cut (cutsRecord_of_part hReclen hPos hPart ?_) hFile ?_
      · rcases hEnd with hEq | ⟨hNone, hAt⟩ | hLast
        · omega
        · -- the append stopped at the end of the last block
          have hSame : blocksOf ((encodeDir records).length + count) =
              blocksOf (encodeDir records).length := by
            unfold blocksOf at hAt ⊢
            omega
          rw [hSame] at hFree
          exact .inl ⟨by omega, hAt⟩
        · exact .inr (.inl hLast)
      · rw [List.length_append, hTake]
        omega
  | refused hErr =>
    refine .undone ?_
    rintro ⟨_, ⟨hInside, _⟩ | ⟨hTen, hOne⟩⟩
    · omega
    · omega
  | leaked hTorn hOffset _ =>
    have hBlocks : 512 * blocksOf (encodeDir records).length = 10 * 512 := by rw [hOffset]; rfl
    exact .leaked ⟨by omega, .inr ⟨hOffset, hTorn.last⟩⟩ hTorn
  | @torn count s' hCount hPos hOffset _ hFree hLive' hNewSize _ =>
    rw [hSize] at hFree
    have hBlocks : blocksOf (encodeDir records).length = 10 := by
      unfold blocksOf
      omega
    refine .cut (cutsRecord_of_part hReclen hPos (by omega) (.inr (.inr ⟨by omega, hOffset⟩)))
      (Volume.files_of_live hLive') ?_
    rw [length_fileContent, hNewSize]
    omega

end Append

section Create

variable {d n : Nat} {records : List Record} {name : CString} {s' : Volume}

/-- Bitmaps and directory are as before. -/
structure Restored (s s' : Volume) (d : Nat) : Prop where
  blockBitmap : s'.blockBitmap = s.blockBitmap
  inodeBitmap : s'.inodeBitmap = s.inodeBitmap
  size : (s'.table d).size = (s.table d).size
  slots : slotBlock s'.disk (s'.table d) = slotBlock s.disk (s.table d)
  content : fileContent s'.disk (s'.table d) = fileContent s.disk (s.table d)

/-- The directory has the whole record, or everything is as before. -/
inductive AllOrNothing (s : Volume) (d : Nat) (records : List Record)
    (name : CString) (type : Nat) : Except Int Vnode × Volume → Prop where
  | whole {v : Vnode} {s' : Volume}
      (hFiles : s'.files d = some ⟨kfsTypeDir, encodeDir records ++
        direntRecord v.ino (reclenOf name.bytes.length) (kfsTypeFor type) name.bytes⟩) :
      AllOrNothing s d records name type (.ok v, s')
  | nothing {err : Int} {s' : Volume} (h : Restored s s' d) :
      AllOrNothing s d records name type (.error err, s')

theorem Restored.of_same (h : s.ConsistentAt total True) (h' : s'.ConsistentAt total True)
    (hLive : s.live d = true) (hBeyond : s.Beyond s') (hFrame : s.Frame s' [])
    (hFiles : s'.files = s.files) : Restored s s' d := by
  have hBlocks : s'.blocks = s.blocks := funext (fun i => hFrame.blocks i List.not_mem_nil)
  have hLive' : s'.live d = true := by
    rw [s'.live_eq_isSome, hBlocks, ← s.live_eq_isSome]
    exact hLive
  have hFile := congrFun hFiles d
  have hSlots := congrFun hBlocks d
  simp only [Volume.files, Volume.blocks, hLive, hLive', if_true, Option.some.injEq,
    File.mk.injEq] at hFile hSlots
  obtain ⟨hBlockBits, hInodeBits⟩ := h.bitmaps_eq h' hBeyond hBlocks
  have hSize := congrArg List.length hFile.2
  rw [length_fileContent, length_fileContent] at hSize
  exact ⟨hBlockBits, hInodeBits, hSize, hSlots, hFile.2⟩

theorem Restored.refl (s : Volume) (d : Nat) : Restored s s d := ⟨rfl, rfl, rfl, rfl, rfl⟩

theorem populateDir_none (h : s.MountedAt total) (hReliable : s.mount.Reliable)
    (hNone : s.freeBelow total = 0) (hRoot : 0 < n) (hIno : n < 128) :
    populateDir s d n = (.error (-enospc), s.dropInode n) := by
  simp only [populateDir, kfsAllocBlock_none h hNone, kfsFreeInode_eq h hReliable hRoot hIno]

theorem kfsFreeBlock_other {blk b : Nat} (hb : b ≠ blk) :
    isSet (kfsFreeBlock s blk).2.blockBitmap b = isSet s.blockBitmap b := by
  unfold kfsFreeBlock
  split
  · rfl
  · unfold flushBlockBitmap Volume.writeSectors
    split <;> simp [hb]

theorem kfsFreeInode_blockBitmap (s : Volume) (ino : Nat) :
    (kfsFreeInode s ino).2.blockBitmap = s.blockBitmap := by
  unfold kfsFreeInode
  split
  · rfl
  · unfold flushInodeBitmap Volume.writeSectors
    split <;> rfl

/-- The block of an indirect block that nothing refers to stays marked. -/
theorem undoCreate_leaves {ty : Nat} (h : s.ConsistentAt total True) (hReliable : s.mount.Reliable)
    (hLive : s.live n = true) (hTorn : Torn total s ind) :
    isSet (undoCreate (s.takeBlock ind) n ty).blockBitmap ind = true := by
  have hInd := h.mounted.lt hTorn.hi
  have hSet : isSet (s.takeBlock ind).blockBitmap ind = true := by simp
  have hRead : kfsReadInode (s.takeBlock ind) n = .ok (s.table n) := by
    rw [kfsReadInode_eq (h.mounted.takeBlock hTorn.lo hInd) hReliable hLive,
      Volume.takeBlock_table hTorn.lo hInd]
  have hOther : (s.table n).direct 0 ≠ 0 → ind ≠ (s.table n).direct 0 := by
    intro hUsed hEq
    have hMarked := h.exclusive.used (n, 0)
    simp only [Volume.slots, hLive, if_true, slotBlock] at hMarked
    have hBit := hMarked hUsed
    change isSet s.blockBitmap ((s.table n).direct 0) = true at hBit
    rw [← hEq, hTorn.clear] at hBit
    exact Bool.false_ne_true hBit
  simp only [undoCreate, kfsFreeInode_blockBitmap, hRead]
  split
  · split
    · rename_i hUsed
      rw [kfsFreeBlock_other (hOther hUsed)]
      exact hSet
    · exact hSet
  · exact hSet

theorem isSet_of_frame (h : s.ConsistentAt total True) (h' : s'.ConsistentAt total True)
    (hFrame : s.Frame s' [n]) (hDead : s.files n = none) (hTorn : Torn total s' ind) :
    isSet s.blockBitmap ind = false := by
  by_contra hSet
  rw [Bool.not_eq_false] at hSet
  obtain ⟨x, hx⟩ := h.covered trivial ind hTorn.lo hTorn.hi hSet
  have hLo := hTorn.lo
  have hNe : x.1 ≠ n := by
    intro hEq
    rw [s.slots_eq_blocks, hEq, Volume.blocks_eq_none hDead] at hx
    change 0 = ind at hx
    omega
  have hKept := hFrame.blocks x.1 (by simpa using hNe)
  have hx' : s'.slots s'.table x = ind := by
    rw [s'.slots_eq_blocks, hKept, ← s.slots_eq_blocks, hx]
  have hUsed := h'.exclusive.used x (by omega)
  rw [hx', hTorn.clear] at hUsed
  exact Bool.false_ne_true hUsed

/-- The blocks of a new inode. -/
def newBlocks (type : Nat) : Nat := if kfsTypeFor type = kfsTypeDir then 1 else 0

/-- There is an inode and its block for a creation, but the record does not go in whole. -/
def CutsCreate (total : Nat) (s : Volume) (size count type : Nat) : Prop :=
  (∃ i, 0 < i ∧ i < 128 ∧ s.live i = false) ∧ newBlocks type ≤ s.freeBelow total ∧
    CutsRecord size count (s.freeBelow total - newBlocks type)

/-- Without a block for a new directory, nothing is left of it. -/
theorem createEntry_noBlock (h : s.ConsistentAt total True) (hReliable : s.mount.Reliable)
    (hLive : s.live d = true) (dirInode : Inode) {type : Nat} (hDir : kfsTypeFor type = kfsTypeDir)
    (hNone : s.freeBelow total = 0) :
    ∃ err s', createEntry s d dirInode name type = (.error err, s') ∧ Restored s s' d := by
  have hBeyond := (createEntry_marks s d dirInode name type).toBeyond
  rcases kfsAllocInode_spec h hReliable type with hFull | hFound
  · exact ⟨_, s, by rw [createEntry_eq, hFull.2], .refl s d⟩
  · obtain ⟨n, s₁, _, hLo, hHi, hDead, hAlloc, hTaken, hFrame, hCount, hFiles, _⟩ := hFound
    have hNew : s₁.files n = some ⟨kfsTypeFor type, []⟩ := by rw [hFiles, update_self]
    obtain ⟨hDropped, hDroppedFiles, hDroppedFrame⟩ :=
      (hTaken.open_empty (Volume.files_eq_some.mp hNew).1 (Volume.size_of_files hNew)).discard
    have hPopulate := @populateDir_none total s₁ d n hTaken.mounted
      (by rw [hFrame.mount]; exact hReliable) (hCount.trans hNone) hLo hHi
    have hRun : createEntry s d dirInode name type = (.error (-enospc), s₁.dropInode n) := by
      rw [createEntry_eq, hAlloc]
      simp only [if_pos hDir, hPopulate]
    have hSame : (s₁.dropInode n).files = s.files := by
      rw [hDroppedFiles, hFiles, update_idem, ← hDead, update_eq_self]
    rw [hRun] at hBeyond
    refine ⟨_, _, hRun, .of_same h hDropped hLive hBeyond ?_ hSame⟩
    refine (hFrame.trans_same hDroppedFrame).drop ?_
    rw [Volume.blocks_eq_none hDead, Volume.blocks_eq_none (by rw [hSame]; exact hDead)]

/-- What a creation that went well has done. -/
structure MadeEntry (total : Nat) (s s' : Volume) (d n : Nat)
    (records : List Record) (name : CString) (type : Nat) : Prop where
  root : 0 < n
  inode : n < 128
  fresh : s.files n = none
  consistent : s'.ConsistentAt total True
  frame : s.Frame s' [n, d]
  files : s'.files = update
    (update s.files n (some ⟨kfsTypeFor type, newContent (kfsTypeFor type) n d⟩)) d
    (some ⟨kfsTypeDir, encodeDir records ++
      direntRecord n (reclenOf name.bytes.length) (kfsTypeFor type) name.bytes⟩)
  table : ∀ i, i ≠ n → i ≠ d → s'.table i = s.table i
  keeps : ∀ k, slotBlock s.disk (s.table d) k ≠ 0 →
    slotBlock s'.disk (s'.table d) k = slotBlock s.disk (s.table d) k

/-- How the creation of a name that the directory does not have ends. -/
inductive Ended (total : Nat) (s : Volume) (d : Nat) (records : List Record) (name : CString)
    (type : Nat) : Except Int Vnode × Volume → Prop where
  | made {n : Nat} {s' : Volume}
      (hFits : ¬CutsCreate total s (encodeDir records).length (reclenOf name.bytes.length) type)
      (hMade : MadeEntry total s s' d n records name type) :
      Ended total s d records name type (.ok ⟨n, vnodeTypeOf (kfsTypeFor type)⟩, s')
  | restored {err : Int} {s' : Volume}
      (hFits : ¬CutsCreate total s (encodeDir records).length (reclenOf name.bytes.length) type)
      (hRestored : Restored s s' d) : Ended total s d records name type (.error err, s')
  | cut {n : Nat} {s' : Volume} {file : File}
      (hCuts : CutsCreate total s (encodeDir records).length (reclenOf name.bytes.length) type)
      (hFile : s'.files d = some file)
      (hShort : file.content.length < (encodeDir records).length + reclenOf name.bytes.length) :
      Ended total s d records name type (.ok ⟨n, vnodeTypeOf (kfsTypeFor type)⟩, s')
  | leaked {err : Int} {s' : Volume} {b : Nat}
      (hCuts : CutsCreate total s (encodeDir records).length (reclenOf name.bytes.length) type)
      (hBefore : isSet s.blockBitmap b = false) (hAfter : isSet s'.blockBitmap b = true) :
      Ended total s d records name type (.error err, s')

theorem createEntry_ends (h : s.ConsistentAt total True) (hReliable : s.mount.Reliable)
    (hHeap : s.mount.HeapServes) (hHolds : s.Holds d records) (hLength : name.bytes.length ≤ 255)
    (dirInode : Inode) (type : Nat) :
    Ended total s d records name type (createEntry s d dirInode name type) := by
  by_cases hRoom : kfsTypeFor type = kfsTypeDir → 0 < s.freeBelow total
  swap
  · rw [Classical.not_imp, Nat.not_lt, Nat.le_zero] at hRoom
    obtain ⟨err, s', hRun, hRestored⟩ :=
      createEntry_noBlock h hReliable hHolds.live dirInode hRoom.1
      hRoom.2
    rw [hRun]
    refine .restored ?_ hRestored
    rintro ⟨_, hBlocks, _⟩
    rw [newBlocks, if_pos hRoom.1] at hBlocks
    omega
  have hBeyond := (createEntry_marks s d dirInode name type).toBeyond
  rw [createEntry_eq] at hBeyond ⊢
  rcases @allocate_spec total True s d h hReliable type hRoom with hNone | hFound
  · rw [hNone.2]
    refine .restored ?_ (.refl s d)
    rintro ⟨⟨i, hLo, hHi, hDead⟩, _⟩
    rw [hNone.1 i hLo hHi] at hDead
    cases hDead
  obtain ⟨n, s₁, s₂, _, hLo, hHi, hFree, hAlloc, hPopulate, hConsistent, hFrame, hCount, hFiles,
    hTable⟩ := hFound
  have hNe : d ≠ n := by
    rintro rfl
    rw [hHolds] at hFree
    cases hFree
  have hHolds₂ : s₂.Holds d records := by
    rw [Volume.Holds, hFiles, update_of_ne hNe]
    exact hHolds
  have hReliable₂ : s₂.mount.Reliable := by rw [hFrame.mount]; exact hReliable
  have hHeap₂ : s₂.mount.HeapServes := by rw [hFrame.mount]; exact hHeap
  have hLive₂ : s₂.live n = true :=
    (Volume.files_eq_some.mp (by rw [hFiles, update_self])).1
  have hCuts : CutsCreate total s (encodeDir records).length (reclenOf name.bytes.length) type ↔
      CutsRecord (encodeDir records).length (reclenOf name.bytes.length) (s₂.freeBelow total) := by
    have hDead : s.live n = false := by
      rw [s.live_eq_isSome, Volume.blocks_eq_none hFree]
      rfl
    have hRest : s.freeBelow total - newBlocks type = s₂.freeBelow total := by
      unfold newBlocks
      omega
    have hEnough : newBlocks type ≤ s.freeBelow total := by
      unfold newBlocks
      omega
    unfold CutsCreate
    rw [hRest]
    exact ⟨fun hAll => hAll.2.2, fun hCut => ⟨⟨n, hLo, hHi, hDead⟩, hEnough, hCut⟩⟩
  simp only [hAlloc, hPopulate] at hBeyond ⊢
  have hAppend :=
    @appendDirent_outcome total s₂ d n records name hConsistent hReliable₂ hHeap₂ hHolds₂
    hLength dirInode (kfsTypeFor type)
  generalize appendDirent s₂ d dirInode n (kfsTypeFor type) name = result at hAppend hBeyond
  cases hAppend with
  | whole hFits hConsistent' hFrame' hFiles' hGrown =>
    refine .made (fun hCut => hFits (hCuts.mp hCut)) ⟨hLo, hHi, hFree, hConsistent',
      hFrame.trans hFrame', by rw [hFiles', hFiles], fun i hi hid => ?_, fun k hk => ?_⟩
    · rw [hGrown.table i hid, hTable i hi]
    · have hBlocks := hFrame.blocks d (by simpa using hNe)
      simp only [Volume.blocks, hHolds.live, hHolds₂.live, if_true, Option.some.injEq] at hBlocks
      rw [← hBlocks] at hk ⊢
      exact hGrown.keeps k hk
  | undone hFits =>
    obtain ⟨hUndone, hUndoneFrame, hUndoneFiles⟩ :=
      undoCreate_new hConsistent hReliable₂ hLo hFree hFrame hFiles
    exact .restored (fun hCut => hFits (hCuts.mp hCut))
      (.of_same h hUndone hHolds.live hBeyond hUndoneFrame hUndoneFiles)
  | cut hCut hFile hShort => exact .cut (hCuts.mpr hCut) hFile hShort
  | leaked hCut hTorn =>
    exact .leaked (hCuts.mpr hCut) (isSet_of_frame h hConsistent hFrame hFree hTorn)
      (undoCreate_leaves hConsistent hReliable₂ hLive₂ hTorn)

theorem createEntry_allOrNothing_iff (h : s.ConsistentAt total True) (hReliable : s.mount.Reliable)
    (hHeap : s.mount.HeapServes) (hHolds : s.Holds d records) (hLength : name.bytes.length ≤ 255)
    (dirInode : Inode) (type : Nat) :
    AllOrNothing s d records name type (createEntry s d dirInode name type) ↔
      ¬CutsCreate total s (encodeDir records).length (reclenOf name.bytes.length) type := by
  have hEnds :=
    @createEntry_ends total s d records name h hReliable hHeap hHolds hLength dirInode type
  generalize createEntry s d dirInode name type = result at hEnds
  cases hEnds with
  | made hFits hMade =>
    refine iff_of_true (.whole ?_) hFits
    rw [hMade.files, update_self]
  | restored hFits hRestored => exact iff_of_true (.nothing hRestored) hFits
  | @cut n _ _ hCuts hFile hShort =>
    refine iff_of_false ?_ (not_not_intro hCuts)
    rintro ⟨hNew⟩
    rw [hFile, Option.some.injEq] at hNew
    rw [hNew, List.length_append, length_newDirent hLength] at hShort
    exact lt_irrefl _ hShort
  | leaked hCuts hBefore hAfter =>
    refine iff_of_false ?_ (not_not_intro hCuts)
    intro hAll
    cases hAll with
    | nothing hRestored =>
      rw [hRestored.blockBitmap, hBefore] at hAfter
      exact Bool.false_ne_true hAfter

/-- A creation appends the whole record or leaves everything as before, unless the record
is cut: it would go past the last block of the directory, and either some of its bytes fit
there and the next block cannot be had, or the indirect block can be had and its first
entry cannot. -/
theorem kfsVnodeCreate_allOrNothing_iff (h : s.WellFormedAt total True dirs)
    (hReliable : s.mount.Reliable) (hHeap : s.mount.HeapServes)
    (hDir : kindOf s.files d = some kfsTypeDir) (hFresh : ∀ q ∈ dirs d, q.ent.name ≠ name.bytes)
    (type : Nat) :
    AllOrNothing s d (dirs d) name type (kfsVnodeCreate s d name type) ↔
      ¬(name.Valid ∧ CutsCreate total s (encodeDir (dirs d)).length
        (reclenOf name.bytes.length) type) := by
  have hHolds := h.holds hDir
  by_cases hValid : name.Valid
  · rw [kfsVnodeCreate_absent h.consistent hReliable hHolds hValid hFresh,
      createEntry_allOrNothing_iff h.consistent hReliable hHeap hHolds hValid.length_le, not_and]
    exact ⟨fun hFits _ => hFits, fun hFits => hFits hValid⟩
  · obtain ⟨err, _, hRun⟩ := kfsVnodeCreate_invalid h.consistent hReliable hHolds hValid type
    rw [hRun]
    exact iff_of_true (.nothing (.refl s d)) (fun hCuts => hValid hCuts.1)

/-- A name of the largest length. -/
def wideName (c : UInt8) (h : c ≠ 0) : CString :=
  ⟨List.replicate 255 c, fun hMem => h (List.eq_of_mem_replicate hMem).symm⟩

theorem wideName_valid {c : UInt8} (h : c ≠ 0) : (wideName c h).Valid := by
  constructor
  · rw [wideName, List.length_replicate]
    decide
  · rw [wideName, List.length_replicate]
  · rintro (hEq | hEq) <;>
    · have hLength := congrArg List.length hEq
      cases hLength

/-- A second name of the largest length, on a device whose one data block holds the record
of the first: the record is cut, and the call succeeds. -/
theorem kfsVnodeCreate_not_allOrNothing :
    ∃ (s : Volume) (dirs : Nat → List Record), s.WellFormedAt 91 True dirs ∧ s.mount.Reliable ∧
      s.mount.HeapServes ∧ kindOf s.files 0 = some kfsTypeDir ∧
      ∃ name : CString, (∀ q ∈ dirs 0, q.ent.name ≠ name.bytes) ∧
        ¬AllOrNothing s 0 (dirs 0) name vnodeTypeFile (kfsVnodeCreate s 0 name vnodeTypeFile) := by
  obtain ⟨s, dirs, hWell, hReliable, hHeap, hDirs, hFiles, hFree⟩ :=
    exists_smallVolume (le_refl 91) (by decide) (wideName_valid (by decide : (97 : UInt8) ≠ 0))
  have hDir : kindOf s.files 0 = some kfsTypeDir := by
    rw [kindOf, hFiles, update_self]
    rfl
  have hHolds := hWell.holds hDir
  have hValid := wideName_valid (by decide : (98 : UInt8) ≠ 0)
  have hFresh : ∀ q ∈ dirs 0, q.ent.name ≠ (wideName 98 (by decide)).bytes := by
    rw [hDirs]
    intro q hq hEq
    rw [List.mem_singleton.mp hq, newRecord_ent] at hEq
    have hHead := congrArg List.head? hEq
    cases hHead
  have hDead : s.live 2 = false := by
    rw [s.live_eq_isSome, Volume.blocks_eq_none]
    · rfl
    · rw [hFiles, update_of_ne (by decide), update_of_ne (by decide),
        mkfsVolume_files]
      rfl
  have hSize : (encodeDir (dirs 0)).length = 264 := by
    rw [hDirs]
    simp only [encodeDir_cons, encodeDir_nil, List.append_nil, Record.length_bytes, newRecord_ent]
    rw [reclenOf_eq (wideName_valid (by decide : (97 : UInt8) ≠ 0)).length_le, wideName,
      List.length_replicate]
  have hReclen : reclenOf (wideName 98 (by decide)).bytes.length = 264 := by
    rw [reclenOf_eq hValid.length_le, wideName, List.length_replicate]
  refine ⟨s, dirs, hWell, hReliable, hHeap, hDir, wideName 98 (by decide), hFresh, ?_⟩
  rw [kfsVnodeCreate_absent hWell.consistent hReliable hHolds hValid hFresh,
    createEntry_allOrNothing_iff hWell.consistent hReliable hHeap hHolds hValid.length_le, not_not,
    hSize, hReclen]
  have hNone : s.freeBelow 91 = 0 := by omega
  refine ⟨⟨2, by decide, by decide, hDead⟩, Nat.zero_le _, ?_⟩
  rw [hNone]
  decide

/-- The first file of a new volume. -/
theorem kfsVnodeCreate_first_allOrNothing :
    AllOrNothing mkfsVolume 0 [] (letter 97 (by decide)) vnodeTypeFile
      (kfsVnodeCreate mkfsVolume 0 (letter 97 (by decide)) vnodeTypeFile) := by
  refine (kfsVnodeCreate_allOrNothing_iff mkfsVolume_wellFormed mkfsVolume_reliable
    mkfsVolume_heapServes (by rw [kindOf, mkfsVolume_files]; rfl) (fun q hq => by cases hq) _).mpr
      ?_
  rintro ⟨_, _, _, hCuts⟩
  rcases hCuts.2 with ⟨hInside, _⟩ | ⟨hTen, _⟩
  · exact hInside rfl
  · cases hTen

end Create

end Kryos.Fs
