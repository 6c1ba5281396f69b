import Kryos.Fs.FileBlocks

/-! Reading and writing the bytes of a file: the loops of `kfs_vnode_read` and
`kfs_vnode_write` against the content as a list of bytes. -/
namespace Kryos.Fs

open Bitmap Function Word

variable {content data : List UInt8} {offset size count chunk total ino k : Nat} {need : Nat → Prop}
  {p : WriteProgress} {disk disk' : Nat → Sector}

/-- A content with the bytes from `offset` on replaced. -/
def overwrite (content : List UInt8) (offset : Nat) (data : List UInt8) : List UInt8 :=
  content.take offset ++ data ++ content.drop (offset + data.length)

theorem length_overwrite (h : offset ≤ content.length) (data : List UInt8) :
    (overwrite content offset data).length = max content.length (offset + data.length) := by
  simp only [overwrite, List.length_append, List.length_take, List.length_drop]
  omega

theorem overwrite_nil (content : List UInt8) (offset : Nat) :
    overwrite content offset [] = content := by
  simp [overwrite]

theorem overwrite_append (h : offset ≤ content.length) (first second : List UInt8) :
    overwrite (overwrite content offset first) (offset + first.length) second =
      overwrite content offset (first ++ second) := by
  have hTake : (content.take offset).length = offset := List.length_take_of_le h
  have hHead : (content.take offset ++ first).length = offset + first.length := by
    rw [List.length_append, hTake]
  rw [overwrite, overwrite, overwrite, List.take_left' hHead, List.drop_append, hHead,
    List.drop_eq_nil_of_le (by omega : (content.take offset ++ first).length ≤ _),
    List.nil_append, List.drop_drop, List.length_append]
  simp only [List.append_assoc]
  congr 4
  omega

theorem map_range_eq_overwrite {before after : Nat → UInt8} {size' : Nat}
    (hSize : size' = max size (offset + data.length)) (hOffset : offset ≤ size)
    (hIn : ∀ i (hi : i < data.length), after (offset + i) = data[i])
    (hOut : ∀ i < size, i < offset ∨ offset + data.length ≤ i → after i = before i) :
    (List.range size').map after = overwrite ((List.range size).map before) offset data := by
  have hLength : ((List.range size).map before).length = size := by simp
  apply List.ext_getElem
  · rw [length_overwrite (by omega)]
    simp [hSize]
  · intro i hi _
    have hi' : i < size' := by simpa using hi
    simp only [overwrite, List.getElem_append, List.length_append, List.length_take, hLength,
      List.getElem_take, List.getElem_map, List.getElem_range, List.getElem_drop]
    split_ifs with hHead hBefore
    · exact hOut i (by omega) (.inl (by omega))
    · have hIndex := hIn (i - offset) (by omega)
      rw [show offset + (i - offset) = i by omega] at hIndex
      rw [hIndex]
      congr 1
      omega
    · rw [hOut i (by omega) (.inr (by omega))]
      congr 1
      omega

section Slices

variable {disk : Nat → Sector} {inode : Inode}

theorem length_fileSlice (start count : Nat) :
    (fileSlice disk inode start count).length = count := by
  simp [fileSlice]

theorem length_fileContent : (fileContent disk inode).length = inode.size :=
  length_fileSlice 0 inode.size

theorem fileSlice_add (start first second : Nat) :
    fileSlice disk inode start (first + second) =
      fileSlice disk inode start first ++ fileSlice disk inode (start + first) second := by
  simp only [fileSlice, List.range_add, List.map_append, List.map_map]
  congr 1
  apply List.map_congr_left
  simp [Nat.add_assoc]

theorem fileSlice_eq_content {start : Nat} (h : start + count ≤ inode.size) :
    fileSlice disk inode start count = ((fileContent disk inode).drop start).take count := by
  have hSplit : fileContent disk inode =
      fileSlice disk inode 0 start ++
        (fileSlice disk inode start count ++
          fileSlice disk inode (start + count) (inode.size - (start + count))) := by
    have hSize : inode.size = start + (count + (inode.size - (start + count))) := by omega
    rw [fileContent]
    conv_lhs => rw [hSize]
    rw [fileSlice_add, fileSlice_add, Nat.zero_add]
  rw [hSplit, List.drop_left' (length_fileSlice 0 start), List.take_left' (length_fileSlice _ _)]

theorem fileSlice_within (h : offset % 512 + chunk ≤ 512) :
    fileSlice disk inode offset chunk =
      slice (disk (slotBlock disk inode (offset / 512))) (offset % 512) chunk := by
  apply List.map_congr_left
  intro i hi
  rw [List.mem_range] at hi
  have hDiv : (offset + i) / 512 = offset / 512 := by omega
  have hMod : (offset + i) % 512 = offset % 512 + i := by omega
  rw [fileByte, hDiv, hMod]

end Slices

section Read

variable {s : Volume} {inode : Inode}

theorem kfsMapBlock_eq (hReliable : s.mount.Reliable) {l : Nat} (hl : l < 138)
    (hUsed : slotBlock s.disk inode l ≠ 0) :
    kfsMapBlock s inode l = .ok (slotBlock s.disk inode l) := by
  unfold slotBlock at hUsed ⊢
  by_cases hDirect : l < 10
  · simp only [hDirect, dif_pos] at hUsed ⊢
    simp [kfsMapBlock, hDirect, hUsed]
  · simp only [hDirect, hl, dif_neg, not_false_eq_true, if_true] at hUsed ⊢
    by_cases hZero : inode.indirect = 0
    · simp [hZero] at hUsed
    · have hIndex : ¬l - 10 ≥ 128 := by omega
      simp only [hZero, if_false] at hUsed ⊢
      simp only [kfsMapBlock, hDirect, dif_neg, not_false_eq_true, hZero, if_false, hIndex,
        s.readSectors_eq hReliable, hUsed]

/-- The loop of `kfs_vnode_read` copies the bytes in order. -/
theorem readLoop_spec (hReliable : s.mount.Reliable) (hSized : Sized s.disk inode)
    (fuel offset toRead : Nat) (hFuel : toRead ≤ fuel) (hEnd : offset + toRead ≤ inode.size) :
    readLoop s inode fuel offset toRead =
      (.ok (fileSlice s.disk inode offset toRead), offset + toRead) := by
  induction fuel generalizing offset toRead with
  | zero =>
    have hZero : toRead = 0 := by omega
    simp [readLoop, hZero, fileSlice]
  | succ fuel ih =>
    by_cases hZero : toRead = 0
    · simp [readLoop, hZero, fileSlice]
    · have hBound := hSized.bound
      have hUsed : slotBlock s.disk inode (offset / 512) ≠ 0 :=
        (hSized.shape _).mpr (.inl (lt_blocksOf (by omega)))
      have hBlk : u32 (offset / 512) = offset / 512 := u32_of_lt (by omega)
      have hMap := kfsMapBlock_eq hReliable (by omega : offset / 512 < 138) hUsed
      generalize hChunk : min (512 - offset % 512) toRead = chunk
      have hNext : u64 (offset + chunk) = offset + chunk := u64_of_lt (by omega)
      have hRest := ih (offset + chunk) (toRead - chunk) (by omega) (by omega)
      have hSum : toRead = chunk + (toRead - chunk) := by omega
      have hSlice : fileSlice s.disk inode offset toRead =
          slice (s.disk (slotBlock s.disk inode (offset / 512))) (offset % 512) chunk ++
            fileSlice s.disk inode (offset + chunk) (toRead - chunk) := by
        conv_lhs => rw [hSum]
        rw [fileSlice_add, fileSlice_within (by omega)]
      simp only [readLoop, hZero, if_false, hBlk, hMap, s.readSectors_eq hReliable, hChunk, hNext,
        hRest, hSlice]
      congr 1
      omega

/-- `kfs_vnode_read` returns the bytes of the file from the offset on. -/
theorem kfsVnodeRead_sized (hMounted : s.MountedAt total) (hReliable : s.mount.Reliable)
    (hLive : s.live ino = true) (hSized : Sized s.disk (s.table ino))
    (hRange : offset + count < 2 ^ 64) :
    kfsVnodeRead s ino offset count =
      (.ok (((fileContent s.disk (s.table ino)).drop offset).take count),
        offset + (((fileContent s.disk (s.table ino)).drop offset).take count).length) := by
  have hLength : (fileContent s.disk (s.table ino)).length = (s.table ino).size :=
    length_fileContent
  rw [kfsVnodeRead, kfsReadInode_eq hMounted hReliable hLive]
  by_cases hEnd : offset ≥ (s.table ino).size
  · have hNil : (fileContent s.disk (s.table ino)).drop offset = [] :=
      List.drop_eq_nil_of_le (by omega)
    simp [hEnd, hNil]
  · simp only [hEnd, if_false, u64_of_lt hRange]
    split
    · rw [readLoop_spec hReliable hSized _ _ _ (le_refl _) (by omega),
        fileSlice_eq_content (by omega), List.take_of_length_le (by simp [hLength]),
        List.take_of_length_le (by simp only [List.length_drop]; omega), List.length_drop, hLength]
    · rw [readLoop_spec hReliable hSized _ _ _ (le_refl _) (by omega),
        fileSlice_eq_content (by omega), List.length_take, List.length_drop, hLength,
        min_eq_left (by omega)]

theorem kfsVnodeRead_eq {full : Prop} (hConsistent : s.ConsistentAt total full)
    (hReliable : s.mount.Reliable) (hLive : s.live ino = true) (hRange : offset + count < 2 ^ 64) :
    kfsVnodeRead s ino offset count =
      (.ok (((fileContent s.disk (s.table ino)).drop offset).take count),
        offset + (((fileContent s.disk (s.table ino)).drop offset).take count).length) :=
  kfsVnodeRead_sized hConsistent.mounted hReliable hLive (hConsistent.sized ino hLive) hRange

end Read

section Write

variable {total : Nat} {full : Prop} {s s' s'' : Volume} {ino : Nat} {inode : Inode}

theorem Volume.OpenedAt.putData_slots (h : s.OpenedAt total full ino inode need) (hk : k < 138)
    (data : Sector) :
    slotBlock (s.putSector (slotBlock s.disk inode k) data).disk inode =
      slotBlock s.disk inode := by
  apply slotBlock_congr
  intro hIndirect
  apply Volume.putSector_disk
  rw [← slotBlock_indirect s.disk inode] at hIndirect ⊢
  intro hEq
  have hIndex := h.own_inj hIndirect hEq
  omega

/-- Writing a data block of an open file changes the bytes of that block only. -/
theorem Volume.OpenedAt.putData (h : s.OpenedAt total full ino inode need) (hk : k < 138)
    (hUsed : slotBlock s.disk inode k ≠ 0) (data : Sector) :
    (s.putSector (slotBlock s.disk inode k) data).OpenedAt total full ino inode need ∧
      s.Within (s.putSector (slotBlock s.disk inode k) data) ino ∧
      ∀ p, slotBlock s.disk inode (p / 512) ≠ 0 →
        fileByte (s.putSector (slotBlock s.disk inode k) data).disk inode p =
          if p / 512 = k then data (p % 512) else fileByte s.disk inode p := by
  have hRange := h.range hUsed
  obtain ⟨hWithin, hOthers⟩ := h.keep (Volume.putSector_mount data)
    (Volume.putSector_inodeBitmap data) (fun c _ hHeld => Volume.putSector_disk data (by
      rintro rfl
      exact (hHeld hRange.1).2 k rfl))
  have hOwn := h.putData_slots hk data
  have hSlots : (s.putSector (slotBlock s.disk inode k) data).slots
      (update (s.putSector (slotBlock s.disk inode k) data).table ino inode) =
        s.slots (update s.table ino inode) := by
    funext x
    obtain ⟨i, j⟩ := x
    by_cases hi : i = ino
    · subst hi
      rw [Volume.slots_own h.live, Volume.slots_own (hWithin.live ▸ h.live), hOwn]
    · exact hWithin.slots_other hi inode inode j
  refine ⟨⟨h.mounted.putSector hRange.1 data, h.live, ?_, ?_, hOthers, ?_, h.fits⟩, hWithin, ?_⟩
  · rw [hSlots]
    exact h.exclusive
  · rw [hSlots]
    exact h.covered
  · rw [Shape, hOwn]
    exact h.shape
  · intro p hp
    rw [fileByte, hOwn]
    by_cases hBlock : p / 512 = k
    · rw [if_pos hBlock, hBlock, Volume.putSector_disk_self]
    · rw [if_neg hBlock, Volume.putSector_disk, fileByte]
      exact fun hEq => hBlock (h.own_inj hp hEq)

/-- What a part of the loop of `kfs_vnode_write` that writes `data` achieves. -/
structure Wrote (total : Nat) (full : Prop) (ino : Nat) (s : Volume)
    (p : WriteProgress) (s' : Volume) (p' : WriteProgress) (data : List UInt8) : Prop where
  opened : s'.OpenedAt total full ino p'.inode (needed (blocksOf p'.inode.size))
  within : s.Within s' ino
  offset : p'.offset = p.offset + data.length
  written : p'.totalWritten = p.totalWritten + data.length
  size : p'.inode.size = max p.inode.size (p.offset + data.length)
  type : p'.inode.type = p.inode.type
  content : fileContent s'.disk p'.inode = overwrite (fileContent s.disk p.inode) p.offset data
  free : s'.freeBelow total + blockCost (blocksOf p'.inode.size) =
    s.freeBelow total + blockCost (blocksOf p.inode.size)
  clean : p'.dirty = false → p.dirty = false ∧ p'.inode = p.inode

theorem Wrote.refl (h : s.OpenedAt total full ino p.inode (needed (blocksOf p.inode.size)))
    (hOffset : p.offset ≤ p.inode.size) : Wrote total full ino s p s p [] where
  opened := h
  within := Volume.Within.refl s ino
  offset := rfl
  written := rfl
  size := by simp [hOffset]
  type := rfl
  content := (overwrite_nil _ _).symm
  free := rfl
  clean := fun hClean => ⟨hClean, rfl⟩

theorem Wrote.trans {p' p'' : WriteProgress} {first second : List UInt8}
    (h : Wrote total full ino s p s' p' first) (h' : Wrote total full ino s' p' s'' p'' second)
    (hOffset : p.offset ≤ p.inode.size) : Wrote total full ino s p s'' p'' (first ++ second) where
  opened := h'.opened
  within := h.within.trans h'.within
  offset := by
    rw [h'.offset, h.offset, List.length_append]
    omega
  written := by
    rw [h'.written, h.written, List.length_append]
    omega
  size := by
    rw [h'.size, h.size, h.offset, List.length_append]
    omega
  type := h'.type.trans h.type
  content := by
    rw [h'.content, h.content, h.offset,
      overwrite_append (by rw [length_fileContent]; exact hOffset)]
  free := h'.free.trans h.free
  clean := fun hClean =>
    ⟨(h.clean (h'.clean hClean).1).1, (h'.clean hClean).2.trans (h.clean (h'.clean hClean).1).2⟩

theorem fileByte_copyInto {buf : Sector} {blocks : Nat} (hFit : offset % 512 + data.length ≤ 512)
    (hBuf : ∀ i < 512, i < offset % 512 ∨ offset % 512 + data.length ≤ i →
      buf i = disk (slotBlock disk inode (offset / 512)) i)
    (hBytes : ∀ q, q / 512 < blocks → fileByte disk' inode q =
      if q / 512 = offset / 512 then copyInto buf (offset % 512) data (q % 512)
      else fileByte disk inode q) {q : Nat} (hq : q / 512 < blocks) :
    fileByte disk' inode q =
      if offset ≤ q ∧ q < offset + data.length then data.getD (q - offset) 0
      else fileByte disk inode q := by
  rw [hBytes q hq]
  by_cases hSame : q / 512 = offset / 512
  · have hIff : (offset % 512 ≤ q % 512 ∧ q % 512 < offset % 512 + data.length) ↔
        (offset ≤ q ∧ q < offset + data.length) := by omega
    rw [if_pos hSame, copyInto]
    by_cases hIn : offset ≤ q ∧ q < offset + data.length
    · rw [if_pos (hIff.mpr hIn), if_pos hIn,
        show q % 512 - offset % 512 = q - offset by omega]
    · rw [if_neg (fun hAt => hIn (hIff.mp hAt)), if_neg hIn, fileByte, hSame]
      exact hBuf _ (by omega) (by omega)
  · rw [if_neg hSame, if_neg (by omega)]

theorem fileContent_overwrite {inode' : Inode}
    (hSize : inode'.size = max inode.size (offset + data.length)) (hOffset : offset ≤ inode.size)
    (hByte : ∀ q < inode'.size, fileByte disk' inode' q =
      if offset ≤ q ∧ q < offset + data.length then data.getD (q - offset) 0
      else fileByte disk inode q) :
    fileContent disk' inode' = overwrite (fileContent disk inode) offset data := by
  apply map_range_eq_overwrite hSize hOffset
  · intro i hi
    rw [Nat.zero_add, hByte _ (by omega), if_pos (by omega), Nat.add_sub_cancel_left,
      List.getD_eq_getElem?_getD, List.getElem?_eq_getElem hi, Option.getD_some]
  · intro i hi hOut
    rw [Nat.zero_add, hByte _ (by omega), if_neg (by omega)]

/-- The block of the next byte is used already or is the first unused one. -/
theorem blocksOf_max (hChunk : 0 < chunk) (hBlock : offset % 512 + chunk ≤ 512) :
    blocksOf (max size (offset + chunk)) = max (blocksOf size) (offset / 512 + 1) := by
  simp only [blocksOf]
  omega

/-- The buffer of a chunk holds the old block unless all of it is replaced. -/
theorem chunkBuffer (hReliable : s.mount.Reliable) (blk start chunk : Nat) :
    ∃ buf : Sector,
      (if start > 0 ∨ chunk < 512 then s.readSectors blk else .ok (fun _ => 0)) = .ok buf ∧
      ∀ i < 512, i < start ∨ start + chunk ≤ i → buf i = s.disk blk i := by
  by_cases hPartial : start > 0 ∨ chunk < 512
  · exact ⟨s.disk blk, by rw [if_pos hPartial, s.readSectors_eq hReliable], fun _ _ _ => rfl⟩
  · exact ⟨fun _ => 0, by rw [if_neg hPartial], fun i hi hOut => by omega⟩

theorem writeChunk_spec {src : List UInt8}
    (h : s.OpenedAt total full ino p.inode (needed (blocksOf p.inode.size)))
    (hReliable : s.mount.Reliable) (hBound : p.inode.size ≤ 138 * 512)
    (hOffset : p.offset ≤ p.inode.size) (hInside : p.offset < 138 * 512) (hSrc : src.length ≠ 0)
    (hChunk : min (512 - p.offset % 512) src.length = chunk)
    (hRoom : blockCost (blocksOf (max p.inode.size (p.offset + chunk))) ≤
      s.freeBelow total + blockCost (blocksOf p.inode.size)) :
    ∃ p' s', writeChunk s p src = (.ok chunk, p', s') ∧
      Wrote total full ino s p s' p' (src.take chunk) := by
  have hBlocks : blocksOf (max p.inode.size (p.offset + chunk)) =
      max (blocksOf p.inode.size) (p.offset / 512 + 1) :=
    blocksOf_max (by omega) (by omega)
  have hLogical : p.offset / 512 ≤ blocksOf p.inode.size ∧ blocksOf p.inode.size ≤ 138 := by
    unfold blocksOf
    omega
  have hTake : (src.take chunk).length = chunk := List.length_take_of_le (by omega)
  obtain ⟨blk, inode', dirty', s₁, hMap, hMapped⟩ :=
    Volume.kfsMapOrAllocBlock_spec h hReliable hLogical.2 hLogical.1 (by omega) p.dirty
      (hBlocks ▸ hRoom)
  have hReliable₁ : s₁.mount.Reliable := by rw [hMapped.within.mount]; exact hReliable
  have hUsed : slotBlock s₁.disk inode' (p.offset / 512) ≠ 0 :=
    (hMapped.opened.shape _).mpr (.inl (by omega))
  obtain ⟨buf, hBuf, hBufBytes⟩ := chunkBuffer hReliable₁ blk (p.offset % 512) chunk
  obtain ⟨hOpened, hWithin, hBytes⟩ := hMapped.opened.putData (by omega) hUsed
    (copyInto buf (p.offset % 512) (src.take chunk))
  rw [hMapped.slot] at hOpened hWithin hBytes
  have hInode :
      (if p.offset + chunk > inode'.size then { inode' with size := u32 (p.offset + chunk) }
      else inode') = { inode' with size := max p.inode.size (p.offset + chunk) } := by
    rw [hMapped.size, u32_of_lt (by omega)]
    split
    · rw [max_eq_right (by omega)]
    · rw [max_eq_left (by omega), ← hMapped.size]
  refine ⟨⟨{ inode' with size := max p.inode.size (p.offset + chunk) },
    dirty' || decide (p.offset + chunk > inode'.size), p.offset + chunk, p.totalWritten + chunk⟩,
    _, ?_, ⟨?_, hMapped.within.trans hWithin, ?_, ?_, ?_, hMapped.type, ?_, ?_, ?_⟩⟩
  · have hBlk : u32 (p.offset / 512) = p.offset / 512 := u32_of_lt (by omega)
    have hNext : u64 (p.offset + chunk) = p.offset + chunk := u64_of_lt (by omega)
    simp only [writeChunk, hBlk, hMap, hChunk, hBuf, s₁.writeSectors_eq hReliable₁, hNext,
      decide_eq_true_eq, hInode]
  · rw [hBlocks]
    exact hOpened.sameBlocks rfl rfl (hOpened.fits.setSize (by omega))
  · rw [hTake]
  · rw [hTake]
  · rw [hTake]
  · apply fileContent_overwrite (by rw [hTake]) hOffset
    intro q hq
    have hq' : q / 512 < max (blocksOf p.inode.size) (p.offset / 512 + 1) := by
      rw [← hBlocks]
      exact lt_blocksOf hq
    have hByte := fileByte_copyInto (by rw [hTake]; omega)
      (by rw [hTake, hMapped.slot]; exact hBufBytes)
      (fun q hq => hBytes q ((hMapped.opened.shape _).mpr (.inl hq))) hq'
    refine hByte.trans ?_
    split
    · rfl
    · rename_i hOut
      apply hMapped.bytes
      change q < max p.inode.size (p.offset + chunk) at hq
      unfold blocksOf
      omega
  · rw [hBlocks]
    exact hMapped.free
  · intro hClean
    have hParts : dirty' = false ∧ ¬p.offset + chunk > inode'.size := by simpa using hClean
    obtain ⟨hDirty, hSame⟩ := hMapped.clean hParts.1
    subst hSame
    refine ⟨hDirty, ?_⟩
    rw [max_eq_left (by omega)]

/-- Past the last block that an inode can map, a turn of the loop fails. -/
theorem writeChunk_full (h : p.offset = 138 * 512) (src : List UInt8) :
    writeChunk s p src = (.error (-efbig), p, s) := by
  have hBlk : u32 (p.offset / 512) = 138 := by
    rw [h]
    rfl
  simp [writeChunk, hBlk, kfsMapOrAllocBlock]

theorem blocksOf_mono {a b : Nat} (h : a ≤ b) : blocksOf a ≤ blocksOf b := by
  unfold blocksOf
  omega

/-- The end of `kfs_vnode_write`: the inode goes to disk if it has changed. -/
def finishWrite (s : Volume) (ino : Nat) (p : WriteProgress) : Except Int Nat × Nat × Volume :=
  if p.dirty then
    match kfsWriteInode s ino p.inode with
    | (.error err, s) => (.error err, p.offset, s)
    | (.ok _, s) => (.ok p.totalWritten, p.offset, s)
  else (.ok p.totalWritten, p.offset, s)

theorem Wrote.finish {s₁ : Volume}
    (h : Wrote total full ino s ⟨s.table ino, false, offset, 0⟩ s₁ p data)
    (hReliable : s.mount.Reliable) (hBound : p.inode.size ≤ 138 * 512) :
    ∃ s', finishWrite s₁ ino p = (.ok data.length, offset + data.length, s') ∧
      s'.ConsistentAt total full ∧ s.Frame s' [ino] ∧ s'.inodeBitmap = s.inodeBitmap ∧
      s'.freeBelow total = s₁.freeBelow total ∧
      s'.files = update s.files ino
        (some ⟨(s.table ino).type, overwrite (fileContent s.disk (s.table ino)) offset data⟩) := by
  have hReliable₁ : s₁.mount.Reliable := by rw [h.within.mount]; exact hReliable
  have hOthers : update s₁.files ino
      (some ⟨p.inode.type, fileContent s₁.disk p.inode⟩) =
        update s.files ino
          (some ⟨(s.table ino).type,
            overwrite (fileContent s.disk (s.table ino)) offset data⟩) := by
    rw [h.type, h.content]
    funext i
    by_cases hi : i = ino
    · subst hi
      simp
    · rw [update_of_ne hi, update_of_ne hi, h.within.files i hi]
  have hWritten : p.totalWritten = data.length := h.written.trans (Nat.zero_add _)
  have hEnd : p.offset = offset + data.length := h.offset
  cases hDirty : p.dirty with
  | true =>
    obtain ⟨hClosed, hFiles, hFrame⟩ := h.opened.close hBound
    refine ⟨_, ?_, hClosed, h.within.frame.trans_same hFrame, h.within.inodeBitmap, rfl,
      hFiles.trans hOthers⟩
    rw [finishWrite, hDirty, if_pos rfl, kfsWriteInode_eq h.opened.mounted hReliable₁
      (Volume.live_lt h.opened.live), hWritten, hEnd]
  | false =>
    -- nothing was allocated and the size did not change
    have hSame : p.inode = s₁.table ino := by
      rw [(h.clean hDirty).2, h.within.table]
    have hOpened := h.opened
    rw [hSame] at hOpened hBound hOthers
    refine ⟨s₁, ?_, hOpened.settle hBound, h.within.frame, h.within.inodeBitmap, rfl, ?_⟩
    · rw [finishWrite, hDirty, if_neg Bool.false_ne_true, hWritten, hEnd]
    · rw [← hOthers, eq_update_iff]
      simp [Volume.files, hOpened.live]

/-- `kfs_vnode_write` up to its loop. -/
theorem kfsVnodeWrite_eq (hConsistent : s.ConsistentAt total full) (hReliable : s.mount.Reliable)
    (hLive : s.live ino = true) {f : OpenFile} (hWritable : f.flags &&& (oWronly ||| oRdwr) ≠ 0)
    (hData : data.length ≠ 0)
    (hStart : offset = if f.flags &&& oAppend ≠ 0 then (s.table ino).size else f.offset) :
    kfsVnodeWrite s ino f data =
      match writeLoop data.length s ⟨s.table ino, false, offset, 0⟩ data with
      | (.error err, s) => (.error err, offset, s)
      | (.ok p, s) => finishWrite s ino p := by
  rw [kfsVnodeWrite, if_neg hWritable, if_neg hData,
    kfsReadInode_eq hConsistent.mounted hReliable hLive]
  simp only [← hStart]
  rfl

end Write

end Kryos.Fs
