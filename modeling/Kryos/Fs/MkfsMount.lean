import Kryos.Fs.DirectoryCreate
import Kryos.Fs.MkfsLayout

/-! Mounting an image of `mkfs_kfs.py`: the volume that `kfs_mount` makes of it
holds the files that the script stored, and no block is held twice or lost. -/
namespace Kryos.Fs

open Bitmap Layout LittleEndian Slots

variable {blks i b k ino : Nat} {f : MkfsInput}

/-- A device without faults, a heap that serves every request but the empty one,
and no root mounted yet. -/
structure Device.Works (d : Device) : Prop where
  reads : ∀ sector, d.readFault sector = none
  writes : ∀ sector, d.writeFault sector = none
  heap : ∀ size, size ≠ 0 → d.heapFails size = false
  vacant : d.rootMounted = false

/-- The first blocks of the device are those of the image. -/
def Device.Carries (d : Device) (img : Bytes) : Prop :=
  ∀ b < 32768, ∀ i < 512, d.disk b i = img (b * 512 + i)

/-- A bitmap as `kfs_load_bitmaps` leaves it in its buffer. -/
def Device.bitmap (d : Device) (start blks : Nat) : Bytes :=
  fun i => if i < blks * 512 then d.disk (start + i / 512) (i % 512) else d.memory i

/-- The volume that `kfs_mount` makes of an image of the script. -/
def Device.mounted (d : Device) : Volume := d.volume mkfsSuperblock (d.bitmap 65 8) (d.bitmap 73 1)

section Reading

variable {d : Device} {img : Bytes} {files : List Stored}

theorem Device.mounted_reliable (hWorks : d.Works) : d.mounted.mount.Reliable :=
  ⟨hWorks.reads, hWorks.writes⟩

theorem Device.mounted_heapServes (hWorks : d.Works) : d.mounted.mount.HeapServes := hWorks.heap

theorem Device.loadBitmap_eq (hWorks : d.Works) (start : Nat) (hBlks : bitmapBytes blks ≠ 0) :
    loadBitmap d start blks = .ok (d.bitmap start blks) := by
  have hHeap : d.kmalloc (bitmapBytes blks) = true := by
    simp [Device.kmalloc, hBlks, hWorks.heap _ hBlks]
  have hNone : (List.range blks).findSome? (fun i => d.readFault (start + i)) = none := by
    simp [List.findSome?_eq_none_iff, hWorks.reads]
  rw [loadBitmap, hHeap, Device.readSectors, hNone]
  rfl

theorem decodeSuperblock_image {buf : Sector} (h : ∀ i < 512, buf i = superblockSector i) :
    decodeSuperblock buf = mkfsSuperblock := by
  have hWord (k : Nat) (hk : k < 11) : readWord buf k = mkfsSuperblock.word k % 2 ^ 32 := by
    have hSame : readWord buf k = readWord superblockSector k := by
      apply readLe_congr
      intro i hi
      exact h _ (by omega)
    rw [hSame, superblockSector, readWord_storeWords, if_pos (by omega), Nat.sub_zero]
  rw [decodeSuperblock, hWord 0 (by decide), hWord 1 (by decide), hWord 2 (by decide),
    hWord 3 (by decide), hWord 4 (by decide), hWord 5 (by decide), hWord 6 (by decide),
    hWord 7 (by decide), hWord 8 (by decide), hWord 9 (by decide), hWord 10 (by decide)]
  rfl

theorem Device.Carries.superblock (hImg : d.Carries img) (h : Laid img files) (hi : i < 512) :
    d.disk 64 i = superblockSector i := (hImg 64 (by decide) i hi).trans (h.superblock i hi)

/-- `kfs_mount` accepts the image. -/
theorem kfsMount_laid (h : Laid img files) (hWorks : d.Works) (hImg : d.Carries img) :
    kfsMount d = .ok d.mounted := by
  have hHeap {size : Nat} (hSize : size ≠ 0) : d.kmalloc size = true := by
    simp [Device.kmalloc, hSize, hWorks.heap size hSize]
  have hSb : decodeSuperblock (d.disk kfsSuperblockBlk) = mkfsSuperblock :=
    decodeSuperblock_image fun _ hi => hImg.superblock h hi
  have hRead : kfsReadSuperblock d = .ok mkfsSuperblock := by
    rw [kfsReadSuperblock, hHeap (by decide), hWorks.reads, hSb]
    rfl
  exact kfsMount_eq_ok.mpr ⟨mkfsSuperblock, _, _, hRead, by decide, by decide,
    Device.loadBitmap_eq hWorks 65 (by decide), Device.loadBitmap_eq hWorks 73 (by decide),
    hHeap (by decide), hWorks.vacant, rfl⟩

theorem Device.Carries.isSet_bitmap (hImg : d.Carries img) {start : Nat}
    (hStart : start + blks ≤ 32768) (hi : i / 8 < blks * 512) :
    isSet (d.bitmap start blks) i = isSet (fromBlock img start) i := by
  apply isSet_congr
  have hByte : (start + i / 8 / 512) * 512 + i / 8 % 512 = start * 512 + i / 8 := by omega
  rw [Device.bitmap, if_pos hi, hImg _ (by omega) _ (by omega), hByte]
  rfl

theorem Device.Carries.readWord_eq (hImg : d.Carries img) (hb : b < 32768) (hk : k < 128) :
    readWord (d.disk b) k = readWord (fromBlock img b) k := by
  apply readLe_congr
  intro i hi
  exact hImg b hb _ (by omega)

theorem Device.Carries.table_eq (hImg : d.Carries img) (hIno : ino < 128) :
    d.mounted.table ino = inodeAt img ino := by
  rw [Volume.table, if_pos hIno, inodeAt, decodeInode, decodeInode]
  apply Inode.ofWords_congr
  intro k hk
  exact hImg.readWord_eq (by omega) (by omega)

end Reading

section Blocks

variable {d : Device} {img : Bytes} {base : Nat} {e : Stored}

/-- Where the block of a slot lies behind the first block of its file: the indirect
block comes last. -/
def Stored.place (e : Stored) (k : Nat) : Nat := if k = 138 then e.blocks else k

theorem Stored.place_lt (hk : needed e.blocks k) (hSmall : e.blocks ≤ 138) :
    e.place k < e.cost := by
  rw [Stored.place, Stored.cost, blockCost]
  rcases hk with hLt | ⟨rfl, hMany⟩
  · rw [if_neg (by omega)]
    omega
  · rw [if_pos rfl, if_pos hMany]
    omega

section

variable (h : StoredAt img base e) (hImg : d.Carries img)

include h hImg

theorem StoredAt.slotBlock_used (hHi : base + e.cost ≤ 32768) (hk : needed e.blocks k) :
    slotBlock d.disk (e.inode base) k = base + e.place k := by
  have hSmall := h.small
  rw [Stored.place]
  rcases hk with hLt | ⟨rfl, hMany⟩
  · rw [if_neg (by omega), slotBlock]
    by_cases hDirect : k < 10
    · rw [dif_pos hDirect]
      exact if_pos hLt
    · have hMany : 10 < e.blocks := by omega
      have hCost : e.cost = e.blocks + 1 := by rw [Stored.cost, blockCost, if_pos hMany]
      have hIndirect : (e.inode base).indirect = base + e.blocks := if_pos hMany
      rw [dif_neg hDirect, if_pos (by omega), hIndirect, if_neg (by omega),
        hImg.readWord_eq (by omega) (by omega), h.indirect hMany _ (by omega), if_pos (by omega)]
      omega
  · exact if_pos hMany

theorem StoredAt.slotBlock_unused (hHi : base + e.cost ≤ 32768) (hk : ¬needed e.blocks k) :
    slotBlock d.disk (e.inode base) k = 0 := by
  simp only [needed, not_or, not_and] at hk
  obtain ⟨hLe, hFew⟩ := hk
  rw [slotBlock]
  split
  · exact if_neg hLe
  split
  · by_cases hMany : 10 < e.blocks
    · have hCost : e.cost = e.blocks + 1 := by rw [Stored.cost, blockCost, if_pos hMany]
      have hIndirect : (e.inode base).indirect = base + e.blocks := if_pos hMany
      rw [hIndirect, if_neg (by omega), hImg.readWord_eq (by omega) (by omega),
        h.indirect hMany _ (by omega), if_neg (by omega)]
    · exact if_pos (if_neg hMany)
  split
  · rename_i hLast
    exact if_neg (hFew hLast)
  · rfl

theorem StoredAt.shape (hLo : 90 ≤ base) (hHi : base + e.cost ≤ 32768) :
    Shape d.disk (e.inode base) (needed e.blocks) := by
  intro k
  by_cases hk : needed e.blocks k
  · rw [h.slotBlock_used hImg hHi hk]
    exact iff_of_true (by omega) hk
  · rw [h.slotBlock_unused hImg hHi hk]
    exact iff_of_false (fun hNe => hNe rfl) hk

theorem StoredAt.content (hHi : base + e.cost ≤ 32768) :
    fileContent d.disk (e.inode base) = e.data := by
  have hSize : (e.inode base).size = e.data.length := rfl
  apply List.ext_getElem
  · rw [length_fileContent, hSize]
  · intro p hp hData
    rw [length_fileContent, hSize] at hp
    have hBlock : p / 512 < e.blocks := lt_blocksOf hp
    have hSmall := h.small
    have hCost : e.blocks ≤ e.cost := Nat.le_add_right _ _
    have hByte : (base + p / 512) * 512 + p % 512 = base * 512 + p := by omega
    simp only [fileContent, fileSlice, List.getElem_map, List.getElem_range, Nat.zero_add, fileByte]
    rw [h.slotBlock_used hImg hHi (.inl hBlock), Stored.place, if_neg (by omega),
      hImg _ (by omega) _ (by omega), hByte, h.data p (by omega), List.getD_eq_getElem _ _ hp]

end

end Blocks

section Mounted

variable {d : Device} {img : Bytes} {files : List Stored} {base : Nat} {e : Stored}

section

variable (h : Laid img files)

include h

theorem Laid.block_used (hImg : d.Carries img) (hb : b < 32768) :
    isSet d.mounted.blockBitmap b = decide (b < 90 + total Stored.cost files) :=
  (hImg.isSet_bitmap (by decide) (by omega)).trans (h.blockBits b hb)

theorem Laid.live_eq (hImg : d.Carries img) (i : Nat) :
    d.mounted.live i = decide (i ∈ files.map Stored.ino) := by
  by_cases hi : i < 128
  · have hBit : isSet d.mounted.inodeBitmap i = isSet (fromBlock img 73) i :=
      hImg.isSet_bitmap (by decide) (by omega)
    rw [Volume.live, hBit, h.inodeBits i hi, decide_eq_true hi, Bool.true_and]
  · have hNot : i ∉ files.map Stored.ino := by
      intro hMem
      obtain ⟨e, he, rfl⟩ := List.mem_map.mp hMem
      exact hi (h.bound e he)
    simp [Volume.live, hi, hNot]

theorem Laid.storedAt (he : (base, e) ∈ placed Stored.cost 90 files) :
    StoredAt img base e := h.stored _ he

theorem Laid.placed_range (he : (base, e) ∈ placed Stored.cost 90 files) :
    90 ≤ base ∧ base + e.cost ≤ 90 + total Stored.cost files ∧ base + e.cost ≤ 32768 := by
  have hBounds := placed_bounds Stored.cost he
  exact ⟨hBounds.1, hBounds.2, hBounds.2.trans h.room⟩

theorem Laid.live_of_placed (hImg : d.Carries img) (he : (base, e) ∈ placed Stored.cost 90 files) :
    d.mounted.live e.ino = true ∧ d.mounted.table e.ino = e.inode base := by
  have hMem := mem_of_placed Stored.cost he
  refine ⟨?_, ?_⟩
  · rw [h.live_eq hImg]
    exact decide_eq_true (List.mem_map_of_mem hMem)
  · rw [hImg.table_eq (h.bound e hMem)]
    exact (h.storedAt he).inode

theorem Laid.placed_of_live (hImg : d.Carries img) (hLive : d.mounted.live i = true) :
    ∃ base e, (base, e) ∈ placed Stored.cost 90 files ∧ e.ino = i := by
  rw [h.live_eq hImg] at hLive
  obtain ⟨e, he, hIno⟩ := List.mem_map.mp (of_decide_eq_true hLive)
  obtain ⟨base, hPlaced⟩ := exists_placed Stored.cost 90 he
  exact ⟨base, e, hPlaced, hIno⟩

theorem Laid.slot_cases (hImg : d.Carries img) {x : Nat × Nat}
    (hUsed : d.mounted.slots d.mounted.table x ≠ 0) :
    ∃ base e, (base, e) ∈ placed Stored.cost 90 files ∧ e.ino = x.1 ∧ needed e.blocks x.2 ∧
      d.mounted.slots d.mounted.table x = base + e.place x.2 := by
  have hLive : d.mounted.live x.1 = true := by
    by_contra hDead
    exact hUsed (if_neg hDead)
  obtain ⟨base, e, hPlaced, hIno⟩ := h.placed_of_live hImg hLive
  obtain ⟨_, hTable⟩ := h.live_of_placed hImg hPlaced
  obtain ⟨hLo, _, hHi⟩ := h.placed_range hPlaced
  have hSlot : d.mounted.slots d.mounted.table x = slotBlock d.disk (e.inode base) x.2 := by
    rw [← hTable, hIno]
    exact if_pos hLive
  rw [hSlot] at hUsed ⊢
  have hNeeded := ((h.storedAt hPlaced).shape hImg hLo hHi x.2).mp hUsed
  exact ⟨base, e, hPlaced, hIno, hNeeded, (h.storedAt hPlaced).slotBlock_used hImg hHi hNeeded⟩

end

theorem Stored.place_injective {l : Nat} (hk : needed e.blocks k) (hl : needed e.blocks l)
    (hSmall : e.blocks ≤ 138) (hEq : e.place k = e.place l) : k = l := by
  rw [Stored.place, Stored.place] at hEq
  rcases hk with hk | ⟨rfl, _⟩ <;> rcases hl with hl | ⟨rfl, _⟩
  · rwa [if_neg (by omega), if_neg (by omega)] at hEq
  · rw [if_neg (by omega), if_pos rfl] at hEq
    omega
  · rw [if_pos rfl, if_neg (by omega)] at hEq
    omega
  · rfl

/-- No block is in two slots, for the files lie one after the other. -/
theorem Laid.slots_exclusive (h : Laid img files) (hImg : d.Carries img) :
    Exclusive 90 32768 (isSet d.mounted.blockBitmap) (d.mounted.slots d.mounted.table) := by
  have hRange : ∀ x, d.mounted.slots d.mounted.table x ≠ 0 →
      90 ≤ d.mounted.slots d.mounted.table x ∧
        d.mounted.slots d.mounted.table x < 90 + total Stored.cost files := by
    intro x hx
    obtain ⟨base, e, hPlaced, _, hNeeded, hSlot⟩ := h.slot_cases hImg hx
    have hBounds := h.placed_range hPlaced
    have hPlace := Stored.place_lt hNeeded (h.storedAt hPlaced).small
    omega
  refine ⟨fun x hx => ?_, fun x hx => ?_, fun x y hx hEq => ?_⟩
  · exact ⟨(hRange x hx).1, (hRange x hx).2.trans_le h.room⟩
  · rw [h.block_used hImg ((hRange x hx).2.trans_le h.room)]
    exact decide_eq_true (hRange x hx).2
  · obtain ⟨base, e, hPlaced, hIno, hNeeded, hSlot⟩ := h.slot_cases hImg hx
    obtain ⟨base', e', hPlaced', hIno', hNeeded', hSlot'⟩ := h.slot_cases hImg (hEq ▸ hx)
    have hPlace := Stored.place_lt hNeeded (h.storedAt hPlaced).small
    have hPlace' := Stored.place_lt hNeeded' (h.storedAt hPlaced').small
    rcases placed_apart Stored.cost hPlaced hPlaced' with ⟨rfl, rfl⟩ | hBefore | hAfter
    · have hSame := Stored.place_injective hNeeded hNeeded' (h.storedAt hPlaced).small (by omega)
      exact Prod.ext (hIno.symm.trans hIno') hSame
    · omega
    · omega

/-- Every marked block is in a slot, for the files lie without gaps. -/
theorem Laid.slots_covered (h : Laid img files) (hImg : d.Carries img) :
    Covered 90 32768 (isSet d.mounted.blockBitmap) (d.mounted.slots d.mounted.table) := by
  intro b hLo hHi hUsed
  rw [h.block_used hImg hHi, decide_eq_true_eq] at hUsed
  obtain ⟨base, e, hPlaced, hFrom, hTo⟩ := exists_placed_at Stored.cost hLo hUsed
  obtain ⟨hLive, hTable⟩ := h.live_of_placed hImg hPlaced
  obtain ⟨_, _, hEnd⟩ := h.placed_range hPlaced
  have hSmall := (h.storedAt hPlaced).small
  have hSlot (k : Nat) (hk : needed e.blocks k) :
      d.mounted.slots d.mounted.table (e.ino, k) = base + e.place k := by
    rw [← (h.storedAt hPlaced).slotBlock_used hImg hEnd hk, ← hTable]
    exact if_pos hLive
  rw [Stored.cost, blockCost] at hTo
  by_cases hData : b - base < e.blocks
  · refine ⟨(e.ino, b - base), ?_⟩
    rw [hSlot _ (.inl hData), Stored.place, if_neg (by omega)]
    omega
  · have hMany : 10 < e.blocks := by
      by_contra hFew
      rw [if_neg hFew] at hTo
      omega
    refine ⟨(e.ino, 138), ?_⟩
    rw [if_pos hMany] at hTo
    rw [hSlot _ (.inr ⟨rfl, hMany⟩), Stored.place, if_pos rfl]
    omega

/-- The mounted volume is consistent, with every block accounted for. -/
theorem Laid.consistent (h : Laid img files) (hImg : d.Carries img) :
    d.mounted.Consistent True where
  mounted := by
    refine ⟨rfl, le_refl _, fun i hi => hImg.superblock h hi, fun i hi => ?_, fun i hi => ?_, ?_⟩
    · exact (if_pos hi).symm
    · have hFirst : 73 + i / 512 = 73 ∧ i % 512 = i := by omega
      change d.disk 73 i = if i < 1 * 512 then d.disk (73 + i / 512) (i % 512) else _
      rw [hFirst.1, hFirst.2, if_pos (by omega)]
    · intro b hb
      rw [h.block_used hImg (by omega)]
      exact decide_eq_true (by omega)
  exclusive := h.slots_exclusive hImg
  sized := by
    intro i hi
    obtain ⟨base, e, hPlaced, rfl⟩ := h.placed_of_live hImg hi
    obtain ⟨hLo, _, hHi⟩ := h.placed_range hPlaced
    rw [(h.live_of_placed hImg hPlaced).2]
    have hSmall := (h.storedAt hPlaced).small
    refine ⟨?_, (h.storedAt hPlaced).shape hImg hLo hHi⟩
    change e.data.length ≤ 138 * 512
    rw [Stored.blocks, blocksOf] at hSmall
    omega
  covered := fun _ => h.slots_covered hImg

/-- The files of the mounted volume are those that were stored. -/
theorem Laid.files_eq (h : Laid img files) (hImg : d.Carries img) (he : e ∈ files) :
    d.mounted.files e.ino = some ⟨e.type, e.data⟩ := by
  obtain ⟨base, hPlaced⟩ := exists_placed Stored.cost 90 he
  obtain ⟨hLive, hTable⟩ := h.live_of_placed hImg hPlaced
  obtain ⟨_, _, hHi⟩ := h.placed_range hPlaced
  refine Volume.files_eq_some.mpr ⟨hLive, by rw [hTable]; rfl, ?_⟩
  rw [hTable]
  exact (h.storedAt hPlaced).content hImg hHi

theorem Laid.files_none (h : Laid img files) (hImg : d.Carries img)
    (hi : i ∉ files.map Stored.ino) : d.mounted.files i = none := by
  rw [Volume.files, h.live_eq hImg, decide_eq_false hi]
  rfl

end Mounted

section Root

/-- The name of an input file as a string argument. -/
def MkfsInput.cstring (f : MkfsInput) (h : f.opens = true) : CString where
  bytes := f.name
  nul_free := by
    simp only [MkfsInput.opens, Bool.and_eq_true, Bool.not_eq_true', List.contains_eq_mem,
      decide_eq_false_iff_not] at h
    exact h.1.1.1.1

theorem MkfsInput.cstring_valid (h : f.opens = true) : (f.cstring h).Valid := by
  simp only [MkfsInput.opens, Bool.and_eq_true, bne_iff_ne, decide_eq_true_eq] at h
  exact ⟨h.1.1.1.2, h.1.1.2, not_or.mpr ⟨h.1.2, h.2⟩⟩

/-- The records of the root directory, as they are read. -/
def rootEnts : Nat → List MkfsInput → List KfsDirent
  | _, [] => []
  | ino, f :: rest => ⟨ino, reclenOf f.name.length, kfsTypeFile, f.name⟩ :: rootEnts (ino + 1) rest

/-- The script writes a record as `kfs_vnode_create` does. -/
theorem mkfsDirent_eq (h : f.opens = true) (hIno : ino < 128) :
    mkfsDirent ino f.name =
      (newRecord ino vnodeTypeFile (f.cstring h) (f.cstring_valid h) hIno).bytes := by
  have hReclen : reclenOf f.name.length = (f.name.length + 11) / 4 * 4 :=
    reclenOf_eq (f.cstring_valid h).length_le
  have hLength : (4 + 2 + 1 + (f.name ++ [(0 : UInt8)]).length + 3) / 4 * 4 =
      (f.name.length + 11) / 4 * 4 := by
    rw [List.length_append, List.length_singleton]
    omega
  have hPad : (f.name.length + 11) / 4 * 4 - 7 - f.name.length =
      (f.name.length + 11) / 4 * 4 - (4 + 2 + 1 + (f.name ++ [(0 : UInt8)]).length) + 1 := by
    rw [List.length_append, List.length_singleton]
    omega
  rw [newRecord_bytes, direntRecord, mkfsDirent]
  change _ =
    bytesOf ino 4 ++ bytesOf (reclenOf f.name.length) 2 ++ bytesOf kfsTypeFile 1 ++ f.name ++ _
  rw [hLength, show (f.cstring h).bytes = f.name from rfl, hReclen, hPad, List.replicate_succ]
  simp only [List.append_assoc, List.cons_append, List.nil_append]

theorem exists_rootRecords {inputs : List MkfsInput} {ino : Nat}
    (hOpens : ∀ f ∈ inputs, f.opens = true) (hIno : ino + inputs.length ≤ 128) :
    ∃ records : List Record, encodeDir records = rootDirents ino inputs ∧
      records.map Record.ent = rootEnts ino inputs := by
  induction inputs generalizing ino with
  | nil => exact ⟨[], rfl, rfl⟩
  | cons f rest ih =>
    rw [List.length_cons] at hIno
    have hf := hOpens f List.mem_cons_self
    obtain ⟨records, hBytes, hEnts⟩ := @ih (ino + 1)
      (fun g hg => hOpens g (List.mem_cons_of_mem _ hg)) (by omega)
    have hHere : ino < 128 := by omega
    refine ⟨newRecord ino vnodeTypeFile (f.cstring hf)
      (f.cstring_valid hf) hHere :: records, ?_, ?_⟩
    · rw [encodeDir_cons, hBytes, rootDirents, mkfsDirent_eq hf hHere]
    · rw [List.map_cons, hEnts, newRecord_ent, rootEnts]
      rfl

/-- What `kfs_mount` makes of an image of the script. -/
structure MkfsVolume (inputs : List MkfsInput) (s : Volume) (records : List Record) : Prop where
  consistent : s.Consistent True
  root : s.Holds 0 records
  ents : records.map Record.ent = rootEnts 1 inputs
  stored : ∀ e ∈ storedInputs 1 inputs, s.files e.ino = some ⟨kfsTypeFile, e.data⟩
  others : ∀ i, i ≠ 0 → i ∉ (storedInputs 1 inputs).map Stored.ino → s.files i = none

theorem mkfs_mounts {inputs : List MkfsInput} {img : Bytes} {d : Device}
    (hRun : mkfs inputs = .ok img) (hWorks : d.Works) (hImg : d.Carries img) :
    kfsMount d = .ok d.mounted ∧ ∃ records, MkfsVolume inputs d.mounted records := by
  obtain ⟨hLaid, hOpens, hCount, _⟩ := mkfs_laid hRun
  obtain ⟨records, hBytes, hEnts⟩ := @exists_rootRecords inputs 1 hOpens (by omega)
  refine ⟨kfsMount_laid hLaid hWorks hImg, records, hLaid.consistent hImg, ?_, hEnts, ?_, ?_⟩
  · have hRoot := @Laid.files_eq d img _ ⟨0, kfsTypeDir, rootDirents 1 inputs⟩ hLaid hImg
      (by simp [mkfsFiles])
    rw [Volume.Holds, hBytes]
    exact hRoot
  · intro e he
    rw [hLaid.files_eq hImg (List.mem_append_left _ he), (storedInputs_ino he).2]
  · intro i hi hOther
    refine hLaid.files_none hImg ?_
    rw [mkfsFiles, List.map_append, List.mem_append]
    simpa [hi] using hOther

variable {inputs : List MkfsInput}

theorem mem_rootEnts {ino : Nat} {e : KfsDirent} (h : e ∈ rootEnts ino inputs) :
    ino ≤ e.inode ∧ (∃ f ∈ inputs, e.name = f.name ∧ e.reclen = reclenOf f.name.length) ∧
      ∃ stored ∈ storedInputs ino inputs, stored.ino = e.inode := by
  induction inputs generalizing ino with
  | nil => cases h
  | cons f inputs ih =>
    rcases List.mem_cons.mp h with rfl | hRest
    · exact ⟨Nat.le_refl _, ⟨f, List.mem_cons_self, rfl, rfl⟩, _, List.mem_cons_self, rfl⟩
    · obtain ⟨hIno, ⟨g, hg, hName⟩, stored, hStored, hEq⟩ := ih hRest
      exact ⟨Nat.le_of_succ_le hIno, ⟨g, List.mem_cons_of_mem _ hg, hName⟩, stored,
        List.mem_cons_of_mem _ hStored, hEq⟩

theorem inputs_append (before rest : List MkfsInput) (ino : Nat) :
    storedInputs ino (before ++ rest) =
        storedInputs ino before ++ storedInputs (ino + before.length) rest ∧
      rootEnts ino (before ++ rest) =
        rootEnts ino before ++ rootEnts (ino + before.length) rest := by
  induction before generalizing ino with
  | nil => exact ⟨rfl, rfl⟩
  | cons f before ih =>
    have hRest := ih (ino + 1)
    rw [Nat.add_assoc, Nat.add_comm 1] at hRest
    exact ⟨congrArg (_ :: ·) hRest.1, congrArg (_ :: ·) hRest.2⟩

/-- The first input file with a name is found by it in the mounted image, and reads back. -/
theorem mkfs_reads_back {before after : List MkfsInput} {f : MkfsInput} {img : Bytes} {d : Device}
    (hRun : mkfs (before ++ f :: after) = .ok img) (hWorks : d.Works) (hImg : d.Carries img)
    (hFirst : ∀ g ∈ before, g.name ≠ f.name) (hOpens : f.opens = true) :
    ∃ s v, kfsMount d = .ok s ∧ kfsVnodeLookup s 0 (f.cstring hOpens) = .ok v ∧
      ∀ offset count, offset + count < 2 ^ 64 →
        (kfsVnodeRead s v.ino offset count).1 = .ok ((f.data.drop offset).take count) := by
  obtain ⟨hMount, records, hVolume⟩ := mkfs_mounts hRun hWorks hImg
  have hReliable := Device.mounted_reliable hWorks
  obtain ⟨hStored, hEnts⟩ := inputs_append before (f :: after) 1
  -- the record of the file, with those of the files before it in front
  obtain ⟨front, back, rfl, hFront, hBack⟩ := List.map_eq_append_iff.mp (hVolume.ents.trans hEnts)
  obtain ⟨r, rest, rfl, hEnt, _⟩ := List.map_eq_cons_iff.mp hBack
  have hBefore : ∀ q ∈ front, q.ent.name ≠ r.ent.name := by
    intro q hq
    obtain ⟨_, ⟨g, hg, hSame, _⟩, _⟩ := mem_rootEnts (hFront ▸ List.mem_map_of_mem hq)
    rw [hSame, hEnt]
    exact hFirst g hg
  have hValid := f.cstring_valid hOpens
  refine ⟨_, _, hMount, kfsVnodeLookup_present hVolume.consistent hReliable
    (Device.mounted_heapServes hWorks) hVolume.root hBefore (by rw [hEnt]; rfl) hValid.ne_dot
    (fun h => hValid.ne_dotDot h.2), fun offset count hRange => ?_⟩
  obtain ⟨hLive, _, hContent⟩ := Volume.files_eq_some.mp
    (hVolume.stored ⟨1 + before.length, kfsTypeFile, f.data⟩ (by rw [hStored]; simp [storedInputs]))
  rw [hEnt, kfsVnodeRead_eq hVolume.consistent hReliable hLive hRange, hContent]

end Root

section Samples

/-- A device that holds an image and works. -/
def Device.ofImage (img : Bytes) : Device where
  disk b i := img (b * 512 + i)
  readFault _ := none
  writeFault _ := none
  heapFails _ := false
  memory _ := 0
  rootMounted := false

theorem Device.ofImage_works (img : Bytes) : (Device.ofImage img).Works :=
  ⟨fun _ => rfl, fun _ => rfl, fun _ _ => rfl, rfl⟩

theorem Device.ofImage_carries (img : Bytes) : (Device.ofImage img).Carries img :=
  fun _ _ _ _ => rfl

theorem exists_image {inputs : List MkfsInput} (h : (mkfs inputs).isOk = true) :
    ∃ img, mkfs inputs = .ok img := by
  cases hRun : mkfs inputs with
  | error err =>
    rw [hRun] at h
    cases h
  | ok img => exact ⟨img, rfl⟩

/-- A file `a` of one byte. -/
def shortA : MkfsInput := ⟨[97], [33]⟩

/-- A file `b` of two bytes. -/
def shortB : MkfsInput := ⟨[98], [104, 105]⟩

/-- The second of two files is found and read, as a whole and from its second byte on. -/
theorem mkfs_reads_back_shortB : ∃ img s v, mkfs [shortA, shortB] = .ok img ∧
    kfsMount (Device.ofImage img) = .ok s ∧ kfsVnodeLookup s 0 (shortB.cstring rfl) = .ok v ∧
    (kfsVnodeRead s v.ino 0 512).1 = .ok [104, 105] ∧
      (kfsVnodeRead s v.ino 1 512).1 = .ok [105] := by
  obtain ⟨img, hImg⟩ := @exists_image [shortA, shortB] (by decide +kernel)
  obtain ⟨s, v, hMount, hLookup, hRead⟩ := @mkfs_reads_back [shortA] [] shortB _ _ hImg
    (Device.ofImage_works _) (Device.ofImage_carries _) (by decide) rfl
  exact ⟨img, s, v, hImg, hMount, hLookup, hRead 0 512 (by decide), hRead 1 512 (by decide)⟩

end Samples

end Kryos.Fs
