import Kryos.Base.Layout
import Kryos.Fs.Image
import Kryos.Fs.Mkfs

/-! What an image holds while `mkfs_kfs.py` fills it: the files lie one after
the other from block 90 on, each followed by its indirect block if it has one. -/
namespace Kryos.Fs

open Bitmap Function Layout LittleEndian

variable {offset i j blk base ino : Nat} {data : List UInt8} {img img' : Bytes} {e : Stored}
  {inputs : List MkfsInput}

section Bytes

variable {img : Bytes}

theorem writeAt_outside (h : i < offset ∨ offset + data.length ≤ i) :
    writeAt img offset data i = img i :=
  if_neg (by omega)

theorem writeAt_inside (h : j < data.length) :
    writeAt img offset data (offset + j) = data.getD j 0 := by
  rw [writeAt, if_pos (by omega), Nat.add_sub_cancel_left]

theorem length_packWords (words : List Nat) : (packWords words).length = 4 * words.length := by
  induction words with
  | nil => rfl
  | cons word rest ih =>
    rw [packWords, List.flatMap_cons, List.length_append, length_bytesOf]
    change 4 + (packWords rest).length = _
    rw [ih, List.length_cons]
    omega

theorem getD_packWords {words : List Nat} {k j : Nat} (hk : k < words.length) (hj : j < 4) :
    (packWords words).getD (4 * k + j) 0 = byteOf (words.getD k 0) j := by
  induction words generalizing k with
  | nil => simp at hk
  | cons word rest ih =>
    have hSplit : packWords (word :: rest) = bytesOf word 4 ++ packWords rest := rfl
    rw [hSplit]
    cases k with
    | zero =>
      rw [List.getD_append _ _ _ _ (by rw [length_bytesOf]; omega), Nat.mul_zero, Nat.zero_add,
        getD_bytesOf hj]
      rfl
    | succ k =>
      rw [List.getD_append_right _ _ _ _ (by rw [length_bytesOf]; omega), length_bytesOf,
        show 4 * (k + 1) + j - 4 = 4 * k + j by omega, ih (by simpa using hk)]
      rfl

theorem readWord_packed {bytes : Nat → UInt8} {words : List Nat} {first k : Nat}
    (h : ∀ i < 4 * words.length, bytes (4 * first + i) = (packWords words).getD i 0)
    (hk : k < words.length) : readWord bytes (first + k) = words.getD k 0 % 2 ^ 32 := by
  apply readLe_of_bytes
  intro j hj
  rw [show 4 * (first + k) + j = 4 * first + (4 * k + j) by omega, h _ (by omega),
    getD_packWords hk hj]

theorem markBit_outside {start : Nat} (h : j ≠ start * 512 + i / 8) :
    markBit start img i j = img j := update_of_ne h _ _

theorem fromBlock_markBit (start i : Nat) :
    fromBlock (markBit start img i) start = Bitmap.set (fromBlock img start) i := by
  funext j
  unfold fromBlock markBit Bitmap.set
  by_cases hj : j = i / 8
  · subst hj
    rw [update_self, update_self]
  · rw [update_of_ne hj, update_of_ne (by omega)]

end Bytes

/-- Exactly the blocks before `next` are marked. -/
def BitsBelow (img : Bytes) (next : Nat) : Prop :=
  ∀ b < 32768, isSet (fromBlock img 65) b = decide (b < next)

/-- Outside the block bitmap and the blocks from `lo` to `hi` nothing changed. -/
def KeptOutside (lo hi : Nat) (img img' : Bytes) : Prop :=
  ∀ i, i < 65 * 512 ∨ 73 * 512 ≤ i → i < lo * 512 ∨ hi * 512 ≤ i → img' i = img i

section Allocation

variable {img img' : Bytes} {next : Nat}

theorem isSet_congr {bytes bytes' : Bytes} (h : bytes' (i / 8) = bytes (i / 8)) :
    isSet bytes' i = isSet bytes i := by
  unfold isSet
  rw [h]

theorem BitsBelow.congr (h : BitsBelow img next)
    (hKeep : ∀ i, 65 * 512 ≤ i → i < 73 * 512 → img' i = img i) : BitsBelow img' next := by
  intro b hb
  rw [← h b hb]
  apply isSet_congr
  exact hKeep _ (by omega) (by omega)

theorem allocateBlock_spec (h : BitsBelow img next) (hLo : 90 ≤ next)
    (hRun : allocateBlock img = .ok (blk, img')) :
    blk = next ∧ next < 32768 ∧ BitsBelow img' (next + 1) ∧
      ∀ i, i < 65 * 512 ∨ 73 * 512 ≤ i → img' i = img i := by
  unfold allocateBlock at hRun
  split at hRun
  · cases hRun
  rename_i i hFirst
  obtain ⟨rfl, rfl⟩ := Prod.mk.inj (Except.ok.inj hRun)
  obtain ⟨_, hHi, hClear⟩ := firstClear_some hFirst
  have hMarked := (List.find?_range'_eq_some.mp hFirst).2.2
  have hAbove : ¬ i < next := by simpa [h i hHi] using hClear
  have hNext : i = next := by
    by_contra hNe
    have hBelow := hMarked next hLo (by omega)
    rw [h next (by omega)] at hBelow
    simp at hBelow
  subst hNext
  refine ⟨rfl, hHi, ?_, ?_⟩
  · intro b hb
    rw [setBlockBitmap, fromBlock_markBit, isSet_set, h b hb]
    by_cases hEq : b = i
    · simp [hEq]
    · have hIff : b < i + 1 ↔ b < i := by omega
      simp [hEq, hIff]
  · intro j hj
    exact markBit_outside (by omega)

theorem writeBlock_spec (hRun : writeBlock img blk data = .ok img') :
    data.length ≤ 512 ∧ (∀ j < 512, img' (blk * 512 + j) = data.getD j 0) ∧
      ∀ i, i < blk * 512 ∨ (blk + 1) * 512 ≤ i → img' i = img i := by
  unfold writeBlock at hRun
  split at hRun
  · cases hRun
  obtain rfl := Except.ok.inj hRun
  have hLength : (data ++ List.replicate (512 - data.length) 0).length = 512 := by
    rw [List.length_append, List.length_replicate]
    omega
  refine ⟨by omega, ?_, ?_⟩
  · intro j hj
    rw [writeAt_inside (by omega)]
    by_cases hIn : j < data.length
    · rw [List.getD_append _ _ _ _ hIn]
    · rw [List.getD_append_right _ _ _ _ (by omega), List.getD_eq_default data _ (by omega)]
      simp [List.getD_eq_getElem?_getD, List.getElem?_replicate]
      split <;> rfl
  · intro i hi
    exact writeAt_outside (by omega)

theorem getD_chunkOf (data : List UInt8) (k : Nat) (hj : j < 512) :
    (chunkOf data k).getD j 0 = data.getD (512 * k + j) 0 := by
  simp only [chunkOf, List.getD_eq_getElem?_getD, List.getElem?_take, hj, if_true,
    List.getElem?_drop]

theorem writeChunks_spec {ks blks : List Nat} (h : BitsBelow img next) (hLo : 90 ≤ next)
    (hNext : next ≤ 32768) (hRun : writeChunks data ks img = .ok (blks, img')) :
    blks = List.range' next ks.length ∧ next + ks.length ≤ 32768 ∧
      BitsBelow img' (next + ks.length) ∧
      (∀ m < ks.length, ∀ j < 512,
        img' ((next + m) * 512 + j) = data.getD (512 * ks.getD m 0 + j) 0) ∧
      KeptOutside next (next + ks.length) img img' := by
  induction ks generalizing img next blks with
  | nil =>
    obtain ⟨rfl, rfl⟩ := Prod.mk.inj (Except.ok.inj hRun)
    exact ⟨rfl, hNext, h, by simp, fun _ _ _ => rfl⟩
  | cons k rest ih =>
    rw [writeChunks] at hRun
    split at hRun
    · cases hRun
    rename_i blk img₁ hAlloc
    obtain ⟨rfl, hRoom, hBits, hKept⟩ := allocateBlock_spec h hLo hAlloc
    split at hRun
    · cases hRun
    rename_i img₂ hWrite
    obtain ⟨_, hData, hOutside⟩ := writeBlock_spec hWrite
    split at hRun
    · cases hRun
    rename_i blks' img₃ hRest
    obtain ⟨rfl, rfl⟩ := Prod.mk.inj (Except.ok.inj hRun)
    have hBits₂ : BitsBelow img₂ (blk + 1) := hBits.congr fun i _ _ => hOutside i (by omega)
    obtain ⟨rfl, hEnd, hBits₃, hLater, hKept₃⟩ := ih hBits₂ (by omega) (by omega) hRest
    have hCount : blk + (k :: rest).length = blk + 1 + rest.length := by
      rw [List.length_cons]
      omega
    rw [hCount]
    refine ⟨rfl, hEnd, hBits₃, ?_, ?_⟩
    · intro m hm j hj
      cases m with
      | zero =>
        rw [Nat.add_zero, hKept₃ (blk * 512 + j) (by omega) (by omega), hData j hj,
          getD_chunkOf data k hj]
        rfl
      | succ m =>
        rw [show blk + (m + 1) = blk + 1 + m by omega]
        exact hLater m (by simpa using hm) j hj
    · intro i hBitmap hBlocks
      have hHere : i < blk * 512 ∨ (blk + 1) * 512 ≤ i :=
        hBlocks.imp_right fun hAfter =>
          le_trans (Nat.mul_le_mul_right 512 (Nat.le_add_right _ _)) hAfter
      have hLate : i < (blk + 1) * 512 ∨ (blk + 1 + rest.length) * 512 ≤ i :=
        hBlocks.imp_left fun hBefore =>
          hBefore.trans_le (Nat.mul_le_mul_right 512 (Nat.le_succ blk))
      rw [hKept₃ i hBitmap hLate, hOutside i hHere, hKept i hBitmap]

theorem writeIndirect_spec {n indirect : Nat} (h : BitsBelow img (base + n)) (hLo : 90 ≤ base)
    (hNext : base + n ≤ 32768)
    (hRun : writeIndirect (List.range' base n) img = .ok (indirect, img')) :
    n ≤ 138 ∧ indirect = (if 10 < n then base + n else 0) ∧ base + blockCost n ≤ 32768 ∧
      BitsBelow img' (base + blockCost n) ∧
      (10 < n → ∀ j < 128, readWord (fromBlock img' (base + n)) j =
        if j < n - 10 then base + 10 + j else 0) ∧
      KeptOutside (base + n) (base + blockCost n) img img' := by
  unfold writeIndirect at hRun
  rw [List.length_range'] at hRun
  by_cases hMany : 10 < n
  · have hCost : base + blockCost n = base + n + 1 := by
      rw [blockCost, if_pos hMany]
      omega
    rw [if_pos hMany] at hRun
    split at hRun
    · cases hRun
    rename_i blk img₁ hAlloc
    obtain ⟨rfl, hRoom, hBits, hKept⟩ := allocateBlock_spec h (by omega) hAlloc
    split at hRun
    · cases hRun
    rename_i img₂ hWrite
    obtain ⟨rfl, rfl⟩ := Prod.mk.inj (Except.ok.inj hRun)
    obtain ⟨hFit, hData, hOutside⟩ := writeBlock_spec hWrite
    have hLength : ((List.range' base n).drop 10).length = n - 10 := by simp
    rw [length_packWords, hLength] at hFit
    rw [hCost, if_pos hMany]
    refine ⟨by omega, rfl, by omega, hBits.congr fun i _ _ => hOutside i (by omega), ?_, ?_⟩
    · intro _ j hj
      by_cases hIn : j < n - 10
      · have hWord :=
          @readWord_packed (fromBlock img₂ (base + n)) ((List.range' base n).drop 10) 0 j
          (fun i hi => by simpa [fromBlock] using hData i (by omega)) (by omega)
        rw [Nat.zero_add] at hWord
        rw [hWord, if_pos hIn, List.getD_eq_getElem?_getD, List.getElem?_drop,
          List.getElem?_range' (by omega)]
        simp only [Option.getD_some]
        omega
      · rw [if_neg hIn]
        have hZero : readWord (fromBlock img₂ (base + n)) j = 0 % 256 ^ 4 := by
          apply readLe_of_bytes
          intro i hi
          rw [fromBlock, hData _ (by omega), List.getD_eq_default _ _
            (by rw [length_packWords, hLength]; omega)]
          simp [byteOf]
        simpa using hZero
    · intro i hBitmap hBlocks
      rw [hOutside i (by omega), hKept i hBitmap]
  · rw [if_neg hMany] at hRun
    obtain ⟨rfl, rfl⟩ := Prod.mk.inj (Except.ok.inj hRun)
    have hCost : blockCost n = n := by
      rw [blockCost, if_neg hMany]
      rfl
    rw [hCost]
    exact ⟨by omega, (if_neg hMany).symm, hNext, h, fun hTen => absurd hTen hMany, fun _ _ _ => rfl⟩

end Allocation

/-- A file that the script stores. -/
structure Stored where
  ino : Nat
  type : Nat
  data : List UInt8

namespace Stored

def blocks (e : Stored) : Nat := blocksOf e.data.length

/-- The blocks it takes, the indirect block included. -/
def cost (e : Stored) : Nat := blockCost e.blocks

/-- The inode of a file whose first block is `base`. -/
def inode (e : Stored) (base : Nat) : Inode where
  size := e.data.length
  type := e.type
  direct := fun i => if i.1 < e.blocks then base + i else 0
  indirect := if 10 < e.blocks then base + e.blocks else 0
  linkCount := 1
  pad := fun _ => 0

end Stored

/-- The inode in the table of an image. -/
def inodeAt (img : Bytes) (ino : Nat) : Inode :=
  decodeInode (fromBlock img (74 + ino / 8)) (ino % 8)

/-- The file lies in the image from block `base` on. -/
structure StoredAt (img : Bytes) (base : Nat) (e : Stored) : Prop where
  small : e.blocks ≤ 138
  inode : inodeAt img e.ino = e.inode base
  data : ∀ p < e.blocks * 512, img (base * 512 + p) = e.data.getD p 0
  indirect : 10 < e.blocks → ∀ j < 128, readWord (fromBlock img (base + e.blocks)) j =
    if j < e.blocks - 10 then base + 10 + j else 0

theorem inodeAt_congr
    (h : ∀ j < 64, img' (74 * 512 + ino * 64 + j) = img (74 * 512 + ino * 64 + j)) :
    inodeAt img' ino = inodeAt img ino := by
  have hWord (k : Nat) (hk : k < 16) :
      readWord (fromBlock img' (74 + ino / 8)) (16 * (ino % 8) + k) =
        readWord (fromBlock img (74 + ino / 8)) (16 * (ino % 8) + k) := by
    apply readLe_congr
    intro j hj
    have hAt : (74 + ino / 8) * 512 + (4 * (16 * (ino % 8) + k) + j) =
        74 * 512 + ino * 64 + (4 * k + j) := by omega
    rw [fromBlock, fromBlock, hAt]
    exact h _ (by omega)
  simp only [inodeAt, decodeInode, Inode.ofWords, Inode.mk.injEq]
  refine ⟨hWord 0 (by omega), hWord 1 (by omega), ?_, hWord 12 (by omega), hWord 13 (by omega), ?_⟩
  · funext i
    exact hWord (2 + i) (by omega)
  · funext i
    exact hWord (14 + i) (by omega)

/-- A file stays where it is while its inode and its blocks are left alone. -/
theorem StoredAt.congr (h : StoredAt img base e)
    (hInode : ∀ j < 64, img' (74 * 512 + e.ino * 64 + j) = img (74 * 512 + e.ino * 64 + j))
    (hBlocks : ∀ i, base * 512 ≤ i → i < (base + e.cost) * 512 → img' i = img i) :
    StoredAt img' base e where
  small := h.small
  inode := (inodeAt_congr hInode).trans h.inode
  data := by
    intro p hp
    rw [← h.data p hp]
    apply hBlocks
    · omega
    · have hCost : e.blocks ≤ e.cost := Nat.le_add_right _ _
      omega
  indirect := by
    intro hMany j hj
    rw [← h.indirect hMany j hj]
    apply readLe_congr
    intro i hi
    have hCost : e.cost = e.blocks + 1 := by
      rw [Stored.cost, blockCost, if_pos hMany]
    apply hBlocks
    · omega
    · omega

/-- The image holds these files and nothing else. -/
structure Laid (img : Bytes) (files : List Stored) : Prop where
  superblock : ∀ i < 512, img (64 * 512 + i) = superblockSector i
  blockBits : BitsBelow img (90 + total Stored.cost files)
  inodeBits : ∀ i < 128, isSet (fromBlock img 73) i = decide (i ∈ files.map Stored.ino)
  room : 90 + total Stored.cost files ≤ 32768
  inodes : (files.map Stored.ino).Nodup
  bound : ∀ e ∈ files, e.ino < 128
  stored : ∀ x ∈ placed Stored.cost 90 files, StoredAt img x.1 x.2

section Inodes

variable {img : Bytes} {ino size type indirect : Nat} {direct : List Nat}

theorem length_inodeBytes (hDirect : direct.length = 10) :
    (packWords ([size, type] ++ direct ++ [indirect, 1]) ++ List.replicate 8 (0 : UInt8)).length =
      64 := by
  simp [length_packWords, hDirect]

theorem writeInode_outside (hDirect : direct.length = 10) (hBit : i ≠ 73 * 512 + ino / 8)
    (hRecord : i < 74 * 512 + ino * 64 ∨ 74 * 512 + ino * 64 + 64 ≤ i) :
    writeInode img ino size type direct indirect i = img i := by
  rw [writeInode, setInodeBitmap, markBit_outside hBit]
  apply writeAt_outside
  rwa [length_inodeBytes hDirect]

theorem writeInode_bits (hi : i < 128) :
    isSet (fromBlock (writeInode img ino size type direct indirect) 73) i =
      (decide (i = ino) || isSet (fromBlock img 73) i) := by
  rw [writeInode, setInodeBitmap, fromBlock_markBit, isSet_set]
  congr 1
  apply isSet_congr
  apply writeAt_outside
  omega

theorem inodeAt_writeInode (hIno : ino < 128) (hDirect : direct.length = 10) :
    inodeAt (writeInode img ino size type direct indirect) ino =
      { size := size % 2 ^ 32
        type := type % 2 ^ 32
        direct := fun i => direct.getD i 0 % 2 ^ 32
        indirect := indirect % 2 ^ 32
        linkCount := 1
        pad := fun _ => 0 } := by
  have hByte (j : Nat) (hj : j < 64) :
      writeInode img ino size type direct indirect (74 * 512 + ino * 64 + j) =
        (packWords ([size, type] ++ direct ++ [indirect, 1, 0, 0])).getD j 0 := by
    rw [writeInode, setInodeBitmap, markBit_outside (by omega),
      writeAt_inside (by rw [length_inodeBytes hDirect]; exact hj)]
    have hPad :
        packWords ([size, type] ++ direct ++ [indirect, 1]) ++ List.replicate 8 (0 : UInt8) =
        packWords ([size, type] ++ direct ++ [indirect, 1, 0, 0]) := by
      simp only [packWords, List.flatMap_append, List.append_assoc]
      rfl
    rw [hPad]
  have hWord (k : Nat) (hk : k < 16) :
      readWord (fromBlock (writeInode img ino size type direct indirect) (74 + ino / 8))
        (16 * (ino % 8) + k) =
      ([size, type] ++ direct ++ [indirect, 1, 0, 0]).getD k 0 % 2 ^ 32 := by
    apply readWord_packed
    · intro i hi
      have hAll : ([size, type] ++ direct ++ [indirect, 1, 0, 0]).length = 16 := by simp [hDirect]
      have hAt : (74 + ino / 8) * 512 + (4 * (16 * (ino % 8)) + i) = 74 * 512 + ino * 64 + i := by
        omega
      rw [fromBlock, hAt]
      exact hByte i (by omega)
    · simpa [hDirect] using hk
  have hEntry (i : Nat) (hi : i < 10) :
      ([size, type] ++ direct ++ [indirect, 1, 0, 0]).getD (2 + i) 0 = direct.getD i 0 := by
    rw [List.append_assoc, List.getD_append_right _ _ _ _ (by simp)]
    rw [show 2 + i - [size, type].length = i by simp, List.getD_append _ _ _ _ (by omega)]
  have hLast (i : Nat) :
      ([size, type] ++ direct ++ [indirect, 1, 0, 0]).getD (12 + i) 0 =
        [indirect, 1, 0, 0].getD i 0 := by
    rw [List.getD_append_right _ _ _ _ (by simp [hDirect])]
    simp [hDirect]
  simp only [inodeAt, decodeInode, Inode.ofWords, Inode.mk.injEq]
  refine ⟨hWord 0 (by omega), hWord 1 (by omega), ?_, ?_, ?_, ?_⟩
  · funext i
    rw [hWord (2 + i) (by omega), hEntry i i.isLt]
  · rw [hWord 12 (by omega), hLast 0]
    rfl
  · rw [hWord 13 (by omega), hLast 1]
    rfl
  · funext i
    rw [hWord (14 + i) (by omega), show 14 + i.1 = 12 + (2 + i.1) by omega, hLast (2 + i)]
    have hi := i.isLt
    interval_cases i.1 <;> rfl

end Inodes

section Store

variable {img img' : Bytes} {files : List Stored} {e : Stored}

theorem storeFile_spec {next : Nat} (h : BitsBelow img next) (hLo : 90 ≤ next)
    (hNext : next ≤ 32768) (hIno : e.ino < 128) (hType : e.type < 2 ^ 32)
    (hRun : storeFile img e.ino e.type e.data = .ok img') :
    StoredAt img' next e ∧ next + e.cost ≤ 32768 ∧ BitsBelow img' (next + e.cost) ∧
      (∀ i < 128,
        isSet (fromBlock img' 73) i = (decide (i = e.ino) || isSet (fromBlock img 73) i)) ∧
      ∀ i, i < 65 * 512 ∨ 74 * 512 ≤ i → i < 74 * 512 + e.ino * 64 ∨
        74 * 512 + e.ino * 64 + 64 ≤ i → i < next * 512 → img' i = img i := by
  unfold storeFile at hRun
  rw [show blocksOf e.data.length = e.blocks from rfl] at hRun
  split at hRun
  · cases hRun
  rename_i blocks img₁ hChunks
  obtain ⟨rfl, hEnd, hBits₁, hData, hKept₁⟩ := writeChunks_spec h hLo hNext hChunks
  rw [List.length_range] at hRun hEnd hBits₁ hData hKept₁
  split at hRun
  · cases hRun
  rename_i indirect img₂ hIndirect
  obtain rfl := Except.ok.inj hRun
  obtain ⟨hSmall, rfl, hRoom, hBits₂, hEntries, hKept₂⟩ :=
    writeIndirect_spec hBits₁ hLo hEnd hIndirect
  have hDirect :
      ((List.range 10).map (fun i => (List.range' next e.blocks).getD i 0)).length = 10 := by
    simp
  -- the record of the inode lies in front of all data blocks
  have hOut {i : Nat} (hi : 90 * 512 ≤ i) :
      writeInode img₂ e.ino e.data.length e.type
        ((List.range 10).map (fun i => (List.range' next e.blocks).getD i 0))
        (if 10 < e.blocks then next + e.blocks else 0) i = img₂ i :=
    writeInode_outside hDirect (by omega) (by omega)
  refine ⟨⟨hSmall, ?_, ?_, ?_⟩, hRoom, ?_, ?_, ?_⟩
  · have hSize : e.data.length < 2 ^ 32 := by
      have hUp : e.data.length ≤ e.blocks * 512 := by
        unfold Stored.blocks blocksOf
        omega
      omega
    rw [inodeAt_writeInode hIno hDirect]
    simp only [Stored.inode, Inode.mk.injEq, Nat.mod_eq_of_lt hSize,
      Nat.mod_eq_of_lt hType, true_and, and_true]
    refine ⟨?_, ?_⟩
    · funext i
      have hi := i.isLt
      rw [List.getD_eq_getElem?_getD, List.getElem?_map, List.getElem?_range hi]
      simp only [Option.map_some, Option.getD_some]
      by_cases hIn : i.1 < e.blocks
      · rw [if_pos hIn, List.getD_eq_getElem?_getD, List.getElem?_range' hIn]
        simp only [Option.getD_some]
        omega
      · rw [if_neg hIn, List.getD_eq_default _ _ (by simpa using hIn), Nat.zero_mod]
    · split <;> omega
  · intro p hp
    rw [hOut (by omega), hKept₂ _ (by omega) (by omega)]
    have hBlock := hData (p / 512) (by omega) (p % 512) (by omega)
    have hFlat : (next + p / 512) * 512 + p % 512 = next * 512 + p := by omega
    rw [hFlat] at hBlock
    have hIndex : (List.range e.blocks).getD (p / 512) 0 = p / 512 := by
      rw [List.getD_eq_getElem?_getD, List.getElem?_range (by omega), Option.getD_some]
    rw [hBlock, hIndex]
    congr 1
    omega
  · intro hMany j hj
    rw [← hEntries hMany j hj]
    apply readLe_congr
    intro i _
    exact hOut (by omega)
  · apply hBits₂.congr
    intro i hiLo hiHi
    exact writeInode_outside hDirect (by omega) (by omega)
  · intro i hi
    rw [writeInode_bits hi]
    congr 1
    apply isSet_congr
    rw [fromBlock, fromBlock, hKept₂ _ (by omega) (by omega), hKept₁ _ (by omega) (by omega)]
  · intro i hOutside hRecord hBefore
    have hBefore' : i < (next + e.blocks) * 512 :=
      hBefore.trans_le (Nat.mul_le_mul_right 512 (Nat.le_add_right _ _))
    rw [writeInode_outside hDirect (by omega) hRecord, hKept₂ i (by omega) (Or.inl hBefore'),
      hKept₁ i (by omega) (Or.inl hBefore)]

theorem Laid.store (h : Laid img files) (hIno : e.ino < 128) (hNew : e.ino ∉ files.map Stored.ino)
    (hType : e.type < 2 ^ 32) (hRun : storeFile img e.ino e.type e.data = .ok img') :
    Laid img' (files ++ [e]) := by
  obtain ⟨hStored, hRoom, hBits, hInodes, hKept⟩ :=
    storeFile_spec h.blockBits (by omega) h.room hIno hType hRun
  have hTotal : 90 + total Stored.cost (files ++ [e]) = 90 + total Stored.cost files + e.cost := by
    rw [total_append, total_cons, total_nil]
    omega
  refine ⟨?_, ?_, ?_, ?_, ?_, ?_, ?_⟩
  · intro i hi
    rw [← h.superblock i hi]
    exact hKept _ (by omega) (by omega) (by omega)
  · rwa [hTotal]
  · intro i hi
    rw [hInodes i hi, h.inodeBits i hi]
    simp [or_comm]
  · rwa [hTotal]
  · rw [List.map_append, List.nodup_append]
    refine ⟨h.inodes, by simp, ?_⟩
    intro a ha b hb hEq
    have hb' : b = e.ino := by simpa using hb
    exact hNew (hb' ▸ hEq ▸ ha)
  · intro x hx
    rcases List.mem_append.mp hx with hOld | hLast
    · exact h.bound x hOld
    · rw [List.mem_singleton.mp hLast]
      exact hIno
  · intro x hx
    rw [placed_append, List.mem_append] at hx
    rcases hx with hOld | hLast
    · have hBounds := placed_bounds Stored.cost hOld
      have hMem : x.2 ∈ files := by
        obtain ⟨before, after, hSplit, _⟩ := placed_split Stored.cost hOld
        rw [hSplit]
        simp
      have hOther : x.2.ino ≠ e.ino := fun hEq => hNew (hEq ▸ List.mem_map_of_mem hMem)
      have hLow := h.bound x.2 hMem
      apply (h.stored x hOld).congr
      · intro j hj
        exact hKept _ (by omega) (by omega) (by omega)
      · intro i hiLo hiHi
        have hBefore : i < (90 + total Stored.cost files) * 512 :=
          hiHi.trans_le (Nat.mul_le_mul_right 512 hBounds.2)
        exact hKept i (by omega) (by omega) hBefore
    · rw [placed_cons, placed_nil, List.mem_singleton] at hLast
      rw [hLast]
      exact hStored

end Store

section Fresh

theorem fromBlock_foldl (start : Nat) (img : Bytes) (bits : List Nat) :
    fromBlock (bits.foldl (markBit start) img) start =
      bits.foldl Bitmap.set (fromBlock img start) := by
  induction bits generalizing img with
  | nil => rfl
  | cons bit rest ih => rw [List.foldl_cons, List.foldl_cons, ih, fromBlock_markBit]

theorem foldl_markBit_outside (start : Nat) (img : Bytes) (bits : List Nat)
    (h : ∀ bit ∈ bits, j ≠ start * 512 + bit / 8) : bits.foldl (markBit start) img j = img j := by
  induction bits generalizing img with
  | nil => rfl
  | cons bit rest ih =>
    rw [List.foldl_cons, ih _ fun b hb => h b (List.mem_cons_of_mem _ hb),
      markBit_outside (h bit List.mem_cons_self)]

theorem freshImage_outside (h : j < 65 * 512 ∨ 65 * 512 + 12 ≤ j) :
    freshImage j = writeAt (fun _ => 0) (64 * 512)
      (packWords [0x4B465331, 32768, 128, 65, 8, 73, 1, 74, 16, 90, 0] ++ List.replicate 468 0)
        j := by
  apply foldl_markBit_outside
  intro bit hBit
  have hLt := List.mem_range.mp hBit
  omega

theorem length_superblock :
    (packWords [0x4B465331, 32768, 128, 65, 8, 73, 1, 74, 16, 90, 0] ++
      List.replicate 468 (0 : UInt8)).length = 512 := by
  rw [List.length_append, length_packWords, List.length_replicate]
  rfl

theorem freshImage_superblock (hi : i < 512) : freshImage (64 * 512 + i) = superblockSector i := by
  rw [freshImage_outside (by omega), writeAt_inside (by rw [length_superblock]; exact hi),
    superblockSector, storeWords]
  by_cases hWord : i / 4 < 11
  · have hByte :=
      @getD_packWords [0x4B465331, 32768, 128, 65, 8, 73, 1, 74, 16, 90, 0] (i / 4) (i % 4)
      hWord (by omega)
    rw [List.getD_append _ _ _ _ (by rw [length_packWords]; change i < 4 * 11; omega),
      if_pos (by omega)]
    rw [show 4 * (i / 4) + i % 4 = i by omega] at hByte
    exact hByte
  · rw [List.getD_append_right _ _ _ _ (by rw [length_packWords]; change 4 * 11 ≤ i; omega),
      if_neg (by omega)]
    simp only [List.getD_eq_getElem?_getD, List.getElem?_replicate]
    split <;> rfl

theorem freshImage_laid : Laid freshImage [] where
  superblock := fun _ hi => freshImage_superblock hi
  blockBits := by
    intro b _
    have hZero : fromBlock (writeAt (fun _ => 0) (64 * 512)
        (packWords [0x4B465331, 32768, 128, 65, 8, 73, 1, 74, 16, 90, 0] ++
          List.replicate 468 (0 : UInt8))) 65 = fun _ => 0 := by
      funext i
      exact writeAt_outside (Or.inr (by rw [length_superblock]; omega))
    rw [freshImage, setBlockBitmap, fromBlock_foldl, hZero, isSet_mark]
    rfl
  inodeBits := by
    intro i hi
    have hByte : fromBlock freshImage 73 (i / 8) = 0 := by
      rw [fromBlock, freshImage_outside (by omega)]
      exact writeAt_outside (Or.inr (by rw [length_superblock]; omega))
    rw [show isSet (fromBlock freshImage 73) i = isSet (fun _ => 0) i from isSet_congr hByte,
      isSet_zero]
    rfl
  room := by decide
  inodes := List.nodup_nil
  bound := fun _ hNone => by cases hNone
  stored := fun _ hNone => by cases hNone

end Fresh

section Inputs

/-- The input files with their inode numbers. -/
def storedInputs : Nat → List MkfsInput → List Stored
  | _, [] => []
  | ino, f :: rest => ⟨ino, kfsTypeFile, f.data⟩ :: storedInputs (ino + 1) rest

/-- The records of the root directory. -/
def rootDirents : Nat → List MkfsInput → List UInt8
  | _, [] => []
  | ino, f :: rest => mkfsDirent ino f.name ++ rootDirents (ino + 1) rest

/-- The loop over the input files stores them in order. -/
theorem addInputs_spec {dirents dirents' : List UInt8} {files : List Stored} (h : Laid img files)
    (hOld : ∀ e ∈ files, e.ino < ino)
    (hRun : addInputs inputs ino dirents img = .ok (dirents', img')) :
    Laid img' (files ++ storedInputs ino inputs) ∧ dirents' = dirents ++ rootDirents ino inputs ∧
      (∀ f ∈ inputs, f.opens = true) ∧ (inputs ≠ [] → ino + inputs.length ≤ 128) := by
  induction inputs generalizing ino dirents img files with
  | nil =>
    obtain ⟨rfl, rfl⟩ := Prod.mk.inj (Except.ok.inj hRun)
    simpa [storedInputs, rootDirents] using h
  | cons f rest ih =>
    rw [addInputs] at hRun
    split at hRun
    · cases hRun
    rename_i hOpens
    split at hRun
    · cases hRun
    rename_i hIno
    split at hRun
    · cases hRun
    rename_i img₁ hStore
    split at hRun
    · cases hRun
    have hNew : ino ∉ files.map Stored.ino := by
      intro hMem
      obtain ⟨e, he, hEq⟩ := List.mem_map.mp hMem
      have hLt := hOld e he
      omega
    have hLaid : Laid img₁ (files ++ [⟨ino, kfsTypeFile, f.data⟩]) :=
      h.store (by simpa using hIno) hNew (show 1 < 2 ^ 32 by decide) hStore
    have hOld' : ∀ e ∈ files ++ [⟨ino, kfsTypeFile, f.data⟩], e.ino < ino + 1 := by
      intro e he
      rcases List.mem_append.mp he with hBefore | hLast
      · exact (hOld e hBefore).trans (Nat.lt_succ_self ino)
      · rw [List.mem_singleton.mp hLast]
        exact Nat.lt_succ_self ino
    obtain ⟨hAll, hDirents, hOpen, hCount⟩ := ih hLaid hOld' hRun
    refine ⟨?_, ?_, ?_, ?_⟩
    · simpa [storedInputs] using hAll
    · rw [hDirents, rootDirents, List.append_assoc]
    · intro g hg
      rcases List.mem_cons.mp hg with rfl | hRest
      · simpa using hOpens
      · exact hOpen g hRest
    · rw [List.length_cons]
      by_cases hRest : rest = []
      · subst hRest
        simp only [List.length_nil]
        omega
      · have hMore := hCount hRest
        omega

/-- All that the script stores, the root directory last. -/
def mkfsFiles (inputs : List MkfsInput) : List Stored :=
  storedInputs 1 inputs ++ [⟨0, kfsTypeDir, rootDirents 1 inputs⟩]

theorem storedInputs_ino (h : e ∈ storedInputs ino inputs) :
    ino ≤ e.ino ∧ e.type = kfsTypeFile := by
  induction inputs generalizing ino with
  | nil => cases h
  | cons f rest ih =>
    rcases List.mem_cons.mp h with rfl | hRest
    · exact ⟨le_refl _, rfl⟩
    · exact ⟨(Nat.le_succ ino).trans (ih hRest).1, (ih hRest).2⟩

/-- What an image of the script holds. -/
theorem mkfs_laid (hRun : mkfs inputs = .ok img) :
    Laid img (mkfsFiles inputs) ∧ (∀ f ∈ inputs, f.opens = true) ∧ inputs.length < 128 ∧
      inputs ≠ [] := by
  unfold mkfs at hRun
  split at hRun
  · cases hRun
  rename_i hSome
  have hNonempty : inputs ≠ [] := by simpa using hSome
  split at hRun
  · cases hRun
  rename_i dirents img₁ hInputs
  obtain ⟨hLaid, rfl, hOpen, hCount⟩ :=
    addInputs_spec freshImage_laid (fun _ hNone => by cases hNone) hInputs
  have hRoot : 0 ∉ (([] : List Stored) ++ storedInputs 1 inputs).map Stored.ino := by
    intro hMem
    obtain ⟨e, he, hZero⟩ := List.mem_map.mp hMem
    have hPos := (storedInputs_ino (by simpa using he)).1
    omega
  have hStored :=
    @Laid.store _ _ _ ⟨0, kfsTypeDir, [] ++ rootDirents 1 inputs⟩ hLaid (show 0 < 128 by decide)
    hRoot (show 2 < 2 ^ 32 by decide) hRun
  refine ⟨by simpa [mkfsFiles] using hStored, hOpen, ?_, hNonempty⟩
  have hLimit := hCount hNonempty
  omega

end Inputs

end Kryos.Fs
