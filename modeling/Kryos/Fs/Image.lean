import Kryos.Fs.DirectoryRemove

/-! The image that `mkfs_kfs.py` starts from, with an empty root directory. -/
namespace Kryos.Fs

open Bitmap

/-- The block bitmap with the metadata blocks marked. -/
def mkfsBlockBitmap : Bytes := (List.range 90).foldl set (fun _ => 0)

def mkfsInodeBitmap : Bytes := set (fun _ => 0) 0

def rootInode : Inode := { Inode.zero with type := kfsTypeDir, linkCount := 1 }

def mkfsDisk (sector : Nat) : Sector :=
  if sector = 64 then superblockSector
  else if 65 ≤ sector ∧ sector < 73 then fun i => mkfsBlockBitmap ((sector - 65) * 512 + i)
  else if sector = 73 then mkfsInodeBitmap
  else if sector = 74 then encodeInode (fun _ => 0) 0 rootInode
  else fun _ => 0

/-- A volume without files, on a device and a heap that never fail. -/
def mkfsVolume : Volume where
  mount := ⟨mkfsSuperblock, fun _ => none, fun _ => none, fun _ => false⟩
  disk := mkfsDisk
  blockBitmap := mkfsBlockBitmap
  inodeBitmap := mkfsInodeBitmap

theorem mkfsVolume_reliable : mkfsVolume.mount.Reliable := ⟨fun _ => rfl, fun _ => rfl⟩

theorem mkfsVolume_heapServes : mkfsVolume.mount.HeapServes := fun _ _ => rfl

theorem isSet_zero (i : Nat) : isSet (fun _ => 0) i = false := by simp [isSet]

theorem isSet_mark (count b : Nat) :
    isSet ((List.range count).foldl set (fun _ => 0)) b = decide (b < count) := by
  induction count with
  | zero => simp [isSet_zero]
  | succ count ih =>
    rw [List.range_succ, List.foldl_append, List.foldl_cons, List.foldl_nil, isSet_set, ih]
    by_cases hEq : b = count
    · simp [hEq]
    · have hIff : b < count + 1 ↔ b < count := by omega
      simp [hEq, hIff]

theorem mkfsVolume_live (i : Nat) : mkfsVolume.live i = decide (i = 0) := by
  by_cases hi : i = 0
  · simp [Volume.live, mkfsVolume, mkfsInodeBitmap, hi]
  · simp [Volume.live, mkfsVolume, mkfsInodeBitmap, hi, isSet_zero]

theorem rootInode_fits : rootInode.Fits :=
  Inode.Fits.fresh (Nat.two_pow_pos 32) (by decide) (by decide)

theorem mkfsVolume_root : mkfsVolume.table 0 = rootInode := by
  have hSector : mkfsVolume.disk 74 = encodeInode (fun _ => 0) 0 rootInode := rfl
  rw [Volume.table, if_pos (by decide), Nat.zero_div, Nat.zero_mod, hSector,
    decodeInode_encodeInode rootInode_fits, if_pos rfl]

theorem mkfsVolume_mounted : mkfsVolume.Mounted where
  superblock := rfl
  total_le := le_refl _
  superblockOnDisk := fun _ _ => rfl
  blockCache := by
    intro i hi
    have hNe : ¬65 + i / 512 = 64 := by omega
    have hRange : 65 ≤ 65 + i / 512 ∧ 65 + i / 512 < 73 := by omega
    have hByte : (65 + i / 512 - 65) * 512 + i % 512 = i := by omega
    change mkfsDisk (65 + i / 512) (i % 512) = mkfsBlockBitmap i
    rw [mkfsDisk, if_neg hNe, if_pos hRange, hByte]
  inodeCache := fun _ _ => rfl
  metadata := by
    intro b hb
    change isSet mkfsBlockBitmap b = true
    rw [mkfsBlockBitmap, isSet_mark]
    exact decide_eq_true hb

theorem mkfsVolume_slots (x : Nat × Nat) : mkfsVolume.slots mkfsVolume.table x = 0 := by
  simp only [Volume.slots, mkfsVolume_live, decide_eq_true_eq]
  split
  · rename_i hi
    rw [hi, mkfsVolume_root]
    simp [slotBlock, rootInode, Inode.zero]
  · rfl

theorem mkfsVolume_consistent : mkfsVolume.Consistent True where
  mounted := mkfsVolume_mounted
  exclusive := by
    constructor
    all_goals
      simp [mkfsVolume_slots]
  sized := by
    intro i hi
    have hRoot : i = 0 := by simpa [mkfsVolume_live] using hi
    rw [hRoot, mkfsVolume_root]
    refine ⟨by decide, fun k => ?_⟩
    simp [slotBlock, rootInode, Inode.zero, needed, blocksOf]
  covered := by
    intro _ b hLo _ hUsed
    change isSet mkfsBlockBitmap b = true at hUsed
    rw [mkfsBlockBitmap, isSet_mark, decide_eq_true_eq] at hUsed
    omega

theorem mkfsVolume_files (i : Nat) :
    mkfsVolume.files i = if i = 0 then some ⟨kfsTypeDir, []⟩ else none := by
  simp only [Volume.files, mkfsVolume_live, decide_eq_true_eq]
  split
  · rename_i hi
    rw [hi, mkfsVolume_root]
    rfl
  · rfl

theorem mkfsVolume_tree : TreeOk mkfsVolume.files (fun _ => []) := by
  have hKind : ∀ i t, kindOf mkfsVolume.files i = some t → i = 0 ∧ t = kfsTypeDir := by
    intro i t hi
    obtain ⟨file, hFile, hType⟩ := kindOf_eq_some.mp hi
    rw [mkfsVolume_files] at hFile
    split at hFile
    · rename_i hRoot
      rw [Option.some.injEq] at hFile
      subst hFile
      exact ⟨hRoot, hType.symm⟩
    · cases hFile
  constructor
  · intro d file hFile _
    rw [mkfsVolume_files] at hFile
    split at hFile
    · rw [Option.some.injEq] at hFile
      rw [← hFile]
      rfl
    · cases hFile
  · constructor
    · intro i t hi
      exact .inr (hKind i t hi).2
    · intro _ _ r hr
      cases hr
    · intro _ _
      exact List.nodup_nil
    · intro _ _ hr
      cases hr.mem
    · intro i t hi hRoot
      exact absurd (hKind i t hi).1 hRoot
    · intro _ _ _ _ hr
      cases hr.mem
    · intro _ _ r hr
      cases hr
    · intro _ _ r hr
      cases hr
    · intro d hd hRoot
      exact absurd (hKind d _ hd).1 hRoot

theorem mkfsVolume_wellFormed : mkfsVolume.WellFormed True (fun _ => []) :=
  ⟨mkfsVolume_consistent, mkfsVolume_tree⟩

end Kryos.Fs
