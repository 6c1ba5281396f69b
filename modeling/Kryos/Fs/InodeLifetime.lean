import Kryos.Fs.BlockRelease

/-! Inodes come and go: allocation, truncation and release, as changes of the table of
files. -/
namespace Kryos.Fs

open Bitmap Function

namespace Volume

variable {total : Nat} {full : Prop} {s s' : Volume} {ino : Nat}

/-- A step that changes neither data blocks nor the block bitmap, and whose marked
inodes hold the same slots as before, keeps the invariant. -/
theorem ConsistentAt.relabel (h : ConsistentAt total full s) (hMounted : s'.MountedAt total)
    (hMount : s'.mount = s.mount)
    (hDisk : ∀ c, 90 ≤ c → s'.disk c = s.disk c) (hBlocks : s'.blockBitmap = s.blockBitmap)
    (hLive : ∀ i, i ≠ ino → s'.live i = s.live i) (hTable : ∀ i, i ≠ ino → s'.table i = s.table i)
    (hBefore : s.live ino = true → ∀ k, slotBlock s.disk (s.table ino) k = 0)
    (hAfter : s'.live ino = true → (s'.table ino).size = 0 ∧
      ∀ k, slotBlock s'.disk (s'.table ino) k = 0) :
    ConsistentAt total full s' ∧ (∀ i, i ≠ ino → s'.files i = s.files i) ∧ Frame s s' [ino] := by
  have hKept : ∀ i, i ≠ ino → s.live i = true →
      slotBlock s'.disk (s.table i) = slotBlock s.disk (s.table i) ∧
        Sized s'.disk (s.table i) ∧
          fileContent s'.disk (s.table i) = fileContent s.disk (s.table i) := by
    intro i _ hAlive
    apply (h.sized i hAlive).congr
    intro k hk
    have hRange := (h.open hAlive).range hk
    exact hDisk _ hRange.1
  have hSlots : s'.slots s'.table = s.slots s.table := by
    funext x
    obtain ⟨i, k⟩ := x
    by_cases hi : i = ino
    · subst hi
      have hZero : s.slots s.table (i, k) = 0 := by
        simp only [slots]
        split
        · rename_i hAlive
          exact hBefore hAlive k
        · rfl
      rw [hZero]
      simp only [slots]
      split
      · rename_i hAlive
        exact (hAfter hAlive).2 k
      · rfl
    · simp only [slots, hLive i hi, hTable i hi]
      split
      · rename_i hAlive
        rw [(hKept i hi hAlive).1]
      · rfl
  refine ⟨⟨hMounted, ?_, ?_, ?_⟩, ?_, hMount, ?_⟩
  · rw [hSlots, hBlocks]
    exact h.exclusive
  · intro i hAlive
    by_cases hi : i = ino
    · subst hi
      obtain ⟨hSize, hZero⟩ := hAfter hAlive
      refine ⟨by omega, fun k => ?_⟩
      rw [hZero k, hSize]
      simp [needed, blocksOf]
    · rw [hLive i hi] at hAlive
      rw [hTable i hi]
      exact (hKept i hi hAlive).2.1
  · rw [hSlots, hBlocks]
    exact h.covered
  · intro i hi
    simp only [files, hLive i hi, hTable i hi]
    split
    · rename_i hAlive
      rw [(hKept i hi hAlive).2.2]
    · rfl
  · intro i hi
    rw [List.mem_singleton] at hi
    simp only [blocks, hLive i hi, hTable i hi]
    split
    · rename_i hAlive
      rw [(hKept i hi hAlive).1]
    · rfl

theorem takeInode_live (hIno : ino < 128) (inode : Inode) (i : Nat) :
    (s.takeInode ino inode).live i = (decide (i = ino) || s.live i) := by
  by_cases hi : i = ino
  · simp [live, hi, hIno]
  · simp [live, hi]

theorem dropInode_live (i : Nat) : (s.dropInode ino).live i = (!decide (i = ino) && s.live i) := by
  by_cases hi : i = ino
  · simp [live, hi]
  · simp [live, hi]

theorem takeInode_table (hIno : ino < 128) {inode : Inode} (hFits : inode.Fits) :
    (s.takeInode ino inode).table = update s.table ino inode := by
  rw [takeInode, putInode_table hIno hFits, setInodeBitmap_table]

theorem ConsistentAt.takeInode (h : ConsistentAt total full s) (hIno : ino < 128)
    (hFree : isSet s.inodeBitmap ino = false) {inode : Inode} (hFits : inode.Fits)
    (hSize : inode.size = 0) (hDirect : ∀ i, inode.direct i = 0) (hIndirect : inode.indirect = 0) :
    ConsistentAt total full (s.takeInode ino inode) ∧
      (s.takeInode ino inode).files = update s.files ino (some ⟨inode.type, []⟩) ∧
      Frame s (s.takeInode ino inode) [ino] := by
  have hTable := @takeInode_table s _ hIno _ hFits
  have hDead : s.live ino = false := by simp [live, hFree]
  obtain ⟨hConsistent, hOthers, hFrame⟩ := @ConsistentAt.relabel _ _ _ (s.takeInode ino inode) ino h
    (h.mounted.takeInode hIno _) rfl
    (fun c hc => by
      rw [Volume.takeInode, putInode_disk _ hIno (.inr hc), setInodeBitmap_disk _ (by omega)])
    rfl
    (fun i hi => by rw [takeInode_live hIno]; simp [hi])
    (fun i hi => by rw [hTable, update_of_ne hi])
    (fun hAlive => by rw [hDead] at hAlive; cases hAlive)
    (fun _ => by
      rw [hTable, update_self]
      exact ⟨hSize, fun k => by simp [slotBlock, hDirect, hIndirect]⟩)
  refine ⟨hConsistent, ?_, hFrame⟩
  funext i
  by_cases hi : i = ino
  · subst hi
    simp [files, takeInode_live hIno, hTable, fileContent, fileSlice, hSize]
  · rw [update_of_ne hi, hOthers i hi]

theorem ConsistentAt.dropInode (h : ConsistentAt total full s)
    (hEmpty : ∀ k, slotBlock s.disk (s.table ino) k = 0) :
    ConsistentAt total full (s.dropInode ino) ∧
      (s.dropInode ino).files = update s.files ino none ∧
      Frame s (s.dropInode ino) [ino] := by
  have hTable : (s.dropInode ino).table = s.table := setInodeBitmap_table _
  obtain ⟨hConsistent, hOthers, hFrame⟩ := @ConsistentAt.relabel _ _ _ (s.dropInode ino) ino h
    h.mounted.dropInode rfl (fun c hc => setInodeBitmap_disk _ (by omega)) rfl
    (fun i hi => by rw [dropInode_live]; simp [hi]) (fun i _ => by rw [hTable])
    (fun _ => hEmpty) (fun hAlive => by simp [dropInode_live] at hAlive)
  refine ⟨hConsistent, ?_, hFrame⟩
  funext i
  by_cases hi : i = ino
  · subst hi
    simp [files, dropInode_live]
  · rw [update_of_ne hi, hOthers i hi]

theorem Within.files_update (h : Within s s' ino) (file : Option File) :
    update s'.files ino file = update s.files ino file := by
  funext i
  by_cases hi : i = ino
  · subst hi
    simp
  · rw [update_of_ne hi, update_of_ne hi, h.files i hi]

end Volume

section Operations

variable {total : Nat} {full : Prop} {s : Volume} {ino : Nat}

theorem Inode.Fits.setMeta {inode : Inode} (h : inode.Fits) :
    ({ inode with size := 0, type := 0, linkCount := 0 } : Inode).Fits := by
  intro k
  have hk := h k
  unfold Inode.word at hk ⊢
  split_ifs at hk ⊢ with h0 h1 hDirect h12 h13
  all_goals first | exact hk | exact Nat.two_pow_pos 32

/-- `kfs_vnode_truncate` empties the file. -/
theorem kfsVnodeTruncate_spec (h : s.ConsistentAt total full) (hReliable : s.mount.Reliable)
    (hLive : s.live ino = true) :
    ∃ s', kfsVnodeTruncate s ino = (.ok (), s') ∧ s'.ConsistentAt total full ∧ s.Frame s' [ino] ∧
      s'.inodeBitmap = s.inodeBitmap ∧
      s'.files = update s.files ino (some ⟨(s.table ino).type, []⟩) := by
  obtain ⟨inode', s₁, hRun, hType, hOpened, hWithin⟩ := (h.open hLive).freeAll hReliable
  have hReliable₁ : s₁.mount.Reliable := by rw [hWithin.mount]; exact hReliable
  have hSame : s₁.OpenedAt total full ino { inode' with size := 0 } (fun _ => False) :=
    hOpened.sameBlocks rfl rfl (hOpened.fits.setSize (Nat.two_pow_pos 32))
  have hEmpty : s₁.OpenedAt total full ino { inode' with size := 0 } (needed (blocksOf 0)) :=
    hSame.congr_need (fun k => by simp [needed, blocksOf])
  obtain ⟨hConsistent, hFiles, hFrame⟩ := hEmpty.close (Nat.zero_le _)
  refine ⟨_, ?_, hConsistent, hWithin.frame.trans_same hFrame, hWithin.inodeBitmap, ?_⟩
  · simp only [kfsVnodeTruncate, kfsReadInode_eq h.mounted hReliable hLive, hRun,
      kfsWriteInode_eq hOpened.mounted hReliable₁ (Volume.live_lt hLive)]
  · rw [hFiles, ← hType]
    exact hWithin.files_update _

/-- The first steps of `removeTarget`: the blocks, the inode and its mark go. -/
theorem releaseInode_spec {need : Nat → Prop} (h : s.OpenedAt total full ino (s.table ino) need)
    (hReliable : s.mount.Reliable) (hRoot : 0 < ino) :
    ∃ inode' s₁, kfsFreeInodeBlocks s (s.table ino) = (inode', s₁) ∧
      ∃ s₂, (kfsFreeInode (kfsWriteInode s₁ ino
          { inode' with size := 0, type := 0, linkCount := 0 }).2 ino).2 = s₂ ∧
        s₂.ConsistentAt total full ∧ s.Frame s₂ [ino] ∧
        s₂.files = update s.files ino none ∧
        ∀ i, i ≠ ino → s₂.live i = s.live i ∧ s₂.table i = s.table i := by
  obtain ⟨inode', s₁, hRun, _, hOpened, hWithin⟩ := h.freeAll hReliable
  have hIno := Volume.live_lt h.live
  have hReliable₁ : s₁.mount.Reliable := by rw [hWithin.mount]; exact hReliable
  have hSame : s₁.OpenedAt total full ino { inode' with size := 0, type := 0, linkCount := 0 }
      (fun _ => False) := hOpened.sameBlocks rfl rfl hOpened.fits.setMeta
  have hEmpty : s₁.OpenedAt total full ino { inode' with size := 0, type := 0, linkCount := 0 }
      (needed (blocksOf 0)) := hSame.congr_need (fun k => by simp [needed, blocksOf])
  obtain ⟨hConsistent, hFiles, hFrame⟩ := hEmpty.close (Nat.zero_le _)
  have hTable := @Volume.putInode_table s₁ _ _ hIno hEmpty.fits
  obtain ⟨hDropped, hDroppedFiles, hDroppedFrame⟩ :=
    @Volume.ConsistentAt.dropInode _ _ _ ino hConsistent
    (fun k => by
      have hSized := hConsistent.sized ino hOpened.live
      rw [hTable, update_self] at hSized ⊢
      by_contra hUsed
      have hNeed := (hSized.shape k).mp hUsed
      simp [needed, blocksOf] at hNeed)
  refine ⟨inode', s₁, hRun, _, rfl, ?_⟩
  rw [kfsWriteInode_eq hOpened.mounted hReliable₁ hIno,
    kfsFreeInode_eq hConsistent.mounted hReliable₁ hRoot hIno]
  refine ⟨hDropped, (hWithin.frame.trans_same hFrame).trans_same hDroppedFrame, ?_,
    fun i hi => ⟨?_, ?_⟩⟩
  · rw [hDroppedFiles, hFiles, update_idem, hWithin.files_update]
  · rw [Volume.dropInode_live]
    simp only [hi, decide_false, Bool.not_false, Bool.true_and]
    exact congrFun hWithin.live i
  · rw [Volume.dropInode, Volume.setInodeBitmap_table, hTable, update_of_ne hi,
      hWithin.table]

end Operations

end Kryos.Fs
