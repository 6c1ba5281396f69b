import Kryos.Fs.FileContents

/-! `kfs_vnode_write` when blocks run out. The loop stops in front of the first block that
it cannot get. For the eleventh block of a file it needs two, the indirect block first. -/
namespace Kryos.Fs

open Function Word

variable {total : Nat} {full : Prop} {s : Volume} {ino : Nat}

section Loop

variable {p : WriteProgress} {src : List UInt8}

/-- How the loop of `kfs_vnode_write` ends, with `rest` not written: `s` and `p` are those
after the last chunk. -/
inductive LoopEnd (total : Nat) (s : Volume) (p : WriteProgress) (rest : List UInt8) :
    Except Int WriteProgress × Volume → Prop where
  | all (hRest : rest = []) : LoopEnd total s p rest (.ok p, s)
  | stopped (err : Int) (hRest : rest ≠ [])
      (hErr : err = -enospc ∧ s.freeBelow total = 0 ∧ p.offset = 512 * blocksOf p.inode.size ∨
        err = -efbig ∧ p.offset = 138 * 512) :
      LoopEnd total s p rest (if p.totalWritten > 0 then (.ok p, s) else (.error err, s))
  | torn (ind : Nat) (hRest : rest ≠ []) (hTorn : Torn total s ind) (hOffset : p.offset = 10 * 512)
      (hSize : p.inode.size = 10 * 512) :
      LoopEnd total s p rest
        (if p.totalWritten > 0 then
          (.ok { p with inode := { p.inode with indirect := ind }, dirty := true }, s.takeBlock ind)
        else (.error (-enospc), s.takeBlock ind))

theorem writeLoop_noRoom (h : s.OpenedAt total full ino p.inode (needed (blocksOf p.inode.size)))
    (hReliable : s.mount.Reliable) (hBound : p.inode.size ≤ 138 * 512)
    (hOffset : p.offset ≤ p.inode.size) (hInside : p.offset < 138 * 512) (hSrc : src.length ≠ 0)
    (hRoom : s.freeBelow total + blockCost (blocksOf p.inode.size) <
      blockCost (max (blocksOf p.inode.size) (p.offset / 512 + 1))) (fuel : Nat) :
    LoopEnd total s p src (writeLoop (fuel + 1) s p src) := by
  have hRest : src ≠ [] := fun hNil => hSrc (by rw [hNil]; rfl)
  have hBlk : u32 (p.offset / 512) = p.offset / 512 := u32_of_lt (by omega)
  -- the block is the first one that the file does not have
  have hNext : p.offset / 512 = blocksOf p.inode.size := by
    by_contra hNe
    have hMax : max (blocksOf p.inode.size) (p.offset / 512 + 1) = blocksOf p.inode.size := by
      unfold blocksOf at hNe ⊢
      omega
    rw [hMax] at hRoom
    omega
  have hAt : p.offset = 512 * blocksOf p.inode.size := by
    unfold blocksOf at hNext ⊢
    omega
  have hMost : blocksOf p.inode.size < 138 := by omega
  rw [hNext, max_eq_right (Nat.le_succ _)] at hRoom
  rw [hNext] at hBlk
  rcases Volume.kfsMapOrAllocBlock_noRoom h hReliable hMost p.dirty hRoom with
    ⟨hFree, hMap⟩ | ⟨hTen, ind, hTorn, hMap⟩
  · have hChunk : writeChunk s p src = (.error (-enospc), p, s) := by
      rw [writeChunk, hNext, hBlk, hMap]
    rw [writeLoop, if_neg hSrc, hChunk]
    exact .stopped (-enospc) hRest (.inl ⟨rfl, hFree, hAt⟩)
  · have hChunk : writeChunk s p src = (.error (-enospc),
        { p with inode := { p.inode with indirect := ind }, dirty := true }, s.takeBlock ind) := by
      rw [writeChunk, hNext, hBlk, hMap]
    have hSize : p.offset = 10 * 512 ∧ p.inode.size = 10 * 512 := by
      rw [hTen] at hAt
      unfold blocksOf at hTen
      omega
    rw [writeLoop, if_neg hSrc, hChunk]
    exact .torn ind hRest hTorn hSize.1 hSize.2

/-- The loop writes a part of the buffer, and stops for want of blocks if not all of it. -/
theorem writeLoop_ends (fuel : Nat) {s : Volume} {p : WriteProgress} {src : List UInt8}
    (h : s.OpenedAt total full ino p.inode (needed (blocksOf p.inode.size)))
    (hReliable : s.mount.Reliable) (hBound : p.inode.size ≤ 138 * 512)
    (hOffset : p.offset ≤ p.inode.size) (hFuel : src.length ≤ fuel) :
    ∃ n p' s', n ≤ src.length ∧ p'.inode.size ≤ 138 * 512 ∧ (n = 0 → p' = p ∧ s' = s) ∧
      Wrote total full ino s p s' p' (src.take n) ∧
      LoopEnd total s' p' (src.drop n) (writeLoop fuel s p src) := by
  have hRefl : Wrote total full ino s p s p (src.take 0) := by
    exact Wrote.refl h hOffset
  induction fuel generalizing s p src with
  | zero =>
    have hNil : src = [] := List.eq_nil_of_length_eq_zero (Nat.le_zero.mp hFuel)
    exact ⟨0, p, s, Nat.zero_le _, hBound, fun _ => ⟨rfl, rfl⟩, hRefl, .all (by rw [hNil]; rfl)⟩
  | succ fuel ih =>
    by_cases hSrc : src.length = 0
    · refine ⟨0, p, s, Nat.zero_le _, hBound, fun _ => ⟨rfl, rfl⟩, hRefl, ?_⟩
      rw [writeLoop, if_pos hSrc]
      exact .all (by rw [List.eq_nil_of_length_eq_zero hSrc]; rfl)
    by_cases hFull : p.offset = 138 * 512
    · refine ⟨0, p, s, Nat.zero_le _, hBound, fun _ => ⟨rfl, rfl⟩, hRefl, ?_⟩
      rw [writeLoop, if_neg hSrc, writeChunk_full hFull]
      exact .stopped (-efbig) (fun hNil => hSrc (by rw [← List.drop_zero (l := src), hNil]; rfl))
        (.inr ⟨rfl, hFull⟩)
    have hInside : p.offset < 138 * 512 := by omega
    generalize hChunk : min (512 - p.offset % 512) src.length = chunk
    have hBlocks : blocksOf (max p.inode.size (p.offset + chunk)) =
        max (blocksOf p.inode.size) (p.offset / 512 + 1) := blocksOf_max (by omega) (by omega)
    by_cases hRoom : blockCost (max (blocksOf p.inode.size) (p.offset / 512 + 1)) ≤
        s.freeBelow total + blockCost (blocksOf p.inode.size)
    · obtain ⟨p₁, s₁, hRun, hWrote⟩ := writeChunk_spec h hReliable hBound hOffset hInside hSrc
        hChunk (hBlocks ▸ hRoom)
      have hTake : (src.take chunk).length = chunk := List.length_take_of_le (by omega)
      have hSize := hWrote.size
      have hOffset₁ := hWrote.offset
      have hReliable₁ : s₁.mount.Reliable := by rw [hWrote.within.mount]; exact hReliable
      have hFuel₁ : (src.drop chunk).length ≤ fuel := by
        rw [List.length_drop]
        omega
      have hOffsetLe : p₁.offset ≤ p₁.inode.size := by
        rw [hSize, hOffset₁]
        exact le_max_right _ _
      have hRefl₁ : Wrote total full ino s₁ p₁ s₁ p₁ ((src.drop chunk).take 0) := by
        exact Wrote.refl hWrote.opened hOffsetLe
      obtain ⟨n, p₂, s₂, hn, hBound₂, _, hWrote₂, hEnd⟩ := ih hWrote.opened hReliable₁
        (by rw [hSize]; omega) hOffsetLe hFuel₁ hRefl₁
      refine ⟨chunk + n, p₂, s₂, ?_, hBound₂, fun hZero => by omega, ?_, ?_⟩
      · rw [List.length_drop] at hn
        omega
      · rw [List.take_add]
        exact hWrote.trans hWrote₂ hOffset
      · rw [← List.drop_drop, writeLoop, if_neg hSrc, hRun]
        exact hEnd
    · exact ⟨0, p, s, Nat.zero_le _, hBound, fun _ => ⟨rfl, rfl⟩, hRefl,
        writeLoop_noRoom h hReliable hBound hOffset hInside hSrc (Nat.lt_of_not_le hRoom) fuel⟩

end Loop

section Outcome

/-- What a write from `offset` on comes to, however many blocks are free. -/
inductive WriteOutcome (total : Nat) (full : Prop) (s : Volume) (ino offset : Nat)
    (data : List UInt8) : Except Int Nat × Nat × Volume → Prop where
  /-- A part of the data is in the file, and the file has the blocks it needs. -/
  | wrote {n : Nat} {s' : Volume} (hCount : n ≤ data.length) (hSome : 0 < n)
      (hEnd : n = data.length ∨
        s'.freeBelow total = 0 ∧ offset + n = 512 * blocksOf (max (s.table ino).size (offset + n)) ∨
        offset + n = 138 * 512)
      (hConsistent : s'.ConsistentAt total full) (hFrame : s.Frame s' [ino])
      (hInodes : s'.inodeBitmap = s.inodeBitmap)
      (hFree : s'.freeBelow total + blockCost (blocksOf (max (s.table ino).size (offset + n))) =
        s.freeBelow total + blockCost (blocksOf (s.table ino).size))
      (hFiles : s'.files = update s.files ino (some ⟨(s.table ino).type,
        overwrite (fileContent s.disk (s.table ino)) offset (data.take n)⟩)) :
      WriteOutcome total full s ino offset data (.ok n, offset + n, s')
  /-- The first block could not be had, and nothing has changed. -/
  | refused {err : Int}
      (hErr : err = -enospc ∧ s.freeBelow total = 0 ∧ offset = 512 * blocksOf (s.table ino).size ∨
        err = -efbig ∧ offset = 138 * 512) :
      WriteOutcome total full s ino offset data (.error err, offset, s)
  /-- The first block could not be had, but a block for the indirect block is marked. -/
  | leaked {ind : Nat} (hTorn : Torn total s ind) (hOffset : offset = 10 * 512)
      (hSize : (s.table ino).size = 10 * 512) :
      WriteOutcome total full s ino offset data (.error (-enospc), offset, s.takeBlock ind)
  /-- Ten blocks are written, and the inode has an indirect block without entries. -/
  | torn {n : Nat} {s' : Volume} (hCount : n < data.length) (hSome : 0 < n)
      (hOffset : offset + n = 10 * 512) (hSize : (s.table ino).size ≤ 10 * 512)
      (hFree : s.freeBelow total + blocksOf (s.table ino).size = 11) (hLive : s'.live ino = true)
      (hNewSize : (s'.table ino).size = 10 * 512) (hIndirect : (s'.table ino).indirect ≠ 0) :
      WriteOutcome total full s ino offset data (.ok n, offset + n, s')

variable {offset : Nat} {data : List UInt8}

theorem Wrote.outcome {p : WriteProgress} {s₁ : Volume} {n : Nat}
    (h : Wrote total full ino s ⟨s.table ino, false, offset, 0⟩ s₁ p (data.take n))
    (hReliable : s.mount.Reliable) (hBound : p.inode.size ≤ 138 * 512) (hCount : n ≤ data.length)
    (hSome : 0 < n)
    (hEnd : n = data.length ∨
      s₁.freeBelow total = 0 ∧ offset + n = 512 * blocksOf (max (s.table ino).size (offset + n)) ∨
      offset + n = 138 * 512) :
    WriteOutcome total full s ino offset data (finishWrite s₁ ino p) := by
  have hTake : (data.take n).length = n := List.length_take_of_le hCount
  have hSize := h.size
  have hCost := h.free
  rw [hTake] at hSize
  obtain ⟨s', hFinish, hConsistent, hFrame, hInodes, hFree, hFiles⟩ := h.finish hReliable hBound
  rw [hFinish, hTake]
  refine .wrote hCount hSome ?_ hConsistent hFrame hInodes ?_ hFiles
  · rwa [hFree]
  · rw [hFree, ← hSize]
    exact hCost

/-- The inode with an indirect block that has no entries goes to disk. -/
theorem Wrote.outcome_torn {p : WriteProgress} {s₁ : Volume} {n ind : Nat}
    (h : Wrote total full ino s ⟨s.table ino, false, offset, 0⟩ s₁ p (data.take n))
    (hReliable : s.mount.Reliable) (hCount : n < data.length) (hSome : 0 < n)
    (hTorn : Torn total s₁ ind) (hOffset : p.offset = 10 * 512)
    (hNewSize : p.inode.size = 10 * 512) :
    WriteOutcome total full s ino offset data (finishWrite (s₁.takeBlock ind) ino
      { p with inode := { p.inode with indirect := ind }, dirty := true }) := by
  have hTake : (data.take n).length = n := List.length_take_of_le hCount.le
  have hSize := h.size
  have hEnd := h.offset
  have hWritten := h.written
  have hCost := h.free
  have hReliable₁ : (s₁.takeBlock ind).mount.Reliable := by
    rw [Volume.takeBlock_mount, h.within.mount]
    exact hReliable
  have hBlk := h.opened.mounted.lt hTorn.hi
  have hMounted := h.opened.mounted.takeBlock hTorn.lo hBlk
  have hIno := Volume.live_lt h.opened.live
  have hFits : ({ p.inode with indirect := ind } : Inode).Fits :=
    h.opened.fits.setIndirect (by omega)
  have hTable := @Volume.putInode_table (s₁.takeBlock ind) ino _ hIno hFits
  have hLo := hTorn.lo
  rw [hTake] at hSize hEnd hWritten
  rw [hTorn.last, hNewSize] at hCost
  have hOld : (s.table ino).size ≤ 10 * 512 := by
    simp only at hSize
    omega
  have hResult : finishWrite (s₁.takeBlock ind) ino
      { p with inode := { p.inode with indirect := ind }, dirty := true } =
        (.ok n, offset + n, (s₁.takeBlock ind).putInode ino { p.inode with indirect := ind }) := by
    simp only [finishWrite, if_true, kfsWriteInode_eq hMounted hReliable₁ hIno, hWritten, hEnd,
      Nat.zero_add]
  rw [hResult]
  refine .torn hCount hSome (hEnd.symm.trans hOffset) hOld ?_ h.opened.live ?_ ?_
  · have hTen : blockCost (blocksOf (10 * 512)) = 10 := by decide
    have hFew : blocksOf (s.table ino).size ≤ 10 := by
      unfold blocksOf
      omega
    rw [hTen, blockCost, if_neg (Nat.not_lt.mpr hFew)] at hCost
    simp only at hCost
    omega
  · rw [hTable, update_self]
    exact hNewSize
  · rw [hTable, update_self]
    exact (by omega : ind ≠ 0)

/-- The end of the loop decides what the call comes to. -/
theorem kfsVnodeWrite_outcome (hConsistent : s.ConsistentAt total full)
    (hReliable : s.mount.Reliable)
    (hLive : s.live ino = true) {f : OpenFile} (hWritable : f.flags &&& (oWronly ||| oRdwr) ≠ 0)
    (hData : data.length ≠ 0)
    (hStart : offset = if f.flags &&& oAppend ≠ 0 then (s.table ino).size else f.offset)
    (hOffset : offset ≤ (s.table ino).size) :
    WriteOutcome total full s ino offset data (kfsVnodeWrite s ino f data) := by
  have hSized := hConsistent.sized ino hLive
  obtain ⟨n, p, s₁, hCount, hBound, hNone, hWrote, hEnd⟩ :=
    @writeLoop_ends total full ino data.length s
    ⟨s.table ino, false, offset, 0⟩ data (hConsistent.open hLive) hReliable hSized.bound hOffset
    (le_refl _)
  have hTake : (data.take n).length = n := List.length_take_of_le hCount
  have hSize := hWrote.size
  have hAt := hWrote.offset
  have hWritten := hWrote.written
  rw [hTake] at hSize hAt hWritten
  simp only [Nat.zero_add] at hSize hAt hWritten
  rw [kfsVnodeWrite_eq hConsistent hReliable hLive hWritable hData hStart]
  generalize writeLoop data.length s ⟨s.table ino, false, offset, 0⟩ data = result at hEnd ⊢
  cases hEnd with
  | all hRest =>
    have hAll : n = data.length := le_antisymm hCount (List.drop_eq_nil_iff.mp hRest)
    exact hWrote.outcome hReliable hBound hCount (by omega) (.inl hAll)
  | stopped err hRest hErr =>
    by_cases hSome : p.totalWritten > 0
    · rw [if_pos hSome]
      refine hWrote.outcome hReliable hBound hCount (by omega) (.inr (hErr.imp ?_ ?_))
      · rintro ⟨_, hFree, hHere⟩
        exact ⟨hFree, by rw [← hSize, ← hHere, hAt]⟩
      · rintro ⟨_, hHere⟩
        exact hAt.symm.trans hHere
    · obtain ⟨rfl, rfl⟩ := hNone (by omega)
      exact .refused hErr
  | torn ind hRest hTorn hHere hNewSize =>
    have hMore : n < data.length := Nat.lt_of_not_le fun hLe => hRest (List.drop_eq_nil_iff.mpr hLe)
    by_cases hSome : p.totalWritten > 0
    · rw [if_pos hSome]
      exact hWrote.outcome_torn hReliable hMore (by omega) hTorn hHere hNewSize
    · obtain ⟨rfl, rfl⟩ := hNone (by omega)
      exact .leaked hTorn hHere hNewSize

/-- `kfs_vnode_write` with room for all that fits the largest file replaces the bytes from the
offset on and touches no other file. -/
theorem kfsVnodeWrite_spec (hConsistent : s.ConsistentAt total full) (hReliable : s.mount.Reliable)
    (hLive : s.live ino = true) {f : OpenFile} {data : List UInt8}
    (hWritable : f.flags &&& (oWronly ||| oRdwr) ≠ 0) (hData : data.length ≠ 0) {offset n : Nat}
    (hStart : offset = if f.flags &&& oAppend ≠ 0 then (s.table ino).size else f.offset)
    (hOffset : offset ≤ (s.table ino).size) (hInside : offset < 138 * 512)
    (hCount : n = min data.length (138 * 512 - offset))
    (hRoom : blockCost (blocksOf (max (s.table ino).size (offset + n))) ≤
      s.freeBelow total + blockCost (blocksOf (s.table ino).size)) :
    ∃ s', kfsVnodeWrite s ino f data = (.ok n, offset + n, s') ∧ s'.ConsistentAt total full ∧
      s.Frame s' [ino] ∧ s'.inodeBitmap = s.inodeBitmap ∧
      s'.files = update s.files ino
        (some ⟨(s.table ino).type,
          overwrite (fileContent s.disk (s.table ino)) offset (data.take n)⟩) := by
  have hOutcome := kfsVnodeWrite_outcome hConsistent hReliable hLive hWritable hData hStart hOffset
  generalize kfsVnodeWrite s ino f data = result at hOutcome ⊢
  cases hOutcome with
  | @wrote k s' hk _ hEnd hRest hFrame hInodes hFree hFiles =>
    obtain ⟨hLive', _, hContent⟩ := Volume.files_eq_some.mp
      ((congrFun hFiles ino).trans (update_self _ _ _))
    have hLength := congrArg List.length hContent
    have hBound := (hRest.sized ino hLive').bound
    rw [length_fileContent, length_overwrite (by rwa [length_fileContent]), length_fileContent,
      List.length_take_of_le hk] at hLength
    have hAll : k = n := by
      unfold blockCost blocksOf at *
      split_ifs at * <;> omega
    subst hAll
    exact ⟨s', rfl, hRest, hFrame, hInodes, hFiles⟩
  | refused hErr =>
    unfold blockCost blocksOf at *
    split_ifs at hRoom <;> omega
  | leaked hTorn hHere hSize =>
    have hLast := hTorn.last
    unfold blockCost blocksOf at *
    split_ifs at hRoom <;> omega
  | torn hk _ hHere hSize hFree _ _ _ =>
    unfold blockCost blocksOf at *
    split_ifs at hRoom <;> omega

end Outcome

end Kryos.Fs
