import Kryos.Fs.WriteSpace

/-! `kfs_vnode_write` at any offset and with any number of free blocks. A file may then have
holes and a size that its blocks do not match, but it still holds its blocks alone. -/
namespace Kryos.Fs

open Function Word

variable {total : Nat} {full : Prop} {s s' s'' : Volume} {ino : Nat} {inode inode' inode'' : Inode}

/-- The invariant while an inode is open that has the slots it has. -/
def Volume.LooseAt (total : Nat) (full : Prop) (s : Volume) (ino : Nat) (inode : Inode) : Prop :=
  s.OpenedAt total full ino inode (fun k => slotBlock s.disk inode k ≠ 0)

theorem Volume.OpenedAt.loose {need : Nat → Prop} (h : s.OpenedAt total full ino inode need) :
    s.LooseAt total full ino inode :=
  h.congr_need (fun k => (h.shape k).symm)

/-- An open inode has got blocks and kept those it had. -/
structure Grown (total : Nat) (full : Prop) (ino : Nat) (s : Volume) (inode : Inode) (s' : Volume)
    (inode' : Inode) : Prop where
  loose : s'.LooseAt total full ino inode'
  within : s.Within s' ino
  keeps : ∀ k, slotBlock s.disk inode k ≠ 0 → slotBlock s'.disk inode' k = slotBlock s.disk inode k
  type : inode'.type = inode.type

theorem Grown.refl (h : s.LooseAt total full ino inode) : Grown total full ino s inode s inode :=
  ⟨h, Volume.Within.refl s ino, fun _ _ => rfl, rfl⟩

theorem Grown.trans (h : Grown total full ino s inode s' inode')
    (h' : Grown total full ino s' inode' s'' inode'') :
    Grown total full ino s inode s'' inode'' where
  loose := h'.loose
  within := h.within.trans h'.within
  keeps := fun k hk => by
    have hKept := h.keeps k hk
    rw [h'.keeps k (by rw [hKept]; exact hk), hKept]
  type := h'.type.trans h.type

/-- A fresh block went into an empty slot. -/
theorem Grown.of_took {need : Nat → Prop} {k blk : Nat}
    (h : Volume.Took total full ino need s inode k blk s' inode') :
    Grown total full ino s inode s' inode' where
  loose := h.opened.loose
  within := h.within
  keeps := fun j hj => by
    rw [h.slots, update_of_ne]
    rintro rfl
    exact hj h.empty
  type := h.type

/-- A file that keeps its slots may change its size. -/
theorem Grown.resize (h : Grown total full ino s inode s' inode') {size : Nat}
    (hSize : size < 2 ^ 32) : Grown total full ino s inode s' { inode' with size := size } where
  loose := h.loose.sameBlocks rfl rfl (h.loose.fits.setSize hSize)
  within := h.within
  keeps := h.keeps
  type := h.type

section Map

/-- What is known of the result of a mapping of logical block `l`. -/
structure MapResult (total : Nat) (full : Prop) (ino : Nat) (s : Volume) (inode : Inode) (l : Nat)
    (dirty : Bool) (m : Mapping) (s' : Volume) : Prop where
  grown : Grown total full ino s inode s' m.inode
  clean : m.dirty = false → dirty = false ∧ m.inode = inode
  block : ∀ blk, m.result = .ok blk → l < 138 ∧ blk = slotBlock s'.disk m.inode l ∧ blk ≠ 0
  failed : ∀ err, m.result = .error err →
    s' = s ∨ 10 ≤ l ∧ l < 138 ∧ inode.indirect = 0 ∧ s.freeBelow total = 1

/-- `kfs_map_or_alloc_block` for any logical block of an inode with any slots. -/
theorem kfsMapOrAllocBlock_any (h : s.LooseAt total full ino inode) (hReliable : s.mount.Reliable)
    (l : Nat) (dirty : Bool) :
    ∃ m s', kfsMapOrAllocBlock s inode l dirty = (m, s') ∧
      MapResult total full ino s inode l dirty m s' := by
  have hEnd := Volume.kfsMapOrAllocBlock_ends h hReliable l dirty
  generalize kfsMapOrAllocBlock s inode l dirty = result at hEnd ⊢
  cases hEnd with
  | tooBig | none =>
    exact ⟨_, s, rfl, .refl h, fun hClean => ⟨hClean, rfl⟩, (fun _ hOk => nomatch hOk),
      fun _ _ => .inl rfl⟩
  | found hl hUsed =>
    exact ⟨_, s, rfl, .refl h, fun hClean => ⟨hClean, rfl⟩,
      (fun _ hOk => by cases hOk; exact ⟨hl, rfl, hUsed⟩), (fun _ hErr => nomatch hErr)⟩
  | took hl hTook hClean _ =>
    refine ⟨_, _, rfl, .of_took hTook, hClean, ?_, (fun _ hErr => nomatch hErr)⟩
    rintro _ ⟨⟩
    exact ⟨hl, by rw [hTook.slots, update_self], hTook.block⟩
  | tookBoth _ hl hFirst hSecond =>
    refine ⟨_, _, rfl, (Grown.of_took hFirst).trans (.of_took hSecond),
      (fun hClean => nomatch hClean), ?_, (fun _ hErr => nomatch hErr)⟩
    rintro _ ⟨⟩
    exact ⟨hl, by rw [hSecond.slots, update_self], hSecond.block⟩
  | torn hLo hHi hTorn hTook =>
    refine ⟨_, _, rfl, .of_took hTook, (fun hClean => nomatch hClean), (fun _ hOk => nomatch hOk),
      fun _ _ => .inr ⟨hLo, hHi, ?_, hTorn.last⟩⟩
    rw [← slotBlock_indirect s.disk inode, hTook.empty]

end Map

section Write

/-- The first chunk of a write asks for a block behind an indirect block that is missing, and
one block is free. -/
def LeaksChunk (total : Nat) (s : Volume) (p : WriteProgress) : Prop :=
  10 ≤ u32 (p.offset / 512) ∧ u32 (p.offset / 512) < 138 ∧ p.inode.indirect = 0 ∧
    s.freeBelow total = 1

variable {p p' : WriteProgress} {src : List UInt8}

/-- What is known of a part of the loop. -/
structure Progress (total : Nat) (full : Prop) (ino : Nat) (s : Volume) (p : WriteProgress)
    (s' : Volume) (p' : WriteProgress) : Prop where
  grown : Grown total full ino s p.inode s' p'.inode
  clean : p'.dirty = false → p.dirty = false ∧ p'.inode = p.inode

theorem Progress.trans {p'' : WriteProgress} (h : Progress total full ino s p s' p')
    (h' : Progress total full ino s' p' s'' p'') : Progress total full ino s p s'' p'' where
  grown := h.grown.trans h'.grown
  clean := fun hClean =>
    ⟨(h.clean (h'.clean hClean).1).1, (h'.clean hClean).2.trans (h.clean (h'.clean hClean).1).2⟩

theorem writeChunk_any (h : s.LooseAt total full ino p.inode) (hReliable : s.mount.Reliable)
    (hSome : src.length ≠ 0) :
    ∃ result p' s', writeChunk s p src = (result, p', s') ∧ Progress total full ino s p s' p' ∧
      (∀ err, result = .error err →
        p'.totalWritten = p.totalWritten ∧ (s' = s ∨ LeaksChunk total s p)) ∧
      ∀ chunk, result = .ok chunk → 0 < p'.totalWritten := by
  obtain ⟨⟨result, inode', dirty'⟩, s₁, hMap, hResult⟩ :=
    kfsMapOrAllocBlock_any h hReliable (u32 (p.offset / 512)) p.dirty
  cases result with
  | error err =>
    refine ⟨.error err, { p with inode := inode', dirty := dirty' }, s₁, ?_,
      ⟨hResult.grown, hResult.clean⟩, fun e he => ⟨rfl, hResult.failed err rfl⟩,
      (fun _ hOk => by cases hOk)⟩
    simp only [writeChunk, hMap]
  | ok blk =>
    obtain ⟨hLt, hBlk, hNonzero⟩ := hResult.block blk rfl
    have hReliable₁ : s₁.mount.Reliable := by rw [hResult.grown.within.mount]; exact hReliable
    have hPos : 0 < min (512 - p.offset % 512) src.length := by omega
    generalize hChunk : min (512 - p.offset % 512) src.length = chunk at hPos
    generalize hBuf : (if p.offset % 512 > 0 ∨ chunk < 512 then s₁.readSectors blk
      else .ok (fun _ => 0)) = buf
    obtain ⟨blkBuf, rfl⟩ : ∃ blkBuf, buf = .ok blkBuf := by
      rw [← hBuf]
      split
      · exact ⟨_, s₁.readSectors_eq hReliable₁ blk⟩
      · exact ⟨_, rfl⟩
    generalize hData : copyInto blkBuf (p.offset % 512) (src.take chunk) = data
    obtain ⟨hOpened, hWithin, _⟩ := hResult.grown.loose.putData hLt (hBlk ▸ hNonzero) data
    have hSlots := hResult.grown.loose.putData_slots hLt data
    rw [← hBlk] at hOpened hWithin hSlots
    have hPut : Grown total full ino s₁ inode' (s₁.putSector blk data) inode' :=
      ⟨hOpened.loose, hWithin, fun k _ => by rw [hSlots], rfl⟩
    have hGrown := hResult.grown.trans hPut
    refine ⟨.ok chunk,
      { inode := if decide (u64 (p.offset + chunk) > inode'.size) then
          { inode' with size := u32 (u64 (p.offset + chunk)) } else inode'
        dirty := dirty' || decide (u64 (p.offset + chunk) > inode'.size)
        offset := u64 (p.offset + chunk)
        totalWritten := p.totalWritten + chunk }, s₁.putSector blk data, ?_, ⟨?_, ?_⟩, ?_, ?_⟩
    · simp only [writeChunk, hMap, hChunk, hBuf, hData, Volume.writeSectors_eq hReliable₁]
    · split
      · exact hGrown.resize (Nat.mod_lt _ (Nat.two_pow_pos 32))
      · exact hGrown
    · intro hClean
      rw [Bool.or_eq_false_iff] at hClean
      rw [if_neg (by rw [hClean.2]; exact Bool.false_ne_true)]
      exact hResult.clean hClean.1
    · intro err hErr
      cases hErr
    · intro _ _
      exact Nat.add_pos_right _ hPos

/-- The loop: it stops with an error only in the first turn. -/
theorem writeLoop_any (fuel : Nat) (h : s.LooseAt total full ino p.inode)
    (hReliable : s.mount.Reliable) :
    (∃ p' s', writeLoop fuel s p src = (.ok p', s') ∧ Progress total full ino s p s' p') ∨
      ∃ err s', writeLoop fuel s p src = (.error err, s') ∧ p.totalWritten = 0 ∧
        (s' = s ∨ LeaksChunk total s p) := by
  induction fuel generalizing s p src with
  | zero => exact .inl ⟨p, s, rfl, .refl h, fun hClean => ⟨hClean, rfl⟩⟩
  | succ fuel ih =>
    by_cases hSome : src.length = 0
    · refine .inl ⟨p, s, ?_, .refl h, fun hClean => ⟨hClean, rfl⟩⟩
      rw [writeLoop, if_pos hSome]
    obtain ⟨result, p₁, s₁, hTurn, hProgress, hFailed, hWent⟩ := writeChunk_any h hReliable hSome
    cases result with
    | error err =>
      obtain ⟨hSame, hState⟩ := hFailed err rfl
      by_cases hWritten : p₁.totalWritten > 0
      · refine .inl ⟨p₁, s₁, ?_, hProgress⟩
        rw [writeLoop, if_neg hSome, hTurn]
        exact if_pos hWritten
      · refine .inr ⟨err, s₁, ?_, by omega, hState⟩
        rw [writeLoop, if_neg hSome, hTurn]
        exact if_neg hWritten
    | ok chunk =>
      have hReliable₁ : s₁.mount.Reliable := by rw [hProgress.grown.within.mount]; exact hReliable
      have hRun : writeLoop (fuel + 1) s p src = writeLoop fuel s₁ p₁ (src.drop chunk) := by
        rw [writeLoop, if_neg hSome, hTurn]
      have hPos := hWent chunk rfl
      rw [hRun]
      rcases @ih s₁ p₁ (src.drop chunk) hProgress.grown.loose hReliable₁ with hDone | hStopped
      · obtain ⟨p₂, s₂, hRest, hProgress₂⟩ := hDone
        exact .inl ⟨p₂, s₂, hRest, hProgress.trans hProgress₂⟩
      · omega

/-- A file of the volume has got blocks and kept those it had; the rest is the same. -/
structure GrownFile (total : Nat) (full : Prop) (ino : Nat) (s s' : Volume) : Prop where
  loose : s'.LooseAt total full ino (s'.table ino)
  mount : s'.mount = s.mount
  inodeBitmap : s'.inodeBitmap = s.inodeBitmap
  table : ∀ i, i ≠ ino → s'.table i = s.table i
  files : ∀ i, i ≠ ino → s'.files i = s.files i
  blocks : ∀ i, i ≠ ino → s'.blocks i = s.blocks i
  keeps : ∀ k, slotBlock s.disk (s.table ino) k ≠ 0 →
    slotBlock s'.disk (s'.table ino) k = slotBlock s.disk (s.table ino) k
  type : (s'.table ino).type = (s.table ino).type

theorem GrownFile.refl (h : s.LooseAt total full ino (s.table ino)) :
    GrownFile total full ino s s :=
  ⟨h, rfl, rfl, fun _ _ => rfl, fun _ _ => rfl, fun _ _ => rfl, fun _ _ => rfl, rfl⟩

theorem GrownFile.trans (h : GrownFile total full ino s s') (h' : GrownFile total full ino s' s'') :
    GrownFile total full ino s s'' where
  loose := h'.loose
  mount := h'.mount.trans h.mount
  inodeBitmap := h'.inodeBitmap.trans h.inodeBitmap
  table := fun i hi => (h'.table i hi).trans (h.table i hi)
  files := fun i hi => (h'.files i hi).trans (h.files i hi)
  blocks := fun i hi => (h'.blocks i hi).trans (h.blocks i hi)
  keeps := fun k hk => by
    have hKept := h.keeps k hk
    rw [h'.keeps k (by rw [hKept]; exact hk), hKept]
  type := h'.type.trans h.type

theorem Grown.stored (h : Grown total full ino s (s.table ino) s' inode') :
    GrownFile total full ino s (s'.putInode ino inode') := by
  obtain ⟨hStored, hTable, hSlots, hOthers⟩ := h.loose.store
  have hInode : (s'.putInode ino inode').table ino = inode' := by rw [hTable, update_self]
  refine ⟨?_, h.within.mount, h.within.inodeBitmap, fun i hi => ?_, fun i hi => ?_, fun i hi => ?_,
    fun k hk => ?_, ?_⟩
  · rw [hInode]
    exact hStored.loose
  · rw [hTable, update_of_ne hi, h.within.table]
  · rw [(hOthers i hi).1, h.within.files i hi]
  · rw [(hOthers i hi).2, h.within.blocks i hi]
  · rw [hInode, hSlots, h.keeps k hk]
  · rw [hInode, h.type]

theorem Grown.settled (h : Grown total full ino s (s.table ino) s' (s.table ino)) :
    GrownFile total full ino s s' := by
  have hInode : s'.table ino = s.table ino := by rw [h.within.table]
  refine ⟨?_, h.within.mount, h.within.inodeBitmap, fun i _ => by rw [h.within.table],
    h.within.files, h.within.blocks, ?_, ?_⟩
  · rw [hInode]
    exact h.loose
  · rw [hInode]
    exact h.keeps
  · rw [hInode]

/-- The write fails in the first block it asks for, and has taken an indirect block for it. -/
def LeaksBlock (total : Nat) (s : Volume) (ino : Nat) (f : OpenFile) : Prop :=
  LeaksChunk total s
    ⟨s.table ino, false, if f.flags &&& oAppend ≠ 0 then (s.table ino).size else f.offset, 0⟩

/-- A write through any handle, with any data, adds blocks to the file and touches no other. -/
theorem kfsVnodeWrite_any (h : s.LooseAt total full ino (s.table ino))
    (hReliable : s.mount.Reliable)
    (f : OpenFile) (data : List UInt8) (hLeak : ¬LeaksBlock total s ino f) :
    GrownFile total full ino s (kfsVnodeWrite s ino f data).2.2 := by
  unfold kfsVnodeWrite
  split
  · exact .refl h
  split
  · exact .refl h
  rw [kfsReadInode_eq h.mounted hReliable h.live]
  have hLoop := @writeLoop_any total full s ino
    ⟨s.table ino, false, if f.flags &&& oAppend ≠ 0 then (s.table ino).size else f.offset, 0⟩ data
    data.length h hReliable
  simp only
  rcases hLoop with ⟨p, s₁, hRun, hProgress⟩ | ⟨err, s₁, hRun, _, hState⟩
  · rw [hRun]
    have hReliable₁ : s₁.mount.Reliable := by rw [hProgress.grown.within.mount]; exact hReliable
    cases hDirty : p.dirty with
    | true =>
      simp only [hDirty, if_true, kfsWriteInode_eq hProgress.grown.loose.mounted hReliable₁
        (Volume.live_lt h.live)]
      exact hProgress.grown.stored
    | false =>
      have hSame := (hProgress.clean hDirty).2
      have hGrown := hProgress.grown
      rw [hSame] at hGrown
      simp only [hDirty, Bool.false_eq_true, if_false]
      exact hGrown.settled
  · rw [hRun]
    rcases hState with hSame | hLeaks
    · rw [hSame]
      exact .refl h
    · exact absurd hLeaks hLeak

end Write

end Kryos.Fs
