import Kryos.Fs.OutOfSpace

/-! A name that is created and removed again leaves no trace: creation and writes take blocks,
removal gives back the blocks of the file through `kfs_free_inode_blocks` and those of the
directory through `kfs_remove_dirent`. -/
namespace Kryos.Fs

open Function

variable {disk disk' : Nat → Sector} {inode inode' : Inode} {v : Vnode}
  {writes : List (OpenFile × List UInt8)}

variable {total : Nat} {s s₁ s₂ s₃ : Volume} {dirs : Nat → List Record} {d n type : Nat}
  {records : List Record} {name : CString}

/-- The volume is as before: the bitmaps, the directory with its block pointers and bytes, and
every other inode with its data. -/
structure AsBefore (s s' : Volume) (d : Nat) : Prop where
  blockBitmap : s'.blockBitmap = s.blockBitmap
  inodeBitmap : s'.inodeBitmap = s.inodeBitmap
  size : (s'.table d).size = (s.table d).size
  direct : (s'.table d).direct = (s.table d).direct
  indirect : (s'.table d).indirect = (s.table d).indirect
  content : fileContent s'.disk (s'.table d) = fileContent s.disk (s.table d)
  others : ∀ i, i ≠ d → s.live i = true →
    s'.table i = s.table i ∧ fileContent s'.disk (s'.table i) = fileContent s.disk (s.table i)

/-- A write to the file `n` through a handle. -/
def writeFile (n : Nat) (s : Volume) (write : OpenFile × List UInt8) : Volume :=
  (kfsVnodeWrite s n write.1 write.2).2.2

section Removed

/-- The slots of a file of known size are known where they are not empty. -/
theorem slots_eq_of_needed (h : Sized disk inode) (h' : Sized disk' inode')
    (hSize : inode'.size = inode.size)
    (hKept : ∀ k, needed (blocksOf inode.size) k →
      slotBlock disk' inode' k = slotBlock disk inode k) :
    slotBlock disk' inode' = slotBlock disk inode := by
  funext k
  by_cases hk : needed (blocksOf inode.size) k
  · exact hKept k hk
  · have hBefore : slotBlock disk inode k = 0 := by
      by_contra hUsed
      exact hk ((h.shape k).mp hUsed)
    have hAfter : slotBlock disk' inode' k = 0 := by
      by_contra hUsed
      exact hk (hSize ▸ (h'.shape k).mp hUsed)
    rw [hBefore, hAfter]

theorem pointers_of_slots (h : slotBlock disk' inode' = slotBlock disk inode) :
    inode'.direct = inode.direct ∧ inode'.indirect = inode.indirect := by
  constructor
  · funext i
    have hSlot := congrFun h i
    have hi := i.isLt
    simpa [slotBlock, hi] using hSlot
  · rw [← slotBlock_indirect disk' inode', h, slotBlock_indirect]

theorem MadeEntry.ne (hMade : MadeEntry total s s₁ d n records name type)
    (hHolds : s.Holds d records) : n ≠ d := by
  rintro rfl
  have hFresh := hMade.fresh
  rw [hHolds] at hFresh
  cases hFresh

/-- Removing the entry undoes the creation, whatever the file has got in between. -/
theorem MadeEntry.undone (hMade : MadeEntry total s s₁ d n records name type)
    (h : s.ConsistentAt total True) (hHolds : s.Holds d records)
    (hGrown : GrownFile total True n s₁ s₂)
    (hConsistent : s₃.ConsistentAt total True) (hFrame : s₂.Frame s₃ [n, d])
    (hFiles : s₃.files = update (update s₂.files n none) d
      (some ⟨kfsTypeDir, encodeDir records⟩))
    (hShrunk : Shrunk d (encodeDir records).length [n, d] s₂ s₃) (hBeyond : s.Beyond s₃) :
    AsBefore s s₃ d := by
  have hNe := (hMade.ne hHolds).symm
  have hHolds₃ : s₃.Holds d records := by rw [Volume.Holds, hFiles, update_self]
  have hSize : (s₃.table d).size = (s.table d).size := by rw [hHolds₃.size, hHolds.size]
  -- outside the directory and the new inode
  have hOther : ∀ i, i ≠ n → i ≠ d →
      s₃.blocks i = s.blocks i ∧ s₃.table i = s.table i ∧ s₃.files i = s.files i := by
    intro i hin hid
    have hOut : i ∉ [n, d] := by simp [hin, hid]
    refine ⟨?_, ?_, ?_⟩
    · rw [hFrame.blocks i hOut, hGrown.blocks i hin, hMade.frame.blocks i hOut]
    · rw [hShrunk.table i hOut, hGrown.table i hin, hMade.table i hin hid]
    · rw [hFiles, update_of_ne hid, update_of_ne hin, hGrown.files i hin,
        hMade.files, update_of_ne hid, update_of_ne hin]
  -- the directory: what it got has gone, what it had has stayed
  have hSlots : slotBlock s₃.disk (s₃.table d) = slotBlock s.disk (s.table d) := by
    have hSized := h.sized d hHolds.live
    refine slots_eq_of_needed hSized (hConsistent.sized d hHolds₃.live) hSize (fun k hk => ?_)
    have hUsed := (hSized.shape k).mpr hk
    have hLive₁ : s₁.live d = true :=
      (Volume.files_eq_some.mp (by rw [hMade.files, update_self])).1
    have hLive₂ : s₂.live d = true := by
      rw [Volume.live_congr hGrown.inodeBitmap]
      exact hLive₁
    have hSame := hGrown.blocks d hNe
    simp only [Volume.blocks, hLive₁, hLive₂, if_true, Option.some.injEq] at hSame
    rw [hHolds.size] at hk
    rw [hShrunk.keeps k hk, hSame, hMade.keeps k hUsed]
  have hBlocks : s₃.blocks = s.blocks := by
    funext i
    by_cases hid : i = d
    · subst hid
      simp only [Volume.blocks, hHolds.live, hHolds₃.live, if_true, hSlots]
    · by_cases hin : i = n
      · subst hin
        rw [Volume.blocks_eq_none hMade.fresh, Volume.blocks_eq_none]
        rw [hFiles, update_of_ne hid, update_self]
      · exact (hOther i hin hid).1
  obtain ⟨hBlockBits, hInodeBits⟩ := h.bitmaps_eq hConsistent hBeyond hBlocks
  obtain ⟨hDirect, hIndirect⟩ := pointers_of_slots hSlots
  refine ⟨hBlockBits, hInodeBits, hSize, hDirect, hIndirect, ?_, fun i hid hLive => ?_⟩
  · rw [hHolds₃.content, hHolds.content]
  · have hin : i ≠ n := by
      rintro rfl
      have hFile := Volume.files_of_live hLive
      rw [hMade.fresh] at hFile
      cases hFile
    obtain ⟨_, hTable, hFile⟩ := hOther i hin hid
    have hLive₃ : s₃.live i = true := by
      rw [Volume.live_congr hInodeBits]
      exact hLive
    rw [Volume.files_of_live hLive, Volume.files_of_live hLive₃, Option.some.injEq,
      File.mk.injEq] at hFile
    exact ⟨hTable, hFile.2⟩

end Removed

section Calls

theorem kfsVnodeCreate_made (h : s.ConsistentAt total True) (hReliable : s.mount.Reliable)
    (hHeap : s.mount.HeapServes) (hHolds : s.Holds d records)
    (hFresh : ∀ q ∈ records, q.ent.name ≠ name.bytes)
    (hFits : ¬CutsCreate total s (encodeDir records).length (reclenOf name.bytes.length) type)
    (hRun : kfsVnodeCreate s d name type = (.ok v, s₁)) :
    name.Valid ∧ MadeEntry total s s₁ d v.ino records name type := by
  by_cases hValid : name.Valid
  · rw [kfsVnodeCreate_absent h hReliable hHolds hValid hFresh] at hRun
    have hEnds := @createEntry_ends total s d records name h hReliable hHeap hHolds hValid.length_le
      (s.table d) type
    rw [hRun] at hEnds
    refine ⟨hValid, ?_⟩
    cases hEnds with
    | made _ hMade => exact hMade
    | cut hCuts _ _ => exact absurd hCuts hFits
  · obtain ⟨err, _, hErr⟩ := kfsVnodeCreate_invalid h hReliable hHolds hValid type
    rw [hErr] at hRun
    cases hRun

section Removal

variable (hMade : MadeEntry total s s₁ d n records name type) (hValid : name.Valid)
  (hGrown : GrownFile total True n s₁ s₂)

include hMade hGrown

theorem MadeEntry.holds (hHolds : s.Holds d records) :
    s₂.Holds d (records ++ [newRecord n type name hValid hMade.inode]) := by
  rw [Volume.Holds, hGrown.files d (hMade.ne hHolds).symm, hMade.files, update_self,
    encodeDir_append, encodeDir_cons, encodeDir_nil, List.append_nil, newRecord_bytes]

/-- The first half of unlink and rmdir finds the new file. -/
theorem MadeEntry.found (hHolds : s.Holds d records)
    (hFresh : ∀ q ∈ records, q.ent.name ≠ name.bytes)
    (hReliable : s₂.mount.Reliable) (hHeap : s₂.mount.HeapServes) :
    findTarget s₂ d name = .ok ⟨s₂.table d,
      encodeDir (records ++ [newRecord n type name hValid hMade.inode]), (encodeDir records).length,
      (newRecord n type name hValid hMade.inode).ent, s₂.table n⟩ := by
  have hHolds₂ := hMade.holds hValid hGrown hHolds
  have hSized := hGrown.loose.others d (hMade.ne hHolds).symm hHolds₂.live
  have hFound :=
    @findTarget_sized total s₂ d records [] (newRecord n type name hValid hMade.inode) name
    hGrown.loose.mounted hReliable hHeap hHolds₂ hSized (by rw [newRecord_ent]; exact hFresh)
    (by rw [newRecord_ent]) (newRecord_isEntry type hValid hMade.inode)
    (by rw [newRecord_ent]; exact hGrown.loose.live)
  rw [newRecord_ent] at hFound ⊢
  exact hFound

theorem MadeEntry.removed (h : s.ConsistentAt total True) (hHolds : s.Holds d records)
    (hReliable : s₂.mount.Reliable) :
    ∃ s₃, removeTarget s₂ d ⟨s₂.table d,
        encodeDir (records ++ [newRecord n type name hValid hMade.inode]),
          (encodeDir records).length,
        (newRecord n type name hValid hMade.inode).ent, s₂.table n⟩ = (.ok (), s₃) ∧
      (s.Beyond s₃ → AsBefore s s₃ d) := by
  have hEnt := @newRecord_ent n name type hValid hMade.inode
  have hInode : (newRecord n type name hValid hMade.inode).ent.inode = n := by rw [hEnt]
  obtain ⟨s₃, hRun, hConsistent, hFrame, hFiles, hShrunk⟩ :=
    @removeTarget_spec total True s₂ d records []
    (newRecord n type name hValid hMade.inode) _ (by rw [hInode]; exact hGrown.loose) hReliable
    (hMade.holds hValid hGrown hHolds) (by rw [hInode]; exact hMade.ne hHolds)
    (by rw [hInode]; exact Nat.pos_iff_ne_zero.mp hMade.root)
  have hLength : (encodeDir (records ++ [newRecord n type name hValid hMade.inode])).length -
      (newRecord n type name hValid hMade.inode).ent.reclen = (encodeDir records).length := by
    rw [encodeDir_append, encodeDir_cons, encodeDir_nil, List.append_nil, List.length_append,
      Record.length_bytes, Nat.add_sub_cancel]
  rw [hLength] at hShrunk
  rw [List.append_nil] at hFiles
  rw [hInode] at hRun hFrame hFiles hShrunk
  exact ⟨s₃, hRun, hMade.undone h hHolds hGrown hConsistent hFrame hFiles hShrunk⟩

end Removal

theorem writeFile_run (h : s₁.LooseAt total True n (s₁.table n)) (hReliable : s₁.mount.Reliable)
    (hSpace : Trace.EachStep (writeFile n) (fun s w => ¬LeaksBlock total s n w.1) s₁ writes) :
    GrownFile total True n s₁ (writes.foldl (writeFile n) s₁) ∧
      s₁.Beyond (writes.foldl (writeFile n) s₁) := by
  refine @Trace.foldl_invariant _ _ (writeFile n)
    (fun s₂ => GrownFile total True n s₁ s₂ ∧ s₁.Beyond s₂) _ ?_ s₁
      ⟨.refl h, .refl s₁⟩ writes hSpace
  rintro s₂ write ⟨hGrown, hBeyond⟩ hLeak
  have hReliable₂ : s₂.mount.Reliable := by rw [hGrown.mount]; exact hReliable
  exact ⟨hGrown.trans (kfsVnodeWrite_any hGrown.loose hReliable₂ write.1 write.2 hLeak),
    hBeyond.trans (kfsVnodeWrite_marks s₂ n write.1 write.2).toBeyond⟩

section

variable (h : s.ConsistentAt total True) (hReliable : s.mount.Reliable) (hHeap : s.mount.HeapServes)
  (hHolds : s.Holds d records) (hFresh : ∀ q ∈ records, q.ent.name ≠ name.bytes)

include h hReliable hHeap hHolds hFresh

theorem unlink_restores (hRun : kfsVnodeCreate s d name vnodeTypeFile = (.ok v, s₁))
    (hFits : ¬CutsCreate total s (encodeDir records).length
      (reclenOf name.bytes.length) vnodeTypeFile)
    (hSpace : Trace.EachStep (writeFile v.ino)
      (fun s w => ¬LeaksBlock total s v.ino w.1) s₁ writes) :
    ∃ s₃, kfsVnodeUnlink (writes.foldl (writeFile v.ino) s₁) d name = (.ok (), s₃) ∧
      AsBefore s s₃ d := by
  obtain ⟨hValid, hMade⟩ := kfsVnodeCreate_made h hReliable hHeap hHolds hFresh hFits hRun
  have hCreated := (kfsVnodeCreate_marks s d name vnodeTypeFile).toBeyond
  rw [hRun] at hCreated
  have hReliable₁ : s₁.mount.Reliable := by rw [hMade.frame.mount]; exact hReliable
  obtain ⟨hLive₁, hType₁, _⟩ := Volume.files_eq_some.mp (by
    rw [hMade.files, update_of_ne (hMade.ne hHolds), update_self])
  obtain ⟨hGrown, hWritten⟩ :=
    writeFile_run (hMade.consistent.open hLive₁).loose hReliable₁ hSpace
  generalize writes.foldl (writeFile v.ino) s₁ = s₂ at hGrown hWritten ⊢
  have hReliable₂ : s₂.mount.Reliable := by rw [hGrown.mount]; exact hReliable₁
  have hHeap₂ : s₂.mount.HeapServes := by rw [hGrown.mount, hMade.frame.mount]; exact hHeap
  obtain ⟨s₃, hRemove, hBack⟩ := hMade.removed hValid hGrown h hHolds hReliable₂
  have hNotDir : (s₂.table v.ino).type ≠ kfsTypeDir := by
    rw [hGrown.type, hType₁]
    exact (by decide : kfsTypeFor vnodeTypeFile ≠ kfsTypeDir)
  have hUnlink : kfsVnodeUnlink s₂ d name = (.ok (), s₃) := by
    rw [kfsVnodeUnlink, hMade.found hValid hGrown hHolds hFresh hReliable₂ hHeap₂]
    simp only [hNotDir, if_false, hRemove]
  have hUnlinked := kfsVnodeUnlink_marks s₂ d name
  rw [hUnlink] at hUnlinked
  exact ⟨s₃, hUnlink, hBack ((hCreated.trans hWritten).trans hUnlinked.toBeyond)⟩

theorem rmdir_restores (hRun : kfsVnodeCreate s d name vnodeTypeDir = (.ok v, s₁))
    (hFits : ¬CutsCreate total s (encodeDir records).length
      (reclenOf name.bytes.length) vnodeTypeDir) :
    ∃ s₃, kfsVnodeRmdir s₁ d name = (.ok (), s₃) ∧ AsBefore s s₃ d := by
  obtain ⟨hValid, hMade⟩ := kfsVnodeCreate_made h hReliable hHeap hHolds hFresh hFits hRun
  have hCreated := (kfsVnodeCreate_marks s d name vnodeTypeDir).toBeyond
  rw [hRun] at hCreated
  have hReliable₁ : s₁.mount.Reliable := by rw [hMade.frame.mount]; exact hReliable
  have hHeap₁ : s₁.mount.HeapServes := by rw [hMade.frame.mount]; exact hHeap
  have hDots : s₁.Holds v.ino (newDots v.ino d hMade.inode (Volume.live_lt hHolds.live)) := by
    rw [Volume.Holds, hMade.files, update_of_ne (hMade.ne hHolds), update_self,
      encodeDir_newDots]
    rfl
  have hGrown : GrownFile total True v.ino s₁ s₁ := .refl (hMade.consistent.open hDots.live).loose
  obtain ⟨s₃, hRemove, hBack⟩ := hMade.removed hValid hGrown h hHolds hReliable₁
  have hEnt := @newRecord_ent v.ino name vnodeTypeDir hValid hMade.inode
  have hNone :
      (newDots v.ino d hMade.inode (Volume.live_lt hHolds.live)).any Record.isEntry = false := by
    simp [newDots, Record.isEntry, dotRecord_ent, dot, dotDot]
  have hEmpty : checkEmpty s₁ ⟨s₁.table d,
      encodeDir (records ++ [newRecord v.ino vnodeTypeDir name hValid hMade.inode]),
      (encodeDir records).length, (newRecord v.ino vnodeTypeDir name hValid hMade.inode).ent,
      s₁.table v.ino⟩ = .ok () := by
    have hCheck := @checkEmpty_eq total True s₁ _ hMade.consistent hReliable₁ hHeap₁
      (newRecord v.ino vnodeTypeDir name hValid hMade.inode).ent (by rw [hEnt]; exact hDots)
      (s₁.table d) (encodeDir (records ++ [newRecord v.ino vnodeTypeDir name hValid hMade.inode]))
      (encodeDir records).length
    rw [hNone, hEnt] at hCheck
    rw [hEnt]
    exact hCheck
  have hRmdir : kfsVnodeRmdir s₁ d name = (.ok (), s₃) := by
    rw [kfsVnodeRmdir, hMade.found hValid hGrown hHolds hFresh hReliable₁ hHeap₁]
    simp only [hDots.type, ne_eq, not_true_eq_false, if_false, hEmpty, hRemove]
  have hRemoved := kfsVnodeRmdir_marks s₁ d name
  rw [hRmdir] at hRemoved
  exact ⟨s₃, hRmdir, hBack (hCreated.trans hRemoved.toBeyond)⟩

end

/-- A fresh name that is created and removed again leaves the volume as it was: a file with
any writes to it through any handles, or a directory. Space is enough when the record goes
into the directory whole and no write fails after it has taken an indirect block. -/
theorem create_remove_restores (h : s.WellFormedAt total True dirs) (hReliable : s.mount.Reliable)
    (hHeap : s.mount.HeapServes) (hDir : kindOf s.files d = some kfsTypeDir)
    (hFresh : ∀ q ∈ dirs d, q.ent.name ≠ name.bytes) :
    (∀ v s₁ writes, kfsVnodeCreate s d name vnodeTypeFile = (.ok v, s₁) →
      ¬CutsCreate total s (encodeDir (dirs d)).length (reclenOf name.bytes.length) vnodeTypeFile →
      Trace.EachStep (writeFile v.ino) (fun s w => ¬LeaksBlock total s v.ino w.1) s₁ writes →
      ∃ s₃, kfsVnodeUnlink (writes.foldl (writeFile v.ino) s₁) d name = (.ok (), s₃) ∧
        AsBefore s s₃ d) ∧
    ∀ v s₁, kfsVnodeCreate s d name vnodeTypeDir = (.ok v, s₁) →
      ¬CutsCreate total s (encodeDir (dirs d)).length (reclenOf name.bytes.length) vnodeTypeDir →
      ∃ s₃, kfsVnodeRmdir s₁ d name = (.ok (), s₃) ∧ AsBefore s s₃ d :=
  ⟨fun _ _ _ hRun hFits hSpace =>
      unlink_restores h.consistent hReliable hHeap (h.holds hDir) hFresh hRun hFits hSpace,
    fun _ _ hRun hFits =>
      rmdir_restores h.consistent hReliable hHeap (h.holds hDir) hFresh hRun hFits⟩

theorem mkfsVolume_fits (count type : Nat) :
    ¬CutsCreate 32768 mkfsVolume (encodeDir ([] : List Record)).length count type := by
  rintro ⟨_, _, _, ⟨hInside, _⟩ | ⟨hTen, _⟩⟩
  · exact hInside rfl
  · cases hTen

/-- A file with a hole in a new volume. -/
theorem create_remove_restores_hole :
    ∃ v s₁ s₃, kfsVnodeCreate mkfsVolume 0 (letter 97 (by decide)) vnodeTypeFile = (.ok v, s₁) ∧
      kfsVnodeUnlink (writeFile v.ino s₁ (⟨60000, oWronly⟩, [7])) 0 (letter 97 (by decide)) =
        (.ok (), s₃) ∧ AsBefore mkfsVolume s₃ 0 := by
  have hDir : kindOf mkfsVolume.files 0 = some kfsTypeDir := by
    rfl
  have hHolds := mkfsVolume_wellFormed.holds hDir
  have hCreated := @kfsVnodeCreate_new 32768 mkfsVolume 0 [] (letter 97 (by decide))
    mkfsVolume_consistent mkfsVolume_reliable mkfsVolume_heapServes hHolds letter_a_valid
    (le_trans (by decide) mkfsVolume_consistent.room) (fun q hq => by cases hq) vnodeTypeFile
  generalize hRun : kfsVnodeCreate mkfsVolume 0 (letter 97 (by decide)) vnodeTypeFile = result
    at hCreated
  cases hCreated with
  | noInode hNone =>
    have hLive := hNone 1 (by decide) (by decide)
    cases hLive
  | full hFull => cases hFull
  | @made n s₁ _ _ _ _ _ hConsistent _ _ =>
    have hRoom : 14886 ≤ s₁.freeBelow 32768 := hConsistent.room
    obtain ⟨s₃, hUnlink, hBack⟩ := (create_remove_restores mkfsVolume_wellFormed mkfsVolume_reliable
      mkfsVolume_heapServes hDir (fun q hq => by cases hq)).1 _ s₁ [(⟨60000, oWronly⟩, [7])] hRun
      (mkfsVolume_fits _ _) ⟨fun hLeaks => by
        have hOne : s₁.freeBelow 32768 = 1 := hLeaks.2.2.2
        omega, trivial⟩
    exact ⟨_, s₁, s₃, rfl, hUnlink, hBack⟩

end Calls

end Kryos.Fs
