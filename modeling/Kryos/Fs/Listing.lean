import Kryos.Fs.DirectoryMap
import Kryos.Fs.VfsRun

/-! Listing a directory while it changes. The cursor of a listing is a byte offset, which
a removal in front of it does not move. -/
namespace Kryos.Fs

open Function Trace

variable {mount : Mount} {name : CString}

/-- The volume and the offset of a handle on a directory. -/
structure Listing where
  volume : Volume
  offset : Nat

/-- The calls on the handle, and those of others on the same directory. -/
inductive ListingCall where
  | getdents (count : Nat)
  | read (count : Nat)
  | create (name : CString) (type : Nat)
  | unlink (name : CString)
  | rmdir (name : CString)

def listingStep (d : Nat) (x : Listing) : ListingCall → Listing
  | .getdents count => { x with offset := (kfsVnodeGetdents x.volume d x.offset count).2 }
  | .read count => { x with offset := (kfsVnodeRead x.volume d x.offset count).2 }
  | .create name type => { x with volume := (kfsVnodeCreate x.volume d name type).2 }
  | .unlink name => { x with volume := (kfsVnodeUnlink x.volume d name).2 }
  | .rmdir name => { x with volume := (kfsVnodeRmdir x.volume d name).2 }

/-- The entry is in the directory. -/
def Volume.Shows (s : Volume) (d : Nat) (e : Dirent) : Prop :=
  ∃ records r, s.Holds d records ∧ r ∈ records ∧ e.name = r.ent.name ∧ e.ino = r.ent.inode ∧
    e.type = if r.ent.type = kfsTypeDir then dtDir else dtReg

/-- `getdents` returns only entries that are in the directory, and no call fails with
`-EIO`. -/
def ListingCall.Faithful (d : Nat) (x : Listing) : ListingCall → Prop
  | .getdents count =>
    (∀ e, (kfsVnodeGetdents x.volume d x.offset count).1 = .ok (some e) → x.volume.Shows d e) ∧
      (kfsVnodeGetdents x.volume d x.offset count).1 ≠ .error (-eio)
  | .read count => (kfsVnodeRead x.volume d x.offset count).1 ≠ .error (-eio)
  | .create name type => (kfsVnodeCreate x.volume d name type).1 ≠ .error (-eio)
  | .unlink name => (kfsVnodeUnlink x.volume d name).1 ≠ .error (-eio)
  | .rmdir name => (kfsVnodeRmdir x.volume d name).1 ≠ .error (-eio)

/-- The cursor is at the start of a record or at the end of the directory. -/
def Listing.Aligned (d : Nat) (x : Listing) : Prop :=
  ∃ first rest, x.volume.Holds d (first ++ rest) ∧ x.offset = (encodeDir first).length

/-- No record of that name lies before the cursor. -/
def Listing.NotPassed (d : Nat) (x : Listing) (name : CString) : Prop :=
  ∀ before r after, x.volume.Holds d (before ++ r :: after) → r.ent.name = name.bytes →
    x.offset ≤ (encodeDir before).length

/-- A read stops at the start of a record, a removed record has not been listed yet, and a
new record is written whole. -/
def ListingCall.Steady (d : Nat) (x : Listing) : ListingCall → Prop
  | .getdents _ => True
  | .read count => x.offset + count < 2 ^ 64 ∧
    Listing.Aligned d { x with offset := min (x.offset + count) (x.volume.table d).size }
  | .create name _ => RoomFor x.volume d name
  | .unlink name => x.NotPassed d name
  | .rmdir name => x.NotPassed d name

variable {d : Nat} {x : Listing} {dirs : Nat → List Record} {s : Volume}

theorem kfsMapBlock_ne_eio (hReliable : s.mount.Reliable) (inode : Inode) (l : Nat) :
    kfsMapBlock s inode l ≠ .error (-eio) := by
  rw [kfsMapBlock]
  split
  · split <;> simp [enoent, eio]
  · split
    · simp [enoent, eio]
    · split
      · simp [einval, eio]
      · rw [Volume.readSectors_eq hReliable]
        simp only
        split <;> simp [enoent, eio]

/-- A reliable device gives no `-EIO`. -/
theorem readLoop_ne_eio (hReliable : s.mount.Reliable) (inode : Inode) (fuel offset toRead : Nat) :
    (readLoop s inode fuel offset toRead).1 ≠ .error (-eio) := by
  induction fuel generalizing offset toRead with
  | zero => simp [readLoop]
  | succ fuel ih =>
    rw [readLoop]
    split
    · simp
    · have hMap := kfsMapBlock_ne_eio hReliable inode (Word.u32 (offset / 512))
      split
      · rename_i err hErr
        rw [hErr] at hMap
        simpa using hMap
      · rw [Volume.readSectors_eq hReliable]
        simp only
        have hRest := ih (Word.u64 (offset + min (512 - offset % 512) toRead))
          (toRead - min (512 - offset % 512) toRead)
        split
        · rename_i err _ hErr
          rw [hErr] at hRest
          exact hRest
        · simp

theorem kfsVnodeRead_ne_eio (hReliable : s.mount.Reliable) (hMounted : s.Mounted)
    (hLive : s.live d = true) (offset count : Nat) :
    (kfsVnodeRead s d offset count).1 ≠ .error (-eio) := by
  rw [kfsVnodeRead, kfsReadInode_eq hMounted hReliable hLive]
  simp only
  split
  · simp
  · exact readLoop_ne_eio hReliable _ _ _ _

/-- What holds of the directory in the whole run. -/
structure Listing.Kept (d : Nat) (mount : Mount) (x : Listing) : Prop where
  mount : x.volume.mount = mount
  wellFormed : ∃ dirs, x.volume.WellFormed True dirs ∧
    kindOf x.volume.files d = some kfsTypeDir ∧ ∀ r ∈ dirs d, r.ent.name.length ≤ 255
  aligned : x.Aligned d

theorem Volume.Holds.eq_dirs {records : List Record} (hHolds : s.Holds d records)
    (h : s.WellFormed True dirs) (hDir : kindOf s.files d = some kfsTypeDir) :
    records = dirs d := by
  have hHolds' := h.holds hDir
  rw [Volume.Holds, hHolds, Option.some.injEq, File.mk.injEq] at hHolds'
  exact encodeDir_injective hHolds'.2

/-- Of two boundaries between records, the records before the first come first. -/
theorem prefix_of_boundary {first rest before after : List Record} {r : Record}
    (hSplit : first ++ rest = before ++ r :: after)
    (hLe : (encodeDir first).length ≤ (encodeDir before).length) :
    ∃ between, before = first ++ between := by
  rcases List.append_eq_append_iff.mp hSplit with ⟨between, hBefore, _⟩ | ⟨more, hFirst, hMore⟩
  · exact ⟨between, hBefore⟩
  · cases more with
    | nil => exact ⟨[], by rw [hFirst, List.append_nil, List.append_nil]⟩
    | cons q more =>
      have hMin := q.eight_le_reclen
      rw [hFirst, encodeDir_append, encodeDir_cons, List.length_append, List.length_append,
        q.length_bytes] at hLe
      omega

theorem kfsVnodeRead_stop {records : List Record} (h : s.WellFormed True dirs)
    (hReliable : s.mount.Reliable)
    (hHolds : s.Holds d records) {offset count : Nat}
    (hOffset : offset ≤ (encodeDir records).length) (hRange : offset + count < 2 ^ 64) :
    (kfsVnodeRead s d offset count).2 = min (offset + count) (s.table d).size := by
  have hLength : (fileContent s.disk (s.table d)).length = (s.table d).size := length_fileContent
  rw [← hHolds.size] at hOffset
  rw [kfsVnodeRead_eq h.consistent hReliable hHolds.live hRange]
  simp only [List.length_take, List.length_drop, hLength]
  omega

theorem getdents_of_kept (h : x.Kept d mount) (hReliable : mount.Reliable)
    (hHeap : mount.HeapServes) (count : Nat) :
    (ListingCall.getdents count).Faithful d x ∧
      (listingStep d x (.getdents count)).Kept d mount := by
  obtain ⟨dirs, hWell, hDir, hNames⟩ := h.wellFormed
  obtain ⟨first, rest, hHolds, hOffset⟩ := h.aligned
  have hDirs := hHolds.eq_dirs hWell hDir
  have hReliable' : x.volume.mount.Reliable := by rw [h.mount]; exact hReliable
  have hHeap' : x.volume.mount.HeapServes := by rw [h.mount]; exact hHeap
  by_cases hCount : count = 0
  · have hRun : kfsVnodeGetdents x.volume d x.offset count = (.error (-einval), x.offset) := by
      rw [kfsVnodeGetdents, if_pos hCount]
    simp only [ListingCall.Faithful, listingStep, hRun]
    exact ⟨⟨by simp, by simp [einval, eio]⟩, h.mount, h.wellFormed, h.aligned⟩
  cases rest with
  | nil =>
    have hEnd : (encodeDir (first ++ [])).length ≤ x.offset := by rw [List.append_nil, hOffset]
    have hRun := kfsVnodeGetdents_end hWell.consistent hReliable' hHolds hEnd hCount
    simp only [ListingCall.Faithful, listingStep, hRun]
    exact ⟨⟨by simp, by simp⟩, h.mount, h.wellFormed, h.aligned⟩
  | cons r rest =>
    have hRun := kfsVnodeGetdents_at hWell.consistent hReliable' hHeap' hHolds hCount
    rw [← hOffset] at hRun
    have hMem : r ∈ first ++ r :: rest := by simp
    have hShort := hNames r (hDirs ▸ hMem)
    simp only [ListingCall.Faithful, listingStep, hRun]
    refine ⟨⟨fun e he => ?_, by simp⟩, h.mount, h.wellFormed, first ++ [r], rest, ?_, rfl⟩
    · rw [Except.ok.injEq, Option.some.injEq] at he
      refine ⟨_, r, hHolds, hMem, ?_, ?_, ?_⟩
      · rw [← he]
        exact List.take_of_length_le hShort
      · rw [← he]
      · rw [← he]
    · rw [List.append_assoc, List.singleton_append]
      exact hHolds

section

variable (h : x.volume.WellFormed True dirs) (hMount : x.volume.mount = mount)
  (hDir : kindOf x.volume.files d = some kfsTypeDir)
  (hNames : ∀ r ∈ dirs d, r.ent.name.length ≤ 255)

include h hMount hDir hNames

theorem Made.kept {type : Nat} {result : Except Int Vnode × Volume} (hAligned : x.Aligned d)
    (hMade : Made x.volume dirs d name type result) :
    result.1 ≠ .error (-eio) ∧ Listing.Kept d mount { x with volume := result.2 } := by
  obtain ⟨first, rest, hHolds, hOffset⟩ := hAligned
  cases hMade with
  | refused hErr hWell hFrame hFiles =>
    refine ⟨by simpa using hErr, hFrame.mount.trans hMount,
      ⟨dirs, hWell, by rw [hFiles]; exact hDir, hNames⟩, first, rest, ?_, hOffset⟩
    change _ = _
    rw [hFiles]
    exact hHolds
  | existing =>
    exact ⟨by simp, hMount, ⟨dirs, h, hDir, hNames⟩, first, rest, hHolds, hOffset⟩
  | @made s' n r dots _ _ _ _ hEnt hWell hFrame hFiles hLength =>
    refine ⟨by simp, hFrame.mount.trans hMount, ⟨_, hWell, ?_, ?_⟩, first, rest ++ [r], ?_, hOffset⟩
    · rw [hFiles, kindOf, update_self]
      rfl
    · rw [update_self]
      intro q hq
      rcases List.mem_append.mp hq with hOld | hNew
      · exact hNames q hOld
      · rw [List.mem_singleton.mp hNew, hEnt]
        exact hLength
    · change _ = _
      rw [hFiles, update_self, ← List.append_assoc, hHolds.eq_dirs h hDir]

theorem Removed.kept {result : Except Int Unit × Volume}
    (hRemoved : Removed x.volume dirs d name result) (hAligned : x.Aligned d)
    (hNotPassed : x.NotPassed d name) :
    result.1 ≠ .error (-eio) ∧ Listing.Kept d mount { x with volume := result.2 } := by
  cases hRemoved with
  | refused hErr => exact ⟨by simpa using hErr, hMount, ⟨dirs, h, hDir, hNames⟩, hAligned⟩
  | @gone s' r before after _ hName hDirs _ hWell hFrame hFiles =>
    obtain ⟨first, rest, hHolds, hOffset⟩ := hAligned
    have hSplit := (hHolds.eq_dirs h hDir).trans hDirs
    have hLe := hNotPassed before r after (hSplit ▸ hHolds) hName
    obtain ⟨between, hBefore⟩ := prefix_of_boundary hSplit (hOffset ▸ hLe)
    refine ⟨by simp, hFrame.mount.trans hMount, ⟨_, hWell, ?_, ?_⟩, first, between ++ after, ?_,
      hOffset⟩
    · rw [hFiles, kindOf, update_self]
      rfl
    · rw [update_self]
      intro q hq
      apply hNames q
      rw [hDirs]
      rcases List.mem_append.mp hq with hOld | hNew
      · exact List.mem_append_left _ hOld
      · exact List.mem_append_right _ (List.mem_cons_of_mem _ hNew)
    · change _ = _
      rw [hFiles, update_self, ← List.append_assoc, hBefore]

end

theorem Listing.Kept.step (h : x.Kept d mount) (hReliable : mount.Reliable)
    (hHeap : mount.HeapServes) {call : ListingCall} (hSteady : call.Steady d x) :
    call.Faithful d x ∧ (listingStep d x call).Kept d mount := by
  have hReliable' : x.volume.mount.Reliable := by rw [h.mount]; exact hReliable
  have hHeap' : x.volume.mount.HeapServes := by rw [h.mount]; exact hHeap
  obtain ⟨dirs, hWell, hDir, hNames⟩ := h.wellFormed
  cases call with
  | getdents count => exact getdents_of_kept h hReliable hHeap count
  | read count =>
    obtain ⟨first, rest, hHolds, hOffset⟩ := h.aligned
    have hStop := kfsVnodeRead_stop hWell hReliable' hHolds
      (by rw [hOffset, encodeDir_append, List.length_append]; omega) hSteady.1
    refine ⟨kfsVnodeRead_ne_eio hReliable' hWell.consistent.mounted hHolds.live _ _, h.mount,
      h.wellFormed, ?_⟩
    rw [listingStep, hStop]
    exact hSteady.2
  | create name type =>
    exact (hWell.create hReliable' hHeap' d name type hSteady).kept hWell h.mount hDir hNames
      h.aligned
  | unlink name =>
    exact (hWell.unlink hReliable' hHeap' d name).kept hWell h.mount hDir hNames h.aligned hSteady
  | rmdir name =>
    exact (hWell.rmdir hReliable' hHeap' d name).kept hWell h.mount hDir hNames h.aligned hSteady

theorem Listing.Kept.run (h : x.Kept d mount) (hReliable : mount.Reliable)
    (hHeap : mount.HeapServes) {calls : List ListingCall}
    (hSteady : EachStep (listingStep d) (fun x call => call.Steady d x) x calls) :
    EachStep (listingStep d) (fun x call => call.Faithful d x) x calls := by
  induction calls generalizing x with
  | nil => trivial
  | cons call calls ih =>
    obtain ⟨hFaithful, hNext⟩ := h.step hReliable hHeap hSteady.1
    exact ⟨hFaithful, ih hNext hSteady.2⟩

/-- If every read stops at the start of a record and no removed record lies before the
cursor, a listing shows only what is in the directory. -/
theorem listing_faithful {x : Listing} {dirs : Nat → List Record} {d : Nat}
    (h : x.volume.WellFormed True dirs) (hReliable : x.volume.mount.Reliable)
    (hHeap : x.volume.mount.HeapServes) (hDir : kindOf x.volume.files d = some kfsTypeDir)
    (hNames : ∀ r ∈ dirs d, r.ent.name.length ≤ 255) (hAligned : x.Aligned d)
    {calls : List ListingCall}
    (hSteady : EachStep (listingStep d) (fun x call => call.Steady d x) x calls) :
    EachStep (listingStep d) (fun x call => call.Faithful d x) x calls :=
  Listing.Kept.run ⟨rfl, ⟨dirs, h, hDir, hNames⟩, hAligned⟩ hReliable hHeap hSteady

/-- A name of sixteen letters. -/
def longName : CString := ⟨List.replicate 16 120, by decide⟩

/-- The only file is removed and another one created before the listing starts. -/
theorem listing_faithful_unlinked :
    ∃ s : Volume, s.files 1 ≠ none ∧ EachStep (listingStep 0) (fun x call => call.Faithful 0 x)
      ⟨s, 0⟩ [.unlink fileA, .create longName vnodeTypeFile, .getdents 1, .getdents 1] := by
  obtain ⟨dirs, r, hWell, hDirs, hEnt, _⟩ := fileVolume_wellFormed
  have hDir : kindOf fileVolume.files 0 = some kfsTypeDir := by decide +kernel
  have hRoom : RoomFor (kfsVnodeUnlink fileVolume 0 fileA).2 0 longName := by decide +kernel
  refine ⟨fileVolume, by decide +kernel, @listing_faithful ⟨fileVolume, 0⟩ dirs 0 hWell
    fileVolume_reliable fileVolume_heapServes hDir ?_ ⟨[], dirs 0, hWell.holds hDir, rfl⟩ _
    ⟨fun _ _ _ _ _ => Nat.zero_le _, hRoom, trivial, trivial, trivial⟩⟩
  rw [hDirs]
  simp [hEnt]

/-- After the first entry has been listed, it is removed; the cursor is then inside the
only record left, and the directory is well-formed. -/
theorem listing_fails_after_unlink :
    ∃ (s : Volume) (dirs dirs' : Nat → List Record) (y : Listing), s.WellFormed True dirs ∧
      s.mount.Reliable ∧ s.mount.HeapServes ∧
      [.create longName vnodeTypeFile, .getdents 1, .unlink fileA].foldl
        (listingStep 0) ⟨s, 0⟩ = y ∧
      y.volume.WellFormed True dirs' ∧
      (kfsVnodeGetdents y.volume 0 y.offset 1).1 = .error (-eio) := by
  obtain ⟨dirs, _, hWell, _⟩ := fileVolume_wellFormed
  obtain ⟨hMount₁, dirs₁, hWell₁⟩ :=
    (hWell.create fileVolume_reliable fileVolume_heapServes 0 longName
    vnodeTypeFile (by decide +kernel)).keeps hWell
  obtain ⟨_, dirs₂, hWell₂⟩ := (hWell₁.unlink (by rw [hMount₁]; exact fileVolume_reliable)
    (by rw [hMount₁]; exact fileVolume_heapServes) 0 fileA).keeps hWell₁
  exact ⟨fileVolume, dirs, dirs₂, _, hWell, fileVolume_reliable, fileVolume_heapServes, rfl, hWell₂,
    by decide +kernel⟩

end Kryos.Fs
