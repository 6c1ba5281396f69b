import Kryos.Base.Trace
import Kryos.Fs.DirectoryCalls
import Kryos.Fs.Image

/-! Runs of the operations of KFS from a well-formed volume. -/
namespace Kryos.Fs

open Bitmap Function Trace

variable {full : Prop} {s : Volume} {d : Nat} {dirs : Nat → List Record} {name : CString}

/-- A well-formed volume has all that the calls rely on. -/
theorem Volume.WellFormed.browsable (h : s.WellFormed True dirs) : s.Browsable dirs where
  consistent := h.consistent
  content := h.tree.content
  kinds := by
    intro d r hr
    have hNamed := h.tree.linked.named d hr.dir r hr.mem
    rcases h.tree.linked.kinds _ _ hNamed with hType | hType
    · exact .inl (hType ▸ hNamed)
    · exact .inr (hType ▸ hNamed)
  rootless := h.tree.linked.rootless

section Remove

/-- What unlink and rmdir come to in a well-formed volume. -/
inductive Removed (s : Volume) (dirs : Nat → List Record) (d : Nat) (name : CString) :
    Except Int Unit × Volume → Prop where
  | refused {err : Int} (hErr : err ≠ -eio) : Removed s dirs d name (.error err, s)
  | gone {s' : Volume} {r : Record} {before after : List Record}
      (hEntry : EntryOf (kindOf s.files) dirs d r) (hName : r.ent.name = name.bytes)
      (hDirs : dirs d = before ++ r :: after) (hBefore : ∀ q ∈ before, q.ent.name ≠ r.ent.name)
      (hWell : s'.WellFormed True (update dirs d (before ++ after)))
      (hFrame : s.Frame s' [r.ent.inode, d])
      (hFiles : s'.files = update (update s.files r.ent.inode none) d
        (some ⟨kfsTypeDir, encodeDir (before ++ after)⟩)) :
      Removed s dirs d name (.ok (), s')

theorem Removal.removed {result : Except Int Unit × Volume} (h : s.WellFormed True dirs)
    (hRemoval : Removal s dirs d name result) : Removed s dirs d name result := by
  cases hRemoval with
  | refused hErr => exact .refused hErr
  | gone hEntry hName hDirs hBefore hEmpty hConsistent hFrame hFiles =>
    refine .gone hEntry hName hDirs hBefore ⟨hConsistent, ?_⟩ hFrame hFiles
    rw [hFiles]
    exact h.tree.remove hEntry hDirs hEmpty

theorem Volume.WellFormed.unlink (h : s.WellFormed True dirs) (hReliable : s.mount.Reliable)
    (hHeap : s.mount.HeapServes) (d : Nat) (name : CString) :
    Removed s dirs d name (kfsVnodeUnlink s d name) :=
  (h.browsable.unlink hReliable hHeap d name).removed h

theorem Volume.WellFormed.rmdir (h : s.WellFormed True dirs) (hReliable : s.mount.Reliable)
    (hHeap : s.mount.HeapServes) (d : Nat) (name : CString) :
    Removed s dirs d name (kfsVnodeRmdir s d name) :=
  (h.browsable.rmdir hReliable hHeap d name).removed h

end Remove

section Create

/-- What a creation comes to in a well-formed volume. -/
inductive Made (s : Volume) (dirs : Nat → List Record) (d : Nat) (name : CString) (type : Nat) :
    Except Int Vnode × Volume → Prop where
  | refused {s' : Volume} {err : Int} (hErr : err ≠ -eio) (hWell : s'.WellFormed True dirs)
      (hFrame : s.Frame s' [])
      (hFiles : s'.files = s.files) : Made s dirs d name type (.error err, s')
  | existing {r : Record} (hType : type ≠ vnodeTypeDir) (hEntry : EntryOf (kindOf s.files) dirs d r)
      (hName : r.ent.name = name.bytes) :
      Made s dirs d name type (.ok ⟨r.ent.inode, vnodeTypeOf r.ent.type⟩, s)
  | made {s' : Volume} {n : Nat} {r : Record} (dots : List Record)
      (hDir : kindOf s.files d = some kfsTypeDir)
      (hFirst : firstClear s.inodeBitmap 1 128 = some n) (hFree : s.files n = none)
      (hFresh : ∀ q ∈ dirs d, q.ent.name ≠ name.bytes)
      (hEnt : r.ent = ⟨n, reclenOf name.bytes.length, kfsTypeFor type, name.bytes⟩)
      (hWell : s'.WellFormed True
        (update (update dirs n dots) d (dirs d ++ [r])))
      (hFrame : s.Frame s' [n, d])
      (hFiles : s'.files = update
        (update s.files n (some ⟨kfsTypeFor type, newContent (kfsTypeFor type) n d⟩)) d
        (some ⟨kfsTypeDir, encodeDir (dirs d ++ [r])⟩))
      (hLength : name.bytes.length ≤ 255) :
      Made s dirs d name type (.ok ⟨n, vnodeTypeOf (kfsTypeFor type)⟩, s')

theorem Creation.wellFormed {type : Nat} {result : Except Int Vnode × Volume}
    (h : s.WellFormed True dirs)
    (hCreation : Creation s dirs d name type result) : Made s dirs d name type result := by
  cases hCreation with
  | refused hErr hConsistent hFrame hFiles =>
    exact .refused hErr ⟨hConsistent, by rw [hFiles]; exact h.tree⟩ hFrame hFiles
  | existing hType hEntry hName => exact .existing hType hEntry hName
  | @made s' n hValid hInode hParent hRoot hDir hFirst hFree hFresh hConsistent hFrame hFiles =>
    have hEnt := @newRecord_ent n name type hValid hInode
    refine .made (newDots n d hInode hParent) hDir hFirst hFree hFresh hEnt ⟨hConsistent, ?_⟩
      hFrame hFiles hValid.length_le
    rw [hFiles]
    exact h.tree.create hDir hFree hRoot (kfsTypeFor_cases type) (newContent_dots hInode hParent)
      (newDots_spec hInode hParent) (newRecord_isEntry type hValid hInode) (by rw [hEnt])
      (by rw [hEnt]) (by rw [hEnt]; exact hFresh)

theorem Volume.WellFormed.create (h : s.WellFormed True dirs) (hReliable : s.mount.Reliable)
    (hHeap : s.mount.HeapServes) (d : Nat) (name : CString) (type : Nat)
    (hRoom : RoomFor s d name) : Made s dirs d name type (kfsVnodeCreate s d name type) :=
  (h.browsable.create hReliable hHeap d name type hRoom).wellFormed h

end Create

section Contents

/-- What writing and truncating a regular file comes to. -/
inductive Rewritten (s : Volume) (dirs : Nat → List Record) (ino : Nat) : Volume → Prop where
  | same : Rewritten s dirs ino s
  | changed {s' : Volume} {file : File} (content : List UInt8) (hFile : s.files ino = some file)
      (hType : file.type ≠ kfsTypeDir) (hWell : s'.WellFormed True dirs)
      (hFrame : s.Frame s' [ino])
      (hFiles : s'.files = update s.files ino (some ⟨file.type, content⟩)) :
      Rewritten s dirs ino s'

/-- Where a write through a handle starts. -/
def writeStart (f : OpenFile) (size : Nat) : Nat :=
  if f.flags &&& oAppend ≠ 0 then size else f.offset

/-- The inode is not a directory, and a write through the handle starts within it. -/
def WriteInside (s : Volume) (ino : Nat) (f : OpenFile) : Prop :=
  s.live ino = true → (s.table ino).type ≠ kfsTypeDir ∧
    writeStart f (s.table ino).size ≤ (s.table ino).size

instance (s : Volume) (ino : Nat) (f : OpenFile) : Decidable (WriteInside s ino f) :=
  inferInstanceAs (Decidable (_ → _))

theorem Volume.WellFormed.write (h : s.WellFormed True dirs) (hReliable : s.mount.Reliable)
    (ino : Nat) (f : OpenFile) (data : List UInt8) (hInside : WriteInside s ino f) :
    Rewritten s dirs ino (kfsVnodeWrite s ino f data).2.2 := by
  by_cases hWritable : f.flags &&& (oWronly ||| oRdwr) = 0
  · rw [kfsVnodeWrite, if_pos hWritable]
    exact .same
  by_cases hData : data.length = 0
  · rw [kfsVnodeWrite, if_neg hWritable, if_pos hData]
    exact .same
  cases hLive : s.live ino with
  | false =>
    obtain ⟨err, _, hErr⟩ := kfsReadInode_dead h.consistent.mounted hLive
    rw [kfsVnodeWrite, if_neg hWritable, if_neg hData, hErr]
    exact .same
  | true =>
    obtain ⟨hType, hStart⟩ := hInside hLive
    have hBound := (h.consistent.sized ino hLive).bound
    have hRoom := h.consistent.room
    by_cases hEnd : writeStart f (s.table ino).size < 138 * 512
    · obtain ⟨s', hRun, hConsistent, hFrame, _, hFiles⟩ :=
        @kfsVnodeWrite_spec 32768 True s ino h.consistent hReliable hLive f data hWritable hData
          (writeStart f (s.table ino).size) _ rfl hStart hEnd rfl
          (le_trans (blockCost_le (max_le hBound (by omega))) (by omega))
      rw [hRun]
      refine .changed _ (Volume.files_of_live hLive) hType ⟨hConsistent, ?_⟩ hFrame hFiles
      rw [hFiles]
      exact h.tree.setContent (Volume.files_of_live hLive) hType _
    · rw [kfsVnodeWrite_full h.consistent hReliable hLive hWritable hData
        (le_antisymm (le_trans hStart hBound) (not_lt.mp hEnd))]
      exact .same

theorem Volume.WellFormed.truncate (h : s.WellFormed True dirs) (hReliable : s.mount.Reliable)
    (ino : Nat) (hType : s.live ino = true → (s.table ino).type ≠ kfsTypeDir) :
    Rewritten s dirs ino (kfsVnodeTruncate s ino).2 := by
  cases hLive : s.live ino with
  | false =>
    obtain ⟨err, _, hErr⟩ := kfsReadInode_dead h.consistent.mounted hLive
    rw [kfsVnodeTruncate, hErr]
    exact .same
  | true =>
    obtain ⟨s', hRun, hConsistent, hFrame, _, hFiles⟩ :=
      kfsVnodeTruncate_spec h.consistent hReliable hLive
    rw [hRun]
    refine .changed _ (Volume.files_of_live hLive) (hType hLive) ⟨hConsistent, ?_⟩ hFrame hFiles
    rw [hFiles]
    exact h.tree.setContent (Volume.files_of_live hLive) (hType hLive) _

end Contents

section ReadAfterWrite

theorem Volume.ConsistentAt.weaken (h : s.Consistent full) : s.Consistent False :=
  ⟨h.mounted, h.exclusive, h.sized, fun hFalse => hFalse.elim⟩

/-- A write replaces the bytes from its start on, as far as a file can reach. Reads
then return these bytes, and the other files are as before. -/
theorem kfsVnodeRead_after_write {s : Volume} (hConsistent : s.Consistent False)
    (hReliable : s.mount.Reliable) {ino : Nat} {file : File} (hFile : s.files ino = some file)
    (hType : file.type = kfsTypeFile) {f : OpenFile}
    (hWritable : f.flags &&& (oWronly ||| oRdwr) ≠ 0) {data : List UInt8} (hData : data ≠ [])
    {offset n : Nat} (hStart : offset = writeStart f file.content.length)
    (hOffset : offset ≤ file.content.length) (hInside : offset < 138 * 512)
    (hCount : n = min data.length (138 * 512 - offset))
    (hRoom : blockCost (blocksOf (max file.content.length (offset + n))) ≤
      s.freeBlocks + blockCost (blocksOf file.content.length)) :
    ∃ s' content, kfsVnodeWrite s ino f data = (.ok n, offset + n, s') ∧
      content = file.content.take offset ++ data.take n ++ file.content.drop (offset + n) ∧
      s'.files ino = some ⟨kfsTypeFile, content⟩ ∧
      (∀ p c, p + c < 2 ^ 64 → kfsVnodeRead s' ino p c =
        (.ok ((content.drop p).take c), p + ((content.drop p).take c).length)) ∧
      ∀ i, i ≠ ino → s'.files i = s.files i := by
  obtain ⟨hLive, hTableType, hContent⟩ := Volume.files_eq_some.mp hFile
  have hSize : (s.table ino).size = file.content.length := by rw [← hContent, length_fileContent]
  have hSome : data.length ≠ 0 := fun hZero => hData (List.eq_nil_of_length_eq_zero hZero)
  obtain ⟨s', hRun, hConsistent', hFrame, _, hFiles⟩ :=
    @kfsVnodeWrite_spec 32768 False s ino hConsistent hReliable hLive f data
      hWritable hSome offset n
      (by rw [hSize]; exact hStart) (by rw [hSize]; exact hOffset) hInside hCount
      (by rw [hSize]; exact hRoom)
  have hTake : (data.take n).length = n := List.length_take_of_le (by omega)
  have hNew : s'.files ino = some ⟨kfsTypeFile,
      file.content.take offset ++ data.take n ++ file.content.drop (offset + n)⟩ := by
    rw [hFiles, update_self, hTableType, hType, hContent, overwrite, hTake]
  obtain ⟨hLive', _, hContent'⟩ := Volume.files_eq_some.mp hNew
  refine ⟨s', _, hRun, rfl, hNew, fun p c hRange => ?_, fun i hi => ?_⟩
  · rw [kfsVnodeRead_eq hConsistent' (by rw [hFrame.mount]; exact hReliable) hLive' hRange,
      hContent']
  · rw [hFiles, update_of_ne hi]

def emptyFile : Inode := { Inode.zero with type := kfsTypeFile, linkCount := 1 }

theorem emptyFile_fits : emptyFile.Fits :=
  Inode.Fits.fresh (Nat.two_pow_pos 32) (by decide) (by decide)

/-- The image with one empty file besides the root. -/
def oneFileVolume : Volume := mkfsVolume.takeInode 1 emptyFile

theorem oneFileVolume_spec :
    oneFileVolume.Consistent True ∧
      oneFileVolume.files = update mkfsVolume.files 1 (some ⟨kfsTypeFile, []⟩) := by
  have hFree : isSet mkfsVolume.inodeBitmap 1 = false := by decide
  obtain ⟨hTaken, hFiles, _⟩ := mkfsVolume_consistent.takeInode (by decide : 1 < 128) hFree
    emptyFile_fits rfl (fun _ => rfl) rfl
  exact ⟨hTaken, hFiles⟩

/-- Three bytes appended to the empty file. -/
theorem kfsVnodeRead_after_first_write :
    ∃ s' content, kfsVnodeWrite oneFileVolume 1 ⟨0, oWronly ||| oAppend⟩ [7, 8, 9] =
        (.ok 3, 0 + 3, s') ∧
      content = ([] : List UInt8).take 0 ++ [7, 8, 9].take 3 ++ ([] : List UInt8).drop (0 + 3) ∧
      s'.files 1 = some ⟨kfsTypeFile, content⟩ ∧
      (∀ p c, p + c < 2 ^ 64 → kfsVnodeRead s' 1 p c =
        (.ok ((content.drop p).take c), p + ((content.drop p).take c).length)) ∧
      ∀ i, i ≠ 1 → s'.files i = oneFileVolume.files i := by
  obtain ⟨hConsistent, hFiles⟩ := oneFileVolume_spec
  have hRoom : 14886 ≤ oneFileVolume.freeBlocks := hConsistent.room
  have hCost : blockCost (blocksOf (max 0 (0 + 3))) = 1 := by decide
  exact @kfsVnodeRead_after_write oneFileVolume hConsistent.weaken mkfsVolume_reliable 1
    ⟨kfsTypeFile, []⟩ (by rw [hFiles, update_self]) rfl ⟨0, oWronly ||| oAppend⟩
    (by decide) [7, 8, 9] (by decide) 0 3 rfl (le_refl _) (by decide) (by decide)
    (by simp only [List.length_nil, hCost]; omega)

end ReadAfterWrite

section Run

/-- The calls that change the volume. A directory or file is given by the inode number
of its vnode, which may be stale. -/
inductive KfsCall where
  | create (dir : Nat) (name : CString) (type : Nat)
  | unlink (dir : Nat) (name : CString)
  | rmdir (dir : Nat) (name : CString)
  | write (ino : Nat) (f : OpenFile) (data : List UInt8)
  | truncate (ino : Nat)

def kfsStep (s : Volume) : KfsCall → Volume
  | .create dir name type => (kfsVnodeCreate s dir name type).2
  | .unlink dir name => (kfsVnodeUnlink s dir name).2
  | .rmdir dir name => (kfsVnodeRmdir s dir name).2
  | .write ino f data => (kfsVnodeWrite s ino f data).2.2
  | .truncate ino => (kfsVnodeTruncate s ino).2

/-- The call does not cut off a record, does not write beyond the end of a file, and
does not write to a directory or truncate it. -/
def KfsCall.Orderly (s : Volume) : KfsCall → Prop
  | .create dir name _ => RoomFor s dir name
  | .unlink _ _ => True
  | .rmdir _ _ => True
  | .write ino f _ => WriteInside s ino f
  | .truncate ino => s.live ino = true → (s.table ino).type ≠ kfsTypeDir

theorem Made.keeps {type : Nat} {result : Except Int Vnode × Volume} (h : s.WellFormed True dirs)
    (hMade : Made s dirs d name type result) :
    result.2.mount = s.mount ∧ ∃ dirs', result.2.WellFormed True dirs' := by
  cases hMade with
  | refused _ hWell hFrame _ => exact ⟨hFrame.mount, _, hWell⟩
  | existing _ _ _ => exact ⟨rfl, _, h⟩
  | made _ _ _ _ _ _ hWell hFrame _ => exact ⟨hFrame.mount, _, hWell⟩

theorem Removed.keeps {result : Except Int Unit × Volume} (h : s.WellFormed True dirs)
    (hRemoved : Removed s dirs d name result) :
    result.2.mount = s.mount ∧ ∃ dirs', result.2.WellFormed True dirs' := by
  cases hRemoved with
  | refused _ => exact ⟨rfl, _, h⟩
  | gone _ _ _ _ hWell hFrame _ => exact ⟨hFrame.mount, _, hWell⟩

theorem Rewritten.keeps {ino : Nat} {s' : Volume} (h : s.WellFormed True dirs)
    (hRewritten : Rewritten s dirs ino s') : s'.mount = s.mount ∧ s'.WellFormed True dirs := by
  cases hRewritten with
  | same => exact ⟨rfl, h⟩
  | changed _ _ _ hWell hFrame _ => exact ⟨hFrame.mount, hWell⟩

theorem Volume.WellFormed.step (h : s.WellFormed True dirs) (hReliable : s.mount.Reliable)
    (hHeap : s.mount.HeapServes) {call : KfsCall} (hOrderly : call.Orderly s) :
    (kfsStep s call).mount = s.mount ∧ ∃ dirs', (kfsStep s call).WellFormed True dirs' := by
  cases call with
  | create dir name type => exact (h.create hReliable hHeap dir name type hOrderly).keeps h
  | unlink dir name => exact (h.unlink hReliable hHeap dir name).keeps h
  | rmdir dir name => exact (h.rmdir hReliable hHeap dir name).keeps h
  | write ino f data =>
    obtain ⟨hMount, hWell⟩ := (h.write hReliable ino f data hOrderly).keeps h
    exact ⟨hMount, dirs, hWell⟩
  | truncate ino =>
    obtain ⟨hMount, hWell⟩ := (h.truncate hReliable ino hOrderly).keeps h
    exact ⟨hMount, dirs, hWell⟩

/-- Orderly calls keep the volume well-formed. As a part of an orderly run is orderly,
this is about every state of the run. -/
theorem wellFormed_of_orderly {s : Volume} {dirs : Nat → List Record}
    (h : s.WellFormed True dirs) (hReliable : s.mount.Reliable) (hHeap : s.mount.HeapServes)
    {calls : List KfsCall} (hOrderly : EachStep kfsStep (fun s call => call.Orderly s) s calls) :
    ∃ dirs', (calls.foldl kfsStep s).WellFormed True dirs' := by
  induction calls generalizing s dirs with
  | nil => exact ⟨dirs, h⟩
  | cons call calls ih =>
    obtain ⟨hFirst, hRest⟩ := hOrderly
    obtain ⟨hMount, dirs', hStep⟩ := h.step hReliable hHeap hFirst
    exact ih hStep (by rw [hMount]; exact hReliable) (by rw [hMount]; exact hHeap) hRest

/-- A one-letter name. -/
def letter (c : UInt8) (h : c ≠ 0) : CString := ⟨[c], by simpa using h.symm⟩

theorem letter_valid {c : UInt8} (h : c ≠ 0) (hDot : c ≠ 46) : (letter c h).Valid := by
  refine ⟨Nat.one_ne_zero, Nat.le_add_left 1 254, ?_⟩
  simp [letter, dot, dotDot, hDot]

/-- A file is created in the new image and removed. -/
theorem wellFormed_after_create_unlink :
    ∃ dirs', ([KfsCall.create 0 (letter 97 (by decide)) vnodeTypeFile,
      KfsCall.unlink 0 (letter 97 (by decide))].foldl kfsStep mkfsVolume).WellFormed True
        dirs' := by
  refine wellFormed_of_orderly mkfsVolume_wellFormed mkfsVolume_reliable mkfsVolume_heapServes
    ⟨?_, trivial, trivial⟩
  left
  decide

/-- The path `a`. -/
def fileA : CString := letter 97 (by decide)

/-- The path `b`. -/
def dirB : CString := letter 98 (by decide)

/-- The volume of the image with the empty file `a`. -/
def fileVolume : Volume := (kfsVnodeCreate mkfsVolume 0 fileA vnodeTypeFile).2

theorem fileVolume_wellFormed :
    ∃ (dirs : Nat → List Record) (r : Record), fileVolume.WellFormed True dirs ∧ dirs 0 = [r] ∧
      r.ent = ⟨1, 12, kfsTypeFile, [97]⟩ ∧ fileVolume.mount = mkfsVolume.mount := by
  have hMade := mkfsVolume_wellFormed.create mkfsVolume_reliable mkfsVolume_heapServes 0 fileA
    vnodeTypeFile (by decide +kernel)
  have hOk : (kfsVnodeCreate mkfsVolume 0 fileA vnodeTypeFile).1 = .ok ⟨1, vnodeTypeFile⟩ := by
    decide +kernel
  rw [fileVolume]
  generalize kfsVnodeCreate mkfsVolume 0 fileA vnodeTypeFile = result at hMade hOk
  cases hMade with
  | refused => cases hOk
  | existing _ hEntry => cases hEntry.mem
  | @made s n r dots _ _ _ _ hEnt hWell hFrame =>
    cases hOk
    exact ⟨_, r, hWell, update_self .., hEnt, hFrame.mount⟩

theorem fileVolume_reliable : fileVolume.mount.Reliable := by
  obtain ⟨_, _, _, _, _, hMount⟩ := fileVolume_wellFormed
  exact mkfsVolume_reliable

theorem fileVolume_heapServes : fileVolume.mount.HeapServes := by
  obtain ⟨_, _, _, _, _, hMount⟩ := fileVolume_wellFormed
  exact mkfsVolume_heapServes

/-- A record for a one-letter name that takes up `reclen` bytes. -/
def slackRecord (n reclen : Nat) (c : UInt8) (hc : c ≠ 0) (hInode : n < 128)
    (hReclen : reclen < 2 ^ 16) (hAligned : reclen % 4 = 0) (hFit : 9 ≤ reclen) : Record :=
  Record.make n reclen kfsTypeFile [c] (by omega) hReclen hAligned (by decide)
    (by simpa using hc.symm) (by simpa using hFit)

theorem slackRecord_ent {n reclen : Nat} {c : UInt8} (hc : c ≠ 0) (hInode : n < 128)
    (hReclen : reclen < 2 ^ 16) (hAligned : reclen % 4 = 0) (hFit : 9 ≤ reclen) :
    (slackRecord n reclen c hc hInode hReclen hAligned hFit).ent = ⟨n, reclen, kfsTypeFile, [c]⟩ :=
  Record.make_ent _ hReclen hAligned _ _ _

def slackA : Record :=
  slackRecord 1 65024 97 (by decide) (by decide) (by decide) (by decide) (by decide)

def slackB : Record :=
  slackRecord 2 5628 98 (by decide) (by decide) (by decide) (by decide) (by decide)

/-- The records of a root directory that ends four bytes below the largest size. -/
def slackRecords : List Record := [slackA, slackB]

theorem slackA_ent : slackA.ent = ⟨1, 65024, kfsTypeFile, [97]⟩ :=
  slackRecord_ent (by decide) (by decide) (by decide) (by decide) (by decide)

theorem slackB_ent : slackB.ent = ⟨2, 5628, kfsTypeFile, [98]⟩ :=
  slackRecord_ent (by decide) (by decide) (by decide) (by decide) (by decide)

def twoFileVolume : Volume := oneFileVolume.takeInode 2 emptyFile

theorem twoFileVolume_spec :
    twoFileVolume.Consistent True ∧ twoFileVolume.mount = mkfsVolume.mount ∧
      twoFileVolume.files = update (update mkfsVolume.files 1
        (some ⟨kfsTypeFile, []⟩)) 2 (some ⟨kfsTypeFile, []⟩) := by
  obtain ⟨hOne, hOneFiles⟩ := oneFileVolume_spec
  have hFree : isSet oneFileVolume.inodeBitmap 2 = false := by decide
  obtain ⟨hTaken, hFiles, hFrame⟩ := hOne.takeInode (by decide : 2 < 128) hFree emptyFile_fits rfl
    (fun _ => rfl) rfl
  exact ⟨hTaken, hFrame.mount, by rw [← hOneFiles]; exact hFiles⟩

theorem length_slackRecords : (encodeDir slackRecords).length = 70652 := by
  simp only [slackRecords, encodeDir_cons, encodeDir_nil, List.append_nil, List.length_append,
    Record.length_bytes, slackA_ent, slackB_ent]

/-- The image with two empty files whose records fill the root directory but for four
bytes. -/
theorem exists_slackVolume :
    ∃ s : Volume, s.Consistent True ∧ s.mount = mkfsVolume.mount ∧
      s.files = update twoFileVolume.files 0
        (some ⟨kfsTypeDir, encodeDir slackRecords⟩) := by
  obtain ⟨hTwo, hMount, hTwoFiles⟩ := twoFileVolume_spec
  have hRoot : twoFileVolume.files 0 = some ⟨kfsTypeDir, []⟩ := by
    rfl
  obtain ⟨hLive, hType, hContent⟩ := Volume.files_eq_some.mp hRoot
  have hSize : (twoFileVolume.table 0).size = 0 :=
    length_fileContent.symm.trans (congrArg List.length hContent)
  have hLength := length_slackRecords
  have hRoom := hTwo.room
  have hMax : max (twoFileVolume.table 0).size (0 + 70652) ≤ 138 * 512 := by omega
  obtain ⟨s, _, hConsistent, hFrame, _, hFiles⟩ :=
    @kfsVnodeWrite_spec 32768 True _ 0 hTwo (by rw [hMount]; exact mkfsVolume_reliable) hLive
      ⟨0, oWronly⟩ (encodeDir slackRecords) oWronly_writable (by omega) 0 70652
      (oWronly_positioned _ _).symm (by omega) (by omega) (by omega)
      (le_trans (blockCost_le hMax) (by omega))
  have hBytes : overwrite [] 0 ((encodeDir slackRecords).take 70652) = encodeDir slackRecords := by
    rw [List.take_of_length_le (le_of_eq hLength)]
    exact overwrite_end [] _
  refine ⟨s, hConsistent, hFrame.mount.trans hMount, ?_⟩
  rw [hFiles, hType, hContent, hBytes]

/-- An empty file with a record in the root directory. -/
theorem TreeOk.addFile {files : Nat → Option File} (h : TreeOk files dirs) {n : Nat} {r : Record}
    (hRoot : kindOf files 0 = some kfsTypeDir) (hFree : files n = none) (hNe : n ≠ 0)
    (hInode : n < 128) (hEntry : r.isEntry = true) (hNamed : r.ent.inode = n)
    (hType : r.ent.type = kfsTypeFile) (hFresh : ∀ q ∈ dirs 0, q.ent.name ≠ r.ent.name) :
    ∃ dirs', dirs' 0 = dirs 0 ++ [r] ∧
      TreeOk (update (update files n (some ⟨kfsTypeFile, []⟩)) 0
        (some ⟨kfsTypeDir, encodeDir (dirs 0 ++ [r])⟩)) dirs' :=
  ⟨_, update_self .., h.create hRoot hFree hNe (.inl rfl)
    (fun hEq => absurd hEq (by decide : kfsTypeFile ≠ kfsTypeDir))
    (newDots_spec hInode (by decide : 0 < 128)) hEntry hNamed hType hFresh⟩

theorem slack_wellFormed {s : Volume} (hConsistent : s.Consistent True)
    (hFiles : s.files = update twoFileVolume.files 0
      (some ⟨kfsTypeDir, encodeDir slackRecords⟩)) :
    ∃ dirs, s.WellFormed True dirs ∧ dirs 0 = slackRecords := by
  obtain ⟨dirs₁, hDirs₁, hTree₁⟩ := @TreeOk.addFile _ _ mkfsVolume_tree 1 slackA
    (by rw [kindOf, mkfsVolume_files]; rfl) (by rw [mkfsVolume_files]; rfl) (by decide) (by decide)
    (by simp [Record.isEntry, slackA_ent, dot, dotDot]) (by rw [slackA_ent])
    (by rw [slackA_ent]) (fun _ hq => by cases hq)
  obtain ⟨dirs₂, hDirs₂, hTree₂⟩ := @TreeOk.addFile _ _ hTree₁ 2 slackB
    (by rw [kindOf, update_self]; rfl)
    (by rw [update_of_ne (by decide), update_of_ne (by decide), mkfsVolume_files]
        rfl)
    (by decide) (by decide) (by simp [Record.isEntry, slackB_ent, dot, dotDot])
    (by rw [slackB_ent]) (by rw [slackB_ent])
    (by rw [hDirs₁, slackB_ent]; simp [slackA_ent])
  have hRecords : dirs₁ 0 ++ [slackB] = slackRecords := by
    rw [hDirs₁]
    rfl
  rw [hRecords] at hDirs₂ hTree₂
  refine ⟨dirs₂, ⟨hConsistent, ?_⟩, hDirs₂⟩
  rw [hFiles, twoFileVolume_spec.2.2]
  rw [update_comm (by decide : (0 : Nat) ≠ 2), update_idem] at hTree₂
  exact hTree₂

/-- A creation in a directory with less room than the record: the record is cut off,
and the directory no longer consists of records. -/
theorem kfsVnodeCreate_cuts_record :
    ∃ (s : Volume) (dirs : Nat → List Record), s.WellFormed True dirs ∧ s.mount.Reliable ∧
      s.mount.HeapServes ∧ ∃ (name : CString) (v : Vnode) (file : File),
        (kfsVnodeCreate s 0 name vnodeTypeFile).1 = .ok v ∧
        (kfsStep s (.create 0 name vnodeTypeFile)).files 0 = some file ∧
        file.type = kfsTypeDir ∧ ∀ records, file.content ≠ encodeDir records := by
  obtain ⟨s, hConsistent, hMount, hFiles⟩ := exists_slackVolume
  obtain ⟨dirs, hWell, hDirs⟩ := slack_wellFormed hConsistent hFiles
  have hReliable : s.mount.Reliable := by rw [hMount]; exact mkfsVolume_reliable
  have hHeap : s.mount.HeapServes := by rw [hMount]; exact mkfsVolume_heapServes
  have hHolds : s.Holds 0 slackRecords := by rw [Volume.Holds, hFiles, update_self]
  have hValid : (letter 99 (by decide)).Valid := ⟨by decide, by decide, by decide⟩
  have hCreated := @kfsVnodeCreate_new 32768 s 0 slackRecords (letter 99 (by decide)) hConsistent
    hReliable hHeap hHolds hValid (le_trans (by decide) hConsistent.room)
    (by simp [slackRecords, slackA_ent, slackB_ent, letter]) vnodeTypeFile
  refine ⟨s, dirs, hWell, hReliable, hHeap, letter 99 (by decide), ?_⟩
  change ∃ v file, (kfsVnodeCreate s 0 (letter 99 (by decide)) vnodeTypeFile).1 = .ok v ∧
    (kfsVnodeCreate s 0 (letter 99 (by decide)) vnodeTypeFile).2.files 0 = some file ∧ _
  generalize kfsVnodeCreate s 0 (letter 99 (by decide)) vnodeTypeFile = result at hCreated
  cases hCreated with
  | noInode hNone =>
    have hFile := Volume.files_of_live (hNone 3 (by decide) (by decide))
    rw [hFiles, update_of_ne (by decide), twoFileVolume_spec.2.2,
      update_of_ne (by decide), update_of_ne (by decide),
      mkfsVolume_files] at hFile
    cases hFile
  | full hFull =>
    rw [length_slackRecords] at hFull
    omega
  | @made n s' _ _ _ _ _ _ _ hNewFiles =>
    have hCut : ((direntRecord n (reclenOf (letter 99 (by decide)).bytes.length)
        (kfsTypeFor vnodeTypeFile) (letter 99 (by decide)).bytes).take
          (138 * 512 - (encodeDir slackRecords).length)).length = 4 := by
      rw [List.length_take, length_slackRecords, length_direntRecord (by decide)]
      decide
    refine ⟨_, _, rfl, by rw [hNewFiles, update_self], rfl, fun records hEq => ?_⟩
    refine encodeDir_ne_append ?_ (by rw [hCut]; decide) hEq.symm
    intro hNil
    rw [hNil] at hCut
    cases hCut

end Run

end Kryos.Fs
