import Kryos.Fs.VfsRun

/-! Several handles on one regular file: each keeps its own offset, and opening the file
with `O_TRUNC` empties it for all of them. -/
namespace Kryos.Fs

open Trace

variable {s : Volume} {ino : Nat} {dirs : Nat → List Record} {x : Vfs}

/-- Every block below the size is mapped to a data block, and the whole file can be read. -/
structure NoHoles (s : Volume) (ino : Nat) : Prop where
  live : s.live ino = true
  mapped : ∀ b < blocksOf (s.table ino).size,
    ∃ blk, kfsMapBlock s (s.table ino) b = .ok blk ∧ 90 ≤ blk ∧ blk < 32768
  readable : ∃ bytes, (kfsVnodeRead s ino 0 (s.table ino).size).1 = .ok bytes ∧
    bytes.length = (s.table ino).size

theorem Volume.ConsistentAt.noHoles {full : Prop} (h : s.Consistent full)
    (hReliable : s.mount.Reliable) (hLive : s.live ino = true) : NoHoles s ino := by
  have hSized := h.sized ino hLive
  have hBound := hSized.bound
  have hLength := @length_fileContent s.disk (s.table ino)
  refine ⟨hLive, fun b hb => ?_, fileContent s.disk (s.table ino), ?_, hLength⟩
  · have hUsed := (hSized.shape b).mpr (.inl hb)
    have hb' : b < 138 := by
      rw [blocksOf] at hb
      omega
    refine ⟨_, kfsMapBlock_eq hReliable hb' hUsed, ?_⟩
    exact (h.open hLive).range hUsed
  · rw [kfsVnodeRead_eq h hReliable hLive (by omega), List.drop_zero, ← hLength, List.take_length]

/-- Writing through a handle on the file, or opening it with `O_TRUNC|O_WRONLY`. -/
def VfsCall.On (ino : Nat) (x : Vfs) : VfsCall → Prop
  | .write file _ => ∀ f, x.handles file = some f → ∃ v, f.node = .kfs v ∧ v.ino = ino
  | .open path flags => flags = oTrunc ||| oWronly ∧
      ∃ v, vfsResolvePath x.volume path = .ok (.kfs v) ∧ v.ino = ino
  | _ => False

/-- A write does not start beyond the end of the file. -/
def VfsCall.StartsInside (ino : Nat) (x : Vfs) : VfsCall → Prop
  | .write file _ => ∀ f, x.handles file = some f →
      writeStart f.file (x.volume.table ino).size ≤ (x.volume.table ino).size
  | _ => True

/-- A call on a regular file rewrites that file and nothing else. -/
theorem VfsCall.On.rewritten {call : VfsCall} (hOn : call.On ino x)
    (hInside : call.StartsInside ino x) (h : x.volume.WellFormed True dirs)
    (hReliable : x.volume.mount.Reliable) (hFile : kindOf x.volume.files ino = some kfsTypeFile) :
    Rewritten x.volume dirs ino (vfsStep x call).volume := by
  have hType : x.volume.live ino = true → (x.volume.table ino).type ≠ kfsTypeDir := by
    intro hLive hDir
    rw [kindOf, Volume.files_of_live hLive, Option.map_some, hDir] at hFile
    cases hFile
  have hChange := vfsStep_change x call
  generalize (vfsStep x call).volume = s' at hChange
  cases hChange with
  | same => exact .same
  | truncated hPath =>
    obtain ⟨_, v, hPath', hIno⟩ := hOn
    rw [hPath, Except.ok.injEq, Node.kfs.injEq] at hPath'
    rw [hPath', hIno]
    exact h.truncate hReliable ino hType
  | created hPath =>
    obtain ⟨_, v, hPath', _⟩ := hOn
    rw [hPath] at hPath'
    cases hPath'
  | @written file data f v hHandle hNode =>
    obtain ⟨v', hNode', hIno⟩ := hOn f hHandle
    rw [hNode, Node.kfs.injEq] at hNode'
    rw [hNode', hIno]
    exact h.write hReliable ino f.file data (fun hLive => ⟨hType hLive, hInside f hHandle⟩)
  | raw hHandle hNode =>
    obtain ⟨v', hNode', _⟩ := hOn _ hHandle
    rw [hNode] at hNode'
    cases hNode'
  | madeDir => exact hOn.elim
  | unlinked => exact hOn.elim
  | removedDir => exact hOn.elim

theorem Rewritten.kindOf_eq {s' : Volume} (h : Rewritten s dirs ino s') :
    kindOf s'.files = kindOf s.files := by
  cases h with
  | same => rfl
  | changed content hFile _ _ _ hFiles =>
    funext i
    rw [hFiles, kindOf_update, Option.map_some]
    rcases eq_or_ne i ino with rfl | hi
    · rw [Function.update_self, kindOf, hFile]
      rfl
    · rw [Function.update_of_ne hi]

/-- In a run of such calls in which no write starts beyond the end of the file, the file
has no holes. -/
theorem noHoles_of_startsInside {x : Vfs} {dirs : Nat → List Record}
    (h : x.volume.WellFormed True dirs) (hReliable : x.volume.mount.Reliable) {ino : Nat}
    (hFile : kindOf x.volume.files ino = some kfsTypeFile) {calls : List VfsCall}
    (hOn : EachStep vfsStep (fun x call => call.On ino x) x calls)
    (hInside : EachStep vfsStep (fun x call => call.StartsInside ino x) x calls) :
    NoHoles (calls.foldl vfsStep x).volume ino := by
  induction calls generalizing x with
  | nil => exact h.consistent.noHoles hReliable (Volume.table_of_kind hFile).1
  | cons call calls ih =>
    have hRewritten := hOn.1.rewritten hInside.1 h hReliable hFile
    obtain ⟨hMount, hWell⟩ := hRewritten.keeps h
    exact ih hWell (by rw [hMount]; exact hReliable) (by rw [hRewritten.kindOf_eq]; exact hFile)
      hOn.2 hInside.2

/-- `O_TRUNC|O_WRONLY`. -/
def truncWronly : Nat := oTrunc ||| oWronly

/-- A handle on the file `a`, at that offset. -/
def handleA (offset : Nat) : Handle := ⟨.kfs ⟨1, vnodeTypeFile⟩, ⟨offset, truncWronly⟩⟩

theorem VfsCall.On.of_handle {file : Nat} (data : List UInt8) (f : Handle)
    (h : x.handles file = some f) (hNode : f.node = .kfs ⟨ino, vnodeTypeFile⟩) :
    (VfsCall.write file data).On ino x := by
  intro g hg
  cases h.symm.trans hg
  exact ⟨_, hNode, rfl⟩

/-- Two handles on a file: the first has written 600 bytes when the second open empties
the file, and then writes one byte more. -/
def gapCalls : List VfsCall :=
  [.open fileA truncWronly, .write 0 (List.replicate 600 7), .open fileA truncWronly, .write 0 [7]]

/-- The first block of the file is then not mapped, and the file cannot be read. -/
theorem hole_after_truncate :
    ∃ (s : Volume) (dirs : Nat → List Record), s.WellFormed True dirs ∧ s.mount.Reliable ∧
      s.mount.HeapServes ∧ kindOf s.files 1 = some kfsTypeFile ∧
      EachStep vfsStep (fun x call => call.On 1 x) ⟨s, 32768, fun _ => none, 0⟩ gapCalls ∧
      ∃ y, gapCalls.foldl vfsStep ⟨s, 32768, fun _ => none, 0⟩ = y ∧
        (y.volume.table 1).size = 601 ∧
        kfsMapBlock y.volume (y.volume.table 1) 0 = .error (-enoent) ∧
        (kfsVnodeRead y.volume 1 0 601).1 = .error (-enoent) := by
  obtain ⟨dirs, _, hWell, _⟩ := fileVolume_wellFormed
  refine ⟨fileVolume, dirs, hWell, fileVolume_reliable, fileVolume_heapServes, by decide +kernel,
    ⟨⟨rfl, ⟨1, vnodeTypeFile⟩, ?_, rfl⟩, .of_handle _ (handleA 0) ?_ rfl,
      ⟨rfl, ⟨1, vnodeTypeFile⟩, ?_, rfl⟩,
      .of_handle _ (handleA 600) ?_ rfl, trivial⟩, _, rfl, ?_, ?_, ?_⟩ <;> decide +kernel

/-- The same, but the second handle writes. -/
def sharedCalls : List VfsCall :=
  [.open fileA truncWronly, .write 0 (List.replicate 600 7), .open fileA truncWronly, .write 1 [7]]

theorem VfsCall.StartsInside.of_handle {file : Nat} (data : List UInt8) (f : Handle)
    (h : x.handles file = some f) (hOffset : f.file.offset = 0)
    (hAppend : f.file.flags &&& oAppend = 0) : (VfsCall.write file data).StartsInside ino x := by
  intro g hg
  cases h.symm.trans hg
  rw [writeStart, if_neg (not_not.mpr hAppend), hOffset]
  exact Nat.zero_le _

theorem noHoles_of_startsInside_shared :
    ∃ s : Volume, kindOf s.files 1 = some kfsTypeFile ∧
      NoHoles (sharedCalls.foldl vfsStep ⟨s, 32768, fun _ => none, 0⟩).volume 1 := by
  obtain ⟨dirs, _, hWell, _⟩ := fileVolume_wellFormed
  have hKind : kindOf fileVolume.files 1 = some kfsTypeFile := by decide +kernel
  refine ⟨fileVolume, hKind,
    @noHoles_of_startsInside ⟨fileVolume, 32768, fun _ => none, 0⟩ dirs hWell
    fileVolume_reliable 1 hKind sharedCalls ⟨⟨rfl, ⟨1, vnodeTypeFile⟩, ?_, rfl⟩,
      .of_handle _ (handleA 0) ?_ rfl, ⟨rfl, ⟨1, vnodeTypeFile⟩, ?_, rfl⟩,
      .of_handle _ (handleA 0) ?_ rfl, trivial⟩ ⟨trivial, .of_handle _ (handleA 0) ?_ rfl ?_,
      trivial, .of_handle _ (handleA 0) ?_ rfl ?_, trivial⟩⟩ <;> decide +kernel

end Kryos.Fs
