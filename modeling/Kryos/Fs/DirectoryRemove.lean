import Kryos.Fs.DirectoryShrink
import Kryos.Fs.DirectoryTree

/-! Lookup, unlink and rmdir in terms of the records of the directory. -/
namespace Kryos.Fs

open Function

variable {total : Nat} {full : Prop} {s : Volume} {d : Nat}
  {records before after : List Record} {r : Record}
  {name : CString} {dirs : Nat → List Record}

/-- The volume with its directories: blocks and tree are in order. -/
structure Volume.WellFormedAt (total : Nat) (full : Prop) (s : Volume) (dirs : Nat → List Record) :
    Prop where
  consistent : s.ConsistentAt total full
  tree : TreeOk s.files dirs

abbrev Volume.WellFormed (full : Prop) (s : Volume) (dirs : Nat → List Record) : Prop :=
  s.WellFormedAt 32768 full dirs

/-- The directory `d` holds these records. -/
def Volume.Holds (s : Volume) (d : Nat) (records : List Record) : Prop :=
  s.files d = some ⟨kfsTypeDir, encodeDir records⟩

theorem Volume.WellFormedAt.holds (h : s.WellFormedAt total full dirs)
    (hDir : kindOf s.files d = some kfsTypeDir) : s.Holds d (dirs d) := by
  obtain ⟨file, hFile, hType⟩ := kindOf_eq_some.mp hDir
  have hContent := h.tree.content d file hFile hType
  cases file with
  | mk type content =>
    simp only at hType hContent
    rw [Volume.Holds, hFile, hType, hContent]

namespace Volume.Holds

section

variable (h : s.Holds d records)

include h

theorem live : s.live d = true := (Volume.files_eq_some.mp h).1

theorem type : (s.table d).type = kfsTypeDir :=
  (Volume.files_eq_some.mp h).2.1

theorem content : fileContent s.disk (s.table d) = encodeDir records :=
  (Volume.files_eq_some.mp h).2.2

theorem size : (s.table d).size = (encodeDir records).length := by
  rw [← h.content, length_fileContent]

theorem length_le (hConsistent : s.ConsistentAt total full) :
    (encodeDir records).length ≤ 138 * 512 :=
  h.size ▸ (hConsistent.sized d h.live).bound

/-- The operations read the whole directory. -/
theorem read_sized (hMounted : s.MountedAt total) (hReliable : s.mount.Reliable)
    (hSized : Sized s.disk (s.table d)) :
    kfsVnodeRead s d 0 (s.table d).size =
      (.ok (encodeDir records), (encodeDir records).length) := by
  have hBound := hSized.bound
  rw [kfsVnodeRead_sized hMounted hReliable h.live hSized (by omega), h.content, List.drop_zero,
    h.size, List.take_length, Nat.zero_add]

theorem read (hConsistent : s.ConsistentAt total full) (hReliable : s.mount.Reliable) :
    kfsVnodeRead s d 0 (s.table d).size =
      (.ok (encodeDir records), (encodeDir records).length) :=
  h.read_sized hConsistent.mounted hReliable (hConsistent.sized d h.live)

end

end Volume.Holds

theorem Volume.kmalloc_eq (hHeap : s.mount.HeapServes) {size : Nat} (hSize : size ≠ 0) :
    s.kmalloc size = true := by
  simp [Volume.kmalloc, hHeap size hSize, hSize]

theorem newVnode_eq (hHeap : s.mount.HeapServes) (ino type : Nat) :
    newVnode s ino type = .ok ⟨ino, type⟩ := by
  rw [newVnode, Volume.kmalloc_eq hHeap (by decide)]
  rfl

section Scan

theorem findDirent_first {data : List UInt8} (hData : data = encodeDir (before ++ r :: after))
    (hSize : data.length < 2 ^ 32) (hBefore : ∀ q ∈ before, q.ent.name ≠ r.ent.name) :
    findDirent data data.length r.ent.name data.length 0 = some (encodeDir before).length := by
  have hCount := length_le_encodeDir (before ++ r :: after)
  rw [← hData, List.length_append, List.length_cons] at hCount
  exact @findDirent_present [] data r.ent.name data.length before after r hData hSize (by omega)
    hBefore rfl

theorem findDirent_none {data : List UInt8} (hData : data = encodeDir records)
    (hSize : data.length < 2 ^ 32) {name : List UInt8}
    (hAbsent : ∀ q ∈ records, q.ent.name ≠ name) :
    findDirent data data.length name data.length 0 = none :=
  @findDirent_absent [] records data name data.length hData hSize hAbsent

end Scan

theorem encodeDir_ne_zero (before after : List Record) (r : Record) :
    (encodeDir (before ++ r :: after)).length ≠ 0 := by
  have hMin := r.eight_le_reclen
  rw [encodeDir_append, encodeDir_cons, List.length_append, List.length_append, r.length_bytes]
  omega

theorem exists_first {name : List UInt8} (h : ∃ r ∈ records, r.ent.name = name) :
    ∃ before r after, records = before ++ r :: after ∧ r.ent.name = name ∧
      ∀ q ∈ before, q.ent.name ≠ name := by
  induction records with
  | nil =>
    obtain ⟨r, hr, _⟩ := h
    cases hr
  | cons q records ih =>
    by_cases hq : q.ent.name = name
    · exact ⟨[], q, records, rfl, hq, fun _ hx => by cases hx⟩
    · obtain ⟨r, hr, hName⟩ := h
      have hTail : ∃ r ∈ records, r.ent.name = name := by
        rcases List.mem_cons.mp hr with rfl | hr
        · exact absurd hName hq
        · exact ⟨r, hr, hName⟩
      obtain ⟨before, r, after, hSplit, hr, hBefore⟩ := ih hTail
      refine ⟨q :: before, r, after, by rw [hSplit]; rfl, hr, ?_⟩
      intro x hx
      rcases List.mem_cons.mp hx with rfl | hx
      · exact hq
      · exact hBefore x hx

theorem Volume.size_of_files {i : Nat} {file : File} (hFile : s.files i = some file) :
    (s.table i).size = file.content.length := by
  rw [← (Volume.files_eq_some.mp hFile).2.2, length_fileContent]

theorem Volume.table_of_kind {i type : Nat} (hKind : kindOf s.files i = some type) :
    s.live i = true ∧ (s.table i).type = type := by
  obtain ⟨file, hFile, rfl⟩ := kindOf_eq_some.mp hKind
  exact ⟨(Volume.files_eq_some.mp hFile).1, (Volume.files_eq_some.mp hFile).2.1⟩

theorem Volume.MountedAt.rootInode (h : s.MountedAt total) : s.sb.rootInode = 0 := by
  rw [h.superblock]
  rfl

theorem kfsVnodeLookup_absent (hConsistent : s.ConsistentAt total full)
    (hReliable : s.mount.Reliable)
    (hHolds : s.Holds d records) (hAbsent : ∀ q ∈ records, q.ent.name ≠ name.bytes)
    (hDot : name.bytes ≠ dot) (hDotDot : ¬(d = 0 ∧ name.bytes = dotDot)) :
    ∃ err, kfsVnodeLookup s d name = .error err := by
  have hLength := hHolds.length_le hConsistent
  rw [← hConsistent.mounted.rootInode] at hDotDot
  have hFind := @findDirent_none records _ rfl (by omega) name.bytes hAbsent
  rw [← hHolds.size] at hFind
  rw [kfsVnodeLookup, kfsReadInode_eq hConsistent.mounted hReliable hHolds.live]
  simp only [hHolds.type, ne_eq, not_true_eq_false, if_false, hDot, hDotDot,
    hHolds.read hConsistent hReliable, hFind]
  split
  · exact ⟨_, rfl⟩
  · exact ⟨_, rfl⟩

/-- The first half of unlink and rmdir on a name of the directory. -/
theorem findTarget_sized (hMounted : s.MountedAt total) (hReliable : s.mount.Reliable)
    (hHeap : s.mount.HeapServes) (hHolds : s.Holds d (before ++ r :: after))
    (hSized : Sized s.disk (s.table d)) (hBefore : ∀ q ∈ before, q.ent.name ≠ r.ent.name)
    (hName : r.ent.name = name.bytes) (hEntry : r.isEntry = true)
    (hLive : s.live r.ent.inode = true) :
    findTarget s d name = .ok ⟨s.table d, encodeDir (before ++ r :: after),
      (encodeDir before).length, r.ent, s.table r.ent.inode⟩ := by
  have hLength := hSized.bound
  rw [hHolds.size] at hLength
  have hDots : ¬(name.bytes = dot ∨ name.bytes = dotDot) := by
    rw [← hName]
    intro hDots
    rw [Record.not_isEntry_of_dot hDots] at hEntry
    cases hEntry
  have hSize : (s.table d).size ≠ 0 := by
    rw [hHolds.size]
    exact encodeDir_ne_zero before after r
  have hAlloc : s.kmalloc (s.table d).size = true := Volume.kmalloc_eq hHeap hSize
  have hFind := @findDirent_first before after r _ rfl (by omega) hBefore
  rw [hName, ← hHolds.size] at hFind
  rw [findTarget, if_neg hDots, kfsReadInode_eq hMounted hReliable hHolds.live]
  simp only [hHolds.type, ne_eq, not_true_eq_false, if_false, hSize, hAlloc, Bool.not_true,
    Bool.false_eq_true, hHolds.read_sized hMounted hReliable hSized, hFind, ofBytes_drop r rfl,
    kfsReadInode_eq hMounted hReliable hLive]

/-- The second half of unlink and rmdir: the file goes, and the record of it. -/
theorem removeTarget_spec {need : Nat → Prop}
    (h : s.OpenedAt total full r.ent.inode (s.table r.ent.inode) need)
    (hReliable : s.mount.Reliable)
    (hHolds : s.Holds d (before ++ r :: after)) (hNe : r.ent.inode ≠ d) (hRoot : r.ent.inode ≠ 0) :
    ∃ s', removeTarget s d ⟨s.table d, encodeDir (before ++ r :: after),
        (encodeDir before).length, r.ent, s.table r.ent.inode⟩ = (.ok (), s') ∧
      s'.ConsistentAt total full ∧ s.Frame s' [r.ent.inode, d] ∧
      s'.files = update (update s.files r.ent.inode none) d
        (some ⟨kfsTypeDir, encodeDir (before ++ after)⟩) ∧
      Shrunk d ((encodeDir (before ++ r :: after)).length - r.ent.reclen)
      [r.ent.inode, d] s s' := by
  obtain ⟨inode', s₁, hFree, s₂, hRelease, hConsistent₂, hFrame₂, hFiles₂, hKeep⟩ :=
    releaseInode_spec h hReliable (by omega)
  obtain ⟨hLive₂, hTable₂⟩ := hKeep d hNe.symm
  have hHolds₂ : s₂.Holds d (before ++ r :: after) := by
    rw [Volume.Holds, hFiles₂, update_of_ne hNe.symm]
    exact hHolds
  have hEnd : (encodeDir before).length + r.ent.reclen ≤ (s₂.table d).size := by
    rw [hHolds₂.size, encodeDir_append, encodeDir_cons, List.length_append, List.length_append,
      r.length_bytes]
    omega
  obtain ⟨s', hRun, hConsistent', hFrame', _, hFiles', hShrunk⟩ :=
    kfsRemoveDirent_spec hConsistent₂ (by rw [hFrame₂.mount]; exact hReliable) hHolds₂.live hEnd
      hHolds₂.content.symm
  have hCut : (encodeDir (before ++ r :: after)).take (encodeDir before).length ++
      (encodeDir (before ++ r :: after)).drop ((encodeDir before).length + r.ent.reclen) =
        encodeDir (before ++ after) := by
    have hPrefix : (encodeDir before).length + r.ent.reclen =
        (encodeDir before ++ r.bytes).length := by
      rw [List.length_append, r.length_bytes]
    rw [hPrefix, encodeDir_append, encodeDir_cons, List.take_left' rfl, ← List.append_assoc,
      List.drop_left' rfl, encodeDir_append]
  refine ⟨s', ?_, hConsistent', hFrame₂.trans hFrame', ?_, fun i hi => ?_, hShrunk.size,
    fun k hk => ?_⟩
  · simp only [removeTarget, hFree, hRelease]
    rw [← hTable₂]
    exact hRun
  · rw [hFiles', hFiles₂, hHolds₂.type, hCut]
  · rw [List.mem_cons, List.mem_singleton, not_or] at hi
    rw [hShrunk.table i (by simpa using hi.2), (hKeep i hi.1).2]
  · have hBlocks := hFrame₂.blocks d (by simpa using hNe.symm)
    simp only [Volume.blocks, hHolds.live, hHolds₂.live, if_true, Option.some.injEq] at hBlocks
    rw [hShrunk.keeps k hk, hBlocks]

section Calls

variable (hConsistent : s.ConsistentAt total full) (hReliable : s.mount.Reliable)
  (hHeap : s.mount.HeapServes)

include hConsistent hReliable hHeap

/-- The emptiness check of rmdir looks for a record other than the dots. -/
theorem checkEmpty_eq {ent : KfsDirent} (hHolds : s.Holds ent.inode records)
    (dirInode : Inode) (dirData : List UInt8) (offset : Nat) :
    checkEmpty s ⟨dirInode, dirData, offset, ent, s.table ent.inode⟩ =
      if records.any Record.isEntry then .error (-enotempty) else .ok () := by
  have hLength := hHolds.length_le hConsistent
  have hCount := length_le_encodeDir records
  have hScan := @hasEntry_eq [] records (encodeDir records) (encodeDir records).length rfl
    (by omega) (by omega)
  rw [encodeDir_nil, List.length_nil, ← hHolds.size] at hScan
  rw [checkEmpty]
  by_cases hSize : (s.table ent.inode).size > 0
  · simp only [hSize, if_true, Volume.kmalloc_eq hHeap (Nat.pos_iff_ne_zero.mp hSize),
      Bool.not_true, Bool.false_eq_true, if_false, hHolds.read hConsistent hReliable, hScan]
  · rw [if_neg hSize]
    rw [hHolds.size] at hSize
    have hNil : records = [] := encodeDir_eq_nil (List.eq_nil_of_length_eq_zero (by omega))
    simp [hNil]

section Present

variable (hHolds : s.Holds d (before ++ r :: after))
  (hBefore : ∀ q ∈ before, q.ent.name ≠ r.ent.name) (hName : r.ent.name = name.bytes)

include hHolds hBefore hName

theorem kfsVnodeLookup_present (hDot : name.bytes ≠ dot)
    (hDotDot : ¬(d = 0 ∧ name.bytes = dotDot)) :
    kfsVnodeLookup s d name = .ok ⟨r.ent.inode, vnodeTypeOf r.ent.type⟩ := by
  have hLength := hHolds.length_le hConsistent
  rw [← hConsistent.mounted.rootInode] at hDotDot
  have hAlloc : s.kmalloc (s.table d).size = true :=
    Volume.kmalloc_eq hHeap (by rw [hHolds.size]; exact encodeDir_ne_zero before after r)
  have hFind := @findDirent_first before after r _ rfl (by omega) hBefore
  rw [hName, ← hHolds.size] at hFind
  rw [kfsVnodeLookup, kfsReadInode_eq hConsistent.mounted hReliable hHolds.live]
  simp only [hHolds.type, ne_eq, not_true_eq_false, if_false, hDot, hDotDot, hAlloc, Bool.not_true,
    Bool.false_eq_true, hHolds.read hConsistent hReliable, hFind, ofBytes_drop r rfl,
    newVnode_eq hHeap]

variable (hEntry : r.isEntry = true)

include hEntry

theorem findTarget_present (hLive : s.live r.ent.inode = true) :
    findTarget s d name = .ok ⟨s.table d, encodeDir (before ++ r :: after),
      (encodeDir before).length, r.ent, s.table r.ent.inode⟩ :=
  findTarget_sized hConsistent.mounted hReliable hHeap hHolds (hConsistent.sized d hHolds.live)
    hBefore hName hEntry hLive

theorem kfsVnodeUnlink_file (hKind : kindOf s.files r.ent.inode = some kfsTypeFile)
    (hRoot : r.ent.inode ≠ 0) :
    ∃ s', kfsVnodeUnlink s d name = (.ok (), s') ∧ s'.ConsistentAt total full ∧
      s.Frame s' [r.ent.inode, d] ∧
      s'.files = update (update s.files r.ent.inode none) d
        (some ⟨kfsTypeDir, encodeDir (before ++ after)⟩) := by
  obtain ⟨hLive, hType⟩ := Volume.table_of_kind hKind
  have hNe : r.ent.inode ≠ d := by
    intro hEq
    rw [hEq, hHolds.type] at hType
    cases hType
  obtain ⟨s', hRun, hConsistent', hFrame, hFiles, _⟩ :=
    removeTarget_spec (hConsistent.open hLive) hReliable hHolds hNe hRoot
  refine ⟨s', ?_, hConsistent', hFrame, hFiles⟩
  have hNotDir : (s.table r.ent.inode).type ≠ kfsTypeDir := by
    rw [hType]
    decide
  rw [kfsVnodeUnlink,
    findTarget_present hConsistent hReliable hHeap hHolds hBefore hName hEntry hLive]
  simp only [hNotDir, if_false, hRun]

theorem kfsVnodeUnlink_dir (hKind : kindOf s.files r.ent.inode = some kfsTypeDir) :
    kfsVnodeUnlink s d name = (.error (-eisdir), s) := by
  obtain ⟨hLive, hType⟩ := Volume.table_of_kind hKind
  rw [kfsVnodeUnlink,
    findTarget_present hConsistent hReliable hHeap hHolds hBefore hName hEntry hLive]
  simp only [hType, if_true]

theorem kfsVnodeRmdir_empty (hTarget : s.Holds r.ent.inode records)
    (hEmpty : ∀ q ∈ records, q.isEntry = false) (hRoot : r.ent.inode ≠ 0) :
    ∃ s', kfsVnodeRmdir s d name = (.ok (), s') ∧ s'.ConsistentAt total full ∧
      s.Frame s' [r.ent.inode, d] ∧
      s'.files = update (update s.files r.ent.inode none) d
        (some ⟨kfsTypeDir, encodeDir (before ++ after)⟩) := by
  have hNe : r.ent.inode ≠ d := by
    intro hEq
    rw [hEq, Volume.Holds, hHolds, Option.some.injEq, File.mk.injEq] at hTarget
    have hSame := encodeDir_injective hTarget.2
    have hFalse := hEmpty r (by rw [← hSame]; simp)
    rw [hEntry] at hFalse
    cases hFalse
  have hNone : records.any Record.isEntry = false := by
    rw [List.any_eq_false]
    intro q hq
    rw [hEmpty q hq]
    exact Bool.false_ne_true
  obtain ⟨s', hRun, hConsistent', hFrame, hFiles, _⟩ :=
    removeTarget_spec (hConsistent.open hTarget.live) hReliable hHolds hNe hRoot
  refine ⟨s', ?_, hConsistent', hFrame, hFiles⟩
  rw [kfsVnodeRmdir,
    findTarget_present hConsistent hReliable hHeap hHolds hBefore hName hEntry hTarget.live]
  simp only [hTarget.type, ne_eq, not_true_eq_false, if_false,
    checkEmpty_eq hConsistent hReliable hHeap hTarget, hNone, Bool.false_eq_true, hRun]

theorem kfsVnodeRmdir_nonempty (hTarget : s.Holds r.ent.inode records)
    (hSome : ∃ q ∈ records, q.isEntry = true) :
    kfsVnodeRmdir s d name = (.error (-enotempty), s) := by
  have hAny : records.any Record.isEntry = true := List.any_eq_true.mpr hSome
  rw [kfsVnodeRmdir,
    findTarget_present hConsistent hReliable hHeap hHolds hBefore hName hEntry hTarget.live]
  simp only [hTarget.type, ne_eq, not_true_eq_false, if_false,
    checkEmpty_eq hConsistent hReliable hHeap hTarget, hAny, if_true]

theorem kfsVnodeRmdir_file (hKind : kindOf s.files r.ent.inode = some kfsTypeFile) :
    kfsVnodeRmdir s d name = (.error (-enotdir), s) := by
  obtain ⟨hLive, hType⟩ := Volume.table_of_kind hKind
  have hNotDir : (s.table r.ent.inode).type ≠ kfsTypeDir := by
    rw [hType]
    decide
  rw [kfsVnodeRmdir,
    findTarget_present hConsistent hReliable hHeap hHolds hBefore hName hEntry hLive]
  simp only [ne_eq, hNotDir, not_false_eq_true, if_true]

end Present

section Absent

variable (hHolds : s.Holds d records) (hAbsent : ∀ q ∈ records, q.ent.name ≠ name.bytes)
  (hDots : ¬(name.bytes = dot ∨ name.bytes = dotDot))

include hHolds hAbsent hDots

theorem findTarget_absent :
    findTarget s d name = .error (-enoent) := by
  have hLength := hHolds.length_le hConsistent
  have hFind := @findDirent_none records _ rfl (by omega) name.bytes hAbsent
  rw [← hHolds.size] at hFind
  rw [findTarget, if_neg hDots, kfsReadInode_eq hConsistent.mounted hReliable hHolds.live]
  simp only [hHolds.type, ne_eq, not_true_eq_false, if_false]
  by_cases hSize : (s.table d).size = 0
  · rw [if_pos hSize]
  · simp only [hSize, if_false, Volume.kmalloc_eq hHeap hSize, Bool.not_true, Bool.false_eq_true,
      hHolds.read hConsistent hReliable, hFind]

theorem kfsVnodeUnlink_absent :
    kfsVnodeUnlink s d name = (.error (-enoent), s) := by
  rw [kfsVnodeUnlink, findTarget_absent hConsistent hReliable hHeap hHolds hAbsent hDots]

theorem kfsVnodeRmdir_absent :
    kfsVnodeRmdir s d name = (.error (-enoent), s) := by
  rw [kfsVnodeRmdir, findTarget_absent hConsistent hReliable hHeap hHolds hAbsent hDots]

end Absent

end Calls

end Kryos.Fs
