import Kryos.Fs.BlockMap
import Kryos.Fs.DirectoryFormat

/-! How the directories hang together: which inode each record names. The inodes are
given by their types, the directories by their records. -/
namespace Kryos.Fs

open Function

variable {r : Record} {files : Nat → Option File} {i ty d n : Nat} {content : List UInt8}

variable {kind : Nat → Option Nat} {dirs : Nat → List Record}

/-- `r` is an entry other than the dots of the directory `d`. -/
structure EntryOf (kind : Nat → Option Nat) (dirs : Nat → List Record) (d : Nat) (r : Record) :
    Prop where
  dir : kind d = some kfsTypeDir
  mem : r ∈ dirs d
  entry : r.isEntry = true

/-- The directory that `..` of `d` has to name. The root is its own parent. -/
def IsParent (kind : Nat → Option Nat) (dirs : Nat → List Record) (d parent : Nat) : Prop :=
  d = 0 ∧ parent = 0 ∨ d ≠ 0 ∧ ∃ r, EntryOf kind dirs parent r ∧ r.ent.inode = d

/-- Records name marked inodes and carry their types, the names in a directory are
unique, every inode but the root has exactly one record apart from the dots, and the
dots name the directory and its parent. -/
structure Linked (kind : Nat → Option Nat) (dirs : Nat → List Record) : Prop where
  kinds : ∀ i t, kind i = some t → t = kfsTypeFile ∨ t = kfsTypeDir
  named : ∀ d, kind d = some kfsTypeDir → ∀ r ∈ dirs d, kind r.ent.inode = some r.ent.type
  unique : ∀ d, kind d = some kfsTypeDir →
    (((dirs d).filter Record.isEntry).map (fun r => r.ent.name)).Nodup
  rootless : ∀ d r, EntryOf kind dirs d r → r.ent.inode ≠ 0
  linked : ∀ i t, kind i = some t → i ≠ 0 → ∃ d r, EntryOf kind dirs d r ∧ r.ent.inode = i
  once : ∀ d r d' r', EntryOf kind dirs d r → EntryOf kind dirs d' r' →
    r.ent.inode = r'.ent.inode → d = d' ∧ r = r'
  dot : ∀ d, kind d = some kfsTypeDir → ∀ r ∈ dirs d, r.ent.name = dot → r.ent.inode = d
  dotDot : ∀ d, kind d = some kfsTypeDir → ∀ r ∈ dirs d, r.ent.name = dotDot →
    IsParent kind dirs d r.ent.inode
  dotted : ∀ d, kind d = some kfsTypeDir → d ≠ 0 →
    (∃ r ∈ dirs d, r.ent.name = Kryos.Fs.dot) ∧ ∃ r ∈ dirs d, r.ent.name = Kryos.Fs.dotDot

theorem Record.not_isEntry_of_dot (h : r.ent.name = dot ∨ r.ent.name = dotDot) :
    r.isEntry = false := by
  unfold Record.isEntry
  rcases h with h | h <;> simp [h]

theorem Record.eq_dots_of_not_isEntry (h : r.isEntry = false) :
    r.ent.name = dot ∨ r.ent.name = dotDot := by
  by_contra hNot
  have hNames : r.ent.name ≠ dot ∧ r.ent.name ≠ dotDot := not_or.mp hNot
  simp [Record.isEntry, hNames] at h

section Create

variable {d n ty : Nat} {r first second : Record}

/-- The records of a new directory. -/
structure NewDots (n d : Nat) (first second : Record) : Prop where
  first : first.ent.name = dot ∧ first.ent.inode = n ∧ first.ent.type = kfsTypeDir
  second : second.ent.name = dotDot ∧ second.ent.inode = d ∧ second.ent.type = kfsTypeDir

/-- The records after the creation of `n` in `d`. -/
def withCreated (dirs : Nat → List Record) (d n : Nat) (first second r : Record) :
    Nat → List Record :=
  update (update dirs n [first, second]) d (dirs d ++ [r])

theorem mem_withCreated (hne : d ≠ n) {x : Nat} {q : Record} :
    q ∈ withCreated dirs d n first second r x ↔
      x = n ∧ (q = first ∨ q = second) ∨ x ≠ n ∧ (q ∈ dirs x ∨ x = d ∧ q = r) := by
  rcases eq_or_ne x d with rfl | hxd
  · simp [withCreated, hne]
  · rcases eq_or_ne x n with rfl | hxn
    · simp [withCreated, hxd]
    · simp [withCreated, hxd, hxn]

variable (hd : kind d = some kfsTypeDir) (hn : kind n = none) (hDots : NewDots n d first second)
  (hEntry : r.isEntry = true)

include hd hn

theorem ne_of_free : d ≠ n := by
  rintro rfl
  rw [hd] at hn
  cases hn

include hDots hEntry

theorem entryOf_create {x : Nat} {q : Record} :
    EntryOf (update kind n (some ty)) (withCreated dirs d n first second r) x q ↔
      EntryOf kind dirs x q ∨ x = d ∧ q = r := by
  have hne := ne_of_free hd hn
  constructor
  · rintro ⟨hDir, hMem, hTrue⟩
    rcases (mem_withCreated hne).mp hMem with ⟨_, rfl | rfl⟩ | ⟨hxn, hOld⟩
    · rw [Record.not_isEntry_of_dot (.inl hDots.first.1)] at hTrue
      cases hTrue
    · rw [Record.not_isEntry_of_dot (.inr hDots.second.1)] at hTrue
      cases hTrue
    · rw [update_of_ne hxn] at hDir
      exact hOld.imp (fun hMem => ⟨hDir, hMem, hTrue⟩) id
  · rintro (⟨hDir, hMem, hTrue⟩ | ⟨rfl, rfl⟩)
    · have hxn := ne_of_free hDir hn
      exact ⟨by rw [update_of_ne hxn]; exact hDir,
        (mem_withCreated hne).mpr (.inr ⟨hxn, .inl hMem⟩), hTrue⟩
    · exact ⟨by rw [update_of_ne hne]; exact hd,
        (mem_withCreated hne).mpr (.inr ⟨hne, .inr ⟨rfl, rfl⟩⟩), hEntry⟩

variable (h : Linked kind dirs)

include h

omit hEntry in
theorem Linked.named_create (hInode : r.ent.inode = n) (hKind : r.ent.type = ty) {x : Nat}
    (hx : update kind n (some ty) x = some kfsTypeDir) {q : Record}
    (hq : q ∈ withCreated dirs d n first second r x) :
    update kind n (some ty) q.ent.inode = some q.ent.type := by
  have hne := ne_of_free hd hn
  rcases (mem_withCreated hne).mp hq with ⟨rfl, rfl | rfl⟩ | ⟨hxn, hMem | ⟨_, rfl⟩⟩
  · rw [hDots.first.2.1, hx, hDots.first.2.2]
  · rw [hDots.second.2.1, update_of_ne hne, hDots.second.2.2, hd]
  · rw [update_of_ne hxn] at hx
    have hNamed := h.named x hx q hMem
    have hqn : q.ent.inode ≠ n := by
      rintro hEq
      rw [hEq, hn] at hNamed
      cases hNamed
    rw [update_of_ne hqn, hNamed]
  · rw [hInode, update_self, hKind]

theorem Linked.unique_create (hFresh : ∀ q ∈ dirs d, q.ent.name ≠ r.ent.name) {x : Nat}
    (hx : update kind n (some ty) x = some kfsTypeDir) :
    (((withCreated dirs d n first second r x).filter Record.isEntry).map
      (fun r => r.ent.name)).Nodup := by
  rw [withCreated]
  rcases eq_or_ne x d with rfl | hxd
  · rw [update_self, List.filter_append, List.map_append, List.nodup_append]
    refine ⟨h.unique x hd, by simp [hEntry], ?_⟩
    intro a ha b hb hab
    rw [List.mem_map] at ha
    obtain ⟨q, hq, rfl⟩ := ha
    have hb' : b = r.ent.name := by simpa [hEntry] using hb
    exact hFresh q (List.mem_of_mem_filter hq) (hab.trans hb')
  · rw [update_of_ne hxd]
    rcases eq_or_ne x n with rfl | hxn
    · simp [Record.not_isEntry_of_dot (.inl hDots.first.1),
        Record.not_isEntry_of_dot (.inr hDots.second.1)]
    · rw [update_of_ne hxn] at hx ⊢
      exact h.unique x hx

theorem Linked.once_create (hInode : r.ent.inode = n) {x x' : Nat} {q q' : Record}
    (hq : EntryOf (update kind n (some ty)) (withCreated dirs d n first second r) x q)
    (hq' : EntryOf (update kind n (some ty)) (withCreated dirs d n first second r) x' q')
    (hEq : q.ent.inode = q'.ent.inode) : x = x' ∧ q = q' := by
  have hNotNew : ∀ {x q}, EntryOf kind dirs x q → q.ent.inode ≠ n := by
    intro x q hq hEq
    have hNamed := h.named x hq.dir q hq.mem
    rw [hEq, hn] at hNamed
    cases hNamed
  rcases (entryOf_create hd hn hDots hEntry).mp hq with hA | ⟨rfl, rfl⟩
  · rcases (entryOf_create hd hn hDots hEntry).mp hq' with hB | ⟨rfl, rfl⟩
    · exact h.once x q x' q' hA hB hEq
    · exact absurd (hEq.trans hInode) (hNotNew hA)
  · rcases (entryOf_create hd hn hDots hEntry).mp hq' with hB | ⟨rfl, rfl⟩
    · exact absurd (hEq.symm.trans hInode) (hNotNew hB)
    · exact ⟨rfl, rfl⟩

theorem Linked.create (hRoot : n ≠ 0) (hType : ty = kfsTypeFile ∨ ty = kfsTypeDir)
    (hInode : r.ent.inode = n) (hKind : r.ent.type = ty)
    (hFresh : ∀ q ∈ dirs d, q.ent.name ≠ r.ent.name) :
    Linked (update kind n (some ty)) (withCreated dirs d n first second r) := by
  have hne := ne_of_free hd hn
  have hEntries := @entryOf_create kind dirs d n ty r first second hd hn hDots hEntry
  have hNew : EntryOf (update kind n (some ty)) (withCreated dirs d n first second r) d r :=
    hEntries.mpr (.inr ⟨rfl, rfl⟩)
  constructor
  · intro i t hi
    rcases eq_or_ne i n with rfl | hin
    · rw [update_self, Option.some.injEq] at hi
      exact hi ▸ hType
    · rw [update_of_ne hin] at hi
      exact h.kinds i t hi
  · intro x hx q hq
    exact h.named_create hd hn hDots hInode hKind hx hq
  · intro x hx
    exact h.unique_create hd hn hDots hEntry hFresh hx
  · intro x q hq
    rcases hEntries.mp hq with hOld | ⟨_, rfl⟩
    · exact h.rootless x q hOld
    · rw [hInode]
      exact hRoot
  · intro i t hi hi0
    rcases eq_or_ne i n with rfl | hin
    · exact ⟨d, r, hNew, hInode⟩
    · rw [update_of_ne hin] at hi
      obtain ⟨x, q, hq, hEq⟩ := h.linked i t hi hi0
      exact ⟨x, q, hEntries.mpr (.inl hq), hEq⟩
  · intro x q x' q' hq hq' hEq
    exact h.once_create hd hn hDots hEntry hInode hq hq' hEq
  · intro x hx q hq hName
    rcases (mem_withCreated hne).mp hq with ⟨rfl, rfl | rfl⟩ | ⟨hxn, hMem | ⟨_, rfl⟩⟩
    · exact hDots.first.2.1
    · rw [hDots.second.1] at hName
      cases hName
    · exact h.dot x (by rwa [update_of_ne hxn] at hx) q hMem hName
    · rw [Record.not_isEntry_of_dot (.inl hName)] at hEntry
      cases hEntry
  · intro x hx q hq hName
    rcases (mem_withCreated hne).mp hq with ⟨rfl, rfl | rfl⟩ | ⟨hxn, hMem | ⟨_, rfl⟩⟩
    · rw [hDots.first.1] at hName
      cases hName
    · rw [hDots.second.2.1]
      exact .inr ⟨hRoot, r, hNew, hInode⟩
    · rw [update_of_ne hxn] at hx
      refine (h.dotDot x hx q hMem hName).imp id fun hSome => ⟨hSome.1, ?_⟩
      obtain ⟨p, hp, hEq⟩ := hSome.2
      exact ⟨p, hEntries.mpr (.inl hp), hEq⟩
    · rw [Record.not_isEntry_of_dot (.inr hName)] at hEntry
      cases hEntry
  · intro x hx hx0
    rcases eq_or_ne x n with rfl | hxn
    · exact ⟨⟨first, (mem_withCreated hne).mpr (.inl ⟨rfl, .inl rfl⟩), hDots.first.1⟩, second,
        (mem_withCreated hne).mpr (.inl ⟨rfl, .inr rfl⟩), hDots.second.1⟩
    · rw [update_of_ne hxn] at hx
      obtain ⟨⟨a, ha, haName⟩, b, hb, hbName⟩ := h.dotted x hx hx0
      exact ⟨⟨a, (mem_withCreated hne).mpr (.inr ⟨hxn, .inl ha⟩), haName⟩, b,
        (mem_withCreated hne).mpr (.inr ⟨hxn, .inl hb⟩), hbName⟩

end Create

section Remove

variable {d : Nat} {r : Record} {before after : List Record}

theorem EntryOf.inode_ne (hr : EntryOf kind dirs d r)
    (hEmpty : kind r.ent.inode = some kfsTypeDir → ∀ q ∈ dirs r.ent.inode, q.isEntry = false) :
    r.ent.inode ≠ d := by
  intro hEq
  have hFalse := hEmpty (hEq ▸ hr.dir) r (hEq ▸ hr.mem)
  rw [hr.entry] at hFalse
  cases hFalse

theorem eq_some_of_update_none {x t : Nat} (h : update kind n none x = some t) :
    x ≠ n ∧ kind x = some t := by
  rcases eq_or_ne x n with rfl | hxn
  · rw [update_self] at h
    cases h
  · exact ⟨hxn, by rwa [update_of_ne hxn] at h⟩

/-- Names being unique, a record occurs once. -/
theorem Linked.not_mem_rest (h : Linked kind dirs) (hr : EntryOf kind dirs d r)
    (hDirs : dirs d = before ++ r :: after) : r ∉ before ++ after := by
  have hUnique := h.unique d hr.dir
  rw [hDirs, List.filter_append, List.filter_cons_of_pos hr.entry, List.map_append,
    List.map_cons, List.nodup_middle, List.nodup_cons, ← List.map_append, ← List.filter_append]
    at hUnique
  intro hMem
  exact hUnique.1 (List.mem_map.mpr ⟨r, List.mem_filter.mpr ⟨hMem, hr.entry⟩, rfl⟩)

variable (h : Linked kind dirs) (hr : EntryOf kind dirs d r) (hDirs : dirs d = before ++ r :: after)

include h hr hDirs

theorem Linked.mem_remove {x : Nat} {q : Record} :
    q ∈ update dirs d (before ++ after) x ↔ q ∈ dirs x ∧ ¬(x = d ∧ q = r) := by
  rcases eq_or_ne x d with rfl | hxd
  · have hOnce := h.not_mem_rest hr hDirs
    have hNe : q ∈ before ++ after → q ≠ r := fun hq hEq => hOnce (hEq ▸ hq)
    rw [List.mem_append] at hNe
    rw [update_self, hDirs]
    simp only [List.mem_append, List.mem_cons, true_and]
    tauto
  · simp [hxd]

variable (hEmpty : kind r.ent.inode = some kfsTypeDir → ∀ q ∈ dirs r.ent.inode, q.isEntry = false)

include hEmpty

theorem Linked.entryOf_remove {x : Nat} {q : Record} :
    EntryOf (update kind r.ent.inode none) (update dirs d (before ++ after)) x q ↔
      EntryOf kind dirs x q ∧ ¬(x = d ∧ q = r) := by
  constructor
  · rintro ⟨hDir, hMem, hTrue⟩
    obtain ⟨hMem, hNot⟩ := (h.mem_remove hr hDirs).mp hMem
    exact ⟨⟨(eq_some_of_update_none hDir).2, hMem, hTrue⟩, hNot⟩
  · rintro ⟨hq, hNot⟩
    have hxt : x ≠ r.ent.inode := by
      rintro rfl
      have hFalse := hEmpty hq.dir q hq.mem
      rw [hq.entry] at hFalse
      cases hFalse
    exact ⟨by rw [update_of_ne hxt]; exact hq.dir,
      (h.mem_remove hr hDirs).mpr ⟨hq.mem, hNot⟩, hq.entry⟩

theorem Linked.inode_ne_remove {x : Nat} (hx : update kind r.ent.inode none x = some kfsTypeDir)
    {q : Record} (hq : q ∈ update dirs d (before ++ after) x) : q.ent.inode ≠ r.ent.inode := by
  obtain ⟨hxt, hDir⟩ := eq_some_of_update_none hx
  obtain ⟨hMem, hNot⟩ := (h.mem_remove hr hDirs).mp hq
  intro hEq
  cases hKind : q.isEntry with
  | true => exact hNot (h.once x q d r ⟨hDir, hMem, hKind⟩ hr hEq)
  | false =>
    rcases Record.eq_dots_of_not_isEntry hKind with hName | hName
    · exact hxt ((h.dot x hDir q hMem hName).symm.trans hEq)
    · -- the parent of a directory that stays is not the removed one
      rcases h.dotDot x hDir q hMem hName with ⟨hRoot, hZero⟩ | ⟨_, p, hp, _⟩
      · exact h.rootless d r hr (hEq.symm.trans hZero)
      · have hFalse := hEmpty (hEq ▸ hp.dir) p (hEq ▸ hp.mem)
        rw [hp.entry] at hFalse
        cases hFalse

/-- A removal keeps the links, if a removed directory has no entries. -/
theorem Linked.remove :
    Linked (update kind r.ent.inode none) (update dirs d (before ++ after)) := by
  have hEntries := @Linked.entryOf_remove kind dirs d r before after h hr hDirs hEmpty
  have hMem := @Linked.mem_remove kind dirs d r before after h hr hDirs
  -- an inode other than the removed one keeps its record
  have hStays : ∀ {x q i}, EntryOf kind dirs x q → q.ent.inode = i → i ≠ r.ent.inode →
      EntryOf (update kind r.ent.inode none) (update dirs d (before ++ after)) x q := by
    intro x q i hq hEq hNe
    refine hEntries.mpr ⟨hq, ?_⟩
    rintro ⟨_, rfl⟩
    exact hNe hEq.symm
  constructor
  · intro i t hi
    exact h.kinds i t (eq_some_of_update_none hi).2
  · intro x hx q hq
    rw [update_of_ne (h.inode_ne_remove hr hDirs hEmpty hx hq)]
    exact h.named x (eq_some_of_update_none hx).2 q (hMem.mp hq).1
  · intro x hx
    have hUnique := h.unique x (eq_some_of_update_none hx).2
    rcases eq_or_ne x d with rfl | hxd
    · rw [update_self]
      refine hUnique.sublist (List.Sublist.map _ (List.Sublist.filter _ ?_))
      rw [hDirs]
      exact List.Sublist.append (List.Sublist.refl _) (List.sublist_cons_self _ _)
    · rw [update_of_ne hxd]
      exact hUnique
  · intro x q hq
    exact h.rootless x q (hEntries.mp hq).1
  · intro i t hi hi0
    obtain ⟨hit, hKind⟩ := eq_some_of_update_none hi
    obtain ⟨x, q, hq, hEq⟩ := h.linked i t hKind hi0
    exact ⟨x, q, hStays hq hEq hit, hEq⟩
  · intro x q x' q' hq hq' hEq
    exact h.once x q x' q' (hEntries.mp hq).1 (hEntries.mp hq').1 hEq
  · intro x hx q hq hName
    exact h.dot x (eq_some_of_update_none hx).2 q (hMem.mp hq).1 hName
  · intro x hx q hq hName
    obtain ⟨hxt, hDir⟩ := eq_some_of_update_none hx
    refine (h.dotDot x hDir q (hMem.mp hq).1 hName).imp id fun hSome => ⟨hSome.1, ?_⟩
    obtain ⟨p, hp, hEq⟩ := hSome.2
    exact ⟨p, hStays hp hEq hxt, hEq⟩
  · intro x hx hx0
    obtain ⟨⟨a, ha, haName⟩, b, hb, hbName⟩ := h.dotted x (eq_some_of_update_none hx).2 hx0
    have hDot : ∀ {q}, q.isEntry = false → q ≠ r := by
      rintro q hFalse rfl
      rw [hr.entry] at hFalse
      cases hFalse
    exact ⟨⟨a, hMem.mpr ⟨ha, fun hSame => hDot (Record.not_isEntry_of_dot (.inl haName)) hSame.2⟩,
      haName⟩,
      b, hMem.mpr ⟨hb, fun hSame => hDot (Record.not_isEntry_of_dot (.inr hbName)) hSame.2⟩, hbName⟩

end Remove

/-- The types of the files by inode number. -/
def kindOf (files : Nat → Option File) : Nat → Option Nat := fun i => (files i).map File.type

/-- The directories among the files are made of the records in `dirs`, and these link
them to a tree. -/
structure TreeOk (files : Nat → Option File) (dirs : Nat → List Record) : Prop where
  content : ∀ d file, files d = some file → file.type = kfsTypeDir →
    file.content = encodeDir (dirs d)
  linked : Linked (kindOf files) dirs

theorem kindOf_update (files : Nat → Option File) (i : Nat) (file : Option File) :
    kindOf (update files i file) =
      update (kindOf files) i (file.map File.type) := by
  funext j
  by_cases hj : j = i
  · subst hj
    simp [kindOf]
  · simp [kindOf, hj]

theorem kindOf_eq_some {t : Nat} :
    kindOf files i = some t ↔ ∃ file, files i = some file ∧ file.type = t := by
  simp [kindOf]

/-- The contents of regular files do not matter to the tree. -/
theorem TreeOk.setContent (h : TreeOk files dirs) {file : File} (hFile : files i = some file)
    (hType : file.type ≠ kfsTypeDir) (content : List UInt8) :
    TreeOk (update files i (some ⟨file.type, content⟩)) dirs := by
  constructor
  · intro d g hg hDir
    by_cases hd : d = i
    · subst hd
      rw [update_self, Option.some.injEq] at hg
      subst hg
      exact absurd hDir hType
    · rw [update_of_ne hd] at hg
      exact h.content d g hg hDir
  · have hSame : kindOf (update files i (some ⟨file.type, content⟩)) = kindOf files := by
      rw [kindOf_update]
      simp [kindOf, hFile]
    rw [hSame]
    exact h.linked

/-- The directories are made of these records. -/
def Encodes (files : Nat → Option File) (dirs : Nat → List Record) : Prop :=
  ∀ d file, files d = some file → file.type = kfsTypeDir → file.content = encodeDir (dirs d)

namespace Encodes

variable {files : Nat → Option File}

theorem drop (h : Encodes files dirs) (i : Nat) : Encodes (update files i none) dirs := by
  intro x file hFile hDir
  by_cases hx : x = i
  · rw [hx, update_self] at hFile
    cases hFile
  · rw [update_of_ne hx] at hFile
    exact h x file hFile hDir

theorem put (h : Encodes files dirs) {records : List Record}
    (hContent : ty = kfsTypeDir → content = encodeDir records) :
    Encodes (update files i (some ⟨ty, content⟩)) (update dirs i records) := by
  intro x file hFile hDir
  by_cases hx : x = i
  · rw [hx, update_self, Option.some.injEq] at hFile
    rw [hx, update_self, ← hFile]
    exact hContent (by rw [← hDir, ← hFile])
  · rw [update_of_ne hx] at hFile ⊢
    exact h x file hFile hDir

end Encodes

theorem kindOf_update_dir (h : kindOf files d = some kfsTypeDir) (content : List UInt8) :
    kindOf (update files d (some ⟨kfsTypeDir, content⟩)) = kindOf files := by
  rw [kindOf_update]
  exact update_eq_iff.mpr ⟨h.symm, fun _ _ => rfl⟩

theorem kindOf_remove (hd : kindOf files d = some kfsTypeDir) (hNe : i ≠ d) (content : List UInt8) :
    kindOf (update (update files i none) d (some ⟨kfsTypeDir, content⟩)) =
      update (kindOf files) i none := by
  rw [kindOf_update_dir (by rw [kindOf_update, update_of_ne hNe.symm]; exact hd), kindOf_update]
  rfl

theorem kindOf_create (hd : kindOf files d = some kfsTypeDir) (hNe : d ≠ n) (file : File)
    (content : List UInt8) :
    kindOf (update (update files n (some file)) d (some ⟨kfsTypeDir, content⟩)) =
      update (kindOf files) n (some file.type) := by
  rw [kindOf_update_dir (by rw [kindOf_update, update_of_ne hNe]; exact hd), kindOf_update]
  rfl

theorem TreeOk.remove (h : TreeOk files dirs) {before after : List Record}
    (hr : EntryOf (kindOf files) dirs d r) (hDirs : dirs d = before ++ r :: after)
    (hEmpty : kindOf files r.ent.inode = some kfsTypeDir →
      ∀ q ∈ dirs r.ent.inode, q.isEntry = false) :
    TreeOk (update (update files r.ent.inode none) d
        (some ⟨kfsTypeDir, encodeDir (before ++ after)⟩))
      (update dirs d (before ++ after)) := by
  have hContent : Encodes files dirs := h.content
  refine ⟨(hContent.drop _).put fun _ => rfl, ?_⟩
  rw [kindOf_remove hr.dir (hr.inode_ne hEmpty)]
  exact h.linked.remove hr hDirs hEmpty

theorem TreeOk.create (h : TreeOk files dirs) {first second : Record}
    (hd : kindOf files d = some kfsTypeDir) (hn : files n = none) (hRoot : n ≠ 0)
    (hType : ty = kfsTypeFile ∨ ty = kfsTypeDir)
    (hContent : ty = kfsTypeDir → content = encodeDir [first, second])
    (hDots : NewDots n d first second) (hEntry : r.isEntry = true) (hInode : r.ent.inode = n)
    (hKind : r.ent.type = ty) (hFresh : ∀ q ∈ dirs d, q.ent.name ≠ r.ent.name) :
    TreeOk (update (update files n (some ⟨ty, content⟩)) d
        (some ⟨kfsTypeDir, encodeDir (dirs d ++ [r])⟩))
      (update (update dirs n [first, second]) d (dirs d ++ [r])) := by
  have hFree : kindOf files n = none := by simp [kindOf, hn]
  have hNe : d ≠ n := by
    rintro rfl
    rw [hd] at hFree
    cases hFree
  have hEncodes : Encodes files dirs := h.content
  refine ⟨(hEncodes.put hContent).put fun _ => rfl, ?_⟩
  rw [kindOf_create hd hNe]
  exact h.linked.create hd hFree hDots hEntry hRoot hType hInode hKind hFresh

end Kryos.Fs
