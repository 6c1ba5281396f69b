import Kryos.Base.Segments
import Kryos.Fs.Vfs

/-! Path resolution over any tree of vnodes. Of a vnode it uses the type and the lookup
operation only. -/
namespace Kryos.Fs

open Segments

variable {comp p name : List UInt8} {path : CString} {n : Nat} {front : List (List UInt8)}

/-- The text `dev/`. -/
def devSlash : List UInt8 := [100, 101, 118, 47]

/-- What is mounted. The root is a directory: `kfs_mount` and `tarfs_mount` mount
nothing else. -/
structure Tree (V : Type*) where
  root : V
  type : V → Nat
  /-- `ops->lookup`, if the vnode has it. -/
  lookup : V → Option (CString → Except Int V)
  /-- `tty_get_vnode`. -/
  tty : Nat → V
  /-- `blk_get_vnode("hda")`. -/
  blk : Option V
  root_dir : type root = vnodeTypeDir

/-- The inner loop of `vfs_resolve_path`: the bytes up to a slash or the end are copied
into a buffer of 256 bytes, if they fit. -/
def copyComponent (comp : List UInt8) : List UInt8 → Option (List UInt8 × List UInt8)
  | [] => some (comp, [])
  | c :: p =>
    if c = slash then some (comp, c :: p)
    else if comp.length ≥ 255 then none
    else copyComponent (comp ++ [c]) p

theorem copyComponent_eq (hFits : comp.length ≤ 255) :
    copyComponent comp p =
      if comp.length + (p.takeWhile (· != slash)).length ≥ 256 then none
      else some (comp ++ p.takeWhile (· != slash), p.dropWhile (· != slash)) := by
  induction p generalizing comp with
  | nil => simp [copyComponent, Nat.lt_succ_of_le hFits]
  | cons c p ih =>
    by_cases hc : c = slash
    · simp [copyComponent, hc, Nat.lt_succ_of_le hFits]
    · rw [copyComponent, if_neg hc, List.takeWhile_cons_of_pos (by simpa using hc),
        List.dropWhile_cons_of_pos (by simpa using hc), List.length_cons]
      by_cases hFull : comp.length ≥ 255
      · rw [if_pos hFull, if_pos (by omega)]
      · rw [if_neg hFull, ih (by simp; omega), List.length_append, List.length_singleton,
          List.append_assoc, List.singleton_append, Nat.add_assoc, Nat.add_comm 1]

/-- A turn of the loop consumes at least one byte. -/
theorem length_rest_lt (hNonempty : p ≠ []) :
    ((p.dropWhile (· != slash)).dropWhile (· == slash)).length < p.length := by
  obtain ⟨c, p, rfl⟩ := List.exists_cons_of_ne_nil hNonempty
  by_cases hc : c = slash
  · have hLe := (List.dropWhile_sublist (l := p) (· == slash)).length_le
    rw [List.dropWhile_cons_of_neg (by simpa using hc),
      List.dropWhile_cons_of_pos (by simpa using hc), List.length_cons]
    omega
  · have hLe := (List.dropWhile_sublist (l := p) (· != slash)).length_le
    have hLe' := (List.dropWhile_sublist (l := p.dropWhile (· != slash)) (· == slash)).length_le
    rw [List.dropWhile_cons_of_pos (by simpa using hc), List.length_cons]
    omega

theorem copyComponent_rest_lt {stop : List UInt8} (hNonempty : p ≠ [])
    (hCopy : copyComponent [] p = some (comp, stop)) :
    (stop.dropWhile (· == slash)).length < p.length := by
  rw [copyComponent_eq (by simp)] at hCopy
  split at hCopy
  · cases hCopy
  · cases hCopy
    exact length_rest_lt hNonempty

/-- The loop that takes slashes off the end. -/
def trimEnd (p : List UInt8) : Nat → Nat
  | 0 => 0
  | n + 1 => if p.getD n 0 = slash then trimEnd p n else n + 1

/-- The search for the last slash below an index. -/
def lastSlash (p : List UInt8) : Nat → Option Nat
  | 0 => none
  | n + 1 => if p.getD n 0 = slash then some n else lastSlash p n

namespace Tree

variable {V : Type*}

/-- The device that a path names, after its leading slashes. -/
def device (t : Tree V) (path : List UInt8) : Option V :=
  if path.take 7 = devTty ∧ path.length = 8 ∧ 48 ≤ path.getD 7 0 ∧ path.getD 7 0 ≤ 51 then
    some (t.tty ((path.getD 7 0).toNat - 48))
  else if path = devHda then t.blk
  else none

/-- The outer loop of `vfs_resolve_path`. -/
def walk (t : Tree V) (curr : V) (p : List UInt8) : Except Int V :=
  if _hEnd : p = [] then .ok curr
  else
    match _hCopy : copyComponent [] p with
    | none => .error (-enametoolong)
    | some (comp, stop) =>
      if comp.length = 0 ∨ comp = dot then t.walk curr (stop.dropWhile (· == slash))
      else if t.type curr ≠ vnodeTypeDir then .error (-enotdir)
      else
        match t.lookup curr with
        | none => .error (-enotdir)
        | some lookup =>
          match lookup (.ofBytes comp) with
          | .error err => .error err
          | .ok next => t.walk next (stop.dropWhile (· == slash))
termination_by p.length
decreasing_by all_goals exact copyComponent_rest_lt _hEnd _hCopy

def vfsResolvePath (t : Tree V) (path : CString) : Except Int V :=
  let p := path.bytes.dropWhile (· == slash)
  if p = [] then .ok t.root
  else
    match t.device p with
    | some v => .ok v
    | none =>
      match t.walk t.root p with
      | .error err => .error err
      | .ok curr =>
        if path.bytes.getLast? = some slash ∧ t.type curr ≠ vnodeTypeDir then .error (-enotdir)
        else .ok curr

/-- `vfs_resolve_parent`: the directory and the last component. -/
def vfsResolveParent (t : Tree V) (path : CString) : Except Int (V × CString) :=
  let p := path.bytes.dropWhile (· == slash)
  if p = [] then .error (-einval)
  else
    let stop := trimEnd p p.length
    if stop = 0 then .error (-einval)
    else
      match lastSlash p stop with
      | none =>
        if stop ≥ 256 then .error (-enametoolong) else .ok (t.root, .ofBytes (p.take stop))
      | some last =>
        let nameLen := stop - (last + 1)
        if nameLen = 0 ∨ nameLen ≥ 256 then .error (-einval)
        else
          let name := CString.ofBytes ((p.drop (last + 1)).take nameLen)
          let dirLen := trimEnd p last
          if dirLen = 0 then .ok (t.root, name)
          else if dirLen ≥ 256 then .error (-enametoolong)
          else
            match t.vfsResolvePath (.ofBytes (p.take dirLen)) with
            | .error err => .error err
            | .ok parent =>
              if t.type parent ≠ vnodeTypeDir then .error (-enotdir) else .ok (parent, name)

/-- One component: its length is tested first, then the directory, and then it is looked
up. -/
def lookupIn (t : Tree V) (v : V) (comp : List UInt8) : Except Int V :=
  if comp.length ≥ 256 then .error (-enametoolong)
  else if t.type v ≠ vnodeTypeDir then .error (-enotdir)
  else
    match t.lookup v with
    | none => .error (-enotdir)
    | some lookup => lookup (.ofBytes comp)

end Tree

/-- The components that are looked up. -/
def components (path : List UInt8) : List (List UInt8) :=
  (segments slash path).filter (· ≠ dot)

@[simp]
theorem components_nil : components [] = [] := rfl

theorem components_dropWhile (p : List UInt8) :
    components (p.dropWhile (· == slash)) = components p := by
  rw [components, segments_dropWhile, components]

theorem notMem_takeWhile (p : List UInt8) : slash ∉ p.takeWhile (· != slash) := fun hMem => by
  simpa using List.mem_takeWhile_imp hMem

theorem components_split (p : List UInt8) : components p =
    (if p.takeWhile (· != slash) = [] ∨ p.takeWhile (· != slash) = dot then []
      else [p.takeWhile (· != slash)]) ++
      components ((p.dropWhile (· != slash)).dropWhile (· == slash)) := by
  rw [components_dropWhile, components, segments_split, List.filter_append, components]
  generalize hComp : p.takeWhile (· != slash) = comp
  by_cases hEmpty : comp = []
  · simp [hEmpty]
  · rw [segments_of_notMem (hComp ▸ notMem_takeWhile p) hEmpty]
    by_cases hDot : comp = dot <;> simp [hEmpty, hDot]

theorem components_of_fits {stop : List UInt8} (hCopy : copyComponent [] p = some (comp, stop)) :
    comp.length < 256 ∧ components p =
      (if comp.length = 0 ∨ comp = dot then [] else [comp]) ++
        components (stop.dropWhile (· == slash)) := by
  rw [copyComponent_eq (by simp), List.length_nil, Nat.zero_add] at hCopy
  split at hCopy
  · cases hCopy
  case isFalse hShort =>
    cases hCopy
    simp only [List.length_eq_zero_iff]
    exact ⟨Nat.lt_of_not_le hShort, components_split p⟩

theorem components_of_long (hCopy : copyComponent [] p = none) :
    ∃ comp rest, components p = comp :: rest ∧ comp.length ≥ 256 := by
  rw [copyComponent_eq (by simp), List.length_nil, Nat.zero_add] at hCopy
  split at hCopy
  case isTrue hLong =>
    have hKept : ¬(p.takeWhile (· != slash) = [] ∨ p.takeWhile (· != slash) = dot) := by
      rintro (hEmpty | hDot)
      · simp [hEmpty] at hLong
      · simp [hDot, dot] at hLong
    have hSplit := components_split p
    rw [if_neg hKept] at hSplit
    exact ⟨_, _, hSplit, hLong⟩
  · cases hCopy

namespace Tree

variable {V : Type*} {t : Tree V}

/-- Path resolution as it is meant: a fold over the components from the root, and a path
that ends in a slash is that of a directory. -/
def resolve (t : Tree V) (path : CString) : Except Int V :=
  match (components path.bytes).foldlM t.lookupIn t.root with
  | .error err => .error err
  | .ok v =>
    if path.bytes.getLast? = some slash ∧ t.type v ≠ vnodeTypeDir then .error (-enotdir) else .ok v

theorem walk_eq (curr : V) (p : List UInt8) :
    t.walk curr p = (components p).foldlM t.lookupIn curr := by
  fun_induction walk t curr p with
  | case1 => rfl
  | case2 curr p _ hCopy =>
    obtain ⟨comp, rest, hEq, hLong⟩ := components_of_long hCopy
    rw [hEq, List.foldlM_cons, lookupIn, if_pos hLong]
    rfl
  | case3 curr p _ comp stop hCopy hSkip ih =>
    rw [ih, (components_of_fits hCopy).2, if_pos hSkip, List.nil_append]
  | case4 curr p _ comp stop hCopy hSkip hType =>
    obtain ⟨hShort, hEq⟩ := components_of_fits hCopy
    rw [hEq, if_neg hSkip, List.singleton_append, List.foldlM_cons, lookupIn,
      if_neg (Nat.not_le.mpr hShort), if_pos hType]
    rfl
  | case5 curr p _ comp stop hCopy hSkip hType hLookup =>
    obtain ⟨hShort, hEq⟩ := components_of_fits hCopy
    rw [hEq, if_neg hSkip, List.singleton_append, List.foldlM_cons, lookupIn,
      if_neg (Nat.not_le.mpr hShort), if_neg hType, hLookup]
    rfl
  | case6 curr p _ comp stop hCopy hSkip hType lookup hLookup err hErr =>
    obtain ⟨hShort, hEq⟩ := components_of_fits hCopy
    rw [hEq, if_neg hSkip, List.singleton_append, List.foldlM_cons, lookupIn,
      if_neg (Nat.not_le.mpr hShort), if_neg hType, hLookup]
    dsimp only
    rw [hErr]
    rfl
  | case7 curr p _ comp stop hCopy hSkip hType lookup hLookup next hNext ih =>
    obtain ⟨hShort, hEq⟩ := components_of_fits hCopy
    rw [hEq, if_neg hSkip, List.singleton_append, List.foldlM_cons, lookupIn,
      if_neg (Nat.not_le.mpr hShort), if_neg hType, hLookup]
    dsimp only
    rw [hNext, ih]
    rfl

theorem device_eq_none (hDev : ¬devSlash <+: p) : t.device p = none := by
  have hTty : p.take 7 ≠ devTty := fun hEq => by
    refine hDev (List.IsPrefix.trans ?_ (List.take_prefix 7 p))
    rw [hEq]
    exact ⟨[116, 116, 121], rfl⟩
  have hHda : p ≠ devHda := fun hEq => hDev (hEq ▸ ⟨[104, 100, 97], rfl⟩)
  rw [device, if_neg fun h => hTty h.1, if_neg hHda]

theorem vfsResolvePath_of_no_device
    (hDevice : t.device (path.bytes.dropWhile (· == slash)) = none) :
    t.vfsResolvePath path = t.resolve path := by
  rw [vfsResolvePath, resolve, ← components_dropWhile path.bytes]
  by_cases hEmpty : path.bytes.dropWhile (· == slash) = []
  · -- nothing but slashes: the root, which is a directory
    have hRoot : ¬(path.bytes.getLast? = some slash ∧ t.type t.root ≠ vnodeTypeDir) :=
      fun h => h.2 t.root_dir
    rw [hEmpty, if_pos rfl, components_nil, List.foldlM_nil]
    exact (if_neg hRoot).symm
  · rw [if_neg hEmpty, hDevice, walk_eq]

theorem vfsResolvePath_eq (hDev : ¬devSlash <+: path.bytes.dropWhile (· == slash)) :
    t.vfsResolvePath path = t.resolve path :=
  vfsResolvePath_of_no_device (device_eq_none hDev)

/-- `vfs_resolve_path` is the fold over the components, so it does not depend on how
often a slash is repeated and on `.` components. -/
theorem vfsResolvePath_fold (t : Tree V) (path : CString)
    (hDev : ¬devSlash <+: path.bytes.dropWhile (· == slash)) :
    t.vfsResolvePath path = t.resolve path ∧
      ∀ path' : CString, ¬devSlash <+: path'.bytes.dropWhile (· == slash) →
        components path'.bytes = components path.bytes →
        (path'.bytes.getLast? = some slash ↔ path.bytes.getLast? = some slash) →
        t.vfsResolvePath path' = t.vfsResolvePath path := by
  refine ⟨vfsResolvePath_eq hDev, fun path' hDev' hSame hEnd => ?_⟩
  rw [vfsResolvePath_eq hDev, vfsResolvePath_eq hDev', resolve, resolve, hSame]
  simp only [hEnd]

/-- A directory `a` in the root, and in it a file `b`. -/
def nested : Tree Nat where
  root := 0
  type v := if v ≤ 1 then vnodeTypeDir else vnodeTypeFile
  lookup v := if v ≤ 1 then some fun name =>
      if v = 0 ∧ name.bytes = [97] then .ok 1
      else if v = 1 ∧ name.bytes = [98] then .ok 2
      else .error (-enoent)
    else none
  tty n := 3 + n
  blk := none
  root_dir := rfl

/-- The path `//a/.//b`. -/
theorem vfsResolvePath_fold_nested :
    nested.vfsResolvePath ⟨[47, 47, 97, 47, 46, 47, 47, 98], by decide⟩ = .ok 2 :=
  (vfsResolvePath_fold nested ⟨[47, 47, 97, 47, 46, 47, 47, 98], by decide⟩ (by decide)).1.trans rfl

end Tree

theorem take_succ_getD (hn : n < p.length) : p.take (n + 1) = p.take n ++ [p.getD n 0] := by
  rw [List.take_add_one, List.getElem?_eq_getElem hn, List.getD_eq_getElem _ _ hn]
  rfl

theorem trimEnd_le (p : List UInt8) (n : Nat) : trimEnd p n ≤ n := by
  induction n with
  | zero => exact Nat.le_refl 0
  | succ n ih =>
    rw [trimEnd]
    split
    · exact Nat.le_succ_of_le ih
    · exact Nat.le_refl _

/-- Only slashes are taken off, -/
theorem take_trimEnd (hn : n ≤ p.length) :
    p.take n = p.take (trimEnd p n) ++ List.replicate (n - trimEnd p n) slash := by
  induction n with
  | zero => rfl
  | succ n ih =>
    rw [trimEnd]
    split
    case isTrue hSlash =>
      rw [take_succ_getD hn, hSlash, ih (Nat.le_of_succ_le hn), List.append_assoc,
        ← List.replicate_succ', Nat.succ_sub (trimEnd_le p n)]
    · rw [Nat.sub_self, List.replicate_zero, List.append_nil]

/-- and all of them. -/
theorem getLast?_trimEnd (hn : n ≤ p.length) : (p.take (trimEnd p n)).getLast? ≠ some slash := by
  induction n with
  | zero => simp [trimEnd]
  | succ n ih =>
    rw [trimEnd]
    split
    · exact ih (Nat.le_of_succ_le hn)
    case isFalse hSlash =>
      rw [take_succ_getD hn, List.getLast?_concat]
      exact fun hEq => hSlash (Option.some.inj hEq)

theorem segments_trimEnd (hn : n ≤ p.length) :
    segments slash (p.take n) = segments slash (p.take (trimEnd p n)) := by
  rw [take_trimEnd hn, segments_append_replicate]

theorem lastSlash_none (hn : n ≤ p.length) (hNone : lastSlash p n = none) : slash ∉ p.take n := by
  induction n with
  | zero => simp
  | succ n ih =>
    rw [lastSlash] at hNone
    split at hNone
    · cases hNone
    case isFalse hSlash =>
      rw [take_succ_getD hn, List.mem_append, List.mem_singleton]
      rintro (hFront | hLast)
      · exact ih (Nat.le_of_succ_le hn) hNone hFront
      · exact hSlash hLast.symm

/-- The last slash splits the text; behind it there is none. -/
theorem lastSlash_some {k : Nat} (hn : n ≤ p.length) (hSome : lastSlash p n = some k) :
    k < n ∧ p.take n = p.take k ++ slash :: (p.drop (k + 1)).take (n - (k + 1)) ∧
      slash ∉ (p.drop (k + 1)).take (n - (k + 1)) := by
  induction n with
  | zero => cases hSome
  | succ n ih =>
    rw [lastSlash] at hSome
    split at hSome
    case isTrue hSlash =>
      cases hSome
      refine ⟨Nat.lt_succ_self _, ?_, ?_⟩
      · rw [take_succ_getD hn, hSlash, Nat.sub_self, List.take_zero]
      · simp
    case isFalse hSlash =>
      obtain ⟨hLt, hTake, hNot⟩ := ih (Nat.le_of_succ_le hn) hSome
      have hMore : (p.drop (k + 1)).take (n + 1 - (k + 1)) =
          (p.drop (k + 1)).take (n - (k + 1)) ++ [p.getD n 0] := by
        have hLen : n - (k + 1) < (p.drop (k + 1)).length := by rw [List.length_drop]; omega
        have hIndex : k + 1 + (n - (k + 1)) = n := by omega
        rw [Nat.succ_sub hLt, take_succ_getD hLen, List.getD_eq_getElem?_getD, List.getElem?_drop,
          hIndex, List.getD_eq_getElem?_getD]
      refine ⟨Nat.lt_succ_of_lt hLt, ?_, ?_⟩
      · rw [take_succ_getD hn, hTake, hMore, List.append_assoc, List.cons_append]
      · rw [hMore, List.mem_append, List.mem_singleton]
        rintro (hFront | hLast)
        · exact hNot hFront
        · exact hSlash hLast.symm

theorem bytes_ofBytes {l : List UInt8} (hNul : (0 : UInt8) ∉ l) :
    (CString.ofBytes l).bytes = l := by
  refine List.takeWhile_eq_self_iff.mpr fun c hc => ?_
  simpa using fun hEq : c = 0 => hNul (hEq ▸ hc)

namespace Tree

variable {V : Type*} {t : Tree V}

/-- The directory that `vfs_resolve_parent` finds by the components in front of the last
one. -/
def parentOf (t : Tree V) (front : List (List UInt8)) (name : List UInt8) :
    Except Int (V × CString) :=
  match (front.filter (· ≠ dot)).foldlM t.lookupIn t.root with
  | .error err => .error err
  | .ok parent =>
    if t.type parent ≠ vnodeTypeDir then .error (-enotdir) else .ok (parent, .ofBytes name)

theorem dropWhile_take_dropWhile (path : List UInt8) (n : Nat) :
    ((path.dropWhile (· == slash)).take n).dropWhile (· == slash) =
      (path.dropWhile (· == slash)).take n := by
  cases hp : path.dropWhile (· == slash) with
  | nil => simp
  | cons c p =>
    have hc : (c == slash) = false := by
      have hHead := List.head_dropWhile_not (p := (· == slash)) (l := path)
      simpa [hp] using hHead
    cases n with
    | zero => rfl
    | succ n => rw [List.take_succ_cons, List.dropWhile_cons_of_neg (by simp [hc])]

theorem parentOf_eq_ok {parent : V} {n : CString} (h : t.parentOf front name = .ok (parent, n)) :
    (front.filter (· ≠ dot)).foldlM t.lookupIn t.root = .ok parent ∧
      t.type parent = vnodeTypeDir ∧ n = .ofBytes name := by
  rw [parentOf] at h
  split at h
  · cases h
  rename_i v hFront
  by_cases hType : t.type v ≠ vnodeTypeDir
  · rw [if_pos hType] at h
    cases h
  · rw [if_neg hType] at h
    cases h
    exact ⟨hFront, not_not.mp hType, rfl⟩

theorem parentOf_eq_error {err : Int} (h : t.parentOf front name = .error err) :
    (front.filter (· ≠ dot)).foldlM t.lookupIn t.root = .error err ∨
      err = -enotdir ∧ ∃ parent, (front.filter (· ≠ dot)).foldlM t.lookupIn t.root = .ok parent ∧
        t.type parent ≠ vnodeTypeDir := by
  rw [parentOf] at h
  cases hFront : (front.filter (· ≠ dot)).foldlM t.lookupIn t.root with
  | error err' =>
    rw [hFront] at h
    cases h
    exact .inl rfl
  | ok v =>
    rw [hFront] at h
    dsimp only at h
    by_cases hType : t.type v ≠ vnodeTypeDir
    · rw [if_pos hType] at h
      cases h
      exact .inr ⟨rfl, v, rfl, hType⟩
    · rw [if_neg hType] at h
      cases h

/-- The prefix of a path up to a byte that is no slash is resolved by its components. -/
theorem vfsResolvePath_take (hDev : ¬devSlash <+: path.bytes.dropWhile (· == slash))
    (hLast : ((path.bytes.dropWhile (· == slash)).take n).getLast? ≠ some slash) :
    t.vfsResolvePath (.ofBytes ((path.bytes.dropWhile (· == slash)).take n)) =
      (components ((path.bytes.dropWhile (· == slash)).take n)).foldlM t.lookupIn t.root := by
  generalize hp : path.bytes.dropWhile (· == slash) = p at hDev hLast
  have hNul : (0 : UInt8) ∉ p.take n := fun hMem =>
    path.nul_free ((List.dropWhile_sublist _).mem (hp ▸ List.mem_of_mem_take hMem))
  have hDev' : ¬devSlash <+: (CString.ofBytes (p.take n)).bytes.dropWhile (· == slash) := by
    rw [bytes_ofBytes hNul, ← hp, dropWhile_take_dropWhile, hp]
    exact fun hPrefix => hDev (hPrefix.trans (List.take_prefix n p))
  rw [vfsResolvePath_eq hDev', resolve, bytes_ofBytes hNul]
  split
  · symm; assumption
  · rw [if_neg fun h => hLast h.1]
    symm; assumption

/-- The directory that is found by the part of the path in front of the last component. -/
def parentAt (t : Tree V) (dir name : List UInt8) : Except Int (V × CString) :=
  match t.vfsResolvePath (.ofBytes dir) with
  | .error err => .error err
  | .ok parent =>
    if t.type parent ≠ vnodeTypeDir then .error (-enotdir) else .ok (parent, .ofBytes name)

theorem parentAt_nil (name : List UInt8) : t.parentAt [] name = .ok (t.root, .ofBytes name) := by
  have hRoot : ¬t.type t.root ≠ vnodeTypeDir := fun h => h t.root_dir
  have hPath : t.vfsResolvePath (.ofBytes []) = .ok t.root := rfl
  exact if_neg hRoot

/-- `vfs_resolve_parent` splits the path at its last component. -/
theorem vfsResolveParent_cases (t : Tree V) (path : CString) :
    (∃ err, err ≠ -enoent ∧ err ≠ -enotdir ∧ t.vfsResolveParent path = .error err) ∨
      ∃ n name, segments slash path.bytes =
          segments slash ((path.bytes.dropWhile (· == slash)).take n) ++ [name] ∧
        (0 : UInt8) ∉ name ∧ name.length < 256 ∧
        ((path.bytes.dropWhile (· == slash)).take n).getLast? ≠ some slash ∧
        t.vfsResolveParent path = t.parentAt ((path.bytes.dropWhile (· == slash)).take n) name := by
  have hInvalid : -einval ≠ -enoent ∧ -einval ≠ -enotdir := by decide
  have hTooLong : -enametoolong ≠ -enoent ∧ -enametoolong ≠ -enotdir := by decide
  rw [vfsResolveParent, ← segments_dropWhile]
  generalize hp : path.bytes.dropWhile (· == slash) = p
  have hNul : (0 : UInt8) ∉ p := fun hMem =>
    path.nul_free ((List.dropWhile_sublist _).mem (hp ▸ hMem))
  have hStop := trimEnd_le p p.length
  have hSegments := segments_trimEnd (Nat.le_refl p.length)
  rw [List.take_length] at hSegments
  generalize trimEnd p p.length = stop at hStop hSegments
  by_cases hEmpty : p = []
  · exact .inl ⟨_, hInvalid.1, hInvalid.2, if_pos hEmpty⟩
  rw [if_neg hEmpty]
  by_cases hZero : stop = 0
  · exact .inl ⟨_, hInvalid.1, hInvalid.2, if_pos hZero⟩
  rw [if_neg hZero]
  cases hLast : lastSlash p stop with
  | none =>
    by_cases hLong : stop ≥ 256
    · exact .inl ⟨_, hTooLong.1, hTooLong.2, if_pos hLong⟩
    have hName : p.take stop ≠ [] := by simp [hEmpty, hZero]
    refine .inr ⟨0, p.take stop, ?_, fun hMem => hNul (List.mem_of_mem_take hMem), ?_, by simp, ?_⟩
    · rw [hSegments, segments_of_notMem (lastSlash_none hStop hLast) hName, List.take_zero]
      rfl
    · rw [List.length_take]
      omega
    · rw [if_neg hLong, List.take_zero, parentAt_nil]
  | some last =>
    dsimp only
    obtain ⟨hLt, hTake, hNot⟩ := lastSlash_some hStop hLast
    by_cases hBad : stop - (last + 1) = 0 ∨ stop - (last + 1) ≥ 256
    · exact .inl ⟨_, hInvalid.1, hInvalid.2, if_pos hBad⟩
    rw [if_neg hBad]
    have hLen : ((p.drop (last + 1)).take (stop - (last + 1))).length = stop - (last + 1) := by
      rw [List.length_take, List.length_drop]
      omega
    have hNulName : (0 : UInt8) ∉ (p.drop (last + 1)).take (stop - (last + 1)) := fun hMem =>
      hNul (List.mem_of_mem_drop (List.mem_of_mem_take hMem))
    generalize (p.drop (last + 1)).take (stop - (last + 1)) = name at hTake hNot hLen hNulName
    have hName : name ≠ [] := fun hNil => by
      rw [hNil, List.length_nil] at hLen
      omega
    by_cases hLong : trimEnd p last ≥ 256
    · rw [if_neg (by omega), if_pos hLong]
      exact .inl ⟨_, hTooLong.1, hTooLong.2, rfl⟩
    refine .inr ⟨trimEnd p last, name, ?_, hNulName, ?_, getLast?_trimEnd (by omega), ?_⟩
    · rw [hSegments, hTake, segments_append_cons, segments_trimEnd (by omega),
        segments_of_notMem hNot hName]
    · omega
    · by_cases hRoot : trimEnd p last = 0
      · rw [if_pos hRoot, hRoot, List.take_zero, parentAt_nil]
      · rw [if_neg hRoot, if_neg hLong]
        rfl

theorem vfsResolveParent_spec (hDev : ¬devSlash <+: path.bytes.dropWhile (· == slash)) :
    (∃ err, err ≠ -enoent ∧ err ≠ -enotdir ∧ t.vfsResolveParent path = .error err) ∨
      ∃ front name, segments slash path.bytes = front ++ [name] ∧ (0 : UInt8) ∉ name ∧
        name.length < 256 ∧ t.vfsResolveParent path = t.parentOf front name := by
  rcases t.vfsResolveParent_cases path with hError | ⟨n, name, hSplit, hNul, hShort, hLast, hResult⟩
  · exact .inl hError
  · refine .inr ⟨_, name, hSplit, hNul, hShort, ?_⟩
    rw [hResult, parentAt, vfsResolvePath_take hDev hLast]
    rfl

/-- What `vfs_resolve_parent` finds is found by the components: a device is no directory. -/
theorem vfsResolveParent_ok {parent : V} {n : CString}
    (hDevices : ∀ p v, t.device p = some v → t.type v ≠ vnodeTypeDir)
    (h : t.vfsResolveParent path = .ok (parent, n)) :
    ∃ front name, segments slash path.bytes = front ++ [name] ∧ (0 : UInt8) ∉ name ∧
      name.length < 256 ∧ t.parentOf front name = .ok (parent, n) := by
  rcases t.vfsResolveParent_cases path with
    ⟨err, _, _, hError⟩ | ⟨k, name, hSplit, hNul, hShort, hLast, hResult⟩
  · rw [hError] at h
    cases h
  refine ⟨_, name, hSplit, hNul, hShort, ?_⟩
  rw [hResult, parentAt] at h
  rw [← h, parentOf]
  have hNulDir : (0 : UInt8) ∉ (path.bytes.dropWhile (· == slash)).take k := fun hMem =>
    path.nul_free ((List.dropWhile_sublist _).mem (List.mem_of_mem_take hMem))
  generalize (path.bytes.dropWhile (· == slash)).take k = dir at h hLast hNulDir
  have hBytes := bytes_ofBytes hNulDir
  cases hDevice : t.device ((CString.ofBytes dir).bytes.dropWhile (· == slash)) with
  | some v =>
    -- the lookup of the directory ends at the device
    have hSome : (CString.ofBytes dir).bytes.dropWhile (· == slash) ≠ [] := fun hNil => by
      rw [hNil] at hDevice
      cases hDevice
    have hPath : t.vfsResolvePath (.ofBytes dir) = .ok v := by
      rw [vfsResolvePath, if_neg hSome, hDevice]
    rw [hPath] at h
    dsimp only at h
    rw [if_pos (hDevices _ v hDevice)] at h
    cases h
  | none =>
    rw [vfsResolvePath_of_no_device hDevice, resolve, hBytes, components]
    cases ((segments slash dir).filter (· ≠ dot)).foldlM t.lookupIn t.root with
    | error err => rfl
    | ok v =>
      have hNot : ¬(dir.getLast? = some slash ∧ t.type v ≠ vnodeTypeDir) :=
        fun hBoth => hLast hBoth.1
      dsimp only
      rw [if_neg hNot]

theorem vfsResolvePath_of_front (hDev : ¬devSlash <+: path.bytes.dropWhile (· == slash))
    (hSplit : segments slash path.bytes = front ++ [name]) (hDot : name ≠ dot) :
    t.vfsResolvePath path =
      match (front.filter (· ≠ dot)).foldlM t.lookupIn t.root with
      | .error err => .error err
      | .ok parent =>
        match t.lookupIn parent name with
        | .error err => .error err
        | .ok v =>
          if path.bytes.getLast? = some slash ∧ t.type v ≠ vnodeTypeDir then .error (-enotdir)
          else .ok v := by
  have hComponents : components path.bytes = front.filter (· ≠ dot) ++ [name] := by
    rw [components, hSplit, List.filter_append, List.filter_cons_of_pos (by simpa using hDot),
      List.filter_nil]
  rw [vfsResolvePath_eq hDev, resolve, hComponents, List.foldlM_append]
  cases (front.filter (· ≠ dot)).foldlM t.lookupIn t.root with
  | error err => rfl
  | ok parent =>
    dsimp only [bind, Except.bind]
    rw [List.foldlM_cons]
    cases t.lookupIn parent name with
    | error err => rfl
    | ok v => rfl

theorem lookupIn_eq {v : V} {lookup : CString → Except Int V} (hShort : name.length < 256)
    (hType : t.type v = vnodeTypeDir) (hLookup : t.lookup v = some lookup) :
    t.lookupIn v name = lookup (.ofBytes name) := by
  rw [lookupIn, if_neg (Nat.not_le.mpr hShort), if_neg (not_not.mpr hType), hLookup]

theorem lookupIn_of_file {v : V} (hShort : name.length < 256) (hType : t.type v ≠ vnodeTypeDir) :
    t.lookupIn v name = .error (-enotdir) := by
  rw [lookupIn, if_neg (Nat.not_le.mpr hShort), if_pos hType]

/-- `vfs_resolve_parent` agrees with `vfs_resolve_path`: on the vnode if the name is found
in the directory, on the error of the lookup, and on a directory that is missing. -/
theorem vfsResolveParent_agrees (t : Tree V) (path : CString)
    (hDev : ¬devSlash <+: path.bytes.dropWhile (· == slash)) :
    (∀ parent name lookup, t.vfsResolveParent path = .ok (parent, name) →
      name.bytes ≠ dot → name.bytes ≠ dotDot → t.lookup parent = some lookup →
      (∀ v, lookup name = .ok v → t.vfsResolvePath path =
        if path.bytes.getLast? = some slash ∧ t.type v ≠ vnodeTypeDir then .error (-enotdir)
        else .ok v) ∧
      ∀ err, lookup name = .error err → t.vfsResolvePath path = .error err) ∧
    ((segments slash path.bytes).getLast? ≠ some dot →
      ∀ err, err = -enoent ∨ err = -enotdir → t.vfsResolveParent path = .error err →
        t.vfsResolvePath path = .error err) := by
  rcases vfsResolveParent_spec (t := t) hDev with
    ⟨err, hNoent, hNotdir, hResult⟩ | ⟨front, name, hSplit, hNul, hShort, hResult⟩
  · rw [hResult]
    refine ⟨fun _ _ _ hOk => (nomatch hOk), fun _ err' hErr hParent => ?_⟩
    cases hParent
    exact (hErr.elim hNoent hNotdir).elim
  · rw [hResult]
    refine ⟨fun parent n lookup hOk hDot _ hLookup => ?_, fun hLast err _ hParent => ?_⟩
    · obtain ⟨hFront, hType, rfl⟩ := parentOf_eq_ok hOk
      rw [bytes_ofBytes hNul] at hDot
      rw [vfsResolvePath_of_front hDev hSplit hDot, hFront]
      dsimp only
      rw [lookupIn_eq hShort hType hLookup]
      exact ⟨fun v hFound => by rw [hFound], fun err hMissing => by rw [hMissing]⟩
    · have hDot : name ≠ dot := fun hEq => hLast (by rw [hSplit, List.getLast?_concat, hEq])
      rw [vfsResolvePath_of_front hDev hSplit hDot]
      rcases parentOf_eq_error hParent with hFront | ⟨rfl, parent, hFront, hType⟩
      · rw [hFront]
      · rw [hFront]
        dsimp only
        rw [lookupIn_of_file hShort hType]

/-- The path `/a//b/`. The parent is `a`; as `b` is a file, the last slash is refused. -/
theorem vfsResolveParent_agrees_nested :
    nested.vfsResolveParent ⟨[47, 97, 47, 47, 98, 47], by decide⟩ = .ok (1, .ofBytes [98]) ∧
      nested.vfsResolvePath ⟨[47, 97, 47, 47, 98, 47], by decide⟩ = .error (-enotdir) := by
  have hDir : nested.vfsResolvePath (.ofBytes [97]) = .ok 1 :=
    (vfsResolvePath_eq (by decide)).trans rfl
  have hParent : nested.vfsResolveParent ⟨[47, 97, 47, 47, 98, 47], by decide⟩ =
      .ok (1, .ofBytes [98]) := by
    simp [vfsResolveParent, trimEnd, lastSlash, slash, hDir,
      show nested.type 1 = vnodeTypeDir from rfl]
  refine ⟨hParent, ?_⟩
  have hAgrees :=
    (vfsResolveParent_agrees nested ⟨[47, 97, 47, 47, 98, 47], by decide⟩ (by decide)).1
    1 (.ofBytes [98]) _ hParent (by decide) (by decide) rfl
  exact hAgrees.1 2 rfl

end Tree

/-- A mounted volume with the terminals and the disk. -/
def Volume.tree (s : Volume) : Tree Node where
  root := .kfs (rootVnode s)
  type := Node.type
  lookup
    | .kfs v => some fun name => (kfsVnodeLookup s v.ino name).map .kfs
    | _ => none
  tty := .tty
  blk := if s.kmalloc vnodeBytes then some .blk else none
  root_dir := rfl

section OnVolumes

variable {s : Volume}

theorem device_tree (p : List UInt8) : s.tree.device p = deviceNode s p := by
  rw [Tree.device, deviceNode]
  split
  · rfl
  · by_cases hHda : p = devHda <;> by_cases hHeap : s.kmalloc vnodeBytes <;>
      simp [hHda, hHeap, Volume.tree]

theorem lookupIn_tree {v : Vnode} (hShort : ¬comp.length > 255) (hType : ¬v.type ≠ vnodeTypeDir) :
    s.tree.lookupIn (.kfs v) comp = (kfsVnodeLookup s v.ino (.ofBytes comp)).map .kfs := by
  have hDir : s.tree.type (.kfs v) = vnodeTypeDir := not_not.mp hType
  have hLookup : s.tree.lookup (.kfs v) = some fun name =>
      (kfsVnodeLookup s v.ino name).map .kfs := rfl
  rw [Tree.lookupIn_eq (Nat.lt_succ_of_le (Nat.le_of_not_lt hShort)) hDir hLookup]

theorem resolveLoop_eq {fuel : Nat} {curr : Vnode} (hFuel : p.length ≤ fuel) :
    (resolveLoop s fuel curr p).map Node.kfs =
      (components p).foldlM s.tree.lookupIn (.kfs curr) := by
  induction fuel generalizing curr p with
  | zero =>
    rw [List.length_eq_zero_iff.mp (Nat.le_zero.mp hFuel)]
    rfl
  | succ fuel ih =>
    rw [resolveLoop]
    by_cases hEmpty : p = []
    · rw [if_pos hEmpty, hEmpty]
      rfl
    have hRest : ((p.dropWhile (· != slash)).dropWhile (· == slash)).length ≤ fuel := by
      have hLt := length_rest_lt hEmpty
      omega
    rw [if_neg hEmpty, components_split p]
    simp only [← List.length_eq_zero_iff (l := p.takeWhile (· != slash))]
    generalize p.takeWhile (· != slash) = comp
    by_cases hSkip : comp.length = 0 ∨ comp = dot
    · have hShort : ¬comp.length > 255 := by
        rcases hSkip with hZero | rfl
        · omega
        · decide
      rw [if_neg hShort, if_pos hSkip, if_pos hSkip, List.nil_append, ih hRest]
    · rw [if_neg hSkip, if_neg hSkip, List.singleton_append, List.foldlM_cons]
      by_cases hLong : comp.length > 255
      · rw [if_pos hLong, Tree.lookupIn, if_pos (Nat.succ_le_of_lt hLong)]
        rfl
      rw [if_neg hLong]
      by_cases hType : curr.type ≠ vnodeTypeDir
      · rw [if_pos hType, Tree.lookupIn_of_file (Nat.lt_succ_of_le (Nat.le_of_not_lt hLong)) hType]
        rfl
      rw [if_neg hType, lookupIn_tree hLong hType]
      cases kfsVnodeLookup s curr.ino (.ofBytes comp) with
      | error err => rfl
      | ok next => exact ih hRest

theorem vfsResolvePath_tree (s : Volume) (path : CString) :
    vfsResolvePath s path = s.tree.vfsResolvePath path := by
  rw [vfsResolvePath, Tree.vfsResolvePath]
  generalize path.bytes.dropWhile (· == slash) = p
  by_cases hEmpty : p = []
  · rw [if_pos hEmpty, if_pos hEmpty]
    rfl
  rw [if_neg hEmpty, if_neg hEmpty, device_tree, Tree.walk_eq]
  have hRoot : s.tree.root = .kfs (rootVnode s) := rfl
  cases deviceNode s p with
  | some node => rfl
  | none =>
    rw [hRoot, ← resolveLoop_eq (Nat.le_refl _)]
    cases resolveLoop s p.length (rootVnode s) p with
    | error err => rfl
    | ok curr => rfl

theorem take_trimEnd_eq (hn : n ≤ p.length) :
    p.take (trimEnd p n) = (p.take n).rdropWhile (· == slash) := by
  induction n with
  | zero => simp [trimEnd]
  | succ n ih =>
    rw [trimEnd, take_succ_getD hn, List.rdropWhile_concat]
    by_cases hSlash : p.getD n 0 = slash
    · rw [if_pos hSlash, if_pos (by simpa using hSlash), ih (Nat.le_of_succ_le hn)]
    · rw [if_neg hSlash, if_neg (by simpa using hSlash), take_succ_getD hn]

theorem rdropWhile_slash {front name : List UInt8} (hNot : slash ∉ name) :
    (front ++ slash :: name).rdropWhile (· != slash) = front ++ [slash] ∧
      (front ++ slash :: name).rtakeWhile (· != slash) = name := by
  have hAll : ∀ c ∈ name.reverse, (c != slash) = true := fun c hc => by
    simpa using fun hEq : c = slash => hNot (hEq ▸ List.mem_reverse.mp hc)
  have hReverse :
      (front ++ slash :: name).reverse = name.reverse ++ slash :: front.reverse := by simp
  constructor
  · rw [List.rdropWhile, hReverse, List.dropWhile_append_of_pos hAll,
      List.dropWhile_cons_of_neg (by simp), List.reverse_cons, List.reverse_reverse]
  · rw [List.rtakeWhile, hReverse, List.takeWhile_append_of_pos hAll,
      List.takeWhile_cons_of_neg (by simp), List.append_nil, List.reverse_reverse]

theorem trimEnd_ne_zero (hHead : p.getD 0 0 ≠ slash) (hn : n ≠ 0) : trimEnd p n ≠ 0 := by
  induction n with
  | zero => exact absurd rfl hn
  | succ n ih =>
    rw [trimEnd]
    split
    case isTrue hSlash => exact ih fun hZero => hHead (hZero ▸ hSlash)
    · exact Nat.succ_ne_zero n

theorem getD_dropWhile_ne {path : List UInt8} (hNonempty : path.dropWhile (· == slash) ≠ []) :
    (path.dropWhile (· == slash)).getD 0 0 ≠ slash := by
  have hHead := List.head_dropWhile_not (p := (· == slash)) (l := path) hNonempty
  cases hp : path.dropWhile (· == slash) with
  | nil => exact absurd hp hNonempty
  | cons c p => simpa [hp] using hHead

theorem vfsResolveParent_tree (s : Volume) (path : CString) :
    s.tree.vfsResolveParent path = (vfsResolveParent s path).map fun x => (.kfs x.1, x.2) := by
  rw [Tree.vfsResolveParent, vfsResolveParent]
  have hHead := @getD_dropWhile_ne path.bytes
  generalize path.bytes.dropWhile (· == slash) = p at hHead
  by_cases hEmpty : p = []
  · rw [if_pos hEmpty, if_pos hEmpty]
    rfl
  have hZero := trimEnd_ne_zero (hHead hEmpty) (fun h => hEmpty (List.length_eq_zero_iff.mp h))
  have hStop := trimEnd_le p p.length
  have hText := take_trimEnd_eq (Nat.le_refl p.length)
  rw [List.take_length] at hText
  rw [if_neg hEmpty, if_neg hEmpty, if_neg hZero, ← hText]
  generalize trimEnd p p.length = stop at hStop
  have hLength : (p.take stop).length = stop := by rw [List.length_take, Nat.min_eq_left hStop]
  cases hLast : lastSlash p stop with
  | none =>
    have hFront : (p.take stop).rdropWhile (· != slash) = [] :=
      List.rdropWhile_eq_nil_iff.mpr fun c hc => by
        simpa using fun hEq : c = slash => lastSlash_none hStop hLast (hEq ▸ hc)
    rw [if_pos hFront, hLength]
    by_cases hLong : stop ≥ 256
    · rw [if_pos hLong, if_pos hLong]
      rfl
    · rw [if_neg hLong, if_neg hLong]
      rfl
  | some last =>
    obtain ⟨hLt, hTake, hNot⟩ := lastSlash_some hStop hLast
    have hName : ((p.drop (last + 1)).take (stop - (last + 1))).length = stop - (last + 1) := by
      rw [List.length_take, List.length_drop]
      omega
    dsimp only
    rw [hTake]
    generalize (p.drop (last + 1)).take (stop - (last + 1)) = name at hNot hName
    obtain ⟨hFront, hRest⟩ := @rdropWhile_slash (p.take last) name hNot
    have hDir : (p.take last ++ [slash]).rdropWhile (· == slash) = p.take (trimEnd p last) := by
      rw [List.rdropWhile_concat_pos _ _ _ (by simp), take_trimEnd_eq (by omega)]
    have hDirLength : (p.take (trimEnd p last)).length = trimEnd p last := by
      have hLe := trimEnd_le p last
      rw [List.length_take]
      omega
    have hNil : p.take (trimEnd p last) = [] ↔ trimEnd p last = 0 := by
      rw [← List.length_eq_zero_iff, hDirLength]
    have hSome : ¬p.take last ++ [slash] = [] := by simp
    rw [hFront, hRest, hDir, hName, hDirLength, if_neg hSome]
    by_cases hBad : stop - (last + 1) = 0 ∨ stop - (last + 1) ≥ 256
    · rw [if_pos hBad, if_pos hBad]
      rfl
    rw [if_neg hBad, if_neg hBad]
    by_cases hRoot : trimEnd p last = 0
    · rw [if_pos hRoot, if_pos (hNil.mpr hRoot)]
      rfl
    rw [if_neg hRoot, if_neg fun h => hRoot (hNil.mp h)]
    by_cases hLong : trimEnd p last ≥ 256
    · rw [if_pos hLong, if_pos hLong]
      rfl
    rw [if_neg hLong, if_neg hLong, vfsResolvePath_tree]
    cases s.tree.vfsResolvePath (.ofBytes (p.take (trimEnd p last))) with
    | error err => rfl
    | ok node =>
      cases node with
      | kfs parent =>
        have hType : s.tree.type (.kfs parent) = parent.type := rfl
        dsimp only
        rw [hType]
        by_cases hDirType : parent.type ≠ vnodeTypeDir
        · rw [if_pos hDirType, if_pos hDirType]
          rfl
        · rw [if_neg hDirType, if_neg hDirType]
          rfl
      | tty number => rfl
      | blk => rfl

end OnVolumes

end Kryos.Fs
