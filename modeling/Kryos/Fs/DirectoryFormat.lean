import Kryos.Fs.KfsDirectory

/-! The bytes of a directory as a sequence of records, and the scans over them. -/
namespace Kryos.Fs

open LittleEndian Word

/-- The bytes of one record: as long as its length field says, a multiple of four,
with the name and its NUL inside. -/
structure Record where
  bytes : List UInt8
  length_eq : bytes.length = (KfsDirent.ofBytes bytes).reclen
  aligned : (KfsDirent.ofBytes bytes).reclen % 4 = 0
  terminated : (KfsDirent.ofBytes bytes).name.length + 8 ≤ (KfsDirent.ofBytes bytes).reclen

namespace Record

def ent (r : Record) : KfsDirent := KfsDirent.ofBytes r.bytes

/-- The record is not one of the two dots. -/
def isEntry (r : Record) : Bool := r.ent.name != dot && r.ent.name != dotDot

theorem length_bytes (r : Record) : r.bytes.length = r.ent.reclen := r.length_eq

theorem eight_le_reclen (r : Record) : 8 ≤ r.ent.reclen := by
  have h := r.terminated
  change r.ent.name.length + 8 ≤ r.ent.reclen at h
  omega

theorem ext_bytes {r r' : Record} (h : r.bytes = r'.bytes) : r = r' := by
  cases r
  cases r'
  simp only [Record.mk.injEq]
  exact h

end Record

theorem takeWhile_append_of_lt {α : Type*} {p : α → Bool} {l : List α}
    (h : (l.takeWhile p).length < l.length) (rest : List α) :
    (l ++ rest).takeWhile p = l.takeWhile p := by
  induction l with
  | nil => simp at h
  | cons a l ih =>
    rw [List.cons_append, List.takeWhile_cons, List.takeWhile_cons]
    cases hp : p a with
    | false => rfl
    | true =>
      simp only [List.takeWhile_cons, hp, if_true, List.length_cons] at h
      rw [ih (by omega)]

theorem readLe_append (l rest : List UInt8) {offset n : Nat} (h : offset + n ≤ l.length) :
    readLe (fun i => (l ++ rest).getD i 0) offset n = readLe (fun i => l.getD i 0) offset n := by
  apply readLe_congr
  intro i hi
  rw [List.getD_eq_getElem?_getD, List.getD_eq_getElem?_getD,
    List.getElem?_append_left (by omega)]

/-- A record is read the same whatever follows it. -/
theorem Record.ofBytes_append (r : Record) (rest : List UInt8) :
    KfsDirent.ofBytes (r.bytes ++ rest) = r.ent := by
  have hLength : 8 ≤ r.bytes.length := r.length_bytes ▸ r.eight_le_reclen
  have hName : ((r.bytes ++ rest).drop 7).takeWhile (· != 0) =
      (r.bytes.drop 7).takeWhile (· != 0) := by
    rw [List.drop_append_of_le_length (by omega)]
    apply takeWhile_append_of_lt
    have hTerminated := r.terminated
    rw [← r.length_eq] at hTerminated
    change ((r.bytes.drop 7).takeWhile (· != 0)).length + 8 ≤ r.bytes.length at hTerminated
    rw [List.length_drop]
    omega
  simp only [KfsDirent.ofBytes, ent, hName, KfsDirent.mk.injEq, and_true]
  exact ⟨readLe_append _ _ (by omega), readLe_append _ _ (by omega), readLe_append _ _ (by omega)⟩

/-- The bytes of a directory. -/
def encodeDir (records : List Record) : List UInt8 := records.flatMap Record.bytes

@[simp] theorem encodeDir_nil : encodeDir [] = [] := rfl

@[simp] theorem encodeDir_cons (r : Record) (records : List Record) :
    encodeDir (r :: records) = r.bytes ++ encodeDir records := rfl

theorem encodeDir_append (first second : List Record) :
    encodeDir (first ++ second) = encodeDir first ++ encodeDir second := List.flatMap_append

theorem encodeDir_eq_nil {records : List Record} (h : encodeDir records = []) : records = [] := by
  cases records with
  | nil => rfl
  | cons r records =>
    have hLength := congrArg List.length h
    rw [encodeDir_cons, List.length_append, r.length_bytes] at hLength
    have hMin := r.eight_le_reclen
    simp at hLength
    omega

/-- The bytes determine the records: a directory that starts with the bytes of some
records starts with these records. -/
theorem encodeDir_split {records first : List Record} {rest : List UInt8}
    (h : encodeDir records = encodeDir first ++ rest) :
    ∃ second, records = first ++ second ∧ encodeDir second = rest := by
  induction first generalizing records with
  | nil => exact ⟨records, rfl, h⟩
  | cons r first ih =>
    cases records with
    | nil =>
      have hLength := congrArg List.length h
      have hMin := r.eight_le_reclen
      simp only [encodeDir_nil, encodeDir_cons, List.length_nil, List.length_append,
        r.length_bytes] at hLength
      omega
    | cons r' records =>
      rw [encodeDir_cons, encodeDir_cons, List.append_assoc] at h
      have hEnt : r'.ent = r.ent := by
        rw [← r'.ofBytes_append (encodeDir records), h, r.ofBytes_append]
      have hLength : r'.bytes.length = r.bytes.length := by
        rw [r'.length_bytes, r.length_bytes, hEnt]
      obtain ⟨hBytes, hRest⟩ := List.append_inj h hLength
      obtain ⟨second, hRecords, hSecond⟩ := ih hRest
      exact ⟨second, by rw [hRecords, Record.ext_bytes hBytes, List.cons_append], hSecond⟩

theorem encodeDir_injective {records records' : List Record}
    (h : encodeDir records = encodeDir records') : records = records' := by
  have hSplit := @encodeDir_split records records' [] (by rw [h, List.append_nil])
  obtain ⟨second, hRecords, hSecond⟩ := hSplit
  rw [hRecords, encodeDir_eq_nil hSecond, List.append_nil]

/-- No directory ends in fewer than eight bytes after its records. -/
theorem encodeDir_ne_append {records first : List Record} {rest : List UInt8}
    (hSome : rest ≠ []) (hShort : rest.length < 8) :
    encodeDir records ≠ encodeDir first ++ rest := by
  intro h
  obtain ⟨second, _, hSecond⟩ := encodeDir_split h
  cases second with
  | nil => exact hSome hSecond.symm
  | cons r second =>
    have hLength := congrArg List.length hSecond
    have hMin := r.eight_le_reclen
    rw [encodeDir_cons, List.length_append, r.length_bytes] at hLength
    omega

section Scan

variable {first rest : List Record} {data : List UInt8}

/-- The scans read the record that starts where the ones before it end. -/
theorem ofBytes_drop (r : Record) (hData : data = encodeDir (first ++ r :: rest)) :
    KfsDirent.ofBytes (data.drop (encodeDir first).length) = r.ent := by
  rw [hData, encodeDir_append, List.drop_left' rfl, encodeDir_cons, r.ofBytes_append]

/-- At a record, a scan is within the data, passes the sanity check, and moves on to
the end of the record. -/
theorem scan_step (r : Record) (hData : data = encodeDir (first ++ r :: rest))
    (hSize : data.length < 2 ^ 32) :
    (encodeDir first).length < data.length ∧ ¬(r.ent.reclen = 0 ∨ r.ent.reclen % 4 ≠ 0) ∧
      u32 ((encodeDir first).length + r.ent.reclen) = (encodeDir (first ++ [r])).length := by
  have hMin := r.eight_le_reclen
  have hAligned : r.ent.reclen % 4 = 0 := r.aligned
  have hLength : (encodeDir first).length + r.ent.reclen ≤ data.length := by
    rw [hData, encodeDir_append, encodeDir_cons, List.length_append, List.length_append,
      r.length_bytes]
    omega
  refine ⟨by omega, by omega, ?_⟩
  rw [u32_of_lt (by omega), encodeDir_append, encodeDir_cons, encodeDir_nil, List.append_nil,
    List.length_append, r.length_bytes]

theorem findDirent_step (name : List UInt8) (fuel : Nat) (r : Record)
    (hData : data = encodeDir (first ++ r :: rest)) (hSize : data.length < 2 ^ 32) :
    findDirent data data.length name (fuel + 1) (encodeDir first).length =
      if r.ent.name = name then some (encodeDir first).length
      else findDirent data data.length name fuel (encodeDir (first ++ [r])).length := by
  obtain ⟨hLt, hSane, hNext⟩ := scan_step r hData hSize
  simp only [findDirent, hLt, if_true, ofBytes_drop r hData, hSane, if_false, hNext]

theorem findDirent_end (name : List UInt8) (fuel : Nat) (hData : data = encodeDir first) :
    findDirent data data.length name fuel (encodeDir first).length = none := by
  cases fuel with
  | zero => rfl
  | succ fuel => simp [findDirent, hData]

theorem findDirent_absent {name : List UInt8} {fuel : Nat}
    (hData : data = encodeDir (first ++ rest)) (hSize : data.length < 2 ^ 32)
    (hAbsent : ∀ r ∈ rest, r.ent.name ≠ name) :
    findDirent data data.length name fuel (encodeDir first).length = none := by
  induction rest generalizing first fuel with
  | nil => exact findDirent_end name fuel (by rw [hData, List.append_nil])
  | cons r rest ih =>
    cases fuel with
    | zero => rfl
    | succ fuel =>
      rw [findDirent_step name fuel r hData hSize, if_neg (hAbsent r List.mem_cons_self)]
      exact ih (by rw [hData, List.append_assoc]; rfl)
        (fun r' hr' => hAbsent r' (List.mem_cons_of_mem _ hr'))

theorem findDirent_present {name : List UInt8} {fuel : Nat} {before after : List Record}
    {r : Record} (hData : data = encodeDir (first ++ (before ++ r :: after)))
    (hSize : data.length < 2 ^ 32) (hFuel : before.length < fuel)
    (hBefore : ∀ r' ∈ before, r'.ent.name ≠ name) (hName : r.ent.name = name) :
    findDirent data data.length name fuel (encodeDir first).length =
      some (encodeDir (first ++ before)).length := by
  induction before generalizing first fuel with
  | nil =>
    cases fuel with
    | zero => omega
    | succ fuel =>
      rw [findDirent_step name fuel r hData hSize, if_pos hName, List.append_nil]
  | cons r' before ih =>
    cases fuel with
    | zero => simp at hFuel
    | succ fuel =>
      have hRest := @ih (first ++ [r']) fuel (by rw [hData, List.append_assoc]; rfl)
        (by simpa using hFuel) (fun q hq => hBefore q (List.mem_cons_of_mem _ hq))
      rw [findDirent_step name fuel r' hData hSize, if_neg (hBefore r' List.mem_cons_self),
        hRest, List.append_assoc, List.singleton_append]

theorem hasEntry_step (fuel : Nat) (r : Record) (hData : data = encodeDir (first ++ r :: rest))
    (hSize : data.length < 2 ^ 32) :
    hasEntry data data.length (fuel + 1) (encodeDir first).length =
      (r.isEntry || hasEntry data data.length fuel (encodeDir (first ++ [r])).length) := by
  obtain ⟨hLt, hSane, hNext⟩ := scan_step r hData hSize
  simp only [hasEntry, hLt, if_true, ofBytes_drop r hData, hSane, if_false, hNext, Record.isEntry]
  by_cases hDot : r.ent.name = dot
  · simp [hDot]
  · by_cases hDotDot : r.ent.name = dotDot
    · simp [hDotDot]
    · simp [hDot, hDotDot]

/-- The scan of rmdir finds a record other than the dots exactly when there is one. -/
theorem hasEntry_eq {fuel : Nat} (hData : data = encodeDir (first ++ rest))
    (hSize : data.length < 2 ^ 32) (hFuel : rest.length ≤ fuel) :
    hasEntry data data.length fuel (encodeDir first).length = rest.any Record.isEntry := by
  induction rest generalizing first fuel with
  | nil =>
    have hEnd : ¬(encodeDir first).length < data.length := by
      rw [hData, List.append_nil]
      omega
    cases fuel with
    | zero => rfl
    | succ fuel => simp [hasEntry, hEnd]
  | cons r rest ih =>
    cases fuel with
    | zero => simp at hFuel
    | succ fuel =>
      rw [hasEntry_step fuel r hData hSize, List.any_cons]
      rw [ih (by rw [hData, List.append_assoc]; rfl) (by simpa using hFuel)]

theorem length_le_encodeDir (records : List Record) :
    8 * records.length ≤ (encodeDir records).length := by
  induction records with
  | nil => simp
  | cons r records ih =>
    have hMin := r.eight_le_reclen
    rw [encodeDir_cons, List.length_append, r.length_bytes, List.length_cons]
    omega

end Scan

section Make

theorem length_bytesOf (value n : Nat) : (bytesOf value n).length = n := by simp [bytesOf]

theorem getD_bytesOf {value n i : Nat} (h : i < n) :
    (bytesOf value n).getD i 0 = byteOf value i := by
  simp [bytesOf, h]

theorem readLe_field {front rest : List UInt8} {value n offset : Nat}
    (hFront : front.length = offset) :
    readLe (fun i => (front ++ (bytesOf value n ++ rest)).getD i 0) offset n =
      value % 256 ^ n := by
  apply readLe_of_bytes
  intro i hi
  rw [← hFront, List.getD_append_right _ _ _ _ (by omega), Nat.add_sub_cancel_left,
    List.getD_append _ _ _ _ (by rw [length_bytesOf]; exact hi), getD_bytesOf hi]

theorem takeWhile_name {name : List UInt8} (hName : (0 : UInt8) ∉ name) {count : Nat}
    (hCount : 0 < count) : (name ++ List.replicate count 0).takeWhile (· != 0) = name := by
  have hAll : ∀ b ∈ name, (b != 0) = true := by
    intro b hb
    rw [bne_iff_ne]
    rintro rfl
    exact hName hb
  obtain ⟨count, rfl⟩ : ∃ n, count = n + 1 := ⟨count - 1, by omega⟩
  rw [List.takeWhile_append_of_pos hAll, List.replicate_succ, List.takeWhile_cons]
  simp

variable {inode reclen type : Nat} {name : List UInt8}

/-- What `kfs_vnode_create` writes is read back. -/
theorem ofBytes_direntRecord (hInode : inode < 2 ^ 32) (hReclen : reclen < 2 ^ 16)
    (hType : type < 256) (hName : (0 : UInt8) ∉ name) (hFit : name.length + 8 ≤ reclen) :
    KfsDirent.ofBytes (direntRecord inode reclen type name) = ⟨inode, reclen, type, name⟩ := by
  have hFirst : direntRecord inode reclen type name = [] ++ (bytesOf inode 4 ++
      (bytesOf reclen 2 ++ (bytesOf type 1 ++
        (name ++ List.replicate (reclen - 7 - name.length) 0)))) := by
    simp [direntRecord]
  have hSecond : direntRecord inode reclen type name = bytesOf inode 4 ++ (bytesOf reclen 2 ++
      (bytesOf type 1 ++ (name ++ List.replicate (reclen - 7 - name.length) 0))) := by
    simp [direntRecord]
  have hThird : direntRecord inode reclen type name = (bytesOf inode 4 ++ bytesOf reclen 2) ++
      (bytesOf type 1 ++ (name ++ List.replicate (reclen - 7 - name.length) 0)) := by
    simp [direntRecord]
  have hLast : direntRecord inode reclen type name =
      (bytesOf inode 4 ++ bytesOf reclen 2 ++ bytesOf type 1) ++
        (name ++ List.replicate (reclen - 7 - name.length) 0) := by
    simp [direntRecord]
  rw [KfsDirent.ofBytes, KfsDirent.mk.injEq]
  refine ⟨?_, ?_, ?_, ?_⟩
  · rw [hFirst, readLe_field List.length_nil]
    exact Nat.mod_eq_of_lt hInode
  · rw [hSecond, readLe_field (length_bytesOf _ _)]
    exact Nat.mod_eq_of_lt hReclen
  · rw [hThird, readLe_field (by simp [length_bytesOf])]
    exact Nat.mod_eq_of_lt hType
  · rw [hLast, List.drop_left' (by simp [length_bytesOf]), takeWhile_name hName (by omega)]

theorem length_direntRecord (hFit : name.length + 8 ≤ reclen) :
    (direntRecord inode reclen type name).length = reclen := by
  simp only [direntRecord, List.length_append, length_bytesOf, List.length_replicate]
  omega

/-- A record as `kfs_vnode_create` writes it. -/
def Record.make (inode reclen type : Nat) (name : List UInt8) (hInode : inode < 2 ^ 32)
    (hReclen : reclen < 2 ^ 16) (hAligned : reclen % 4 = 0) (hType : type < 256)
    (hName : (0 : UInt8) ∉ name) (hFit : name.length + 8 ≤ reclen) : Record where
  bytes := direntRecord inode reclen type name
  length_eq := by
    rw [ofBytes_direntRecord hInode hReclen hType hName hFit, length_direntRecord hFit]
  aligned := by
    rw [ofBytes_direntRecord hInode hReclen hType hName hFit]
    exact hAligned
  terminated := by
    rw [ofBytes_direntRecord hInode hReclen hType hName hFit]
    exact hFit

theorem Record.make_ent (hInode : inode < 2 ^ 32) (hReclen : reclen < 2 ^ 16)
    (hAligned : reclen % 4 = 0) (hType : type < 256) (hName : (0 : UInt8) ∉ name)
    (hFit : name.length + 8 ≤ reclen) :
    (Record.make inode reclen type name hInode hReclen hAligned hType hName hFit).ent =
      ⟨inode, reclen, type, name⟩ :=
  ofBytes_direntRecord hInode hReclen hType hName hFit

theorem reclenOf_eq {nameLen : Nat} (h : nameLen ≤ 255) :
    reclenOf nameLen = (nameLen + 11) / 4 * 4 := by
  have hRound := @alignUp_eq (4 + 2 + 1 + nameLen + 1) 2 (by decide)
  rw [u64_of_lt (by omega)] at hRound
  change alignUp (4 + 2 + 1 + nameLen + 1) (2 ^ 2) = _
  omega

end Make

end Kryos.Fs
