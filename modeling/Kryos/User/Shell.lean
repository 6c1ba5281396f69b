import Kryos.Base.Runs

/-! `parse_line` of the shell on the memory that holds the line. -/
namespace Kryos.User

open Function Runs

def maxArgs : Nat := 16

/-- A space, a tab or a newline. -/
def isBlank (c : UInt8) : Bool := c == 32 || c == 9 || c == 10

/-- The loop that skips whitespace and overwrites it with NULs. Out of fuel, none of the
loops returns. -/
def skipBlanks : Nat → (Nat → UInt8) → Nat → Option ((Nat → UInt8) × Nat)
  | 0, _, _ => none
  | fuel + 1, mem, p =>
    if isBlank (mem p) then skipBlanks fuel (update mem p 0) (p + 1) else some (mem, p)

/-- The loop that skips to the next whitespace. -/
def skipWord : Nat → (Nat → UInt8) → Nat → Option Nat
  | 0, _, _ => none
  | fuel + 1, mem, p =>
    if mem p ≠ 0 ∧ isBlank (mem p) = false then skipWord fuel mem (p + 1) else some p

/-- Memory, `argv` with `none` for NULL, and `argc`. -/
abbrev Parse := (Nat → UInt8) × (Nat → Option Nat) × Nat

def parseLoop (bound : Nat) : Nat → (Nat → UInt8) → Nat → (Nat → Option Nat) → Nat → Option Parse
  | 0, _, _, _, _ => none
  | fuel + 1, mem, p, argv, argc =>
    if mem p ≠ 0 ∧ argc < maxArgs - 1 then
      match skipBlanks bound mem p with
      | none => none
      | some (mem, p) =>
        if mem p = 0 then some (mem, argv, argc)
        else
          match skipWord bound mem p with
          | none => none
          | some next => parseLoop bound fuel mem next (update argv argc (some p)) (argc + 1)
    else some (mem, argv, argc)

def parseLine (fuel : Nat) (mem : Nat → UInt8) (line : Nat) (argv : Nat → Option Nat) :
    Option ((Nat → UInt8) × (Nat → Option Nat)) :=
  (parseLoop fuel fuel mem line argv 0).map fun (mem, argv, argc) => (mem, update argv argc none)

/-- These bytes are at the address. -/
def BytesAt (mem : Nat → UInt8) (p : Nat) (bytes : List UInt8) : Prop :=
  ∀ i (h : i < bytes.length), mem (p + i) = bytes[i]

/-- The string at the address is this one. -/
def StringAt (mem : Nat → UInt8) (p : Nat) (bytes : List UInt8) : Prop :=
  BytesAt mem p bytes ∧ mem (p + bytes.length) = 0

/-- `argv` has the first words of the line as strings and then NULL, and nothing was
written outside the line and the array. -/
structure Tokenised (mem : Nat → UInt8) (p : Nat) (argv : Nat → Option Nat) (line : List UInt8)
    (mem' : Nat → UInt8) (argv' : Nat → Option Nat) : Prop where
  words : ∀ i word, (runs isBlank line)[i]? = some word → i < maxArgs - 1 →
    ∃ q, argv' i = some q ∧ StringAt mem' q word
  null : argv' (min (runs isBlank line).length (maxArgs - 1)) = none
  line : ∀ a, a < p ∨ p + line.length ≤ a → mem' a = mem a
  slots : ∀ i, maxArgs ≤ i → argv' i = argv i

section Scan

variable {mem : Nat → UInt8} {p fuel : Nat} {c : UInt8} {rest : List UInt8}

theorem BytesAt.tail (h : BytesAt mem p (c :: rest)) : BytesAt mem (p + 1) rest := by
  intro i hi
  have hNext := h (i + 1) (Nat.succ_lt_succ hi)
  rwa [List.getElem_cons_succ, ← Nat.add_assoc, Nat.add_right_comm] at hNext

theorem StringAt.head (h : StringAt mem p (c :: rest)) : mem p = c := h.1 0 (Nat.succ_pos _)

theorem StringAt.tail (h : StringAt mem p (c :: rest)) : StringAt mem (p + 1) rest := by
  refine ⟨h.1.tail, ?_⟩
  rw [Nat.add_assoc, Nat.add_comm 1]
  exact h.2

theorem StringAt.nul_iff (h : StringAt mem p rest) (hNul : 0 ∉ rest) : mem p = 0 ↔ rest = [] := by
  cases rest with
  | nil => exact iff_of_true h.2 rfl
  | cons c rest =>
    rw [h.head]
    exact iff_of_false (fun hEq => hNul (hEq ▸ List.mem_cons_self)) (List.cons_ne_nil _ _)

theorem StringAt.congr {mem' : Nat → UInt8} (h : StringAt mem p rest)
    (hSame : ∀ a, p ≤ a → mem' a = mem a) : StringAt mem' p rest :=
  ⟨fun i hi => (hSame _ (Nat.le_add_right p i)).trans (h.1 i hi),
    (hSame _ (Nat.le_add_right p _)).trans h.2⟩

/-- The whitespace at the front is overwritten, and the rest of the string stays. -/
theorem skipBlanks_spec (h : StringAt mem p rest) (hFuel : rest.length < fuel) :
    ∃ mem' blanks rest', skipBlanks fuel mem p = some (mem', p + blanks.length) ∧
      rest = blanks ++ rest' ∧ (∀ c ∈ blanks, isBlank c = true) ∧
      (∀ c ∈ rest'.head?, isBlank c = false) ∧ StringAt mem' (p + blanks.length) rest' ∧
      (∀ a, a < p ∨ p + blanks.length ≤ a → mem' a = mem a) ∧
      ∀ i < blanks.length, mem' (p + i) = 0 := by
  induction fuel generalizing mem p rest with
  | zero => omega
  | succ fuel ih =>
    rw [skipBlanks]
    cases rest with
    | nil =>
      have hEnd : mem p = 0 := h.2
      rw [hEnd, if_neg (by decide)]
      exact ⟨mem, [], [], rfl, rfl, by simp, by simp, h, fun _ _ => rfl, by simp⟩
    | cons c rest =>
      rw [h.head]
      by_cases hc : isBlank c = true
      · have hNext : StringAt (update mem p 0) (p + 1) rest :=
          h.tail.congr fun a ha => update_of_ne (by omega) _ _
        obtain ⟨mem', blanks, rest', hRun, rfl, hBlanks, hHead, hString, hSame, hZero⟩ :=
          ih hNext (Nat.lt_of_succ_lt_succ hFuel)
        rw [if_pos hc, hRun]
        refine ⟨mem', c :: blanks, rest', ?_, rfl, ?_, hHead, ?_, ?_, ?_⟩
        · rw [List.length_cons, Nat.add_right_comm, Nat.add_assoc]
        · exact List.forall_mem_cons.mpr ⟨hc, hBlanks⟩
        · rw [List.length_cons, Nat.add_comm blanks.length, ← Nat.add_assoc]
          exact hString
        · intro a ha
          rw [List.length_cons] at ha
          rw [hSame a (by omega), update_of_ne (by omega)]
        · intro i hi
          cases i with
          | zero => rw [Nat.add_zero, hSame p (by omega), update_self]
          | succ i =>
            rw [Nat.add_comm i, ← Nat.add_assoc]
            exact hZero i (Nat.lt_of_succ_lt_succ hi)
      · rw [if_neg hc]
        exact ⟨mem, [], c :: rest, rfl, rfl, by simp, by simpa using hc, h, fun _ _ => rfl, by simp⟩

theorem skipWord_spec (h : StringAt mem p rest) (hNul : 0 ∉ rest) (hFuel : rest.length < fuel) :
    ∃ word rest', skipWord fuel mem p = some (p + word.length) ∧ rest = word ++ rest' ∧
      (∀ c ∈ word, isBlank c = false) ∧ (∀ c ∈ rest'.head?, isBlank c = true) ∧
      StringAt mem (p + word.length) rest' := by
  induction fuel generalizing p rest with
  | zero => omega
  | succ fuel ih =>
    rw [skipWord]
    cases rest with
    | nil =>
      have hEnd : mem p = 0 := h.2
      rw [hEnd, if_neg (by decide)]
      exact ⟨[], [], rfl, rfl, by simp, by simp, h⟩
    | cons c rest =>
      rw [h.head]
      rw [List.mem_cons, not_or] at hNul
      by_cases hc : isBlank c = false
      · obtain ⟨word, rest', hRun, rfl, hWord, hHead, hString⟩ :=
          ih h.tail hNul.2 (Nat.lt_of_succ_lt_succ hFuel)
        rw [if_pos ⟨Ne.symm hNul.1, hc⟩, hRun]
        refine ⟨c :: word, rest', ?_, rfl, List.forall_mem_cons.mpr ⟨hc, hWord⟩, hHead, ?_⟩
        · rw [List.length_cons, Nat.add_right_comm, Nat.add_assoc]
        · rw [List.length_cons, Nat.add_comm word.length, ← Nat.add_assoc]
          exact hString
      · rw [if_neg fun hBoth => hc hBoth.2]
        exact ⟨[], c :: rest, rfl, rfl, by simp, by simpa using hc, h⟩

end Scan

section Loop

variable {mem mem' : Nat → UInt8} {p bound argc argc' : Nat} {argv argv' : Nat → Option Nat}
  {rest line : List UInt8}

/-- The last character is not whitespace. -/
def EndsInWord (line : List UInt8) : Prop := ∀ c ∈ line.getLast?, isBlank c = false

/-- How the loop ends that has `argc` words and the rest of the line before it. -/
structure Split (mem : Nat → UInt8) (p : Nat) (argv : Nat → Option Nat) (argc : Nat)
    (rest : List UInt8) (mem' : Nat → UInt8) (argv' : Nat → Option Nat) (argc' : Nat) : Prop where
  count : argc' = min (argc + (runs isBlank rest).length) 15
  slots : ∀ i, i < argc ∨ 15 ≤ i → argv' i = argv i
  line : ∀ a, a < p ∨ p + rest.length ≤ a → mem' a = mem a
  /-- A word in front of the rest gets its NUL, unless it is the last that is looked for. -/
  ended : argc < 15 → (∀ c ∈ rest.head?, isBlank c = true) → mem' p = 0
  stopped : argc = 15 → mem' = mem
  words : ∀ i word, (runs isBlank rest)[i]? = some word → argc + i < 15 →
    ∃ q, argv' (argc + i) = some q ∧ BytesAt mem' q word ∧ (mem' (q + word.length) = 0 ↔
      argc + i < 14 ∨ EndsInWord rest ∧ i + 1 = (runs isBlank rest).length)

theorem Split.done (hDone : runs isBlank rest = [] ∨ argc = 15) (hArgc : argc ≤ 15)
    (hLine : ∀ a, a < p ∨ p + rest.length ≤ a → mem' a = mem a)
    (hEnded : argc < 15 → mem' p = 0) (hStopped : argc = 15 → mem' = mem) :
    Split mem p argv argc rest mem' argv argc where
  count := by
    rcases hDone with hNone | hFull
    · rw [hNone, List.length_nil]
      omega
    · omega
  slots _ _ := rfl
  line := hLine
  ended h _ := hEnded h
  stopped := hStopped
  words i word h hi := by
    rcases hDone with hNone | hFull
    · rw [hNone] at h
      cases h
    · omega

/-- The line ends with a word exactly if nothing follows the word. -/
theorem endsInWord_iff {blanks word after : List UInt8} (hSome : word ≠ [])
    (hWord : ∀ c ∈ word, isBlank c = false) :
    EndsInWord (blanks ++ (word ++ after)) ∧ runs isBlank after = [] ↔ after = [] := by
  have hLast : (blanks ++ (word ++ after)).getLast? = (word ++ after).getLast? :=
    List.getLast?_append_of_ne_nil _ (by simp [hSome])
  rw [EndsInWord, hLast]
  constructor
  · rintro ⟨hEnds, hNone⟩
    by_contra hAfter
    rw [List.getLast?_append_of_ne_nil _ hAfter] at hEnds
    exact runs_ne_nil (List.getLast_mem hAfter)
      (hEnds _ (List.getLast?_eq_getLast_of_ne_nil hAfter)) hNone
  · rintro rfl
    refine ⟨fun c hc => hWord c ?_, rfl⟩
    rw [List.append_nil] at hc
    exact List.mem_of_getLast? hc

/-- The rest is whitespace, a word, and what the remaining rounds go through. -/
theorem Split.word {mem₁ : Nat → UInt8} {blanks word after : List UInt8}
    (hBlanks : ∀ c ∈ blanks, isBlank c = true)
    (hSame : ∀ a, a < p ∨ p + blanks.length ≤ a → mem₁ a = mem a)
    (hZero : ∀ i < blanks.length, mem₁ (p + i) = 0) (hSome : word ≠ [])
    (hWord : ∀ c ∈ word, isBlank c = false) (hAfter : ∀ c ∈ after.head?, isBlank c = true)
    (hString : StringAt mem₁ (p + blanks.length) (word ++ after))
    (hNext : StringAt mem₁ (p + blanks.length + word.length) after) (hNul : 0 ∉ after)
    (hArgc : argc < 15)
    (h : Split mem₁ (p + blanks.length + word.length) (update argv argc (some (p + blanks.length)))
      (argc + 1) after mem' argv' argc') :
    Split mem p argv argc (blanks ++ (word ++ after)) mem' argv' argc' := by
  have hRuns : runs isBlank (blanks ++ (word ++ after)) = word :: runs isBlank after := by
    rw [runs_append_seps hBlanks, runs_append_word hSome hWord hAfter]
  refine ⟨?_, fun i hi => ?_, fun a ha => ?_, fun _ hHead => ?_, fun hFull => by omega, ?_⟩
  · rw [h.count, hRuns, List.length_cons]
    omega
  · rw [h.slots i (by omega), update_of_ne (by omega)]
  · simp only [List.length_append] at ha
    rw [h.line a (by omega), hSame a (by omega)]
  · cases blanks with
    | nil =>
      obtain ⟨c, rest, rfl⟩ := List.exists_cons_of_ne_nil hSome
      have hBlank := hHead c rfl
      rw [hWord c List.mem_cons_self] at hBlank
      cases hBlank
    | cons c blanks =>
      rw [h.line p (by rw [List.length_cons]; omega)]
      exact hZero 0 (Nat.succ_pos _)
  · rw [hRuns]
    rintro (_ | i) word' hi hLt
    · obtain rfl := Option.some.inj hi
      refine ⟨p + blanks.length, ?_, fun k hk => ?_, ?_⟩
      · rw [Nat.add_zero, h.slots argc (by omega), update_self]
      · rw [h.line _ (by omega), hString.1 k (by rw [List.length_append]; omega),
          List.getElem_append_left hk]
      · by_cases hMore : argc < 14
        · exact iff_of_true (h.ended (by omega) hAfter) (.inl hMore)
        rw [h.stopped (by omega), hNext.nul_iff hNul, ← endsInWord_iff hSome hWord,
          List.length_cons]
        exact ⟨fun hNil => .inr ⟨hNil.1, by rw [hNil.2]; rfl⟩, fun hOr => hOr.elim
          (fun hLt => absurd hLt hMore)
          (fun hBoth => ⟨hBoth.1, List.eq_nil_of_length_eq_zero (by omega)⟩)⟩
    · obtain ⟨q, hArgv, hBytes, hEnd⟩ := h.words i word' hi (by omega)
      refine ⟨q, by rw [← hArgv]; congr 1; omega, hBytes, hEnd.trans ?_⟩
      have hAfterSome : after ≠ [] := by
        rintro rfl
        cases hi
      have hLast : EndsInWord (blanks ++ (word ++ after)) ↔ EndsInWord after := by
        unfold EndsInWord
        rw [List.getLast?_append_of_ne_nil _ (by simp [hAfterSome]),
          List.getLast?_append_of_ne_nil _ hAfterSome]
      rw [hLast, List.length_cons, Nat.add_right_cancel_iff, Nat.add_right_comm, Nat.add_assoc]

theorem parseLoop_split {fuel : Nat} (h : StringAt mem p rest) (hNul : 0 ∉ rest)
    (argv : Nat → Option Nat) (hArgc : argc ≤ 15) (hBound : rest.length < bound)
    (hFuel : rest.length < fuel) :
    ∃ mem' argv' argc', parseLoop bound fuel mem p argv argc = some (mem', argv', argc') ∧
      Split mem p argv argc rest mem' argv' argc' := by
  induction fuel generalizing mem p argv argc rest with
  | zero => omega
  | succ fuel ih =>
    rw [parseLoop]
    by_cases hGo : mem p ≠ 0 ∧ argc < maxArgs - 1
    · rw [if_pos hGo]
      obtain ⟨mem₁, blanks, rest₁, hSkip, rfl, hBlanks, hHead, hString, hSame, hZero⟩ :=
        skipBlanks_spec h hBound
      simp only [hSkip]
      have hNul₁ : 0 ∉ rest₁ := fun hMem => hNul (List.mem_append_right _ hMem)
      by_cases hEnd : mem₁ (p + blanks.length) = 0
      · obtain rfl := (hString.nul_iff hNul₁).mp hEnd
        rw [if_pos hEnd]
        refine ⟨mem₁, argv, argc, rfl, .done (.inl (runs_append_seps hBlanks)) hArgc
          (fun a ha => hSame a (by simpa using ha)) (fun _ => ?_) (fun hFull => ?_)⟩
        · cases blanks with
          | nil => exact hEnd
          | cons c blanks => exact hZero 0 (Nat.succ_pos _)
        · exact absurd hFull (Nat.ne_of_lt hGo.2)
      · rw [if_neg hEnd]
        rw [List.length_append] at hBound hFuel
        obtain ⟨word, after, hWordRun, rfl, hWord, hAfter, hNext⟩ :=
          skipWord_spec hString hNul₁ (by omega : rest₁.length < bound)
        have hSome : word ≠ [] := by
          rintro rfl
          cases after with
          | nil => exact hEnd hString.2
          | cons c after =>
            have hBlank := hAfter c rfl
            rw [hHead c rfl] at hBlank
            cases hBlank
        have hPos := List.length_pos_iff.mpr hSome
        have hNulAfter : 0 ∉ after := fun hMem => hNul₁ (List.mem_append_right _ hMem)
        rw [List.length_append] at hBound hFuel
        obtain ⟨mem', argv', argc', hRun, hSplit⟩ := ih hNext hNulAfter
          (update argv argc (some (p + blanks.length))) hGo.2 (by omega) (by omega)
        simp only [hWordRun]
        exact ⟨mem', argv', argc', hRun,
          hSplit.word hBlanks hSame hZero hSome hWord hAfter hString hNext
          hNulAfter hGo.2⟩
    · rw [if_neg hGo]
      have hDone : rest = [] ∨ argc = 15 := by
        by_cases hEnd : mem p = 0
        · exact .inl ((h.nul_iff hNul).mp hEnd)
        · exact .inr (Nat.le_antisymm hArgc (Nat.not_lt.mp fun hLt => hGo ⟨hEnd, hLt⟩))
      refine ⟨mem, argv, argc, rfl, .done ?_ hArgc (fun _ _ => rfl) ?_ fun _ => rfl⟩
      · exact hDone.imp_left fun hNil => by rw [hNil]; rfl
      · exact fun hLt => by_contra fun hEnd => hGo ⟨hEnd, hLt⟩

/-- `parse_line` returns on every line. It does what it is to do except where it gets the
fifteenth word and the line goes on behind it: that word has no NUL of its own. -/
theorem parseLine_tokenised_iff {fuel : Nat} (h : StringAt mem p line) (hNul : 0 ∉ line)
    (argv : Nat → Option Nat) (hFuel : line.length < fuel) :
    ∃ mem' argv', parseLine fuel mem p argv = some (mem', argv') ∧
      (Tokenised mem p argv line mem' argv' ↔ (runs isBlank line).length < 15 ∨
        (runs isBlank line).length = 15 ∧ EndsInWord line) := by
  obtain ⟨mem', argv', argc', hRun, hSplit⟩ :=
    parseLoop_split h hNul argv (Nat.zero_le 15) hFuel hFuel
  have hCount := hSplit.count
  rw [Nat.zero_add] at hCount
  have hSlot : ∀ i, i < argc' → update argv' argc' none i = argv' i := fun i hi =>
    update_of_ne (by omega) _ _
  refine ⟨mem', update argv' argc' none, by rw [parseLine, hRun]; rfl, ?_, fun hFits => ?_⟩
  · intro hTokens
    by_cases hFew : (runs isBlank line).length < 15
    · exact .inl hFew
    have hWord := List.getElem?_eq_getElem (by omega : 14 < (runs isBlank line).length)
    obtain ⟨q, hArgv, hBytes⟩ := hTokens.words 14 _ hWord (by decide)
    obtain ⟨q', hArgv', _, hEnd⟩ := hSplit.words 14 _ hWord (by decide)
    rw [hSlot 14 (by omega)] at hArgv
    rw [Nat.zero_add, hArgv, Option.some.injEq] at hArgv'
    subst hArgv'
    rcases hEnd.mp hBytes.2 with hLt | ⟨hEnds, hLast⟩
    · omega
    · exact .inr ⟨hLast.symm, hEnds⟩
  · refine ⟨fun i word hi hLt => ?_, ?_, hSplit.line, fun i hi => ?_⟩
    · have hLength := (List.getElem?_eq_some_iff.mp hi).1
      obtain ⟨q, hArgv, hBytes, hEnd⟩ := hSplit.words i word hi (by rw [Nat.zero_add]; exact hLt)
      rw [Nat.zero_add] at hArgv hEnd
      refine ⟨q, by rw [hSlot i (by omega), hArgv], hBytes, hEnd.mpr ?_⟩
      rcases hFits with hFew | ⟨hAll, hEnds⟩
      · exact .inl (by omega)
      · by_cases hi14 : i < 14
        · exact .inl hi14
        · exact .inr ⟨hEnds, by omega⟩
    · change update argv' argc' none (min _ 15) = none
      rw [← hCount, update_self]
    · change 16 ≤ i at hi
      rw [update_of_ne (by omega), hSplit.slots i (by omega)]

/-- Memory that holds a line at address 0. -/
def lineMem (line : List UInt8) (a : Nat) : UInt8 := line.getD a 0

theorem stringAt_lineMem (line : List UInt8) : StringAt (lineMem line) 0 line := by
  refine ⟨fun i hi => ?_, ?_⟩
  · rw [lineMem, Nat.zero_add, List.getD_eq_getElem?_getD, List.getElem?_eq_getElem hi]
    rfl
  · rw [lineMem, Nat.zero_add, List.getD_eq_getElem?_getD, List.getElem?_eq_none (Nat.le_refl _)]
    rfl

/-- The line `ls -l` and a newline. -/
theorem parseLine_two_words :
    ∃ mem' argv', parseLine 8 (lineMem [108, 115, 32, 45, 108, 10]) 0 (fun _ => none) =
        some (mem', argv') ∧
      Tokenised (lineMem [108, 115, 32, 45, 108, 10]) 0 (fun _ => none) [108, 115, 32, 45, 108, 10]
        mem' argv' := by
  obtain ⟨mem', argv', hRun, hIff⟩ := parseLine_tokenised_iff
    (stringAt_lineMem [108, 115, 32, 45, 108, 10]) (by decide) (fun _ => none) (by decide : _ < 8)
  exact ⟨mem', argv', hRun, hIff.mpr (.inl (by decide))⟩

/-- Fifteen words and a newline: the last word keeps the newline. -/
theorem parseLine_fifteen_words :
    ∃ line : List UInt8, (runs isBlank line).length = 15 ∧
      ∃ mem' argv', parseLine 40 (lineMem line) 0 (fun _ => none) = some (mem', argv') ∧
        argv' 14 = some 28 ∧ mem' 29 = 10 ∧
        ¬Tokenised (lineMem line) 0 (fun _ => none) line mem' argv' := by
  refine ⟨(List.replicate 14 [97, 32]).flatten ++ [97, 10], by decide, ?_⟩
  have hRun : (parseLine 40 (lineMem ((List.replicate 14 [97, 32]).flatten ++ [97, 10])) 0
      (fun _ => none)).map (fun result => (result.2 14, result.1 29)) = some (some 28, 10) := by
    decide +kernel
  obtain ⟨⟨mem', argv'⟩, hParse, hLast⟩ := Option.map_eq_some_iff.mp hRun
  obtain ⟨hArgv, hByte⟩ : argv' 14 = some 28 ∧ mem' 29 = 10 := Prod.mk.inj hLast
  refine ⟨mem', argv', hParse, hArgv, hByte, fun hTokens => ?_⟩
  obtain ⟨q, hq, _, hEnd⟩ := hTokens.words 14 [97] (by decide) (by decide)
  rw [hArgv, Option.some.injEq] at hq
  rw [← hq, List.length_singleton, hByte] at hEnd
  cases hEnd

end Loop

end Kryos.User
