import Mathlib.Data.List.Infix
import Mathlib.Data.List.TakeWhile

/-! The terminals. Finished lines and the line that is being typed share one buffer
without a mark between them; the echo on the screen is left out. -/
namespace Kryos.Fs

open Function

variable {buf : Nat → UInt8} {len : Nat} {queue : List Nat} {text : List UInt8} {l : Line}
  {answers : List (Option (List UInt8))}

def ttyLineMax : Nat := 256
def backspace : UInt8 := 8
def newline : UInt8 := 10

/-- `struct tty`, with the waiting threads by their ids, the latest first. -/
structure Tty where
  buf : Nat → UInt8
  len : Nat
  waitQueue : List Nat

def ttyInit : Tty := ⟨fun _ => 0, 0, []⟩

/-- `tty_receive_char` on the active terminal: the terminal, and the threads that are made
ready. -/
def ttyReceiveChar (t : Tty) (c : UInt8) : Tty × List Nat :=
  if c = backspace then
    if t.len > 0 ∧ t.buf (t.len - 1) ≠ newline then ({ t with len := t.len - 1 }, []) else (t, [])
  else if c = newline then
    let len := if t.len ≥ ttyLineMax then ttyLineMax - 1 else t.len
    (⟨update t.buf len newline, len + 1, []⟩, t.waitQueue)
  else if t.len < ttyLineMax - 1 then
    ({ t with buf := update t.buf t.len c, len := t.len + 1 }, [])
  else (t, [])

/-- The loop that moves the first `len` bytes down by `toCopy`. -/
def moveDown (buf : Nat → UInt8) (toCopy len : Nat) : Nat → UInt8 :=
  (List.range len).foldl (fun buf i => update buf i (buf (i + toCopy))) buf

/-- One turn of the loop of `tty_read_vfs`: the bytes of a line, or `none` if the thread
has to wait. -/
def ttyReadVfs (t : Tty) (thread count : Nat) : Option (List UInt8) × Tty :=
  match (List.range t.len).find? (fun i => t.buf i == newline) with
  | some nlPos =>
    let toCopy := if count > nlPos + 1 then nlPos + 1 else count
    (some ((List.range toCopy).map t.buf),
      { t with buf := moveDown t.buf toCopy (t.len - toCopy), len := t.len - toCopy })
  | none => (none, { t with waitQueue := thread :: t.waitQueue })

/-- What a user sees of a terminal: finished lines that can be read, and the line that is
being typed. -/
structure Line where
  committed : List UInt8
  unfinished : List UInt8
  /-- All lines committed so far. -/
  lines : List (List UInt8)
  deriving DecidableEq, Repr

def Line.held (l : Line) : List UInt8 := l.committed ++ l.unfinished

def Line.receive (l : Line) (c : UInt8) : Line :=
  if c = backspace then { l with unfinished := l.unfinished.dropLast }
  else if c = newline then
    if l.held.length < 256 then
      ⟨l.committed ++ (l.unfinished ++ [newline]), [], l.lines ++ [l.unfinished ++ [newline]]⟩
    else l
  else if l.held.length < 255 then { l with unfinished := l.unfinished ++ [c] }
  else l

/-- The length of the first finished line. -/
def Line.first (l : Line) : Nat := (l.committed.takeWhile (· != newline)).length + 1

def Line.read (l : Line) (count : Nat) : Option (List UInt8) × Line :=
  if l.committed = [] then (none, l)
  else
    (some (l.committed.take (min count l.first)),
      { l with committed := l.committed.drop (min count l.first) })

inductive TtyCall where
  | receive (c : UInt8)
  | read (thread count : Nat)
  deriving DecidableEq, Repr

/-- A call, and the answers of the reads so far. -/
def ttyStep (x : Tty × List (Option (List UInt8))) : TtyCall → Tty × List (Option (List UInt8))
  | .receive c => ((ttyReceiveChar x.1 c).1, x.2)
  | .read thread count =>
    ((ttyReadVfs x.1 thread count).2, x.2 ++ [(ttyReadVfs x.1 thread count).1])

def lineStep (x : Line × List (Option (List UInt8))) : TtyCall → Line × List (Option (List UInt8))
  | .receive c => (x.1.receive c, x.2)
  | .read _ count => ((x.1.read count).2, x.2 ++ [(x.1.read count).1])

/-- The bytes in the buffer. -/
def Tty.held (t : Tty) : List UInt8 := (List.range t.len).map t.buf

section Buffer

variable {t : Tty} {c : UInt8}

theorem Tty.length_held (t : Tty) : t.held.length = t.len := by
  rw [held, List.length_map, List.length_range]

theorem held_update :
    (Tty.mk (update buf len c) (len + 1) queue).held =
      (Tty.mk buf len queue).held ++ [c] := by
  have hOld : (List.range len).map (update buf len c) = (List.range len).map buf := by
    apply List.map_congr_left
    intro i hi
    exact update_of_ne (List.mem_range.mp hi).ne ..
  simp only [Tty.held, List.range_succ, List.map_append, List.map_singleton, hOld,
    update_self]

theorem held_pred {buf : Nat → UInt8} {len : Nat} {queue queue' : List Nat} :
    (Tty.mk buf (len + 1) queue).held = (Tty.mk buf len queue').held ++ [buf len] := by
  rw [Tty.held, List.range_succ, List.map_append]
  rfl

theorem Tty.held_eq_append {t : Tty} {last : UInt8} (h : t.held = text ++ [last]) :
    t.len > 0 ∧ t.buf (t.len - 1) = last ∧ ({ t with len := t.len - 1 } : Tty).held = text := by
  obtain ⟨buf, len, queue⟩ := t
  cases len with
  | zero => simp [Tty.held] at h
  | succ len =>
    rw [@held_pred buf len queue queue] at h
    have hLast := List.append_inj_right' h rfl
    exact ⟨Nat.succ_pos len, List.singleton_injective hLast, List.append_inj_left' h rfl⟩

theorem moveDown_apply (buf : Nat → UInt8) (toCopy len i : Nat) :
    moveDown buf toCopy len i = if i < len then buf (i + toCopy) else buf i := by
  induction len generalizing i with
  | zero => rfl
  | succ len ih =>
    have hStep : moveDown buf toCopy (len + 1) =
        update (moveDown buf toCopy len) len (moveDown buf toCopy len (len + toCopy)) := by
      simp only [moveDown, List.range_succ, List.foldl_append, List.foldl_cons, List.foldl_nil]
    rw [hStep, ih]
    rcases eq_or_ne i len with rfl | hi
    · have hNot : ¬i + toCopy < i := by omega
      simp [hNot]
    · rw [update_of_ne hi, ih]
      have hLt : i < len ↔ i < len + 1 := by omega
      simp only [hLt]

theorem held_moveDown {toCopy : Nat} :
    (Tty.mk (moveDown buf toCopy (len - toCopy)) (len - toCopy) queue).held =
      (Tty.mk buf len queue).held.drop toCopy := by
  apply List.ext_getElem
  · simp [Tty.held]
  · intro i hi hi'
    have hLt : i < len - toCopy := by simpa [Tty.held] using hi
    simp [Tty.held, moveDown_apply, hLt, Nat.add_comm]

theorem take_held {count : Nat} (hCount : count ≤ t.len) :
    (List.range count).map t.buf = t.held.take count := by
  rw [Tty.held, ← List.map_take, List.take_range, Nat.min_eq_left hCount]

end Buffer

/-- The buffer holds the finished lines and then the unfinished one. A full buffer ends
with a newline. -/
structure Tty.Shows (t : Tty) (l : Line) : Prop where
  held : t.held = l.held
  unfinished : newline ∉ l.unfinished
  committed : l.committed = [] ∨ ∃ text, l.committed = text ++ [newline]
  bound : t.len ≤ 256
  full : t.len = 256 → l.unfinished = []

section Refinement

variable {t : Tty} {l : Line}

theorem Tty.Shows.length_eq (h : t.Shows l) : l.held.length = t.len := by
  rw [← h.held, t.length_held]

theorem Tty.Shows.backspace (h : t.Shows l) :
    (ttyReceiveChar t backspace).1.Shows (l.receive backspace) := by
  rw [ttyReceiveChar, if_pos rfl, Line.receive, if_pos rfl]
  rcases List.eq_nil_or_concat l.unfinished with hNil | ⟨text, last, hText⟩
  · -- the buffer is empty or ends with the newline of a finished line
    have hHeld : t.held = l.committed := by rw [h.held, Line.held, hNil, List.append_nil]
    have hKeep : ¬(t.len > 0 ∧ t.buf (t.len - 1) ≠ Fs.newline) := by
      rintro ⟨hPos, hLast⟩
      rcases h.committed with hEmpty | ⟨line, hLine⟩
      · have hLength := t.length_held
        rw [hHeld, hEmpty, List.length_nil] at hLength
        omega
      · exact hLast (Tty.held_eq_append (hHeld.trans hLine)).2.1
    rw [if_neg hKeep, hNil]
    exact ⟨by rw [hHeld]; simp [Line.held], by simp, h.committed, h.bound, fun _ => rfl⟩
  · have hHeld : t.held = (l.committed ++ text) ++ [last] := by
      rw [h.held, Line.held, hText, List.concat_eq_append, List.append_assoc]
    obtain ⟨hPos, hLast, hRest⟩ := Tty.held_eq_append hHeld
    have hBound := h.bound
    have hOld := h.unfinished
    rw [hText, List.concat_eq_append, List.mem_append, List.mem_singleton, not_or] at hOld
    rw [if_pos ⟨hPos, by rw [hLast]; exact fun hEq => hOld.2 hEq.symm⟩, hText,
      List.concat_eq_append, List.dropLast_concat]
    refine ⟨hRest, hOld.1, h.committed, ?_, fun hFull => ?_⟩
    · simp only
      omega
    · simp only at hFull
      omega

theorem Tty.Shows.newline (h : t.Shows l) :
    (ttyReceiveChar t newline).1.Shows (l.receive newline) := by
  have hLength := h.length_eq
  have hNe : Fs.newline ≠ Fs.backspace := by decide
  rw [ttyReceiveChar, if_neg hNe, if_pos rfl, Line.receive, if_neg hNe, if_pos rfl, hLength]
  by_cases hRoom : t.len < 256
  · have hRoom' : ¬t.len ≥ ttyLineMax := not_le.mpr hRoom
    rw [if_pos hRoom]
    simp only [if_neg hRoom']
    refine ⟨?_, by simp, .inr ⟨l.committed ++ l.unfinished, by rw [List.append_assoc]⟩, hRoom,
      fun _ => rfl⟩
    rw [held_update]
    change t.held ++ [Fs.newline] = _
    rw [h.held, Line.held, Line.held, List.append_nil, List.append_assoc]
  · -- the last byte is overwritten with itself
    have hRoom' : t.len ≥ ttyLineMax := not_lt.mp hRoom
    have hFull : t.len = 256 := le_antisymm h.bound hRoom'
    have hNil := h.full hFull
    rw [if_neg hRoom]
    simp only [if_pos hRoom']
    have hHeld : t.held = l.committed := by rw [h.held, Line.held, hNil, List.append_nil]
    have hLine : ∃ text, t.held = text ++ [Fs.newline] := by
      rcases h.committed with hEmpty | ⟨text, hText⟩
      · have hZero := t.length_held
        rw [hHeld, hEmpty, hFull] at hZero
        cases hZero
      · exact ⟨text, hHeld.trans hText⟩
    obtain ⟨text, hText⟩ := hLine
    obtain ⟨_, _, hRest⟩ := Tty.held_eq_append hText
    refine ⟨?_, h.unfinished, h.committed, le_refl 256, fun _ => hNil⟩
    rw [held_update, ← h.held, hText, ← hRest, hFull]
    rfl

theorem Tty.Shows.ordinary (h : t.Shows l) {c : UInt8} (hBack : c ≠ Fs.backspace)
    (hNew : c ≠ Fs.newline) : (ttyReceiveChar t c).1.Shows (l.receive c) := by
  have hLength := h.length_eq
  rw [ttyReceiveChar, if_neg hBack, if_neg hNew, Line.receive, if_neg hBack, if_neg hNew, hLength]
  by_cases hRoom : t.len < 255
  · have hRoom' : t.len < ttyLineMax - 1 := hRoom
    rw [if_pos hRoom', if_pos hRoom]
    refine ⟨?_, ?_, h.committed, Nat.succ_le_of_lt (hRoom.trans (by decide)), fun hFull => ?_⟩
    · rw [held_update]
      rw [h.held, Line.held, Line.held, List.append_assoc]
    · simp [h.unfinished, hNew.symm]
    · simp only at hFull
      omega
  · have hRoom' : ¬t.len < ttyLineMax - 1 := hRoom
    rw [if_neg hRoom', if_neg hRoom]
    exact h

theorem Tty.Shows.receive (h : t.Shows l) (c : UInt8) :
    (ttyReceiveChar t c).1.Shows (l.receive c) := by
  by_cases hBack : c = Fs.backspace
  · rw [hBack]
    exact h.backspace
  by_cases hNew : c = Fs.newline
  · rw [hNew]
    exact h.newline
  · exact h.ordinary hBack hNew

theorem Tty.getElem?_held {i : Nat} (hi : i < t.len) : t.held[i]? = some (t.buf i) := by
  simp [Tty.held, hi]

theorem find_newline {rest : List UInt8} (hText : newline ∉ text)
    (hHeld : t.held = text ++ newline :: rest) :
    (List.range t.len).find? (fun i => t.buf i == newline) = some text.length := by
  have hLength := t.length_held
  rw [hHeld, List.length_append, List.length_cons] at hLength
  have hAt := @Tty.getElem?_held t
  rw [hHeld] at hAt
  refine List.find?_range_eq_some.mpr ⟨?_, List.mem_range.mpr (by omega), fun j hj => ?_⟩
  · have hHere := hAt (show text.length < t.len by omega)
    rw [List.getElem?_append_right (le_refl _), Nat.sub_self, List.getElem?_cons_zero,
      Option.some.injEq] at hHere
    rw [← hHere, beq_self_eq_true]
  · have hHere := hAt (show j < t.len by omega)
    rw [List.getElem?_append_left hj] at hHere
    have hNe : t.buf j ≠ newline := fun hEq => hText (hEq ▸ List.mem_of_getElem? hHere)
    simp [hNe]

theorem find_newline_none (hHeld : newline ∉ t.held) :
    (List.range t.len).find? (fun i => t.buf i == newline) = none := by
  refine List.find?_range_eq_none.mpr fun i hi => ?_
  have hNe : t.buf i ≠ newline := fun hEq =>
    hHeld (hEq ▸ List.mem_of_getElem? (Tty.getElem?_held hi))
  simp [hNe]

theorem Line.split_first (l : Line) (hCommitted : l.committed = text ++ [newline]) :
    ∃ line rest, l.committed = line ++ newline :: rest ∧ newline ∉ line ∧
      l.first = line.length + 1 := by
  have hSplit := @List.takeWhile_append_dropWhile _ (· != newline) l.committed
  have hLine : newline ∉ l.committed.takeWhile (· != newline) := by
    intro hMem
    simpa using List.mem_takeWhile_imp hMem
  cases hRest : l.committed.dropWhile (· != newline) with
  | nil =>
    rw [List.dropWhile_eq_nil_iff] at hRest
    have hLast := hRest newline (by rw [hCommitted]; simp)
    simp at hLast
  | cons c rest =>
    have hc : c = newline := by
      have hSome : l.committed.dropWhile (· != newline) ≠ [] := by rw [hRest]; simp
      have hHead := List.head_dropWhile_not (· != newline) hSome
      simpa [hRest] using hHead
    rw [hRest, hc] at hSplit
    exact ⟨_, rest, hSplit.symm, hLine, rfl⟩

theorem Tty.Shows.read (h : t.Shows l) (thread count : Nat) :
    (ttyReadVfs t thread count).1 = (l.read count).1 ∧
      (ttyReadVfs t thread count).2.Shows (l.read count).2 := by
  rcases h.committed with hEmpty | ⟨text, hText⟩
  · have hNone : Fs.newline ∉ t.held := by
      rw [h.held, Line.held, hEmpty, List.nil_append]
      exact h.unfinished
    rw [ttyReadVfs, find_newline_none hNone, Line.read, if_pos hEmpty]
    exact ⟨rfl, h.held, h.unfinished, h.committed, h.bound, h.full⟩
  · obtain ⟨line, rest, hSplit, hLine, hFirst⟩ := l.split_first hText
    have hHeld : t.held = line ++ Fs.newline :: (rest ++ l.unfinished) := by
      rw [h.held, Line.held, hSplit, List.append_assoc, List.cons_append]
    have hLength := h.length_eq
    have hCommitted : l.committed.length = line.length + 1 + rest.length := by
      rw [hSplit, List.length_append, List.length_cons]
      omega
    rw [Line.held, List.length_append] at hLength
    have hMin :
        (if count > line.length + 1 then line.length + 1 else count) = min count l.first := by
      split <;> omega
    have hFew : min count l.first ≤ l.committed.length := by omega
    have hSome : l.committed ≠ [] := by
      rw [hSplit]
      simp
    rw [ttyReadVfs, find_newline hLine hHeld, Line.read, if_neg hSome]
    simp only [hMin]
    refine ⟨?_, ?_, h.unfinished, ?_, ?_, ?_⟩
    · rw [take_held (by omega), h.held, Line.held, List.take_append_of_le_length hFew]
    · rw [held_moveDown]
      rw [h.held, Line.held, Line.held, List.drop_append_of_le_length hFew]
    · by_cases hAll : min count l.first ≤ text.length
      · exact .inr ⟨text.drop (min count l.first), by
          rw [hText, List.drop_append_of_le_length hAll]⟩
      · refine .inl ?_
        rw [hText]
        exact List.drop_eq_nil_of_le (by rw [List.length_append, List.length_singleton]; omega)
    · exact (Nat.sub_le ..).trans h.bound
    · intro hFull
      have hBound := h.bound
      exact h.full (by simp only at hFull; omega)

end Refinement

/-- The bytes that the reads have returned. -/
def delivered (answers : List (Option (List UInt8))) : List UInt8 := answers.flatMap (·.getD [])

/-- What was read and what can be read are together what was committed. -/
def Line.Accounts (l : Line) (answers : List (Option (List UInt8))) : Prop :=
  l.lines.flatten = delivered answers ++ l.committed

theorem Line.Accounts.receive (h : l.Accounts answers) (c : UInt8) :
    (l.receive c).Accounts answers := by
  rw [Line.receive]
  split
  · exact h
  split
  · split
    · rw [Line.Accounts] at h ⊢
      simp only [List.flatten_append, List.flatten_cons, List.flatten_nil, List.append_nil, h,
        List.append_assoc]
    · exact h
  · split <;> exact h

theorem Line.Accounts.read (h : l.Accounts answers) (count : Nat) :
    (l.read count).2.Accounts (answers ++ [(l.read count).1]) := by
  rw [Line.Accounts, delivered] at h ⊢
  rw [List.flatMap_append, Line.read]
  split
  · simp [h]
  · simp only [List.flatMap_cons, List.flatMap_nil, List.append_nil, Option.getD_some]
    rw [h, List.append_assoc, List.take_append_drop]

theorem tty_step {t : Tty} {l : Line} {answers : List (Option (List UInt8))} (h : t.Shows l)
    (call : TtyCall) :
    (ttyStep (t, answers) call).1.Shows (lineStep (l, answers) call).1 ∧
      (ttyStep (t, answers) call).2 = (lineStep (l, answers) call).2 := by
  cases call with
  | receive c => exact ⟨h.receive c, rfl⟩
  | read thread count =>
    obtain ⟨hAnswer, hShows⟩ := h.read thread count
    exact ⟨hShows, congrArg (fun answer => answers ++ [answer]) hAnswer⟩

theorem line_step (h : l.Accounts answers) (call : TtyCall) :
    (lineStep (l, answers) call).1.Accounts (lineStep (l, answers) call).2 := by
  cases call with
  | receive c => exact h.receive c
  | read thread count => exact h.read count

theorem tty_run {t : Tty} {l : Line} {answers : List (Option (List UInt8))} (h : t.Shows l)
    (hAccounts : l.Accounts answers) (calls : List TtyCall) :
    (calls.foldl ttyStep (t, answers)).1.Shows (calls.foldl lineStep (l, answers)).1 ∧
      (calls.foldl ttyStep (t, answers)).2 = (calls.foldl lineStep (l, answers)).2 ∧
      (calls.foldl lineStep (l, answers)).1.Accounts (calls.foldl lineStep (l, answers)).2 := by
  induction calls generalizing t l answers with
  | nil => exact ⟨h, rfl, hAccounts⟩
  | cons call calls ih =>
    obtain ⟨hShows, hAnswers⟩ := @tty_step t l answers h call
    have hNext := line_step hAccounts call
    have hPair : ttyStep (t, answers) call =
        ((ttyStep (t, answers) call).1, (lineStep (l, answers) call).2) :=
      Prod.ext rfl hAnswers
    rw [List.foldl_cons, List.foldl_cons, hPair]
    exact ih hShows hNext

/-- In every run of key presses and reads, a terminal holds and answers what the queue of
finished lines and the unfinished line say, and what was read is a prefix of what was
committed. -/
theorem tty_refines_line (calls : List TtyCall) :
    (calls.foldl ttyStep (ttyInit, [])).1.held = (calls.foldl lineStep (⟨[], [], []⟩, [])).1.held ∧
      (calls.foldl ttyStep (ttyInit, [])).1.len ≤ 256 ∧
      (calls.foldl ttyStep (ttyInit, [])).2 = (calls.foldl lineStep (⟨[], [], []⟩, [])).2 ∧
      delivered (calls.foldl ttyStep (ttyInit, [])).2 <+:
        (calls.foldl lineStep (⟨[], [], []⟩, [])).1.lines.flatten := by
  have hInit : ttyInit.Shows ⟨[], [], []⟩ :=
    ⟨rfl, List.not_mem_nil, .inl rfl, by decide, fun _ => rfl⟩
  obtain ⟨hShows, hAnswers, hAccounts⟩ := @tty_run _ _ [] hInit rfl calls
  refine ⟨hShows.held, hShows.bound, hAnswers, ?_⟩
  rw [hAnswers, hAccounts]
  exact List.prefix_append ..

/-- Two lines typed ahead, one with a correction, read in parts. -/
example : ([TtyCall.receive 97, .receive 98, .receive 8, .receive 10, .receive 99, .read 1 1,
    .read 1 9, .read 1 9].foldl ttyStep (ttyInit, [])).2 = [some [97], some [10], none] := by
  decide

end Kryos.Fs
