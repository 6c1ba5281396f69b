import Kryos.Fs.Vt

/-! The terminals by their `int` fields. Every access to a buffer and to the table of
colours is checked, and one out of range fails the call. What the cells hold is left to
the model of the screen, which this one follows. -/
namespace Kryos.Fs

open Function

/-- `struct vt` without the cells of its buffer. -/
structure IntVt where
  cursorX : Int
  cursorY : Int
  currentAttr : UInt8
  ansiState : Int
  ansiParam : Int
  ansiParam2 : Int
  active : Bool

/-- An access to the cell `i` of a buffer. -/
def touch (i : Int) : Option Unit := if 0 ≤ i ∧ i < vgaCells then some () else none

/-- The loop of `vga_blit` on the buffer, and that of `vt_clear`. -/
def touchAll : Option Unit := (List.range vgaCells).forM fun i => touch i

namespace IntVt

/-- The index of the cell at the cursor. -/
def cell (v : IntVt) : Int := int32 (v.cursorY * vgaWidth + v.cursorX)

def clear (v : IntVt) : Option IntVt := do
  touchAll
  return { v with cursorX := 0, cursorY := 0 }

def scroll (v : IntVt) : Option IntVt := do
  (List.range' 1 (vgaHeight - 1)).forM fun y => (List.range vgaWidth).forM fun x => do
    touch (y * vgaWidth + x)
    touch ((y - 1) * vgaWidth + x)
  (List.range vgaWidth).forM fun x => touch ((vgaHeight - 1) * vgaWidth + x)
  return { v with cursorY := vgaHeight - 1 }

/-- `vga_blit` of the buffer if the terminal is shown. -/
def redraw (v : IntVt) : Option Unit := if v.active then touchAll else some ()

/-- The cursor one cell back. -/
def back (v : IntVt) : IntVt :=
  if v.cursorX > 0 then { v with cursorX := v.cursorX - 1 }
  else if v.cursorY > 0 then { v with cursorY := v.cursorY - 1, cursorX := vgaWidth - 1 }
  else v

def newLine (v : IntVt) : IntVt := { v with cursorX := 0, cursorY := int32 (v.cursorY + 1) }

/-- The first part of `vt_putc`, by the character. -/
def store (v : IntVt) (c : UInt8) : Option IntVt :=
  if c = newline then some v.newLine
  else if c = backspace then do
    touch v.back.cell
    return v.back
  else if c = carriageReturn then some { v with cursorX := 0 }
  else do
    touch v.cell
    return { v with cursorX := int32 (v.cursorX + 1) }

def wrap (v : IntVt) : IntVt := if v.cursorX ≥ vgaWidth then v.newLine else v

/-- The second part: the end of a line and of the screen. -/
def advance (v : IntVt) : Option IntVt :=
  let v := v.wrap
  if v.cursorY ≥ vgaHeight then do
    let v ← v.scroll
    v.redraw
    return v
  else some v

def putc (v : IntVt) (c : UInt8) : Option IntVt := (v.store c).bind advance

/-- A parameter of the sequence `H`, which counts from one, as a cursor position. -/
def position (param : Int) (bound : Nat) : Int :=
  let x := if param > 0 then param - 1 else 0
  let x := if x < 0 then 0 else x
  if x ≥ bound then bound - 1 else x

/-- Another digit of a parameter. -/
def digit (v : IntVt) (d : Nat) : IntVt :=
  let v := if v.ansiState = 2 then { v with ansiState := 3 } else v
  if v.ansiState = 3 then { v with ansiParam := int32 (v.ansiParam * 10 + d) }
  else if v.ansiState = 4 then { v with ansiParam2 := int32 (v.ansiParam2 * 10 + d) }
  else v

/-- The sequence `m`. -/
def color (v : IntVt) : Option IntVt :=
  if v.ansiParam = 0 then some { v with currentAttr := 7 }
  else if v.ansiParam ≥ 30 ∧ v.ansiParam ≤ 37 then do
    let fg ← ansiColors[((v.ansiParam - 30) % 256).toNat]?
    return { v with currentAttr := (v.currentAttr &&& 0xF0) ||| fg }
  else some v

/-- The sequence `J`. -/
def erase (v : IntVt) : Option IntVt :=
  if v.ansiParam = 2 then do
    let v ← v.clear
    v.redraw
    return v
  else some v

/-- The sequence `H`. -/
def moveTo (v : IntVt) : IntVt :=
  { v with cursorX := position v.ansiParam2 vgaWidth, cursorY := position v.ansiParam vgaHeight }

def setState (v : IntVt) (state : Int) : IntVt := { v with ansiState := state }

/-- A byte behind the bracket. -/
def sequence (v : IntVt) (c : UInt8) : Option IntVt :=
  if 48 ≤ c ∧ c ≤ 57 then some (v.digit (c.toNat - 48))
  else if c = 59 then some (v.setState 4)
  else if c = 109 then v.color.map (setState · 0)
  else if c = 74 then v.erase.map (setState · 0)
  else if c = 72 then some (v.moveTo.setState 0)
  else some (v.setState 0)

/-- `vt_parse_ansi`: one byte. -/
def parseAnsi (v : IntVt) (c : UInt8) : Option IntVt :=
  if v.ansiState = 0 then
    if c = escapeByte then some { v with ansiState := 1, ansiParam := 0, ansiParam2 := 0 }
    else v.putc c
  else if v.ansiState = 1 then
    if c = 91 then some (v.setState 2) else (v.setState 0).putc c
  else if v.ansiState = 2 ∨ v.ansiState = 3 ∨ v.ansiState = 4 then v.sequence c
  else some v

/-- The cursor is on the screen, and the state is one of the five. -/
structure InBounds (v : IntVt) : Prop where
  cursorX : 0 ≤ v.cursorX ∧ v.cursorX < 80
  cursorY : 0 ≤ v.cursorY ∧ v.cursorY < 25
  ansiState : 0 ≤ v.ansiState ∧ v.ansiState ≤ 4

end IntVt

/-- `vts` and `active_vt_idx`. -/
structure Terminals where
  vts : Nat → IntVt
  activeVtIdx : Nat

namespace Terminals

def setVt (t : Terminals) (n : Nat) (v : IntVt) : Terminals := { t with vts := update t.vts n v }

/-- Static memory before `vt_init`. -/
def zero : Terminals := ⟨fun _ => ⟨0, 0, 0, 0, 0, 0, false⟩, 0⟩

def init (t : Terminals) : Option Terminals := do
  let t ← (List.range maxVts).foldlM (fun t i => do
    let v ← IntVt.clear { t.vts i with currentAttr := 7, active := i == 0 }
    return t.setVt i (v.setState 0)) t
  touchAll
  return t

/-- One byte to the terminal `n`. -/
def byte (t : Terminals) (n : Nat) (c : UInt8) : Option Terminals := do
  let v ← (t.vts n).parseAnsi c
  return t.setVt n v

def write (t : Terminals) (num : Int) (data : List UInt8) : Option Terminals :=
  if num < 0 ∨ num ≥ maxVts then some t
  else data.foldlM (fun t c => t.byte num.toNat c) t

def switch (t : Terminals) (num : Int) : Option Terminals :=
  if num < 0 ∨ num ≥ maxVts then some t
  else if num = t.activeVtIdx then some t
  else do
    let t := t.setVt t.activeVtIdx { t.vts t.activeVtIdx with active := false }
    let t := t.setVt num.toNat { t.vts num.toNat with active := true }
    touchAll
    return { t with activeVtIdx := num.toNat }

def step (t : Terminals) : VtCall → Option Terminals
  | .write num data => t.write num data
  | .switch num => t.switch num

end Terminals

/-- The number of a state. -/
def AnsiState.code : AnsiState → Int
  | .normal => 0
  | .escape => 1
  | .bracket => 2
  | .param1 => 3
  | .param2 => 4

theorem AnsiState.code_mem (state : AnsiState) : 0 ≤ state.code ∧ state.code ≤ 4 := by
  cases state <;> decide

/-- A terminal without its cells. -/
def Vt.ints (v : Vt) : IntVt :=
  ⟨v.cursorX, v.cursorY, v.currentAttr, v.ansiState.code, v.ansiParam, v.ansiParam2, v.active⟩

/-- The terminals are those of the screen. -/
structure Terminals.Follows (t : Terminals) (s : Screen) : Prop where
  vts : ∀ n, t.vts n = (s.vts n).ints
  index : t.activeVtIdx = s.activeVtIdx

section Accesses

theorem touch_eq {i : Int} (hLo : 0 ≤ i) (hHi : i < 2000) : touch i = some () := if_pos ⟨hLo, hHi⟩

theorem forM_some {α : Type*} {l : List α} {f : α → Option Unit} (h : ∀ a ∈ l, f a = some ()) :
    l.forM f = some () := by
  induction l with
  | nil => rfl
  | cons a l ih =>
    rw [List.forM, h a List.mem_cons_self]
    exact ih fun b hb => h b (List.mem_cons_of_mem a hb)

theorem touchAll_eq : touchAll = some () := by
  refine forM_some fun i hi => touch_eq (Int.natCast_nonneg i) ?_
  exact Int.ofNat_lt.mpr (List.mem_range.mp hi)

theorem int32_eq {x : Int} (hLo : 0 ≤ x) (hHi : x < 2 ^ 31) : int32 x = x := by
  exact Int.bmod_eq_of_le (by omega) (by omega)

theorem IntVt.redraw_eq (v : IntVt) : v.redraw = some () := by
  rw [redraw, touchAll_eq, ite_self]

theorem IntVt.clear_eq (v : IntVt) : v.clear = some { v with cursorX := 0, cursorY := 0 } := by
  rw [clear, touchAll_eq]
  rfl

theorem IntVt.scroll_eq (v : IntVt) : v.scroll = some { v with cursorY := vgaHeight - 1 } := by
  rw [scroll, forM_some ?rows, forM_some ?last]
  · rfl
  case rows =>
    refine fun y hy => forM_some fun x hx => ?_
    rw [List.mem_range'_1] at hy
    rw [List.mem_range] at hx
    simp only [vgaHeight, vgaWidth] at hx hy ⊢
    rw [touch_eq (by omega) (by omega)]
    exact touch_eq (by omega) (by omega)
  case last =>
    intro x hx
    rw [List.mem_range] at hx
    simp only [vgaHeight, vgaWidth] at hx ⊢
    exact touch_eq (by omega) (by omega)

end Accesses

section Bytes

variable {s s' : Screen} {v : Vt} {n : Nat} {c : UInt8}

theorem touch_cell (h : v.InRange) : touch v.ints.cell = some () := by
  obtain ⟨hx, hy⟩ := h
  simp only [vgaWidth, vgaHeight] at hx hy
  simp only [IntVt.cell, Vt.ints, vgaWidth]
  rw [int32_eq (by omega) (by omega)]
  exact touch_eq (by omega) (by omega)

theorem ints_back (v : Vt) : v.ints.back = v.back.ints := by
  have hx : v.ints.cursorX > 0 ↔ v.cursorX > 0 := Int.natCast_pos
  have hy : v.ints.cursorY > 0 ↔ v.cursorY > 0 := Int.natCast_pos
  simp only [IntVt.back, Vt.back, hx, hy]
  split_ifs with hLeft hUp
  · have hPred : ((v.cursorX - 1 : Nat) : Int) = v.cursorX - 1 := by omega
    simp only [Vt.ints, hPred]
  · have hPred : ((v.cursorY - 1 : Nat) : Int) = v.cursorY - 1 := by omega
    simp only [Vt.ints, hPred]
    rfl
  · rfl

theorem ints_newLine (hy : v.cursorY < 2 ^ 31 - 1) : v.ints.newLine = v.newLine.ints := by
  simp only [IntVt.newLine, Vt.ints, Vt.newLine]
  rw [int32_eq (by omega) (by omega)]
  simp

/-- The terminal after the first part of `vt_putc`, -/
def Vt.stored (v : Vt) (c : UInt8) : Vt :=
  if c = newline then v.newLine
  else if c = backspace then v.erase
  else if c = carriageReturn then v.lineStart
  else v.store c

/-- and after the second. -/
def Vt.advanced (v : Vt) : Vt := if v.wrap.cursorY ≥ vgaHeight then vtScroll v.wrap else v.wrap

theorem vts_vtPutc : (vtPutc s n c).vts n = ((s.vts n).stored c).advanced := by
  have hStored : (vtStore s n c).vts n = (s.vts n).stored c := by
    simp only [vtStore, Vt.stored]
    split_ifs <;> simp
  rw [vtPutc, vtAdvance, vts_vtSyncCursor, vts_setVt, hStored, Vt.advanced]
  split <;> simp

theorem ints_store (h : v.InRange) (c : UInt8) : v.ints.store c = some (v.stored c).ints := by
  have hy := h.2
  have hx := h.1
  simp only [vgaWidth, vgaHeight] at hx hy
  simp only [IntVt.store, Vt.stored]
  split_ifs
  · rw [ints_newLine (by omega)]
  · rw [ints_back, touch_cell (inRange_back h)]
    rfl
  · rfl
  · rw [touch_cell h]
    simp only [Vt.ints, Vt.store]
    rw [int32_eq (by omega) (by omega)]
    rfl

theorem ints_wrap (hy : v.cursorY < 2 ^ 31 - 1) : v.ints.wrap = v.wrap.ints := by
  rw [IntVt.wrap, Vt.wrap, apply_ite Vt.ints, ← ints_newLine hy]
  simp only [Vt.ints, ge_iff_le, Int.ofNat_le]

theorem ints_advance (hy : v.cursorY ≤ 25) : v.ints.advance = some v.advanced.ints := by
  rw [IntVt.advance, ints_wrap (by omega), Vt.advanced, apply_ite Vt.ints, apply_ite some]
  simp only [IntVt.scroll_eq, IntVt.redraw_eq, Vt.ints, ge_iff_le, Int.ofNat_le]
  rfl

theorem ints_putc (h : (s.vts n).InRange) :
    (s.vts n).ints.putc c = some ((vtPutc s n c).vts n).ints := by
  have hy : ((s.vts n).stored c).cursorY ≤ 25 := by
    have hy := h.2
    have hBack := (inRange_erase h).2
    simp only [vgaHeight] at hy hBack
    rw [Vt.stored]
    split_ifs
    · exact hy
    · exact hBack.le
    · exact hy.le
    · exact hy.le
  rw [IntVt.putc, ints_store h, vts_vtPutc]
  exact ints_advance hy

theorem ints_digit (hState : v.ansiState = .bracket ∨ v.ansiState = .param1 ∨ v.ansiState = .param2)
    (d : Nat) : v.ints.digit d = (v.digit d).ints := by
  rcases hState with hState | hState | hState <;>
    simp [IntVt.digit, Vt.digit, Vt.ints, hState, AnsiState.code]

theorem position_eq (param : Int) {bound : Nat} (hBound : 0 < bound) :
    IntVt.position param bound = cursorParam param bound := by
  simp only [IntVt.position, cursorParam]
  split_ifs <;> omega

/-- The colour that the sequence `m` looks up is in the table. -/
theorem ints_color (v : Vt) : v.ints.color = some v.color.ints := by
  have hParam : v.ints.ansiParam = v.ansiParam := rfl
  simp only [IntVt.color, Vt.color, hParam]
  split_ifs with hZero hColor
  · rfl
  · have hIndex : ((v.ansiParam - 30) % 256).toNat = (v.ansiParam - 30).toNat := by omega
    have hLength : (v.ansiParam - 30).toNat < ansiColors.length := by
      change _ < 8
      omega
    rw [hIndex, List.getElem?_eq_getElem hLength, List.getD_eq_getElem?_getD,
      List.getElem?_eq_getElem hLength]
    rfl
  · rfl

theorem ints_sequence
    (hState : (s.vts n).ansiState = .bracket ∨ (s.vts n).ansiState = .param1 ∨
      (s.vts n).ansiState = .param2) :
    (s.vts n).ints.sequence c = some ((vtSequence s n c).vts n).ints := by
  have hParam : (s.vts n).ints.ansiParam = (s.vts n).ansiParam := rfl
  simp only [IntVt.sequence, vtSequence, IntVt.erase, IntVt.clear_eq,
    IntVt.redraw_eq, ints_color, hParam]
  split_ifs
  · rw [ints_digit hState, vts_setVt]
  · rw [vts_setVt]
    rfl
  · rw [vts_setVt]
    rfl
  · rw [vts_setVt, vts_redraw, vts_setVt, vtClear]
    rfl
  · rw [vts_setVt]
    rfl
  · rw [vts_setVt, vts_vtSyncCursor, vts_setVt, IntVt.moveTo, position_eq _ (by decide),
      position_eq _ (by decide)]
    rfl
  · rw [vts_setVt]
    rfl

theorem ints_parseAnsi (h : (s.vts n).InRange) :
    (s.vts n).ints.parseAnsi c = some ((vtParseAnsi s n c).vts n).ints := by
  have hCode : (s.vts n).ints.ansiState = (s.vts n).ansiState.code := rfl
  rw [IntVt.parseAnsi, hCode, vtParseAnsi]
  cases hState : (s.vts n).ansiState with
  | normal =>
    rw [if_pos (by decide)]
    dsimp only
    split_ifs
    · rw [vts_setVt]
      rfl
    · exact ints_putc h
  | escape =>
    rw [if_neg (by decide), if_pos (by decide)]
    dsimp only
    split_ifs
    · rw [vts_setVt]
      rfl
    · have hPutc :=
        @ints_putc (s.setVt n ((s.vts n).setState .normal)) n c (by rw [vts_setVt]; exact h)
      rw [vts_setVt] at hPutc
      exact hPutc
  | bracket => exact ints_sequence (.inl hState)
  | param1 => exact ints_sequence (.inr (.inl hState))
  | param2 => exact ints_sequence (.inr (.inr hState))

end Bytes

section Runs

variable {t : Terminals} {s s' : Screen} {n : Nat}

theorem Terminals.Follows.setVt (h : t.Follows s) (n : Nat) (v : Vt) :
    (t.setVt n v.ints).Follows (s.setVt n v) where
  vts m := by
    rcases eq_or_ne m n with rfl | hm
    · rw [vts_setVt]
      exact update_self ..
    · rw [vts_setVt_of_ne hm, ← h.vts m]
      exact update_of_ne hm ..
  index := h.index

theorem Terminals.Follows.setActive (h : t.Follows s) (n : Nat) (active : Bool) :
    (t.setVt n { t.vts n with active }).Follows (s.setVt n ((s.vts n).setActive active)) := by
  rw [h.vts n]
  exact h.setVt n ((s.vts n).setActive active)

theorem foldlM_follows {α : Type*} {f : Terminals → α → Option Terminals} {g : Screen → α → Screen}
    {inv : Screen → Prop} (hInv : ∀ s a, inv s → inv (g s a))
    (hStep : ∀ t s a, t.Follows s → inv s → ∃ t', f t a = some t' ∧ t'.Follows (g s a)) (l : List α)
    (h : t.Follows s) (hs : inv s) :
    ∃ t', l.foldlM f t = some t' ∧ t'.Follows (l.foldl g s) ∧ inv (l.foldl g s) := by
  induction l generalizing t s with
  | nil => exact ⟨t, rfl, h, hs⟩
  | cons a l ih =>
    obtain ⟨t', hRun, h'⟩ := hStep t s a h hs
    rw [List.foldlM_cons, hRun]
    exact ih h' (hInv s a hs)

theorem Terminals.Follows.byte (h : t.Follows s) (hs : s.Ordered) (hn : n < maxVts) (c : UInt8) :
    ∃ t', t.byte n c = some t' ∧ t'.Follows (vtParseAnsi s n c) := by
  have hStep := (vtParseAnsi_follows (c := c) (hs.range n hn)).1
  have hSet := h.setVt n ((vtParseAnsi s n c).vts n)
  rw [Terminals.byte, h.vts, ints_parseAnsi (hs.range n hn)]
  refine ⟨_, rfl, fun m => ?_, h.index.trans hStep.activeVtIdx.symm⟩
  rw [hSet.vts]
  rcases eq_or_ne m n with rfl | hm
  · rw [vts_setVt]
  · rw [vts_setVt_of_ne hm, hStep.others m hm]

theorem Terminals.Follows.step (h : t.Follows s) (hs : s.Ordered) (call : VtCall) :
    ∃ t', t.step call = some t' ∧ t'.Follows (vtStep s call) := by
  cases call with
  | write num data =>
    rw [Terminals.step, Terminals.write, vtStep, vtWrite]
    split_ifs
    · exact ⟨t, rfl, h⟩
    · obtain ⟨t', hRun, hFollows, _⟩ := foldlM_follows (f := fun t c => t.byte num.toNat c)
        (fun s c hs => Screen.Ordered.parse (c := c) hs (by omega))
        (fun t s c h hs => h.byte hs (by omega) c) data h hs
      exact ⟨t', hRun, hFollows⟩
  | switch num =>
    rw [Terminals.step, Terminals.switch, vtStep, vtSwitch, h.index, touchAll_eq]
    split_ifs
    · exact ⟨t, rfl, h⟩
    · exact ⟨t, rfl, h⟩
    · exact ⟨_, rfl, ((h.setActive s.activeVtIdx false).setActive num.toNat true).vts, rfl⟩

theorem Terminals.zero_init (vga : Nat → UInt16) (cursor : Nat) :
    ∃ t, zero.init = some t ∧ t.Follows (vtInit (powerOn vga cursor)) := by
  have hFresh : ∀ (t : Terminals) (s : Screen) (i : Nat), t.Follows s → True → ∃ t', (do
      let v ← IntVt.clear { t.vts i with currentAttr := 7, active := i == 0 }
      return t.setVt i (v.setState 0)) = some t' ∧
        t'.Follows (s.setVt i (vtFresh (s.vts i) i)) := by
    intro t s i h _
    have hInts : (vtFresh (s.vts i) i).ints =
        IntVt.setState
          { (s.vts i).ints with currentAttr := 7, active := i == 0, cursorX := 0, cursorY := 0 }
          0 := by
      simp only [Vt.ints, vtFresh, vtClear, AnsiState.code, Int.ofNat_zero, IntVt.setState]
    rw [IntVt.clear_eq, h.vts]
    refine ⟨_, rfl, ?_⟩
    have hSet := h.setVt i (vtFresh (s.vts i) i)
    rw [hInts] at hSet
    exact hSet
  obtain ⟨t, hLoop, hFollows, _⟩ := foldlM_follows (fun _ _ _ => trivial) hFresh (List.range maxVts)
    (⟨fun _ => rfl, rfl⟩ : zero.Follows (powerOn vga cursor)) trivial
  rw [init, hLoop, touchAll_eq]
  exact ⟨t, rfl, hFollows.vts, hFollows.index⟩

theorem Screen.Ordered.step (hs : s.Ordered) (call : VtCall) : (vtStep s call).Ordered := by
  cases call with
  | write num data => exact hs.write num
  | switch num => exact (hs.switch num).1

end Runs

/-- From `vt_init` on, no sequence of calls uses an index out of range, and after it every
terminal has its cursor on the screen. A write that is under way is one of the bytes so
far. -/
theorem terminals_in_bounds (calls : List VtCall) :
    ∃ t, (Terminals.zero.init.bind fun t => calls.foldlM Terminals.step t) = some t ∧
      ∀ n < maxVts, (t.vts n).InBounds := by
  obtain ⟨t, hInit, hFollows⟩ := Terminals.zero_init (fun _ => 0) 0
  obtain ⟨t', hRun, hFollows', hOrdered⟩ :=
    foldlM_follows (fun s call hs => Screen.Ordered.step hs call)
    (fun t s call h hs => h.step hs call) calls hFollows (vtInit_ordered _ _).1
  rw [hInit]
  refine ⟨t', hRun, fun n hn => ?_⟩
  obtain ⟨hx, hy⟩ := hOrdered.range n hn
  rw [hFollows'.vts n]
  exact ⟨⟨Int.natCast_nonneg _, Int.ofNat_lt.mpr hx⟩, ⟨Int.natCast_nonneg _, Int.ofNat_lt.mpr hy⟩,
    AnsiState.code_mem _⟩

end Kryos.Fs
