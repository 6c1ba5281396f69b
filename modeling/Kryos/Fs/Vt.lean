import Mathlib.Algebra.Group.Int.Defs
import Mathlib.Algebra.Group.Nat.Defs
import Kryos.Base.Cells
import Kryos.Base.Trace
import Kryos.Fs.Tty

/-! The virtual terminals and the text memory of the screen. Buffer and screen are written
separately. The copy of the output on the serial line is left out. -/
namespace Kryos.Fs

open Cells Function Trace

def vgaWidth : Nat := 80
def vgaHeight : Nat := 25
def vgaCells : Nat := vgaWidth * vgaHeight
def maxVts : Nat := 4

def carriageReturn : UInt8 := 13
def escapeByte : UInt8 := 27

/-- Where the parser is in an escape sequence. -/
inductive AnsiState where
  | normal
  | escape
  | bracket
  | param1
  | param2
  deriving DecidableEq, Repr

/-- `struct vt`. -/
structure Vt where
  buffer : Nat → UInt16
  cursorX : Nat
  cursorY : Nat
  currentAttr : UInt8
  ansiState : AnsiState
  ansiParam : Int
  ansiParam2 : Int
  active : Bool

structure Screen where
  vts : Nat → Vt
  activeVtIdx : Nat
  vgaBuffer : Nat → UInt16
  /-- The position in the cursor registers. -/
  vgaCursor : Nat

/-- A character with its colours. -/
def vgaCell (attr c : UInt8) : UInt16 := attr.toUInt16 <<< 8 ||| c.toUInt16

/-- A blank with the colours of the terminal. -/
def Vt.blank (v : Vt) : UInt16 := vgaCell v.currentAttr 32

def Vt.cursor (v : Vt) : Nat := v.cursorY * vgaWidth + v.cursorX

def Screen.setVt (s : Screen) (n : Nat) (v : Vt) : Screen :=
  { s with vts := update s.vts n v }

def vgaPutc (vga : Nat → UInt16) (x y : Nat) (c color : UInt8) : Nat → UInt16 :=
  if x < vgaWidth ∧ y < vgaHeight then update vga (y * vgaWidth + x) (vgaCell color c) else vga

def vgaBlit (vga buffer : Nat → UInt16) : Nat → UInt16 := copy vga buffer vgaCells

theorem vgaBlit_apply {vga buffer : Nat → UInt16} {i : Nat} (hi : i < vgaCells) :
    vgaBlit vga buffer i = buffer i := by
  rw [vgaBlit, copy_apply, if_pos hi]

attribute [irreducible] vgaBlit

def vgaSetCursor (s : Screen) (x y : Nat) : Screen :=
  { s with vgaCursor := (y * vgaWidth + x) % 2 ^ 16 }

def vtClear (v : Vt) : Vt :=
  { v with buffer := fill v.buffer 0 vgaCells v.blank, cursorX := 0, cursorY := 0 }

def vtScroll (v : Vt) : Vt :=
  { v with
    buffer := fill (shift v.buffer vgaWidth ((vgaHeight - 1) * vgaWidth))
      ((vgaHeight - 1) * vgaWidth) vgaWidth v.blank
    cursorY := vgaHeight - 1 }

def vtSyncCursor (s : Screen) (n : Nat) : Screen :=
  if (s.vts n).active then vgaSetCursor s (s.vts n).cursorX (s.vts n).cursorY else s

/-- `vga_blit` of the buffer if the terminal is shown. -/
def redraw (s : Screen) (n : Nat) : Screen :=
  if (s.vts n).active then { s with vgaBuffer := vgaBlit s.vgaBuffer (s.vts n).buffer } else s

/-- The cursor one cell back. -/
def Vt.back (v : Vt) : Vt :=
  if v.cursorX > 0 then { v with cursorX := v.cursorX - 1 }
  else if v.cursorY > 0 then { v with cursorY := v.cursorY - 1, cursorX := vgaWidth - 1 }
  else v

/-- The cell before the cursor blanked, and the cursor on it. -/
def Vt.erase (v : Vt) : Vt :=
  { v.back with buffer := update v.buffer v.back.cursor v.blank }

def Vt.newLine (v : Vt) : Vt := { v with cursorX := 0, cursorY := v.cursorY + 1 }

def Vt.lineStart (v : Vt) : Vt := { v with cursorX := 0 }

def Vt.store (v : Vt) (c : UInt8) : Vt :=
  { v with
    buffer := update v.buffer v.cursor (vgaCell v.currentAttr c)
    cursorX := v.cursorX + 1 }

/-- The first part of `vt_putc`, by the character. -/
def vtStore (s : Screen) (n : Nat) (c : UInt8) : Screen :=
  let v := s.vts n
  if c = newline then s.setVt n v.newLine
  else if c = backspace then s.setVt n v.erase
  else if c = carriageReturn then s.setVt n v.lineStart
  else
    let stored := s.setVt n (v.store c)
    if v.active then
      { stored with vgaBuffer := vgaPutc s.vgaBuffer v.cursorX v.cursorY c v.currentAttr }
    else stored

def Vt.wrap (v : Vt) : Vt :=
  if v.cursorX ≥ vgaWidth then v.newLine else v

/-- The second part: the end of a line and of the screen. -/
def vtAdvance (s : Screen) (n : Nat) : Screen :=
  let s := s.setVt n (s.vts n).wrap
  let s := if (s.vts n).cursorY ≥ vgaHeight then redraw (s.setVt n (vtScroll (s.vts n))) n else s
  vtSyncCursor s n

def vtPutc (s : Screen) (n : Nat) (c : UInt8) : Screen := vtAdvance (vtStore s n c) n

/-- A terminal in `vt_init`. -/
def vtFresh (v : Vt) (n : Nat) : Vt :=
  { vtClear { v with currentAttr := 7, active := n == 0 } with ansiState := .normal }

def vtInit (s : Screen) : Screen :=
  let s := (List.range maxVts).foldl (fun s i => s.setVt i (vtFresh (s.vts i) i)) s
  vgaSetCursor { s with vgaBuffer := vgaBlit s.vgaBuffer (s.vts 0).buffer } 0 0

def Vt.setActive (v : Vt) (active : Bool) : Vt := { v with active := active }

/-- The part of `vt_switch` behind its tests. -/
def vtBringUp (s : Screen) (n : Nat) : Screen :=
  let s := s.setVt s.activeVtIdx ((s.vts s.activeVtIdx).setActive false)
  let s := s.setVt n ((s.vts n).setActive true)
  let s := { s with activeVtIdx := n, vgaBuffer := vgaBlit s.vgaBuffer (s.vts n).buffer }
  vgaSetCursor s (s.vts n).cursorX (s.vts n).cursorY

def vtSwitch (s : Screen) (num : Int) : Screen :=
  if num < 0 ∨ num ≥ maxVts then s
  else if num = s.activeVtIdx then s
  else vtBringUp s num.toNat

/-- A signed 32-bit number. -/
def int32 (x : Int) : Int := x.bmod (2 ^ 32)

/-- Another digit of a parameter. -/
def Vt.digit (v : Vt) (d : Nat) : Vt :=
  if v.ansiState = .param2 then { v with ansiParam2 := int32 (v.ansiParam2 * 10 + d) }
  else { v with ansiState := .param1, ansiParam := int32 (v.ansiParam * 10 + d) }

/-- The colours of the VGA in the order of the escape sequences. -/
def ansiColors : List UInt8 := [0, 4, 2, 6, 1, 5, 3, 7]

/-- The sequence `m`. -/
def Vt.color (v : Vt) : Vt :=
  if v.ansiParam = 0 then { v with currentAttr := 7 }
  else if v.ansiParam ≥ 30 ∧ v.ansiParam ≤ 37 then
    { v with
      currentAttr := (v.currentAttr &&& 0xF0) ||| ansiColors.getD (v.ansiParam - 30).toNat 0 }
  else v

/-- A parameter of the sequence `H`, which counts from one, as a cursor position. -/
def cursorParam (param : Int) (bound : Nat) : Nat :=
  let x := if param > 0 then param - 1 else 0
  let x := if x < 0 then 0 else x
  (if x ≥ bound then (bound : Int) - 1 else x).toNat

def Vt.setState (v : Vt) (state : AnsiState) : Vt := { v with ansiState := state }

def Vt.startSequence (v : Vt) : Vt :=
  { v with ansiState := .escape, ansiParam := 0, ansiParam2 := 0 }

/-- The sequence `H`. -/
def Vt.moveTo (v : Vt) : Vt :=
  { v with
    cursorX := cursorParam v.ansiParam2 vgaWidth
    cursorY := cursorParam v.ansiParam vgaHeight }

/-- A byte behind the bracket. -/
def vtSequence (s : Screen) (n : Nat) (c : UInt8) : Screen :=
  let v := s.vts n
  if 48 ≤ c ∧ c ≤ 57 then s.setVt n (v.digit (c.toNat - 48))
  else if c = 59 then s.setVt n (v.setState .param2)
  else if c = 109 then s.setVt n (v.color.setState .normal)
  else if c = 74 then
    let s := if v.ansiParam = 2 then redraw (s.setVt n (vtClear v)) n else s
    s.setVt n ((s.vts n).setState .normal)
  else if c = 72 then
    let s := vtSyncCursor (s.setVt n v.moveTo) n
    s.setVt n ((s.vts n).setState .normal)
  else s.setVt n (v.setState .normal)

/-- `vt_parse_ansi`: one byte. -/
def vtParseAnsi (s : Screen) (n : Nat) (c : UInt8) : Screen :=
  let v := s.vts n
  match v.ansiState with
  | .normal => if c = escapeByte then s.setVt n v.startSequence else vtPutc s n c
  | .escape =>
    if c = 91 then s.setVt n (v.setState .bracket)
    else vtPutc (s.setVt n (v.setState .normal)) n c
  | _ => vtSequence s n c

def vtWrite (s : Screen) (num : Int) (data : List UInt8) : Screen :=
  if num < 0 ∨ num ≥ maxVts then s
  else data.foldl (fun s c => vtParseAnsi s num.toNat c) s

inductive VtCall where
  | write (num : Int) (data : List UInt8)
  | switch (num : Int)

def vtStep (s : Screen) : VtCall → Screen
  | .write num data => vtWrite s num data
  | .switch num => vtSwitch s num

/-- What a byte does to the cells of a terminal. -/
inductive Effect where
  | none
  /-- A character that the screen shows too. -/
  | put (i : Nat) (x : UInt16)
  /-- A cell blanked in the buffer. -/
  | erase (i : Nat) (x : UInt16)
  /-- Any change, after which the whole buffer is shown. -/
  | redraw

def Vt.putEffect (v : Vt) (c : UInt8) : Effect :=
  if c = newline then if v.cursorY + 1 ≥ vgaHeight then .redraw else .none
  else if c = backspace then .erase v.back.cursor v.blank
  else if c = carriageReturn then .none
  else if v.cursorX + 1 ≥ vgaWidth ∧ v.cursorY + 1 ≥ vgaHeight then .redraw
  else .put v.cursor (vgaCell v.currentAttr c)

def Vt.effect (v : Vt) (c : UInt8) : Effect :=
  match v.ansiState with
  | .normal => if c = escapeByte then .none else v.putEffect c
  | .escape => if c = 91 then .none else v.putEffect c
  | _ => if c = 74 ∧ v.ansiParam = 2 then .redraw else .none

def Effect.Writes (i : Nat) : Effect → Prop
  | .none => False
  | .put j _ => i = j
  | .erase j _ => i = j
  | .redraw => True

def Effect.Shown (s s' : Screen) (n : Nat) : Effect → Prop
  | .none => (s'.vts n).buffer = (s.vts n).buffer ∧ s'.vgaBuffer = s.vgaBuffer
  | .put i x =>
    (s'.vts n).buffer = update (s.vts n).buffer i x ∧
      s'.vgaBuffer = if (s.vts n).active then update s.vgaBuffer i x else s.vgaBuffer
  | .erase i x =>
    (s'.vts n).buffer = update (s.vts n).buffer i x ∧ s'.vgaBuffer = s.vgaBuffer
  | .redraw =>
    if (s.vts n).active then ∀ i < vgaCells, s'.vgaBuffer i = (s'.vts n).buffer i
    else s'.vgaBuffer = s.vgaBuffer

/-- A step on one terminal with that effect. -/
structure Screen.Follows (s s' : Screen) (n : Nat) (effect : Effect) : Prop where
  others : ∀ m, m ≠ n → s'.vts m = s.vts m
  activeVtIdx : s'.activeVtIdx = s.activeVtIdx
  active : (s'.vts n).active = (s.vts n).active
  cells : effect.Shown s s' n

def Vt.InRange (v : Vt) : Prop := v.cursorX < vgaWidth ∧ v.cursorY < vgaHeight

section Steps

variable {s s' s'' : Screen} {n : Nat} {v : Vt} {c : UInt8} {effect : Effect}

@[simp]
theorem vts_setVt : (s.setVt n v).vts n = v := update_self ..

theorem vts_setVt_of_ne {m : Nat} (hm : m ≠ n) : (s.setVt n v).vts m = s.vts m :=
  update_of_ne hm ..

@[simp]
theorem activeVtIdx_setVt : (s.setVt n v).activeVtIdx = s.activeVtIdx := rfl

@[simp]
theorem vgaBuffer_setVt : (s.setVt n v).vgaBuffer = s.vgaBuffer := rfl

@[simp]
theorem vts_vtSyncCursor : (vtSyncCursor s n).vts = s.vts := by
  rw [vtSyncCursor]
  split <;> rfl

@[simp]
theorem activeVtIdx_vtSyncCursor : (vtSyncCursor s n).activeVtIdx = s.activeVtIdx := by
  rw [vtSyncCursor]
  split <;> rfl

@[simp]
theorem vgaBuffer_vtSyncCursor : (vtSyncCursor s n).vgaBuffer = s.vgaBuffer := by
  rw [vtSyncCursor]
  split <;> rfl

@[simp]
theorem vts_redraw : (redraw s n).vts = s.vts := by
  rw [redraw]
  split <;> rfl

@[simp]
theorem activeVtIdx_redraw : (redraw s n).activeVtIdx = s.activeVtIdx := by
  rw [redraw]
  split <;> rfl

theorem vgaBuffer_redraw (hShown : (s.vts n).active = true) :
    (redraw s n).vgaBuffer = vgaBlit s.vgaBuffer (s.vts n).buffer := by
  rw [redraw, if_pos hShown]

theorem vgaBuffer_redraw_of_hidden (hHidden : ¬(s.vts n).active = true) :
    (redraw s n).vgaBuffer = s.vgaBuffer := by
  rw [redraw, if_neg hHidden]

theorem follows_setVt (hBuffer : v.buffer = (s.vts n).buffer)
    (hActive : v.active = (s.vts n).active) : s.Follows (s.setVt n v) n .none where
  others m hm := vts_setVt_of_ne hm
  activeVtIdx := rfl
  active := by rw [vts_setVt, hActive]
  cells := ⟨by rw [vts_setVt, hBuffer], rfl⟩

/-- Any change of a terminal that is drawn again. -/
theorem follows_redraw (hActive : v.active = (s.vts n).active) :
    s.Follows (redraw (s.setVt n v) n) n .redraw where
  others m hm := by rw [vts_redraw, vts_setVt_of_ne hm]
  activeVtIdx := by rw [activeVtIdx_redraw, activeVtIdx_setVt]
  active := by rw [vts_redraw, vts_setVt, hActive]
  cells := by
    rw [Effect.Shown]
    split
    case isTrue hShown =>
      intro i hi
      rw [vgaBuffer_redraw (by rw [vts_setVt, hActive, hShown]), vts_redraw, vgaBlit_apply hi]
    case isFalse hHidden =>
      rw [vgaBuffer_redraw_of_hidden (by rw [vts_setVt, hActive]; exact hHidden), vgaBuffer_setVt]

theorem Screen.Follows.trans_none (h : s.Follows s' n effect) (h' : s'.Follows s'' n .none) :
    s.Follows s'' n effect where
  others m hm := (h'.others m hm).trans (h.others m hm)
  activeVtIdx := h'.activeVtIdx.trans h.activeVtIdx
  active := h'.active.trans h.active
  cells := by
    obtain ⟨hBuffer, hVga⟩ := h'.cells
    have hCells := h.cells
    cases effect <;> simpa only [Effect.Shown, hBuffer, hVga] using hCells

theorem Screen.Follows.vga_of_hidden (h : s.Follows s' n effect)
    (hHidden : (s.vts n).active = false) : s'.vgaBuffer = s.vgaBuffer := by
  have hCells := h.cells
  cases effect with
  | none => exact hCells.2
  | put i x => simpa [Effect.Shown, hHidden] using hCells.2
  | erase i x => exact hCells.2
  | redraw => simpa [Effect.Shown, hHidden] using hCells

theorem Screen.Follows.trans_redraw (h : s.Follows s' n effect) (h' : s'.Follows s'' n .redraw) :
    s.Follows s'' n .redraw where
  others m hm := (h'.others m hm).trans (h.others m hm)
  activeVtIdx := h'.activeVtIdx.trans h.activeVtIdx
  active := h'.active.trans h.active
  cells := by
    have hCells := h'.cells
    rw [Effect.Shown, h.active] at hCells
    rw [Effect.Shown]
    split at hCells
    case isTrue hActive => rwa [if_pos hActive]
    case isFalse hActive =>
      rw [if_neg hActive, hCells, h.vga_of_hidden (Bool.eq_false_iff.mpr hActive)]

theorem buffer_wrap : v.wrap.buffer = v.buffer := by
  rw [Vt.wrap]
  split <;> rfl

theorem active_wrap : v.wrap.active = v.active := by
  rw [Vt.wrap]
  split <;> rfl

theorem active_back : v.back.active = v.active := by
  rw [Vt.back]
  split
  · rfl
  · split <;> rfl

theorem follows_vtSyncCursor : s.Follows (vtSyncCursor s n) n .none where
  others m _ := by rw [vts_vtSyncCursor]
  activeVtIdx := activeVtIdx_vtSyncCursor
  active := by rw [vts_vtSyncCursor]
  cells := ⟨by rw [vts_vtSyncCursor], vgaBuffer_vtSyncCursor⟩

/-- After a character the screen scrolls if the cursor has left it. -/
theorem follows_vtAdvance :
    s.Follows (vtAdvance s n) n
      (if (s.vts n).wrap.cursorY ≥ vgaHeight then .redraw else .none) := by
  have hWrap : s.Follows (s.setVt n (s.vts n).wrap) n .none := follows_setVt buffer_wrap active_wrap
  rw [vtAdvance, vts_setVt]
  split
  · exact (hWrap.trans_redraw (follows_redraw (by rw [vts_setVt]; rfl))).trans_none
      follows_vtSyncCursor
  · exact hWrap.trans_none follows_vtSyncCursor

theorem inRange_vtAdvance (hx : (s.vts n).wrap.cursorX < vgaWidth) :
    ((vtAdvance s n).vts n).InRange := by
  rw [vtAdvance, vts_vtSyncCursor, vts_setVt]
  split
  · rw [vts_redraw, vts_setVt]
    exact ⟨hx, (by decide : vgaHeight - 1 < vgaHeight)⟩
  case isFalse hy =>
    rw [vts_setVt]
    exact ⟨hx, Nat.lt_of_not_le hy⟩

/-- The effect of storing a character is that of the whole, unless the screen scrolls. -/
theorem vtPutc_of_store (hStored : (vtStore s n c).vts n = v)
    (h : s.Follows (vtStore s n c) n effect) (hx : v.wrap.cursorX < vgaWidth) :
    s.Follows (vtPutc s n c) n (if v.wrap.cursorY ≥ vgaHeight then .redraw else effect) ∧
      ((vtPutc s n c).vts n).InRange := by
  subst hStored
  refine ⟨?_, inRange_vtAdvance hx⟩
  have hAdvance := @follows_vtAdvance (vtStore s n c) n
  split at hAdvance
  case isTrue hy =>
    rw [if_pos hy]
    exact h.trans_redraw hAdvance
  case isFalse hy =>
    rw [if_neg hy]
    exact h.trans_none hAdvance

theorem wrap_of_lt (hx : v.cursorX < vgaWidth) : v.wrap = v := by
  rw [Vt.wrap, if_neg (Nat.not_le.mpr hx)]

theorem inRange_back (hRange : v.InRange) : v.back.InRange := by
  obtain ⟨hx, hy⟩ := hRange
  have hLast : vgaWidth - 1 < vgaWidth := by decide
  rw [Vt.back]
  split
  · exact ⟨Nat.lt_of_le_of_lt (Nat.sub_le ..) hx, hy⟩
  · split
    · exact ⟨hLast, Nat.lt_of_le_of_lt (Nat.sub_le ..) hy⟩
    · exact ⟨hx, hy⟩

theorem follows_erase {i : Nat} {x : UInt16} (hBuffer : v.buffer = update (s.vts n).buffer i x)
    (hActive : v.active = (s.vts n).active) : s.Follows (s.setVt n v) n (.erase i x) where
  others m hm := vts_setVt_of_ne hm
  activeVtIdx := rfl
  active := by rw [vts_setVt, hActive]
  cells := ⟨by rw [vts_setVt, hBuffer], rfl⟩

theorem inRange_erase (hRange : v.InRange) : v.erase.InRange := inRange_back hRange

theorem follows_store (hRange : (s.vts n).InRange) (hNewline : c ≠ newline) (hBack : c ≠ backspace)
    (hReturn : c ≠ carriageReturn) :
    (vtStore s n c).vts n = (s.vts n).store c ∧
      s.Follows (vtStore s n c) n (.put (s.vts n).cursor (vgaCell (s.vts n).currentAttr c)) := by
  have hStore : vtStore s n c = if (s.vts n).active then
      { s.setVt n ((s.vts n).store c) with
        vgaBuffer :=
          vgaPutc s.vgaBuffer (s.vts n).cursorX (s.vts n).cursorY c (s.vts n).currentAttr }
      else s.setVt n ((s.vts n).store c) := by
    rw [vtStore, if_neg hNewline, if_neg hBack, if_neg hReturn]
  have hVts : (vtStore s n c).vts = (s.setVt n ((s.vts n).store c)).vts := by
    rw [hStore]
    split <;> rfl
  refine ⟨by rw [hVts, vts_setVt], fun m hm => by rw [hVts, vts_setVt_of_ne hm], ?_,
    by rw [hVts, vts_setVt]; rfl, by rw [hVts, vts_setVt]; rfl, ?_⟩
  · rw [hStore]
    split <;> rfl
  · rw [hStore]
    split
    · exact if_pos hRange
    · rfl

theorem vtPutc_follows (hRange : (s.vts n).InRange) :
    s.Follows (vtPutc s n c) n ((s.vts n).putEffect c) ∧ ((vtPutc s n c).vts n).InRange := by
  have hZero : 0 < vgaWidth := by decide
  rw [Vt.putEffect]
  by_cases hNewline : c = newline
  · have hStore : vtStore s n c = s.setVt n (s.vts n).newLine := by rw [vtStore, if_pos hNewline]
    have hWrap : (s.vts n).newLine.wrap = (s.vts n).newLine := wrap_of_lt hZero
    have hPutc := @vtPutc_of_store s n (s.vts n).newLine c .none (by rw [hStore, vts_setVt])
      (hStore ▸ follows_setVt rfl rfl) (by rw [hWrap]; exact hZero)
    rwa [if_pos hNewline]
  rw [if_neg hNewline]
  by_cases hBack : c = backspace
  · obtain ⟨hx, hy⟩ := inRange_erase hRange
    have hStore : vtStore s n c = s.setVt n (s.vts n).erase := by
      rw [vtStore, if_neg hNewline, if_pos hBack]
    have hErase :
        s.Follows (s.setVt n (s.vts n).erase) n (.erase (s.vts n).back.cursor (s.vts n).blank) :=
      follows_erase rfl active_back
    have hPutc := vtPutc_of_store (v := (s.vts n).erase) (by rw [hStore, vts_setVt])
      (hStore ▸ hErase) (by rw [wrap_of_lt hx]; exact hx)
    rw [wrap_of_lt hx, if_neg (Nat.not_le.mpr hy)] at hPutc
    rwa [if_pos hBack]
  rw [if_neg hBack]
  by_cases hReturn : c = carriageReturn
  · have hStore : vtStore s n c = s.setVt n (s.vts n).lineStart := by
      rw [vtStore, if_neg hNewline, if_neg hBack, if_pos hReturn]
    have hWrap : (s.vts n).lineStart.wrap = (s.vts n).lineStart := wrap_of_lt hZero
    have hPutc := @vtPutc_of_store s n (s.vts n).lineStart c .none (by rw [hStore, vts_setVt])
      (hStore ▸ follows_setVt rfl rfl) (by rw [hWrap]; exact hZero)
    have hy : ¬(s.vts n).lineStart.cursorY ≥ vgaHeight := Nat.not_le.mpr hRange.2
    rw [hWrap, if_neg hy] at hPutc
    rwa [if_pos hReturn]
  rw [if_neg hReturn]
  obtain ⟨hStored, hFollows⟩ := follows_store hRange hNewline hBack hReturn
  by_cases hEnd : (s.vts n).cursorX + 1 ≥ vgaWidth
  · have hWrap : ((s.vts n).store c).wrap = ((s.vts n).store c).newLine := if_pos hEnd
    have hy : ((s.vts n).store c).newLine.cursorY = (s.vts n).cursorY + 1 := rfl
    have hPutc := vtPutc_of_store hStored hFollows (by rw [hWrap]; exact hZero)
    rw [hWrap, hy] at hPutc
    by_cases hBottom : (s.vts n).cursorY + 1 ≥ vgaHeight
    · rw [if_pos hBottom] at hPutc
      rwa [if_pos ⟨hEnd, hBottom⟩]
    · rw [if_neg hBottom] at hPutc
      rwa [if_neg fun h => hBottom h.2]
  · have hWrap : ((s.vts n).store c).wrap = (s.vts n).store c := if_neg hEnd
    have hy : ¬((s.vts n).store c).cursorY ≥ vgaHeight := Nat.not_le.mpr hRange.2
    have hPutc := vtPutc_of_store hStored hFollows (by rw [hWrap]; exact Nat.lt_of_not_le hEnd)
    rw [hWrap, if_neg hy] at hPutc
    rwa [if_neg fun h => hEnd h.1]

theorem Screen.Follows.of_none (h : s.Follows s' n .none) (h' : s'.Follows s'' n effect) :
    s.Follows s'' n effect where
  others m hm := (h'.others m hm).trans (h.others m hm)
  activeVtIdx := h'.activeVtIdx.trans h.activeVtIdx
  active := h'.active.trans h.active
  cells := by
    obtain ⟨hBuffer, hVga⟩ := h.cells
    have hCells := h'.cells
    cases effect <;> simpa only [Effect.Shown, hBuffer, hVga, h.active] using hCells

theorem cursorParam_lt (param : Int) {bound : Nat} (hBound : 0 < bound) :
    cursorParam param bound < bound := by
  rw [cursorParam]
  split <;> split <;> omega

theorem digit_same (d : Nat) :
    (v.digit d).buffer = v.buffer ∧ (v.digit d).active = v.active ∧
      (v.digit d).cursorX = v.cursorX ∧ (v.digit d).cursorY = v.cursorY := by
  rw [Vt.digit]
  split <;> exact ⟨rfl, rfl, rfl, rfl⟩

theorem buffer_setState {state : AnsiState} : (v.setState state).buffer = v.buffer := rfl

theorem active_setState {state : AnsiState} : (v.setState state).active = v.active := rfl

theorem active_vtClear : (vtClear v).active = v.active := by rw [vtClear]

theorem color_same :
    v.color.buffer = v.buffer ∧ v.color.active = v.active ∧
      v.color.cursorX = v.cursorX ∧ v.color.cursorY = v.cursorY := by
  rw [Vt.color]
  split
  · exact ⟨rfl, rfl, rfl, rfl⟩
  · split <;> exact ⟨rfl, rfl, rfl, rfl⟩

/-- The effect of a character does not depend on the parser. -/
theorem putEffect_setState (state : AnsiState) :
    (v.setState state).putEffect c = v.putEffect c := by
  have hBack : (v.setState state).back = v.back.setState state := by
    rw [Vt.back, Vt.back, apply_ite (Vt.setState · state), apply_ite (Vt.setState · state)]
    rfl
  rw [Vt.putEffect, hBack, Vt.putEffect]
  rfl

theorem vtSequence_follows (hRange : (s.vts n).InRange) :
    s.Follows (vtSequence s n c) n (if c = 74 ∧ (s.vts n).ansiParam = 2 then .redraw else .none) ∧
      ((vtSequence s n c).vts n).InRange := by
  have hPlain : ∀ v : Vt, v.buffer = (s.vts n).buffer ∧ v.active = (s.vts n).active ∧
      v.cursorX = (s.vts n).cursorX ∧ v.cursorY = (s.vts n).cursorY →
      s.Follows (s.setVt n v) n .none ∧ ((s.setVt n v).vts n).InRange := fun v hSame => by
    rw [vts_setVt, Vt.InRange, hSame.2.2.1, hSame.2.2.2]
    exact ⟨follows_setVt hSame.1 hSame.2.1, hRange⟩
  rw [vtSequence]
  by_cases hDigit : 48 ≤ c ∧ c ≤ 57
  · have hNot : ¬(c = 74 ∧ (s.vts n).ansiParam = 2) := fun h => by
      rw [h.1] at hDigit
      exact absurd hDigit (by decide)
    rw [if_pos hDigit, if_neg hNot]
    exact hPlain _ (digit_same _)
  rw [if_neg hDigit]
  by_cases hSemicolon : c = 59
  · rw [if_pos hSemicolon, if_neg fun h => absurd (hSemicolon.symm.trans h.1) (by decide)]
    exact hPlain _ ⟨rfl, rfl, rfl, rfl⟩
  rw [if_neg hSemicolon]
  by_cases hColor : c = 109
  · rw [if_pos hColor, if_neg fun h => absurd (hColor.symm.trans h.1) (by decide)]
    exact hPlain _ color_same
  rw [if_neg hColor]
  by_cases hClear : c = 74
  · rw [if_pos hClear, vts_setVt]
    by_cases hAll : (s.vts n).ansiParam = 2
    · rw [if_pos hAll, if_pos ⟨hClear, hAll⟩, vts_redraw, vts_setVt]
      have hRedraw : s.Follows (redraw (s.setVt n (vtClear (s.vts n))) n) n .redraw :=
        follows_redraw active_vtClear
      refine ⟨hRedraw.trans_none (follows_setVt ?_ ?_), (by decide : 0 < vgaWidth),
        (by decide : 0 < vgaHeight)⟩
      · rw [vts_redraw, vts_setVt, buffer_setState]
      · rw [vts_redraw, vts_setVt, active_setState]
    · rw [if_neg hAll, if_neg fun h => hAll h.2]
      exact ⟨follows_setVt rfl rfl, hRange⟩
  have hNot : ¬(c = 74 ∧ (s.vts n).ansiParam = 2) := fun h => hClear h.1
  rw [if_neg hClear, if_neg hNot]
  by_cases hMove : c = 72
  · have hMoved : s.Follows (s.setVt n (s.vts n).moveTo) n .none := follows_setVt rfl rfl
    rw [if_pos hMove, vts_setVt, vts_vtSyncCursor, vts_setVt]
    refine ⟨(hMoved.trans_none follows_vtSyncCursor).trans_none (follows_setVt ?_ ?_),
      cursorParam_lt _ (by decide), cursorParam_lt _ (by decide)⟩
    · rw [vts_vtSyncCursor, vts_setVt, buffer_setState]
    · rw [vts_vtSyncCursor, vts_setVt, active_setState]
  · rw [if_neg hMove]
    exact hPlain _ ⟨rfl, rfl, rfl, rfl⟩

theorem vtParseAnsi_follows (hRange : (s.vts n).InRange) :
    s.Follows (vtParseAnsi s n c) n ((s.vts n).effect c) ∧ ((vtParseAnsi s n c).vts n).InRange := by
  rw [vtParseAnsi, Vt.effect]
  cases (s.vts n).ansiState with
  | normal =>
    by_cases hEscape : c = escapeByte
    · rw [if_pos hEscape, if_pos hEscape, vts_setVt]
      exact ⟨follows_setVt rfl rfl, hRange⟩
    · rw [if_neg hEscape, if_neg hEscape]
      exact vtPutc_follows hRange
  | escape =>
    by_cases hBracket : c = 91
    · rw [if_pos hBracket, if_pos hBracket, vts_setVt]
      exact ⟨follows_setVt rfl rfl, hRange⟩
    · rw [if_neg hBracket, if_neg hBracket]
      have hReset : s.Follows (s.setVt n ((s.vts n).setState .normal)) n .none :=
        follows_setVt rfl rfl
      have hPutc := @vtPutc_follows (s.setVt n ((s.vts n).setState .normal)) n c
        (by rw [vts_setVt]; exact hRange)
      rw [vts_setVt, putEffect_setState] at hPutc
      exact ⟨hReset.of_none hPutc.1, hPutc.2⟩
  | bracket => exact vtSequence_follows hRange
  | param1 => exact vtSequence_follows hRange
  | param2 => exact vtSequence_follows hRange

end Steps

def vtGetActive (s : Screen) : Nat := s.activeVtIdx

/-- The terminal in front is the only active one, and the screen shows its buffer. -/
def Screen.Synced (s : Screen) : Prop :=
  (∀ n < maxVts, (s.vts n).active = true ↔ n = vtGetActive s) ∧
    ∀ i < vgaCells, s.vgaBuffer i = (s.vts (vtGetActive s)).buffer i

/-- What every call keeps. -/
structure Screen.Ordered (s : Screen) : Prop where
  index : s.activeVtIdx < maxVts
  active : ∀ n < maxVts, (s.vts n).active = true ↔ n = s.activeVtIdx
  range : ∀ n < maxVts, (s.vts n).InRange

/-- Some byte writes the cell. -/
def WritesCell (n i : Nat) : Screen → List UInt8 → Prop
  | _, [] => False
  | s, c :: rest => ((s.vts n).effect c).Writes i ∨ WritesCell n i (vtParseAnsi s n c) rest

/-- If a backspace is the last to write the cell, the screen shows it blank already. -/
def EraseShown (n i : Nat) : Screen → List UInt8 → Prop
  | _, [] => True
  | s, c :: rest =>
    (∀ x, (s.vts n).effect c = .erase i x → ¬WritesCell n i (vtParseAnsi s n c) rest →
      s.vgaBuffer i = x) ∧ EraseShown n i (vtParseAnsi s n c) rest

/-- No cell that a call has erased stays on the screen. -/
def VtCall.Tidy (s : Screen) : VtCall → Prop
  | .write num data => num = s.activeVtIdx → ∀ i < vgaCells, EraseShown s.activeVtIdx i s data
  | .switch _ => True

section Runs

variable {s s' : Screen} {n i : Nat} {c : UInt8} {effect : Effect} {data : List UInt8}

theorem Screen.Ordered.follows (hs : s.Ordered) (h : s.Follows s' n effect)
    (hRange : (s'.vts n).InRange) : s'.Ordered where
  index := h.activeVtIdx ▸ hs.index
  active m hm := by
    rw [h.activeVtIdx, ← hs.active m hm]
    by_cases hEq : m = n
    · rw [hEq, h.active]
    · rw [h.others m hEq]
  range m hm := by
    by_cases hEq : m = n
    · exact hEq ▸ hRange
    · exact (h.others m hEq).symm ▸ hs.range m hm

theorem Screen.Ordered.parse (hs : s.Ordered) (hn : n < maxVts) : (vtParseAnsi s n c).Ordered :=
  hs.follows (vtParseAnsi_follows (hs.range n hn)).1 (vtParseAnsi_follows (hs.range n hn)).2

theorem Screen.Ordered.run (hs : s.Ordered) (hn : n < maxVts) :
    (data.foldl (fun s c => vtParseAnsi s n c) s).Ordered := by
  induction data generalizing s with
  | nil => exact hs
  | cons c rest ih => exact ih (hs.parse hn)

theorem Screen.Follows.activeVtIdx_run (hs : s.Ordered) (hn : n < maxVts) :
    (data.foldl (fun s c => vtParseAnsi s n c) s).activeVtIdx = s.activeVtIdx := by
  induction data generalizing s with
  | nil => rfl
  | cons c rest ih =>
      exact (ih (hs.parse hn)).trans (vtParseAnsi_follows (hs.range n hn)).1.activeVtIdx

/-- A cell that is not written keeps its two copies, -/
theorem Screen.Follows.cell_of_not_writes (h : s.Follows s' n effect) (hNot : ¬effect.Writes i) :
    s'.vgaBuffer i = s.vgaBuffer i ∧ (s'.vts n).buffer i = (s.vts n).buffer i := by
  have hCells := h.cells
  cases effect with
  | none => exact ⟨by rw [hCells.2], by rw [hCells.1]⟩
  | put j x =>
    have hi : i ≠ j := hNot
    refine ⟨?_, by rw [hCells.1, update_of_ne hi]⟩
    rw [hCells.2]
    split
    · rw [update_of_ne hi]
    · rfl
  | erase j x =>
    have hi : i ≠ j := hNot
    exact ⟨by rw [hCells.2], by rw [hCells.1, update_of_ne hi]⟩
  | redraw => exact absurd trivial hNot

/-- and one that is written by anything but a backspace is shown. -/
theorem Screen.Follows.cell_of_writes (h : s.Follows s' n effect)
    (hActive : (s.vts n).active = true)
    (hi : i < vgaCells) (hWrites : effect.Writes i) (hNot : ∀ x, effect ≠ .erase i x) :
    s'.vgaBuffer i = (s'.vts n).buffer i := by
  have hCells := h.cells
  cases effect with
  | none => exact absurd hWrites id
  | put j x =>
    cases (show i = j from hWrites)
    rw [hCells.1, hCells.2, if_pos hActive, update_self, update_self]
  | erase j x =>
    cases (show i = j from hWrites)
    exact absurd rfl (hNot x)
  | redraw =>
    rw [Effect.Shown, if_pos hActive] at hCells
    exact hCells i hi

theorem Screen.Follows.cell_of_erase {x : UInt16} (h : s.Follows s' n (.erase i x)) :
    s'.vgaBuffer i = (s'.vts n).buffer i ↔ s.vgaBuffer i = x := by
  rw [h.cells.1, h.cells.2, update_self]

/-- After the bytes, the cell is shown if it was or has been written, and if its last
write is shown. -/
theorem cell_run (hs : s.Ordered) (hn : n < maxVts) (hActive : (s.vts n).active = true)
    (hi : i < vgaCells) :
    let final := data.foldl (fun s c => vtParseAnsi s n c) s
    final.vgaBuffer i = (final.vts n).buffer i ↔
      (s.vgaBuffer i = (s.vts n).buffer i ∨ WritesCell n i s data) ∧ EraseShown n i s data := by
  induction data generalizing s with
  | nil => simp [WritesCell, EraseShown]
  | cons c rest ih =>
    have hStep := (vtParseAnsi_follows (c := c) (hs.range n hn)).1
    have hRest := ih (hs.parse (c := c) hn) (hStep.active.trans hActive)
    refine hRest.trans ?_
    rw [WritesCell, EraseShown]
    by_cases hErase : ∃ x, (s.vts n).effect c = .erase i x
    · obtain ⟨x, hx⟩ := hErase
      rw [hx] at hStep
      have hWrites : (Effect.erase i x).Writes i := rfl
      rw [hStep.cell_of_erase, hx]
      constructor
      · rintro ⟨hShown, hLater⟩
        refine ⟨.inr (.inl hWrites), fun y hy hNot => ?_, hLater⟩
        cases hy
        exact hShown.resolve_right hNot
      · rintro ⟨_, hShown, hLater⟩
        exact ⟨(Classical.em _).symm.imp_left (hShown x rfl), hLater⟩
    · have hNone : ∀ x, (s.vts n).effect c ≠ .erase i x := fun x hx => hErase ⟨x, hx⟩
      have hVacuous : ∀ x, (s.vts n).effect c = .erase i x →
          ¬WritesCell n i (vtParseAnsi s n c) rest → s.vgaBuffer i = x :=
        fun x hx => absurd hx (hNone x)
      by_cases hWrites : ((s.vts n).effect c).Writes i
      · have hShown := hStep.cell_of_writes hActive hi hWrites hNone
        exact ⟨fun h => ⟨.inr (.inl hWrites), hVacuous, h.2⟩, fun h => ⟨.inl hShown, h.2.2⟩⟩
      · obtain ⟨hVga, hBuffer⟩ := hStep.cell_of_not_writes hWrites
        rw [hVga, hBuffer]
        exact ⟨fun h => ⟨h.1.imp_right .inr, hVacuous, h.2⟩,
          fun h => ⟨h.1.imp_right (·.resolve_left hWrites), h.2.2⟩⟩

theorem Screen.Follows.hidden_run (hs : s.Ordered) (hn : n < maxVts) (hHidden : n ≠ s.activeVtIdx) :
    let final := data.foldl (fun s c => vtParseAnsi s n c) s
    final.vgaBuffer = s.vgaBuffer ∧ final.vts s.activeVtIdx = s.vts s.activeVtIdx := by
  induction data generalizing s with
  | nil => exact ⟨rfl, rfl⟩
  | cons c rest ih =>
    have hStep := (vtParseAnsi_follows (c := c) (hs.range n hn)).1
    have hOff : (s.vts n).active = false :=
      Bool.eq_false_iff.mpr fun hOn => hHidden ((hs.active n hn).mp hOn)
    have hRest := ih (hs.parse (c := c) hn) (by rwa [hStep.activeVtIdx])
    rw [hStep.activeVtIdx] at hRest
    exact ⟨hRest.1.trans (hStep.vga_of_hidden hOff), hRest.2.trans (hStep.others _ hHidden.symm)⟩

theorem Screen.Ordered.synced_iff (hs : s.Ordered) :
    s.Synced ↔ ∀ i < vgaCells, s.vgaBuffer i = (s.vts s.activeVtIdx).buffer i :=
  ⟨fun h => h.2, fun h => ⟨hs.active, h⟩⟩

theorem Screen.Ordered.write (hs : s.Ordered) (num : Int) : (vtWrite s num data).Ordered := by
  rw [vtWrite]
  split
  · exact hs
  case isFalse hNum => exact hs.run (by omega)

theorem vts_vtBringUp (s : Screen) (n : Nat) :
    (vtBringUp s n).vts = update
      (update s.vts s.activeVtIdx ((s.vts s.activeVtIdx).setActive false)) n
      ((update s.vts s.activeVtIdx ((s.vts s.activeVtIdx).setActive false) n).setActive true) :=
  rfl

theorem Screen.Ordered.bringUp (hs : s.Ordered) (hn : n < maxVts) (hNew : n ≠ s.activeVtIdx) :
    (vtBringUp s n).Ordered ∧ (vtBringUp s n).Synced := by
  have hVts := vts_vtBringUp s n
  rw [update_of_ne hNew] at hVts
  have hOrdered : (vtBringUp s n).Ordered := by
    refine ⟨hn, fun m hm => ?_, fun m hm => ?_⟩
    · by_cases hEq : m = n
      · rw [hVts, hEq, update_self]
        exact ⟨fun _ => rfl, fun _ => rfl⟩
      · rw [hVts, update_of_ne hEq]
        by_cases hOld : m = s.activeVtIdx
        · rw [hOld, update_self]
          exact ⟨fun h => absurd h Bool.false_ne_true, fun h => absurd (hOld.trans h) hEq⟩
        · rw [update_of_ne hOld, hs.active m hm]
          exact ⟨fun h => absurd h hOld, fun h => absurd h hEq⟩
    · by_cases hEq : m = n
      · rw [hVts, hEq, update_self]
        exact hs.range n hn
      · rw [hVts, update_of_ne hEq]
        by_cases hOld : m = s.activeVtIdx
        · rw [hOld, update_self]
          exact hs.range _ hs.index
        · rw [update_of_ne hOld]
          exact hs.range m hm
  refine ⟨hOrdered, hOrdered.synced_iff.mpr fun i hi => ?_⟩
  exact vgaBlit_apply hi

theorem Screen.Ordered.switch (hs : s.Ordered) (num : Int) :
    (vtSwitch s num).Ordered ∧ (s.Synced → (vtSwitch s num).Synced) := by
  rw [vtSwitch]
  by_cases hNum : num < 0 ∨ num ≥ maxVts
  · rw [if_pos hNum]
    exact ⟨hs, id⟩
  rw [if_neg hNum]
  by_cases hSame : num = s.activeVtIdx
  · rw [if_pos hSame]
    exact ⟨hs, id⟩
  rw [if_neg hSame]
  obtain ⟨hOrdered, hSynced⟩ := hs.bringUp (n := num.toNat) (by omega) (by omega)
  exact ⟨hOrdered, fun _ => hSynced⟩

theorem Screen.Ordered.write_synced_iff (hs : s.Ordered) (hSynced : s.Synced) (num : Int) :
    (vtWrite s num data).Synced ↔ (VtCall.write num data).Tidy s := by
  rw [VtCall.Tidy, (hs.write num).synced_iff, vtWrite]
  by_cases hNum : num < 0 ∨ num ≥ maxVts
  · have hNot : ¬num = s.activeVtIdx := fun hEq => by
      have hIndex := hs.index
      omega
    rw [if_pos hNum]
    exact ⟨fun _ h => absurd h hNot, fun _ => hSynced.2⟩
  rw [if_neg hNum]
  have hn : num.toNat < maxVts := by omega
  rw [Screen.Follows.activeVtIdx_run hs hn]
  by_cases hShown : num = s.activeVtIdx
  · have hEq : num.toNat = s.activeVtIdx := by omega
    have hActive : (s.vts s.activeVtIdx).active = true := (hs.active _ hs.index).mpr rfl
    rw [hEq]
    constructor
    · intro hAll _ i hi
      exact ((cell_run hs hs.index hActive hi).mp (hAll i hi)).2
    · intro hTidy i hi
      exact (cell_run hs hs.index hActive hi).mpr ⟨.inl (hSynced.2 i hi), hTidy hShown i hi⟩
  · have hHidden : num.toNat ≠ s.activeVtIdx := fun hEq => hShown (by omega)
    obtain ⟨hVga, hVt⟩ := @Screen.Follows.hidden_run s num.toNat data hs hn hHidden
    rw [hVga, hVt]
    exact ⟨fun _ h => absurd h hShown, fun _ => hSynced.2⟩

end Runs

/-- Before `vt_init`: the terminals are zero, and the screen memory is arbitrary. -/
def powerOn (vga : Nat → UInt16) (cursor : Nat) : Screen where
  vts := fun _ => ⟨fun _ => 0, 0, 0, 0, .normal, 0, 0, false⟩
  activeVtIdx := 0
  vgaBuffer := vga
  vgaCursor := cursor

theorem active_vtFresh {v : Vt} {n : Nat} : (vtFresh v n).active = (n == 0) := by
  simp only [vtFresh, vtClear]

theorem inRange_vtFresh {v : Vt} {n : Nat} : (vtFresh v n).InRange := by
  exact ⟨(by decide : 0 < vgaWidth), (by decide : 0 < vgaHeight)⟩

theorem vts_vtInit_loop (s : Screen) (m n : Nat) :
    ((List.range m).foldl (fun s i => s.setVt i (vtFresh (s.vts i) i)) s).vts n =
      if n < m then vtFresh (s.vts n) n else s.vts n := by
  induction m with
  | zero => rfl
  | succ m ih =>
    rw [List.range_succ, List.foldl_append, List.foldl_cons, List.foldl_nil]
    by_cases hEq : n = m
    · subst hEq
      rw [vts_setVt, ih, if_neg (Nat.lt_irrefl n), if_pos (Nat.lt_succ_self n)]
    · have hLt : n < m ↔ n < m + 1 := by omega
      rw [vts_setVt_of_ne hEq, ih]
      simp only [hLt]

theorem activeVtIdx_vtInit_loop (s : Screen) (m : Nat) :
    ((List.range m).foldl (fun s i => s.setVt i (vtFresh (s.vts i) i)) s).activeVtIdx =
      s.activeVtIdx := by
  induction m with
  | zero => rfl
  | succ m ih => rw [List.range_succ, List.foldl_append, List.foldl_cons, List.foldl_nil,
      activeVtIdx_setVt, ih]

theorem vtInit_ordered (vga : Nat → UInt16) (cursor : Nat) :
    (vtInit (powerOn vga cursor)).Ordered ∧ (vtInit (powerOn vga cursor)).Synced := by
  have hVts : ∀ n < maxVts, (vtInit (powerOn vga cursor)).vts n =
      vtFresh ((powerOn vga cursor).vts n) n := fun n hn =>
    (vts_vtInit_loop (powerOn vga cursor) maxVts n).trans (if_pos hn)
  have hIndex : (vtInit (powerOn vga cursor)).activeVtIdx = 0 :=
    activeVtIdx_vtInit_loop (powerOn vga cursor) maxVts
  have hOrdered : (vtInit (powerOn vga cursor)).Ordered := by
    refine ⟨by rw [hIndex]; decide, fun n hn => ?_, fun n hn => ?_⟩
    · rw [hVts n hn, hIndex, active_vtFresh, beq_iff_eq]
    · rw [hVts n hn]
      exact inRange_vtFresh
  refine ⟨hOrdered, hOrdered.synced_iff.mpr fun i hi => ?_⟩
  exact vgaBlit_apply hi

/-- The screen shows the active terminal after every call exactly if no call ends with a
cell erased by a backspace that the screen still shows. -/
theorem screen_synced_iff_tidy (vga : Nat → UInt16) (cursor : Nat) (calls : List VtCall) :
    (vtInit (powerOn vga cursor)).Synced ∧
      (EachStep vtStep (fun s call => (vtStep s call).Synced) (vtInit (powerOn vga cursor)) calls ↔
        EachStep vtStep (fun s call => call.Tidy s) (vtInit (powerOn vga cursor)) calls) := by
  obtain ⟨hOrdered, hSynced⟩ := vtInit_ordered vga cursor
  have hIff : ∀ s call, s.Ordered ∧ s.Synced → True → ((vtStep s call).Synced ↔ call.Tidy s) := by
    rintro s (⟨num, data⟩ | num) ⟨hs, hShown⟩ _
    · exact hs.write_synced_iff hShown num
    · exact ⟨fun _ => trivial, fun _ => (hs.switch num).2 hShown⟩
  have hStep : ∀ s call, s.Ordered ∧ s.Synced → True → call.Tidy s →
      (vtStep s call).Ordered ∧ (vtStep s call).Synced := by
    intro s call hs _ hTidy
    refine ⟨?_, (hIff s call hs trivial).mpr hTidy⟩
    cases call with
    | write num data => exact hs.1.write num
    | switch num => exact (hs.1.switch num).1
  exact ⟨hSynced, eachStep_iff hIff hStep ⟨hOrdered, hSynced⟩
    (eachStep_of_all (fun _ _ => trivial) _ _)⟩

/-- The text `a` and a backspace on the first terminal: the buffer is blank again, and the
screen still shows the letter. -/
theorem screen_not_synced_after_backspace :
    ¬(vtStep (vtInit (powerOn (fun _ => 0) 0)) (.write 0 [97, 8])).Synced := by
  intro h
  have hCell := h.2 0 (by decide)
  exact absurd hCell (by decide +kernel)

end Kryos.Fs
