import Mathlib

/-!
# The terminal screen (`kernel/term.c`)

The text of the terminal stands in a circular buffer of `depth` lines, of
which `height` are on the screen, from `view` on. Positions and lengths are
`uint8_t`: what is stored in one is taken modulo 256, and the counter of a
loop wraps.

An access outside of `output` or `attrib` is the fault `outside`, and a loop
that uses up its fuel the fault `fuel`. `term_draw_paint` gives what it passes
to `video_draw_text`, with indices into the palette for the colours. Tab
stops, the input buffer and the escape sequences are left out.
-/

namespace Sdfirm.Term

abbrev Byte := BitVec 8

inductive Fault where
  | outside
  | fuel
  deriving DecidableEq, Repr

abbrev Res := Except Fault

/-- `struct terminal`, as far as the screen uses it. -/
structure Terminal where
  output : Nat → Byte
  attrib : Nat → BitVec 32
  top : Nat
  bottom : Nat
  depth : Nat
  screen : Nat
  width : Nat
  height : Nat
  view : Nat
  marginTop : Nat
  marginBottom : Nat
  x : Nat
  y : Nat
  savedX : Nat
  savedY : Nat
  blinking : Bool
  wrapPending : Bool
  invalid : Bool
  invWidth : Nat
  invHeight : Nat
  invX : Nat
  invY : Nat

variable (t : Terminal)

/-- `TRM_ATTRIB_DEFAULT` -/
def trmAttribDefault : BitVec 32 := 256 ||| 258 <<< 9

/-- A difference that is stored in a `uint8_t`. -/
def sub8 (a b : Nat) : Nat := (a + 256 - b) % 256

/-- `for (; i < bound; i++)`, with a counter of type `term_pos_t`. -/
def loop (bound : Terminal → Nat) (body : Nat → Terminal → Res Terminal) : Nat → Nat → Terminal → Res Terminal
  | 0, _, _ => .error .fuel
  | fuel + 1, i, t => if i < bound t then body i t >>= loop bound body fuel ((i + 1) % 256) else .ok t

/-! ## Cells -/

/-- `term_get_index_by_Y`. -/
def getIndexByY (y : Nat) : Nat := if t.depth ≤ t.view + y then t.view + y - t.depth else t.view + y

/-- `term_get_index_by_XY`. -/
def getIndexByXY (x y : Nat) : Nat := getIndexByY t y * (t.width + x)

/-- The offset in the four functions that access a cell. -/
def cell (x y : Nat) : Nat := getIndexByY t y * t.width + x

/-- `TRM_OUTPUT_SIZE` -/
def outputSize : Nat := t.depth * t.width

/-- `TRM_ATTRIB_SIZE`: the number of entries is a number of bytes. -/
def attribSize : Nat := t.depth * t.width * 4

def readOutput (i : Nat) : Res Byte := if i < outputSize t then .ok (t.output i) else .error .outside

def readAttrib (i : Nat) : Res (BitVec 32) := if i < attribSize t then .ok (t.attrib i) else .error .outside

def writeOutput (i : Nat) (c : Byte) : Res Terminal :=
  if i < outputSize t then .ok { t with output := Function.update t.output i c } else .error .outside

def writeAttrib (i : Nat) (a : BitVec 32) : Res Terminal :=
  if i < attribSize t then .ok { t with attrib := Function.update t.attrib i a } else .error .outside

/-- `term_get_text_at`. -/
def getTextAt (x y : Nat) : Res Byte := readOutput t (cell t x y)

/-- `term_set_text_at`. -/
def setTextAt (x y : Nat) (output : Byte) : Res Terminal := writeOutput t (cell t x y) output

/-- `term_get_attr_at`. -/
def getAttrAt (x y : Nat) : Res (BitVec 32) := readAttrib t (cell t x y)

/-- `term_set_attr_at`. -/
def setAttrAt (x y : Nat) (attrib : BitVec 32) : Res Terminal := writeAttrib t (cell t x y) attrib

/-! ## Lines -/

/-- `term_slot_lines`. -/
def slotLines (top bottom : Nat) : Nat := if bottom < top then bottom + t.depth - top else bottom - top

/-- `term_screen_lines`. -/
def screenLines : Nat := slotLines t t.screen t.bottom

/-- `term_init_buffer_line`. -/
def initBufferLine (fuel : Nat) (line : Nat) (t : Terminal) : Res Terminal :=
  loop (fun _ => t.width + line * t.width)
    (fun i t => do
      let t ← writeOutput t i 0x20
      writeAttrib t i trmAttribDefault)
    fuel (line * t.width % 256) t

/-- `term_del_top_buffer_line`. -/
def delTopBufferLine (fuel : Nat) : Res Terminal :=
  if t.bottom = t.top then .ok t
  else
    let t := { t with top := (t.top + 1) % t.depth }
    initBufferLine fuel t.top t

/-- `term_get_new_buffer_line`. -/
def getNewBufferLine (fuel : Nat) : Res Terminal :=
  let scrLines := screenLines t
  if t.y < scrLines then .ok t
  else do
    let t ← if (t.bottom + 1) % t.depth = t.top then delTopBufferLine t fuel else .ok t
    let t := { t with bottom := (t.bottom + (t.y - scrLines + 1)) % t.depth }
    initBufferLine fuel t.bottom t

/-- `term_scroll_up`. -/
def scrollUp (lines : Nat) : Terminal :=
  { t with view := (t.view + t.depth - min lines (slotLines t t.top t.view)) % t.depth }

/-- `term_scroll_down`. -/
def scrollDown (lines : Nat) : Terminal :=
  { t with view := (t.view + min lines (t.depth - slotLines t t.top t.view - 1)) % t.depth }

/-! ## Drawing -/

/-- `term_draw_invalid`. -/
def drawInvalid (x y w h : Nat) : Terminal :=
  if t.invalid then
    let invX := min x t.invX
    let invY := min y t.invY
    { t with
      invX, invY,
      invWidth := sub8 (max ((x + w) % 256) ((t.invX + t.invWidth) % 256)) invX
      invHeight := sub8 (max ((y + h) % 256) ((t.invY + t.invHeight) % 256)) invY }
  else { t with invX := x, invY := y, invWidth := w, invHeight := h, invalid := true }

/-- A call of `video_draw_text`: the position, the place of the text in `output` and its length,
with the colours and the underline set before. -/
structure Draw where
  x : Nat
  y : Nat
  index : Nat
  len : Nat
  fg : Nat
  bg : Nat
  underline : Bool
  deriving DecidableEq, Repr

/-- `nfg` and `nbg`. -/
def colours (attrib : BitVec 32) : Nat × Nat :=
  let nfg := (attrib &&& 0x1FF).toNat
  let nbg := ((attrib &&& 0x3FE00) >>> 9).toNat
  let (nfg, nbg) := if attrib.getLsbD 20 then (nbg, nfg) else (nfg, nbg)
  let nfg := if attrib.getLsbD 21 && t.blinking then nbg else nfg
  (if attrib.getLsbD 18 then if nfg = 256 ∨ nfg = 258 then nfg + 1 else nfg + 8 else nfg, nbg)

/-- The loop of `term_draw_paint` for the cells that are drawn with the one before. -/
def runLength (attrib : BitVec 32) (right y : Nat) : Nat → Nat → Nat → Res Nat
  | 0, _, _ => .error .fuel
  | fuel + 1, i, len =>
    if i ≤ right then do
      if (← getAttrAt t i y) ≠ attrib then return len
      if (← getTextAt t i y) = 0 then return len
      runLength attrib right y fuel ((i + 1) % 256) ((len + 1) % 256)
    else return len

/-- The loop of `term_draw_paint` over a row. -/
def paintRow (right y : Nat) : Nat → Nat → Res (List Draw)
  | 0, _ => .error .fuel
  | fuel + 1, x =>
    if x ≤ right then do
      let text ← getTextAt t x y
      let attrib ← getAttrAt t x y
      if text = 0 then paintRow right y fuel ((x + 1) % 256)
      else
        let len ← runLength t attrib right y fuel ((x + 1) % 256) 1
        let draws ← paintRow right y fuel ((x + len) % 256)
        let (fg, bg) := colours t attrib
        return ⟨x, y, getIndexByXY t x y, len, fg, bg, attrib.getLsbD 19⟩ :: draws
    else return []

/-- The loop of `term_draw_paint` over the rows. -/
def paintRows (rowFuel left right bottom : Nat) : Nat → Nat → Res (List Draw)
  | 0, _ => .error .fuel
  | fuel + 1, y =>
    if y ≤ bottom then do
      let draws ← paintRow t right y rowFuel left
      return draws ++ (← paintRows rowFuel left right bottom fuel ((y + 1) % 256))
    else return []

/-- `bottom` and `right` of `term_draw_paint`. -/
def lastPos (start len size : Nat) : Nat := min (sub8 (start + len) 1) (size - 1)

/-- `term_draw_paint`. -/
def drawPaint (fuel : Nat) : Res (List Draw) :=
  paintRows t fuel t.invX (lastPos t.invX t.invWidth t.width) (lastPos t.invY t.invHeight t.height) fuel t.invY

/-! ## Erasing -/

/-- The body of the loops that erase cells. -/
def eraseCell (x y : Nat) : Res Terminal := do
  let t ← setTextAt t x y 0
  setAttrAt t x y trmAttribDefault

/-- `term_erase_line`. -/
def eraseLine (fuel line : Nat) (t : Terminal) : Res Terminal := do
  let line := if t.height - 1 < line then t.height - 1 else line
  let t ← loop Terminal.width (fun i t => eraseCell t i line) fuel t.x t
  return drawInvalid t t.x t.y t.width 1

/-- `term_erase_to_EOS_line`. -/
def eraseToEosLine (fuel y : Nat) (t : Terminal) : Res Terminal := do
  let t ← getNewBufferLine t fuel
  let t ← eraseLine fuel y t
  return drawInvalid t t.x y t.width ((y + 1) % 256)

/-- `term_erase_to_EOL`. -/
def eraseToEol (fuel : Nat) : Res Terminal := do
  let t ← loop Terminal.width (fun i t => eraseCell t i t.y) fuel t.x t
  return drawInvalid t t.x t.y ((t.width - t.x + 1) % 256) 1

/-- `term_erase_to_BOL`. -/
def eraseToBol (fuel : Nat) : Res Terminal := do
  let t ← loop Terminal.x (fun i t => eraseCell t i t.y) fuel 0 t
  return drawInvalid t t.x t.y ((t.x + 1) % 256) 1

/-- `term_erase_to_pos`. -/
def eraseToPos (fuel : Nat) : Res Terminal := loop Terminal.y (eraseLine fuel) fuel 0 t

/-- `term_erase_to_EOS`. -/
def eraseToEos (fuel : Nat) : Res Terminal := loop Terminal.height (eraseToEosLine fuel) fuel t.y t

/-- `term_erase_screen`. -/
def eraseScreen (fuel : Nat) : Res Terminal := do
  let t ← eraseToPos t fuel
  eraseToEos t fuel

/-! ## The cursor -/

/-- `term_screen_recalc`. -/
def screenRecalc : Terminal := { t with y := min t.y (t.height - 1), x := min t.x (t.width - 1) }

/-- What the functions that move the cursor do around the move. -/
def moveCursor (move : Terminal → Terminal) : Terminal :=
  let t := move (drawInvalid { t with wrapPending := false } t.x t.y 1 1)
  let t := screenRecalc t
  drawInvalid t t.x t.y 1 1

/-- `term_cursor_up`. -/
def cursorUp (len : Nat) : Terminal := moveCursor t fun t => { t with y := max (sub8 t.y len) t.marginTop }

/-- `term_cursor_down`. -/
def cursorDown (len : Nat) : Terminal := moveCursor t fun t => { t with y := min ((t.y + len) % 256) t.marginBottom }

/-- `term_cursor_right`. -/
def cursorRight (len : Nat) : Terminal := moveCursor t fun t => { t with x := (t.x + len) % 256 }

/-- `term_cursor_left`. -/
def cursorLeft (len : Nat) : Terminal := moveCursor t fun t => { t with x := sub8 t.x len }

/-- `term_cursor_pos`. -/
def cursorPos (y x : Nat) : Terminal := moveCursor t fun t => { t with y := sub8 y 1, x := sub8 x 1 }

/-- `term_cursor_save`. -/
def cursorSave : Terminal := { t with savedX := t.x, savedY := t.y }

/-- `term_cursor_restore`. -/
def cursorRestore : Terminal := { t with x := t.savedX, y := t.savedY }

/-- `term_screen_init`, for the defaults `TRM_DEFAULT_WIDTH`, `TRM_DEFAULT_HEIGHT` and
`TRM_DEFAULT_DEPTH`. -/
def screenInit (fuel width height depth : Nat) (t : Terminal) : Res Terminal := do
  let t := { t with x := 0, y := 0, width, height, depth, top := 0, bottom := 0, screen := 0, view := 0 }
  let t ← initBufferLine fuel t.bottom t
  return { t with blinking := true, marginTop := 0, marginBottom := t.height - 1, wrapPending := true }

end Sdfirm.Term
