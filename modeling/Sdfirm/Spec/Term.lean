import Sdfirm.Impl.Term
import Sdfirm.Proof.Framework.Runs

/-!
# What the terminal screen is for

A terminal of any geometry takes any operations. `Sound` is what should hold
of it afterwards. The operations that name a cell are `OnScreen` when there is
such a cell; the others take any argument. A text drawn by `term_draw_paint`
is `Aligned` when it starts in the first column, or in the second line of the
buffer.
-/

namespace Sdfirm.Term

/-- The sizes of a terminal. -/
structure Geometry where
  width : Nat
  height : Nat
  depth : Nat
  height_pos : 0 < height
  height_le : height ≤ depth
  width_lt : width < 256
  depth_lt : depth < 256

/-- The operations, with their arguments. -/
inductive Op where
  | cursorUp (len : Byte)
  | cursorDown (len : Byte)
  | cursorRight (len : Byte)
  | cursorLeft (len : Byte)
  | cursorPos (y x : Byte)
  | cursorSave
  | cursorRestore
  | scrollUp (lines : Byte)
  | scrollDown (lines : Byte)
  | getNewBufferLine
  | delTopBufferLine
  | eraseToEosLine (y : Byte)
  | eraseToEol
  | eraseToBol
  | eraseToPos
  | eraseToEos
  | eraseLine (line : Byte)
  | eraseScreen
  | setTextAt (x y output : Byte)
  | setAttrAt (x y : Byte) (attrib : BitVec 32)

def step (fuel : Nat) (t : Terminal) : Op → Res Terminal
  | .cursorUp len => .ok (cursorUp t len.toNat)
  | .cursorDown len => .ok (cursorDown t len.toNat)
  | .cursorRight len => .ok (cursorRight t len.toNat)
  | .cursorLeft len => .ok (cursorLeft t len.toNat)
  | .cursorPos y x => .ok (cursorPos t y.toNat x.toNat)
  | .cursorSave => .ok (cursorSave t)
  | .cursorRestore => .ok (cursorRestore t)
  | .scrollUp lines => .ok (scrollUp t lines.toNat)
  | .scrollDown lines => .ok (scrollDown t lines.toNat)
  | .getNewBufferLine => getNewBufferLine t fuel
  | .delTopBufferLine => delTopBufferLine t fuel
  | .eraseToEosLine y => eraseToEosLine fuel y.toNat t
  | .eraseToEol => eraseToEol t fuel
  | .eraseToBol => eraseToBol t fuel
  | .eraseToPos => eraseToPos t fuel
  | .eraseToEos => eraseToEos t fuel
  | .eraseLine line => eraseLine fuel line.toNat t
  | .eraseScreen => eraseScreen t fuel
  | .setTextAt x y output => setTextAt t x.toNat y.toNat output
  | .setAttrAt x y attrib => setAttrAt t x.toNat y.toNat attrib

/-- The global `term_info` before `term_init`. -/
def zeroed : Terminal :=
  ⟨fun _ => 0, fun _ => 0, 0, 0, 0, 0, 0, 0, 0, 0, 0, 0, 0, 0, 0, false, false, false, 0, 0, 0, 0⟩

/-- `term_screen_init`, and the operations after it. -/
def run (fuel : Nat) (g : Geometry) (ops : List Op) : Res Terminal := do
  let t ← screenInit fuel g.width g.height g.depth zeroed
  ops.foldlM (step fuel) t

/-- An operation on a cell is on one of the screen. -/
def Op.OnScreen (g : Geometry) : Op → Prop
  | .setTextAt x y _ => x.toNat < g.width ∧ y.toNat < g.height
  | .setAttrAt x y _ => x.toNat < g.width ∧ y.toNat < g.height
  | _ => True

/-- A cell of the screen reads back what is written to it, and the others what they read before. -/
structure ReadsBack (g : Geometry) (t : Terminal) : Prop where
  text : ∀ x < g.width, ∀ y < g.height, ∀ c, ∃ t', setTextAt t x y c = .ok t' ∧
    (∀ x' < g.width, ∀ y' < g.height, getTextAt t' x' y' = if x' = x ∧ y' = y then .ok c else getTextAt t x' y') ∧
    ∀ x' y', getAttrAt t' x' y' = getAttrAt t x' y'
  attr : ∀ x < g.width, ∀ y < g.height, ∀ a, ∃ t', setAttrAt t x y a = .ok t' ∧
    (∀ x' < g.width, ∀ y' < g.height, getAttrAt t' x' y' = if x' = x ∧ y' = y then .ok a else getAttrAt t x' y') ∧
    ∀ x' y', getTextAt t' x' y' = getTextAt t x' y'

/-- What is drawn for the positions of the text is what is stored there. -/
def Faithful (t : Terminal) (d : Draw) : Prop := ∀ k < d.len, readOutput t (d.index + k) = getTextAt t (d.x + k) d.y

/-- The text starts in the first column or in the second line of the buffer. -/
def Aligned (t : Terminal) (d : Draw) : Prop := d.x = 0 ∨ getIndexByY t d.y = 1

/-- `term_draw_paint` returns, draws what has a text, and draws it as it is stored if it has `P`. -/
def Paints (P : Draw → Prop) (t : Terminal) : Prop := ∃ fuel ds, drawPaint t fuel = .ok ds ∧ (∀ d ∈ ds, P d → Faithful t d) ∧
  ∀ y, t.invY ≤ y → y ≤ lastPos t.invY t.invHeight t.height →
    ∀ x, t.invX ≤ x → x ≤ lastPos t.invX t.invWidth t.width → getTextAt t x y ≠ .ok 0 →
      ∃ d ∈ ds, d.y = y ∧ d.x ≤ x ∧ x < d.x + d.len

/-- What should hold of a terminal, but for the texts that do not have `P`. -/
structure Sound (P : Terminal → Draw → Prop) (g : Geometry) (t : Terminal) : Prop where
  top : t.top < g.depth
  bottom : t.bottom < g.depth
  view : t.view < g.depth
  x : t.x < g.width
  y : t.y < g.height
  readsBack : ReadsBack g t
  paints : Paints (P t) t

/-- The lines of the buffer that come to be allocated. -/
def Geometry.lines (g : Geometry) : Nat := min (g.height + 1) g.depth

/-- Every allocated line ends below position 256 of the buffer. -/
def Geometry.Low (g : Geometry) : Prop := g.width * g.lines < 256

instance (g : Geometry) : Decidable g.Low := inferInstanceAs (Decidable (_ < _))

end Sdfirm.Term
