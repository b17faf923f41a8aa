import Mathlib

/-!
# Bitmaps (`lib/bitops.c`)

A bitmap is an array of words of `BITS_PER_UNIT` bits (`unit`). The words are
natural numbers, and the array is a function from the index of a word. The
loops of the two searches carry a bound on their repetitions; `size` is
enough, since each one takes at least one bit off `size`.
-/

namespace Sdfirm.Bitops

/-- The words of a bitmap. -/
abbrev Bitmap := Nat → Nat

/-- The values `BITS_PER_UNIT` can have. -/
def UnitBits (unit : Nat) : Prop := unit = 8 ∨ unit = 16 ∨ unit = 32 ∨ unit = 64

theorem unitBits_eight : UnitBits 8 := .inl rfl

variable (unit : Nat)

/-- `BITOP_MASK`. -/
def bitopMask (nr : Nat) : Nat := 1 <<< (nr % unit)

/-- `BITOP_WORD`. -/
def bitopWord (nr : Nat) : Nat := nr / unit

/-- `(bits_t)~0`. -/
def allOnes : Nat := 2 ^ unit - 1

def setBit (nr : Nat) (addr : Bitmap) : Bitmap :=
  Function.update addr (bitopWord unit nr) (addr (bitopWord unit nr) ||| bitopMask unit nr)

def clearBit (nr : Nat) (addr : Bitmap) : Bitmap :=
  Function.update addr (bitopWord unit nr)
    (addr (bitopWord unit nr) &&& (allOnes unit ^^^ bitopMask unit nr))

def testBit (nr : Nat) (addr : Bitmap) : Bool := (addr (bitopWord unit nr)).testBit (nr % unit)

/-- The body shared by `__ffs8` to `__ffs64`: for each width in turn, low bits that are all
zero are counted and shifted out. -/
def ffsBy : List Nat → Nat → Nat
  | [], _ => 0
  | k :: ks, word => if word % 2 ^ k = 0 then k + ffsBy ks (word >>> k) else ffsBy ks word

def ffs8 (byte : Nat) : Nat := if byte = 0 then 0 else ffsBy [4, 2, 1] byte

def ffs16 (word : Nat) : Nat := if word = 0 then 0 else ffsBy [8, 4, 2, 1] word

def ffs32 (dword : Nat) : Nat := if dword = 0 then 0 else ffsBy [16, 8, 4, 2, 1] dword

def ffs64 (qword : Nat) : Nat := if qword = 0 then 0 else ffsBy [32, 16, 8, 4, 2, 1] qword

/-- The body of `__fls64`: for each width in turn, high bits that are all zero are shifted out and taken off `num`. -/
def flsBy : List Nat → Nat → Nat → Nat
  | [], _, num => num
  | k :: ks, quad, num =>
    if quad >>> (64 - k) = 0 then flsBy ks (quad <<< k % 2 ^ 64) (num - k) else flsBy ks quad num

def fls64 (quad : Nat) : Nat := if quad = 0 then 0 else flsBy [32, 16, 8, 4, 2, 1] quad 63

/-- `__ffs_unit`. -/
def ffsUnit (word : Nat) : Nat :=
  if unit = 64 then ffs64 word
  else if unit = 32 then ffs32 word
  else if unit = 16 then ffs16 word
  else ffs8 word

/-- `find_next_set_bit` from the label `found_first` on. -/
def foundFirst (size result tmp : Nat) : Nat :=
  let tmp := tmp &&& (allOnes unit >>> (unit - size))
  if tmp = 0 then result + size else result + ffsUnit unit tmp

/-- `find_next_set_bit` from its `while` on, at the word `p`. -/
def findLoop (addr : Bitmap) : (fuel p size result : Nat) → Nat
  | 0, _, _, result => result
  | fuel + 1, p, size, result =>
    if unit ≤ size then
      if addr p ≠ 0 then result + ffsUnit unit (addr p)
      else findLoop addr fuel (p + 1) (size - unit) (result + unit)
    else if size = 0 then result
    else foundFirst unit size result (addr p)

def findNextSetBit (addr : Bitmap) (size offset : Nat) : Nat :=
  let p := bitopWord unit offset
  let result := offset / unit * unit
  if size ≤ offset then size
  else
    let size := size - result
    let offset := offset % unit
    if offset ≠ 0 then
      let tmp := addr p &&& ((allOnes unit <<< offset) % 2 ^ unit)
      if size < unit then foundFirst unit size result tmp
      else if tmp ≠ 0 then result + ffsUnit unit tmp
      else findLoop unit addr size (p + 1) (size - unit) (result + unit)
    else findLoop unit addr (size + 1) p size result

/-- `(bits_t)~word`. -/
def complement (word : Nat) : Nat := allOnes unit ^^^ word

/-- `__ffz_unit`. -/
def ffzUnit (word : Nat) : Nat := ffsUnit unit (complement unit word)

/-- `find_next_clear_bit` from the label `found_first` on. -/
def foundFirstClear (size result tmp : Nat) : Nat :=
  let tmp := tmp ||| (allOnes unit <<< size) % 2 ^ unit
  if tmp = allOnes unit then result + size else result + ffzUnit unit tmp

/-- `find_next_clear_bit` from its `while` on, at the word `p`. -/
def findLoopClear (addr : Bitmap) : (fuel p size result : Nat) → Nat
  | 0, _, _, result => result
  | fuel + 1, p, size, result =>
    if unit ≤ size then
      if complement unit (addr p) ≠ 0 then result + ffzUnit unit (addr p)
      else findLoopClear addr fuel (p + 1) (size - unit) (result + unit)
    else if size = 0 then result
    else foundFirstClear unit size result (addr p)

def findNextClearBit (addr : Bitmap) (size offset : Nat) : Nat :=
  let p := bitopWord unit offset
  let result := offset / unit * unit
  if size ≤ offset then size
  else
    let size := size - result
    let offset := offset % unit
    if offset ≠ 0 then
      let tmp := addr p ||| allOnes unit >>> (unit - offset)
      if size < unit then foundFirstClear unit size result tmp
      else if complement unit tmp ≠ 0 then result + ffzUnit unit tmp
      else findLoopClear unit addr size (p + 1) (size - unit) (result + unit)
    else findLoopClear unit addr (size + 1) p size result

end Sdfirm.Bitops
