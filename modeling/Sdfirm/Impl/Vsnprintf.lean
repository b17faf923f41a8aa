import Mathlib

/-!
# Formatted output (`lib/vsnprintf.c`)

`vsnprintf` on an LP64 target, without `CONFIG_PRINT_FP`. The output goes to `put`, which
is `bound_string_output` for a buffer. A string is the list of its characters before the
NUL: `cur` reads it, and `next` steps to the next character, which is `none` beyond the
NUL. What `va_arg` gives for an argument is given for each type it can be read as.
Widths and precisions are integers once they have been read, and neither `string + size` nor the position
overflows. A loop that counts down is
given by how often it outputs a character and by the counter after it.
-/

namespace Sdfirm.Vsnprintf

/-! ## Strings -/

/-- `*format`. -/
def cur : List Char → Char
  | [] => '\x00'
  | c :: _ => c

/-- `++format`. -/
def next : List Char → Option (List Char)
  | [] => none
  | _ :: l => some l

/-- What `va_arg` gives, read as an `int`, as a `long`, as a string or `NULL`, and as a pointer. -/
structure Arg where
  int : BitVec 32
  long : BitVec 64
  str : Option (List Char)
  ptr : BitVec 64

/-- The bits of `type`. -/
structure Flags where
  sign : Bool
  plus : Bool
  space : Bool
  zeropad : Bool
  left : Bool
  large : Bool
  special : Bool
deriving DecidableEq

def Flags.none : Flags := ⟨false, false, false, false, false, false, false⟩

/-! ## Output -/

section

variable {σ : Type} (put : σ → Char → σ)

/-- `n` times the character `c`. -/
def putTimes (c : Char) : Nat → σ → σ
  | 0, s => s
  | n + 1, s => putTimes c n (put s c)

def putAll : List Char → σ → σ
  | [], s => s
  | c :: l, s => putAll l (put s c)

/-- `while (--width >= 0)`. -/
def padDown (c : Char) (width : Int) (s : σ) : Int × σ :=
  (if 0 ≤ width then -1 else width - 1, putTimes put c width.toNat s)

/-- `while (--width > 0)`. -/
def padChar (width : Int) (s : σ) : Int × σ :=
  (if 1 ≤ width then 0 else width - 1, putTimes put ' ' (width - 1).toNat s)

/-- `while (length < width--)`. -/
def padString (length width : Int) (s : σ) : Int × σ :=
  (min width length - 1, putTimes put ' ' (width - length).toNat s)

/-! ## Numbers -/

/-- The loop of `put_number`, which has at most 64 digits to put. -/
def putDigits (base : Nat) : (fuel number : Nat) → List Nat
  | 0, _ => []
  | fuel + 1, number => if number = 0 then [] else number % base :: putDigits base fuel (number / base)

/-- `digits[i]`. -/
def digitChar (upper : Bool) (i : Nat) : Char :=
  if i < 10 then Char.ofNat ('0'.toNat + i) else Char.ofNat ((if upper then 'A' else 'a').toNat + (i - 10))

/-- `put_number`: the digits, the lowest first. -/
def putNumber (number : BitVec 64) (base : Nat) (upper : Bool) : List Char :=
  if number = 0 then ['0'] else (putDigits base 64 number.toNat).map (digitChar upper)

/-- The sign, what is left to be put, and the width for it. -/
def takeSign (type : Flags) (number : BitVec 64) (width : Int) : Option Char × BitVec 64 × Int :=
  if type.sign then
    if number.toInt < 0 then (some '-', -number, width - 1)
    else if type.plus then (some '+', number, width - 1)
    else if type.space then (some ' ', number, width - 1)
    else (none, number, width)
  else (none, number, width)

/-- `format_number`, with a base that it accepts. -/
def formatNumber (s : σ) (number : BitVec 64) (base : Nat) (width precision : Int) (type : Flags) : σ :=
  let type := if type.left then { type with zeropad := false } else type
  let needPrefix := type.special && base ≠ 10
  let zero := if type.zeropad then '0' else ' '
  let (sign, number, width) := takeSign type number width
  let width := if needPrefix then (if base = 16 then width - 2 else width - 1) else width
  let reversed := putNumber number base type.large
  let precision := if precision < reversed.length then (reversed.length : Int) else precision
  let width := width - precision
  let (width, s) := if type.zeropad || type.left then (width, s) else padDown put ' ' width s
  let s := putAll put sign.toList s
  let s :=
    if needPrefix then putAll put ('0' :: if base = 16 then [if type.large then 'X' else 'x'] else []) s else s
  let (width, s) := if type.left then (width, s) else padDown put zero width s
  let s := putTimes put '0' (precision - reversed.length).toNat s
  let s := putAll put reversed.reverse s
  (padDown put ' ' width s).2

end

/-! ## Directives -/

/-- `isdigit`. -/
def isdigit (c : Char) : Bool := '0' ≤ c && c ≤ '9'

/-- The loop over the flags. -/
def scanFlags : List Char → Flags → Flags × List Char
  | [], type => (type, [])
  | c :: format, type =>
    if c = '#' then scanFlags format { type with special := true }
    else if c = '0' then scanFlags format { type with zeropad := true }
    else if c = '+' then scanFlags format { type with plus := true }
    else if c = ' ' then scanFlags format { type with space := true }
    else if c = '-' then scanFlags format { type with left := true }
    else (type, c :: format)

/-- `scan_number`. -/
def scanNumber : List Char → BitVec 64 → BitVec 64 × List Char
  | [], number => (number, [])
  | c :: format, number =>
    if isdigit c then scanNumber format (number * 10 + .ofNat 64 (c.toNat - '0'.toNat)) else (number, c :: format)

/-- `(int32_t)number`. -/
def toInt32 (number : BitVec 64) : Int := (number.setWidth 32).toInt

/-- `qualifier`, where `ll` is `L`. -/
inductive Qualifier
  | none
  | h
  | l
  | L
deriving DecidableEq

/-- What stands between `%` and the conversion: the flags, the numbers and the qualifier, with `format` at the conversion
and the number of arguments read. -/
structure Directive where
  type : Flags
  width : Int
  precision : Int
  qualifier : Qualifier
  format : List Char
  read : Nat

section

variable (args : Nat → Arg)

def scanWidth (type : Flags) (format : List Char) (read : Nat) : Option (Flags × Int × List Char × Nat) :=
  if isdigit (cur format) then
    let (number, format) := scanNumber format 0
    some (type, toInt32 number, format, read)
  else if cur format = '*' then do
    let format ← next format
    let width := (args read).int.toInt
    if width < 0 then some ({ type with left := true }, -width, format, read + 1) else some (type, width, format, read + 1)
  else some (type, -1, format, read)

def scanPrecision (format : List Char) (read : Nat) : Option (Int × List Char × Nat) :=
  if cur format = '.' then do
    let format ← next format
    let (precision, format, read) ←
      if isdigit (cur format) then
        let (number, format) := scanNumber format 0
        some (toInt32 number, format, read)
      else if cur format = '*' then do
        let format ← next format
        some ((args read).int.toInt, format, read + 1)
      else some (-1, format, read)
    some (if precision < 0 then 0 else precision, format, read)
  else some (-1, format, read)

def scanQualifier (format : List Char) : Option (Qualifier × List Char) :=
  if cur format = 'h' then (next format).map (Qualifier.h, ·)
  else if cur format = 'L' then (next format).map (Qualifier.L, ·)
  else if cur format = 'l' then do
    let format ← next format
    if cur format = 'l' then (next format).map (Qualifier.L, ·) else some (.l, format)
  else some (.none, format)

/-- The directive after a `%`. -/
def scanDirective (format : List Char) (read : Nat) : Option Directive := do
  let (type, format) := scanFlags format .none
  let (type, width, format, read) ← scanWidth args type format read
  let (precision, format, read) ← scanPrecision args format read
  let (qualifier, format) ← scanQualifier format
  some ⟨type, width, precision, qualifier, format, read⟩

/-- The number that is formatted, of an argument and the `SIGN` flag. -/
def number (q : Qualifier) (sign : Bool) (a : Arg) : BitVec 64 :=
  match q with
  | .L => a.long
  | .l => if sign then (a.long.setWidth 32).signExtend 64 else a.long
  | .h =>
    let number : BitVec 64 := (a.int.setWidth 16).setWidth 64
    if sign then (number.setWidth 16).signExtend 64 else number
  | .none => if sign then a.int.signExtend 64 else a.int.setWidth 64

/-- `(int32_t)bound_string_length(s, precision)`, for which -1 is the largest `size_t`. -/
def boundStringLength (str : List Char) (precision : Int) : Int :=
  (BitVec.ofNat 32 (if precision < 0 then str.length else min str.length precision.toNat)).toInt

variable {σ : Type} (put : σ → Char → σ)

/-- A conversion to a number: the base, and `type` with what the conversion adds. -/
def numberBase (c : Char) (type : Flags) : Option (Nat × Flags) :=
  if c = 'o' then some (8, type)
  else if c = 'X' then some (16, { type with large := true })
  else if c = 'x' then some (16, type)
  else if c = 'd' || c = 'i' then some (10, { type with sign := true })
  else if c = 'u' then some (10, type)
  else none

/-- The conversion of a directive: the state, and `format` and the arguments read before the next repetition of the loop. -/
def convert (d : Directive) (s : σ) : Option (σ × List Char × Nat) :=
  let c := cur d.format
  let a := args d.read
  if c = '%' then do some (put s '%', ← next d.format, d.read)
  else if c = 'c' then do
    let (width, s) := if d.type.left then (d.width, s) else padChar put d.width s
    let s := put s (Char.ofNat (a.int.toNat % 2 ^ 8))
    some ((padChar put width s).2, ← next d.format, d.read + 1)
  else if c = 's' then do
    let str := a.str.getD ['<', 'N', 'U', 'L', 'L', '>']
    let length := boundStringLength str d.precision
    let (width, s) := if d.type.left then (d.width, s) else padString put length d.width s
    let s := putAll put (str.take length.toNat) s
    some ((padString put length width s).2, ← next d.format, d.read + 1)
  else if c = 'p' then do
    let (width, type) := if d.width = -1 then (16, { d.type with zeropad := true }) else (d.width, d.type)
    some (formatNumber put s a.ptr 16 width d.precision type, ← next d.format, d.read + 1)
  else
    match numberBase c d.type with
    | some (base, type) => do
      some (formatNumber put s (number d.qualifier type.sign a) base d.width d.precision type, ← next d.format, d.read + 1)
    | none =>
      -- `--format` at the NUL makes up for the step of the loop
      if c = '\x00' then some (put s '%', d.format, d.read) else do some (put (put s '%') c, ← next d.format, d.read)

/-- The loop of `vsnprintf`. It has a bound, with `none` past it. -/
def formatLoop : (fuel : Nat) → (format : List Char) → (read : Nat) → σ → Option σ
  | 0, _, _, _ => none
  | fuel + 1, format, read, s =>
    if cur format = '\x00' then some s
    else if cur format ≠ '%' then do formatLoop fuel (← next format) read (put s (cur format))
    else do
      let d ← scanDirective args (← next format) read
      let (s, format, read) ← convert args put d s
      formatLoop fuel format read s

end

/-! ## The buffer -/

/-- `pos - string` and the memory from `string` on. -/
structure Output where
  pos : Nat
  mem : Nat → Char

/-- `bound_string_output`, with `end = string + size`. -/
def boundStringOutput (size : Nat) (o : Output) (c : Char) : Output where
  pos := o.pos + 1
  mem := if o.pos < size then Function.update o.mem o.pos c else o.mem

/-- `vsnprintf`: the return value, an `int`, and the memory. -/
def vsnprintf (size : Nat) (format : List Char) (args : Nat → Arg) (mem : Nat → Char) : Option (Int × (Nat → Char)) :=
  (formatLoop args (boundStringOutput size) (format.length + 1) format 0 ⟨0, mem⟩).map fun o =>
    ((BitVec.ofNat 32 o.pos).toInt,
      if 0 < size then Function.update o.mem (if o.pos < size then o.pos else size - 1) '\x00' else o.mem)

end Sdfirm.Vsnprintf
