import Mathlib
import Sdfirm.Impl.Vsnprintf

/-!
# What formatted output is for

`fullOutput` is the output without a bound, and `Written` what `vsnprintf` has to leave of it
in the buffer. `Conversion.text` is what the C standard says of the conversions of integers.
-/

namespace Sdfirm.Vsnprintf

/-! ## The buffer -/

/-- The characters that a format puts out. -/
def fullOutput (format : List Char) (args : Nat → Arg) : Option (List Char) :=
  formatLoop args (fun text c => text ++ [c]) (format.length + 1) format 0 []

/-- The memory has as much of the text as a buffer of `size` characters has room for, with a NUL behind it. -/
structure Written (size : Nat) (text : List Char) (mem mem' : Nat → Char) : Prop where
  outside : ∀ i, size ≤ i → mem' i = mem i
  inside : ∀ i, i < min text.length (size - 1) → text[i]? = some (mem' i)
  nul : 0 < size → mem' (min text.length (size - 1)) = '\x00'

/-! ## Integers -/

/-- The conversions; `i` is `d`. -/
inductive Conversion
  | d
  | u
  | o
  | x
  | X
deriving DecidableEq

namespace Conversion

/-- The conversion for a character. -/
def ofChar (c : Char) : Option Conversion :=
  if c = 'd' || c = 'i' then some d
  else if c = 'u' then some u
  else if c = 'o' then some o
  else if c = 'x' then some x
  else if c = 'X' then some X
  else none

def base : Conversion → Nat
  | d | u => 10
  | o => 8
  | x | X => 16

/-- The value of an argument, converted to the type that the qualifier names. -/
def value (k : Conversion) (q : Qualifier) (a : Arg) : Int :=
  match k, q with
  | d, .none => a.int.toInt
  | d, .h => (a.int.setWidth 16).toInt
  | d, _ => a.long.toInt
  | _, .none => a.int.toNat
  | _, .h => (a.int.setWidth 16).toNat
  | _, _ => a.long.toNat

/-- The digits, at least as many as the precision says, which is 1 if there is none. -/
def numeral (k : Conversion) (precision : Option Nat) (v : Int) : List Char :=
  let digits := ((Nat.digits k.base v.natAbs).map (digitChar (k = X))).reverse
  List.replicate (precision.getD 1 - digits.length) '0' ++ digits

/-- For `#` and `o` the first digit is 0. -/
def digits (k : Conversion) (special : Bool) (precision : Option Nat) (v : Int) : List Char :=
  let numeral := k.numeral precision v
  if special ∧ k = o ∧ numeral.head? ≠ some '0' then '0' :: numeral else numeral

/-- The sign, and for `#` the prefix of a number that is not 0. -/
def lead (k : Conversion) (type : Flags) (v : Int) : List Char :=
  (if k = d then if v < 0 then ['-'] else if type.plus then ['+'] else if type.space then [' '] else [] else []) ++
    if type.special ∧ v ≠ 0 then if k = x then ['0', 'x'] else if k = X then ['0', 'X'] else [] else []

/-- The text of a conversion. The flag `0` is ignored with `-` and with a precision. -/
def text (k : Conversion) (type : Flags) (width : Nat) (precision : Option Nat) (v : Int) : List Char :=
  let lead := k.lead type v
  let digits := k.digits type.special precision v
  let pad := width - (lead.length + digits.length)
  if type.left then lead ++ digits ++ List.replicate pad ' '
  else if type.zeropad ∧ precision = none then lead ++ List.replicate pad '0' ++ digits
  else List.replicate pad ' ' ++ lead ++ digits

end Conversion

/-- The precision of a directive. -/
def Directive.prec (d : Directive) : Option Nat := if d.precision < 0 then none else some d.precision.toNat

/-- The directives for which a number is put out as the standard says. -/
structure Plain (d : Directive) (k : Conversion) (v : Int) : Prop where
  long : k = .d → d.qualifier = .l → -2 ^ 31 ≤ v ∧ v < 2 ^ 31
  zeropad : d.type.zeropad = true → d.type.left = false → d.prec = none
  zero : v = 0 → d.prec ≠ some 0 ∧ (d.type.special = true → k.base = 10)
  octal : d.type.special = true → k = .o → ∀ p, d.prec = some p → p ≤ (Nat.digits 8 v.natAbs).length

end Sdfirm.Vsnprintf
