import Mathlib

/-!
# The tick and its arithmetic
-/

/-!
## Multiplication and division without hardware (`lib/muldiv.c`)

`div16u`, `div32u` and `div64u` are one loop at three widths, and so is the
model. Values are natural numbers below `2 ^ w`, cut where the source's types
cut them.
-/

namespace Sdfirm.Muldiv

/-- `MSB_IS_SET`. -/
def msbIsSet (w x : Nat) : Nat := x / 2 ^ (w - 1) % 2

/-- The loop of `div16u`, `div32u` and `div64u` at width `w`, when `count` rounds are left. The
lowest bit is clear after a shift, so `|= 1` is an addition. -/
def divLoop (w y : Nat) : (count x reste : Nat) → Nat
  | 0, x, _ => x
  | count + 1, x, reste =>
    let c := msbIsSet w x
    let x := 2 * x % 2 ^ w
    let reste := 2 * reste % 2 ^ w + c
    if y ≤ reste then divLoop w y count (x + 1) (reste - y)
    else divLoop w y count x reste

/-- `div16u`. -/
def div16u (x y : Nat) : Nat := divLoop 16 y 16 x 0

/-- `div32u`. -/
def div32u (x y : Nat) : Nat := divLoop 32 y 32 x 0

/-- `div64u`. -/
def div64u (x y : Nat) : Nat := divLoop 64 y 64 x 0

/-- The four partial products of `mul16u` and `mul32u`, whose arguments have two halves of `h`
bits, in the order the source adds them up. -/
def mulHalves (mul : Nat → Nat → Nat) (h x y : Nat) : Nat :=
  let a := mul (x % 2 ^ h) (y % 2 ^ h)
  let a := (a + mul (x % 2 ^ h) (y / 2 ^ h) * 2 ^ h) % 2 ^ (4 * h)
  let a := (a + mul (x / 2 ^ h) (y / 2 ^ h) * 2 ^ (2 * h)) % 2 ^ (4 * h)
  (a + mul (x / 2 ^ h) (y % 2 ^ h) * 2 ^ h) % 2 ^ (4 * h)

/-- `mul16u`. -/
def mul16u (x y : Nat) : Nat := mulHalves (fun a b => a * b % 2 ^ 16) 8 x y

/-- `mul32u`. -/
def mul32u (x y : Nat) : Nat := mulHalves mul16u 16 x y

/-- The first loop of `mod16u`, `mod32u` and `mod64u` at width `w`: `y` is shifted up to the
highest bit. `none` when it is not there after `fuel` rounds. -/
def modNormalise (w : Nat) : (fuel y count : Nat) → Option (Nat × Nat)
  | 0, _, _ => none
  | fuel + 1, y, count =>
    if msbIsSet w y = 0 then modNormalise w fuel (2 * y % 2 ^ w) (count + 1)
    else some (y, count)

/-- Their second loop. -/
def modSubtract : (count x y : Nat) → Nat
  | 0, x, _ => x
  | count + 1, x, y => modSubtract count (if y ≤ x then x - y else x) (y / 2)

/-- The body of `mod16u`, `mod32u` and `mod64u`, with what they return for a zero. -/
def modBody (w onZero x y : Nat) : Option Nat :=
  if y = 0 then some onZero
  else (modNormalise w w y 1).map fun (y, count) => modSubtract count x y

/-- `mod16u`. -/
def mod16u (x y : Nat) : Option Nat := modBody 16 (2 ^ 16 - 1) x y

/-- `mod32u`. -/
def mod32u (x y : Nat) : Option Nat := modBody 32 (2 ^ 32 - 1) x y

/-- `mod64u`, which returns the `(uint32_t)-1` of `mod32u` for a zero. -/
def mod64u (x y : Nat) : Option Nat := modBody 64 (2 ^ 32 - 1) x y

end Sdfirm.Muldiv

/-!
## The tick (`kernel/tick.c`, without `CONFIG_TICK_PERIODIC`)

A `Config` fixes `TSC_MAX` and `TSC_FREQ`; `tsc_count_t` is the narrowest type
that holds `TSC_MAX` (`include/driver/tsc.h`). Counts are natural numbers cut
to that width. Beside `jiffies` and `tsc_old` the state has the free running
counter that `tsc_read_counter` reads.
-/

namespace Sdfirm.Tick

open Muldiv

/-- The width of `tsc_count_t`. -/
def tscBits (tscMax : Nat) : Nat :=
  if tscMax ≤ 0xFF then 8
  else if tscMax ≤ 0xFFFF then 16
  else if tscMax ≤ 0xFFFFFFFF then 32
  else 64

structure Config where
  /-- `TSC_MAX` -/
  tscMax : Nat
  /-- `TSC_FREQ` -/
  tscFreq : Nat
  /-- The width in which `TSC_MAX - o` is computed when it is unsigned. -/
  maxBits : Option Nat
  tscMax_pos : 0 < tscMax
  tscMax_lt : tscMax < 2 ^ 64
  tscFreq_pos : 0 < tscFreq
  tscFreq_lt : tscFreq < 2 ^ tscBits tscMax
  maxBits_ge : ∀ b, maxBits = some b → tscBits tscMax ≤ b

namespace Config

variable (c : Config)

/-- The width of `tsc_count_t`. -/
def bits : Nat := tscBits c.tscMax

/-- `COUNTS_PER_JIFFY`. -/
def countsPerJiffy : Nat := c.tscFreq

/-- The conversion to `tsc_count_t`. -/
def toCount (x : Int) : Nat := (x % 2 ^ c.bits).toNat

/-- `TSC_MAX - o`, in the type the compiler gives it. -/
def maxSub (o : Nat) : Int :=
  match c.maxBits with
  | none => c.tscMax - o
  | some b => ((c.tscMax : Int) - o) % 2 ^ b

/-- `__tsc_div`. -/
def tscDiv (x y : Nat) : Nat :=
  if c.tscMax ≤ 0xFF then x / y
  else if c.tscMax ≤ 0xFFFF then div16u x y
  else if c.tscMax ≤ 0xFFFFFFFF then div32u x y
  else div64u x y

/-- `__tsc_mul`, whose first argument is a `tick_t`; `mul64u` is the product of the machine. -/
def tscMul (x y : Nat) : Nat :=
  if c.tscMax ≤ 0xFF then x * y
  else if c.tscMax ≤ 0xFFFF then mul16u (x % 2 ^ 16) y
  else if c.tscMax ≤ 0xFFFFFFFF then mul32u x y
  else x * y

end Config

structure TickState where
  /-- `jiffies` -/
  jiffies : Nat
  /-- `tsc_old` -/
  tscOld : Nat
  /-- What `tsc_read_counter` returns. -/
  counter : Nat
  deriving DecidableEq, Repr

variable (c : Config)

/-- `tick_ticked_tsc`. -/
def tickTickedTsc (o d : Nat) : Nat :=
  if (d : Int) < c.maxSub o then c.toCount (o + d) else c.toCount (d - c.maxSub o)

/-- `tick_delta_tsc`, stored in a `tsc_count_t`. -/
def tickDeltaTsc (o n : Nat) : Nat :=
  if o < n then n - o else c.toCount (c.maxSub o + n + 1)

/-- `tick_update_tsc`. -/
def tickUpdateTsc (counter : Nat) (s : TickState) : TickState := { s with tscOld := counter }

/-- `tick_handler`. -/
def tickHandler (s : TickState) : TickState :=
  let delta := tickDeltaTsc c s.tscOld s.counter
  let ticks := c.tscDiv delta c.countsPerJiffy % 2 ^ 32
  if ticks ≠ 0 then
    { s with
      jiffies := (s.jiffies + ticks) % 2 ^ 32
      tscOld := tickTickedTsc c s.tscOld (c.toCount (c.tscMul ticks c.countsPerJiffy)) }
  else s

/-- The counter runs on by `a` counts. -/
def advance (a : Nat) (s : TickState) : TickState :=
  { s with counter := (s.counter + a) % (c.tscMax + 1) }

/-- The state after `tsc_hw_ctrl_init`, where the counter starts. -/
def boot : TickState := tickUpdateTsc 0 ⟨0, 0, 0⟩

/-- The counter runs on by `a` and `tick_handler` is called. -/
def call (s : TickState) (a : Nat) : TickState := tickHandler c (advance c a s)

/-- The calls of `tick_handler`, given by what the counter advanced by before each one. -/
def run (as : List Nat) : TickState := as.foldl (call c) boot

end Sdfirm.Tick
