import Mathlib

/-!
# Delays (`kernel/delay.c`)

Durations are counted in ticks. `E loops` are the ticks that pass while
`__calibrate_elapsed(loops)` measures, and `ticks` those of a call of
`__delay`. `T` is `DELAY_TICKS_PER_CALIBRATION`. The loops carry a bound on
their rounds, and are `none` when it is reached.
-/

namespace Sdfirm.Delay

structure Config where
  /-- The width of `lps_t`. -/
  lpsBits : Nat
  /-- The width of `lps_count_t`. -/
  countBits : Nat
  /-- The width in which `DELAY_TICKS_PER_CALIBRATION + tickerr` is computed. -/
  sumBits : Nat
  /-- `LPS_INIT` -/
  lpsInit : Nat
  countBits_le : countBits ≤ sumBits

variable (c : Config) (E : Nat → Nat) (T : Nat)

/-- `__calibrate_elapsed`. -/
def calibrateElapsed (loops : Nat) : Nat := E loops % 2 ^ c.countBits

/-- `DELAY_TICKS_PER_CALIBRATION + tickerr`. -/
def threshold (tickerr : Nat) : Nat := (T + tickerr) % 2 ^ c.sumBits

/-- The update of `tickerr` and `elapsed_last` in the first loop of `__calibrate_delay`. -/
def measure (elapsed tickerr elapsedLast : Nat) : Nat × Nat :=
  if tickerr = 0 then
    if elapsedLast ≠ 0 then ((((2 * elapsedLast : Int) - elapsed) % 2 ^ c.countBits).toNat, elapsedLast)
    else (tickerr, elapsed)
  else (tickerr, elapsedLast)

/-- The first loop of `__calibrate_delay`: `loops_per_calibration` and `tickerr` after it. -/
def doubling : (fuel loops tickerr elapsedLast : Nat) → Option (Nat × Nat)
  | 0, _, _, _ => none
  | fuel + 1, loops, tickerr, elapsedLast =>
    let loops := 2 * loops % 2 ^ c.lpsBits
    if loops = 0 then some (loops, tickerr)
    else
      let elapsed := calibrateElapsed c E loops
      let m := measure c elapsed tickerr elapsedLast
      if threshold c T m.1 ≤ elapsed then some (loops, m.1) else doubling fuel loops m.1 m.2

/-- The second loop of `__calibrate_delay`. -/
def descent (tickerr : Nat) : (fuel loopbit loops : Nat) → Option Nat
  | 0, _, _ => none
  | fuel + 1, loopbit, loops =>
    let loopbit := loopbit / 2
    if loopbit = 0 then some loops
    else
      let loops := loops - loopbit
      descent tickerr fuel loopbit
        (if calibrateElapsed c E loops < threshold c T tickerr then loops + loopbit else loops)

/-- `__calibrate_delay`: where the first loop stopped with which `tickerr`, and
`loops_per_calibration`, which is `loops_per_ms`. -/
def calibrateDelay (fuel : Nat) : Option (Nat × Nat × Nat) :=
  (doubling c E T fuel (2 ^ c.lpsInit % 2 ^ c.lpsBits) 0 0).bind fun (stop, tickerr) =>
    (descent c E T tickerr fuel (stop / 2) stop).map fun loops => (stop, tickerr, loops)

/-- `mdelay` with `loops_per_ms`, and `udelay` with `loops_per_us`. -/
def delayLoops (ticks : Nat → Nat) (loops : Nat) : (n : Nat) → Nat
  | 0 => 0
  | n + 1 => ticks loops + delayLoops ticks loops n

def mdelay (ticks : Nat → Nat) (loopsPerMs ms : Nat) : Nat := delayLoops ticks loopsPerMs ms

/-- `loops_per_us` is `__lps_div(loops_per_ms, 1000)`. -/
def udelay (ticks : Nat → Nat) (loopsPerMs us : Nat) : Nat := delayLoops ticks (loopsPerMs / 1000) us

/-! ## With `CONFIG_LPS_NO_LPS` -/

/-- `delay_ticks_elapsed`. -/
def delayTicksElapsed (max o n : Nat) : Nat := if o ≤ n then n - o else max - o + n + 1

/-- `udelay`: the counter starts at `start` and wraps around after `max`; `passed i` ticks have
passed when it is read in round `i`. The ticks until the loop ends. -/
def udelayPoll (max tscFreq start : Nat) (passed : Nat → Nat) (us : Nat) : (fuel i : Nat) → Option Nat
  | 0, _ => none
  | fuel + 1, i =>
    if delayTicksElapsed max start ((start + passed i) % (max + 1)) < tscFreq / 1000 * us then
      udelayPoll max tscFreq start passed us fuel (i + 1)
    else some (passed i)

end Sdfirm.Delay
