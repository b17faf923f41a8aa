import Sdfirm.Impl.Delay
import Sdfirm.Proof.Framework.Runs

/-!
# What the calibration and the delays have to do
-/

namespace Sdfirm.Delay

variable (c : Config) (E : Nat → Nat) (T : Nat)

/-- A tick source: its readings fit `lps_count_t`, more loops take no less, and twice as many at most
twice the time. -/
structure Source : Prop where
  fits : ∀ l, E l < 2 ^ c.countBits
  mono : Monotone E
  double : ∀ l, E (2 * l) ≤ 2 * E l

/-- The period is reached by a power of two that fits `lps_t`. -/
def Reached (T : Nat) : Prop := ∃ k, c.lpsInit < k ∧ k < c.lpsBits ∧ T ≤ E (2 ^ k)

/-- `tickerr` is the overhead of two measurements, or not measured. -/
def Overhead (tickerr : Nat) : Prop := tickerr = 0 ∨ ∃ j, tickerr + E (2 ^ (j + 1)) = 2 * E (2 ^ j)

/-- The calibration ends, and has found the least number of loops between the power of two at which
the doubling stopped and the one before that lasts the period and the overhead. -/
def Calibrated : Prop :=
  ∃ k tickerr loops, Fuel.Returns (calibrateDelay c E T) (2 ^ k, tickerr, loops) ∧ Overhead E tickerr ∧
    IsLeast {l | 2 ^ (k - 1) < l ∧ l ≤ 2 ^ k ∧ T + tickerr ≤ E l} loops

/-- The overhead `2 * E l - E (2 * l)` of the first measurement that is not 0 is positive, and the period and the
overhead are reached. -/
def Measurable : Prop :=
  ∃ j, c.lpsInit < j ∧ (∀ i, c.lpsInit < i → i < j → E (2 ^ i) = 0) ∧ E (2 ^ (j + 1)) < 2 * E (2 ^ j) ∧
    Reached c E (T + (2 * E (2 ^ j) - E (2 ^ (j + 1))))

/-! ## The delays -/

/-- The ticks of a measurement of `l` loops that cost `a` ticks each, with an overhead of `e`. -/
def linear (a e l : Nat) : Nat := a * l + e

/-- After a calibration over a millisecond of `T` ticks, loops of `a` ticks each last as long as asked for. -/
def LoopsLast (a e : Nat) : Prop :=
  ∃ stop tickerr loops, Fuel.Returns (calibrateDelay c (linear a e) T) (stop, tickerr, loops) ∧
    ∀ n, n * T ≤ mdelay (a * ·) loops n ∧ n * T ≤ 1000 * udelay (a * ·) loops n

/-- With `CONFIG_LPS_NO_LPS`, from every position of the counter: `udelay`, and `mdelay` with its four calls of
`udelay(250)` for each millisecond. -/
def PollsLast (max : Nat) : Prop :=
  (∀ (start : Nat) (passed : Nat → Nat) (n fuel i d : Nat), start ≤ max → udelayPoll max T start passed n fuel i = some d → n * T ≤ 1000 * d) ∧
    ∀ (n : Nat) (ds : List Nat), ds.length = 4 * n →
      (∀ d ∈ ds, ∃ start passed fuel i, start ≤ max ∧ udelayPoll max T start passed 250 fuel i = some d) → n * T ≤ ds.sum

/-- No delay is short. -/
def NeverShort (a e max : Nat) : Prop := LoopsLast c T a e ∧ PollsLast T max

/-- There is an overhead, the calibration takes more than one round and can reach the period, `loops_per_ms` is a
multiple of 1000, and so are the ticks of a millisecond. -/
structure Exact (a e : Nat) : Prop where
  overhead : 0 < e
  rounds : a * 2 ^ (c.lpsInit + 1) + e < T
  reached : ∃ k < c.lpsBits, T ≤ a * 2 ^ k ∧ a * 2 ^ k + e < 2 ^ c.countBits
  whole : ∀ stop tickerr loops, Fuel.Returns (calibrateDelay c (linear a e) T) (stop, tickerr, loops) → 1000 ∣ loops
  ticks : 1000 ∣ T

end Sdfirm.Delay
