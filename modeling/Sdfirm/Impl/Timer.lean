import Sdfirm.Impl.Bitops

/-!
# Software timers (`kernel/timer.c`, without `CONFIG_TICK`)

A `Config` fixes `NR_TIMERS`, the width of `timeout_t`, `GPT_MAX_TIMEOUT` and
the types of the registered timers. `timeout_t` values are integers cut to
their width where the source does; ticks are natural numbers and `tick_t` is
one modulo `2 ^ 32`. Beside the variables of the source the state has the
clock, the tick at which the one-shot period of the GPT ends, and a log of the
calls of `timer_schedule_shot` and of the handlers. A handler is the list of
the calls of `timer_schedule_shot` it makes, and takes no time. A `BUG_ON`
that fires, or a loop that does not end, is `none`.
-/

namespace Sdfirm.Timer

/-- `TIMER_BH` and `TIMER_IRQ`. -/
inductive TimerType where
  | bh
  | irq
  deriving DecidableEq, Repr

structure Config where
  /-- `NR_TIMERS` -/
  nrTimers : Nat
  /-- The width of `timeout_t`. -/
  bits : Nat
  /-- `GPT_MAX_TIMEOUT` -/
  gptMax : Nat
  /-- The width of `GPT_MAX_TIMEOUT` when its type is unsigned. -/
  gptBits : Option Nat
  /-- `timer_descs[tid]->type` -/
  type : Nat → TimerType
  bits_cases : bits = 8 ∨ bits = 16 ∨ bits = 32
  gptBits_ge : ∀ b, gptBits = some b → bits ≤ b

namespace Config

variable (c : Config)

/-- `INVALID_TID`. -/
def invalidTid : Nat := c.nrTimers

/-- The conversion to `timeout_t`. -/
def toTimeout (x : Int) : Int := x.bmod (2 ^ c.bits)

/-- `MAX_TIMEOUT`. -/
def maxTimeout : Int := 2 ^ (c.bits - 1) - 1

/-- `TIMER_MAKE`. -/
def timerMake (time : Int) : Int := c.toTimeout (2 * c.toTimeout time + 1)

/-- `to_shot < GPT_MAX_TIMEOUT`, where the left side is converted if the right one is unsigned. -/
def BelowGptMax (x : Int) : Prop := (c.gptBits.elim x fun b => x % 2 ^ b) < c.gptMax

instance (x : Int) : Decidable (c.BelowGptMax x) := inferInstanceAs (Decidable (_ < _))

end Config

/-- `TIMER_IDLE`. -/
def timerIdle : Int := 0

/-- `TIMER_SHOT`. -/
def TimerShot (timeout : Int) : Prop := timeout % 2 = 1

instance (timeout : Int) : Decidable (TimerShot timeout) := inferInstanceAs (Decidable (_ = _))

/-- `TIMER_TIME`. -/
def timerTime (timeout : Int) : Int := timeout / 2

/-- What is logged: a call of `timer_schedule_shot`, and a call of a timer's handler. -/
inductive Event where
  | scheduled (tid tick : Nat) (tout : Int)
  | ran (tid tick : Nat)
  deriving DecidableEq, Repr

structure TimerState where
  /-- `timer_orders`, of `NR_TIMERS + 1` entries -/
  orders : List Nat
  /-- `timer_timeouts` -/
  timeouts : Nat → Int
  /-- `timer_running_tid` -/
  runningTid : Nat
  /-- `timer_last_tick` -/
  lastTick : Nat
  /-- `timer_timeout` -/
  timeout : Int
  /-- `timer_unshot_timeout` -/
  unshotTimeout : Int
  /-- The bit of `timer_bh` in `bh_awakes`. -/
  bhAwake : Bool
  /-- The ticks since the start of the counter. -/
  now : Nat
  /-- The end of the one-shot period that runs. -/
  gpt : Option Int
  /-- The calls so far, the last one first. -/
  log : List Event

variable (c : Config)

/-- `tick_get_counter`, as a `tick_t`. -/
def TimerState.tick (s : TimerState) : Nat := s.now % 2 ^ 32

/-! ## The order of the timers -/

/-- The search of `__timer_del` from index `i` on, of the `n` entries that are left: where it
stops, or `none` where the function returns. -/
def findOrder (tid : Nat) (orders : List Nat) : (n i : Nat) → Option Nat
  | 0, i => some i
  | n + 1, i =>
    if orders.getD i c.invalidTid = c.invalidTid then none
    else if orders.getD i c.invalidTid = tid then some i
    else findOrder tid orders n (i + 1)

/-- The second loop of `__timer_del`, which swaps the entry at `i` to the end. -/
def shiftOrder (orders : List Nat) : (n i : Nat) → List Nat × Nat
  | 0, i => (orders, i)
  | n + 1, i =>
    let orders :=
      if orders.getD i c.invalidTid ≠ c.invalidTid then
        let swp := orders.getD (i + 1) c.invalidTid
        (orders.set (i + 1) (orders.getD i c.invalidTid)).set i swp
      else orders
    shiftOrder orders n (i + 1)

/-- `__timer_del`. -/
def timerDel (tid : Nat) (orders : List Nat) : List Nat :=
  match findOrder c tid orders c.nrTimers 0 with
  | none => orders
  | some i =>
    let (orders, i) := shiftOrder c orders (c.nrTimers - 1 - i) i
    orders.set i c.invalidTid

/-- The loop of `__timer_add` when the first `n` entries are left, from the last one down. -/
def addOrder (timeouts : Nat → Int) (tid : Nat) (orders : List Nat) : Nat → Option (List Nat)
  | 0 => if orders.getD 0 c.invalidTid ≠ c.invalidTid then none else some (orders.set 0 tid)
  | n + 1 =>
    let t := orders.getD n c.invalidTid
    if t = tid then none
    else if t ≠ c.invalidTid then
      -- the array is full when its last entry is in use
      if n + 1 = c.nrTimers then none
      else if timerTime (timeouts tid) < timerTime (timeouts t) then
        addOrder timeouts tid ((orders.set (n + 1) t).set n c.invalidTid) n
      else some (orders.set (n + 1) tid)
    else addOrder timeouts tid orders n

/-- `__timer_add`. -/
def timerAdd (timeouts : Nat → Int) (tid : Nat) (orders : List Nat) : Option (List Nat) :=
  addOrder c timeouts tid orders c.nrTimers

/-- The timers that a loop over `timer_orders` comes to before the first `INVALID_TID`. -/
def pending (orders : List Nat) : List Nat := (orders.take c.nrTimers).takeWhile fun tid => tid ≠ c.invalidTid

/-! ## The GPT -/

/-- `timer_shot_timeout`. -/
def timerShotTimeout (s : TimerState) (toShot : Int) : TimerState :=
  if c.BelowGptMax toShot then
    { s with unshotTimeout := 0, gpt := some (s.now + if toShot = 0 then 1 else toShot) }
  else { s with unshotTimeout := c.toTimeout (toShot - c.gptMax), gpt := some (s.now + c.toTimeout c.gptMax) }

/-- `timer_restart`. -/
def timerRestart (s : TimerState) : TimerState :=
  if TimerShot s.timeout then timerShotTimeout c s (timerTime s.timeout) else s

/-! ## Remaining times -/

/-- The time `__timer_recalc_timeout` takes off the remaining times. -/
def recalcSpan (shot : Bool) (s : TimerState) : Int :=
  if shot then timerTime s.timeout
  else
    let span := c.toTimeout (((s.tick : Int) - s.lastTick) % 2 ^ 32)
    if span < 0 then 0 else span

/-- The body of the loop of `__timer_recalc_timeout`. Its `BUG_ON` halves the truth value of a
comparison, which gives 0. -/
def recalcTimer (shot : Bool) (span : Int) (s : TimerState) (tid : Nat) : TimerState :=
  if TimerShot (s.timeouts tid) then
    let tout := c.toTimeout (timerTime (s.timeouts tid) - span)
    let tout := if !shot ∧ tout ≤ 0 then 1 else tout
    { s with timeouts := Function.update s.timeouts tid (c.timerMake tout),
             timeout := if TimerShot s.timeout then s.timeout else c.timerMake tout }
  else s

/-- `__timer_recalc_timeout`. -/
def timerRecalc (shot : Bool) (s : TimerState) : TimerState :=
  let span := recalcSpan c shot s
  (pending c s.orders).foldl (recalcTimer c shot span) { s with lastTick := s.tick, timeout := timerIdle }

def timerRecalcTimeout (shot : Bool) (s : TimerState) : TimerState := timerRestart c (timerRecalc c shot s)

/-! ## Scheduling -/

/-- `timer_schedule_shot`. -/
def timerScheduleShot (s : TimerState) (tid : Nat) (toutMs : Int) : Option TimerState :=
  if toutMs > c.maxTimeout then none
  else
    let s := { s with log := .scheduled tid s.now toutMs :: s.log }
    let s := timerRecalc c false { s with orders := timerDel c tid s.orders }
    let toutMs := if toutMs ≤ 0 then 1 else toutMs
    let timeouts := Function.update s.timeouts tid (c.timerMake toutMs)
    (timerAdd c timeouts tid s.orders).map fun orders =>
      let timeout :=
        if ¬ TimerShot s.timeout ∨ toutMs < timerTime s.timeout then timeouts tid else s.timeout
      timerRestart c { s with timeouts := timeouts, orders := orders, timeout := timeout }

/-- A handler: the calls of `timer_schedule_shot` it makes. -/
abbrev Handler := List (Nat × Int)

/-- `timer->handler()`. -/
def runHandler (s : TimerState) (handler : Handler) : Option TimerState :=
  handler.foldlM (fun s call => timerScheduleShot c s call.1 call.2) s

/-- `__timer_run`. -/
def timerRun (s : TimerState) (tid : Nat) (handler : Handler) : Option TimerState :=
  let s := { s with runningTid := tid, orders := timerDel c tid s.orders, log := .ran tid s.now :: s.log }
  (runHandler c s handler).map fun s => { s with runningTid := c.invalidTid }

/-- `timer_run_timeout`, with a bound on its rounds. The handlers that are run are those of
`handlers`, one after the other. -/
def timerRunTimeout (type : TimerType) : (fuel : Nat) → TimerState → List Handler → Option TimerState
  | 0, _, _ => none
  | fuel + 1, s, handlers =>
    let tid := s.orders.getD 0 c.invalidTid
    if tid = c.invalidTid ∨ s.timeouts tid ≠ timerIdle then some s
    else if type = .bh ∧ c.type tid ≠ type then none
    else if c.type tid = type then
      (timerRun c s tid (handlers.headD [])).bind fun s => timerRunTimeout type fuel s handlers.tail
    else timerRunTimeout type fuel s handlers

/-- The bound: a timer that has run is not idle in `timer_orders` again. -/
def maxRounds : Nat := c.nrTimers + 1

/-! ## Interrupts and the bottom half -/

/-- The loop of `timer_irq_timeout`, with `run_irq` and `run_bh`. -/
structure IrqScan where
  state : TimerState
  runIrq : Bool
  runBh : Bool

/-- The body of that loop. -/
def irqTimer (tout : Int) (f : IrqScan) (tid : Nat) : IrqScan :=
  if TimerShot (f.state.timeouts tid) then
    let tidTout := timerTime (f.state.timeouts tid)
    if tidTout ≤ tout then
      let s := { f.state with timeouts := Function.update f.state.timeouts tid timerIdle }
      if c.type tid ≠ .irq then { f with state := { s with bhAwake := true }, runBh := true }
      else { f with state := s, runIrq := true }
    else
      { f with state :=
        { f.state with timeouts :=
          Function.update f.state.timeouts tid (c.timerMake (c.toTimeout (tidTout - tout))) } }
  else f

def irqScan (s : TimerState) : IrqScan :=
  (pending c s.orders).foldl (irqTimer c (timerTime s.timeout)) ⟨s, false, false⟩

/-- `timer_irq_timeout`. -/
def timerIrqTimeout (s : TimerState) (handlers : List Handler) : Option TimerState :=
  if ¬ TimerShot s.timeout then some s
  else
    let f := irqScan c s
    let s := if f.runBh then f.state else timerRecalcTimeout c true f.state
    if f.runIrq then timerRunTimeout c .irq (maxRounds c) s handlers else some s

/-- `tick_handler`. -/
def tickHandler (s : TimerState) (handlers : List Handler) : Option TimerState :=
  if s.unshotTimeout ≠ 0 then some (timerShotTimeout c s s.unshotTimeout)
  else timerIrqTimeout c s handlers

/-- `timer_bh_timeout`. -/
def timerBhTimeout (s : TimerState) (handlers : List Handler) : Option TimerState :=
  (timerRunTimeout c .bh (maxRounds c) s handlers).map (timerRecalcTimeout c true)

/-- `timer_bh_handler`, of the event `BH_WAKEUP`. -/
def timerBhHandler (s : TimerState) (handlers : List Handler) : Option TimerState :=
  (timerBhTimeout c s handlers).map (timerRestart c)

/-- The state after `timer_init`, with all timers registered. -/
def timerInit (now : Nat) : TimerState where
  orders := List.replicate (c.nrTimers + 1) c.invalidTid
  timeouts := fun _ => timerIdle
  runningTid := c.invalidTid
  lastTick := 0
  timeout := timerIdle
  unshotTimeout := 0
  bhAwake := true
  now := now
  gpt := none
  log := []

/-! ## Registration -/

/-- The timers and `timer_regs`, of words of `unit` bits. -/
structure TimerTable where
  timers : TimerState
  regs : Bitops.Bitmap

variable (unit : Nat)

/-- `timer_register`. -/
def timerRegister (s : TimerTable) : Option TimerTable :=
  let tid := Bitops.findNextClearBit unit s.regs c.nrTimers 0
  if tid = c.nrTimers then none
  else some {
    timers := { s.timers with timeouts := Function.update s.timers.timeouts tid timerIdle, runningTid := tid }
    regs := Bitops.setBit unit tid s.regs }

/-- `timer_unregister`. -/
def timerUnregister (s : TimerTable) (tid : Nat) : Option TimerTable :=
  if tid ≠ s.timers.runningTid then none
  else some {
    timers := { s.timers with orders := timerDel c tid s.timers.orders, runningTid := c.invalidTid }
    regs := Bitops.clearBit unit tid s.regs }

end Sdfirm.Timer
