import Sdfirm.Impl.Bh
import Sdfirm.Impl.Tick
import Sdfirm.Impl.Timer
import Sdfirm.Proof.Framework.Runs

/-!
# What the scheduling of the kernel has to do

The passes over the bottom halves, the tick that counts the time, and the
timers that wait for it.
-/

/-!
## What the passes over the bottom halves have to do

A pass of `bh_loop` gives each bottom half its turn, in the order of their
indices (`turns`), and nothing that is awake afterwards is still to be run
after the next pass (`Dispatched`). A pass of `bh_sync` has to leave the
console out (`RunsConsole`).
-/

namespace Sdfirm.Bh

variable {cfg : Config} {σ : Type} {handlers : List (Handler cfg σ)}

def awake (s : State cfg σ) (bh : Nat) : Bool := Bitops.testBit cfg.unit bh s.awakes

/-- From `s` to `s'` the bottom halves that are awake stay so or are run. -/
def Kept (s s' : State cfg σ) : Prop :=
  ∃ l, s'.ran = s.ran ++ l ∧ ∀ bh < cfg.nrBhs, awake s bh = true → awake s' bh = true ∨ bh ∈ l

/-- Only bottom halves that have a handler are awake. -/
def Registered (handlers : List (Handler cfg σ)) (s : State cfg σ) : Prop :=
  ∀ bh < cfg.nrBhs, awake s bh = true → bh < handlers.length

/-- A handler awakens bottom halves, and suspends none that it does not run. -/
structure Honest (handlers : List (Handler cfg σ)) (handler : Handler cfg σ) : Prop where
  kept : ∀ event s, Kept s (handler event s)
  registered : ∀ event s, Registered handlers s → Registered handlers (handler event s)

/-! ### The pass of `bh_loop` -/

/-- The turn of a bottom half, which is run if it is awake. -/
def turn (handlers : List (Handler cfg σ)) (s : State cfg σ) (bh : Nat) : Option (State cfg σ) :=
  if awake s bh = true then bhRun handlers bh .wakeup (bhSuspend bh s) else some s

/-- One turn for each bottom half, in the order of their indices. -/
def turns (handlers : List (Handler cfg σ)) (s : State cfg σ) : Option (State cfg σ) :=
  (List.range cfg.nrBhs).foldlM (turn handlers) s

/-- The pass from `s` ends, and is a turn for each bottom half. Those that are awake at its end have been run when
another pass has ended, whatever happens between the two. -/
def Dispatched (handlers : List (Handler cfg σ)) (s : State cfg σ) : Prop :=
  ∃ s₁, bhSync handlers (cfg.nrBhs + 1) false s = some s₁ ∧ turns handlers s = some s₁ ∧
    ∀ s₂, Kept s₁ s₂ → Registered handlers s₂ → ∃ s₃ l, bhSync handlers (cfg.nrBhs + 1) false s₂ = some s₃ ∧
      s₃.ran = s₁.ran ++ l ∧ ∀ bh < cfg.nrBhs, awake s₁ bh = true → bh ∈ l

/-! ### The pass of `bh_sync` -/

/-- The cursor and the state after `n` repetitions of the loop. -/
def bhSyncSteps (handlers : List (Handler cfg σ)) : (n : Nat) → Nat × State cfg σ → Option (Nat × State cfg σ)
  | 0, c => some c
  | n + 1, c => if c.1 = cfg.nrBhs then none else (bhSyncStep handlers true c).bind (bhSyncSteps handlers n)

/-- The next repetition of the loop calls the handler of the console. -/
def RunsConsole (handlers : List (Handler cfg σ)) (c : Nat × State cfg σ) : Prop :=
  ∃ c' l, bhSyncStep handlers true c = some c' ∧ c'.2.ran = c.2.ran ++ cfg.consoleBh :: l

/-- If the console is awake, and the cursor does not stand at it, there is another bottom half awake that comes
first, from the cursor to the last one and then from 0 on. -/
def OthersFirst (c : Nat × State cfg σ) : Prop :=
  c.1 ≠ cfg.consoleBh → cfg.consoleBh < cfg.nrBhs → awake c.2 cfg.consoleBh = true →
    ∃ bh < cfg.nrBhs, awake c.2 bh = true ∧
      if c.1 ≤ cfg.consoleBh then c.1 ≤ bh ∧ bh < cfg.consoleBh else c.1 ≤ bh ∨ bh < cfg.consoleBh

end Sdfirm.Bh

/-!
## What the tick is for

`jiffies` and the distance of the counter from `tsc_old` are to account for
every count since the start (`Accounts`). `Measured` is when a call of
`tick_handler` does that: `tick_ticked_tsc` wraps around one count too far, so
`tsc_old` must stay below `TSC_MAX`; `tick_delta_tsc` takes two equal samples
for a whole period, and does not see a second one.
-/

namespace Sdfirm.Tick

variable (c : Config)

/-- The distance from `tsc_old` to the counter. -/
def distance (s : TickState) : Int := ((s.counter : Int) - s.tscOld) % (c.tscMax + 1)

/-- All of `total` counts are in `jiffies`, or are the part of a jiffy that is still to come. -/
def Accounts (total : Nat) (s : TickState) : Prop :=
  s.jiffies * c.countsPerJiffy + distance c s = total ∧ distance c s < c.countsPerJiffy

instance (total : Nat) (s : TickState) : Decidable (Accounts c total s) := inferInstanceAs (Decidable (_ ∧ _))

/-- No call of `tick_handler` loses or adds a count. -/
def NeverDrifts (as : List Nat) : Prop := ∀ p, p <+: as → Accounts c p.sum (run c p)

/-- The counts that are not yet in `jiffies` when the counter has run on by `a` after `total`. -/
def pending (total a : Nat) : Nat := total % c.countsPerJiffy + a

/-- The counter runs on by `a` after `total` counts: `jiffies` does not overflow, `tsc_old` does
not reach `TSC_MAX`, and the pending counts are what two samples of the counter can tell. -/
structure Measured (total a : Nat) : Prop where
  jiffies : (total + a) / c.countsPerJiffy < 2 ^ 32
  noWrap : (total + a) / c.countsPerJiffy * c.countsPerJiffy < c.tscMax
  still : pending c total a = 0 →
    c.tscMax + 1 = 2 ^ c.bits ∨ (c.tscMax + 1) / c.countsPerJiffy % 2 ^ 32 = 0
  period : pending c total a ≤ c.tscMax ∨
    pending c total a = c.tscMax + 1 ∧ c.tscMax + 1 < 2 ^ c.bits ∧ c.countsPerJiffy ≤ c.tscMax + 1

/-- Every call of the run is `Measured`. -/
def EachMeasured (as : List Nat) : Prop := ∀ p a, p ++ [a] <+: as → Measured c p.sum a

end Sdfirm.Tick

/-!
## What the timers are for

A handler is to run once for each time its timer is scheduled, and not before
the time asked for has passed (`NeverEarly`). A run takes ticks, calls of
`timer_schedule_shot`, GPT interrupts when the one-shot period has ended, and
the bottom half when it has been woken, in any order.

`Regular` is the part of the inputs on which the code does that. It leaves
out two defects: time is taken off the remaining times twice when an
interrupt or a run of the bottom half finds timers that stay pending, and a
time of `2 ^ (bits - 2)` or more does not fit the encoding of `TIMER_MAKE`.

`Dispatches` is what should become of the timers that expire at one
interrupt, and `OneType` is when it does: the loop of `timer_run_timeout`
looks at the first timer only, and goes on for ever when that one has expired
and is of the other type.

`Ordered` is what `timer_orders` is to be like while timers are registered,
scheduled, unregistered and brought up to date.
-/

namespace Sdfirm.Timer

variable (c : Config)

/-! ### Runs -/

inductive Op where
  | tick
  | schedule (tid : Nat) (toutMs : Int)
  | interrupt (handlers : List Handler)
  | bottomHalf (handlers : List Handler)

/-- The tids and times of the calls a handler makes are those of `timer_schedule_shot`. -/
def CallOk (call : Nat × Int) : Prop :=
  call.1 < c.nrTimers ∧ -(2 ^ (c.bits - 1)) ≤ call.2 ∧ call.2 < 2 ^ (c.bits - 1)

instance (call : Nat × Int) : Decidable (CallOk c call) := inferInstanceAs (Decidable (_ ∧ _))

def HandlersOk (handlers : List Handler) : Prop := ∀ h ∈ handlers, ∀ call ∈ h, CallOk c call

instance (handlers : List Handler) : Decidable (HandlersOk c handlers) :=
  inferInstanceAs (Decidable (∀ h ∈ handlers, ∀ call ∈ h, CallOk c call))

/-- The one-shot period has ended. -/
def GptDue (s : TimerState) : Prop := ∃ e ∈ s.gpt, e ≤ s.now

instance (s : TimerState) : Decidable (GptDue s) :=
  match h : s.gpt with
  | none => .isFalse (by simp [GptDue, h])
  | some e => decidable_of_iff (e ≤ s.now) (by simp [GptDue, h])

/-- One step. The interrupt comes before the clock goes on. -/
def step (s : TimerState) : Op → Option TimerState
  | .tick => if GptDue s then none else some { s with now := s.now + 1 }
  | .schedule tid toutMs => if CallOk c (tid, toutMs) then timerScheduleShot c s tid toutMs else none
  | .interrupt handlers =>
    if GptDue s ∧ HandlersOk c handlers then tickHandler c { s with gpt := none } handlers else none
  | .bottomHalf handlers =>
    if s.bhAwake ∧ HandlersOk c handlers then timerBhHandler c { s with bhAwake := false } handlers else none

/-- Runs from `timer_init` at any tick, whose steps all meet `ok`. -/
abbrev Run (ok : TimerState → Op → Prop) : TimerState → Prop :=
  Framework.Run (step c) (fun s => ∃ now, s = timerInit c now) ok

/-- `timer_orders` holds `timers`. -/
structure Holds (c : Config) (orders timers : List Nat) : Prop where
  eq : orders = timers ++ List.replicate (c.nrTimers + 1 - timers.length) c.invalidTid
  lt : ∀ t ∈ timers, t < c.nrTimers
  nodup : timers.Nodup

/-! ### What a run keeps -/

/-- The tick before which the handler of `tid` must not run: that of its last call of
`timer_schedule_shot` and the time asked for, if it has not run since. -/
def due (tid : Nat) : List Event → Option Int
  | [] => none
  | .scheduled t tick tout :: log => if t = tid then some (tick + tout) else due tid log
  | .ran t _ :: log => if t = tid then none else due tid log

/-- Each run of a handler has its own call of `timer_schedule_shot` before it, and the time asked
for has passed. -/
def NeverEarly : List Event → Prop
  | [] => True
  | .scheduled _ _ _ :: log => NeverEarly log
  | .ran tid tick :: log => (∃ d, due tid log = some d ∧ d ≤ tick) ∧ NeverEarly log

/-! ### The inputs on which it does -/

/-- The timers of `timer_orders` whose time has not passed. -/
def armed (s : TimerState) : List Nat := (pending c s.orders).filter fun tid => TimerShot (s.timeouts tid)

/-- The time fits `TIMER_MAKE`. -/
def TimeFits (call : Nat × Int) : Prop := call.2 < 2 ^ (c.bits - 2)

instance (call : Nat × Int) : Decidable (TimeFits c call) := inferInstanceAs (Decidable (_ < _))

def HandlersFit (handlers : List Handler) : Prop := ∀ h ∈ handlers, ∀ call ∈ h, TimeFits c call

instance (handlers : List Handler) : Decidable (HandlersFit c handlers) :=
  inferInstanceAs (Decidable (∀ h ∈ handlers, ∀ call ∈ h, TimeFits c call))

/-- A step that meets none of the defects: the time asked for fits; an interrupt that ends the
period finds no timer that stays armed; no timer is armed after the bottom half's handlers. -/
def Regular (s : TimerState) : Op → Prop
  | .tick => True
  | .schedule tid toutMs => TimeFits c (tid, toutMs)
  | .interrupt handlers => HandlersFit c handlers ∧
      (s.unshotTimeout = 0 → ∀ tid ∈ armed c s, timerTime (s.timeouts tid) ≤ timerTime s.timeout)
  | .bottomHalf handlers => HandlersFit c handlers ∧
      ∀ s' ∈ timerRunTimeout c .bh (maxRounds c) { s with bhAwake := false } handlers, armed c s' = []

instance (s : TimerState) (op : Op) : Decidable (Regular c s op) := by
  cases op <;> unfold Regular <;> infer_instance

/-! ### The timers that expire at an interrupt -/

/-- A GPT interrupt that ends the period finds timers that are armed, and timers whose handler the
bottom half has not run yet. -/
structure Pending (s : TimerState) : Prop where
  orders : ∃ timers, Holds c s.orders timers
  timer : ∀ tid ∈ pending c s.orders, TimerShot (s.timeouts tid) ∨ s.timeouts tid = timerIdle ∧ c.type tid = .bh
  period : TimerShot s.timeout ∧ s.unshotTimeout = 0

/-- The time of the timer has passed when the interrupt comes. -/
def Expires (s : TimerState) (tid : Nat) : Prop :=
  TimerShot (s.timeouts tid) → timerTime (s.timeouts tid) ≤ timerTime s.timeout

instance (s : TimerState) (tid : Nat) : Decidable (Expires s tid) := inferInstanceAs (Decidable (_ → _))

/-- The timers of the type that have expired when the interrupt has been handled. -/
def expired (s : TimerState) (type : TimerType) : List Nat :=
  (pending c s.orders).filter fun tid => Expires s tid ∧ c.type tid = type

/-- From `s` to `s'` the handler of each of the timers has been run once, and no other. -/
def RanOnce (timers : List Nat) (s s' : TimerState) : Prop :=
  s'.now = s.now ∧ ∀ tid, s'.log.count (.ran tid s.now) = s.log.count (.ran tid s.now) + if tid ∈ timers then 1 else 0

/-- With handlers that do not schedule, the interrupt returns and has run the expired timers of its
type, and then the bottom half returns and has run those of the other. -/
def Dispatches (s : TimerState) : Prop :=
  ∃ s₁, tickHandler c s [] = some s₁ ∧ RanOnce (expired c s .irq) s s₁ ∧
    ∃ s₂, timerBhHandler c { s₁ with bhAwake := false } [] = some s₂ ∧ RanOnce (expired c s .bh) s₁ s₂

/-- The timers that have expired are of one type, and come before those that have not. -/
structure OneType (s : TimerState) : Prop where
  same : ∃ type, ∀ tid ∈ pending c s.orders, Expires s tid → c.type tid = type
  front : ∀ tid ∈ pending c s.orders, Expires s tid → tid ∈ (pending c s.orders).takeWhile fun tid => Expires s tid

/-! ### The order of the timers -/

/-- A call, a time that passes, or a timer that is made the running one. -/
inductive TableOp where
  | register
  | unregister (tid : Nat)
  | schedule (tid : Nat) (toutMs : Int)
  | recalc (shot : Bool)
  | ticks (n : Nat)
  | running (tid : Nat)

variable (unit : Nat)

/-- `tid` has been registered. -/
def Registered (s : TimerTable) (tid : Nat) : Prop := tid < c.nrTimers ∧ Bitops.testBit unit tid s.regs = true

instance (s : TimerTable) (tid : Nat) : Decidable (Registered c unit s tid) := inferInstanceAs (Decidable (_ ∧ _))

/-- One operation; timers are scheduled and unregistered while they are registered. -/
def tableStep (s : TimerTable) : TableOp → Option TimerTable
  | .register => timerRegister c unit s
  | .unregister tid => if Registered c unit s tid then timerUnregister c unit s tid else none
  | .schedule tid toutMs =>
    if Registered c unit s tid ∧ CallOk c (tid, toutMs) then
      (timerScheduleShot c s.timers tid toutMs).map fun timers => { s with timers := timers }
    else none
  | .recalc shot => some { s with timers := timerRecalc c shot s.timers }
  | .ticks n => some { s with timers := { s.timers with now := s.timers.now + n } }
  | .running tid => some { s with timers := { s.timers with runningTid := tid } }

/-- Runs from `timer_init` at any tick, whose operations all meet `ok`. -/
abbrev TableRun (ok : TimerTable → TableOp → Prop) : TimerTable → Prop :=
  Framework.Run (tableStep c unit) (fun s => ∃ now, s = ⟨timerInit c now, fun _ => 0⟩) ok

/-- `timer_orders` holds each of its timers once, followed by `INVALID_TID` only; they are registered, armed or
expired, and in the order of their times; and no call of `timer_schedule_shot` comes to a `BUG_ON`. -/
structure Ordered (s : TimerTable) : Prop where
  holds : Holds c s.timers.orders (pending c s.timers.orders)
  timer : ∀ tid ∈ pending c s.timers.orders, Registered c unit s tid ∧
    (TimerShot (s.timers.timeouts tid) ∨ s.timers.timeouts tid = timerIdle)
  sorted : (pending c s.timers.orders).Pairwise fun a b =>
    timerTime (s.timers.timeouts a) ≤ timerTime (s.timers.timeouts b)
  adds : ∀ tid toutMs, Registered c unit s tid → CallOk c (tid, toutMs) →
    (timerScheduleShot c s.timers tid toutMs).isSome = true

/-- The time asked for fits `TIMER_MAKE`. -/
def Fits (_ : TimerTable) : TableOp → Prop
  | .schedule tid toutMs => TimeFits c (tid, toutMs)
  | _ => True

instance (s : TimerTable) (op : TableOp) : Decidable (Fits c s op) := by
  cases op <;> unfold Fits <;> infer_instance

end Sdfirm.Timer
