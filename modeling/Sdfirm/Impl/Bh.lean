import Sdfirm.Impl.Bitops

/-!
# Bottom halves (`kernel/bh.c`)

A bottom half is awakened by setting its bit in `bh_awakes`, in an interrupt
or in a handler. `bh_loop` goes over the bits from 0 on and calls the handlers
of those that are set; a handler that has to wait calls `bh_sync`, which goes
round the bits but should leave out the console.

A handler is any function of the state, with its own variables in `env`. All
calls of handlers are kept in `ran`.
-/

namespace Sdfirm.Bh

open Bitops (Bitmap UnitBits bitopWord bitopMask findNextSetBit)

structure Config where
  /-- `BITS_PER_UNIT` -/
  unit : Nat
  /-- `NR_BHS`, which is also `INVALID_BH` -/
  nrBhs : Nat
  /-- `console_bh`; `INVALID_BH` if there is no console -/
  consoleBh : Nat
  unitBits : UnitBits unit
  nrBhs_pos : 0 < nrBhs
  /-- `bh_t` has 8 bits. -/
  nrBhs_lt : nrBhs < 2 ^ 8

variable (cfg : Config) {σ : Type}

theorem Config.unit_pos : 0 < cfg.unit := by
  obtain h | h | h | h := cfg.unitBits <;> omega

structure State (σ : Type) where
  /-- `bh_awakes` -/
  awakes : Bitmap
  /-- The bottom halves whose handlers have been called -/
  ran : List Nat
  /-- What else the handlers use -/
  env : σ
  /-- The words of the bitmap have `BITS_PER_UNIT` bits. -/
  awakes_lt : ∀ i, awakes i < 2 ^ cfg.unit

/-- The events of a handler. -/
inductive Event where
  /-- `BH_WAKEUP` -/
  | wakeup
  /-- `BH_POLLIRQ` -/
  | pollirq
  deriving DecidableEq, Repr

/-- `bh_cb`. -/
abbrev Handler (σ : Type) := Event → State cfg σ → State cfg σ

theorem bitopMask_lt (bh : Nat) : bitopMask cfg.unit bh < 2 ^ cfg.unit := by
  rw [bitopMask, Nat.one_shiftLeft]
  exact Nat.pow_lt_pow_right Nat.one_lt_two (Nat.mod_lt _ cfg.unit_pos)

theorem update_lt {addr : Bitmap} (haddr : ∀ i, addr i < 2 ^ cfg.unit) {v : Nat} (hv : v < 2 ^ cfg.unit) (w i : Nat) :
    Function.update addr w v i < 2 ^ cfg.unit := by
  rw [Function.update_apply]
  split
  · exact hv
  · exact haddr i

variable {cfg}

/-- `bh_resume`. -/
def bhResume (bh : Nat) (s : State cfg σ) : State cfg σ :=
  { s with
    awakes := Bitops.setBit cfg.unit bh s.awakes
    awakes_lt := update_lt cfg s.awakes_lt (Nat.or_lt_two_pow (s.awakes_lt _) (bitopMask_lt cfg bh)) _ }

/-- `bh_suspend`. -/
def bhSuspend (bh : Nat) (s : State cfg σ) : State cfg σ :=
  { s with
    awakes := Bitops.clearBit cfg.unit bh s.awakes
    awakes_lt := update_lt cfg s.awakes_lt (lt_of_le_of_lt Nat.and_le_left (s.awakes_lt _)) _ }

variable (handlers : List (Handler cfg σ))

/-- `bh_register_handler`, with the bottom half it returns. -/
def bhRegisterHandler (handler : Handler cfg σ) : Option (Nat × List (Handler cfg σ)) :=
  if handlers.length = cfg.nrBhs then none else some (handlers.length, handlers ++ [handler])

/-- `bh_run`, which fails if there is no handler. -/
def bhRun (bh : Nat) (event : Event) (s : State cfg σ) : Option (State cfg σ) :=
  handlers[bh]?.map fun handler => handler event { s with ran := s.ran ++ [bh] }

/-- `bh_resumed`. -/
def bhResumed (lastBh : Nat) (recursive : Bool) (s : State cfg σ) : Nat :=
  let bh := findNextSetBit cfg.unit s.awakes cfg.nrBhs lastBh
  if lastBh = 0 ∨ bh ≠ cfg.nrBhs ∨ recursive = false then bh
  else findNextSetBit cfg.unit s.awakes cfg.nrBhs 0

/-- `bh_run_once`. -/
def bhRunOnce (bh : Nat) (recursive : Bool) (s : State cfg σ) : Option (Nat × State cfg σ) :=
  let nextBh := bhResumed bh recursive s
  if nextBh = cfg.nrBhs then some (nextBh, s)
  else (bhRun handlers nextBh .wakeup (bhSuspend nextBh s)).map fun s =>
    (if recursive = true ∧ nextBh + 1 = cfg.nrBhs then 0 else nextBh + 1, s)

/-- The body of the loop in `__bh_sync`. -/
def bhSyncStep (recursive : Bool) (c : Nat × State cfg σ) : Option (Nat × State cfg σ) :=
  if recursive = false ∨ c.1 ≠ cfg.consoleBh then bhRunOnce handlers c.1 recursive c.2 else some (c.1 + 1, c.2)

/-- The loop of `__bh_sync`; it fails if it has not ended after `fuel` repetitions. -/
def bhSyncLoop (recursive : Bool) : (fuel : Nat) → Nat × State cfg σ → Option (State cfg σ)
  | 0, c => if c.1 = cfg.nrBhs then some c.2 else none
  | fuel + 1, c =>
    if c.1 = cfg.nrBhs then some c.2 else (bhSyncStep handlers recursive c).bind (bhSyncLoop recursive fuel)

/-- `__bh_sync`. -/
def bhSync (fuel : Nat) (recursive : Bool) (s : State cfg σ) : Option (State cfg σ) :=
  bhSyncLoop handlers recursive fuel (0, s)

/-- `irq_poll_bh` of `kernel/irq.c`, for the pollers in `irq_poll_regs`. -/
def irqPollBh (pollRegs : Nat → Bool) (sync : Bool) (s : State cfg σ) : Option (State cfg σ) :=
  (List.range cfg.nrBhs).foldlM (fun s bh =>
    if pollRegs bh = true ∧ (sync = false ∨ bh ≠ cfg.consoleBh) then bhRun handlers bh .pollirq s else some s) s

/-- The body of the loop in `bh_loop`. -/
def bhLoop (fuel : Nat) (pollRegs : Nat → Bool) (s : State cfg σ) : Option (State cfg σ) :=
  (bhSync handlers fuel false s).bind (irqPollBh handlers pollRegs false)

end Sdfirm.Bh
