import Mathlib

/-!
# Transfers of an I2C master (`kernel/i2c/i2c.c`)

A transfer goes through the states `WAIT`, `WRITE` and `READ`. The controller
reports the start condition, each byte and perhaps the stop condition by
`i2c_set_status`, which raises an event, and the bottom half `i2c_handle_xfr`
handles the events in the state it finds. `i2c_master_submit` waits for `IDLE`.

The addressing is that of 7 bits, without `CONFIG_I2C_10BIT_ADDRESS`. The
controller makes its reports in the order of what has been asked of it. It is
`prompt` if it makes them before the function that asks returns; otherwise they
come in later calls of `bh_sync`. The device moves the bytes it is told to by
its `iocb`. Frequencies, `i2c_status`, other masters and the slave mode are left
out.
-/

namespace Sdfirm.I2c

abbrev Byte := BitVec 8

/-- `I2C_STATE_IDLE` to `I2C_STATE_WRITE`. -/
inductive XfrState where
  | idle
  | wait
  | read
  | write
  deriving DecidableEq, Repr

/-- `I2C_STATUS_IDLE` to `I2C_STATUS_STOP`. -/
inductive Status where
  | idle
  | start
  | ack
  | nack
  | arbi
  | stop
  deriving DecidableEq, Repr

/-- `I2C_MODE_TX` and `I2C_MODE_RX`. -/
inductive Dir where
  | tx
  | rx
  deriving DecidableEq, Repr

/-- The bits `I2C_EVENT_START`, `I2C_EVENT_PAUSE`, `I2C_EVENT_ABORT` and `I2C_EVENT_STOP` of `i2c_event`. -/
structure Events where
  start : Bool := false
  pause : Bool := false
  abort : Bool := false
  stop : Bool := false
  deriving DecidableEq, Repr

/-- What becomes of a byte. -/
inductive Outcome where
  | ack
  | nack
  | arbi
  deriving DecidableEq, Repr

def Outcome.status : Outcome → Status
  | .ack => .ack
  | .nack => .nack
  | .arbi => .arbi

structure Controller where
  /-- What becomes of each byte, the addresses among them. -/
  outcome : Nat → Outcome
  /-- Reports come before the function that asks for them returns. -/
  prompt : Bool
  /-- The stop condition is reported. -/
  stops : Bool
  /-- How many reports come in each call of `bh_sync`. -/
  polls : Nat → Nat
  fair : ∀ n, ∃ m, n ≤ m ∧ 0 < polls m

/-- What is asked of the controller and of the device. -/
inductive Call where
  | start
  | stop
  | address (byte : Byte)
  | iocb (dir : Dir)
  deriving DecidableEq, Repr

/-- `struct i2c_master`. The lengths are of 16 bits. -/
structure Master where
  target : Byte
  state : XfrState
  /-- `I2C_DIR(i2c_mode)` -/
  mode : Dir
  txsubmit : Nat
  rxsubmit : Nat
  limit : Nat
  current : Nat
  event : Events
  /-- The reports that have not come yet. -/
  reports : List Status
  /-- The number of bytes the controller has been given or asked for. -/
  bytes : Nat
  /-- The number of calls of `bh_sync`. -/
  syncs : Nat
  log : List Call
  deriving DecidableEq, Repr

variable (c : Controller)

/-- `I2C_ADDR_LEN`. -/
def i2cAddrLen : Nat := 1

/-! ## Reports -/

/-- `i2c_set_status`. -/
def i2cSetStatus (status : Status) (s : Master) : Master :=
  match status with
  | .idle => s
  | .start => { s with event := { s.event with start := true } }
  | .stop => { s with event := { s.event with stop := true } }
  | .arbi | .nack => { s with event := { s.event with abort := true } }
  | .ack =>
    let s := { s with current := (s.current + 1) % 2 ^ 16 }
    if s.current = s.limit then { s with event := { s.event with stop := true } }
    else { s with event := { s.event with pause := true } }

/-- The next `n` reports come. -/
def deliver : Nat → Master → Master
  | 0, s => s
  | n + 1, s =>
    match s.reports with
    | [] => s
    | status :: reports => deliver n (i2cSetStatus status { s with reports })

/-- The controller has something to report. -/
def report (status : Status) (s : Master) : Master :=
  let s := { s with reports := s.reports ++ [status] }
  if c.prompt then deliver s.reports.length s else s

/-- `i2c_hw_start_condition`. -/
def i2cHwStartCondition (s : Master) : Master := report c .start { s with log := s.log ++ [.start] }

/-- `i2c_hw_stop_condition`. -/
def i2cHwStopCondition (s : Master) : Master :=
  let s := { s with log := s.log ++ [.stop] }
  if c.stops then report c .stop s else s

/-- `i2c_hw_write_byte` and `i2c_hw_read_byte`. -/
def i2cHwByte (s : Master) : Master := report c (c.outcome s.bytes).status { s with bytes := s.bytes + 1 }

/-! ## Bytes -/

/-- `i2c_write_byte`. -/
def i2cWriteByte (s : Master) : Master := if s.state = .write then i2cHwByte c s else s

/-- `i2c_read_byte`. -/
def i2cReadByte (s : Master) : Master := if s.state = .read then i2cHwByte c s else s

/-- `i2c_addr_mode`. -/
def i2cAddrMode (addr : Byte) : Dir → Byte
  | .tx => addr <<< 1
  | .rx => addr <<< 1 ||| 1

/-- `i2c_write_address`. -/
def i2cWriteAddress (s : Master) : Master :=
  let dir : Dir := if s.txsubmit ≤ i2cAddrLen then .rx else .tx
  i2cWriteByte c { s with log := s.log ++ [.address (i2cAddrMode s.target dir)] }

/-- `i2c_device->iocb(1)`. -/
def iocb (s : Master) : Master :=
  let s := { s with log := s.log ++ [Call.iocb s.mode] }
  match s.mode with
  | .tx => i2cWriteByte c s
  | .rx => i2cReadByte c s

/-! ## States -/

/-- `i2c_enter_state`. -/
def i2cEnterState (state : XfrState) (s : Master) : Master :=
  let s := { s with state }
  match state with
  | .idle => if s.rxsubmit = 0 then i2cHwStopCondition c s else s
  | .wait => i2cHwStartCondition c s
  | .write =>
    if s.current < i2cAddrLen then i2cWriteAddress c s else if s.current < s.limit then iocb c s else s
  | .read => if s.current < s.limit then iocb c s else s

/-- The case `I2C_STATE_READ` of `i2c_handle_xfr`. -/
def handleRead (event : Events) (s : Master) : Master :=
  let s := if event.pause then i2cEnterState c .read s else s
  let s := if event.abort then i2cEnterState c .idle s else s
  if event.stop then i2cEnterState c .idle s else s

/-- `I2C_EVENT_STOP` in the case `I2C_STATE_WRITE`. -/
def handleWriteStop (s : Master) : Master :=
  if 0 < s.rxsubmit then i2cEnterState c .read { s with current := 0, limit := s.rxsubmit, mode := .rx }
  else i2cEnterState c .idle s

/-- The case `I2C_STATE_WRITE`. -/
def handleWrite (event : Events) (s : Master) : Master :=
  let s := if event.pause then i2cEnterState c .write s else s
  let s := if event.abort then i2cEnterState c .idle s else s
  if event.stop then handleWriteStop c s else s

/-- The case `I2C_STATE_WAIT`. -/
def handleWait (event : Events) (s : Master) : Master :=
  if event.start then
    match s.mode with
    | .tx => i2cEnterState c .write s
    | .rx => i2cEnterState c .read s
  else s

/-- `i2c_handle_xfr`. -/
def i2cHandleXfr (s : Master) : Master :=
  let event := s.event
  if event = {} then s
  else
    let s := { s with event := {} }
    match s.state with
    | .read => handleRead c event s
    | .write => handleWrite c event s
    | .wait => handleWait c event s
    | .idle => s

/-- `bh_sync`. -/
def bhSync (s : Master) : Master := i2cHandleXfr c (deliver (c.polls s.syncs) { s with syncs := s.syncs + 1 })

/-! ## Transfers -/

/-- The arguments of `i2c_master_submit`. -/
structure Xfer where
  slave : Byte
  txlen : Nat
  rxlen : Nat
  txlen_lt : txlen < 2 ^ 16
  rxlen_lt : rxlen < 2 ^ 16

/-- The lengths in `i2c_master_submit`. -/
def submitLengths (x : Xfer) (s : Master) : Master :=
  match s.state with
  | .idle =>
    let s := { s with current := 0, txsubmit := (x.txlen + i2cAddrLen) % 2 ^ 16, rxsubmit := x.rxlen }
    if 0 < s.txsubmit then { s with limit := s.txsubmit, mode := .tx }
    else if 0 < s.rxsubmit then { s with limit := s.rxsubmit, mode := .rx }
    else s
  | .write =>
    { s with
      txsubmit := (s.txsubmit + x.txlen) % 2 ^ 16
      limit := (s.limit + x.txlen) % 2 ^ 16
      rxsubmit := (s.rxsubmit + x.rxlen) % 2 ^ 16 }
  | .read => { s with rxsubmit := (s.rxsubmit + x.rxlen) % 2 ^ 16, limit := (s.limit + x.rxlen) % 2 ^ 16 }
  | .wait => s

/-- `i2c_master_submit` up to its loop. -/
def submitStart (x : Xfer) (s : Master) : Master :=
  let s := submitLengths x { s with target := x.slave }
  if s.state = .idle then i2cEnterState c .wait s else s

/-- The loop of `i2c_master_submit`. -/
def waitIdle : Nat → Master → Option Master
  | 0, _ => none
  | fuel + 1, s => if s.state = .idle then some s else waitIdle fuel (bhSync c s)

/-- `i2c_master_submit`. -/
def i2cMasterSubmit (fuel : Nat) (x : Xfer) (s : Master) : Option Master := waitIdle c fuel (submitStart c x s)

/-- One transfer after the other. -/
def submitAll (fuel : Nat) : List Xfer → Master → Option Master
  | [], s => some s
  | x :: xs, s => (i2cMasterSubmit c fuel x s).bind (submitAll fuel xs)

/-- The master after `i2c_init`. -/
def i2cInit : Master where
  target := 0
  state := .idle
  mode := .tx
  txsubmit := 0
  rxsubmit := 0
  limit := 0
  current := 0
  event := {}
  reports := []
  bytes := 0
  syncs := 0
  log := []

end Sdfirm.I2c
