import Mathlib

/-!
# Keyboard controller style master (`kernel/ipmi/kcs_master.c`)

The master polls the status register of the BMC until a buffer is free or full,
and looks at the state bits of the register before it goes on. The reads of the
register in polls and in `kcs_is_state` are numbered apart, so that `state k` is
the status that the BMC shows at the `k`-th check.
-/

namespace Sdfirm.Kcs

abbrev Byte := BitVec 8

/-- `KCS_STATE_MASK` -/
def stateMask : Byte := 0xc0

/-- `KCS_IDLE_STATE` -/
def idleState : Byte := 0x00

/-- `KCS_READ_STATE` -/
def readState : Byte := 0x40

/-- `KCS_WRITE_STATE` -/
def writeState : Byte := 0x80

/-- `KCS_IBF` -/
def ibf : Byte := 0x02

/-- `KCS_OBF` -/
def obf : Byte := 0x01

/-- `KCS_WRITE_START` -/
def writeStart : Byte := 0x61

/-- `KCS_WRITE_END` -/
def writeEnd : Byte := 0x62

/-- `KCS_READ` -/
def read : Byte := 0x68

/-- The registers that are written -/
inductive Port where
  | dataIn
  | command
  deriving DecidableEq, Repr

/-- The BMC: what it shows at each poll, at each check of the state and at each read of the data. It goes on serving its
buffers, so that no poll lasts for ever. -/
structure Bmc where
  poll : Nat → Byte
  state : Nat → Byte
  data : Nat → Byte
  ibfClear : ∀ n, ∃ m ≥ n, poll m &&& ibf = 0
  obfClear : ∀ n, ∃ m ≥ n, poll m &&& obf = 0
  obfSet : ∀ n, ∃ m ≥ n, poll m &&& obf ≠ 0

/-- The reads so far, and what has been written -/
structure Io where
  polls : Nat
  checks : Nat
  reads : Nat
  written : List (Byte × Port)
  deriving DecidableEq, Repr

def Io.init : Io := ⟨0, 0, 0, []⟩

variable (bmc : Bmc)

/-- `lpc_io_write8`. -/
def Io.write (io : Io) (value : Byte) (port : Port) : Io := { io with written := io.written ++ [(value, port)] }

/-- A loop over reads of the status register that ends when `cond` holds, with at most `steps` reads -/
def waitFor (cond : Byte → Bool) : Nat → Io → Option Io
  | 0, _ => none
  | steps + 1, io =>
    if cond (bmc.poll io.polls) then some { io with polls := io.polls + 1 } else waitFor cond steps { io with polls := io.polls + 1 }

/-- `kcs_wait_ibf_0`. -/
def kcsWaitIbf0 (steps : Nat) (io : Io) : Option Io := waitFor bmc (fun s => s &&& ibf = 0) steps io

/-- `kcs_wait_obf_1`. -/
def kcsWaitObf1 (steps : Nat) (io : Io) : Option Io := waitFor bmc (fun s => s &&& obf ≠ 0) steps io

/-- `kcs_clear_obf`, which drops data. -/
def kcsClearObf : Nat → Io → Option Io
  | 0, _ => none
  | steps + 1, io =>
    if bmc.poll io.polls &&& obf ≠ 0 then kcsClearObf steps { io with polls := io.polls + 1, reads := io.reads + 1 }
    else some { io with polls := io.polls + 1 }

/-- The status shows this state. -/
def InState (state status : Byte) : Prop := status &&& stateMask = state

instance (state status : Byte) : Decidable (InState state status) := inferInstanceAs (Decidable (_ = _))

/-- `kcs_is_state`. -/
def kcsIsState (state : Byte) (io : Io) : Bool × Io := (InState state (bmc.state io.checks), { io with checks := io.checks + 1 })

/-- A write of `kcs_write` with the check after it: the state is still the write state. -/
def send (steps : Nat) (value : Byte) (port : Port) (io : Io) : Option (Bool × Io) := do
  let io ← kcsWaitIbf0 bmc steps (io.write value port)
  let (ok, io) := kcsIsState bmc writeState io
  if ok then return (true, ← kcsClearObf bmc steps io) else return (false, io)

/-- The loop of `kcs_write` from `i` on; the result has the last `i`. -/
def writeLoop (steps : Nat) (data : Nat → Byte) : Nat → Nat → Io → Option (Bool × Nat × Io)
  | 0, i, io => some (true, i, io)
  | left + 1, i, io => do
    let (ok, io) ← send bmc steps (data i) .dataIn io
    if ok then writeLoop steps data left (i + 1) io else return (false, i, io)

/-- `kcs_write`, with at most `steps` reads in each poll. -/
def kcsWrite (steps : Nat) (data : Nat → Byte) (len : Nat) (io : Io) : Option (Int × Io) := do
  let io ← kcsWaitIbf0 bmc steps io
  let io ← kcsClearObf bmc steps io
  let (ok, io) ← send bmc steps writeStart .command io
  if !ok then return (-0, io)
  let (ok, i, io) ← writeLoop bmc steps data (len - 1) 0 io
  if !ok then return (-(i : Int), io)
  let (ok, io) ← send bmc steps writeEnd .command io
  if !ok then return (-(i : Int), io)
  return (len, io.write (data i) .dataIn)

/-- `lpc_io_read8(KCS_DATA_OUT)`. -/
def readData (io : Io) : Byte × Io := (bmc.data io.reads, { io with reads := io.reads + 1 })

/-- The loop of `kcs_read` from `i` on. -/
def readLoop (steps len : Nat) : Nat → Nat → (Nat → Byte) → Io → Option (Int × (Nat → Byte) × Io)
  | 0, _, data, io => some (-(len : Int), data, io)
  | left + 1, i, data, io => do
    let io ← kcsWaitIbf0 bmc steps io
    let (reading, io) := kcsIsState bmc readState io
    if !reading then
      let (idle, io) := kcsIsState bmc idleState io
      if idle then
        let io ← kcsWaitObf1 bmc steps io
        let (value, io) := readData bmc io
        return (i, Function.update data (i + 1) value, io)
      else return (-(i : Int), data, io)
    else
      let io ← kcsWaitObf1 bmc steps io
      let (value, io) := readData bmc io
      readLoop steps len left (i + 1) (Function.update data i value) (io.write read .dataIn)

/-- `kcs_read`, with at most `steps` reads in each poll. -/
def kcsRead (steps : Nat) (data : Nat → Byte) (len : Nat) (io : Io) : Option (Int × (Nat → Byte) × Io) :=
  readLoop bmc steps len (len - 1) 0 data io

end Sdfirm.Kcs
