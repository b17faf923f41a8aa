import Sdfirm.Impl.Kcs
import Sdfirm.Impl.I2c

/-!
# What the bus controllers have to do

The master of a KCS interface, and the transfers of an I2C bus.
-/

/-!
## What the KCS master has to report
-/

namespace Sdfirm.Kcs

/-- What `kcs_write` has to write -/
def framed (data : Nat → Byte) (len : Nat) : List (Byte × Port) :=
  (writeStart, .command) :: ((List.range (len - 1)).map (fun i => (data i, .dataIn)) ++
    [(writeEnd, .command), (data (len - 1), .dataIn)])

/-- The BMC was in the write state at each check, and the data has been sent. -/
def Sent (bmc : Bmc) (data : Nat → Byte) (len : Nat) (io : Io) : Prop :=
  (∀ k < io.checks, InState writeState (bmc.state k)) ∧ io.written = framed data len

/-- What `kcs_write` returns is right. -/
def WriteReported (bmc : Bmc) (data : Nat → Byte) (len : Nat) (r : Int × Io) : Prop :=
  (r.1 = len ↔ Sent bmc data len r.2) ∧ (¬Sent bmc data len r.2 → r.1 < 0)

/-- The BMC presents `n` bytes in the read state and goes idle then. -/
def Presented (bmc : Bmc) (len n : Nat) : Prop :=
  n < len - 1 ∧ (∀ k < n, InState readState (bmc.state k)) ∧ ¬InState readState (bmc.state n) ∧ InState idleState (bmc.state (n + 1))

/-- What `kcs_read` returns is right. -/
structure ReadReported (bmc : Bmc) (len : Nat) (r : Int) (data : Nat → Byte) : Prop where
  presented : ∀ n : Nat, r = n ↔ Presented bmc len n
  data : ∀ n, Presented bmc len n → ∀ k < n, data k = bmc.data k
  error : (¬∃ n, Presented bmc len n) → r < 0

end Sdfirm.Kcs

/-!
## What is asked for in an I2C transfer

`xferCalls` are the calls of a transfer: a start condition, the address, and then
one `iocb` for each byte of data as long as all bytes before it have been
acknowledged. It depends on the transfer and on what becomes of its bytes, and
on nothing that transfers before it have left.
-/

namespace Sdfirm.I2c

variable (c : Controller)

/-- How many of `n` bytes are acknowledged before the first one that is not. -/
def acks (first n : Nat) : Nat := ((List.range n).takeWhile fun i => c.outcome (first + i) = .ack).length

namespace Xfer

variable (x : Xfer)

/-- The direction in the address. -/
def dir : Dir := if x.txlen = 0 then .rx else .tx

/-- The calls of the device when all bytes are acknowledged. -/
def iocbs : List Call := List.replicate x.txlen (.iocb .tx) ++ List.replicate x.rxlen (.iocb .rx)

/-- The number of bytes with the address. -/
def total : Nat := 1 + x.txlen + x.rxlen

/-- The number of bytes up to the first one that is not acknowledged, when the first of them is the byte `first` of
the controller. -/
def bytes (first : Nat) : Nat := min (acks c first x.total + 1) x.total

end Xfer

/-- The calls of a transfer. -/
def xferCalls (first : Nat) (x : Xfer) : List Call :=
  [.start, .address (i2cAddrMode x.slave x.dir)] ++ x.iocbs.take (acks c first x.total) ++
    if x.rxlen = 0 then [.stop] else []

/-- The calls of one transfer after the other. -/
def allCalls : Nat → List Xfer → List Call
  | _, [] => []
  | first, x :: xs => xferCalls c first x ++ allCalls (first + x.bytes c first) xs

end Sdfirm.I2c
