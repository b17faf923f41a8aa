import Mathlib

/-!
# Requests of the USB device stack (`kernel/usb/usb_dev.c`)

A request moves bytes between an `iocb` callback and the packets of one
endpoint. In asynchronous mode the callback is called once for each packet and
always from its start; the counters of `struct usb_transfer` decide which of
its calls move a byte. In synchronous mode a call that needs the next packet
waits for it. The widths of the counters are those of `urb_size_t` and
`utb_size_t`.

A callback is a program (`Io`) in the calls it makes, over variables of its
own. `Stop` says why a call does not return: a failed `BUG_ON`, a loop that has
used up its iterations, the wait for a packet that has not come, or a byte read
from a FIFO that has none left.
Halted endpoints are left out.
-/

namespace Sdfirm.Usbd

abbrev Byte := BitVec 8

inductive Dir where
  | input
  | output
  deriving DecidableEq, Repr

/-- Whether `usbd_request_syncing` holds: never (`CONFIG_USBD_XFR_ASYNC`), always
(`CONFIG_USBD_XFR_SYNC`), or between `usbd_request_set_sync` at the start of the callback and
`usbd_request_clear_sync` at its end (`CONFIG_USBD_XFR_ADAPT`). -/
inductive Mode where
  | async
  | sync
  | adapt
  deriving DecidableEq, Repr

structure Endpoint where
  /-- `usbd_endpoint_size` -/
  size : Nat
  /-- `usbd_request_dir` -/
  dir : Dir
  /-- `__usbd_endp_zlp_test` -/
  zlp : Bool
  mode : Mode
  /-- `CONFIG_USBD_XFR_MASS` -/
  mass : Bool
  size_pos : 0 < size
  size_lt : size < 2 ^ 8

namespace Endpoint

variable (e : Endpoint)

/-- The number of values of `urb_size_t`. -/
def urbSize : Nat := if e.mass then 2 ^ 32 else 2 ^ 16

/-- `usbd_request_syncing` in the callback. -/
def syncing : Bool := e.mode ≠ .async

/-- `usbd_request_syncing` outside of it. -/
def syncingEnd : Bool := e.mode = .sync

end Endpoint

structure Dev where
  reqAll : Nat
  reqCur : Nat
  xfrAll : Nat
  xfrCur : Nat
  iter : Nat
  /-- The bytes written to the FIFO of an IN endpoint. -/
  fifo : List Byte
  /-- The packets an IN endpoint has sent. -/
  sent : List (List Byte)
  /-- The packets that have come in on an OUT endpoint. The first one is in the FIFO, as far as it has not been
  read. -/
  rx : List (List Byte)
  /-- `USBD_REQ_FLAG_HARD` -/
  running : Bool
  /-- `USBD_REQ_FLAG_ASYNC` -/
  asyncing : Bool
  /-- `__usbd_request_exit` has been called. -/
  ended : Bool
  deriving DecidableEq, Repr

inductive Stop where
  | bug
  | loop
  | wait
  | empty
  deriving DecidableEq, Repr

abbrev Res := Except Stop

variable (e : Endpoint)

/-! ## Counters -/

/-- `usbd_request_unhandled`. -/
def requestUnhandled (d : Dev) : Nat := (d.reqAll + e.urbSize - d.reqCur) % e.urbSize

/-- `usbd_transfer_unhandled`. -/
def transferUnhandled (d : Dev) : Nat := (d.xfrAll + 2 ^ 8 - d.xfrCur) % 2 ^ 8

/-- `usbd_transfer_partial`. -/
def transferPartial (d : Dev) : Bool := d.xfrCur < e.size

/-- `usbd_transfer_last`. -/
def transferLast (d : Dev) : Bool := if e.zlp then transferPartial e d else requestUnhandled e d = 0

/-- `usbd_transfer_limit`. -/
def transferLimit (d : Dev) : Dev :=
  match e.dir with
  | .input =>
    let left := (requestUnhandled e d + e.urbSize - d.xfrCur) % e.urbSize
    { d with xfrAll := if left < e.size then left % 2 ^ 8 else e.size }
  | .output => d

/-- `usbd_hw_transfer_open`: on an OUT endpoint the controller says how many bytes the packet has. -/
def hwTransferOpen (d : Dev) : Res Dev :=
  match e.dir, d.rx with
  | .input, _ => pure d
  | .output, [] => throw .wait
  | .output, p :: _ => pure { d with xfrAll := p.length % 2 ^ 8 }

/-- `usbd_hw_transfer_close`: the packet in the FIFO is sent, or has been read. -/
def hwTransferClose (d : Dev) : Dev :=
  match e.dir with
  | .input => { d with sent := d.sent ++ [d.fifo], fifo := [] }
  | .output => { d with rx := d.rx.tail }

/-- `usbd_transfer_reset`. -/
def transferReset (d : Dev) : Res Dev := hwTransferOpen e (transferLimit e { d with xfrCur := 0 })

/-- `usbd_request_commit`. -/
def requestCommit (length : Nat) (d : Dev) : Dev := transferLimit e { d with reqAll := length % e.urbSize }

/-! ## Bytes -/

/-- A byte has been moved, and a packet that is full is closed. -/
def advance (d : Dev) : Dev :=
  let d := { d with xfrCur := (d.xfrCur + 1) % 2 ^ 8, reqCur := (d.reqCur + 1) % e.urbSize }
  if d.xfrCur = e.size then hwTransferClose e d else d

def iterNext (d : Dev) : Dev := { d with iter := (d.iter + 1) % e.urbSize }

/-- `usbd_hw_write_byte`. -/
def hwWriteByte (b : Byte) (d : Dev) : Dev := { d with fifo := d.fifo ++ [b] }

/-- `usbd_hw_read_byte`. -/
def hwReadByte (d : Dev) : Res (Byte × Dev) :=
  match d.rx with
  | (b :: p) :: ps => pure (b, { d with rx := p :: ps })
  | _ => throw .empty

/-- `usbd_inb_async`. -/
def inbAsync (b : Byte) (d : Dev) : Dev :=
  iterNext e (if 0 < transferUnhandled d ∧ d.reqCur = d.iter then advance e (hwWriteByte b d) else d)

/-- `usbd_inb_sync`. -/
def inbSync (b : Byte) (d : Dev) : Res Dev := do
  let d ← if d.xfrCur = e.size then transferReset e d else pure d
  return iterNext e (if 0 < requestUnhandled e d ∧ d.reqCur = d.iter then advance e (hwWriteByte b d) else d)

/-- `usbd_outb_async`. -/
def outbAsync (b : Byte) (d : Dev) : Res (Byte × Dev) := do
  let (b, d) ← if 0 < transferUnhandled d ∧ d.reqCur = d.iter then do
      let (b, d) ← hwReadByte d
      pure (b, advance e d)
    else pure (b, d)
  return (b, iterNext e d)

/-- `usbd_outb_sync`. -/
def outbSync (d : Dev) : Res (Byte × Dev) := do
  let d ← if d.xfrCur = e.size then transferReset e d else pure d
  let (b, d) ← if 0 < requestUnhandled e d ∧ d.reqCur = d.iter then do
      let (b, d) ← hwReadByte d
      pure (b, advance e d)
    else pure (0, d)
  return (b, iterNext e d)

/-- `usbd_inb`. -/
def inb (b : Byte) (d : Dev) : Res Dev := if e.syncing then inbSync e b d else pure (inbAsync e b d)

/-- `usbd_outb`. -/
def outb (b : Byte) (d : Dev) : Res (Byte × Dev) := if e.syncing then outbSync e d else outbAsync e b d

/-! ## Callbacks -/

/-- A callback that has its variables in `μ`, as the calls it makes. -/
inductive Io (μ : Type) where
  | ret (m : μ)
  | inb (b : Byte) (k : Io μ)
  | outb (b : Byte) (k : Byte → Io μ)
  | commit (length : Nat) (k : Io μ)
  /-- `usbd_iter_accel` -/
  | accel (k : Io μ)
  /-- `usbd_request_handled` -/
  | handled (k : Nat → Io μ)

namespace Io

variable {μ : Type}

/-- `usbd_inw`. -/
def inw (w : BitVec 16) (k : Io μ) : Io μ := inb (w.setWidth 8) (inb ((w >>> 8).setWidth 8) k)

/-- `usbd_inl`. -/
def inl (l : BitVec 32) (k : Io μ) : Io μ := inw (l.setWidth 16) (inw ((l >>> 16).setWidth 16) k)

end Io

variable {μ : Type}

/-- A callback is called. -/
def exec : Io μ → Dev → Res (μ × Dev)
  | .ret m, d => pure (m, d)
  | .inb b k, d => do
    let d ← inb e b d
    exec k d
  | .outb b k, d => do
    let (b, d) ← outb e b d
    exec (k b) d
  | .commit length k, d => exec k (requestCommit e length d)
  | .accel k, d => exec k { d with iter := d.reqCur }
  | .handled k, d => exec (k d.reqCur) d

/-! ## Requests -/

/-- `usbd_request_reap`, with at most `fuel` iterations. -/
def requestReap : (fuel : Nat) → (reap : Byte) → Dev → Res Dev
  | 0, _, d => if e.dir = .output ∧ 0 < transferUnhandled d then throw .loop else pure d
  | fuel + 1, reap, d =>
    if e.dir = .output ∧ 0 < transferUnhandled d then do
      -- the byte is read after the callback, so in the mode that holds there
      let (reap, d) ← if e.syncingEnd then outbSync e d else outbAsync e reap d
      requestReap fuel reap d
    else pure d

/-- `usbd_request_end` up to the test for the last packet. -/
def requestClose (d : Dev) : Res Dev :=
  if transferPartial e d then
    pure (if e.dir = .input ∨ d.asyncing = false then hwTransferClose e d else d)
  else if e.syncingEnd ∧ e.zlp then do
    let d ← transferReset e d
    return hwTransferClose e d
  else pure d

/-- `usbd_request_end`. -/
def requestEnd (d : Dev) : Res Dev := do
  let d ← requestClose e d
  return if transferLast e d ∧ (e.dir = .output ∨ e.syncingEnd) then { d with asyncing := true } else d

/-- `__usbd_transfer_data`, for a callback with its variables. -/
def transferData (fuel : Nat) (iocb : μ → Io μ) (m : μ) (d : Dev) : Res (μ × Dev) := do
  let d ← transferReset e { d with iter := 0 }
  if d.reqAll < d.reqCur then throw .bug
  let (m, d) ← exec e (iocb m) d
  let d ← requestReap e fuel 0 d
  let d ← requestEnd e d
  return (m, d)

/-- `__usbd_request_exit`, which calls `done` and clears the counters. -/
def requestExit (d : Dev) : Dev :=
  { d with running := false, asyncing := false, ended := true, reqAll := 0, reqCur := 0, xfrAll := 0, xfrCur := 0 }

/-- `usbd_transfer_iocb`. -/
def transferIocb (fuel : Nat) (iocb : μ → Io μ) (m : μ) (d : Dev) : Res (μ × Dev) :=
  if d.running = false then transferData e fuel iocb m { d with running := true }
  else if transferLast e d then pure (m, requestExit d)
  else transferData e fuel iocb m d

/-- What the endpoint does next for a request that has not ended: `usbd_async_iocb` if it has been asked for,
since it holds back the interrupts, and else the interrupt `usbd_transfer_txin` or
`usbd_transfer_rxout`, the latter if there is a packet. -/
def event (fuel : Nat) (iocb : μ → Io μ) (m : μ) (d : Dev) : Res (μ × Dev) :=
  if d.ended then pure (m, d)
  else if d.asyncing then transferIocb e fuel iocb m { d with asyncing := false }
  else if e.dir = .output ∧ d.rx = [] then pure (m, d)
  else transferIocb e fuel iocb m d

/-- The endpoint does what it can `n` times. -/
def events (fuel : Nat) (iocb : μ → Io μ) : (n : Nat) → μ → Dev → Res (μ × Dev)
  | 0, m, d => pure (m, d)
  | n + 1, m, d => do
    let (m, d) ← event e fuel iocb m d
    events fuel iocb n m d

/-- `usbd_request_submit` on an endpoint that has no request; `rx` are the packets the host sends. -/
def requestSubmit (length : Nat) (rx : List (List Byte)) : Dev :=
  transferLimit e
    { reqAll := length % e.urbSize, reqCur := 0, xfrAll := 0, xfrCur := 0, iter := 0, fifo := [], sent := [], rx
      running := false, asyncing := false, ended := false }

end Sdfirm.Usbd
