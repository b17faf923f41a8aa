import Mathlib

/-!
# The T=0 engine (`kernel/scs/ifd_t0.c`)

A command is parsed from the exchange buffer (`ifd_t0_xfr_parse`) and sent
to the card, driven by the card's procedure bytes. The loop of
`ifd_xchg_sync` sends the bytes of a block and then receives `ne` bytes one
at a time; after the last it calls `ifd_t0_ne_expire`, which sets up the
next block. `feed` is what the engine does with one byte of the card:
command and response share the buffer, so the byte is stored there, and the
bytes that go out before the next one is read are added to `sent`.

`scs_size_t` and `scs_off_t` have `bits` bits (16, or 32 with extended
APDUs), and `Config` derives this and `IFD_BUF_SIZE` from `SCS_APDU_MAX`. Waiting times and their events are left out, and so are
`CONFIG_IFD_T0_6C` and `CONFIG_IFD_T0_APDU`, which add a field whose name is
not a C identifier.
-/

namespace Sdfirm.IfdT0

abbrev Byte := BitVec 8

structure Config where
  /-- `SCS_APDU_MAX` -/
  apduMax : Nat
  apduMax_ge : 256 ≤ apduMax
  apduMax_le : apduMax ≤ 65536

/-- `IFD_BUF_SIZE`. -/
def Config.bufSize (c : Config) : Nat := c.apduMax + if 256 < c.apduMax then 8 else 5

/-- The width of `scs_off_t` and `scs_size_t`. -/
def Config.bits (c : Config) : Nat := if c.apduMax ≤ 256 then 16 else 32

/-- The error codes the engine returns. -/
inductive ScsErr where
  | overrun
deriving DecidableEq, Repr

/-- `struct ifd_xchg_t0`. -/
structure XchgT0 where
  cmpl : Bool
  ins : Byte
  lc : Nat
  le : Nat
  nc : Nat
  ne : Nat
  tx : Nat
  rx : Nat

/-- The block in transfer, `ifd_xfr_ctrl`: `rx` bytes of it have been received. -/
structure XfrCtrl where
  txStart : Nat
  nc : Nat
  rxStart : Nat
  ne : Nat
  rx : Nat

/-- The slot: `ifd_xchg_buff`, the transfer, the bytes put on the line so far, and the
length given to `ifd_xchg_end` once the exchange has stopped. -/
structure Slot where
  buf : Nat → Byte
  t0 : XchgT0
  xfr : XfrCtrl
  sent : List Byte
  ended : Option Nat

/-! ## The command -/

/-- `Le` as its byte gives it: 0 stands for 256. -/
def leOf (b : Byte) : Nat := if b.toNat = 0 then 256 else b.toNat

/-- `ifd_t0_xfr_parse` with `CONFIG_IFD_XCHG_APDU`. -/
def xfrParse (s : Slot) (nc : Nat) : Except ScsErr Slot :=
  if nc < 4 then .error .overrun
  else
    let ins := s.buf 1
    let accept := fun (buf : Nat → Byte) (lc le : Nat) =>
      (.ok { s with buf, t0 := { s.t0 with ins, lc, le, nc := lc + 5, ne := le + 2 } } : Except ScsErr Slot)
    if nc = 4 then accept (Function.update s.buf 4 0) 0 0
    else if nc = 5 then accept s.buf 0 (leOf (s.buf 4))
    else
      let lc := (s.buf 4).toNat
      let offset := 6 + lc
      if offset < nc then .error .overrun
      else if nc = offset then accept s.buf lc (leOf (s.buf (nc - 1)))
      else accept s.buf lc 0

/-- `ifd_t0_xfr_parse` without `CONFIG_IFD_XCHG_APDU`. -/
def xfrParseTpdu (s : Slot) (nc : Nat) : Except ScsErr Slot :=
  if nc < 5 then .error .overrun
  else
    let ins := s.buf 1
    let accept := fun (lc le : Nat) =>
      (.ok { s with t0 := { s.t0 with ins, lc, le, nc := lc + 5, ne := le + 2 } } : Except ScsErr Slot)
    if nc = 5 then accept 0 (leOf (s.buf 4))
    else
      let lc := (s.buf 4).toNat
      if nc ≠ lc + 5 then .error .overrun
      else accept lc 0

/-- `ifd_t0_xchg_init`. -/
def xchgInit (apdu : Bool) (s : Slot) (nc : Nat) : Except ScsErr Slot :=
  ((if apdu then xfrParse s nc else xfrParseTpdu s nc)).map fun s =>
    { s with t0 := { s.t0 with tx := 0, rx := 0 } }

/-! ## The transfer -/

/-- The bytes of the block go out: the first inner loop of `ifd_xchg_sync`. -/
def transmit (s : Slot) : Slot :=
  { s with sent := s.sent ++ (List.range s.xfr.nc).map fun i => s.buf (s.xfr.txStart + i) }

variable (bits : Nat)

/-- `ifd_t0_xfr_block`. -/
def xfrBlock (s : Slot) (nc ne : Nat) : Slot :=
  { s with
    xfr := ⟨s.t0.tx, nc, s.t0.rx, ne, 0⟩
    t0 := { s.t0 with tx := (s.t0.tx + nc) % 2 ^ bits, rx := (s.t0.rx + ne) % 2 ^ bits } }

/-- `ifd_t0_xchg_aval`, and `ifd_xchg_start` with the command header going out. -/
def xchgAval (s : Slot) : Slot :=
  transmit { s with
    xfr := ⟨s.t0.tx, 5, s.t0.rx, 1, 0⟩
    t0 := { s.t0 with tx := s.t0.tx + 5, rx := s.t0.rx + 1, cmpl := false } }

def sw1_6x (b : Byte) : Bool := b &&& 0xF0 = 0x60

def sw1_9x (b : Byte) : Bool := b &&& 0xF0 = 0x90

/-- `a - b` of `scs_size_t`. -/
def subSize (a b : Nat) : Nat := (a + 2 ^ bits - b) % 2 ^ bits

/-- `ifd_xfr_read_last`. -/
def readLast (s : Slot) : Byte := s.buf ((s.xfr.rxStart + (s.xfr.ne - 1)) % 2 ^ 32)

/-- `rx--`. -/
def rxBack (s : Slot) : Slot := { s with t0 := { s.t0 with rx := subSize bits s.t0.rx 1 } }

/-- `__ifd_t0_ne_expire_proc`. -/
def neExpireProc (s : Slot) : Slot :=
  let sw1 := readLast s
  if sw1_6x sw1 || sw1_9x sw1 then
    if sw1 = 0x60 then xfrBlock bits (rxBack bits s) 0 1
    else
      let s := xfrBlock bits s 0 1
      { s with t0 := { s.t0 with cmpl := true } }
  else
    let s := rxBack bits s
    let sending := s.t0.tx < s.t0.nc
    if sw1 ^^^ s.t0.ins ≠ 0 then
      if sending then xfrBlock bits s 1 1 else xfrBlock bits s 0 2
    else
      if sending then xfrBlock bits s (s.t0.nc - s.t0.tx) 1
      else xfrBlock bits s 0 (subSize bits (s.t0.ne - 1) s.t0.rx)

/-- `__ifd_t0_ne_expire_cmpl`. -/
def neExpireCmpl (s : Slot) : Slot := { s with ended := some s.t0.rx }

def neExpire (s : Slot) : Slot := if s.t0.cmpl then neExpireCmpl s else neExpireProc bits s

/-- One byte from the card: it is stored, and after the last byte of the block the next
block is set up and its bytes go out. A stopped engine reads no more, and neither does one
whose block has length 0. -/
def feed (s : Slot) (b : Byte) : Slot :=
  if s.ended.isSome ∨ s.xfr.ne ≤ s.xfr.rx then s
  else
    let s := { s with
      buf := Function.update s.buf ((s.xfr.rxStart + s.xfr.rx) % 2 ^ 32) b
      xfr := { s.xfr with rx := s.xfr.rx + 1 } }
    if s.xfr.rx = s.xfr.ne then
      let s := neExpire bits s
      if s.ended.isSome then s else transmit s
    else s

/-- An exchange: the engine is started and reads the card's bytes. -/
def exchange (s : Slot) (stream : List Byte) : Slot := stream.foldl (feed bits) (xchgAval s)

end Sdfirm.IfdT0
