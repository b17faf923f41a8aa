import Mathlib

/-!
# The answer to reset (`kernel/scs/ifd.c`)

The answer to reset is read twice. While it comes in, `ifd_atr_expire` asks
for its bytes block by block, as far as the bytes it has say how many follow
(`feed`, `receive`). When the transfer has ended, `ifd_atr_parse` reads it
from the buffer once more (`atrParse`).

`scs_off_t` and `scs_size_t` have `bits` bits. A byte that comes in when none
has been asked for, or for which `ifd_xchg_buff` has no room, makes `feed`
return `none`. The loop over the interface bytes carries a bound on its
repetitions, and `none` stands for a loop that does not end in time: `len` is
a `uint8_t`, and after 256 bytes the parser reads the buffer from its start
again. `CONFIG_IFD_AUTO_PPS_PROP`, with which the bytes are saved as well, is
left out.
-/

namespace Sdfirm.IfdAtr

abbrev Byte := BitVec 8

structure Config where
  /-- `SCS_APDU_MAX` -/
  apduMax : Nat
  /-- The `id`s of `ifd_protos`. -/
  protos : List Byte
  apduMax_ge : 256 ≤ apduMax
  apduMax_le : apduMax ≤ 65536
  /-- `NR_IFD_PROTOS` -/
  protos_le : protos.length ≤ 2

namespace Config

variable (c : Config)

/-- `IFD_BUF_SIZE`. -/
def bufSize : Nat := c.apduMax + if 256 < c.apduMax then 8 else 5

/-- The width of `scs_off_t` and `scs_size_t`. -/
def bits : Nat := if c.apduMax ≤ 256 then 16 else 32

/-- The test `ifd_proto_pid(proto) < ifd_nr_protos`. -/
def Registered (proto : Byte) : Prop := proto ∈ c.protos

instance (proto : Byte) : Decidable (c.Registered proto) := inferInstanceAs (Decidable (_ ∈ _))

end Config

def taExists : Byte := 0x10
def tbExists : Byte := 0x20
def tcExists : Byte := 0x40
def tdExists : Byte := 0x80

/-- `TD_Y`. -/
def tdY (td : Byte) : Byte := td &&& 0xF0

/-- `TD_T`. -/
def tdT (td : Byte) : Byte := td &&& 0x0F

/-- `T0_K`. -/
def t0K (td : Byte) : Byte := td &&& 0x0F

def scsProtoT0 : Byte := 0
def scsProtoT1 : Byte := 1
def ifdGlobalT15 : Byte := 0x0F
def ifdConvDirect : Byte := 0x3B
def ifdConvInverse : Byte := 0x3F

def hweight8 (byte : Byte) : Byte :=
  let res := byte - ((byte >>> 1) &&& 0x55)
  let res := (res &&& 0x33) + ((res >>> 2) &&& 0x33)
  (res + (res >>> 4)) &&& 0x0F

/-! ## Reception -/

inductive XchgEvent where
  | xfrCmpl
  | convErr
  deriving DecidableEq, Repr

/-- `IFD_ATR_TS` to `IFD_ATR_TCK`. -/
inductive AtrState where
  | ts
  | t0
  | td
  | tk
  | tck
  deriving DecidableEq, Repr

/-- `struct ifd_xchg_atr`. -/
structure XchgAtr where
  state : AtrState
  tck : Bool
  k : Byte
  y : Byte
  tdLast : Byte
  rx : Nat

/-- The slot while it receives: `ifd_xchg_buff`, the block in transfer (`ifd_xfr_ctrl`), of which
`rx` bytes have come in, the event that ended the transfer, and the length given to
`ifd_xchg_end`. -/
structure Reception where
  buf : Nat → Byte
  rxStart : Nat
  ne : Nat
  rx : Nat
  atr : XchgAtr
  event : Option XchgEvent
  nr : Nat

variable (c : Config)

def ifdAtrBytes (y : Byte) : Byte := hweight8 (tdY y)

/-- `ifd_xfr_read`. -/
def xfrRead (s : Reception) (idx : Nat) : Byte := s.buf (s.rxStart + idx)

/-- `ifd_xchg_stop`. -/
def xchgStop (s : Reception) (event : XchgEvent) : Reception :=
  { s with event := s.event <|> some event, ne := 0, rx := 0 }

/-- `ifd_atr_xfr_block`. -/
def atrXfrBlock (s : Reception) (ne : Nat) : Reception :=
  { s with rxStart := s.atr.rx, ne, rx := 0, atr := { s.atr with rx := (s.atr.rx + ne) % 2 ^ c.bits } }

/-- `__ifd_atr_expire`. -/
def atrRequest (s : Reception) : Reception :=
  if s.atr.y ≠ 0 then atrXfrBlock c { s with atr := { s.atr with state := .td } } s.atr.y.toNat
  else if s.atr.k ≠ 0 then
    let s := atrXfrBlock c { s with atr := { s.atr with state := .tk } } s.atr.k.toNat
    { s with atr := { s.atr with k := 0 } }
  else if s.atr.tck then
    let s := atrXfrBlock c { s with atr := { s.atr with state := .tck } } 1
    { s with atr := { s.atr with tck := false } }
  else xchgStop { s with nr := s.atr.rx } .xfrCmpl

/-- `ifd_atr_expire`. -/
def atrExpire (conv : Byte) (s : Reception) : Reception :=
  match s.atr.state with
  | .ts =>
    if xfrRead s 0 ≠ conv then xchgStop s .convErr
    else
      let td := xfrRead s 1
      atrRequest c { s with atr := { s.atr with k := t0K td, tck := false, tdLast := td, y := ifdAtrBytes td } }
  | .td =>
    let td := if s.atr.tdLast &&& tdExists ≠ 0 then xfrRead s (s.atr.y.toNat - 1) else 0
    atrRequest c { s with
      atr := { s.atr with tck := s.atr.tck || tdT td ≠ scsProtoT0, tdLast := td, y := ifdAtrBytes td } }
  | _ => atrRequest c s

/-- `ifd_reset`: TS and T0 are asked for. -/
def reset (s : Reception) : Reception :=
  { s with
    rxStart := 0, ne := 2, rx := 0, event := none, nr := 0
    atr := { s.atr with state := .ts, rx := 2 } }

/-- One byte from the card, as `ifd_xchg_sync` takes it. -/
def feed (conv : Byte) (s : Reception) (b : Byte) : Option Reception :=
  if s.event.isSome ∨ s.ne ≤ s.rx ∨ c.bufSize ≤ s.rxStart + s.rx then none
  else
    let s := { s with buf := Function.update s.buf (s.rxStart + s.rx) b, rx := s.rx + 1 }
    some (if s.rx = s.ne then atrExpire c conv s else s)

/-- The bytes that come in after a reset, with the convention `conv` selected. -/
def receive (conv : Byte) (s : Reception) (bytes : List Byte) : Option Reception :=
  bytes.foldlM (feed c conv) (reset s)

/-! ## Parsing -/

/-- The values that `ifd_atr_parse` returns. -/
inductive ScsErr where
  | success
  | badTs
  | badTck
  | overrun
  deriving DecidableEq, Repr

/-- `IFD_INFO_XCHG_SPECIFIC` to `IFD_INFO_XCHG_NEGO_1ST`. -/
inductive InfoXchg where
  | specific
  | negoPps
  | nego1st
  deriving DecidableEq, Repr

/-- `struct ifd_atr_parser`, and the number of bytes read so far. -/
structure AtrParser where
  ta : Byte
  tb : Byte
  tc : Byte
  td : Byte
  tdLast : Byte
  len : BitVec 8
  csum : Byte
  tckExists : Bool
  taken : Nat

/-- The fields of `ifd_slot_ctrl` that the parser sets. -/
structure SlotCtrl where
  infoXchg : InfoXchg
  flags : Byte
  indFd : Byte
  n : Byte
  firstProto : Byte
  specProto : Byte
  specFd : Byte
  indProtos : BitVec 16
  clkStop : Byte
  indCls : Byte

/-- What the protocols take from the answer: `wi` of `ifd_t0_conf`, and `ifd_t1_conf`. -/
structure ProtoConf where
  t0Wi : Byte
  t1Ifsc : Byte
  t1Wi : Byte
  t1Tccks : Byte

structure Parse where
  parser : AtrParser
  slot : SlotCtrl
  conf : ProtoConf

def ifdFdImplicit : Byte := 0x11
def ifdProtoInvalid : Byte := 0xFF
def ifdFlagGtUseIndFd : Byte := 0x01
def ifdFlagSpecCapChange : Byte := 0x02
def ifdClockStopMask : Byte := 0xC0
def ifdClassMask : Byte := 0x07
def ifdT0WiImplicit : Byte := 0x0A
def ifdT1IfsImplicit : Byte := 0x20
def ifdT1WiImplicit : Byte := 0xD4

/-- `scs_atr_start`. -/
def atrStart (p : Parse) : Parse :=
  { p with
    parser := { p.parser with len := 0, tckExists := false, csum := 0, taken := 0 }
    slot := { p.slot with
      infoXchg := .nego1st, flags := 0, indFd := ifdFdImplicit, firstProto := scsProtoT0
      specProto := ifdProtoInvalid, specFd := ifdFdImplicit, indProtos := 0 } }

section

variable (buf : Nat → Byte)

/-- `ifd_atr_read`. -/
def atrRead (p : AtrParser) : Byte × AtrParser :=
  let byte := buf p.len.toNat
  (byte, { p with len := p.len + 1, csum := p.csum ^^^ byte, taken := p.taken + 1 })

/-- `y & T?_EXISTS ? ifd_atr_read() : 0`. -/
def atrReadIf (y bit : Byte) (p : AtrParser) : Byte × AtrParser :=
  if y &&& bit ≠ 0 then atrRead buf p else (0, p)

/-- `ifd_atr_read_ibyte`. -/
def atrReadIbyte (p : AtrParser) : Byte × AtrParser :=
  let p := { p with tdLast := p.td }
  let y := tdY p.tdLast
  if y ≠ 0 then
    let (ta, p) := atrReadIf buf y taExists p
    let (tb, p) := atrReadIf buf y tbExists p
    let (tc, p) := atrReadIf buf y tcExists p
    let (td, p) := atrReadIf buf y tdExists p
    (y, { p with ta, tb, tc, td })
  else (y, p)

end

/-- `ifd_atr_parse_gbyte1`. -/
def atrParseGbyte1 (p : AtrParser) (y : Byte) (slot : SlotCtrl) : SlotCtrl :=
  let slot := if y &&& taExists ≠ 0 then { slot with indFd := p.ta } else slot
  let slot := if y &&& tcExists ≠ 0 then { slot with n := p.tc } else slot
  if y &&& tdExists ≠ 0 then { slot with firstProto := tdT p.td } else slot

/-- `ifd_atr_parse_gbyte2`. -/
def atrParseGbyte2 (p : AtrParser) (y : Byte) (slot : SlotCtrl) : SlotCtrl :=
  if y &&& taExists ≠ 0 then
    let slot := { slot with infoXchg := .specific }
    let slot := if p.ta &&& 0x10 = 0 then { slot with specFd := slot.indFd } else slot
    let slot := if p.ta &&& 0x80 = 0 then { slot with flags := slot.flags ||| ifdFlagSpecCapChange } else slot
    { slot with specProto := tdT p.ta }
  else slot

/-- `ifd_atr_parse_gbyte15`. -/
def atrParseGbyte15 (p : AtrParser) (y : Byte) (slot : SlotCtrl) : SlotCtrl :=
  let slot := { slot with flags := slot.flags ||| ifdFlagGtUseIndFd }
  if y &&& taExists ≠ 0 then
    { slot with clkStop := p.ta &&& ifdClockStopMask, indCls := p.ta &&& ifdClassMask }
  else slot

/-- `ifd_t0_atr_parse`. -/
def t0AtrParse (p : AtrParser) (y : Byte) (conf : ProtoConf) : ProtoConf :=
  if y &&& tcExists ≠ 0 then { conf with t0Wi := if p.tc ≠ 0 then p.tc else ifdT0WiImplicit }
  else { conf with t0Wi := ifdT0WiImplicit }

/-- `ifd_t1_atr_parse`. -/
def t1AtrParse (p : AtrParser) (y : Byte) (conf : ProtoConf) : ProtoConf :=
  { conf with
    t1Ifsc := if y &&& taExists ≠ 0 then p.ta else ifdT1IfsImplicit
    t1Wi := if y &&& tbExists ≠ 0 then p.tb else ifdT1WiImplicit
    t1Tccks := if y &&& tcExists ≠ 0 then conf.t1Tccks ||| (p.tc &&& 0x01) else conf.t1Tccks &&& ~~~0x01 }

/-- `cproto->atr_parse` of the protocol `t`. -/
def protoAtrParse (t : Byte) (p : AtrParser) (y : Byte) (conf : ProtoConf) : ProtoConf :=
  if t = scsProtoT0 then t0AtrParse p y conf
  else if t = scsProtoT1 then t1AtrParse p y conf
  else conf

/-- `ifd_atr_parse_t`. -/
def atrParseT (p : Parse) : Parse :=
  let y := tdY p.parser.tdLast
  let t := tdT p.parser.tdLast
  if t = ifdGlobalT15 then { p with slot := atrParseGbyte15 p.parser y p.slot }
  else
    let tckExists := if p.parser.tckExists then true else decide (t ≠ scsProtoT0)
    let p := { p with parser := { p.parser with tckExists } }
    if c.Registered t then
      { p with
        slot := { p.slot with indProtos := p.slot.indProtos ||| (1 : BitVec 16) <<< t.toNat }
        conf := protoAtrParse t p.parser y p.conf }
    else p

/-- The loop of `ifd_atr_parse` over the interface bytes. -/
def atrParseIbytes (buf : Nat → Byte) : (fuel : Nat) → Parse → (y : Byte) → Option Parse
  | 0, p, y => if y = 0 then some p else none
  | fuel + 1, p, y =>
    if y = 0 then some p
    else
      let p := atrParseT c p
      let (y, parser) := atrReadIbyte buf p.parser
      atrParseIbytes buf fuel { p with parser } y

/-- The loop of `ifd_atr_parse` over the historical bytes. -/
def atrSkip (buf : Nat → Byte) : (k : Nat) → AtrParser → AtrParser
  | 0, p => p
  | k + 1, p => atrSkip buf k (atrRead buf p).2

/-- What follows the interface bytes: the historical bytes, the check byte and the length. -/
def atrParseTail (buf : Nat → Byte) (avail : Nat) (k : Byte) (p : Parse) : ScsErr × Parse :=
  let p := { p with parser := atrSkip buf k.toNat p.parser }
  let p := if p.parser.tckExists then { p with parser := (atrRead buf p.parser).2 } else p
  if p.parser.tckExists ∧ p.parser.csum ≠ 0 then (.badTck, p)
  else if avail ≠ p.parser.len.toNat then (.overrun, p)
  else (.success, p)

/-- `ifd_atr_parse`, where `ifd_xchg_avail` returns `avail`. -/
def atrParse (fuel : Nat) (buf : Nat → Byte) (avail : Nat) (p : Parse) : Option (ScsErr × Parse) :=
  let p := atrStart p
  -- TS is read without `ifd_atr_read` and is not part of the checksum
  let p := { p with parser := { p.parser with len := p.parser.len + 1, taken := p.parser.taken + 1 } }
  if buf 0 = ifdConvDirect ∨ buf 0 = ifdConvInverse then
    let (td, parser) := atrRead buf p.parser
    let k := t0K td
    let (y, parser) := atrReadIbyte buf { parser with td }
    let p := { p with parser, slot := atrParseGbyte1 parser y p.slot }
    if y = 0 then some (atrParseTail buf avail k p)
    else
      let (y, parser) := atrReadIbyte buf p.parser
      let p := { p with parser, slot := atrParseGbyte2 parser y p.slot }
      (atrParseIbytes c buf fuel p y).map (atrParseTail buf avail k)
  else some (.badTs, p)

end Sdfirm.IfdAtr
