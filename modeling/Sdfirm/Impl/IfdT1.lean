import Sdfirm.Proof.Framework.Buffer

/-!
# The T=1 engine (`kernel/scs/ifd_t1.c`)

With `CONFIG_IFD_XCHG_APDU` the engine sends a command as a chain of I-blocks
and puts the response together from those of the card. Command, response and
the block in transfer share `ifd_xchg_buff`: `ifd_t1_save_buffer` makes room
for a block and `ifd_t1_restore_buffer` takes it back. `exchange` is one
round: what the card answers is stored, `ifd_t1_xchg_cmpl` handles it, and
unless the exchange has ended `ifd_t1_xchg_aval` sends the next block.

A `BUG_ON` that fires and an access outside of the buffer are `none`. The
types of the source that are narrower than `int` are `Byte`s, offsets are
`Nat`s; where `scs_off_t` is not narrower than `int`, the one difference that
can be negative wraps. `CONFIG_IFD_PANIC_BUF`, which only adds a `BUG_ON`, is
left out.
-/

namespace Sdfirm.IfdT1

open Framework.Buffer (slice)

abbrev Byte := BitVec 8

structure Config where
  /-- `SCS_APDU_MAX` -/
  apduMax : Nat
  /-- The width of `int`. -/
  intBits : Nat
  /-- `IFD_T1_MAX_IFSD` -/
  maxIfsd : Byte
  /-- `CONFIG_IFD_T1_NAD` -/
  nad : Bool
  /-- `CONFIG_IFD_T1_LRC` -/
  lrc : Bool
  /-- `CONFIG_IFD_T1_CRC` -/
  crc : Bool
  apduMax_ge : 256 ≤ apduMax
  apduMax_le : apduMax ≤ 65536

namespace Config

variable (c : Config)

/-- `IFD_BUF_SIZE`. -/
def bufSize : Nat := c.apduMax + if 256 < c.apduMax then 8 else 5

/-- The width of `scs_off_t` and `scs_size_t`. -/
def bits : Nat := if c.apduMax ≤ 256 then 16 else 32

end Config

/-- The errors that come up in an exchange. -/
inductive ScsErr where
  | success
  | progress
  | hwError
  | parityErr
  | overrun
  | timeout
  | notPresent
  deriving DecidableEq, Repr

/-- `struct ifd_conf_t1`, as far as an exchange uses it. -/
structure ConfT1 where
  tccks : Byte
  ifsc : Byte
  nad : Byte
  ifsd : Byte

/-- `struct ifd_xchg_t1`. -/
structure XchgT1 where
  savedBuf : Nat → Byte
  savedLen : Nat
  ns : Byte
  nr : Byte
  txCmpl : Bool
  rxCmpl : Bool
  pcb : Byte
  ackType : Byte
  ackInfo : Byte
  wtx : Byte
  resyncLevel : Byte
  resyncRetry : Byte
  tx : Nat
  rx : Nat
  nc : Nat
  txBlk : Nat
  rxBlk : Nat
  rxLen : Byte
  ifsc : Byte
  ifsd : Byte
  ackIfsc : Byte

/-- The slot, with `ifd_xchg_buff`, the convention, the error and the length given to
`ifd_xchg_end`. -/
structure State extends XchgT1 where
  conf : ConfT1
  inverse : Bool
  buf : Nat → Byte
  error : ScsErr
  ended : Nat

variable (c : Config)

/-! ## Protocol control bytes -/

/-- The values of `ifd_t1_t`. -/
inductive BlockType where
  | i
  | r
  | s
  deriving DecidableEq, Repr

def ifdT1IBlock : Byte := 0x00
def ifdT1RBlock : Byte := 0x80
def ifdT1SBlock : Byte := 0xC0

def ifdT1SRBit : Byte := 0x20

def ifdT1SResync : Byte := 0x00
def ifdT1SIfs : Byte := 0x01
def ifdT1SAbort : Byte := 0x02
def ifdT1SWtx : Byte := 0x03

def ifdT1PrologueSize : Nat := 3
def ifdT1SafeIfsd : Nat := 1
def ifdT1IfsImplicit : Byte := 0x20

def ifdT1RetryRetrns : Byte := 3
def ifdT1RetryResync : Byte := 2
def ifdT1RetryWreset : Byte := 1
def ifdT1MaxRetry : Byte := 3

/-- `ifd_t1_t`. -/
def blockType (pcb : Byte) : BlockType :=
  if pcb &&& 0xC0 = ifdT1RBlock then .r else if pcb &&& 0xC0 = ifdT1SBlock then .s else .i

/-- `ifd_t1_r`. -/
def isResponse (pcb : Byte) : Bool := ifdT1SRBit &&& pcb ≠ 0

/-- `ifd_t1_s`. -/
def sCode (pcb : Byte) : Byte := pcb &&& 0x0F

/-- `ifd_t1_m`. -/
def moreBit (pcb : Byte) : Bool := 0x20 &&& pcb ≠ 0

/-- `ifd_t1_n`. -/
def seqNumber (pcb : Byte) : Byte :=
  if blockType pcb = .r then (pcb &&& 0x10) >>> 4 else (pcb &&& 0x40) >>> 6

/-- `ifd_t1_epilogue_size`. -/
def epilogueSize (s : State) : Nat := 1 + (s.conf.tccks &&& 0x01).toNat

/-- `ifd_t1_xfr_nr`. -/
def xfrNr (s : State) : Byte := s.nr &&& 0x01

/-- `ifd_t1_xfr_ns`. -/
def xfrNs (s : State) : Byte := s.ns &&& 0x01

/-- `ifd_t1_xfr_m`. -/
def xfrM (s : State) : Byte := if s.nc > s.tx + s.ackIfsc.toNat then 1 else 0

/-! ## The buffer -/

/-- `ifd_xchg_move`. -/
def xchgMove (buf : Nat → Byte) (dst src cnt : Nat) : Option (Nat → Byte) :=
  if c.bufSize < dst + cnt ∨ c.bufSize < src + cnt then none
  else
    let move := fun (buf : Nat → Byte) i => Function.update buf (dst + i) (buf (src + i))
    some (if dst < src then (List.range cnt).foldl move buf else (List.range cnt).reverse.foldl move buf)

/-- `ifd_xchg_write` from `index` on. -/
def xchgWrite (s : State) (index : Nat) : List Byte → Option State
  | [] => some s
  | b :: bytes =>
    if c.bufSize ≤ index then none
    else xchgWrite { s with buf := Function.update s.buf index b } (index + 1) bytes

/-- `ifd_t1_save`. -/
def save (s : State) (index length : Nat) : Option State :=
  if 8 < length then none
  else some { s with savedLen := length, savedBuf := fun i => if i < length then s.buf (index + i) else s.savedBuf i }

/-- `ifd_t1_restore`. -/
def restore (s : State) (index : Nat) : Option State :=
  if 8 < s.savedLen then none
  else (xchgWrite c s index (slice s.savedBuf 0 s.savedLen)).map fun s => { s with savedLen := 0 }

/-- `ifd_t1_safe_size`. -/
def safeSize (s : State) : Nat := (ifdT1PrologueSize + epilogueSize s + s.ifsd.toNat) % 256

/-- `save_end`. -/
def saveEnd (s : State) : Nat := min (safeSize s + s.ifsc.toNat + epilogueSize s) s.nc

/-- The bytes behind the response that do not fit: `safe - (IFD_BUF_SIZE - rx)`. -/
def shortage (rx safe : Nat) : Nat := if c.bufSize - rx < safe then safe - (c.bufSize - rx) else 0

/-- `ifd_t1_restore_buffer` while the command is sent. -/
def restoreCommand (s : State) (tx : Nat) : Option State :=
  if c.bufSize < saveEnd s then none
  else
    (xchgMove c s.buf tx (safeSize s) s.ifsc.toNat).bind fun buf =>
      if saveEnd s > tx + s.ifsc.toNat then restore c { s with buf } (tx + s.ifsc.toNat) else some { s with buf }

/-- `ifd_t1_restore_buffer`. -/
def restoreBuffer (s : State) (tx rx : Nat) : Option State :=
  (if tx < s.nc ∧ s.tx < s.nc then restoreCommand c s tx else some s).bind fun s =>
    if s.tx = s.nc ∧ c.bufSize - rx < safeSize s then restore c s (rx - shortage c rx (safeSize s)) else some s

/-- `tx_blk` while the command is sent. Before the start of the buffer it is one far behind it. -/
def sendBlk (s : State) : Nat :=
  if blockType s.pcb = .i then
    if safeSize s < ifdT1PrologueSize then 2 ^ c.bits + safeSize s - ifdT1PrologueSize
    else safeSize s - ifdT1PrologueSize
  else s.rx

/-- The part of the command behind the information field that the block reaches is saved. -/
def saveTail (s : State) : Option State :=
  if saveEnd s > s.tx + s.ifsc.toNat then
    save s (s.tx + s.ifsc.toNat) ((saveEnd s - (s.tx + s.ifsc.toNat)) % 256)
  else some s

/-- `ifd_t1_save_buffer` while the command is sent. -/
def saveCommand (s : State) : Option State :=
  let s := { s with rxBlk := s.rx, txBlk := sendBlk c s }
  if c.bufSize < s.txBlk + s.ifsd.toNat + ifdT1PrologueSize + epilogueSize s ∨ c.bufSize < saveEnd s then none
  else (saveTail s).bind fun s => (xchgMove c s.buf (safeSize s) s.tx s.ifsc.toNat).map fun buf => { s with buf }

/-- `ifd_t1_save_buffer`. -/
def saveBuffer (s : State) : Option State :=
  if s.tx < s.nc then saveCommand c s
  else
    let saved := shortage c s.rx (safeSize s)
    (if c.bufSize - s.rx < safeSize s then save s (s.rx - saved) saved else some s).map fun s =>
      { s with rxBlk := s.rx - saved, txBlk := s.rx - saved }

/-! ## Checksums (`lib/crc16_ccitt.c`) -/

/-- `crc_ccitt_poly`. -/
def crcCcittPoly (msb : Bool) : BitVec 16 := if msb then 0x1021 else 0x8408

/-- `crc_ccitt_update`. -/
def crcCcittUpdate (msb : Bool) (crc : BitVec 16) (byte : Byte) : BitVec 16 :=
  (List.range 8).foldl
    (fun crc j =>
      let odd := crc.getLsbD 0 ^^ byte.getLsbD j
      if odd then crc >>> 1 ^^^ crcCcittPoly msb else crc >>> 1)
    crc

/-- `crc_ccitt_init` to `crc_ccitt_final`. -/
def crcCcitt (msb : Bool) (bytes : List Byte) : BitVec 16 := ~~~ bytes.foldl (crcCcittUpdate msb) 0xFFFF

def lrc (bytes : List Byte) : Byte := bytes.foldl (· ^^^ ·) 0

/-- The epilogue of a block: LRC, or the two bytes of the CRC. -/
def epilogue (s : State) (bytes : List Byte) : List Byte :=
  if s.conf.tccks &&& 0x01 ≠ 0 then
    let crc := crcCcitt s.inverse bytes
    [(crc >>> 8).setWidth 8, crc.setWidth 8]
  else [lrc bytes]

/-- The check that `tccks` selects is configured. -/
def checked (s : State) : Bool := if s.conf.tccks &&& 0x01 ≠ 0 then c.crc else c.lrc

/-- `ifd_t1_compute_checksum`. -/
def computeChecksum (s : State) : Option State :=
  let index := s.txBlk + (s.ifsc.toNat + ifdT1PrologueSize)
  let bytes := slice s.buf s.txBlk (s.ifsc.toNat + ifdT1PrologueSize)
  xchgWrite c s index (if checked c s then epilogue s bytes else List.replicate (epilogueSize s) 0)

/-- `ifd_t1_verify_crc`. -/
def verifyCrc (s : State) : Bool :=
  let crc := crcCcitt s.inverse (slice s.buf s.rxBlk (s.rxLen.toNat + ifdT1PrologueSize))
  let index := s.rxBlk + (s.rxLen.toNat + ifdT1PrologueSize)
  if (crc >>> 8).setWidth 8 = s.buf index then s.buf (index + 1) = crc.setWidth 8 else false

/-- `ifd_t1_verify_checksum`. -/
def verifyChecksum (s : State) : Bool :=
  checked c s &&
    slice s.buf (s.rxBlk + (s.rxLen.toNat + ifdT1PrologueSize)) (epilogueSize s) =
      epilogue s (slice s.buf s.rxBlk (s.rxLen.toNat + ifdT1PrologueSize))

/-! ## Sending a block -/

/-- `ifd_t1_write_prologue`. -/
def writePrologue (s : State) : Option State := xchgWrite c s s.txBlk [s.conf.nad, s.pcb, s.ifsc]

/-- `ifd_t1_build_sblock`. -/
def buildSblock (s : State) (type inf : Byte) (resp : Bool) : Option State :=
  if type = ifdT1SIfs ∧ inf.toNat < ifdT1SafeIfsd then none
  else
    let s := { s with
      ifsc := if type = ifdT1SIfs ∨ type = ifdT1SWtx then 1 else 0
      ifsd := BitVec.ofNat 8 ifdT1SafeIfsd
      pcb := if resp then ifdT1SBlock ||| type ||| ifdT1SRBit else ifdT1SBlock ||| type }
    (saveBuffer c s).bind fun s =>
      (writePrologue c s).bind fun s =>
        (if s.ifsc = 1 then xchgWrite c s (s.txBlk + 3) [inf] else some s).bind (computeChecksum c)

/-- `ifd_t1_build_iblock`. -/
def buildIblock (s : State) (ifsc : Byte) : Option State :=
  let s := { s with ackIfsc := ifsc, ifsc, ifsd := s.conf.ifsd }
  let s := { s with pcb := ifdT1IBlock ||| xfrNs s <<< 6 ||| xfrM s <<< 5 }
  (saveBuffer c s).bind fun s => (writePrologue c s).bind (computeChecksum c)

/-- `ifd_t1_build_rblock`. -/
def buildRblock (s : State) : Option State :=
  let s := { s with ifsc := 0, ifsd := s.conf.ifsd, pcb := ifdT1RBlock ||| xfrNr s <<< 4 }
  (saveBuffer c s).bind fun s => (writePrologue c s).bind (computeChecksum c)

/-- `max(tx - ifsd_rx, IFD_T1_SAFE_IFSD)`, where an offset that is not narrower than `int` wraps. -/
def spaceIfsd (s : State) : Nat :=
  let ifsdRx := s.rx + ifdT1PrologueSize + epilogueSize s
  if ifsdRx ≤ s.tx then max (s.tx - ifsdRx) ifdT1SafeIfsd
  else if c.bits < c.intBits then ifdT1SafeIfsd
  else max (2 ^ c.bits + s.tx - ifsdRx) ifdT1SafeIfsd

/-- The length of the next I-block in `ifd_t1_xchg_aval`. -/
def nextIfsc (s : State) : Nat :=
  let ifsc := min s.conf.ifsc.toNat (s.nc - s.tx)
  if c.bufSize ≤ ifsc + safeSize s + epilogueSize s then c.bufSize - safeSize s - epilogueSize s else ifsc

/-- `ifd_t1_xchg_aval`. -/
def xchgAval (s : State) : Option State :=
  match blockType s.pcb with
  | .i =>
    if s.tx < s.nc then
      if spaceIfsd c s < s.conf.ifsd.toNat then
        let ifsd := BitVec.ofNat 8 (spaceIfsd c s)
        buildSblock c { s with conf := { s.conf with ifsd } } ifdT1SIfs ifsd false
      else buildIblock c s (BitVec.ofNat 8 (nextIfsc c s))
    else
      let ifsd := BitVec.ofNat 8 (min c.maxIfsd.toNat (c.bufSize - s.rx))
      if ifsd ≠ s.conf.ifsd then buildSblock c { s with conf := { s.conf with ifsd } } ifdT1SIfs ifsd false
      else buildRblock c s
  | .s => buildSblock c s s.ackType s.ackInfo true
  | .r => buildRblock c s

/-- The block that `ifd_t1_xfr_block` puts on the line. -/
def sentBlock (s : State) : List Byte :=
  slice s.buf s.txBlk (s.ifsc.toNat + ifdT1PrologueSize + epilogueSize s)

/-! ## Receiving a block -/

/-- What ends a reception, other than its last byte. -/
inductive Fault where
  | power
  | parity
  | expire
  | iccOut
  deriving DecidableEq, Repr

/-- The error that `ifd_handle_xchg_state` sets. -/
def Fault.error : Fault → ScsErr
  | .power => .hwError
  | .parity => .parityErr
  | .expire => .timeout
  | .iccOut => .notPresent

/-- What comes from the card: bytes, and the fault that comes with the last of them. -/
structure Input where
  bytes : List Byte
  fault : Option Fault

/-- The error of a reception that did not get all of its bytes. -/
def Input.error (i : Input) : ScsErr := (i.fault.getD .expire).error

/-- The rest of a block, after its prologue. -/
def receiveRest (s : State) (i : Input) : Option State :=
  let ne := s.rxLen.toNat + epilogueSize s
  let rest := (i.bytes.drop ifdT1PrologueSize).take ne
  (xchgWrite c s (s.rxBlk + ifdT1PrologueSize) rest).map fun s =>
    if rest.length < ne ∨ i.bytes.length = ifdT1PrologueSize + ne ∧ i.fault.isSome then { s with error := i.error }
    else s

/-- The loop of `ifd_xchg_sync`, with `ifd_t1_ne_expire` after the prologue and after the rest. -/
def receive (s : State) (i : Input) : Option State :=
  (xchgWrite c s s.rxBlk (i.bytes.take ifdT1PrologueSize)).bind fun s =>
    if i.bytes.length < ifdT1PrologueSize then some { s with error := i.error }
    else
      let s := { s with rxLen := s.buf (s.rxBlk + 2) }
      if s.ifsd < s.rxLen then
        -- the first event is kept
        some { s with error := if i.bytes.length = ifdT1PrologueSize ∧ i.fault.isSome then i.error else .overrun }
      else receiveRest c s i

/-- `ifd_t1_xfr_read`. -/
def xfrRead (s : State) (idx : Nat) : Byte := s.buf (s.rxBlk + idx)

/-- `ifd_t1_block_valid`. -/
def blockValid (s : State) : Bool :=
  let pcb := xfrRead s 1
  let len := xfrRead s 2
  if c.nad ∧ xfrRead s 0 ^^^ 0x10 ≠ s.conf.nad then false
  else if ¬ verifyChecksum c s then false
  -- rule 7.3: a request is answered by a response
  else if blockType s.pcb = .s ∧ ¬ isResponse s.pcb ∧
      (blockType pcb ≠ .s ∨ sCode pcb ≠ sCode s.pcb ∨ ¬ isResponse pcb) then false
  else
    match blockType pcb with
    | .r =>
      if len ≠ 0 ∨ pcb &&& 0x40 ≠ 0 then false
      else if xfrM s ≠ 0 ∧ seqNumber pcb = xfrNs s then false
      else !s.txCmpl
    | .i =>
      if blockType s.pcb = .i then !(moreBit s.pcb || seqNumber pcb ≠ xfrNr s) else true
    | .s =>
      let lenValid :=
        if sCode pcb = ifdT1SResync ∨ sCode pcb = ifdT1SAbort then decide (len = 0)
        else if sCode pcb = ifdT1SIfs ∨ sCode pcb = ifdT1SWtx then decide (len = 1)
        else false
      if ¬ lenValid then false
      -- rule 7.3: a response comes only after a request
      else if isResponse pcb ∧ (blockType s.pcb ≠ .s ∨ sCode pcb ≠ sCode s.pcb ∨ isResponse s.pcb) then false
      else if sCode pcb = ifdT1SResync then isResponse pcb
      else if sCode pcb = ifdT1SIfs then !(isResponse pcb && xfrRead s 3 ≠ s.conf.ifsd)
      else if sCode pcb = ifdT1SWtx then !isResponse pcb
      else true

/-- `ifd_t1_ack_iblock`. -/
def ackIblock (s : State) (cmpl : Bool) : Option State :=
  (xchgMove c s.buf s.rx (s.rxBlk + 3) s.rxLen.toNat).map fun buf =>
    let s := { s with nr := s.nr + 1, buf, rx := s.rx + s.rxLen.toNat }
    if cmpl then { s with rxCmpl := true, ended := s.rx } else s

/-- `ifd_t1_acked_iblock`. -/
def ackedIblock (s : State) : Option State :=
  if s.txCmpl then some s
  else
    let s := { s with ns := s.ns + 1, tx := s.tx + s.ackIfsc.toNat }
    if s.nc < s.tx then none else some (if s.tx = s.nc then { s with txCmpl := true } else s)

/-- `ifd_t1_resync_reset`. -/
def resyncReset (s : State) : State := { s with resyncLevel := ifdT1RetryRetrns, resyncRetry := ifdT1MaxRetry }

/-- `__ifd_t1_xfr_resync`. -/
def xfrResync (s : State) : State := { s with conf := { s.conf with ifsd := ifdT1IfsImplicit }, ns := 0, nr := 0 }

/-- `if (!rx_cmpl) … SCS_ERR_PROGRESS … else … SCS_ERR_SUCCESS`. -/
def setNext (s : State) (pcb : Byte) : State :=
  { s with pcb, error := if s.rxCmpl then .success else .progress }

/-- `ifd_t1_error_free_operation`. -/
def errorFreeOperation (s : State) : Option State :=
  let oldTx := s.tx
  let oldRx := s.rx
  let s := resyncReset s
  let pcb := xfrRead s 1
  let info := xfrRead s 3
  let handled : Option (State × Byte) :=
    match blockType pcb with
    | .r => (if xfrNs s ≠ seqNumber pcb then ackedIblock s else some s).map fun s => (s, 0)
    | .i => (ackedIblock s).bind fun s => (ackIblock c s !(moreBit pcb)).map fun s => (s, 0)
    | .s =>
      if ¬ isResponse pcb then
        let s := { s with ackType := sCode pcb, ackInfo := info }
        if sCode pcb = ifdT1SWtx then some ({ s with wtx := info }, pcb)
        else if sCode pcb = ifdT1SIfs then some ({ s with conf := { s.conf with ifsc := info } }, pcb)
        else some (s, pcb)
      else some (if sCode pcb = ifdT1SResync then xfrResync s else s, 0)
  handled.bind fun r => (restoreBuffer c r.1 oldTx oldRx).map fun s => setNext s r.2

/-- `ifd_t1_error_handling`. -/
def errorHandling (s : State) : Option State :=
  if s.resyncLevel = ifdT1RetryWreset then some { s with error := .hwError }
  else
    let nextPcb :=
      if s.resyncLevel = ifdT1RetryRetrns then ifdT1RBlock
      else if s.resyncLevel = ifdT1RetryResync then ifdT1SBlock ||| ifdT1SResync
      else 0
    let s :=
      if s.resyncRetry = 0 then { s with resyncRetry := ifdT1MaxRetry, resyncLevel := s.resyncLevel - 1 }
      else { s with resyncRetry := s.resyncRetry - 1 }
    (restoreBuffer c s s.tx s.rx).map fun s => setNext s nextPcb

/-- `ifd_t1_xchg_cmpl`. -/
def xchgCmpl (s : State) : Option State :=
  if s.rxCmpl then some s
  else if s.error ≠ .success ∨ ¬ blockValid c s then errorHandling c s
  else errorFreeOperation c s

/-! ## The exchange -/

/-- What a round leads to: a block is sent, or the exchange has ended. -/
inductive Outcome where
  | sent (s : State)
  | ended (s : State)

/-- `ifd_xchg_busy` and `scs_proto_aval`. -/
def nextBlock (s : State) : Option State := xchgAval c { s with error := .success, ended := 0 }

/-- `ifd_handle_xchg_state` and `ifd_xchg_idle`. -/
def exchange (s : State) (i : Input) : Option Outcome :=
  (receive c s i).bind fun s =>
    (xchgCmpl c s).bind fun s =>
      if s.error = .progress then (nextBlock c s).map .sent else some (.ended s)

/-- `ifd_t1_xchg_init` and the first block. -/
def xchgBlock (s : State) (nc : Nat) : Option State :=
  let s := resyncReset { s with
    txBlk := 0, rxBlk := 0, tx := 0, rx := 0, ifsc := 0, ifsd := 0, wtx := 0, txCmpl := false, rxCmpl := false
    savedLen := 0 }
  nextBlock c { s with nc, pcb := 0 }

end Sdfirm.IfdT1
