import Sdfirm.Impl.IfdAtr

/-!
# The information exchange (`kernel/scs/ifd.c`)

After the answer to reset `ifd_info_xchg` selects the protocol and F and D: in
specific mode at once, in negotiable mode by the first offered protocol or by
a PPS exchange. `ifd_conf_param` then applies what has been negotiated.
With `CONFIG_IFD_AUTO_PPS_PROP` the request is made from the answer, otherwise
from the parameters set before.

A `BUG_ON` that fires, an index outside of a table, a null protocol and a loop
that does not end in its bound are `none`. The response of the card is the
list of the bytes it sends; where it sends too few of them the waiting time
ends.
-/

namespace Sdfirm.IfdPps

open IfdAtr

structure Config extends IfdAtr.Config where
  /-- `CONFIG_IFD_AUTO_PPS_PROP` -/
  prop : Bool
  /-- `IFD_HW_FREQ_MAX` -/
  freqMax : Nat
  /-- `IFD_HW_DATA_MAX` -/
  dataMax : Nat
  /-- `ARCH_HAVE_DIV32U` -/
  haveDiv32u : Bool

/-- The fields of `ifd_slot_ctrl` that are negotiated and applied, beside those of the answer. -/
structure Slot extends SlotCtrl where
  negoFd : Byte
  negoProto : Byte
  fd : Byte
  proto : Byte

structure State where
  slot : Slot
  /-- `ifd_xchg_buff` -/
  buf : Nat → Byte
  /-- `ifd_xfr_ctrl.rx_start` -/
  rxStart : Nat
  /-- `ifd_pps_xchg.pps_req` -/
  ppsReq : Nat → Byte

/-- `IFD_ERR_BAD_PROTO` to `SCS_ERR_TIMEOUT`, as far as they are set here. -/
inductive Err where
  | badProto
  | badPpss
  | badPpsr
  | badPck
  | timeout
  deriving DecidableEq, Repr

/-! ## Tables -/

def ifdFiSupps : List Nat := [372, 372, 558, 744, 1116, 1488, 1860, 0, 0, 512, 768, 1024, 1536, 2048]

def ifdDiSupps : List Nat := [0, 1, 2, 4, 8, 16, 32, 0, 12, 20]

def ifdFmaxSupps : List Nat :=
  [4000, 5000, 6000, 8000, 12000, 16000, 20000, 0, 0, 5000, 7500, 10000, 15000, 20000]

def nrIfdFis : Nat := 14
def nrIfdDis : Nat := 10

def hihalf (b : Byte) : Nat := b.toNat / 16

def lohalf (b : Byte) : Nat := b.toNat % 16

/-- `ifd_get_F`. -/
def ifdGetF (fi : Nat) : Option Nat := ifdFiSupps[fi]?

/-- `ifd_get_D`. -/
def ifdGetD (di : Nat) : Option Nat := ifdDiSupps[di]?

variable (c : Config)

/-! ## Applying the parameters -/

def ifdConfigFd (slot : Slot) : Option Slot :=
  let slot := { slot with fd := slot.negoFd }
  if hihalf slot.fd > nrIfdFis ∨ lohalf slot.fd > nrIfdDis then none
  else
    (ifdGetF (hihalf slot.fd)).bind fun F =>
      (ifdGetD (lohalf slot.fd)).bind fun D => if F = 0 ∨ D = 0 then none else some slot

def ifdConfigT (slot : Slot) : Slot := { slot with proto := slot.negoProto }

/-- `ifd_conf_param`, without what the protocols compute from the parameters. -/
def ifdConfParam (slot : Slot) : Option Slot :=
  (ifdConfigFd slot).bind fun slot =>
    let slot := ifdConfigT slot
    if c.Registered slot.proto then some slot else none

/-! ## The PPS request -/

/-- `IFD_PPS_EXISTS`. -/
def ifdPpsExists (n : Nat) : Byte := 1 <<< (4 + n)

def ifdPpsPpss : Byte := 0xFF

/-- `IFD_PPS_PROTO`. -/
def ifdPpsProto (pps0 : Byte) : Byte := pps0 &&& 0x0F

def ifdPpsBytes (pps0 : Byte) : Nat :=
  let size := if pps0 &&& ifdPpsExists 0 ≠ 0 then 1 else 0
  let size := if pps0 &&& ifdPpsExists 1 ≠ 0 then size + 1 else size
  if pps0 &&& ifdPpsExists 2 ≠ 0 then size + 1 else size

/-- One assignment of `ifd_pps_save`, with its index into the buffer. -/
def ppsSaveByte (buf : Nat → Byte) (pps0 : Byte) (n : Nat) (r : (Nat → Byte) × Nat) : (Nat → Byte) × Nat :=
  if pps0 &&& ifdPpsExists n ≠ 0 then (Function.update r.1 (n + 1) (buf r.2), r.2 + 1) else r

def ifdPpsSave (s : State) : State :=
  let pps0 := s.buf 1
  let r := (Function.update s.ppsReq 0 pps0, 2)
  let r := ppsSaveByte s.buf pps0 2 (ppsSaveByte s.buf pps0 1 (ppsSaveByte s.buf pps0 0 r))
  { s with ppsReq := r.1 }

/-- `__ifd_pps_build`. -/
def ppsBuild (s : State) : State :=
  let pps0 := s.slot.negoProto
  let pck := ifdPpsPpss
  let (pps0, pps1, pck) :=
    if s.slot.negoFd ≠ s.slot.fd then (pps0 ||| ifdPpsExists 0, s.slot.negoFd, pck ^^^ s.slot.negoFd)
    else (pps0, s.slot.fd, pck)
  let pck := pck ^^^ pps0
  let buf := Function.update (Function.update s.buf 0 ifdPpsPpss) 1 pps0
  let (buf, i) := if pps0 &&& ifdPpsExists 0 ≠ 0 then (Function.update buf 2 pps1, 3) else (buf, 2)
  ifdPpsSave { s with buf := Function.update buf i pck }

/-- `div32u`. The loop of `lib/muldiv.c` gives all ones for a divisor of 0. -/
def div32u (x y : Nat) : Option Nat :=
  if y = 0 then if c.haveDiv32u then none else some (2 ^ 32 - 1) else some (x / y)

/-- The F and D that `ifd_pps_build` negotiates with `CONFIG_IFD_AUTO_PPS_PROP`. -/
def ppsNegoFd (indFd : Byte) : Option Byte :=
  (ifdFmaxSupps[hihalf indFd]?).bind fun fmax =>
    if fmax > c.freqMax then some ifdFdImplicit
    else
      (ifdDiSupps[lohalf indFd]?).bind fun di =>
        (ifdFiSupps[hihalf indFd]?).bind fun fi =>
          (div32u c (fmax * di) fi).map fun d => if d > c.dataMax then ifdFdImplicit else indFd

/-- `ifd_pps_iter_t`, with `atr_td_last`. -/
def ifdPpsIterT (s : State) (iter : BitVec 8) (tdLast : Byte) : BitVec 8 × Byte :=
  let tdLast := if iter = 0 then s.buf (s.rxStart + (iter.toNat + 1)) else tdLast
  let nbytes := ifdAtrBytes tdLast
  if nbytes ≠ 0 then
    let iter := iter + nbytes
    (iter, s.buf (s.rxStart + (iter.toNat + 1)))
  else (iter, tdLast)

/-- The loop of `ifd_pps_build` that negotiates T. -/
def ppsNegoT (s : State) : (fuel : Nat) → (curr : BitVec 8) → (tdLast : Byte) → Option Byte
  | 0, _, _ => none
  | fuel + 1, curr, tdLast =>
    let (next, tdLast) := ifdPpsIterT s curr tdLast
    if curr = next then some scsProtoT0
    else if c.Registered (tdT tdLast) then some (tdT tdLast)
    else ppsNegoT s fuel next tdLast

/-- `ifd_nego_proto`. The functions of the protocols that it calls are empty. -/
def ifdNegoProto (s : State) : Option State := if c.Registered s.slot.negoProto then some s else none

def ifdPpsBuild (fuel : Nat) (s : State) : Option State :=
  if c.prop then
    (ppsNegoFd c s.slot.indFd).bind fun fd =>
      (ppsNegoT c s fuel 0 0).bind fun t =>
        (ifdNegoProto c { s with slot := { s.slot with negoFd := fd, negoProto := t } }).map ppsBuild
  else some (ppsBuild s)

/-! ## The PPS response -/

/-- Bytes that are received from `start` on. -/
def receiveAt (buf : Nat → Byte) (start : Nat) (bytes : List Byte) : Nat → Byte := fun i =>
  if start ≤ i ∧ i < start + bytes.length then bytes.getD (i - start) 0 else buf i

/-- The blocks of the exchange: two bytes, and then as many as `ifd_pps_expire` asks for. -/
def ppsReceive (s : State) (resp : List Byte) : Option State :=
  if resp.length < 2 then none
  else
    let buf := receiveAt s.buf 0 (resp.take 2)
    let size := ifdPpsBytes (buf 1) + 1
    if resp.length < 2 + size then none
    else some { s with buf := receiveAt buf 2 ((resp.drop 2).take size), rxStart := 2 }

/-- The loop of `ifd_ppsr_parse`, of which `n` rounds are left: `nppsr`, `pck` and `fd` after it. -/
def ppsrLoop (buf req : Nat → Byte) (pps0 : Byte) : (n nppsr : Nat) → (pck fd : Byte) → Option (Nat × Byte × Byte)
  | 0, nppsr, pck, fd => some (nppsr, pck, fd)
  | n + 1, nppsr, pck, fd =>
    if pps0 &&& ifdPpsExists (nppsr - 2) ≠ 0 then
      if buf nppsr ≠ req (nppsr - 1) then none
      else ppsrLoop buf req pps0 n (nppsr + 1) (pck ^^^ buf nppsr) (if nppsr = 2 then buf nppsr else fd)
    else ppsrLoop buf req pps0 n nppsr pck fd

def ifdPpsrParse (s : State) : Except Err State :=
  if s.buf 0 ≠ ifdPpsPpss then .error .badPpss
  else if ifdPpsProto (s.buf 1) ≠ ifdPpsProto (s.ppsReq 0) then .error .badPpsr
  else
    match ppsrLoop s.buf s.ppsReq (s.buf 1) 3 2 (ifdPpsPpss ^^^ s.buf 1) s.slot.fd with
    | none => .error .badPpsr
    | some (nppsr, pck, fd) =>
      if pck ^^^ s.buf nppsr ≠ 0 then .error .badPck else .ok { s with slot := { s.slot with fd := fd } }

/-- The exchange and `ifd_pps_cmpl`: `IFD_SLOT_EVENT_PPS_OK` is raised, or an error is set. -/
def ppsXchg (s : State) (resp : List Byte) : Except Err State :=
  match ppsReceive s resp with
  | none => .error .timeout
  | some s => ifdPpsrParse s

/-! ## The exchange as a whole -/

def hweight16 (word : BitVec 16) : BitVec 16 :=
  let res := word - ((word >>> 1) &&& 0x5555)
  let res := (res &&& 0x3333) + ((res >>> 2) &&& 0x3333)
  let res := (res + (res >>> 4)) &&& 0x0F0F
  (res + (res >>> 8)) &&& 0x00FF

/-- What `ifd_info_xchg` leaves: an error, `IFD_SLOT_EVENT_PPS_OK`, or a PPS request to be sent. -/
inductive Next where
  | failed (err : Err)
  | ppsOk (s : State)
  | request (s : State)

def ifdSpecMode (s : State) : Option Next :=
  if ¬ c.Registered s.slot.specProto then some (.failed .badProto)
  else
    (ifdNegoProto c { s with slot := { s.slot with negoProto := s.slot.specProto, negoFd := s.slot.specFd } }).map .ppsOk

def ifdNego1st (s : State) : Option Next :=
  (ifdNegoProto c { s with slot := { s.slot with negoProto := s.slot.firstProto } }).map .ppsOk

def ifdNegoPps (fuel : Nat) (s : State) : Option Next := (ifdPpsBuild c fuel s).map .request

def ifdInfoXchg (fuel : Nat) (s : State) : Option Next :=
  let infoXchg :=
    if s.slot.infoXchg = .specific then .specific
    else if (hweight16 s.slot.indProtos).toNat > 1 ∨ s.slot.indFd ≠ ifdFdImplicit then InfoXchg.negoPps
    else .nego1st
  let s := { s with slot := { s.slot with infoXchg := infoXchg } }
  match infoXchg with
  | .specific => ifdSpecMode c s
  | .nego1st => ifdNego1st c s
  | .negoPps => ifdNegoPps c fuel s

end Sdfirm.IfdPps
