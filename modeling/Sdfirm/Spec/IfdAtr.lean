import Sdfirm.Impl.IfdAtr
import Sdfirm.Impl.IfdPps

/-!
# The grammar of the answer to reset

`Atr` is the structure of ISO/IEC 7816-3: TS, T0, groups of interface bytes
that are chained by the TD bytes, historical bytes and TCK. `Atr.bytes` is
the string it stands for. `Conformant` adds what the structure does not say:
the values of TS, the order of the protocols, and when TCK is there and what
it is.

`Understood` is what the reception and the parser should do with a conformant
answer, and `Regular` is when they do: the parser does not look at the T of
the last TD byte when no interface byte follows it, and expects no TCK for
T=15.

`Limited` is what should hold of the reception whatever the card sends, and
`Short` is when it does: nothing in `ifd_atr_expire` counts the characters.
-/

namespace Sdfirm.IfdAtr

/-! ## The grammar -/

/-- The interface bytes TAi, TBi and TCi. -/
structure Group where
  ta : Option Byte
  tb : Option Byte
  tc : Option Byte
  deriving DecidableEq, Repr

def Group.bytes (g : Group) : List Byte := g.ta.toList ++ g.tb.toList ++ g.tc.toList

/-- The half byte Y that announces a group, with TDi or not. -/
def Group.y (g : Group) (td : Bool) : BitVec 4 :=
  BitVec.ofBool td ++ BitVec.ofBool g.tc.isSome ++ BitVec.ofBool g.tb.isSome ++ BitVec.ofBool g.ta.isSome

/-- The interface bytes from a group on. Each TD byte has a T and announces the next group. -/
def chain : Group → List (BitVec 4 × Group) → List Byte
  | g, [] => g.bytes
  | g, (t, g') :: rest => g.bytes ++ (g'.y (!rest.isEmpty) ++ t) :: chain g' rest

structure Atr where
  ts : Byte
  first : Group
  /-- The T of each TD byte and the group that it announces. -/
  rest : List (BitVec 4 × Group)
  hist : List Byte
  tck : Option Byte
  hist_lt : hist.length < 16

namespace Atr

variable (a : Atr)

/-- T0. -/
def t0 : Byte := a.first.y (!a.rest.isEmpty) ++ BitVec.ofNat 4 a.hist.length

/-- The bytes that TCK checks. -/
def body : List Byte := a.t0 :: (chain a.first a.rest ++ a.hist)

def bytes : List Byte := a.ts :: (a.body ++ a.tck.toList)

/-- The T of the TD bytes. -/
def protos : List (BitVec 4) := a.rest.map Prod.fst

/-- The protocols that are offered: T=0 if there is no TD1, and T=15 is none. -/
def offered : List (BitVec 4) := if a.protos = [] then [0] else a.protos.filter (· ≠ 15)

/-- TCK is there when a T is not 0. -/
def Checked : Prop := a.tck.isSome ↔ ∃ t ∈ a.protos, t ≠ 0

instance : Decidable a.Checked := inferInstanceAs (Decidable (_ ↔ _))

/-- The answer conforms to the standard. -/
structure Conformant : Prop where
  ts : a.ts = ifdConvDirect ∨ a.ts = ifdConvInverse
  order : a.protos.Pairwise (· ≤ ·)
  checked : a.Checked
  tck : ∀ b ∈ a.tck, b = a.body.foldl (· ^^^ ·) 0

end Atr

/-! ## What should be done with it -/

variable (c : Config)

/-- The protocol is in `first_proto` or `ind_protos`. -/
def Recorded (slot : SlotCtrl) (t : BitVec 4) : Prop :=
  slot.firstProto = t.setWidth 8 ∨ slot.indProtos.getLsbD t.toNat = true

/-- The bytes are those that `ifd_atr_expire` asks for, from TS on: after the last of them the
transfer is complete, and it is told how many there were. -/
def Received (conv : Byte) (s : Reception) (bytes : List Byte) (s' : Reception) : Prop :=
  receive c conv s bytes = some s' ∧ s'.event = some .xfrCmpl

/-- `ifd_atr_parse` returns `SCS_ERR_SUCCESS`. -/
def Accepted (s : Reception) (p p' : Parse) : Prop :=
  ∃ fuel, atrParse c fuel s.buf s.nr p = some (.success, p')

/-- The answer is received as a whole, and the parser accepts it, takes all of its bytes and
records the protocols it offers. -/
def Understood (a : Atr) (s : Reception) (p : Parse) : Prop :=
  ∃ s' p', Received c a.ts s a.bytes s' ∧ s'.nr = a.bytes.length ∧
    Accepted c s' p p' ∧ p'.parser.taken = a.bytes.length ∧ ∀ t ∈ a.offered, Recorded p'.slot t

/-! ## When it is done -/

/-- The T that `ifd_atr_parse_t` looks at, those of the TD bytes whose Y is not 0. -/
def announced : List (BitVec 4 × Group) → List (BitVec 4)
  | [] => []
  | (t, g) :: rest => if g.y (!rest.isEmpty) = 0 then [] else t :: announced rest

/-- The length fits `len`; the parser sees a T for which it expects TCK if there is TCK; and a
protocol that is offered is the first one, or it is registered and the parser sees it. -/
structure Regular (a : Atr) : Prop where
  fits : a.bytes.length ≤ 255
  check : (∃ t ∈ a.protos, t ≠ 0) → ∃ t ∈ announced a.rest, t ≠ 0 ∧ t ≠ 15
  record : ∀ t ∈ a.offered, t = a.protos.headD 0 ∨ t ∈ announced a.rest ∧ c.Registered (t.setWidth 8)

/-! ## Any card -/

/-- `SCS_ATR_MAX`. -/
def scsAtrMax : Nat := 33

/-- However many of the bytes have come in: a reception that goes on has taken fewer than
`SCS_ATR_MAX`, and the block that it asks for ends in the buffer. -/
structure Limited (conv : Byte) (s : Reception) (bytes : List Byte) : Prop where
  stops : ∀ p s', p <+: bytes → receive c conv s p = some s' → s'.event = none → p.length < scsAtrMax
  inside : ∀ p s', p <+: bytes → receive c conv s p = some s' → s'.rxStart + s'.ne ≤ c.bufSize

/-- The card sends fewer characters than `SCS_ATR_MAX`, its TS is not that of the convention
selected, or it starts with an answer of at most `SCS_ATR_MAX` characters. -/
def Short (conv : Byte) (bytes : List Byte) : Prop :=
  bytes.length < scsAtrMax ∨ bytes.head? ≠ some conv ∨
    ∃ a : Atr, a.Checked ∧ a.ts = conv ∧ a.bytes <+: bytes ∧ a.bytes.length ≤ scsAtrMax

end Sdfirm.IfdAtr

/-!
## What the information exchange is for

`Successful` is a successful PPS exchange of ISO/IEC 7816-3: the response has
the T of the request, announces only parameters that were requested, repeats
their values, and checks. `Negotiated` asks that the response is taken
exactly then, and that F and D stay at their defaults when PPS1 is not in it.
`Passes` is what the walk of `ifd_ppsr_parse` lets through: it stops at the
first parameter that is not announced, and compares with `pps_req` whether the
parameter was requested or not.

`Survives` asks of a whole information exchange that it ends in an error or
in parameters that can be applied, and `Sound` says of the slot after an answer
to reset when it does.
-/

namespace Sdfirm.IfdPps

open IfdAtr

/-! ### The PPS exchange -/

/-- PPS0 of a request or response. -/
def pps0 (str : List Byte) : Byte := str.getD 1 0

/-- The parameters PPS1 to PPS3, from 0 on, that PPS0 announces. -/
def fields (pps0 : Byte) : List Nat := [0, 1, 2].filter fun i => pps0.getLsbD (4 + i)

/-- The value of a parameter in a request or response. -/
def field (str : List Byte) (i : Nat) : Byte := str.getD (2 + (fields (pps0 str)).idxOf i) 0

/-- The length that PPS0 announces. -/
def announcedLength (str : List Byte) : Nat := 3 + (fields (pps0 str)).length

/-- The response starts with a successful answer to the request. -/
structure Successful (req resp : List Byte) : Prop where
  complete : announcedLength resp ≤ resp.length
  ppss : resp.getD 0 0 = ifdPpsPpss
  proto : (pps0 resp) &&& 0x0F = (pps0 req) &&& 0x0F
  requested : ∀ i ∈ fields (pps0 resp), i ∈ fields (pps0 req)
  echoed : ∀ i ∈ fields (pps0 resp), field resp i = field req i
  pck : (resp.take (announcedLength resp)).foldl (· ^^^ ·) 0 = 0

/-- The bytes of the request in `ifd_xchg_buff`. -/
def requestBytes (s : State) : List Byte := (List.range (ifdPpsBytes (s.buf 1) + 3)).map s.buf

/-- The response to the request built in `s` is taken exactly if it is successful, and without
PPS1 in it F and D are the defaults afterwards. -/
structure Negotiated (s : State) (resp : List Byte) : Prop where
  taken : (∃ s', ppsXchg (ppsBuild s) resp = .ok s') ↔ Successful (requestBytes (ppsBuild s)) resp
  default : ∀ s', ppsXchg (ppsBuild s) resp = .ok s' → 0 ∉ fields (pps0 resp) →
    ∃ slot, ifdConfigFd s'.slot = some slot ∧ slot.fd = ifdFdImplicit

/-- The parameters announced before the first one that is not. -/
def run (pps0 : Byte) : Nat :=
  if pps0.getLsbD 4 then if pps0.getLsbD 5 then if pps0.getLsbD 6 then 3 else 2 else 1 else 0

/-- The only parameter that is requested is PPS1, and only when F and D are to change. -/
def Requested (s : State) (i : Nat) : Prop := i = 0 ∧ s.slot.negoFd ≠ s.slot.fd

instance (s : State) (i : Nat) : Decidable (Requested s i) := inferInstanceAs (Decidable (_ ∧ _))

/-- The byte of `pps_req` a parameter is compared with. Where it was not requested, it is the one
that was there before. -/
def kept (s : State) (i : Nat) : Byte := if Requested s i then s.slot.negoFd else s.ppsReq (1 + i)

/-- The parameters of the run are those kept, and the bytes up to the one after them check. -/
structure Passes (s : State) (resp : List Byte) : Prop where
  complete : announcedLength resp ≤ resp.length
  ppss : resp.getD 0 0 = ifdPpsPpss
  proto : (pps0 resp) &&& 0x0F = s.slot.negoProto
  echoed : ∀ i < run (pps0 resp), resp.getD (2 + i) 0 = kept s i
  pck : (resp.take (3 + run (pps0 resp))).foldl (· ^^^ ·) 0 = 0

/-- A response that announces what was not requested does not pass, and one without PPS1 passes
only when the default F and D are negotiated. -/
structure Plain (s : State) (resp : List Byte) : Prop where
  stray : (∃ i ∈ fields (pps0 resp), ¬ Requested s i) → ¬ Passes s resp
  dropped : 0 ∉ fields (pps0 resp) → Passes s resp → s.slot.negoFd = ifdFdImplicit

/-! ### The selection of parameters -/

variable (c : Config)

/-- F and D are in the tables, and not reserved. -/
def GoodFd (fd : Byte) : Prop :=
  hihalf fd < nrIfdFis ∧ lohalf fd < nrIfdDis ∧
    ifdFiSupps.getD (hihalf fd) 0 ≠ 0 ∧ ifdDiSupps.getD (lohalf fd) 0 ≠ 0

instance (fd : Byte) : Decidable (GoodFd fd) := inferInstanceAs (Decidable (_ ∧ _ ∧ _ ∧ _))

/-- What `ifd_info_xchg` has left comes to an end: an error, or parameters that `ifd_conf_param`
applies, whatever the card answers. -/
def Ends : Next → Prop
  | .failed _ => True
  | .ppsOk s => ∃ slot, ifdConfParam c s.slot = some slot
  | .request s => ∀ resp s', ppsXchg s resp = .ok s' → ∃ slot, ifdConfParam c s'.slot = some slot

/-- The information exchange returns, and comes to an end. -/
def Survives (s : State) : Prop := ∃ fuel next, ifdInfoXchg c fuel s = some next ∧ Ends c next

/-- The slot when the answer in `r` has been accepted. -/
structure AfterAtr (r : Reception) (p : Parse) (s : State) : Prop where
  accepted : ∃ p', Accepted c.toConfig r p p' ∧ s.slot.toSlotCtrl = p'.slot
  buf : s.buf = r.buf
  rxStart : s.rxStart = r.rxStart

/-- An accepted answer does not stop the selection of parameters. -/
def Safe (r : Reception) (p : Parse) (s : State) : Prop := AfterAtr c r p s → Survives c s

/-- The data rate for TA1 as `ifd_pps_build` computes it, where F is reserved all ones. -/
def dataRate (fd : Byte) : Nat :=
  let F := ifdFiSupps.getD (hihalf fd) 0
  if F = 0 then 2 ^ 32 - 1 else ifdFmaxSupps.getD (hihalf fd) 0 * ifdDiSupps.getD (lohalf fd) 0 / F

/-- TA1 of the answer can be requested, or it is found to be too fast. -/
def FdOk (fd : Byte) : Prop :=
  hihalf fd < nrIfdFis ∧
    (ifdFmaxSupps.getD (hihalf fd) 0 > c.freqMax ∨
      lohalf fd < nrIfdDis ∧ (c.haveDiv32u → ifdFiSupps.getD (hihalf fd) 0 ≠ 0) ∧
        (dataRate fd > c.dataMax ∨ GoodFd fd))

/-- The TD byte that `ifd_pps_iter_t` goes on from at a position. -/
def tdFrom (s : State) (curr : BitVec 8) (td : Byte) : Byte := if curr = 0 then s.buf (s.rxStart + 1) else td

/-- The walk over the TD bytes ends: with the first T that is registered, or else with T=0. -/
inductive Walk (s : State) : BitVec 8 → Byte → Byte → Prop
  | last {curr td} : ifdAtrBytes (tdFrom s curr td) = 0 → Walk s curr td scsProtoT0
  | found {curr td n} : ifdAtrBytes (tdFrom s curr td) = n → n ≠ 0 →
      c.Registered (tdT (s.buf (s.rxStart + ((curr + n).toNat + 1)))) →
      Walk s curr td (tdT (s.buf (s.rxStart + ((curr + n).toNat + 1))))
  | skip {curr td n t} : ifdAtrBytes (tdFrom s curr td) = n → n ≠ 0 →
      ¬ c.Registered (tdT (s.buf (s.rxStart + ((curr + n).toNat + 1)))) →
      Walk s (curr + n) (s.buf (s.rxStart + ((curr + n).toNat + 1))) t → Walk s curr td t

/-- The slot after an answer for which the parameters can be selected. -/
def Sound (s : State) : Prop :=
  if s.slot.infoXchg = .specific then c.Registered s.slot.specProto → GoodFd s.slot.specFd
  else if (hweight16 s.slot.indProtos).toNat > 1 ∨ s.slot.indFd ≠ ifdFdImplicit then
    if c.prop then FdOk c s.slot.indFd ∧ ∃ t, Walk c s 0 0 t ∧ c.Registered t
    else c.Registered s.slot.negoProto ∧ GoodFd s.slot.negoFd
  else c.Registered s.slot.firstProto ∧ GoodFd s.slot.negoFd

end Sdfirm.IfdPps
