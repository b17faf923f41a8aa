import Sdfirm.Impl.Usbd
import Sdfirm.Proof.Framework.Packets
import Sdfirm.Proof.Framework.Runs
import Sdfirm.Impl.UsbConfig
import Sdfirm.Impl.Dfu

/-!
# What the USB device has to do

The requests of the device stack, the configuration descriptor, and the upload
of the firmware.
-/

/-!
## What the requests of the USB device stack have to do

A callback of an IN endpoint that makes the same calls whenever it is called
has its bytes sent, up to the length of the request, in packets that do not
depend on the mode (`Transparent`).
-/

namespace Sdfirm.Usbd

open Framework

/-- A call of `usbd_inb`, `usbd_inw` or `usbd_inl`. -/
inductive Item where
  | byte (b : Byte)
  | word (w : BitVec 16)
  | dword (l : BitVec 32)
  deriving DecidableEq, Repr

def wordBytes (w : BitVec 16) : List Byte := [w.setWidth 8, (w >>> 8).setWidth 8]

def Item.bytes : Item → List Byte
  | .byte b => [b]
  | .word w => wordBytes w
  | .dword l => wordBytes (l.setWidth 16) ++ wordBytes ((l >>> 16).setWidth 16)

/-- The bytes of a callback that makes these calls. -/
def itemBytes (items : List Item) : List Byte := items.flatMap Item.bytes

def Item.io {μ : Type} : Item → Io μ → Io μ
  | .byte b => .inb b
  | .word w => .inw w
  | .dword l => .inl l

/-- The callback that makes these calls. -/
def emit (items : List Item) (_ : Unit) : Io Unit := items.foldr Item.io (.ret ())

/-- The request ends, and has sent the packets `ps`. -/
def Ends (e : Endpoint) (fuel : Nat) (items : List Item) (reqAll : Nat) (ps : List (List Byte)) : Prop :=
  ∃ n d, events e fuel (emit items) n () (requestSubmit e reqAll []) = .ok ((), d) ∧ d.ended = true ∧ d.sent = ps

/-- The request sends the first `reqAll` bytes in the same packets in all modes. All of them but the last are
full, and after a full one there is an empty one if the endpoint needs it. -/
def Transparent (e : Endpoint) (fuel : Nat) (items : List Item) (reqAll : Nat) : Prop :=
  ∃ ps, (∀ mode, Ends { e with mode } fuel items reqAll ps) ∧
    ps.flatten = (itemBytes items).take reqAll ∧
    (∀ p ∈ ps.dropLast, p.length = e.size) ∧
    (1 < ps.length ∧ ps.getLast? = some [] ↔
      e.zlp = true ∧ 0 < ((itemBytes items).take reqAll).length ∧ e.size ∣ ((itemBytes items).take reqAll).length)

/-- The requests for which it is so: an endpoint that does not need the empty packet must not ask for more bytes
than there are, and if its last packet is full must ask for all of them. -/
def Exact (e : Endpoint) (items : List Item) (reqAll : Nat) : Prop :=
  e.zlp = true ∨ reqAll ≤ (itemBytes items).length ∧
    (0 < reqAll → e.size ∣ reqAll → (itemBytes items).length = reqAll)

instance (e : Endpoint) (items : List Item) (reqAll : Nat) : Decidable (Exact e items reqAll) :=
  inferInstanceAs (Decidable (_ ∨ _))

end Sdfirm.Usbd

/-!
## What a configuration descriptor has to be

The bytes are descriptors one after the other, each with its length and its
type in front: the configuration, and for each interface the descriptor of the
interface, those of its class and those of its endpoints (`WellNested`).
`Consistent` says that the length in the configuration is that of all of them,
and that the host gets as many of them as it asks for.
-/

namespace Sdfirm.UsbConfig

open Usbd (Byte Endpoint Item Ends itemBytes)

/-- A descriptor has its length and its type in front. -/
structure IsDesc (type : Byte) (d : List Byte) : Prop where
  length_lt : d.length < 2 ^ 8
  length_eq : d[0]? = some (BitVec.ofNat 8 d.length)
  type_eq : d[1]? = some type

/-- The descriptors of one interface. -/
inductive IsInterface (iid : Nat) : List Byte → Prop
  | mk {intf : List Byte} {cls endps : List (List Byte)} :
    IsDesc 0x04 intf → intf.length = 9 → intf[2]? = some (BitVec.ofNat 8 iid) →
    intf[4]? = some (BitVec.ofNat 8 endps.length) →
    (∀ d ∈ cls, ∃ type, IsDesc type d ∧ type ≠ 0x02 ∧ type ≠ 0x04 ∧ type ≠ 0x05) →
    (∀ d ∈ endps, IsDesc 0x05 d ∧ d.length = 7) → IsInterface iid (intf ++ cls.flatten ++ endps.flatten)

/-- The configuration, and as many interfaces as it says. -/
def WellNested (bs : List Byte) : Prop :=
  ∃ (conf : List Byte) (intfs : List (List Byte)), bs = conf ++ intfs.flatten ∧ IsDesc 0x02 conf ∧ conf.length = 9 ∧
    conf[4]? = some (BitVec.ofNat 8 intfs.length) ∧ ∀ iid intf, intfs[iid]? = some intf → IsInterface iid intf

/-- The `wTotalLength` field. -/
def totalLength (bs : List Byte) : Nat := (bs.getD 2 0).toNat + 2 ^ 8 * (bs.getD 3 0).toNat

/-- The length in the head is that of the bytes `bs` that are written, which are well nested, and in a data stage of
`wLength` bytes the host gets as many of them. -/
structure Consistent (e : Endpoint) (fuel : Nat) (bs : List Byte) (wLength : Nat) : Prop where
  totalLength_eq : totalLength bs = bs.length
  received : 0 < wLength → ∀ mode, ∃ ps, Ends { e with mode } fuel (bs.map .byte) wLength ps ∧
    ps.flatten = bs.take wLength ∧ ps.flatten.length = min wLength (totalLength bs)
  nested : WellNested bs

variable (cfg : Config)

/-- The bytes of the descriptors of an interface. -/
def intfSize (intf : Intf) : Nat :=
  9 + (match intf with
    | .scd => 54
    | .msd => 0
    | .hid => 6 + 3 * cfg.hidReports.length
    | .dfu => 9) + 7 * nrEndps cfg intf

/-- The bytes of all descriptors. -/
def configSize (intfs : List Intf) : Nat := 9 + (intfs.map (intfSize cfg)).sum

/-- The configurations for which it is so: there is no interface for the firmware upgrade, the length of a keyboard's
descriptor has 8 bits, and that of the whole has 16. -/
def Regular (intfs : List Intf) : Prop :=
  .dfu ∉ intfs ∧ (.hid ∈ intfs → 6 + 3 * cfg.hidReports.length < 2 ^ 8) ∧ configSize cfg intfs < 2 ^ 16

instance (intfs : List Intf) : Decidable (Regular cfg intfs) := inferInstanceAs (Decidable (_ ∧ _))

end Sdfirm.UsbConfig

/-!
## What an upload has to do

The host asks for blocks of `DFU_TRANSFER_SIZE` bytes until it gets a shorter
one (`Session`). It should then have the firmware, and the driver should be
idle again (`Returned`).
-/

namespace Sdfirm.Dfu

open Usbd (Byte Endpoint)

variable (cfg : Config) (e : Endpoint) (fuel : Nat)

/-- The request for the block `blknr` ends, with `data` in its data stage. -/
def Uploads (blknr : Nat) (m m' : Vars) (data : List Byte) : Prop :=
  ∃ n d, Usbd.events e fuel (dfuUpload cfg blknr cfg.transferSize) n m (Usbd.requestSubmit e cfg.transferSize []) = .ok (m', d) ∧
    d.ended = true ∧ d.sent.flatten = data

/-- The requests from the block `blknr` on, up to and including the first short one. -/
inductive Session : (blknr : Nat) → (m m' : Vars) → (data : List Byte) → Prop
  | last {blknr : Nat} {m m' : Vars} {data : List Byte} :
    Uploads cfg e fuel blknr m m' data → data.length < cfg.transferSize → Session blknr m m' data
  | more {blknr : Nat} {m m₁ m' : Vars} {data rest : List Byte} :
    Uploads cfg e fuel blknr m m₁ data → data.length = cfg.transferSize → Session (blknr + 1) m₁ m' rest →
      Session blknr m m' (data ++ rest)

/-- The `dfu_upload_size` bytes of the firmware are read block by block, and the short one makes the driver idle. -/
def Returned : Prop :=
  ∃ m', Session cfg e fuel 0 (dfuProtoInit cfg) m' (cfg.firmware.take (dfuProtoInit cfg).uploadSize) ∧ m'.state = .dfuIdle

/-- The bytes that are sent for any firmware of `size` bytes: each block has its number and then counts from 1 on. -/
def pattern (transferSize size : Nat) : List Byte :=
  (List.range size).map fun i =>
    if i % transferSize ≠ 0 then BitVec.ofNat 8 (i % transferSize) else BitVec.ofNat 8 (i / transferSize)

end Sdfirm.Dfu
