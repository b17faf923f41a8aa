import Sdfirm.Impl.Bitops

/-!
# The slot change notification (`kernel/usb/scd/usb_scd.c`, `scd_ccid.c`)

What the interrupt endpoint of the CCID interface sends, without
`CONFIG_CCID_INTERRUPT_HWERR`. Two bitmaps have a bit for each slot: what was
last put into a request, and what was last sent. The callbacks are those of
`scd_endpoint_irq`: `scd_submit_interrupt` announces the length of a message,
`scd_handle_interrupt` gives its bytes, once for each packet, and
`scd_discard_interrupt` comes when the message has been sent. Functions of
`bitops.c` and loops that go past the end of an array are `none`.
-/

namespace Sdfirm.IfdSlot

/-- `IFD_SLOT_STATE_NOTPRESENT` to `IFD_SLOT_STATE_ACTIVATED`. -/
inductive SlotState where
  | notPresent
  | present
  | hwError
  | atrReady
  | ppsReady
  | selected
  | activated
  deriving DecidableEq, Repr

end Sdfirm.IfdSlot

namespace Sdfirm.ScdNotify

open Bitops IfdSlot

abbrev Byte := BitVec 8

structure Config where
  /-- `NR_SCD_SLOTS`, and `NR_SCD_USB_SLOTS` with it. -/
  slots : Nat
  /-- `BITS_PER_UNIT` -/
  unit : Nat
  slots_pos : 0 < slots
  slots_le : slots ≤ 15
  unitBits : UnitBits unit

structure ScdState where
  /-- `ifd_slots[sid].status` -/
  status : Nat → SlotState
  /-- `ifd_slid` -/
  slid : Nat
  /-- `scd_submitted_presents` -/
  submitted : Bitmap
  /-- `scd_discarded_presents` -/
  discarded : Bitmap
  /-- The length of the request while it is pending. -/
  request : Option Nat

variable (c : Config)

/-! ## Arrays -/

/-- `BITS_TO_UNITS`. -/
def bitsToUnits (bits : Nat) : Nat := (bits + c.unit - 1) % 2 ^ c.unit / c.unit

/-- The number of a bit, converted to `bits_t`. -/
def toBits (nr : Nat) : Nat := nr % 2 ^ c.unit

/-- What is read or written at the bit `nr` of an array declared with `bits` bits. -/
def within {α : Type} (bits nr : Nat) (x : α) : Option α :=
  if bitopWord c.unit (toBits c nr) < bitsToUnits c bits then some x else none

def writeBit (bits nr : Nat) (b : Bool) (addr : Bitmap) : Option Bitmap :=
  within c bits nr (if b then setBit c.unit (toBits c nr) addr else clearBit c.unit (toBits c nr) addr)

/-! ## The presence of a card -/

/-- `SCD_SLOT_STATUS_ACTIVE` to `SCD_SLOT_STATUS_NOTPRESENT`. -/
inductive ScdStatus where
  | active
  | inactive
  | notPresent
  deriving DecidableEq, Repr

/-- The cases of `scd_slot_status`. -/
def scdStatus : SlotState → ScdStatus
  | .notPresent => .notPresent
  | .present | .selected | .activated | .hwError => .inactive
  | .atrReady | .ppsReady => .active

/-- `scd_slot_status`, of the slot that is selected. -/
def scdSlotStatus (s : ScdState) : ScdStatus := scdStatus (s.status s.slid)

/-- `SCD_IRQ_PRESENT`. -/
def scdIrqPresent (sid : Nat) : Nat := 1 <<< sid

/-- `SCD_IRQ_PRESENT_BIT`. -/
def scdIrqPresentBit (sid : Nat) : Nat := (sid <<< 1) % 256

/-- `SCD_IRQ_CHANGED_BIT`. -/
def scdIrqChangedBit (sid : Nat) : Nat := ((sid <<< 1) + 1) % 256

/-- `__scd_present_test_submitted` and `__scd_present_test_discarded`. -/
def scdPresentTest (presents : Bitmap) (sid : Nat) : Option Bool :=
  within c c.slots (scdIrqPresent sid) (testBit c.unit (toBits c (scdIrqPresent sid)) presents)

/-- `__scd_present_set` and `__scd_present_clear`. -/
def scdPresentWrite (sid : Nat) (b : Bool) (presents : Bitmap) : Option Bitmap :=
  writeBit c c.slots (scdIrqPresent sid) b presents

/-- `scd_present_length`. -/
def scdPresentLength : Nat := 1 + (c.slots + 3) / 4 * 4 / 4

/-- `__scd_present_test_slot`, which does not read its argument. -/
def scdPresentTestSlot (s : ScdState) (_sid : Nat) : Bool := scdSlotStatus s ≠ .notPresent

/-- `__scd_present_changed_sid`. -/
def scdPresentChangedSid (s : ScdState) (sid : Nat) : Option Bool :=
  (scdPresentTest c s.submitted sid).map fun b => b != scdPresentTestSlot s sid

/-- `__scd_present_changed_all`. -/
def scdPresentChangedAll (s : ScdState) : Option Bool := (List.range c.slots).anyM (scdPresentChangedSid c s)

/-! ## The message -/

/-- `__scd_present_fill_sid`. -/
def scdPresentFillSid (s : ScdState) (addr : Bitmap) (sid usbsid : Nat) : Option Bitmap := do
  let submitted ← scdPresentTest c s.submitted sid
  let addr ← writeBit c (c.slots + c.slots) (scdIrqPresentBit usbsid) submitted addr
  let discarded ← scdPresentTest c s.discarded sid
  writeBit c (c.slots + c.slots) (scdIrqChangedBit usbsid) (submitted != discarded) addr

/-- `__scd_present_fill_all`. -/
def scdPresentFillAll (s : ScdState) (addr : Bitmap) : Option Bitmap :=
  (List.range c.slots).foldlM (fun addr sid => scdPresentFillSid c s addr sid sid) addr

/-- `sizeof (status)`, converted to `uint8_t`. -/
def statusSize : Nat := bitsToUnits c (c.slots + c.slots) * (c.unit / 8) % 256

/-- `__scd_handle_present_all`: the bytes that are given to `USBD_INB`. The loops over `status`
count its bytes and go over its words. -/
def scdHandlePresentAll (s : ScdState) : Option (List Byte) :=
  if bitsToUnits c (c.slots + c.slots) < statusSize c then none
  else
    (scdPresentFillAll c s fun _ => 0).map fun status =>
      0x50 :: (List.range (statusSize c)).map fun i => BitVec.ofNat 8 (status i)

/-! ## The callbacks of the endpoint -/

/-- `__scd_discard_present_sid`. -/
def scdDiscardPresentSid (s : ScdState) (sid : Nat) : Option ScdState := do
  let submitted ← scdPresentTest c s.submitted sid
  let discarded ← scdPresentWrite c sid submitted s.discarded
  some { s with discarded := discarded }

/-- `__scd_submit_present_sid`. -/
def scdSubmitPresentSid (s : ScdState) (sid : Nat) : Option ScdState := do
  let submitted ← scdPresentWrite c sid (scdPresentTestSlot s sid) s.submitted
  some { s with submitted := submitted }

/-- `scd_discard_interrupt`, after which the request is no longer pending. -/
def scdDiscardInterrupt (s : ScdState) : Option ScdState :=
  ((List.range c.slots).foldlM (scdDiscardPresentSid c) s).map fun s => { s with request := none }

/-- `scd_handle_interrupt`. -/
def scdHandleInterrupt (s : ScdState) : Option (List Byte) := scdHandlePresentAll c s

/-- `scd_submit_interrupt`. The endpoint takes a request if it is `ready`. -/
def scdSubmitInterrupt (ready : Bool) (s : ScdState) : Option ScdState := do
  if ← scdPresentChangedAll c s then
    if ready then
      (List.range c.slots).foldlM (scdSubmitPresentSid c) { s with request := some (scdPresentLength c) }
    else some s
  else some s

end Sdfirm.ScdNotify
