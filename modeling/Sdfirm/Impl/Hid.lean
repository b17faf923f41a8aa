import Mathlib

/-!
# The HID class (`kernel/usb/hid/usb_hid.c`)

With `CONFIG_HID_DURATION`. The reports that are registered keep their flags in
`hid_rept_ctrls`; the endpoint is polled and its requests are completed
(`hidInputSubmit`, `hidInputDiscard`), and the host sends control requests
(`hidHandleCtrlData`). `none` is a failed `BUG_ON`.

`inflight` and `stray` are not variables of `usb_hid.c`: they say whether an
input request has been submitted and not completed, and list the indexes of
`hid_rept_ctrls` that are not those of a registered report.
-/

namespace Sdfirm.Hid

/-- `HID_ITEM_FORMAT_*`. -/
inductive Format where
  | short | long
  deriving DecidableEq, Repr

/-- `hid_item_t`. -/
structure Item where
  format : Format
  size : Nat
  type : Nat
  tag : Nat
  udata : Nat
  deriving DecidableEq, Repr

/-- `hid_report_t` without its lengths. A callback that is `NULL` is `false` or `none`; `ctrl` sends items. -/
structure Report where
  poll : Bool
  iocb : Bool
  configLen : Option Nat
  ctrl : Option (List Item)
  deriving DecidableEq, Repr

/-- An entry of `hid_reports` with that of `hid_rept_ctrls`. -/
structure Slot where
  report : Report
  duration : Nat
  lastPoll : UInt32 := 0
  running : Bool := false
  pending : Bool := false
  deriving DecidableEq, Repr

structure State where
  slots : List Slot := []
  inflight : Bool := false
  stray : List Int := []
  deriving DecidableEq, Repr

/-! ## The interrupt endpoint -/

/-- `hid_interrupt_busy`. -/
def hidInterruptBusy (c : Slot) : Bool := c.running || c.pending

/-- `hid_raise_interrupt`. -/
def hidRaiseInterrupt (rid : Nat) (slots : List Slot) : Option (List Slot) :=
  match slots[rid]? with
  | none => some slots
  | some c => if hidInterruptBusy c then none else some (slots.set rid { c with pending := true })

/-- The idle duration of a report is over, in `hid_poll_duration`. `HZ` is 1000 and the span is a `uint16_t`. -/
def Slot.expired (jiffies : UInt32) (c : Slot) : Bool :=
  c.duration != 0 && decide (4 * c.duration < (jiffies - c.lastPoll).toNat % 2 ^ 16)

/-- `hid_poll_duration`. -/
def hidPollDuration (jiffies : UInt32) (rid : Nat) (slots : List Slot) : Option (List Slot) :=
  match slots[rid]? with
  | none => some slots
  | some c => if c.expired jiffies then hidRaiseInterrupt rid (slots.set rid { c with lastPoll := jiffies }) else some slots

/-- `hid_poll_interrupt`. The callbacks of the reports in `raises` raise the interrupt of their report. -/
def hidPollInterrupt (jiffies : UInt32) (raises : List Nat) (rid : Nat) (slots : List Slot) : Option (List Slot) := do
  let slots ← hidPollDuration jiffies rid slots
  match slots[rid]? with
  | none => some slots
  | some c => if !hidInterruptBusy c ∧ c.report.poll ∧ rid ∈ raises then hidRaiseInterrupt rid slots else some slots

/-- `hid_input_poll`. -/
def hidInputPoll (jiffies : UInt32) (raises : List Nat) (slots : List Slot) : Option (List Slot) :=
  (List.range slots.length).foldlM (fun slots rid => hidPollInterrupt jiffies raises rid slots) slots

/-- `hid_input_submit`, where `usbd_request_submit` returns `submitted`. -/
def hidInputSubmit (jiffies : UInt32) (raises : List Nat) (submitted : Bool) (s : State) : Option State := do
  let slots ← hidInputPoll jiffies raises s.slots
  if slots.any Slot.pending ∧ submitted then
    return { s with slots := slots.map fun c => { c with pending := false, running := true }, inflight := true }
  else return { s with slots }

/-- `hid_input_discard`. -/
def hidInputDiscard (s : State) : State :=
  { s with slots := s.slots.map fun c => if c.running then { c with running := false } else c, inflight := false }

/-! ## Control requests -/

/-- `USB_RECP_*`. -/
inductive Recp where
  | device | interface | other
  deriving DecidableEq, Repr

/-- `USB_TYPE_*`. -/
inductive Kind where
  | standard | cls | other
  deriving DecidableEq, Repr

structure Setup where
  recp : Recp
  type : Kind
  request : UInt8
  value : UInt16
  deriving DecidableEq, Repr

/-- `HIBYTE(usbd_control_request_value())`. -/
def Setup.hi (q : Setup) : Nat := q.value.toNat / 256

/-- `LOBYTE(usbd_control_request_value())`. -/
def Setup.lo (q : Setup) : Nat := q.value.toNat % 256

/-- What the class does with a request. The bytes of `usb_dev.c` are left out. -/
inductive Answer where
  | halt
  | done
  | bytes (data : List Nat)
  /-- the callbacks `iocb` of these reports send or receive -/
  | data (rids : List Nat)
  deriving DecidableEq, Repr

/-- `HID_REPORTRID`, which is an `int`. -/
def hidReportrid (reportid : Nat) : Int := (reportid : Int) - 1

/-- `hid_report_registered`. -/
def hidReportRegistered (reportid : Nat) (s : State) : Bool := decide (hidReportrid reportid < s.slots.length)

/-- `hid_get_idle`. What lies before the array is not known. -/
def hidGetIdle (q : Setup) (s : State) : Answer × State :=
  if hidReportRegistered q.lo s then
    if 0 ≤ hidReportrid q.lo then
      (.bytes ((s.slots[(hidReportrid q.lo).toNat]?).toList.map Slot.duration), s)
    else (.bytes [], { s with stray := s.stray ++ [hidReportrid q.lo] })
  else (.halt, s)

/-- `hid_set_idle`. -/
def hidSetIdle (q : Setup) (s : State) : Answer × State :=
  if q.lo = 0 then (.done, { s with slots := s.slots.map fun c => { c with duration := q.hi } })
  else if hidReportRegistered q.lo s then
    (.done, { s with slots := s.slots.modify (hidReportrid q.lo).toNat fun c => { c with duration := q.hi } })
  else (.halt, s)

/-- The reports whose data is sent or received by `hid_input_handle` and `hid_output_handle`. -/
def hidHandle (s : State) : Answer := .data ((List.range s.slots.length).filter fun rid => (s.slots[rid]?).any (·.report.iocb))

/-- `hid_report_input_data` and `hid_report_output_data`. -/
def hidReportData (rid : Nat) (s : State) : Answer := .data (if (s.slots[rid]?).any (·.report.iocb) then [rid] else [])

/-- `hid_get_report` and `hid_set_report`, for the report type they know. -/
def hidReport (repttype : Nat) (q : Setup) (s : State) : Answer :=
  if q.lo = 0 then if q.hi = repttype then hidHandle s else .halt
  else if hidReportRegistered q.lo s then
    if q.hi = repttype then hidReportData (hidReportrid q.lo).toNat s else .halt
  else .halt

/-- `hid_get_report`. -/
def hidGetReport : Setup → State → Answer := hidReport 0x01

/-- `hid_set_report`. -/
def hidSetReport : Setup → State → Answer := hidReport 0x02

/-- `hid_descriptor_length`. -/
def hidDescriptorLength (s : State) : Nat := (6 + 3 * s.slots.length) % 2 ^ 8

/-- `hid_opt_descriptor_length`. The length is a `uint8_t`. -/
def hidOptDescriptorLength (c : Slot) : Option Nat := c.report.configLen.map (· % 2 ^ 8)

/-- `USBD_INW`. -/
def word (w : Nat) : List Nat := [w % 256, w / 256 % 256]

/-- `hid_get_hid_desc`. -/
def hidGetHidDesc (s : State) : Option (List Nat) := do
  let opts ← s.slots.mapM fun c => (hidOptDescriptorLength c).map fun length => 0x22 :: word length
  return [hidDescriptorLength s, 0x21] ++ word 0x111 ++ [0, s.slots.length] ++ opts.flatten

/-- `hid_item_length_value`. -/
def hidItemLengthValue (length : Nat) : Nat := if 2 < length then 3 else length

/-- `hid_in_head`. -/
def hidInHead (item : Item) : List Nat :=
  match item.format with
  | .long => [0xFE, item.size, item.tag]
  | .short => [hidItemLengthValue item.size ||| (item.type &&& 0x03) <<< 2 ||| (item.tag &&& 0x0F) <<< 4]

/-- `hid_in_short`. -/
def hidInShort (item : Item) : Option (List Nat) :=
  match item.format with
  | .long => none
  | .short =>
    match item.size with
    | 1 => some [item.udata % 256]
    | 2 => some (word item.udata)
    | 4 => some (word item.udata ++ word (item.udata / 2 ^ 16))
    | _ => some []

/-- `hid_get_report_desc`. -/
def hidGetReportDesc (rid : Nat) (s : State) : Option (List Nat) :=
  match s.slots[rid]? with
  | none => some []
  | some c =>
    match c.report.ctrl with
    | none => none
    | some items => (items.mapM fun item => (hidInShort item).map (hidInHead item ++ ·)).map List.flatten

/-- `hid_get_string_desc`. The device name is sent for `HID_STRING_INTERFACE`. -/
def hidGetStringDesc (q : Setup) : List Nat := if q.lo = 20 then [] else [0]

/-- `hid_get_descriptor`. -/
def hidGetDescriptor (q : Setup) (s : State) : Option Answer :=
  match q.hi with
  | 0x02 => (hidGetHidDesc s).map .bytes
  | 0x03 => some (.bytes (hidGetStringDesc q))
  | 0x21 => if q.recp = .interface then (hidGetHidDesc s).map .bytes else some .halt
  | 0x22 => if q.recp = .interface then (hidGetReportDesc q.lo s).map .bytes else some .halt
  | _ => some .halt

/-- `hid_handle_standard_request`. -/
def hidHandleStandardRequest (q : Setup) (s : State) : Option (Answer × State) :=
  match q.request with
  | 0x06 => (hidGetDescriptor q s).map (·, s)
  | _ => some (.halt, s)

/-- `hid_handle_class_request`. -/
def hidHandleClassRequest (q : Setup) (s : State) : Answer × State :=
  match q.request with
  | 0x01 => (hidGetReport q s, s)
  | 0x02 => hidGetIdle q s
  | 0x09 => (hidSetReport q s, s)
  | 0x0A => hidSetIdle q s
  | _ => (.halt, s)

/-- `hid_handle_ctrl_data`. -/
def hidHandleCtrlData (q : Setup) (s : State) : Option (Answer × State) :=
  match q.recp, q.type with
  | .device, .standard | .interface, .standard => hidHandleStandardRequest q s
  | .interface, .cls => some (hidHandleClassRequest q s)
  | _, _ => some (.halt, s)

/-! ## The keyboard (`hid_kbd.c`) -/

/-- `hid_item_length`. -/
def hidItemLength (item : Item) : Nat := 1 + item.size + (if item.format = .long then 2 else 0)

/-- A short item of one byte. -/
def shortItem (type tag udata : Nat) : Item := ⟨.short, 1, type, tag, udata⟩

/-- `HID_UsagePage`. -/
def hidUsagePage : Nat → Item := shortItem 1 0

/-- `HID_Usage`. -/
def hidUsage : Nat → Item := shortItem 2 0

/-- `HID_Collection`. -/
def hidCollection : Nat → Item := shortItem 0 10

/-- `HID_EndCollection`. -/
def hidEndCollection : Item := ⟨.short, 0, 0, 12, 0⟩

/-- `HID_UsageMinimum`. -/
def hidUsageMinimum : Nat → Item := shortItem 2 1

/-- `HID_UsageMaximum`. -/
def hidUsageMaximum : Nat → Item := shortItem 2 2

/-- `HID_LogicalMinimum`. -/
def hidLogicalMinimum : Nat → Item := shortItem 1 1

/-- `HID_LogicalMaximum`. -/
def hidLogicalMaximum : Nat → Item := shortItem 1 2

/-- `HID_ReportSize`. -/
def hidReportSize : Nat → Item := shortItem 1 7

/-- `HID_ReportCount`. -/
def hidReportCount : Nat → Item := shortItem 1 9

/-- `HID_Input`. -/
def hidInput : Nat → Item := shortItem 0 8

/-- `HID_Output`. -/
def hidOutput : Nat → Item := shortItem 0 9

/-- `hid_kbd_report_desc`. -/
def hidKbdReportDesc : List Item :=
  [hidUsagePage 1, hidUsage 6, hidCollection 1, hidUsagePage 7, hidUsageMinimum 224, hidUsageMaximum 231,
    hidLogicalMinimum 0, hidLogicalMaximum 1, hidReportSize 1, hidReportCount 8, hidInput 2, hidReportCount 1,
    hidReportSize 8, hidInput 1, hidReportCount 5, hidReportSize 1, hidUsagePage 8, hidUsageMinimum 1, hidUsageMaximum 5,
    hidOutput 2, hidReportCount 1, hidReportSize 3, hidOutput 1, hidReportCount 6, hidReportSize 8, hidLogicalMinimum 0,
    hidLogicalMaximum 101, hidUsagePage 7, hidUsageMinimum 0, hidUsageMaximum 101, hidInput 0, hidEndCollection]

/-- `hid_kbd_report`. -/
def hidKbdReport : Report where
  poll := true
  iocb := true
  configLen := some ((hidKbdReportDesc.map hidItemLength).sum % 2 ^ 16)
  ctrl := some hidKbdReportDesc

/-! ## Start -/

/-- `hid_register_report`, with room for `nr` reports. -/
def hidRegisterReport (nr : Nat) (s : State) (r : Nat × Report) : State :=
  if s.slots.length < nr then { s with slots := s.slots ++ [{ report := r.2, duration := r.1 }] } else s

/-- `hid_start`. -/
def hidStart (s : State) : Option State := do
  let slots ← (List.range s.slots.length).foldlM (fun slots rid => hidRaiseInterrupt rid slots) s.slots
  return { s with slots }

/-- `hid_init`, in which reports are registered with their idle duration. -/
def hidInit (nr : Nat) (reports : List (Nat × Report)) : Option State :=
  hidStart (reports.foldl (hidRegisterReport nr) {})

/-! ## Steps -/

inductive Op where
  | control (q : Setup)
  | poll (jiffies : UInt32) (raises : List Nat) (submitted : Bool)
  | complete
  deriving DecidableEq, Repr

def step (s : State) : Op → Option State
  | .control q => (hidHandleCtrlData q s).map Prod.snd
  | .poll jiffies raises submitted => hidInputSubmit jiffies raises submitted s
  | .complete => some (hidInputDiscard s)

end Sdfirm.Hid

/-!
## The keyboard of the HID class (`kernel/usb/hid/hid_kbd.c`)

The keyboard is the report 0, and the only one, of `hid_init`. One word,
`hid_kbd_last`, holds the key that is pressed and what has to be sent of it. The
steps are the key events, `SET_IDLE`, and those of the endpoint: it is polled,
the bytes of a request are asked for (`hid_input_handle`), and the request is
completed, which is when the host has received the report. `none` is a failed
`BUG_ON` of the class.

`seen` lists the key presses that have been accepted, all key releases, and the
reports that the host has received.
-/

namespace Sdfirm.HidKbd

abbrev Byte := BitVec 8

/-! ### Keys -/

/-- `NR_KEYS`. -/
inductive NrKeys where
  | keys2
  | keys12
  | keys16
  deriving DecidableEq, Repr

/-- An entry of `kbd_keyboard_ascii`, `kbd_keyboard_ctrls` and `kbd_keyboard_keys`. -/
structure Key where
  ascii : Byte
  ctrls : Byte
  key : Byte
  deriving DecidableEq, Repr

/-- `kbd_keyboard_ascii`, `kbd_keyboard_ctrls` and `kbd_keyboard_keys`. -/
def kbdKeyboard : NrKeys → List Key
  | .keys2 => [⟨0x1B, 0, 41⟩, ⟨0x0D, 0, 40⟩]
  | .keys12 =>
    [⟨0x1B, 0, 41⟩, ⟨0x30, 0, 39⟩, ⟨0x0D, 0, 40⟩,
      ⟨0x31, 0, 30⟩, ⟨0x32, 0, 31⟩, ⟨0x33, 0, 32⟩,
      ⟨0x34, 0, 33⟩, ⟨0x35, 0, 34⟩, ⟨0x36, 0, 35⟩,
      ⟨0x37, 0, 36⟩, ⟨0x38, 0, 37⟩, ⟨0x39, 0, 38⟩]
  | .keys16 =>
    [⟨0x1B, 0, 41⟩, ⟨0x30, 0, 39⟩, ⟨0x0D, 0, 40⟩, ⟨0x2B, 0x20, 46⟩,
      ⟨0x31, 0, 30⟩, ⟨0x32, 0, 31⟩, ⟨0x33, 0, 32⟩, ⟨0x2D, 0, 45⟩,
      ⟨0x34, 0, 33⟩, ⟨0x35, 0, 34⟩, ⟨0x36, 0, 35⟩, ⟨0x2A, 0x20, 37⟩,
      ⟨0x37, 0, 36⟩, ⟨0x38, 0, 37⟩, ⟨0x39, 0, 38⟩, ⟨0x25, 0, 56⟩]

/-- `hid_kbd_last`: its low byte, and the bits `HID_KBD_STATE_DOWN`, `HID_KBD_STATE_UP` and `HID_KBD_STATE_BUSY`. -/
structure Last where
  code : Byte
  down : Bool
  up : Bool
  busy : Bool
  deriving DecidableEq, Repr

inductive Seen where
  | accepted (key : Byte)
  | up (key : Byte)
  | report (bytes : List Byte)
  deriving DecidableEq, Repr

structure Kbd where
  hid : Hid.State
  last : Last
  /-- The bytes of the request that has been submitted, once they have been asked for. -/
  fifo : Option (List Byte)
  seen : List Seen
  deriving DecidableEq, Repr

variable (n : NrKeys)

/-- `hid_kbd_key_ctrls`. -/
def hidKbdKeyCtrls (code : Byte) : Byte := (((kbdKeyboard n).find? (·.ascii = code)).map Key.ctrls).getD 0

/-- `hid_kbd_key_code`. -/
def hidKbdKeyCode (code : Byte) : Byte := (((kbdKeyboard n).find? (·.ascii = code)).map Key.key).getD 0

/-- `hid_kbd_rid` -/
def hidKbdRid : Nat := 0

/-! ### Callbacks -/

/-- `hid_kbd_irq_in`. -/
def hidKbdIrqIn (last : Last) : List Byte :=
  [if last.down then hidKbdKeyCtrls n last.code else 0, 0, if last.down then hidKbdKeyCode n last.code else 0,
    0, 0, 0, 0, 0]

/-- `hid_kbd_irq_poll`: whether it calls `hid_kbd_submit`. -/
def hidKbdIrqPoll (last : Last) : Bool := if last.down then true else if last.up then !last.down else false

/-- `hid_kbd_irq_done`. -/
def hidKbdIrqDone (last : Last) : Last :=
  if last.down then { last with down := false }
  else if last.up then if !last.down then { last with up := false, busy := false } else last
  else last

/-- `hid_interrupt_busy(hid_kbd_rid)`. -/
def hidKbdInterruptBusy (s : Kbd) : Bool := (s.hid.slots[hidKbdRid]?).any Hid.hidInterruptBusy

/-- `hid_kbd_key_event` with `HID_KBD_STATE_DOWN`. -/
def hidKbdKeyDown (key : Byte) (s : Kbd) : Kbd :=
  if !hidKbdInterruptBusy s ∧ !s.last.busy then
    { s with last := { code := key, down := true, up := false, busy := true }, seen := s.seen ++ [.accepted key] }
  else s

/-- `hid_kbd_key_event` with `HID_KBD_STATE_UP`. -/
def hidKbdKeyUp (key : Byte) (s : Kbd) : Kbd :=
  let s := { s with seen := s.seen ++ [.up key] }
  if s.last.code = key ∧ s.last.busy then { s with last := { s.last with up := true } } else s

/-! ### The endpoint -/

/-- `hid_input_submit`, where `usbd_request_submit` returns `submitted`. -/
def kbdPoll (jiffies : UInt32) (submitted : Bool) (s : Kbd) : Option Kbd :=
  let raises := if hidKbdIrqPoll s.last then [hidKbdRid] else []
  (Hid.hidInputSubmit jiffies raises submitted s.hid).map fun hid => { s with hid }

/-- `hid_input_handle`, which is called for a request that has been submitted. -/
def kbdHandle (s : Kbd) : Kbd := if s.hid.inflight then { s with fifo := some (hidKbdIrqIn n s.last) } else s

/-- `hid_input_discard`, when the bytes of the request have been sent. -/
def kbdComplete (s : Kbd) : Kbd :=
  match s.fifo with
  | none => s
  | some bytes =>
    { hid := Hid.hidInputDiscard s.hid
      last := if s.hid.slots.any Hid.Slot.running then hidKbdIrqDone s.last else s.last
      fifo := none
      seen := s.seen ++ [.report bytes] }

/-- `SET_IDLE` with the duration and the report in `wValue`. -/
def kbdSetIdle (value : UInt16) (s : Kbd) : Kbd :=
  { s with hid := (Hid.hidSetIdle { recp := .interface, type := .cls, request := 0x0A, value } s.hid).2 }

/-! ### Steps -/

inductive Op where
  | down (key : Byte)
  | up (key : Byte)
  | poll (jiffies : UInt32) (submitted : Bool)
  | handle
  | complete
  | setIdle (value : UInt16)
  deriving DecidableEq, Repr

def step (s : Kbd) : Op → Option Kbd
  | .down key => some (hidKbdKeyDown key s)
  | .up key => some (hidKbdKeyUp key s)
  | .poll jiffies submitted => kbdPoll jiffies submitted s
  | .handle => some (kbdHandle n s)
  | .complete => some (kbdComplete s)
  | .setIdle value => some (kbdSetIdle value s)

/-- The keyboard is registered with `HID_DURATION_NEVER`, and the class is started. -/
def hidKbdInit : Option Kbd :=
  (Hid.hidInit 1 [(0, Hid.hidKbdReport)]).map fun hid =>
    { hid, last := { code := 0, down := false, up := false, busy := false }, fifo := none, seen := [] }

end Sdfirm.HidKbd
