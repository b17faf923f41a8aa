import Sdfirm.Impl.IfdAtr

/-!
# Secure PIN entry (`kernel/usb/scd/ccid_spe.c`)

The host sends a template of an APDU and says where the digits of a PIN go in
it. The digits that are typed are written into the template, which is in
`ifd_xchg_buff`, and at the end the APDU is handed over to the card. One
operation is modelled, from `__ccid_spe_operate_init` to
`ccid_spe_operate_exit`; the display is left out. `BITS_PER_UNIT` is 8, as on
the machines that are configured with `CONFIG_CCID_SECURE`.

Keys come as `kbd_translate_key` translates them. A `BUG_ON` that fires and a
shift by a negative count are `none`. Beside the variables of the source the
state has the digits typed since the entry began, and a log of the entries
that came to an end.
-/

namespace Sdfirm.CcidSpe

open IfdAtr (hweight8)

abbrev Byte := BitVec 8

/-- `ifd_xchg_buff`. -/
abbrev Buf := Nat → Byte

/-- `CCID_SPE_PIN_VERIFY` and `CCID_SPE_PIN_MODIFY`. -/
inductive PinOperation where
  | verify
  | modify
  deriving DecidableEq, Repr

/-- The fields of `struct ccid_po_param` and `struct ccid_pm_param` that the entry reads. -/
structure PinParam where
  bPINOperation : PinOperation
  bmFormatString : Byte
  bmPINBlockString : Byte
  bmPINLengthFormat : Byte
  wPINMaxExtraDigit : BitVec 16
  bEntryValidationCondition : Byte
  bInsertionOffsetOld : Byte
  bInsertionOffsetNew : Byte
  bConfirmPIN : Byte
  deriving DecidableEq, Repr

/-- The slot and the block received for it. -/
structure Slot where
  /-- `IFD_BUF_SIZE` -/
  bufSize : Nat
  /-- `ifd_slot_active` returns `SCS_ERR_SUCCESS`. -/
  active : Bool
  /-- `ifd_get_convention` returns `IFD_CONV_DIRECT`. -/
  direct : Bool
  /-- `SCD_XB_NC`, the bytes of the template -/
  nc : Nat
  nc_le : nc ≤ bufSize

variable (slot : Slot) (p : PinParam)

/-! ## The buffer -/

/-- `scd_read_byte`. -/
def scdReadByte (buf : Buf) (index : Nat) : Option Byte := if index < slot.bufSize then some (buf index) else none

/-- `ifd_write_byte_mask`. -/
def ifdWriteByteMask (buf : Buf) (index : Nat) (byte mask : Byte) : Buf :=
  if slot.active ∧ index < slot.bufSize then
    Function.update buf index ((buf index &&& ~~~mask) ||| (byte &&& mask))
  else buf

/-- `scd_write_byte`. -/
def scdWriteByte (buf : Buf) (index : Nat) (byte : Byte) : Buf :=
  if slot.active ∧ index < slot.bufSize then Function.update buf index byte else buf

def bitrev8 (byte : Byte) : Byte :=
  let byte := ((byte &&& 0x55) <<< 1) ||| ((byte &&& 0xAA) >>> 1)
  let byte := ((byte &&& 0x33) <<< 2) ||| ((byte &&& 0xCC) >>> 2)
  ((byte &&& 0x0F) <<< 4) ||| ((byte &&& 0xF0) >>> 4)

/-- `CCID_SPE_APDU_FIXED`. -/
def apduFixed : Nat := 5

/-- `ccid_spe_invs`. -/
def ccidSpeInvs (buf : Buf) : Buf :=
  if slot.direct then buf
  else (List.range' apduFixed (slot.nc - apduFixed)).foldl (fun buf i => scdWriteByte slot buf i (bitrev8 (buf i))) buf

/-- `ccid_spe_invb`. -/
def ccidSpeInvb (value : Byte) (bits : Nat) : Option Byte :=
  if slot.direct then some value
  else if bits ≤ 8 then some (bitrev8 value >>> (8 - bits))
  else none

/-! ## The format -/

def ccidSpePinFormat : Byte := p.bmFormatString &&& 0x03

def ccidSpeIsFormatBcd : Bool := ccidSpePinFormat p == 0x01

def ccidSpeIsFormatAscii : Bool := ccidSpePinFormat p == 0x02

def ccidSpeKey2digit (keycode : Byte) : Byte := if ccidSpeIsFormatAscii p then keycode else keycode - 0x30

def ccidSpeIsPinBits : Bool := p.bmFormatString &&& 0x80 == 0

def ccidSpeIsLenBits : Bool := p.bmPINLengthFormat &&& 0x08 == 0

def ccidSpeIsJustifyL : Bool := p.bmFormatString &&& 0x04 == 0

def ccidSpePinPos : Nat := ((p.bmFormatString &&& 0x78) >>> 3).toNat

def ccidSpeLenPos : Nat := (p.bmPINLengthFormat &&& 0x0F).toNat

def ccidSpePinBytes : Nat := (p.bmPINBlockString &&& 0x0F).toNat

def ccidSpePinBits : Nat := if ccidSpeIsFormatBcd p then 4 else 8

def ccidSpeLenBits : Nat := (p.bmPINBlockString >>> 4).toNat

/-- `ccid_spe_first_byte`. -/
def ccidSpeFirstByte (len : Bool) : Nat :=
  let pos := if len then ccidSpeLenPos p else ccidSpePinPos p
  if (if len then ccidSpeIsLenBits p else ccidSpeIsPinBits p) then pos / 8 else pos

/-- `ccid_spe_first_bit`. -/
def ccidSpeFirstBit (len : Bool) : Nat :=
  let pos := if len then ccidSpeLenPos p else ccidSpePinPos p
  if (if len then ccidSpeIsLenBits p else ccidSpeIsPinBits p) then pos % 8 else 0

def ccidSpePinDigits : Nat := if ccidSpeIsFormatBcd p then ccidSpePinBytes p * 2 else ccidSpePinBytes p

def ccidSpeMaxDigits : Nat := p.wPINMaxExtraDigit.toNat % 256

/-- `HIBYTE(wPINMaxExtraDigit)`. -/
def ccidSpeMinDigits : Nat := p.wPINMaxExtraDigit.toNat / 256

/-- `ccid_spe_validation`. -/
def ccidSpeValidation (validation : Byte) : Bool := p.bEntryValidationCondition &&& validation != 0

/-- `CCID_SPE_VALID_MAXSIZE`. -/
def validMaxsize : Byte := 0x01
/-- `CCID_SPE_VALID_KEYPRESS`. -/
def validKeypress : Byte := 0x02
/-- `CCID_SPE_VALID_TIMEOUT`. -/
def validTimeout : Byte := 0x04

/-! ## Bits and digits -/

/-- `bits2mask_l`. -/
def bits2maskL (bits : Nat) : Byte := BitVec.ofNat 8 (2 ^ bits - 1)

/-- `bits2mask_m`, for at most 8 bits. -/
def bits2maskM (bits : Nat) : Byte := BitVec.ofNat 8 ((2 ^ bits - 1) <<< (8 - bits))

/-- `ccid_spe_write_bits`. -/
def ccidSpeWriteBits (buf : Buf) (ibyte ibit : Nat) (cont : Byte) (bits : Nat) : Option Buf :=
  let mask := bits2maskL bits
  let buf := ifdWriteByteMask slot buf ibyte (cont <<< ibit) (mask <<< ibit)
  if 8 < ibit + (hweight8 mask).toNat then
    if ibit ≤ 8 then some (ifdWriteByteMask slot buf (ibyte + 1) (cont >>> (8 - ibit)) (mask >>> (8 - ibit)))
    else none
  else some buf

/-- `ccid_spe_read_bits`. -/
def ccidSpeReadBits (buf : Buf) (ibyte ibit bits : Nat) : Option Byte :=
  if ibit = 0 then do
    let cont ← scdReadByte slot buf ibyte
    return cont &&& bits2maskL bits
  else if ibit ≤ 8 then do
    let b1 := (← scdReadByte slot buf ibyte) &&& bits2maskM ibit
    let b2 := (← scdReadByte slot buf (ibyte + 1)) &&& bits2maskL ibit
    let cont := (b1 >>> (8 - ibit)) ||| (b2 <<< ibit)
    return cont &&& bits2maskL bits
  else none

/-- `ccid_spe_offset_fixed`. -/
def ccidSpeOffsetFixed (pinOffset : Byte) : Nat := apduFixed + pinOffset.toNat

/-- The byte of the digit `nr`, as `ccid_spe_write_digit` and `ccid_spe_read_digit` compute it. -/
def digitByte (pinOffset : Byte) (nr : Nat) : Nat :=
  ccidSpeFirstByte p false + ccidSpeOffsetFixed pinOffset + ccidSpePinBits p * nr % 256 / 8

/-- The bit in it, which can be past the byte. -/
def digitBit (nr : Nat) : Nat := ccidSpeFirstBit p false + ccidSpePinBits p * nr % 256 % 8

/-- `ccid_spe_write_digit`. -/
def ccidSpeWriteDigit (pinOffset : Byte) (buf : Buf) (nr : Nat) (digit : Byte) : Option Buf := do
  let cont ← ccidSpeInvb slot digit (ccidSpePinBits p)
  ccidSpeWriteBits slot buf (digitByte p pinOffset nr) (digitBit p nr) cont (ccidSpePinBits p)

/-- `ccid_spe_read_digit`. -/
def ccidSpeReadDigit (pinOffset : Byte) (buf : Buf) (nr : Nat) : Option Byte := do
  let digit ← ccidSpeReadBits slot buf (digitByte p pinOffset nr) (digitBit p nr) (ccidSpePinBits p)
  ccidSpeInvb slot digit (ccidSpePinBits p)

/-- `ccid_spe_write_length`. -/
def ccidSpeWriteLength (pinOffset : Byte) (buf : Buf) (nr : Nat) : Option Buf :=
  if ccidSpeLenBits p = 0 then some buf
  else do
    let cont ← ccidSpeInvb slot (BitVec.ofNat 8 nr) (ccidSpeLenBits p)
    ccidSpeWriteBits slot buf (ccidSpeFirstByte p true + ccidSpeOffsetFixed pinOffset) (ccidSpeFirstBit p true) cont
      (ccidSpeLenBits p)

/-! ## The entry -/

/-- `CCID_SPE_STATE_OLDPIN` to `CCID_SPE_STATE_CONFIRM`. -/
inductive Stage where
  | oldpin
  | newpin
  | confirm
  deriving DecidableEq, Repr

/-- The values of `SCD_XB_ERR` that come up. -/
inductive ScsErr where
  | success
  | timeout
  | overrun
  deriving DecidableEq, Repr

/-- The digits of an entry, and whether it was completed or dropped with ESC. -/
structure Entry where
  stage : Stage
  digits : List Byte
  completed : Bool
  deriving DecidableEq, Repr

structure Spe where
  nrNext : Nat
  nrLast : Nat
  aborted : Bool
  /-- `flags & CCID_SPE_STATE_MASK` -/
  stage : Stage
  /-- `CCID_SPE_BAD_CONFIRM` is raised. -/
  badConfirm : Bool
  pinOffset : Byte
  /-- `SCD_XB_ERR` -/
  err : ScsErr
  buf : Buf
  /-- `ccid_spe_operate_exit` has been called. -/
  ended : Bool
  /-- The digits of the entry so far. -/
  typed : List Byte
  /-- The entries before it, the last one first. -/
  log : List Entry

/-- `ccid_spe_shift_left`. -/
def ccidSpeShiftLeft (pinOffset : Byte) (nrNext : Nat) (buf : Buf) : Option Buf :=
  let pinDigits := ccidSpePinDigits p
  let first := (((pinDigits : Int) - nrNext - 1) % 256).toNat
  (List.range' first (pinDigits - 1 - first)).foldlM (fun buf i => do
    let digit ← ccidSpeReadDigit slot p pinOffset buf (i + 1)
    ccidSpeWriteDigit slot p pinOffset buf i digit) buf

/-- `ccid_spe_key_confirm`. -/
def ccidSpeKeyConfirm (s : Spe) (keycode : Byte) : Option Spe :=
  if s.nrNext < ccidSpeMaxDigits p then do
    let digit := ccidSpeKey2digit p keycode
    let nr := if ccidSpeIsJustifyL p then s.nrNext
      else (((ccidSpePinDigits p : Int) - s.nrLast + s.nrNext) % 256).toNat
    let stored ← ccidSpeReadDigit slot p s.pinOffset s.buf nr
    return { s with
      badConfirm := s.badConfirm || digit != stored
      nrNext := s.nrNext + 1
      typed := s.typed ++ [digit] }
  else some s

/-- `ccid_spe_key_number`. -/
def ccidSpeKeyNumber (s : Spe) (keycode : Byte) : Option Spe :=
  if s.nrNext < ccidSpeMaxDigits p then do
    let digit := ccidSpeKey2digit p keycode
    let buf ← if ccidSpeIsJustifyL p then ccidSpeWriteDigit slot p s.pinOffset s.buf s.nrNext digit
      else do
        let buf ← ccidSpeShiftLeft slot p s.pinOffset s.nrNext s.buf
        ccidSpeWriteDigit slot p s.pinOffset buf (((ccidSpePinDigits p : Int) - 1) % 256).toNat digit
    return { s with buf := buf, nrNext := s.nrNext + 1, typed := s.typed ++ [digit] }
  else some s

/-- `ccid_spe_operate_exit`. -/
def ccidSpeOperateExit (s : Spe) : Spe := { s with buf := ccidSpeInvs slot s.buf, ended := true }

/-- `ccid_spe_reset_step`. -/
def ccidSpeResetStep (s : Spe) : Spe := { s with nrLast := s.nrNext, nrNext := 0, typed := [] }

/-- `ccid_spe_set_state`. -/
def ccidSpeSetState (s : Spe) (stage : Stage) : Spe :=
  let s := ccidSpeResetStep { s with stage := stage }
  if stage = .confirm then { s with badConfirm := false } else s

/-- `ccid_spe_verify_step`. -/
def ccidSpeVerifyStep (s : Spe) : Spe :=
  ccidSpeOperateExit slot (if s.nrNext < ccidSpeMinDigits p then { s with err := .overrun } else s)

/-- `ccid_spe_modify_step`. -/
def ccidSpeModifyStep (s : Spe) : Spe :=
  match s.stage with
  | .oldpin => { ccidSpeSetState s .newpin with pinOffset := p.bInsertionOffsetNew }
  | .newpin => if p.bConfirmPIN = 0 then ccidSpeOperateExit slot s else ccidSpeSetState s .confirm
  | .confirm =>
    let s := if s.nrNext ≠ s.nrLast then { s with badConfirm := true } else s
    if s.badConfirm then ccidSpeSetState s .newpin else ccidSpeOperateExit slot s

/-- `ccid_spe_key_end`. -/
def ccidSpeKeyEnd (s : Spe) : Option Spe := do
  let buf ← ccidSpeWriteLength slot p s.pinOffset s.buf s.nrNext
  let s := { s with buf := buf, log := ⟨s.stage, s.typed, !s.aborted⟩ :: s.log }
  return if s.aborted then ccidSpeOperateExit slot s
    else match p.bPINOperation with
      | .verify => ccidSpeVerifyStep slot p s
      | .modify => ccidSpeModifyStep slot p s

/-- `ccid_Secure_abort`. -/
def ccidSecureAbort (s : Spe) : Option Spe := ccidSpeKeyEnd slot p { s with aborted := true, err := .timeout }

/-- `ccid_spe_key_escape`. -/
def ccidSpeKeyEscape (s : Spe) : Option Spe :=
  if s.nrNext ≠ 0 then some { s with nrNext := 0, typed := [], log := ⟨s.stage, s.typed, false⟩ :: s.log }
  else ccidSecureAbort slot p s

/-- `ccid_spe_key_wait`. -/
def ccidSpeKeyWait (s : Spe) (scancode : Byte) : Option Spe :=
  if scancode ≠ 0 then some s
  else if ccidSpeValidation p validTimeout then ccidSpeKeyEnd slot p s
  else ccidSecureAbort slot p s

/-- `ccid_spe_key_down`. -/
def ccidSpeKeyDown (s : Spe) (keycode : Byte) : Option Spe :=
  if keycode = 0x0D then
    if ccidSpeValidation p validKeypress then ccidSpeKeyEnd slot p s else some s
  else if keycode = 0x1B then ccidSpeKeyEscape slot p s
  else if 0x30 ≤ keycode ∧ keycode ≤ 0x39 then do
    let s ← if s.stage = .confirm then ccidSpeKeyConfirm slot p s keycode else ccidSpeKeyNumber slot p s keycode
    if ccidSpeValidation p validMaxsize && s.nrNext == ccidSpeMaxDigits p then ccidSpeKeyEnd slot p s
    else return s
  else some s

/-- `KBD_EVENT_KEY_TOUT` with the seconds left, and `KBD_EVENT_KEY_DOWN`. -/
inductive KbdEvent where
  | keyTout (scancode : Byte)
  | keyDown (keycode : Byte)
  deriving DecidableEq, Repr

/-- `ccid_spe_capture`; the capture ends with the operation. -/
def ccidSpeCapture (s : Spe) (event : KbdEvent) : Option Spe :=
  if s.ended then some s
  else match event with
    | .keyTout scancode => ccidSpeKeyWait slot p s scancode
    | .keyDown keycode => ccidSpeKeyDown slot p s keycode

/-- `__ccid_spe_operate_init`, with the template of the host in the buffer. -/
def ccidSpeOperateInit (template : Buf) : Spe where
  nrNext := 0
  nrLast := 0
  aborted := false
  stage := .oldpin
  badConfirm := false
  pinOffset := match p.bPINOperation with
    | .verify => 0
    | .modify => p.bInsertionOffsetOld
  err := .success
  buf := ccidSpeInvs slot template
  ended := false
  typed := []
  log := []

/-- The operation, from the events of the keyboard. -/
def operate (template : Buf) (events : List KbdEvent) : Option Spe :=
  events.foldlM (ccidSpeCapture slot p) (ccidSpeOperateInit slot p template)

end Sdfirm.CcidSpe
