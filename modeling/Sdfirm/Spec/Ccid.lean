import Sdfirm.Impl.ScdNotify
import Sdfirm.Proof.Framework.Runs
import Sdfirm.Impl.CcidSpe
import Sdfirm.Proof.Framework.Bits

/-!
# What the smart card device has to do

The notification of slot changes, and the secure PIN entry.
-/

/-!
## What the slot change notification is for

Beside the state of the interface a `Sys` has what a message should tell: the
presence of the cards when its request was submitted, and the presence that
the last message sent has reported. `Notifies` asks that no access leaves its
array in any run, and that while a request is pending the message that would
be sent has the length announced and says for each slot whether a card is
there (`Tells.present`) and whether that is news (`Tells.changed`).
-/

namespace Sdfirm.ScdNotify

open IfdSlot

variable (c : Config)

structure Sys where
  state : ScdState
  /-- The presence of the cards when the request was submitted. -/
  announced : Nat → Bool
  /-- The presence of the cards in the last message that was sent. -/
  reported : Nat → Bool

/-- A card is in the slot. -/
def cardIn (s : ScdState) (sid : Nat) : Bool := scdStatus (s.status sid) ≠ .notPresent

inductive Op where
  /-- A card comes, goes, or is brought to another state. -/
  | card (sid : Nat) (status : SlotState)
  /-- Some other part of the firmware selects a slot. -/
  | select (sid : Nat)
  /-- The `poll` callback, with whether the endpoint takes requests. -/
  | poll (ready : Bool)
  /-- The `done` callback. -/
  | sent
  /-- The request is dropped. -/
  | reset

/-- When the steps can come. -/
def Enabled (y : Sys) : Op → Prop
  | .card sid _ => sid < c.slots
  | .select sid => sid < c.slots
  | .poll ready => ready = true → y.state.request = none
  | .sent => y.state.request ≠ none
  | .reset => True

def step (y : Sys) : Op → Option Sys
  | .card sid status => some { y with state := { y.state with status := Function.update y.state.status sid status } }
  | .select sid => some { y with state := { y.state with slid := sid } }
  | .poll ready => (scdSubmitInterrupt c ready y.state).map fun s =>
      { y with state := s, announced := if s.request = y.state.request then y.announced else cardIn y.state }
  | .sent => (scdDiscardInterrupt c y.state).map fun s => { y with state := s, reported := y.announced }
  | .reset => some { y with state := { y.state with request := none } }

/-- Nothing has been announced or reported; the slots are in any state. -/
def Init (y : Sys) : Prop :=
  ∃ status slid, slid < c.slots ∧ y = ⟨⟨status, slid, fun _ => 0, fun _ => 0, none⟩, fun _ => false, fun _ => false⟩

abbrev Run : Sys → Prop := Framework.Run (step c) (Init c) (Enabled c)

/-- The bit `i` after the message type. -/
def messageBit (msg : List Byte) (i : Nat) : Bool := (msg.getD (1 + i / 8) 0).getLsbD (i % 8)

/-- The message has the length announced, and two right bits for each slot. -/
structure Tells (y : Sys) (length : Nat) (msg : List Byte) : Prop where
  length_eq : msg.length = length
  present : ∀ sid < c.slots, messageBit msg (2 * sid) = y.announced sid
  changed : ∀ sid < c.slots, messageBit msg (2 * sid + 1) = (y.announced sid != y.reported sid)

/-- In every run, each step that can come stays within the arrays, and the message of a pending
request is right whenever it is sent. -/
def Notifies : Prop :=
  ∀ y, Run c y → (∀ op, Enabled c y op → ∃ y', step c y op = some y') ∧
    ∀ length, y.state.request = some length → ∃ msg, scdHandleInterrupt c y.state = some msg ∧ Tells c y length msg

end Sdfirm.ScdNotify

/-!
## What the secure PIN entry is for

The data of an APDU start behind its header and the insertion offset, and
their bits are counted from there. Digit `nr` of a PIN has the bits
`[pos + nr * w, pos + (nr + 1) * w)`: `Accesses` is what writing one should
do. `Addressable` is where it does: a digit has to start with a byte or in the
middle of one, and its position must not have wrapped around in an `uint8_t`.

An operation that ends without an error should have asked for PINs of a length
the host allows, and for a confirmation that is the new PIN in the block
(`Policy`). `ChecksLength` and `ChecksConfirm` are when it does: only
`ccid_spe_verify_step` looks at the least number of digits, and
`ccid_spe_key_confirm` compares what `ccid_spe_read_digit` reads.

The APDU should be the template of the host with the PINs and their lengths
filled in, and with nothing else changed (`Integrity`). `Roomy` is what this
takes of the format, and `NoTraces` of the entries: what was typed before ESC
or before a confirmation that failed is not taken out of the block.
-/

namespace Sdfirm.CcidSpe

open Framework.Bits

variable (slot : Slot) (p : PinParam)

/-! ### Digits -/

/-- The first bit of the data. -/
def dataStart (pinOffset : Byte) : Nat := 8 * (apduFixed + pinOffset.toNat)

/-- The position of the PIN block in the data, in bits. -/
def pinStart : Nat := if ccidSpeIsPinBits p then ccidSpePinPos p else 8 * ccidSpePinPos p

/-- The first bit of the digit `nr`. -/
def digitStart (pinOffset : Byte) (nr : Nat) : Nat := dataStart pinOffset + pinStart p + nr * ccidSpePinBits p

/-- Digit `nr` reads back after it is written, the write changes the bits of the digit only, and
digit `m` reads as before. -/
def Accesses (pinOffset : Byte) (buf : Buf) (nr m digit : Byte) : Prop :=
  ∃ buf', ccidSpeWriteDigit slot p pinOffset buf nr.toNat digit = some buf' ∧
    ccidSpeReadDigit slot p pinOffset buf' nr.toNat = some digit ∧
    (∀ j, ¬ (digitStart p pinOffset nr.toNat ≤ j ∧ j < digitStart p pinOffset (nr.toNat + 1)) →
      bitAt buf' j = bitAt buf j) ∧
    (m ≠ nr → ccidSpeReadDigit slot p pinOffset buf' m.toNat = ccidSpeReadDigit slot p pinOffset buf m.toNat)

/-- The slot is active, the digit starts with a byte or in the middle of one, all that is read is
in the buffer, and the position in bits fits an `uint8_t`. -/
def Addressable (pinOffset nr : Byte) : Prop :=
  slot.active ∧
    (digitBit p nr.toNat = 0 ∧ digitByte p pinOffset nr.toNat < slot.bufSize ∨
      digitBit p nr.toNat = 4 ∧ digitByte p pinOffset nr.toNat + 1 < slot.bufSize) ∧
    ccidSpePinBits p * nr.toNat < 256

/-- The positions of the two digits are equal in an `uint8_t`. -/
def Aliased (nr m : Byte) : Prop := ccidSpePinBits p * m.toNat % 256 = ccidSpePinBits p * nr.toNat % 256

instance (pinOffset nr : Byte) : Decidable (Addressable slot p pinOffset nr) := inferInstanceAs (Decidable (_ ∧ _ ∧ _))

instance (nr m : Byte) : Decidable (Aliased p nr m) := inferInstanceAs (Decidable (_ = _))

/-! ### Entries -/

/-- A value in the order of the bits of the card. -/
def inv (w : Nat) (x : Byte) : Byte := if slot.direct then x else bitrev8 x >>> (8 - w)

/-- The number in the block of the first of `n` digits, as they are justified. -/
def firstDigit (n : Nat) : Nat := if ccidSpeIsJustifyL p then 0 else ccidSpePinDigits p - n

/-- The PIN of `n` digits that stands in the block. -/
def storedPin (pinOffset : Byte) (buf : Buf) (n : Nat) : List Byte :=
  (List.range n).map fun i =>
    inv slot (ccidSpePinBits p) (field buf (digitStart p pinOffset (firstDigit p n + i)) (ccidSpePinBits p))

/-- The last entry of a stage that was completed. -/
def accepted (stage : Stage) (log : List Entry) : Option (List Byte) :=
  (log.find? fun e => e.stage = stage ∧ e.completed).map Entry.digits

/-- The PINs have as many digits as the host allows, and the confirmation is the new PIN in the
block, in the order of the bits of the card. -/
structure Policy (s : Spe) : Prop where
  counts : ∀ e ∈ s.log, e.completed → ccidSpeMinDigits p ≤ e.digits.length ∧ e.digits.length ≤ ccidSpeMaxDigits p
  confirmed : p.bPINOperation = .modify → p.bConfirmPIN ≠ 0 →
    ∃ digits new, accepted .confirm s.log = some digits ∧ accepted .newpin s.log = some new ∧
      digits.length = new.length ∧
      digits = storedPin slot p p.bInsertionOffsetNew (ccidSpeInvs slot s.buf) new.length

/-- A PIN is verified, or no digits are asked for, or an entry ends only at the largest number of them. -/
def ChecksLength : Prop :=
  p.bPINOperation = .verify ∨ ccidSpeMinDigits p = 0 ∨
    ccidSpeValidation p validKeypress = false ∧ ccidSpeValidation p validTimeout = false ∧
      ccidSpeMinDigits p ≤ ccidSpeMaxDigits p

/-- Digits of 8 bits start with a byte or in the middle of one, digits of 4 bits with a byte. -/
def Aligned : Prop := pinStart p % 8 = 0 ∨ pinStart p % 8 = 4 ∧ ccidSpePinBits p = 8

/-- There is nothing to confirm, or the digits are aligned and the largest PIN has its place. -/
def ChecksConfirm : Prop :=
  p.bPINOperation = .verify ∨ p.bConfirmPIN = 0 ∨
    Aligned p ∧ if ccidSpeIsJustifyL p then ccidSpePinBits p * ccidSpeMaxDigits p ≤ 256
      else ccidSpeMaxDigits p ≤ ccidSpePinDigits p

instance : Decidable (ChecksLength p) := inferInstanceAs (Decidable (_ ∨ _ ∨ _ ∧ _ ∧ _))

instance : Decidable (Aligned p) := inferInstanceAs (Decidable (_ ∨ _ ∧ _))

instance : Decidable (ChecksConfirm p) := inferInstanceAs (Decidable (_ ∨ _ ∨ _ ∧ ite _ _ _))

/-! ### The template -/

/-- The insertion offset of the block the entry is for. -/
def stageOffset (p : PinParam) (stage : Stage) : Byte :=
  match p.bPINOperation, stage with
  | .verify, _ => 0
  | .modify, .oldpin => p.bInsertionOffsetOld
  | .modify, _ => p.bInsertionOffsetNew

/-- The first bit of the length of the PIN. -/
def lenStart (pinOffset : Byte) : Nat :=
  8 * (ccidSpeFirstByte p true + ccidSpeOffsetFixed pinOffset) + ccidSpeFirstBit p true

end Sdfirm.CcidSpe
