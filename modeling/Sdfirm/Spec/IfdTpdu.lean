import Sdfirm.Impl.IfdT0
import Sdfirm.Impl.IfdT1

/-!
# What the transmission protocols have to do

The exchanges with a card under T=0 and under T=1.
-/

/-!
## What the T=0 engine is for

`Conforming` is the card's side of ISO/IEC 7816-3: while command bytes are
left it asks for one of them (`INS ^ 0xFF`) or for all of them (`INS`), then
it announces one or all of the response bytes in the same way, with NULL
bytes (`0x60`) wherever it needs time, and at the end it sends SW1 and SW2.

`Confined` is what should hold of the engine whatever the card sends, and
`Fits` is when it does: the engine counts the response bytes that the card
announces one by one, and compares the count with nothing. `Sound` is what
should hold of the parser and of the bytes that are sent, and `LengthOk` is
when it does.
-/

namespace Sdfirm.IfdT0

/-- A first status byte: `6X` but not the NULL byte, or `9X`. -/
def IsSw1 (b : Byte) : Prop := b ≠ 0x60 ∧ (b &&& 0xF0 = 0x60 ∨ b &&& 0xF0 = 0x90)

/-- An instruction byte that can be a procedure byte: the standard rules out `6X` and `9X`. -/
def ValidIns (b : Byte) : Prop := b &&& 0xF0 ≠ 0x60 ∧ b &&& 0xF0 ≠ 0x90

/-- `Conforming ins send recv stream left data sw1 sw2`: with `send` command bytes not yet
sent and at most `recv` response bytes not yet received, the card may send `stream`. It then
never asks for the last `left` command bytes, and sends the response `data` and the status. -/
inductive Conforming (ins : Byte) : Nat → Nat → List Byte → Nat → List Byte → Byte → Byte → Prop
  | status {send recv sw1} (sw2 : Byte) : IsSw1 sw1 →
      Conforming ins send recv [sw1, sw2] send [] sw1 sw2
  | null {send recv stream left data sw1 sw2} : Conforming ins send recv stream left data sw1 sw2 →
      Conforming ins send recv (0x60 :: stream) left data sw1 sw2
  | sendAll {send recv stream left data sw1 sw2} : ValidIns ins → 0 < send →
      Conforming ins 0 recv stream left data sw1 sw2 →
      Conforming ins send recv (ins :: stream) left data sw1 sw2
  | sendOne {send recv stream left data sw1 sw2} : ValidIns ins →
      Conforming ins send recv stream left data sw1 sw2 →
      Conforming ins (send + 1) recv ((ins ^^^ 0xFF) :: stream) left data sw1 sw2
  | recvAll {stream left data sw1 sw2} (block : List Byte) : ValidIns ins →
      Conforming ins 0 0 stream left data sw1 sw2 →
      Conforming ins 0 block.length (ins :: (block ++ stream)) left (block ++ data) sw1 sw2
  | recvOne {recv stream left data sw1 sw2} (b : Byte) : ValidIns ins →
      Conforming ins 0 recv stream left data sw1 sw2 →
      Conforming ins 0 (recv + 1) ((ins ^^^ 0xFF) :: b :: stream) left (b :: data) sw1 sw2

/-- The buffer starts with the command `c`. -/
def Stored (buf : Nat → Byte) (c : List Byte) : Prop := ∀ i (h : i < c.length), buf i = c.get ⟨i, h⟩

/-- The five bytes of the header: a command of four bytes gets `P3 = 0`. -/
def header (c : List Byte) : List Byte := c.take 4 ++ [c.getD 4 0]

/-- A slot between exchanges, with the bytes `c` in its buffer. -/
def idle (c : List Byte) : Slot :=
  ⟨fun i => c.getD i 0, ⟨true, 0, 0, 0, 0, 0, 0, 0⟩, ⟨0, 0, 0, 0, 0⟩, [], none⟩

/-- The first `n` bytes of the buffer. -/
def contents (buf : Nat → Byte) (n : Nat) : List Byte := (List.range n).map buf

/-! ### Any card -/

/-- The engine reads the next byte of the card. -/
def Reads (s : Slot) : Prop := s.ended = none ∧ s.xfr.rx < s.xfr.ne

/-- The byte `b` makes the engine ask for `(ne-1)-rx` bytes. -/
def AsksRest (s : Slot) (b : Byte) : Prop :=
  s.t0.cmpl = false ∧ s.xfr.rx + 1 = s.xfr.ne ∧ (sw1_6x b || sw1_9x b) = false ∧ b = s.t0.ins ∧
    s.t0.nc ≤ s.t0.tx

/-- The byte is stored in the buffer, and a length that is computed from `rx` does not wrap. -/
structure Safe (c : Config) (s : Slot) (b : Byte) : Prop where
  index : (s.xfr.rxStart + s.xfr.rx) % 2 ^ 32 < c.bufSize
  length : AsksRest s b → 1 ≤ s.t0.rx ∧ s.t0.rx - 1 ≤ s.t0.ne - 1

/-- The block in transfer ends within `Le + 2` bytes. -/
def Inside (s : Slot) : Prop := s.xfr.rxStart + s.xfr.ne ≤ s.t0.le + 2

/-- No byte of the stream takes the engine out of its bounds. -/
def Confined (c : Config) : Slot → List Byte → Prop
  | s, [] => Inside s
  | s, b :: stream => Inside s ∧ (Reads s → Safe c s b) ∧ Confined c (feed c.bits s b) stream

/-- `Fits ins send room k stream`: with `send` command bytes not yet sent, and `k` bytes to come
before the next procedure byte, the card announces at most `room` more response bytes, and
at most `room - 1` if it sends a status byte. `INS` announces what is left of `Le`. -/
def Fits (ins : Byte) : (send room k : Nat) → List Byte → Prop
  | _, _, _, [] => True
  | send, room, k + 1, _ :: stream => Fits ins send room k stream
  | send, room, 0, b :: stream =>
    if b = 0x60 then Fits ins send room 0 stream
    else if (sw1_6x b || sw1_9x b) = true then 0 < room
    else if 0 < send then Fits ins (if b = ins then 0 else send - 1) room 0 stream
    else if b = ins then 0 < room → Fits ins 0 1 (room - 1) stream
    else 0 < room ∧ Fits ins 0 (room - 1) 1 stream

instance decidableFits (ins : Byte) : (send room k : Nat) → (stream : List Byte) → Decidable (Fits ins send room k stream)
  | _, _, _, [] => isTrue (by rw [Fits]; trivial)
  | send, room, k + 1, _ :: stream => decidableFits ins send room k stream
  | send, room, 0, b :: stream =>
    have := decidableFits ins send room 0 stream
    have := decidableFits ins (if b = ins then 0 else send - 1) room 0 stream
    have := decidableFits ins 0 1 (room - 1) stream
    have := decidableFits ins 0 (room - 1) 1 stream
    inferInstanceAs (Decidable (if b = 0x60 then Fits ins send room 0 stream
      else if (sw1_6x b || sw1_9x b) = true then 0 < room
      else if 0 < send then Fits ins (if b = ins then 0 else send - 1) room 0 stream
      else if b = ins then 0 < room → Fits ins 0 1 (room - 1) stream
      else 0 < room ∧ Fits ins 0 (room - 1) 1 stream))

/-! ### Any command -/

/-- The first `nc` bytes of the buffer are a short command: case 1, 2S, 3S or 4S. -/
def WellFormed (buf : Nat → Byte) (nc : Nat) : Prop :=
  nc = 4 ∨ nc = 5 ∨ 0 < (buf 4).toNat ∧ (nc = 5 + (buf 4).toNat ∨ nc = 6 + (buf 4).toNat)

/-- The bytes sent are the header and the bytes after it, each from its place in the command. -/
def SentFrom (c sent : List Byte) : Prop := ∃ j, sent = header c ++ (c.drop 5).take j

/-- `ifd_t0_xfr_parse` accepts the well-formed commands, and whatever the card answers to an
accepted one, it is sent bytes of the command only. -/
structure Sound (bits : Nat) (s : Slot) (nc : Nat) : Prop where
  accepts : (∃ s', xfrParse s nc = .ok s') ↔ WellFormed s.buf nc
  sends : ∀ s' stream, xchgInit true s nc = .ok s' → SentFrom (contents s.buf nc) (exchange bits s' stream).sent

/-- A command with more than five bytes has the data its `Lc` announces, and `Lc` is not 0 when
one byte follows it. -/
def LengthOk (buf : Nat → Byte) (nc : Nat) : Prop :=
  6 ≤ nc → 5 + (buf 4).toNat ≤ nc ∧ ¬ (nc = 6 ∧ (buf 4).toNat = 0)

end Sdfirm.IfdT0

/-!
## What the T=1 engine is for

`Escalates` is the error handling of ISO/IEC 7816-3: as long as nothing valid
comes from the card, a bounded number of R-blocks is sent, then a bounded
number of S(RESYNC request) blocks, and then the exchange ends with
`SCS_ERR_HW_ERROR`.
-/

namespace Sdfirm.IfdT1

variable (c : Config)

/-- The protocol control byte that is sent. -/
def sentPcb (s : State) : Byte := (sentBlock s).getD 1 0

/-- What comes from the card ends in an error, or is no valid block. -/
def Invalid (s : State) (i : Input) : Prop :=
  ∃ t, receive c s i = some t ∧ (t.error ≠ .success ∨ blockValid c t = false)

/-- The exchange ends with `SCS_ERR_HW_ERROR`. -/
def GivesUp (s : State) (i : Input) : Prop := ∃ t, exchange c s i = some (.ended t) ∧ t.error = .hwError

/-- At most `m` requests to resynchronise, then the end. -/
def Resyncs : (m : Nat) → State → Prop
  | 0, s => ∀ i, Invalid c s i → GivesUp c s i
  | m + 1, s => ∀ i, Invalid c s i → GivesUp c s i ∨
      ∃ t, exchange c s i = some (.sent t) ∧ sentPcb t = ifdT1SBlock ||| ifdT1SResync ∧ Resyncs m t

/-- At most `n` R-blocks, then at most `m` requests to resynchronise, then the end. -/
def Retransmits : (n m : Nat) → State → Prop
  | 0, m, s => Resyncs c m s
  | n + 1, m, s => Resyncs c m s ∨ ∀ i, Invalid c s i →
      ∃ t, exchange c s i = some (.sent t) ∧ blockType (sentPcb t) = .r ∧ Retransmits n m t

def Escalates (s : State) : Prop := ∃ n m, Retransmits c n m s

end Sdfirm.IfdT1
