import Sdfirm.Impl.IfdT1
import Sdfirm.Proof.Framework.Crc

/-!
# What the CRC of a T=1 block is for

The check sequence of ISO/IEC 13239 over the bits in the order in which the
convention sends them: the lowest bit of a byte comes first under the direct
convention, the highest under the inverse one. `Protects` is what should hold
of `ifd_t1_verify_crc`.
-/

namespace Sdfirm.IfdT1

open Framework.Crc Polynomial

/-- The bits of a word in the order in which they are sent. -/
def wire (inverse : Bool) {w : Nat} (x : BitVec w) : List Bool :=
  if inverse then (lsbFirst x).reverse else lsbFirst x

def message (inverse : Bool) (bytes : List Byte) : List Bool := bytes.flatMap (wire inverse)

/-- The generator of CRC-CCITT. -/
noncomputable def ccitt : (ZMod 2)[X] := X ^ 16 + X ^ 12 + X ^ 5 + 1

/-- `crc` is the CRC-CCITT of the bytes: the complement of the remainder that the message leaves
when its first 16 bits are inverted. -/
def IsCrcCcitt (inverse : Bool) (bytes : List Byte) (crc : BitVec 16) : Prop :=
  poly (wire inverse (~~~ crc)) =
    (X ^ (message inverse bytes).length * poly (List.replicate 16 true) + X ^ 16 * poly (message inverse bytes)) %ₘ ccitt

/-- The received bytes before the checksum. -/
def covered (s : State) : List Byte := Framework.Buffer.slice s.buf s.rxBlk (s.rxLen.toNat + ifdT1PrologueSize)

/-- The last two bytes of the received block. -/
def lastTwo (s : State) : BitVec 16 :=
  let index := s.rxBlk + (s.rxLen.toNat + ifdT1PrologueSize)
  s.buf index ++ s.buf (index + 1)

/-- A non-zero error of at most 16 bits in a row. -/
def Burst (e : List Bool) : Prop :=
  ∃ n w k, e = List.replicate n false ++ w ++ List.replicate k false ∧ w.length ≤ 16 ∧ true ∈ w

/-- A block that a burst has altered before its checksum. -/
structure Altered (s t : State) : Prop where
  inverse : t.inverse = s.inverse
  rxLen : t.rxLen = s.rxLen
  lastTwo : lastTwo t = lastTwo s
  burst : ∃ e, Burst e ∧ e.length = (message s.inverse (covered s)).length ∧
    message s.inverse (covered t) = List.zipWith xor (message s.inverse (covered s)) e

/-- The block at `tx_blk`, with room for a CRC, is in the buffer and the card takes a CRC. -/
structure Sendable (c : Config) (s : State) : Prop where
  tccks : s.conf.tccks &&& 0x01 ≠ 0
  room : s.txBlk + (s.ifsc.toNat + ifdT1PrologueSize) + 2 ≤ c.bufSize

/-- `t` has received the block that `s` holds at `tx_blk`. -/
structure Received (s t : State) : Prop where
  inverse : t.inverse = s.inverse
  rxLen : t.rxLen = s.ifsc
  bytes : ∀ k < s.ifsc.toNat + ifdT1PrologueSize + 2, t.buf (t.rxBlk + k) = s.buf (s.txBlk + k)

/-- The CRC of a block under a convention. -/
structure Protects (c : Config) (inverse : Bool) : Prop where
  accepts_iff : ∀ s, s.inverse = inverse → (verifyCrc s ↔ IsCrcCcitt inverse (covered s) (lastTwo s))
  completed : ∀ s, s.inverse = inverse → Sendable c s →
    ∃ s', computeChecksum c s = some s' ∧ ∀ t, Received s' t → verifyCrc t
  rejects : ∀ s t, s.inverse = inverse → verifyCrc s → Altered s t → verifyCrc t = false

end Sdfirm.IfdT1
