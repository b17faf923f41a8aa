import Sdfirm.Impl.CcidSpe
import Sdfirm.Proof.Framework.Bits
import Sdfirm.Spec.Ccid

/-!
# Reading and writing bits of the PIN block

`writeBits_spec`: where `ccid_spe_write_bits` is defined at all, it writes the
bits that belong to the value and no other. `readBits_spec`: what
`ccid_spe_read_bits` reads starts as many bits before the end of the first
byte as the field starts after its begin, and is twice as long at most, so it
is the field where that starts with a byte or in the middle of one.
-/

namespace Sdfirm.CcidSpe

open Framework.Bits IfdAtr

variable {slot : Slot} {p : PinParam} {buf buf' : Buf} {ibyte ibit bits i j k : Nat} {cont byte mask x : Byte}

/-! ## Masks -/

theorem getLsbD_bits2maskL (hk : k < 8) : (bits2maskL bits).getLsbD k = decide (k < bits) := by
  rw [bits2maskL, BitVec.getLsbD_ofNat, Nat.testBit_two_pow_sub_one, decide_eq_true hk, Bool.true_and]

theorem bits2maskL_min (bits : Nat) : bits2maskL bits = bits2maskL (min bits 8) := by
  apply BitVec.eq_of_getLsbD_eq
  intro k hk
  rw [getLsbD_bits2maskL hk, getLsbD_bits2maskL hk]
  congr 1
  exact propext (by omega)

theorem hweight8_bits2maskL (bits : Nat) : (hweight8 (bits2maskL bits)).toNat = min bits 8 := by
  have h : ∀ b ≤ 8, (hweight8 (bits2maskL b)).toNat = b := by decide
  rw [bits2maskL_min]
  exact h _ (Nat.min_le_right bits 8)

theorem getLsbD_shiftLeft_of_lt (hk : k < 8) :
    (x <<< ibit).getLsbD k = if ibit ≤ k then x.getLsbD (k - ibit) else false := by
  rw [BitVec.getLsbD_shiftLeft, decide_eq_true hk, Bool.true_and]
  by_cases h : k < ibit
  · rw [decide_eq_true h, Bool.not_true, Bool.false_and, if_neg (by omega)]
  · rw [decide_eq_false h, Bool.not_false, Bool.true_and, if_pos (by omega)]

theorem getLsbD_mask_shiftLeft (hk : k < 8) :
    (bits2maskL bits <<< ibit).getLsbD k = decide (ibit ≤ k ∧ k < ibit + bits) := by
  rw [getLsbD_shiftLeft_of_lt hk]
  split_ifs with h
  · rw [getLsbD_bits2maskL (by omega)]
    congr 1
    exact propext (by omega)
  · rw [decide_eq_false (by omega)]

theorem getLsbD_mask_shiftRight (hbit : ibit ≤ 8) :
    (bits2maskL bits >>> (8 - ibit)).getLsbD k = decide (k < ibit ∧ k + 8 < ibit + bits) := by
  rw [BitVec.getLsbD_ushiftRight]
  by_cases h : 8 - ibit + k < 8
  · rw [getLsbD_bits2maskL h]
    congr 1
    exact propext (by omega)
  · rw [BitVec.getLsbD_of_ge _ _ (by omega), decide_eq_false (by omega)]

/-! ## Writing -/

theorem getLsbD_ifdWriteByteMask (hk : k < 8) :
    (ifdWriteByteMask slot buf ibyte byte mask i).getLsbD k =
      if i = ibyte ∧ slot.active ∧ ibyte < slot.bufSize ∧ mask.getLsbD k then byte.getLsbD k else (buf i).getLsbD k := by
  unfold ifdWriteByteMask
  by_cases hw : slot.active ∧ ibyte < slot.bufSize
  · rw [if_pos hw]
    by_cases hi : i = ibyte
    · subst hi
      rw [Function.update_self, getLsbD_masked hk]
      simp only [hw, true_and]
    · rw [Function.update_of_ne hi, if_neg (fun h => hi h.1)]
  · rw [if_neg hw, if_neg (fun h => hw ⟨h.2.1, h.2.2.1⟩)]

/-- The bit `j` is one of the `bits` bits from the bit `ibit` of the byte `ibyte` on, and is in the buffer. -/
def Written (slot : Slot) (ibyte ibit bits j : Nat) : Prop :=
  8 * ibyte + ibit ≤ j ∧ j < 8 * ibyte + ibit + min bits 8 ∧ slot.active ∧ j / 8 < slot.bufSize

instance : Decidable (Written slot ibyte ibit bits j) := inferInstanceAs (Decidable (_ ∧ _ ∧ _ ∧ _))

theorem writeBits_eq_none_iff : ccidSpeWriteBits slot buf ibyte ibit cont bits = none ↔ 8 < ibit := by
  rw [ccidSpeWriteBits, hweight8_bits2maskL]
  split_ifs <;> simp <;> omega

/-- A write that is defined changes the bits of the field, and only those. -/
theorem writeBits_spec (h : ccidSpeWriteBits slot buf ibyte ibit cont bits = some buf') (j : Nat) :
    bitAt buf' j =
      if Written slot ibyte ibit bits j then cont.getLsbD (j - (8 * ibyte + ibit)) else bitAt buf j := by
  obtain ⟨i, k, hk, rfl⟩ : ∃ i k, k < 8 ∧ j = 8 * i + k := ⟨j / 8, j % 8, by omega, by omega⟩
  have hdiv : (8 * i + k) / 8 = i := by omega
  rw [ccidSpeWriteBits, hweight8_bits2maskL] at h
  simp only [Written, hdiv, bitAt_byte _ _ hk]
  by_cases hact : slot.active = true
  · simp only [hact, true_and]
    split_ifs at h with h1 h2
    · obtain rfl := Option.some.inj h
      rw [getLsbD_ifdWriteByteMask hk, getLsbD_ifdWriteByteMask hk, getLsbD_mask_shiftRight h2,
        getLsbD_mask_shiftLeft hk, getLsbD_shiftLeft_of_lt hk, BitVec.getLsbD_ushiftRight]
      simp only [decide_eq_true_eq, hact, true_and]
      split_ifs <;> first | rfl | (exfalso; omega) | (congr 1; omega)
    · obtain rfl := Option.some.inj h
      rw [getLsbD_ifdWriteByteMask hk, getLsbD_mask_shiftLeft hk, getLsbD_shiftLeft_of_lt hk]
      simp only [decide_eq_true_eq, hact, true_and]
      split_ifs <;> first | rfl | (exfalso; omega) | (congr 1; omega)
  · -- nothing is written to a slot that is not active
    have hkeep : ∀ (buf : Buf) index byte mask, ifdWriteByteMask slot buf index byte mask = buf :=
      fun _ _ _ _ => if_neg fun hw => hact hw.1
    simp only [hkeep] at h
    rw [if_neg fun hw => hact hw.2.2.1]
    split_ifs at h <;> rw [Option.some.inj h]

/-! ## Reading -/

theorem getLsbD_bits2maskM (hbit : bits ≤ 8) (hk : k < 8) : (bits2maskM bits).getLsbD k = decide (8 - bits ≤ k) := by
  rw [bits2maskM, BitVec.getLsbD_ofNat, decide_eq_true hk, Bool.true_and, Nat.testBit_shiftLeft,
    Nat.testBit_two_pow_sub_one, ← Bool.decide_and]
  congr 1
  exact propext (by omega)

/-- Where `ccid_spe_read_bits` starts to read in the first byte. -/
def readStart (ibit : Nat) : Nat := if ibit = 0 then 0 else 8 - ibit

/-- How many bits it reads. -/
def readWidth (ibit bits : Nat) : Nat := if ibit = 0 then bits else min bits (2 * ibit)

/-- The bytes it reads are in the buffer. -/
def Readable (slot : Slot) (ibyte ibit : Nat) : Prop :=
  ibit ≤ 8 ∧ ibyte < slot.bufSize ∧ (ibit ≠ 0 → ibyte + 1 < slot.bufSize)

instance : Decidable (Readable slot ibyte ibit) := inferInstanceAs (Decidable (_ ∧ _ ∧ _))

theorem readBits_spec (slot : Slot) (buf : Buf) (ibyte ibit bits : Nat) :
    ccidSpeReadBits slot buf ibyte ibit bits =
      if Readable slot ibyte ibit then some (field buf (8 * ibyte + readStart ibit) (readWidth ibit bits)) else none := by
  unfold ccidSpeReadBits scdReadByte Readable readStart readWidth
  by_cases h0 : ibit = 0
  · subst h0
    by_cases hb : ibyte < slot.bufSize
    · simp only [hb, if_true, ne_eq, not_true, false_implies, and_true, Nat.zero_le]
      show some (buf ibyte &&& bits2maskL bits) = _
      congr 1
      apply BitVec.eq_of_getLsbD_eq
      intro k hk
      rw [getLsbD_field _ _ _ hk, Nat.add_zero, bitAt_byte _ _ hk, BitVec.getLsbD_and, getLsbD_bits2maskL hk,
        Bool.and_comm]
    · simp [hb]
  · by_cases hbit : ibit ≤ 8
    · by_cases hb : ibyte + 1 < slot.bufSize
      · have hb' : ibyte < slot.bufSize := by omega
        simp only [h0, if_false, hbit, if_true, hb, hb', ne_eq, not_false_eq_true, implies_true, and_self]
        show some ((((buf ibyte &&& bits2maskM ibit) >>> (8 - ibit)) ||| ((buf (ibyte + 1) &&& bits2maskL ibit) <<< ibit))
          &&& bits2maskL bits) = _
        congr 1
        apply BitVec.eq_of_getLsbD_eq
        intro k hk
        rw [getLsbD_field _ _ _ hk, BitVec.getLsbD_and, BitVec.getLsbD_or, BitVec.getLsbD_ushiftRight,
          getLsbD_shiftLeft_of_lt hk, getLsbD_bits2maskL hk, BitVec.getLsbD_and]
        by_cases hki : k < ibit
        · -- the upper bits of the first byte
          rw [if_neg (by omega), Bool.or_false, getLsbD_bits2maskM hbit (by omega), decide_eq_true (by omega),
            Bool.and_true, Bool.and_comm, show 8 * ibyte + (8 - ibit) + k = 8 * ibyte + (8 - ibit + k) by omega,
            bitAt_byte _ _ (by omega)]
          congr 2
          exact propext (by omega)
        · -- the lower bits of the next one
          rw [if_pos (by omega), BitVec.getLsbD_of_ge (buf ibyte) _ (by omega), Bool.false_and, Bool.false_or,
            BitVec.getLsbD_and, getLsbD_bits2maskL (by omega),
            show 8 * ibyte + (8 - ibit) + k = 8 * (ibyte + 1) + (k - ibit) by omega, bitAt_byte _ _ (by omega),
            Bool.and_assoc, Bool.and_comm, ← Bool.decide_and]
          congr 2
          exact propext (by omega)
      · by_cases hb' : ibyte < slot.bufSize <;> simp [h0, hbit, hb, hb']
    · simp [h0, hbit]

end Sdfirm.CcidSpe

/-!
## Reading and writing digits of the PIN block

`writeDigit_spec` and `readDigit_spec` are the access to bits at the place of
a digit, with the bits in the order of the card (`inv`). `accesses_iff`: a
digit reads back, and no other one changes, exactly where it is addressable
and the two digits do not have one position.
-/

namespace Sdfirm.CcidSpe

open Framework.Bits

variable {slot : Slot} {p : PinParam} {buf buf' : Buf} {pinOffset : Byte} {nr w k j : Nat} {x digit : Byte}

/-! ### The order of the bits -/

theorem getLsbD_bitrev8 (x : Byte) {k : Nat} (hk : k < 8) : (bitrev8 x).getLsbD k = x.getLsbD (7 - k) := by
  have h : ∀ x : Byte, ∀ k < 8, (bitrev8 x).getLsbD k = x.getLsbD (7 - k) := by decide
  exact h x k hk

theorem ccidSpeInvb_eq (hw : w ≤ 8) : ccidSpeInvb slot x w = some (inv slot w x) := by
  unfold ccidSpeInvb inv
  split_ifs <;> rfl

theorem getLsbD_inv (x : Byte) (hw : w ≤ 8) (k : Nat) :
    (inv slot w x).getLsbD k = if slot.direct then x.getLsbD k else if k < w then x.getLsbD (w - 1 - k) else false := by
  unfold inv
  by_cases hd : slot.direct = true
  · rw [if_pos hd, if_pos hd]
  · rw [if_neg hd, if_neg hd, BitVec.getLsbD_ushiftRight]
    by_cases hk : k < w
    · rw [if_pos hk, getLsbD_bitrev8 x (by omega)]
      congr 1
      omega
    · rw [if_neg hk]
      exact BitVec.getLsbD_of_ge _ _ (by omega)

theorem inv_zero (hw : w ≤ 8) : inv slot w 0 = 0 := by
  apply BitVec.eq_of_getLsbD_eq
  intro k _
  rw [getLsbD_inv _ hw]
  simp

theorem inv_fits (hx : x.toNat < 2 ^ w) (hw : w ≤ 8) : (inv slot w x).toNat < 2 ^ w := by
  apply Nat.lt_pow_two_of_testBit
  intro k hk
  show (inv slot w x).getLsbD k = false
  rw [getLsbD_inv _ hw, if_neg (by omega : ¬ k < w)]
  split_ifs
  · exact getLsbD_of_fits hx hk
  · rfl

theorem inv_inv (hx : x.toNat < 2 ^ w) (hw : w ≤ 8) : inv slot w (inv slot w x) = x := by
  apply BitVec.eq_of_getLsbD_eq
  intro k hk
  rw [getLsbD_inv _ hw, getLsbD_inv _ hw, getLsbD_inv _ hw]
  by_cases hd : slot.direct = true
  · rw [if_pos hd, if_pos hd]
  · rw [if_neg hd, if_neg hd]
    by_cases hkw : k < w
    · rw [if_pos hkw, if_pos (by omega)]
      congr 1
      omega
    · rw [if_neg hkw, getLsbD_of_fits hx (by omega)]

/-! ### The place of a digit -/

theorem pinBits_cases (p : PinParam) : ccidSpePinBits p = 4 ∨ ccidSpePinBits p = 8 := by
  unfold ccidSpePinBits
  split_ifs
  · exact .inl rfl
  · exact .inr rfl

theorem pinBits_le (p : PinParam) : ccidSpePinBits p ≤ 8 := by
  rcases pinBits_cases p with h | h <;> omega

theorem pinStart_eq (p : PinParam) : 8 * ccidSpeFirstByte p false + ccidSpeFirstBit p false = pinStart p := by
  unfold ccidSpeFirstByte ccidSpeFirstBit pinStart
  simp only [Bool.false_eq_true, if_false]
  split_ifs <;> omega

theorem firstBit_lt (p : PinParam) : ccidSpeFirstBit p false < 8 := by
  unfold ccidSpeFirstBit
  simp only [Bool.false_eq_true, if_false]
  split_ifs <;> omega

/-- Where the code has the digit. -/
theorem place_eq (p : PinParam) (pinOffset : Byte) (nr : Nat) :
    8 * digitByte p pinOffset nr + digitBit p nr = dataStart pinOffset + pinStart p + ccidSpePinBits p * nr % 256 := by
  have h := pinStart_eq p
  unfold digitByte digitBit ccidSpeOffsetFixed dataStart
  omega

theorem place_of_lt (pinOffset : Byte) (h : ccidSpePinBits p * nr < 256) :
    8 * digitByte p pinOffset nr + digitBit p nr = digitStart p pinOffset nr := by
  rw [place_eq, Nat.mod_eq_of_lt h, digitStart, Nat.mul_comm]

theorem writeDigit_spec (h : ccidSpeWriteDigit slot p pinOffset buf nr digit = some buf') (j : Nat) :
    bitAt buf' j =
      if Written slot (digitByte p pinOffset nr) (digitBit p nr) (ccidSpePinBits p) j then
        (inv slot (ccidSpePinBits p) digit).getLsbD (j - (8 * digitByte p pinOffset nr + digitBit p nr))
      else bitAt buf j := by
  rw [ccidSpeWriteDigit, ccidSpeInvb_eq (pinBits_le p)] at h
  exact writeBits_spec h j

theorem exists_writeDigit (slot : Slot) (pinOffset : Byte) (h : digitBit p nr ≤ 8) (buf : Buf) (digit : Byte) :
    ∃ buf', ccidSpeWriteDigit slot p pinOffset buf nr digit = some buf' := by
  rw [ccidSpeWriteDigit, ccidSpeInvb_eq (pinBits_le p)]
  apply Option.ne_none_iff_exists'.mp
  intro hn
  have := writeBits_eq_none_iff.mp hn
  omega

theorem readDigit_spec (slot : Slot) (p : PinParam) (pinOffset : Byte) (buf : Buf) (nr : Nat) :
    ccidSpeReadDigit slot p pinOffset buf nr =
      if Readable slot (digitByte p pinOffset nr) (digitBit p nr) then
        some (inv slot (ccidSpePinBits p)
          (field buf (8 * digitByte p pinOffset nr + readStart (digitBit p nr)) (readWidth (digitBit p nr) (ccidSpePinBits p))))
      else none := by
  rw [ccidSpeReadDigit, readBits_spec]
  split_ifs
  · exact ccidSpeInvb_eq (pinBits_le p)
  · rfl

/-! ### When a digit reads back -/

/-- What is read from a digit at a byte or in the middle of one. -/
theorem readDigit_aligned (h : digitBit p nr = 0 ∧ digitByte p pinOffset nr < slot.bufSize ∨
      digitBit p nr = 4 ∧ digitByte p pinOffset nr + 1 < slot.bufSize) (buf : Buf) :
    ccidSpeReadDigit slot p pinOffset buf nr =
      some (inv slot (ccidSpePinBits p)
        (field buf (8 * digitByte p pinOffset nr + digitBit p nr) (ccidSpePinBits p))) := by
  have hw := pinBits_le p
  rw [readDigit_spec]
  rcases h with ⟨h0, hb⟩ | ⟨h4, hb⟩
  · rw [if_pos ⟨by omega, hb, fun h => absurd h0 h⟩, h0]
    rfl
  · rw [if_pos ⟨by omega, by omega, fun _ => hb⟩, h4, show readStart 4 = 4 from rfl,
      show readWidth 4 (ccidSpePinBits p) = ccidSpePinBits p from Nat.min_eq_left (by omega)]

/-- A write at another place does not change what is read. -/
theorem readDigit_of_not_aliased {m : Nat} (ha : digitBit p nr = 0 ∨ digitBit p nr = 4)
    (hne : ccidSpePinBits p * m % 256 ≠ ccidSpePinBits p * nr % 256)
    (h : ccidSpeWriteDigit slot p pinOffset buf nr digit = some buf') :
    ccidSpeReadDigit slot p pinOffset buf' m = ccidSpeReadDigit slot p pinOffset buf m := by
  rw [readDigit_spec, readDigit_spec]
  by_cases hr : Readable slot (digitByte p pinOffset m) (digitBit p m)
  · rw [if_pos hr, if_pos hr]
    congr 2
    apply field_congr
    intro k hk
    rw [writeDigit_spec h, if_neg]
    intro hwr
    have hlo := hwr.1
    have hhi := hwr.2.1
    have hbit := hr.1
    have hf := firstBit_lt p
    revert hk ha hne hlo hhi hbit
    unfold readStart readWidth digitByte digitBit
    rcases pinBits_cases p with hw | hw <;> rw [hw] <;> intros <;> split_ifs at * <;> omega
  · rw [if_neg hr, if_neg hr]

/-- The one bit of the digit 1 in the order of the card. -/
theorem getLsbD_inv_one (hw : 0 < w) (hw8 : w ≤ 8) (k : Nat) :
    (inv slot w 1).getLsbD k = decide (k = if slot.direct then 0 else w - 1) := by
  have hone : ∀ k, (1 : Byte).getLsbD k = decide (k = 0) := by
    intro k
    by_cases hk : k < 8
    · revert hk k
      decide
    · rw [BitVec.getLsbD_of_ge _ _ (by omega), decide_eq_false (by omega)]
  rw [getLsbD_inv _ hw8, hone, hone]
  split_ifs
  · rfl
  · congr 1
    exact propext (by omega)
  · rw [decide_eq_false (by omega)]

/-- A zeroed buffer in which the digit 1 reads back has its bit where the digit belongs. -/
theorem addressed_of_read (h : ccidSpeWriteDigit slot p pinOffset (fun _ => 0) nr 1 = some buf')
    (hr : ccidSpeReadDigit slot p pinOffset buf' nr = some 1) :
    slot.active ∧
      (digitBit p nr = 0 ∧ digitByte p pinOffset nr < slot.bufSize ∨
        digitBit p nr = 4 ∧ digitByte p pinOffset nr + 1 < slot.bufSize) ∧
      ∃ k < ccidSpePinBits p, bitAt buf' (8 * digitByte p pinOffset nr + digitBit p nr + k) = true := by
  have hw := pinBits_le p
  have hpos : 0 < ccidSpePinBits p := by rcases pinBits_cases p with h | h <;> omega
  rw [readDigit_spec] at hr
  split_ifs at hr with hread
  have hval := Option.some.inj hr
  have hfit := field_fits buf' (8 * digitByte p pinOffset nr + readStart (digitBit p nr))
    (readWidth (digitBit p nr) (ccidSpePinBits p))
  have hle : readWidth (digitBit p nr) (ccidSpePinBits p) ≤ ccidSpePinBits p := by
    unfold readWidth
    split_ifs <;> omega
  -- the value read is the one written, bit for bit
  have hfield := congrArg (inv slot (ccidSpePinBits p)) hval
  rw [inv_inv (lt_of_lt_of_le hfit (Nat.pow_le_pow_right two_pos hle)) hw] at hfield
  obtain ⟨k, hk⟩ : ∃ k, k = if slot.direct then 0 else ccidSpePinBits p - 1 := ⟨_, rfl⟩
  have hkw : k < ccidSpePinBits p := by rw [hk]; split_ifs <;> omega
  have hset := congrArg (fun x : Byte => x.getLsbD k) hfield
  simp only [getLsbD_inv_one hpos hw, ← hk, decide_true, getLsbD_field _ _ _ (by omega : k < 8), Bool.and_eq_true] at hset
  have hbit := hset.2
  rw [writeDigit_spec h] at hbit
  split_ifs at hbit with hwr
  · rw [getLsbD_inv_one hpos hw, ← hk, decide_eq_true_eq] at hbit
    have hlo := hwr.1
    have hstart : readStart (digitBit p nr) = digitBit p nr := by omega
    refine ⟨hwr.2.2.1, ?_, k, hkw, ?_⟩
    · obtain ⟨h8, hb, hb'⟩ := hread
      unfold readStart at hstart
      split_ifs at hstart with h0
      · exact .inl ⟨h0, hb⟩
      · exact .inr ⟨by omega, hb' h0⟩
    · rw [← hstart]
      exact hset.2
  · exact absurd hbit (by simp [bitAt])

/-- A digit reads back after it was written, with no bit changed outside of it and no other digit,
exactly when it is addressable and the other digit does not have its position. -/
theorem accesses_iff (slot : Slot) (p : PinParam) (pinOffset nr m : Byte) :
    (∀ buf digit, digit.toNat < 2 ^ ccidSpePinBits p → Accesses slot p pinOffset buf nr m digit) ↔
      Addressable slot p pinOffset nr ∧ (m ≠ nr → ¬ Aliased p nr m) := by
  have hw := pinBits_le p
  constructor
  · intro hall
    have hone : (1 : Byte).toNat < 2 ^ ccidSpePinBits p := by
      rcases pinBits_cases p with h | h <;> rw [h] <;> decide
    obtain ⟨buf', hwrite, hread, hframe, hother⟩ := hall (fun _ => 0) 1 hone
    obtain ⟨hact, halign, k, hk, hset⟩ := addressed_of_read hwrite hread
    refine ⟨⟨hact, halign, ?_⟩, ?_⟩
    · by_contra hge
      -- the bit that was set lies before the digit
      have hplace := place_eq p pinOffset nr.toNat
      have hmod : ccidSpePinBits p * nr.toNat % 256 + 256 ≤ ccidSpePinBits p * nr.toNat := by omega
      have hout := hframe (8 * digitByte p pinOffset nr.toNat + digitBit p nr.toNat + k) (by
        unfold digitStart
        rw [Nat.mul_comm nr.toNat]
        omega)
      rw [hset] at hout
      exact absurd hout (by simp [bitAt])
    · intro hne halias
      have hsame : ∀ buf, ccidSpeReadDigit slot p pinOffset buf m.toNat = ccidSpeReadDigit slot p pinOffset buf nr.toNat := by
        intro buf
        rw [Aliased] at halias
        rw [ccidSpeReadDigit, ccidSpeReadDigit, digitByte, digitByte, digitBit, digitBit, halias]
      have hm := hother hne
      rw [hsame, hsame, hread, readDigit_aligned halign] at hm
      have hzero : field (fun _ => 0) (8 * digitByte p pinOffset nr.toNat + digitBit p nr.toNat) (ccidSpePinBits p) = 0 :=
        field_eq_of_bits (Nat.two_pow_pos _) fun k _ => by simp [bitAt]
      rw [hzero, inv_zero hw] at hm
      exact absurd hm (by decide)
  · rintro ⟨⟨hact, halign, hlt⟩, halias⟩ buf digit hdigit
    have hbit : digitBit p nr.toNat = 0 ∨ digitBit p nr.toNat = 4 := halign.imp And.left And.left
    have hplace := place_of_lt pinOffset hlt
    have hnext : digitStart p pinOffset (nr.toNat + 1) = digitStart p pinOffset nr.toNat + ccidSpePinBits p := by
      rw [digitStart, digitStart, Nat.add_mul, Nat.one_mul, Nat.add_assoc, Nat.add_assoc, Nat.add_assoc]
    obtain ⟨buf', hwrite⟩ := exists_writeDigit slot pinOffset (by omega : digitBit p nr.toNat ≤ 8) buf digit
    refine ⟨buf', hwrite, ?_, fun j hj => ?_, fun hne => readDigit_of_not_aliased hbit (halias hne) hwrite⟩
    · have hfield : field buf' (8 * digitByte p pinOffset nr.toNat + digitBit p nr.toNat) (ccidSpePinBits p) =
          inv slot (ccidSpePinBits p) digit := by
        apply field_eq_of_bits (inv_fits hdigit hw)
        intro k hk
        rw [writeDigit_spec hwrite, if_pos, Nat.add_sub_cancel_left]
        refine ⟨by omega, by omega, hact, ?_⟩
        omega
      rw [readDigit_aligned halign, hfield, inv_inv hdigit hw]
    · rw [writeDigit_spec hwrite, if_neg]
      intro hwr
      have hhi := hwr.2.1
      exact hj ⟨hplace ▸ hwr.1, by omega⟩

/-- A slot with short APDUs and a card of direct convention, with ten bytes received. -/
def slot256 : Slot := ⟨261, true, true, 10, by decide⟩

/-- A verification with four digits at most in a block of two bytes, in the given format. -/
def bcdAt (bmFormatString : Byte) : PinParam := ⟨.verify, bmFormatString, 0x02, 0, 0x0404, 0x02, 0, 0, 0⟩

/-- The second digit of a BCD block that starts with a byte, beside the third one. -/
theorem accesses_second_digit : Accesses slot256 (bcdAt 0x81) 0 (fun _ => 0xFF) 1 2 9 :=
  (accesses_iff slot256 (bcdAt 0x81) 0 1 2).mpr (by decide) _ 9 (by decide)

/-- The first digit of a BCD block that starts at bit 1: 9 is written to the bits 1 to 4, and 0 is
read from bit 7 and the next byte. -/
theorem not_accesses_bit_one : ¬ Accesses slot256 (bcdAt 0x09) 0 (fun _ => 0) 0 1 9 := by
  intro ⟨buf', hwrite, hread, _⟩
  have hzero : (ccidSpeWriteDigit slot256 (bcdAt 0x09) 0 (fun _ => 0) 0 9).bind
      (fun buf => ccidSpeReadDigit slot256 (bcdAt 0x09) 0 buf 0) = some 0 := by decide
  have h : ccidSpeReadDigit slot256 (bcdAt 0x09) 0 buf' 0 = some 0 := by
    rw [← hzero]
    exact (congrArg (Option.bind · fun buf => ccidSpeReadDigit slot256 (bcdAt 0x09) 0 buf 0) hwrite).symm
  exact absurd (hread.symm.trans h) (by decide)

end Sdfirm.CcidSpe
