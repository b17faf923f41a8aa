import Mathlib

/-!
# The bits of a buffer of bytes

The bits of the bytes one after the other, the lowest bit of each byte first.
`bitAt` is one bit, `field` the value of up to eight of them. A buffer is
known by its bits (`ext_bitAt`), a field by the bits in it (`field_congr`,
`field_eq_of_bits`), and `getLsbD_masked` is what a masked write does to a bit
of its byte.
-/

namespace Framework.Bits

variable {buf buf' : Nat → BitVec 8} {i j k w : Nat} {x y m : BitVec 8}

def bitAt (buf : Nat → BitVec 8) (j : Nat) : Bool := (buf (j / 8)).getLsbD (j % 8)

/-- The `w` bits from `j` on. -/
def field (buf : Nat → BitVec 8) (j w : Nat) : BitVec 8 := BitVec.ofFnLE fun k => decide (k.val < w) && bitAt buf (j + k)

theorem bitAt_byte (buf : Nat → BitVec 8) (i : Nat) (hk : k < 8) : bitAt buf (8 * i + k) = (buf i).getLsbD k := by
  rw [bitAt, show (8 * i + k) / 8 = i by omega, show (8 * i + k) % 8 = k by omega]

theorem ext_bitAt (h : ∀ j, bitAt buf j = bitAt buf' j) : buf = buf' := by
  funext i
  apply BitVec.eq_of_getLsbD_eq
  intro k hk
  rw [← bitAt_byte buf i hk, ← bitAt_byte buf' i hk, h]

theorem getLsbD_field (buf : Nat → BitVec 8) (j w : Nat) (hk : k < 8) :
    (field buf j w).getLsbD k = (decide (k < w) && bitAt buf (j + k)) := by
  rw [field, BitVec.getLsbD_ofFnLE, dif_pos hk]

theorem field_congr (h : ∀ k < w, bitAt buf (j + k) = bitAt buf' (i + k)) : field buf j w = field buf' i w := by
  apply BitVec.eq_of_getLsbD_eq
  intro k hk
  rw [getLsbD_field _ _ _ hk, getLsbD_field _ _ _ hk]
  by_cases hw : k < w
  · rw [h k hw]
  · rw [decide_eq_false hw, Bool.false_and, Bool.false_and]

/-- The bits above a value that fits are clear. -/
theorem getLsbD_of_fits (hx : x.toNat < 2 ^ w) (hk : w ≤ k) : x.getLsbD k = false :=
  Nat.testBit_lt_two_pow (lt_of_lt_of_le hx (Nat.pow_le_pow_right two_pos hk))

theorem field_eq_of_bits (hx : x.toNat < 2 ^ w) (h : ∀ k < w, bitAt buf (j + k) = x.getLsbD k) : field buf j w = x := by
  apply BitVec.eq_of_getLsbD_eq
  intro k hk
  rw [getLsbD_field _ _ _ hk]
  by_cases hw : k < w
  · rw [h k hw, decide_eq_true hw, Bool.true_and]
  · rw [decide_eq_false hw, Bool.false_and, getLsbD_of_fits hx (by omega)]

theorem field_fits (buf : Nat → BitVec 8) (j w : Nat) : (field buf j w).toNat < 2 ^ w := by
  apply Nat.lt_pow_two_of_testBit
  intro k hk
  show (field buf j w).getLsbD k = false
  by_cases h8 : k < 8
  · rw [getLsbD_field _ _ _ h8, decide_eq_false (by omega), Bool.false_and]
  · exact BitVec.getLsbD_of_ge _ _ (by omega)

/-- A masked write, bit by bit. -/
theorem getLsbD_masked (hk : k < 8) :
    ((x &&& ~~~m) ||| (y &&& m)).getLsbD k = if m.getLsbD k then y.getLsbD k else x.getLsbD k := by
  rw [BitVec.getLsbD_or, BitVec.getLsbD_and, BitVec.getLsbD_and, BitVec.getLsbD_not, decide_eq_true hk]
  cases m.getLsbD k <;> simp

end Framework.Bits
