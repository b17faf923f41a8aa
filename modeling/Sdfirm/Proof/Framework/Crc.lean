import Mathlib

/-!
# Cyclic redundancy checks

Bits are read as the coefficients of a polynomial over `ZMod 2`, the first of
them the highest (`poly`). A register that shifts to the right and then takes
`mask` when the bit shifted out differs from the next of the message divides
by `generator mask`: after the message it holds the remainder (`poly_feed`). A
generator with a constant term divides no burst that is not longer than its
degree, wherever the burst stands (`eq_false_of_dvd`).
-/

namespace Framework.Crc

open Polynomial

/-- The polynomial that bits stand for, highest coefficient first. -/
noncomputable def poly : List Bool → (ZMod 2)[X]
  | [] => 0
  | b :: l => (if b then X ^ l.length else 0) + poly l

/-- The bits of a word, lowest first. -/
def lsbFirst {w : Nat} (r : BitVec w) : List Bool := (List.range w).map r.getLsbD

/-- One bit of the message into the register. -/
def shift {w : Nat} (mask r : BitVec w) (b : Bool) : BitVec w :=
  if r.getLsbD 0 ^^ b then r >>> 1 ^^^ mask else r >>> 1

/-- The polynomial a register with `mask` divides by. -/
noncomputable def generator {w : Nat} (mask : BitVec w) : (ZMod 2)[X] := X ^ w + poly (lsbFirst mask)

variable {l m : List Bool} {w : Nat} {mask r r' : BitVec w}

/-! ## Bits as a polynomial -/

theorem poly_append (l m : List Bool) : poly (l ++ m) = poly l * X ^ m.length + poly m := by
  induction l with
  | nil => simp [poly]
  | cons b l ih =>
    rw [List.cons_append, poly, poly, ih, List.length_append, pow_add]
    split <;> ring

theorem poly_xor (h : l.length = m.length) : poly (List.zipWith xor l m) = poly l + poly m := by
  induction l generalizing m with
  | nil => simp [List.length_eq_zero_iff.mp h.symm, poly]
  | cons b l ih =>
    obtain - | ⟨d, m⟩ := m
    · cases h
    · have hl : l.length = m.length := Nat.succ.inj h
      have hz : (List.zipWith xor l m).length = m.length := by simp [hl]
      rw [List.zipWith_cons_cons, poly, poly, poly, ih hl, hl, hz]
      cases b <;> cases d
      · simp
      · simp [add_left_comm]
      · simp [add_assoc]
      · simp only [Bool.xor_self, Bool.false_eq_true, if_false, if_true]
        linear_combination -CharTwo.add_self_eq_zero (X ^ m.length : (ZMod 2)[X])

theorem poly_replicate_false (n : Nat) : poly (List.replicate n false) = 0 := by
  induction n with
  | zero => rfl
  | succ n ih => simp [List.replicate_succ, poly, ih]

theorem degree_poly_lt (l : List Bool) : (poly l).degree < l.length := by
  induction l with
  | nil => simp [poly]
  | cons b l ih =>
    have hl : (poly l).degree < (l.length + 1 : Nat) := ih.trans (by exact_mod_cast Nat.lt_succ_self _)
    have hb : (if b then X ^ l.length else 0 : (ZMod 2)[X]).degree < (l.length + 1 : Nat) := by
      split
      · rw [degree_X_pow]
        exact_mod_cast Nat.lt_succ_self _
      · simp
    exact (degree_add_le _ _).trans_lt (max_lt hb hl)

theorem eq_false_of_poly (h : poly l = 0) : ∀ b ∈ l, b = false := by
  induction l with
  | nil => simp
  | cons b l ih =>
    rw [poly] at h
    cases b with
    | false => simpa using ih (by simpa using h)
    | true =>
      -- the leading coefficient does not come from the bits behind it
      have hc := congrArg (coeff · l.length) h
      simp [coeff_eq_zero_of_degree_lt (degree_poly_lt l)] at hc

theorem poly_inj (hl : l.length = m.length) (h : poly l = poly m) : l = m := by
  have hx : poly (List.zipWith xor l m) = 0 := by rw [poly_xor hl, h, CharTwo.add_self_eq_zero]
  apply List.ext_getElem hl
  intro i hi hi'
  have hz : i < (List.zipWith xor l m).length := by simp; omega
  simpa using eq_false_of_poly hx _ (List.getElem_mem hz)

/-! ## The register -/

@[simp] theorem length_lsbFirst (r : BitVec w) : (lsbFirst r).length = w := by
  rw [lsbFirst, List.length_map, List.length_range]

theorem lsbFirst_inj (h : lsbFirst r = lsbFirst r') : r = r' := by
  apply BitVec.eq_of_getLsbD_eq
  intro i hi
  have hg := congrArg (·[i]?) h
  simpa [lsbFirst, hi] using hg

theorem lsbFirst_xor (r r' : BitVec w) : lsbFirst (r ^^^ r') = List.zipWith xor (lsbFirst r) (lsbFirst r') := by
  apply List.ext_getElem
  · simp
  · simp [lsbFirst]

/-- A shift to the right multiplies by `X`, but for the bit that is lost. -/
theorem poly_ushiftRight (hw : 0 < w) (r : BitVec w) :
    X * poly (lsbFirst r) = (if r.getLsbD 0 then X ^ w else 0) + poly (lsbFirst (r >>> 1)) := by
  obtain ⟨w, rfl⟩ := Nat.exists_eq_succ_of_ne_zero hw.ne'
  set tail := (List.range w).map fun i => r.getLsbD (i + 1) with htail
  have hr : lsbFirst r = r.getLsbD 0 :: tail := by
    simp [lsbFirst, List.range_succ_eq_map, htail, Function.comp_def]
  have hs : lsbFirst (r >>> 1) = tail ++ [false] := by
    rw [lsbFirst, List.range_succ, List.map_append, htail]
    congr 1
    · apply List.map_congr_left
      intro i _
      rw [BitVec.getLsbD_ushiftRight, Nat.add_comm]
    · simp [BitVec.getLsbD_of_ge, Nat.add_comm]
  rw [hr, hs, poly_append, poly, htail, List.length_map, List.length_range]
  simp only [poly, List.length_singleton]
  split <;> simp <;> ring

theorem degree_generator (mask : BitVec w) : (generator mask).degree = w := by
  have h := degree_poly_lt (lsbFirst mask)
  rw [length_lsbFirst] at h
  rw [generator, degree_add_eq_left_of_degree_lt, degree_X_pow]
  rwa [degree_X_pow]

theorem monic_generator (mask : BitVec w) : (generator mask).Monic := by
  have h := degree_poly_lt (lsbFirst mask)
  rw [length_lsbFirst] at h
  exact monic_X_pow_add h

theorem dvd_shift (hw : 0 < w) (r : BitVec w) (b : Bool) :
    generator mask ∣ X * poly (lsbFirst r) + (if b then X ^ w else 0) - poly (lsbFirst (shift mask r b)) := by
  have htwo := CharTwo.add_self_eq_zero (X ^ w : (ZMod 2)[X])
  have hmask := CharTwo.add_self_eq_zero (poly (lsbFirst mask))
  have hx : poly (lsbFirst (r >>> 1 ^^^ mask)) = poly (lsbFirst (r >>> 1)) + poly (lsbFirst mask) := by
    rw [lsbFirst_xor, poly_xor (by simp)]
  rw [poly_ushiftRight hw, shift]
  cases r.getLsbD 0 <;> cases b
  · simp
  · refine ⟨1, ?_⟩
    simp only [Bool.false_xor, if_true, Bool.false_eq_true, if_false, hx, generator]
    linear_combination -hmask
  · refine ⟨1, ?_⟩
    simp only [Bool.xor_false, if_true, Bool.false_eq_true, if_false, hx, generator]
    linear_combination -hmask
  · refine ⟨0, ?_⟩
    simp only [Bool.xor_self, if_true, Bool.false_eq_true, if_false]
    linear_combination htwo

/-- After the message the register holds what it held before times a power of `X`, and the message,
up to multiples of the generator. -/
theorem dvd_feed (hw : 0 < w) (r : BitVec w) (l : List Bool) :
    generator mask ∣ X ^ l.length * poly (lsbFirst r) + X ^ w * poly l - poly (lsbFirst (l.foldl (shift mask) r)) := by
  induction l generalizing r with
  | nil => simp [poly]
  | cons b l ih =>
    rw [List.foldl_cons, poly, List.length_cons]
    refine (((dvd_shift hw r b).mul_left (X ^ l.length)).add (ih (shift mask r b))).trans (dvd_of_eq ?_)
    cases b <;> simp <;> ring

theorem poly_feed (hw : 0 < w) (r : BitVec w) (l : List Bool) :
    poly (lsbFirst (l.foldl (shift mask) r)) =
      (X ^ l.length * poly (lsbFirst r) + X ^ w * poly l) %ₘ generator mask := by
  rw [modByMonic_eq_of_dvd_sub (monic_generator mask) (dvd_feed hw r l), eq_comm,
    modByMonic_eq_self_iff (monic_generator mask), degree_generator]
  simpa using degree_poly_lt (lsbFirst (l.foldl (shift mask) r))

/-! ## Bursts -/

theorem eq_false_of_dvd {g : (ZMod 2)[X]} {n : Nat} (h0 : g.coeff 0 ≠ 0) (hl : (l.length : WithBot Nat) ≤ g.degree)
    (h : g ∣ X ^ n * poly l) : ∀ b ∈ l, b = false := by
  have hX : IsCoprime (X : (ZMod 2)[X]) g := by
    rw [(irreducible_X (R := ZMod 2)).coprime_iff_not_dvd, X_dvd_iff]
    exact h0
  have hdvd : g ∣ poly l := hX.symm.pow_right.dvd_of_dvd_mul_left h
  exact eq_false_of_poly (eq_zero_of_dvd_of_degree_lt hdvd ((degree_poly_lt l).trans_le hl))

end Framework.Crc
