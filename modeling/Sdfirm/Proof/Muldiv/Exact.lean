import Sdfirm.Impl.Tick

/-!
# Multiplication and division are exact

`divLoop_eq` says what the loop computes from any state it can be in: the
quotient bits found so far are the low bits of `x`, the bits of the dividend
still to come are above them, and the remainder so far has no more bits than
rounds were made, so that its shift loses none. `mulHalves_eq` adds up the
partial products. The remainder is found by another loop, which subtracts the
multiples of `y` by falling powers of two; it agrees with the division since
both are the quotient and the remainder of the numbers.
-/

namespace Sdfirm.Muldiv

/-- After `k` rounds `q` is the quotient of the bits seen, `reste` their remainder, and `lo` are the
bits of the dividend that are left. -/
theorem divLoop_eq {w y k count lo q reste : Nat} (hw : k + count = w) (hlo : lo < 2 ^ count) (hq : q < 2 ^ k)
    (hreste : reste < 2 ^ k) (hy : reste < y) :
    divLoop w y count (lo * 2 ^ k + q) reste = q * 2 ^ count + (reste * 2 ^ count + lo) / y := by
  induction count generalizing k lo q reste with
  | zero =>
    obtain rfl : lo = 0 := by simpa using hlo
    rw [divLoop, pow_zero, mul_one, mul_one, Nat.add_zero, Nat.div_eq_of_lt hy, zero_mul, zero_add, add_zero]
  | succ count ih =>
    have hk : 0 < 2 ^ k := Nat.two_pow_pos k
    have hn : 0 < 2 ^ count := Nat.two_pow_pos count
    have hbit : lo / 2 ^ count < 2 := Nat.div_lt_of_lt_mul (by rw [← pow_succ]; exact hlo)
    have hdec : lo / 2 ^ count * 2 ^ count + lo % 2 ^ count = lo := Nat.div_add_mod' lo (2 ^ count)
    -- the highest bit of `x` is the next bit of the dividend
    have hmsb : msbIsSet w (lo * 2 ^ k + q) = lo / 2 ^ count := by
      rw [msbIsSet, show w - 1 = k + count by omega, pow_add, ← Nat.div_div_eq_div_mul, Nat.add_comm,
        Nat.add_mul_div_right _ _ hk, Nat.div_eq_of_lt hq, zero_add]
      exact Nat.mod_eq_of_lt hbit
    have hshift : 2 * (lo * 2 ^ k + q) % 2 ^ w = lo % 2 ^ count * 2 ^ (k + 1) + 2 * q := by
      have hsplit : 2 * (lo * 2 ^ k + q) = lo % 2 ^ count * 2 ^ (k + 1) + 2 * q + 2 ^ w * (lo / 2 ^ count) := by
        rw [← hw, pow_add 2 k (count + 1), pow_succ 2 k, pow_succ 2 count]
        calc 2 * (lo * 2 ^ k + q)
            = 2 * ((lo / 2 ^ count * 2 ^ count + lo % 2 ^ count) * 2 ^ k + q) := by rw [hdec]
          _ = _ := by ring
      have hlt : lo % 2 ^ count * 2 ^ (k + 1) + 2 * q < 2 ^ w := by
        have hm := Nat.mod_lt lo hn
        have hmul : (lo % 2 ^ count + 1) * 2 ^ (k + 1) ≤ 2 ^ count * 2 ^ (k + 1) := Nat.mul_le_mul_right _ hm
        rw [← pow_add, show count + (k + 1) = w by omega, Nat.add_mul, Nat.one_mul, pow_succ 2 k] at hmul
        rw [pow_succ 2 k]
        omega
      rw [hsplit, Nat.add_mul_mod_self_left, Nat.mod_eq_of_lt hlt]
    have hreste2 : 2 * reste % 2 ^ w = 2 * reste := by
      have : 2 ^ (k + 1) ≤ 2 ^ w := Nat.pow_le_pow_right two_pos (by omega)
      rw [pow_succ] at this
      exact Nat.mod_eq_of_lt (by omega)
    have hsum : reste * 2 ^ (count + 1) + lo = (2 * reste + lo / 2 ^ count) * 2 ^ count + lo % 2 ^ count := by
      rw [pow_succ]
      calc reste * (2 ^ count * 2) + lo
          = reste * (2 ^ count * 2) + (lo / 2 ^ count * 2 ^ count + lo % 2 ^ count) := by rw [hdec]
        _ = _ := by ring
    have hk1 : 2 ^ (k + 1) = 2 * 2 ^ k := by rw [pow_succ, Nat.mul_comm]
    rw [divLoop]
    simp only [hmsb, hshift, hreste2]
    by_cases hle : y ≤ 2 * reste + lo / 2 ^ count
    · rw [if_pos hle, Nat.add_assoc, ih (by omega) (Nat.mod_lt lo hn) (by omega) (by omega) (by omega), hsum]
      obtain ⟨d, hd⟩ := Nat.exists_eq_add_of_le hle
      rw [hd, Nat.add_sub_cancel_left, Nat.add_mul y, Nat.add_assoc (y * _), Nat.add_comm (y * _),
        Nat.add_mul_div_left _ _ (by omega : 0 < y), pow_succ]
      ring
    · rw [if_neg hle, ih (by omega) (Nat.mod_lt lo hn) (by omega) (by omega) (by omega), hsum, pow_succ]
      ring

/-- The loop over all the bits of a dividend. -/
theorem divLoop_start {w x y : Nat} (hx : x < 2 ^ w) (hy : 0 < y) : divLoop w y w x 0 = x / y := by
  have h := divLoop_eq (k := 0) (q := 0) (Nat.zero_add w) hx (by simp) (by simp) hy
  simpa using h

theorem div16u_eq {x y : Nat} (hx : x < 2 ^ 16) (hy : 0 < y) : div16u x y = x / y := divLoop_start hx hy

theorem div32u_eq {x y : Nat} (hx : x < 2 ^ 32) (hy : 0 < y) : div32u x y = x / y := divLoop_start hx hy

theorem div64u_eq {x y : Nat} (hx : x < 2 ^ 64) (hy : 0 < y) : div64u x y = x / y := divLoop_start hx hy

/-- The partial products add up when none of them is cut. -/
theorem mulHalves_eq {mul : Nat → Nat → Nat} {h x y : Nat} (hmul : ∀ a < 2 ^ h, ∀ b < 2 ^ h, mul a b = a * b)
    (hx : x < 2 ^ (2 * h)) (hy : y < 2 ^ (2 * h)) : mulHalves mul h x y = x * y := by
  have hpos : 0 < 2 ^ h := Nat.two_pow_pos h
  have hhi : ∀ z, z < 2 ^ (2 * h) → z / 2 ^ h < 2 ^ h := fun z hz =>
    Nat.div_lt_of_lt_mul (by rwa [← pow_add, ← Nat.two_mul])
  have hlo : ∀ z, z % 2 ^ h < 2 ^ h := fun z => Nat.mod_lt z hpos
  rw [mulHalves, hmul _ (hlo x) _ (hlo y), hmul _ (hlo x) _ (hhi y hy), hmul _ (hhi x hx) _ (hhi y hy),
    hmul _ (hhi x hx) _ (hlo y)]
  have hlt : x * y < 2 ^ (4 * h) := by
    rw [show 4 * h = 2 * h + 2 * h by omega, pow_add]
    exact Nat.mul_lt_mul'' hx hy
  simp only [Nat.mod_add_mod]
  rw [← Nat.mod_eq_of_lt hlt]
  congr 1
  rw [show 2 ^ (2 * h) = 2 ^ h * 2 ^ h by rw [Nat.two_mul, pow_add]]
  calc _ = (x / 2 ^ h * 2 ^ h + x % 2 ^ h) * (y / 2 ^ h * 2 ^ h + y % 2 ^ h) := by ring
    _ = x * y := by rw [Nat.div_add_mod', Nat.div_add_mod']

theorem mul16u_eq {x y : Nat} (hx : x < 2 ^ 16) (hy : y < 2 ^ 16) : mul16u x y = x * y := by
  apply mulHalves_eq _ hx hy
  intro a ha b hb
  have hlt : a * b < 2 ^ 8 * 2 ^ 8 := Nat.mul_lt_mul'' ha hb
  exact Nat.mod_eq_of_lt hlt

theorem mul32u_eq {x y : Nat} (hx : x < 2 ^ 32) (hy : y < 2 ^ 32) : mul32u x y = x * y :=
  mulHalves_eq (fun _ ha _ hb => mul16u_eq ha hb) hx hy

/-- The shifts stop at the highest multiple of `y` by a power of two that has `w` bits. -/
theorem modNormalise_eq {w y fuel : Nat} (hy : 0 < y) (hlt : y < 2 ^ w) (hfuel : 2 ^ w ≤ y * 2 ^ fuel) (count : Nat) :
    ∃ j, modNormalise w fuel y count = some (y * 2 ^ j, count + j) ∧ 2 ^ w ≤ y * 2 ^ (j + 1) := by
  have hw : w ≠ 0 := fun h => by simp [h] at hlt; omega
  have hpow : 2 ^ w = 2 * 2 ^ (w - 1) := by rw [← pow_succ', Nat.sub_add_cancel (by omega)]
  induction fuel generalizing y count with
  | zero => simp at hfuel; omega
  | succ fuel ih =>
    have hmsb : msbIsSet w y = y / 2 ^ (w - 1) :=
      Nat.mod_eq_of_lt (Nat.div_lt_of_lt_mul (by rw [Nat.mul_comm, ← hpow]; exact hlt))
    rw [modNormalise, hmsb]
    split
    · -- the highest bit is clear, so the shift loses none
      rename_i hclear
      have hsmall : y < 2 ^ (w - 1) := (Nat.div_eq_zero_iff_lt (Nat.two_pow_pos _)).1 hclear
      rw [Nat.mod_eq_of_lt (by omega)]
      obtain ⟨j, hj, hmax⟩ := ih (y := 2 * y) (by omega) (by omega)
        (by rw [pow_succ] at hfuel; rw [Nat.mul_comm 2, Nat.mul_assoc, Nat.mul_comm 2]; exact hfuel) (count + 1)
      have hshift : ∀ i, 2 * y * 2 ^ i = y * 2 ^ (i + 1) := fun i => by rw [pow_succ]; ring
      rw [hshift] at hj hmax
      exact ⟨j + 1, by rw [hj, Nat.add_assoc, Nat.add_comm 1], hmax⟩
    · rename_i hset
      refine ⟨0, by simp, ?_⟩
      have : 2 ^ (w - 1) ≤ y := by
        by_contra h
        exact hset (Nat.div_eq_of_lt (by omega))
      rw [Nat.zero_add, pow_one]
      omega

/-- `count` rounds take a number below `y * 2 ^ count` to its remainder. -/
theorem modSubtract_eq {count x y : Nat} (hx : x < y * 2 ^ count) : modSubtract count x (y * 2 ^ count / 2) = x % y := by
  induction count generalizing x with
  | zero =>
    rw [pow_zero, mul_one] at hx
    exact (Nat.mod_eq_of_lt hx).symm
  | succ count ih =>
    have hhalf : y * 2 ^ (count + 1) / 2 = y * 2 ^ count := by
      rw [pow_succ, ← Nat.mul_assoc, Nat.mul_div_cancel _ two_pos]
    have hdouble : y * 2 ^ (count + 1) = y * 2 ^ count + y * 2 ^ count := by rw [pow_succ]; ring
    rw [modSubtract, hhalf, ih (by split <;> omega)]
    split
    · rename_i hle
      conv_rhs => rw [← Nat.sub_add_cancel hle, Nat.add_mul_mod_self_left]
    · rfl

theorem modBody_eq {w x y : Nat} (onZero : Nat) (hx : x < 2 ^ w) (hlt : y < 2 ^ w) (hy : 0 < y) :
    modBody w onZero x y = some (x % y) := by
  obtain ⟨j, hj, hmax⟩ := modNormalise_eq hy hlt (Nat.le_mul_of_pos_left (2 ^ w) hy) 1
  have htop : y * 2 ^ j = y * 2 ^ (1 + j) / 2 := by
    rw [Nat.add_comm, pow_succ, ← Nat.mul_assoc, Nat.mul_div_cancel _ two_pos]
  rw [modBody, if_neg (by omega), hj, htop]
  exact congrArg some (modSubtract_eq (by rw [Nat.add_comm 1]; omega))

/-- At every width the quotient and the remainder are those of `x` by a `y` above zero, with a
remainder that the loop reaches, and the products are exact. -/
theorem muldiv_exact :
    (∀ x < 2 ^ 16, ∀ y < 2 ^ 16, 0 < y → ∃ r, mod16u x y = some r ∧ r < y ∧ div16u x y * y + r = x) ∧
    (∀ x < 2 ^ 32, ∀ y < 2 ^ 32, 0 < y → ∃ r, mod32u x y = some r ∧ r < y ∧ div32u x y * y + r = x) ∧
    (∀ x < 2 ^ 64, ∀ y < 2 ^ 64, 0 < y → ∃ r, mod64u x y = some r ∧ r < y ∧ div64u x y * y + r = x) ∧
    (∀ x < 2 ^ 16, ∀ y < 2 ^ 16, mul16u x y = x * y) ∧
    ∀ x < 2 ^ 32, ∀ y < 2 ^ 32, mul32u x y = x * y := by
  refine ⟨fun x hx y hlt hy => ?_, fun x hx y hlt hy => ?_, fun x hx y hlt hy => ?_,
    fun x hx y hy => mul16u_eq hx hy, fun x hx y hy => mul32u_eq hx hy⟩
  · exact ⟨x % y, modBody_eq _ hx hlt hy, Nat.mod_lt x hy, by rw [div16u_eq hx hy, Nat.div_add_mod']⟩
  · exact ⟨x % y, modBody_eq _ hx hlt hy, Nat.mod_lt x hy, by rw [div32u_eq hx hy, Nat.div_add_mod']⟩
  · exact ⟨x % y, modBody_eq _ hx hlt hy, Nat.mod_lt x hy, by rw [div64u_eq hx hy, Nat.div_add_mod']⟩

end Sdfirm.Muldiv
