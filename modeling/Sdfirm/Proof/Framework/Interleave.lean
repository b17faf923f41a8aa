import Mathlib

/-!
# Interleaved pages

Addresses are cut into pages of `P`, and the pages are dealt to `n` lanes in
turn: address `a` lies in lane `lane n P a`. A new page is in another lane
(`lane_succ_ne`), so addresses in a row of one lane are in one page
(`div_eq_of_lane_eq`).
-/

namespace Framework.Interleave

/-- The lane of address `a`. -/
def lane (n P a : Nat) : Nat := a / P % n

variable {n P a : Nat}

theorem lane_lt (hn : 0 < n) : lane n P a < n := Nat.mod_lt _ hn

/-- Within a page the quotient stays. -/
theorem succ_div_of_mod_ne (hP : 0 < P) (h : (a + 1) % P ≠ 0) : (a + 1) / P = a / P ∧ (a + 1) % P = a % P + 1 := by
  have hlt : a % P + 1 < P := by
    apply lt_of_le_of_ne (Nat.mod_lt a hP)
    intro heq
    apply h
    rw [← Nat.div_add_mod a P, Nat.add_assoc, heq, ← Nat.mul_succ]
    exact Nat.mul_mod_right P _
  constructor
  · exact Nat.succ_div_of_not_dvd fun hd => h (Nat.mod_eq_zero_of_dvd hd)
  · rw [Nat.add_mod, Nat.mod_eq_of_lt (by omega : 1 < P)]
    exact Nat.mod_eq_of_lt hlt

theorem lane_succ_ne (hn : 2 ≤ n) (h : (a + 1) % P = 0) : lane n P (a + 1) ≠ lane n P a := by
  rw [lane, lane, Nat.succ_div_of_dvd (Nat.dvd_of_mod_eq_zero h)]
  have hmod := Nat.mod_lt (a / P) (by omega : 0 < n)
  intro heq
  rw [Nat.add_mod, Nat.mod_eq_of_lt (by omega : 1 < n)] at heq
  by_cases hlt : a / P % n + 1 < n
  · rw [Nat.mod_eq_of_lt hlt] at heq
    omega
  · rw [show a / P % n + 1 = n by omega, Nat.mod_self] at heq
    omega

/-- Addresses in a row of one lane are in one page. -/
theorem div_eq_of_lane_eq (hn : 2 ≤ n) (hP : 0 < P) {i : Nat} (h : ∀ j ≤ i, lane n P (a + j) = lane n P a) :
    (a + i) / P = a / P := by
  induction i with
  | zero => rfl
  | succ i ih =>
    rw [← ih fun j hj => h j (by omega)]
    by_cases hmod : (a + i + 1) % P = 0
    · exact absurd ((h (i + 1) le_rfl).trans (h i (by omega)).symm) (lane_succ_ne hn hmod)
    · exact (succ_div_of_mod_ne hP hmod).1

end Framework.Interleave
