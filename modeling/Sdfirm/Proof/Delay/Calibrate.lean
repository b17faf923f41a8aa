import Sdfirm.Spec.Delay

/-!
# The calibration of the delays

Both loops are followed for a tick source with a positive overhead `ov`, up to
a power `2 ^ k` that lasts the period and the overhead. `Doubled` says what the
first loop has measured before each round; the second one keeps the least
number of loops above `loops - loopbit` (`descent_least`).
-/

namespace Sdfirm.Delay

variable {c : Config} {E : Nat → Nat} {T j k n fuel tickerr elapsedLast : Nat}

/-- A source that can be calibrated: `2 ^ j` is the first measurement above 0, and `2 ^ k` lasts
the period and its overhead. -/
structure Good (c : Config) (E : Nat → Nat) (T j k : Nat) : Prop where
  mono : Monotone E
  init_lt : c.lpsInit < j
  zero : ∀ i, c.lpsInit < i → i < j → E (2 ^ i) = 0
  overhead : E (2 ^ (j + 1)) < 2 * E (2 ^ j)
  k_gt : c.lpsInit < k
  k_lt : k < c.lpsBits
  reached : T + (2 * E (2 ^ j) - E (2 ^ (j + 1))) ≤ E (2 ^ k)
  fits : E (2 ^ k) < 2 ^ c.countBits

/-- The overhead. -/
def ov (E : Nat → Nat) (j : Nat) : Nat := 2 * E (2 ^ j) - E (2 ^ (j + 1))

namespace Good

theorem elapsed_eq (h : Good c E T j k) {l : Nat} (hl : l ≤ 2 ^ k) : calibrateElapsed c E l = E l :=
  Nat.mod_eq_of_lt (lt_of_le_of_lt (h.mono hl) h.fits)

theorem ov_le (h : Good c E T j k) : T + ov E j ≤ E (2 ^ k) := h.reached

theorem threshold_eq (h : Good c E T j k) (ht : tickerr ≤ ov E j) : threshold c T tickerr = T + tickerr := by
  have h1 := h.ov_le
  have h2 := h.fits
  have h3 : 2 ^ c.countBits ≤ 2 ^ c.sumBits := Nat.pow_le_pow_right two_pos c.countBits_le
  exact Nat.mod_eq_of_lt (by omega)

end Good

/-! ## The first loop -/

/-- What has been measured when the loop has come to `2 ^ n`. -/
def Doubled (E : Nat → Nat) (j n tickerr elapsedLast : Nat) : Prop :=
  n < j ∧ tickerr = 0 ∧ elapsedLast = 0 ∨ n = j ∧ tickerr = 0 ∧ elapsedLast = E (2 ^ j) ∨ j < n ∧ tickerr = ov E j

theorem Doubled.tickerr_eq (h : Doubled E j n tickerr elapsedLast) : tickerr = if j < n then ov E j else 0 := by
  rcases h with ⟨hn, ht, -⟩ | ⟨hn, ht, -⟩ | ⟨hn, ht⟩
  · rw [if_neg (by omega), ht]
  · rw [if_neg (by omega), ht]
  · rw [if_pos hn, ht]

theorem Good.measure_doubled (h : Good c E T j k) (hn : c.lpsInit ≤ n) (hs : Doubled E j n tickerr elapsedLast) :
    Doubled E j (n + 1) (measure c (E (2 ^ (n + 1))) tickerr elapsedLast).1
      (measure c (E (2 ^ (n + 1))) tickerr elapsedLast).2 := by
  have hov := h.overhead
  rcases hs with ⟨hlt, rfl, rfl⟩ | ⟨rfl, rfl, rfl⟩ | ⟨hlt, rfl⟩
  · have hm : measure c (E (2 ^ (n + 1))) 0 0 = (0, E (2 ^ (n + 1))) := rfl
    rw [hm]
    obtain hj | rfl := (Nat.succ_le_of_lt hlt).lt_or_eq
    · exact .inl ⟨hj, rfl, h.zero (n + 1) (by omega) hj⟩
    · exact .inr (.inl ⟨rfl, rfl, rfl⟩)
  · refine .inr (.inr ⟨Nat.lt_succ_self n, ?_⟩)
    have hlt : ov E n < 2 ^ c.countBits := by
      have h1 := h.ov_le
      have h2 := h.fits
      omega
    have hsub : (2 * (E (2 ^ n) : Int) - E (2 ^ (n + 1))) = (ov E n : Nat) := by
      rw [ov]
      omega
    rw [measure, if_pos rfl, if_pos (by omega), hsub]
    norm_cast
    rw [Nat.mod_eq_of_lt hlt]
  · have hpos : ov E j ≠ 0 := by
      rw [ov]
      omega
    rw [measure, if_neg hpos]
    exact .inr (.inr ⟨by omega, rfl⟩)

theorem Good.doubling_stops (h : Good c E T j k) (hn : c.lpsInit ≤ n) (hk : n < k) (hfuel : k - n ≤ fuel)
    (hs : Doubled E j n tickerr elapsedLast) :
    ∃ m, n < m ∧ m ≤ k ∧ doubling c E T fuel (2 ^ n) tickerr elapsedLast = some (2 ^ m, if j < m then ov E j else 0) ∧
      T + (if j < m then ov E j else 0) ≤ E (2 ^ m) := by
  induction fuel generalizing n tickerr elapsedLast with
  | zero => omega
  | succ fuel ih =>
    have hloops : 2 * 2 ^ n % 2 ^ c.lpsBits = 2 ^ (n + 1) := by
      have hkl := h.k_lt
      rw [← pow_succ']
      exact Nat.mod_eq_of_lt (Nat.pow_lt_pow_right Nat.one_lt_two (by omega))
    have helapsed : calibrateElapsed c E (2 ^ (n + 1)) = E (2 ^ (n + 1)) :=
      h.elapsed_eq (Nat.pow_le_pow_right two_pos (by omega))
    have hs' := h.measure_doubled hn hs
    have hle : (measure c (E (2 ^ (n + 1))) tickerr elapsedLast).1 ≤ ov E j := by
      rw [hs'.tickerr_eq]
      split <;> omega
    rw [doubling]
    simp only [hloops, (Nat.two_pow_pos (n + 1)).ne', if_false, helapsed, h.threshold_eq hle]
    split
    · rename_i hstop
      rw [hs'.tickerr_eq] at hstop ⊢
      exact ⟨n + 1, Nat.lt_succ_self n, by omega, rfl, hstop⟩
    · rename_i hgo
      -- at the power `2 ^ k` the loop stops
      have hk' : n + 1 < k := by
        by_contra hc
        obtain rfl : n + 1 = k := by omega
        have := h.ov_le
        omega
      obtain ⟨m, h1, h2, h3, h4⟩ := ih (by omega) hk' (by omega) hs'
      exact ⟨m, by omega, h2, h3, h4⟩

/-! ## The second loop -/

theorem Good.descent_least (h : Good c E T j k) {m b loops : Nat} (hm : m ≤ k) (ht : tickerr ≤ ov E j) (hfuel : b < fuel)
    (hle : loops ≤ 2 ^ m) (hlow : 2 ^ (m - 1) + 2 ^ b ≤ loops) (hlast : T + tickerr ≤ E loops)
    (hmin : ∀ l, l ≤ 2 ^ m → 2 ^ (m - 1) < l → T + tickerr ≤ E l → loops < l + 2 ^ b) :
    ∃ L, descent c E T tickerr fuel (2 ^ b) loops = some L ∧
      IsLeast {l | 2 ^ (m - 1) < l ∧ l ≤ 2 ^ m ∧ T + tickerr ≤ E l} L := by
  have hmk : 2 ^ m ≤ 2 ^ k := Nat.pow_le_pow_right two_pos hm
  induction b generalizing fuel loops with
  | zero =>
    obtain ⟨fuel, rfl⟩ := Nat.exists_eq_add_one_of_ne_zero (by omega : fuel ≠ 0)
    refine ⟨loops, rfl, ⟨by rw [pow_zero] at hlow; omega, hle, hlast⟩, fun l hl => ?_⟩
    have := hmin l hl.2.1 hl.1 hl.2.2
    rw [pow_zero] at this
    omega
  | succ b ih =>
    obtain ⟨fuel, rfl⟩ := Nat.exists_eq_add_one_of_ne_zero (by omega : fuel ≠ 0)
    have hhalf : 2 ^ (b + 1) / 2 = 2 ^ b := by rw [pow_succ, Nat.mul_div_cancel _ two_pos]
    have hpow : 2 ^ (b + 1) = 2 ^ b + 2 ^ b := by rw [pow_succ]; ring
    have hpos := Nat.two_pow_pos b
    have hb : 2 ^ b ≤ loops := by
      have := Nat.two_pow_pos (m - 1)
      omega
    rw [descent]
    simp only [hhalf, hpos.ne', if_false, h.elapsed_eq (by omega : loops - 2 ^ b ≤ 2 ^ k), h.threshold_eq ht]
    split
    · -- not long enough, nor is anything below
      rename_i hshort
      rw [Nat.sub_add_cancel hb]
      refine ih (by omega) hle (by omega) hlast fun l hl1 hl2 hl3 => ?_
      by_contra hc
      have := h.mono (by omega : l ≤ loops - 2 ^ b)
      omega
    · rename_i hlong
      refine ih (by omega) (by omega) (by omega) (by omega) fun l hl1 hl2 hl3 => ?_
      have := hmin l hl1 hl2 hl3
      omega

/-! ## The whole calibration -/

/-- A result stays the same when the bound is raised. -/
theorem doubling_mono {loops : Nat} {r : Nat × Nat} (h : doubling c E T fuel loops tickerr elapsedLast = some r) :
    doubling c E T (fuel + 1) loops tickerr elapsedLast = some r := by
  induction fuel generalizing loops tickerr elapsedLast with
  | zero => cases h
  | succ fuel ih =>
    rw [doubling] at h ⊢
    simp only at h ⊢
    split_ifs at h ⊢ with h0 h1
    · exact h
    · exact h
    · exact ih h

theorem descent_mono {loopbit loops r : Nat} (h : descent c E T tickerr fuel loopbit loops = some r) :
    descent c E T tickerr (fuel + 1) loopbit loops = some r := by
  induction fuel generalizing loopbit loops with
  | zero => cases h
  | succ fuel ih =>
    rw [descent] at h ⊢
    simp only at h ⊢
    split at h
    · rename_i h0
      rwa [if_pos h0]
    · rename_i h0
      rw [if_neg h0]
      exact ih h

theorem returns_calibrateDelay {r : Nat × Nat × Nat} (h : calibrateDelay c E T fuel = some r) :
    Fuel.Returns (calibrateDelay c E T) r := by
  refine ⟨fuel, fun steps hsteps => ?_⟩
  induction steps, hsteps using Nat.le_induction with
  | base => exact h
  | succ steps _ ih =>
    obtain ⟨⟨stop, tickerr⟩, h1, h2⟩ := Option.bind_eq_some_iff.1 ih
    obtain ⟨loops, h3, rfl⟩ := Option.map_eq_some_iff.1 h2
    simp [calibrateDelay, doubling_mono h1, descent_mono h3]

/-- Where both loops end. -/
theorem Good.calibrate (h : Good c E T j k) :
    ∃ m loops, c.lpsInit < m ∧ Fuel.Returns (calibrateDelay c E T) (2 ^ m, if j < m then ov E j else 0, loops) ∧
      IsLeast {l | 2 ^ (m - 1) < l ∧ l ≤ 2 ^ m ∧ T + (if j < m then ov E j else 0) ≤ E l} loops := by
  have hstart : Doubled E j c.lpsInit 0 0 := .inl ⟨h.init_lt, rfl, rfl⟩
  obtain ⟨m, hm1, hm2, hdouble, hreach⟩ := h.doubling_stops le_rfl h.k_gt (Nat.sub_le k c.lpsInit) hstart
  have ht : (if j < m then ov E j else 0) ≤ ov E j := by split <;> omega
  have hpow : 2 ^ m = 2 ^ (m - 1) + 2 ^ (m - 1) := by
    conv_lhs => rw [← Nat.sub_add_cancel (by omega : 1 ≤ m), pow_succ]
    ring
  have hhalf : 2 ^ m / 2 = 2 ^ (m - 1) := by omega
  have hinit : 2 ^ c.lpsInit % 2 ^ c.lpsBits = 2 ^ c.lpsInit := by
    have hkl := h.k_lt
    exact Nat.mod_eq_of_lt (Nat.pow_lt_pow_right Nat.one_lt_two (by omega))
  obtain ⟨loops, hloops, hleast⟩ := h.descent_least hm2 ht (by omega : m - 1 < k) le_rfl hpow.ge hreach
    fun l _ hl _ => by omega
  have hfound : calibrateDelay c E T k = some (2 ^ m, if j < m then ov E j else 0, loops) := by
    rw [calibrateDelay, hinit, hdouble]
    simp only [Option.bind_some, hhalf, hloops, Option.map_some]
  exact ⟨m, loops, hm1, returns_calibrateDelay hfound, hleast⟩

/-- `lps_t` of 16 bits, and a tick counter of 32. -/
def smallLoops : Config := ⟨16, 32, 32, 0, le_rfl⟩

/-- A tick for each two loops, and one of overhead, as far as the counter goes. -/
def halfTicks (l : Nat) : Nat := min (l / 2 + 1) (2 ^ 32 - 1)

theorem halfTicks_source : Source smallLoops halfTicks where
  fits l := by
    have : (2 : Nat) ^ smallLoops.countBits = 2 ^ 32 := rfl
    unfold halfTicks
    omega
  mono l l' h := by
    unfold halfTicks
    omega
  double l := by
    unfold halfTicks
    omega

/-- One tick for each loop, and no overhead. -/
def evenTicks (l : Nat) : Nat := min l (2 ^ 32 - 1)

theorem evenTicks_source : Source smallLoops evenTicks where
  fits l := by
    have : (2 : Nat) ^ smallLoops.countBits = 2 ^ 32 := rfl
    unfold evenTicks
    omega
  mono l l' h := by
    unfold evenTicks
    omega
  double l := by
    unfold evenTicks
    omega

end Sdfirm.Delay
