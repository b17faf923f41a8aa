import Sdfirm.Proof.Delay.Calibrate

/-!
# Delays that are not short

For loops of a fixed cost the overhead that the calibration measures is the
real one (`linear_good`), so that a millisecond of loops lasts at least the
period. What is short is what was divided by 1000.
-/

namespace Sdfirm.Delay

variable {c : Config} {a e T max n : Nat}

theorem delayLoops_eq (ticks : Nat → Nat) (loops n : Nat) : delayLoops ticks loops n = n * ticks loops := by
  induction n with
  | zero => rw [delayLoops, Nat.zero_mul]
  | succ n ih => rw [delayLoops, ih, Nat.succ_mul, Nat.add_comm]

theorem ov_linear (a e j : Nat) : ov (linear a e) j = e := by
  have : a * 2 ^ (j + 1) = 2 * (a * 2 ^ j) := by rw [pow_succ]; ring
  simp only [ov, linear]
  omega

theorem linear_good {k : Nat} (he : 0 < e) (hround : a * 2 ^ (c.lpsInit + 1) + e < T) (hk : k < c.lpsBits) (hreach : T ≤ a * 2 ^ k)
    (hfits : a * 2 ^ k + e < 2 ^ c.countBits) : Good c (linear a e) T (c.lpsInit + 1) k where
  mono l l' h := Nat.add_le_add_right (Nat.mul_le_mul_left a h) e
  init_lt := Nat.lt_succ_self _
  zero i h1 h2 := absurd h2 (by omega)
  overhead := by
    have h := ov_linear a e (c.lpsInit + 1)
    rw [ov] at h
    omega
  k_gt := by
    by_contra hc
    have := Nat.mul_le_mul_left a (Nat.pow_le_pow_right two_pos (by omega : k ≤ c.lpsInit + 1))
    omega
  k_lt := hk
  reached := by
    have h := ov_linear a e (c.lpsInit + 1)
    rw [ov] at h
    rw [h, linear]
    omega
  fits := hfits

/-- The loops that are found last the period. -/
theorem Exact.loops (h : Exact c T a e) :
    ∃ stop tickerr loops, Fuel.Returns (calibrateDelay c (linear a e) T) (stop, tickerr, loops) ∧ T ≤ a * loops := by
  obtain ⟨k, hk, hreach, hfits⟩ := h.reached
  obtain ⟨m, loops, hm, hret, hleast⟩ := (linear_good h.overhead h.rounds hk hreach hfits).calibrate
  have hlast := hleast.1.2.2
  have hround := h.rounds
  refine ⟨_, _, loops, hret, ?_⟩
  split at hlast
  · rw [ov_linear, linear] at hlast
    omega
  · -- the first round is too short
    rename_i hfirst
    obtain rfl : m = c.lpsInit + 1 := by omega
    have := Nat.mul_le_mul_left a hleast.1.2.1
    rw [linear] at hlast
    omega

theorem Exact.loopsLast (h : Exact c T a e) : LoopsLast c T a e := by
  obtain ⟨stop, tickerr, loops, hret, hlast⟩ := h.loops
  refine ⟨stop, tickerr, loops, hret, fun n => ⟨?_, ?_⟩⟩
  · rw [mdelay, delayLoops_eq]
    exact Nat.mul_le_mul_left n hlast
  · obtain ⟨q, rfl⟩ := h.whole stop tickerr loops hret
    rw [udelay, delayLoops_eq, Nat.mul_div_cancel_left q (by omega)]
    calc n * T ≤ n * (a * (1000 * q)) := Nat.mul_le_mul_left n hlast
      _ = 1000 * (n * (a * q)) := by ring

/-- The difference of two readings is not more than what has passed. -/
theorem delayTicksElapsed_le {start : Nat} (hs : start ≤ max) (d : Nat) :
    delayTicksElapsed max start ((start + d) % (max + 1)) ≤ d := by
  have hmod : (start + d) % (max + 1) ≤ start + d := Nat.mod_le _ _
  unfold delayTicksElapsed
  split
  · omega
  · rename_i hlt
    -- the counter has wrapped around
    have hwrap : max + 1 ≤ start + d := by
      by_contra hc
      rw [Nat.mod_eq_of_lt (by omega)] at hlt
      omega
    have := Nat.mod_le (start + d - (max + 1)) (max + 1)
    rw [Nat.mod_eq_sub_mod hwrap] at hlt ⊢
    omega

theorem udelayPoll_le {start us fuel i d : Nat} {passed : Nat → Nat} (hs : start ≤ max)
    (h : udelayPoll max T start passed us fuel i = some d) : T / 1000 * us ≤ d := by
  induction fuel generalizing i with
  | zero => cases h
  | succ fuel ih =>
    rw [udelayPoll] at h
    split at h
    · exact ih h
    · rename_i hend
      obtain rfl := Option.some.inj h
      exact (not_lt.1 hend).trans (delayTicksElapsed_le hs _)

theorem pollsLast_of_dvd (h : 1000 ∣ T) : PollsLast T max := by
  have hpoll : ∀ start passed n fuel i d, start ≤ max → udelayPoll max T start passed n fuel i = some d → n * T ≤ 1000 * d := by
    intro start passed n fuel i d hs hd
    obtain ⟨q, rfl⟩ := h
    have hle := udelayPoll_le hs hd
    rw [Nat.mul_div_cancel_left q (by omega)] at hle
    calc n * (1000 * q) = 1000 * (q * n) := by ring
      _ ≤ 1000 * d := Nat.mul_le_mul_left 1000 hle
  refine ⟨hpoll, fun n ds hlen hds => ?_⟩
  have hsum : ds.length * T ≤ 4 * ds.sum := by
    clear hlen
    induction ds with
    | nil => simp
    | cons d ds ih =>
      obtain ⟨start, passed, fuel, i, hs, hd⟩ := hds d List.mem_cons_self
      have h1 := hpoll start passed 250 fuel i d hs hd
      have h2 := ih fun x hx => hds x (List.mem_cons_of_mem _ hx)
      rw [List.length_cons, List.sum_cons, Nat.succ_mul]
      omega
  rw [hlen, Nat.mul_assoc] at hsum
  omega

theorem not_loopsLast {fuel : Nat} {r : Nat × Nat × Nat} (h : calibrateDelay c (linear a e) T fuel = some r)
    (hshort : mdelay (a * ·) r.2.2 1 < T ∨ 1000 * udelay (a * ·) r.2.2 1 < T) : ¬LoopsLast c T a e := by
  rintro ⟨stop, tickerr, loops, hret, hlast⟩
  obtain rfl := (returns_calibrateDelay h).unique hret
  have := hlast 1
  dsimp only at hshort
  omega

end Sdfirm.Delay
