import Sdfirm.Spec.Sched
import Sdfirm.Proof.Muldiv.Exact

/-!
# When the tick does not drift

Between two calls the state is `Kept`: `jiffies` has the whole jiffies since
the start, `tsc_old` is the count at the last of them and has not wrapped.
`call_eq` is what the next call makes of such a state, with the pending counts
as the counter shows them (`seen`). `Kept.call` says that a call that is
`Measured` leads to the next such state, and `measured_of_accounts` that no
other call accounts for all counts. `never_drifts_iff` follows by induction
over the calls.
-/

namespace Sdfirm.Tick

variable {c : Config} {s : TickState} {total a o n d : Nat}

/-! ## The machine arithmetic -/

theorem Config.countsPerJiffy_pos (c : Config) : 0 < c.countsPerJiffy := c.tscFreq_pos

theorem mod_period_lt (c : Config) (d : Nat) : d % (c.tscMax + 1) < c.tscMax + 1 := Nat.mod_lt d (Nat.succ_pos _)

theorem Config.tscMax_lt_bits (c : Config) : c.tscMax < 2 ^ c.bits := by
  have h := c.tscMax_lt
  unfold Config.bits tscBits
  split_ifs <;> omega

theorem Config.maxSub_eq (ho : o ≤ c.tscMax) : c.maxSub o = c.tscMax - o := by
  unfold Config.maxSub
  split
  · rfl
  · rename_i b hb
    have hle : 2 ^ c.bits ≤ 2 ^ b := Nat.pow_le_pow_right two_pos (c.maxBits_ge b hb)
    have hlt := c.tscMax_lt_bits
    have hcast : ((2 ^ b : Nat) : Int) = 2 ^ b := by push_cast; rfl
    rw [← hcast]
    exact Int.emod_eq_of_lt (by omega) (by omega)

theorem Config.toCount_of_lt {x : Nat} (hx : x < 2 ^ c.bits) : c.toCount x = x := by
  unfold Config.toCount
  have hcast : ((2 ^ c.bits : Nat) : Int) = 2 ^ c.bits := by push_cast; rfl
  rw [← hcast, Int.emod_eq_of_lt (by omega) (by omega)]
  rfl

theorem Config.toCount_natCast (x : Nat) : c.toCount x = x % 2 ^ c.bits := by
  unfold Config.toCount
  have hcast : ((2 ^ c.bits : Nat) : Int) = 2 ^ c.bits := by push_cast; rfl
  rw [← hcast, ← Int.natCast_emod]
  rfl

theorem Config.tscDiv_eq (hd : d < 2 ^ c.bits) : c.tscDiv d c.countsPerJiffy = d / c.countsPerJiffy := by
  have hpos := c.countsPerJiffy_pos
  unfold Config.bits tscBits at hd
  unfold Config.tscDiv
  split_ifs at hd ⊢
  · rfl
  · exact Muldiv.div16u_eq hd hpos
  · exact Muldiv.div32u_eq hd hpos
  · exact Muldiv.div64u_eq hd hpos

theorem Config.tscMul_eq (hd : d < 2 ^ c.bits) : c.tscMul d c.countsPerJiffy = d * c.countsPerJiffy := by
  have hfreq : c.countsPerJiffy < 2 ^ tscBits c.tscMax := c.tscFreq_lt
  unfold Config.bits tscBits at hd
  unfold tscBits at hfreq
  unfold Config.tscMul
  split_ifs at hd hfreq ⊢
  · rfl
  · rw [Nat.mod_eq_of_lt hd]
    exact Muldiv.mul16u_eq hd hfreq
  · exact Muldiv.mul32u_eq hd hfreq
  · rfl

/-! ## The functions of the tick -/

theorem tickTickedTsc_eq (ho : o ≤ c.tscMax) (hd : d < 2 ^ c.bits) :
    tickTickedTsc c o d = if o + d < c.tscMax then o + d else o + d - c.tscMax := by
  have hlt := c.tscMax_lt_bits
  rw [tickTickedTsc, Config.maxSub_eq ho]
  by_cases h : o + d < c.tscMax
  · rw [if_pos (by omega), if_pos h]
    exact Config.toCount_of_lt (by omega)
  · rw [if_neg (by omega), if_neg h, show (d : Int) - (c.tscMax - o) = ((o + d - c.tscMax : Nat) : Int) by omega]
    exact Config.toCount_of_lt (by omega)

theorem tickDeltaTsc_eq (ho : o ≤ c.tscMax) :
    tickDeltaTsc c o n = if o < n then n - o else (c.tscMax - o + n + 1) % 2 ^ c.bits := by
  rw [tickDeltaTsc, Config.maxSub_eq ho,
    show (c.tscMax : Int) - o + n + 1 = ((c.tscMax - o + n + 1 : Nat) : Int) by omega, Config.toCount_natCast]

/-- What `tick_delta_tsc` makes of `d` pending counts. -/
def seen (c : Config) (d : Nat) : Nat :=
  if d % (c.tscMax + 1) = 0 then (c.tscMax + 1) % 2 ^ c.bits else d % (c.tscMax + 1)

theorem seen_le (c : Config) (d : Nat) : seen c d ≤ c.tscMax + 1 := by
  unfold seen
  have h := mod_period_lt c d
  split_ifs
  · exact Nat.mod_le _ _
  · omega

theorem seen_lt (c : Config) (d : Nat) : seen c d < 2 ^ c.bits := by
  have hlt := c.tscMax_lt_bits
  have h := mod_period_lt c d
  unfold seen
  split_ifs
  · exact Nat.mod_lt _ (Nat.two_pow_pos _)
  · omega

theorem seen_zero (c : Config) : seen c 0 = (c.tscMax + 1) % 2 ^ c.bits := by
  rw [seen, Nat.zero_mod, if_pos rfl]

theorem seen_of_le (hpos : 0 < d) (hd : d ≤ c.tscMax) : seen c d = d := by
  rw [seen, Nat.mod_eq_of_lt (by omega), if_neg (by omega)]

theorem seen_period (hlt : c.tscMax + 1 < 2 ^ c.bits) : seen c (c.tscMax + 1) = c.tscMax + 1 := by
  rw [seen, Nat.mod_self, if_pos rfl, Nat.mod_eq_of_lt hlt]

/-- The counts seen are the pending ones, unless there are none or more than one period. -/
theorem seen_cases (c : Config) (d : Nat) :
    seen c d = 0 ∨ (d = 0 ∧ seen c d = c.tscMax + 1) ∨
      (seen c d = d ∧ (d ≤ c.tscMax ∨ d = c.tscMax + 1 ∧ c.tscMax + 1 < 2 ^ c.bits)) ∨
        seen c d + (c.tscMax + 1) ≤ d := by
  have hlt := c.tscMax_lt_bits
  have hm := mod_period_lt c d
  have hdm := Nat.div_add_mod d (c.tscMax + 1)
  rcases Nat.lt_or_ge d (c.tscMax + 1) with hd | hd
  · rcases Nat.eq_zero_or_pos d with h0 | hpos
    · rcases Nat.lt_or_ge (c.tscMax + 1) (2 ^ c.bits) with hb | hb
      · exact .inr (.inl ⟨h0, by rw [h0, seen_zero, Nat.mod_eq_of_lt hb]⟩)
      · left
        rw [h0, seen_zero, show c.tscMax + 1 = 2 ^ c.bits by omega, Nat.mod_self]
    · exact .inr (.inr (.inl ⟨seen_of_le hpos (by omega), .inl (by omega)⟩))
  · by_cases h0 : d % (c.tscMax + 1) = 0
    · rcases Nat.lt_or_ge (c.tscMax + 1) (2 ^ c.bits) with hb | hb
      · have hs : seen c d = c.tscMax + 1 := by rw [seen, if_pos h0, Nat.mod_eq_of_lt hb]
        rcases Nat.eq_or_lt_of_le hd with he | hgt
        · exact .inr (.inr (.inl ⟨by omega, .inr ⟨he.symm, hb⟩⟩))
        · -- a multiple of the period above one period is at least two
          have hq : 2 ≤ d / (c.tscMax + 1) := by
            by_contra hq
            have : d / (c.tscMax + 1) ≤ 1 := by omega
            have := Nat.mul_le_mul_left (c.tscMax + 1) this
            omega
          have := Nat.mul_le_mul_left (c.tscMax + 1) hq
          exact .inr (.inr (.inr (by omega)))
      · left
        rw [seen, if_pos h0, show c.tscMax + 1 = 2 ^ c.bits by omega, Nat.mod_self]
    · have hq : 1 ≤ d / (c.tscMax + 1) := (Nat.one_le_div_iff (Nat.succ_pos _)).mpr hd
      have := Nat.mul_le_mul_left (c.tscMax + 1) hq
      have hs : seen c d = d % (c.tscMax + 1) := by rw [seen, if_neg h0]
      exact .inr (.inr (.inr (by omega)))

/-- The counts seen differ from the pending ones by whole periods. -/
theorem seen_emod (c : Config) {d : Nat} (h : seen c d ≠ 0) :
    (seen c d : Int) % (c.tscMax + 1) = (d : Int) % (c.tscMax + 1) := by
  have hlt := c.tscMax_lt_bits
  have key : seen c d % (c.tscMax + 1) = d % (c.tscMax + 1) := by
    unfold seen at h ⊢
    split_ifs at h ⊢ with h0
    · rcases Nat.lt_or_ge (c.tscMax + 1) (2 ^ c.bits) with hb | hb
      · rw [Nat.mod_eq_of_lt hb, Nat.mod_self, h0]
      · rw [show c.tscMax + 1 = 2 ^ c.bits by omega, Nat.mod_self] at h
        exact absurd rfl h
    · exact Nat.mod_mod _ _
  exact_mod_cast key

/-! ## One call -/

/-- The state when all of `total` counts are accounted for and `tsc_old` has not wrapped. -/
structure Kept (c : Config) (total : Nat) (s : TickState) : Prop where
  jiffies : s.jiffies = total / c.countsPerJiffy
  tscOld : s.tscOld = total / c.countsPerJiffy * c.countsPerJiffy
  counter : s.counter = total % (c.tscMax + 1)
  fits : total / c.countsPerJiffy < 2 ^ 32
  noWrap : total / c.countsPerJiffy * c.countsPerJiffy < c.tscMax
  rest : total % c.countsPerJiffy ≤ c.tscMax

theorem Kept.boot (c : Config) : Kept c 0 boot := by
  refine ⟨?_, ?_, ?_, ?_, ?_, ?_⟩ <;> simp [Tick.boot, tickUpdateTsc, c.tscMax_pos]

theorem total_add (c : Config) (total a : Nat) :
    total + a = total / c.countsPerJiffy * c.countsPerJiffy + pending c total a := by
  have h := Nat.div_add_mod' total c.countsPerJiffy
  rw [pending]
  omega

theorem total_add_div (c : Config) (total a : Nat) :
    (total + a) / c.countsPerJiffy = total / c.countsPerJiffy + pending c total a / c.countsPerJiffy := by
  rw [total_add c total a, Nat.add_comm, Nat.add_mul_div_right _ _ c.countsPerJiffy_pos, Nat.add_comm]

theorem total_add_mod (c : Config) (total a : Nat) :
    (total + a) % c.countsPerJiffy = pending c total a % c.countsPerJiffy := by
  rw [total_add c total a, Nat.add_comm, Nat.add_mul_mod_self_right]

theorem Kept.delta (h : Kept c total s) (a : Nat) :
    tickDeltaTsc c s.tscOld (advance c a s).counter = seen c (pending c total a) := by
  have hold := h.noWrap
  have hnew : (advance c a s).counter =
      (total / c.countsPerJiffy * c.countsPerJiffy + pending c total a) % (c.tscMax + 1) := by
    rw [← total_add]
    show (s.counter + a) % (c.tscMax + 1) = _
    rw [h.counter, Nat.mod_add_mod]
  rw [h.tscOld, tickDeltaTsc_eq hold.le, hnew, seen]
  generalize total / c.countsPerJiffy * c.countsPerJiffy = b at hold
  generalize pending c total a = d
  have hm := mod_period_lt c d
  have hmod : (b + d) % (c.tscMax + 1) =
      if b + d % (c.tscMax + 1) ≤ c.tscMax then b + d % (c.tscMax + 1)
      else b + d % (c.tscMax + 1) - (c.tscMax + 1) := by
    rw [← Nat.add_mod_mod]
    split_ifs with hle
    · exact Nat.mod_eq_of_lt (by omega)
    · rw [Nat.mod_eq_sub_mod (by omega), Nat.mod_eq_of_lt (by omega)]
  have hlt := c.tscMax_lt_bits
  rw [hmod]
  by_cases h0 : d % (c.tscMax + 1) = 0
  · rw [h0, if_pos rfl, if_pos (by omega : b + 0 ≤ c.tscMax), if_neg (by omega),
      show c.tscMax - b + (b + 0) + 1 = c.tscMax + 1 by omega]
  · rw [if_neg h0]
    by_cases hle : b + d % (c.tscMax + 1) ≤ c.tscMax
    · rw [if_pos hle, if_pos (by omega)]
      omega
    · rw [if_neg hle, if_neg (by omega), Nat.mod_eq_of_lt (by omega)]
      omega

/-- The jiffies a call adds. -/
def newTicks (c : Config) (total a : Nat) : Nat := seen c (pending c total a) / c.countsPerJiffy % 2 ^ 32

theorem newTicks_mul_le (c : Config) (total a : Nat) :
    newTicks c total a * c.countsPerJiffy ≤ seen c (pending c total a) := by
  calc newTicks c total a * c.countsPerJiffy
      ≤ seen c (pending c total a) / c.countsPerJiffy * c.countsPerJiffy :=
        Nat.mul_le_mul_right _ (Nat.mod_le _ _)
    _ ≤ seen c (pending c total a) := Nat.div_mul_le_self _ _

/-- The state after the next call. -/
theorem Kept.call_eq (h : Kept c total s) (a : Nat) :
    Tick.call c s a =
      if newTicks c total a = 0 then advance c a s
      else
        ⟨(total / c.countsPerJiffy + newTicks c total a) % 2 ^ 32,
          if total / c.countsPerJiffy * c.countsPerJiffy + newTicks c total a * c.countsPerJiffy < c.tscMax then
            total / c.countsPerJiffy * c.countsPerJiffy + newTicks c total a * c.countsPerJiffy
          else
            total / c.countsPerJiffy * c.countsPerJiffy + newTicks c total a * c.countsPerJiffy - c.tscMax,
          (advance c a s).counter⟩ := by
  have hseen := seen_lt c (pending c total a)
  have hle := newTicks_mul_le c total a
  have hticks : newTicks c total a < 2 ^ c.bits := by
    have := Nat.le_mul_of_pos_right (newTicks c total a) c.countsPerJiffy_pos
    exact lt_of_le_of_lt (this.trans hle) hseen
  have ht : c.tscDiv (tickDeltaTsc c (advance c a s).tscOld (advance c a s).counter) c.countsPerJiffy % 2 ^ 32 =
      newTicks c total a := by
    show c.tscDiv (tickDeltaTsc c s.tscOld _) _ % 2 ^ 32 = _
    rw [h.delta, Config.tscDiv_eq hseen, newTicks]
  show tickHandler c (advance c a s) = _
  unfold tickHandler
  simp only [ht]
  by_cases h0 : newTicks c total a = 0
  · rw [if_neg (not_not.mpr h0), if_pos h0]
  · rw [if_pos h0, if_neg h0]
    show TickState.mk ((s.jiffies + newTicks c total a) % 2 ^ 32)
      (tickTickedTsc c s.tscOld (c.toCount (c.tscMul (newTicks c total a) c.countsPerJiffy))) _ = _
    rw [Config.tscMul_eq hticks, Config.toCount_of_lt (by omega), h.jiffies, h.tscOld,
      tickTickedTsc_eq h.noWrap.le (by omega)]

theorem Kept.counter_advance (h : Kept c total s) (a : Nat) :
    (advance c a s).counter = (total + a) % (c.tscMax + 1) := by
  show (s.counter + a) % (c.tscMax + 1) = _
  rw [h.counter, Nat.mod_add_mod]

/-- A measured call sees the pending counts, or none. -/
theorem Measured.newTicks_eq (h : Measured c total a) :
    newTicks c total a = pending c total a / c.countsPerJiffy := by
  have hj := h.jiffies
  rw [total_add_div] at hj
  rcases Nat.eq_zero_or_pos (pending c total a) with h0 | hpos
  · rw [newTicks, h0, seen_zero, Nat.zero_div]
    rcases h.still h0 with hb | hb
    · rw [hb, Nat.mod_self, Nat.zero_div, Nat.zero_mod]
    · rcases Nat.lt_or_ge (c.tscMax + 1) (2 ^ c.bits) with hlt | hge
      · rw [Nat.mod_eq_of_lt hlt, hb]
      · have := c.tscMax_lt_bits
        rw [show c.tscMax + 1 = 2 ^ c.bits by omega, Nat.mod_self, Nat.zero_div, Nat.zero_mod]
  · have hs : seen c (pending c total a) = pending c total a := by
      rcases h.period with hle | ⟨he, hlt, -⟩
      · exact seen_of_le hpos hle
      · rw [he]
        exact seen_period hlt
    rw [newTicks, hs]
    exact Nat.mod_eq_of_lt (lt_of_le_of_lt (Nat.le_add_left _ _) hj)

theorem Kept.call (h : Kept c total s) (hm : Measured c total a) : Kept c (total + a) (Tick.call c s a) := by
  have hrest : (total + a) % c.countsPerJiffy ≤ c.tscMax := by
    rw [total_add_mod]
    rcases hm.period with hle | ⟨-, -, hle⟩
    · exact (Nat.mod_le _ _).trans hle
    · have := Nat.mod_lt (pending c total a) c.countsPerJiffy_pos
      change _ < c.countsPerJiffy at this
      omega
  have hjif := hm.jiffies
  have hwrap := hm.noWrap
  rw [h.call_eq, hm.newTicks_eq]
  split_ifs with h0 hlt
  · have hdiv : (total + a) / c.countsPerJiffy = total / c.countsPerJiffy := by
      rw [total_add_div, h0, Nat.add_zero]
    exact ⟨h.jiffies.trans hdiv.symm, by rw [hdiv]; exact h.tscOld, h.counter_advance a, hjif, hwrap, hrest⟩
  · rw [total_add_div] at hjif hwrap
    refine ⟨?_, ?_, h.counter_advance a, hm.jiffies, hm.noWrap, hrest⟩
    · show (_ + _) % 2 ^ 32 = _
      rw [total_add_div, Nat.mod_eq_of_lt hjif]
    · show _ + _ = _
      rw [total_add_div, Nat.add_mul]
  · rw [total_add_div, Nat.add_mul] at hwrap
    exact absurd hwrap hlt

/-- The distance after a call, by the counts since the start. -/
theorem distance_eq (hc : s.counter = total % (c.tscMax + 1)) :
    distance c s = ((total : Int) - s.tscOld) % (c.tscMax + 1) := by
  rw [distance, hc, Int.natCast_emod]
  push_cast
  rw [Int.emod_sub_emod]

theorem Kept.accounts (h : Kept c total s) : Accounts c total s := by
  have hdm := Nat.div_add_mod' total c.countsPerJiffy
  have hlt : total % c.countsPerJiffy < c.countsPerJiffy := Nat.mod_lt _ c.countsPerJiffy_pos
  have hrest := h.rest
  have hd : distance c s = (total % c.countsPerJiffy : Nat) := by
    rw [distance_eq h.counter, h.tscOld,
      show (total : Int) - (total / c.countsPerJiffy * c.countsPerJiffy : Nat) = (total % c.countsPerJiffy : Nat) by omega]
    exact Int.emod_eq_of_lt (by omega) (by omega)
  refine ⟨?_, by rw [hd]; exact_mod_cast hlt⟩
  rw [hd, h.jiffies]
  exact_mod_cast hdm

/-- The distance after a call that ticked, when `tsc_old` was set `w` short of the last jiffy. -/
theorem Kept.distance_ticked (h : Kept c total s) (h0 : newTicks c total a ≠ 0) {j old : Nat} {w : Int}
    (hold : (old : Int) =
      (total / c.countsPerJiffy * c.countsPerJiffy : Nat) + (newTicks c total a * c.countsPerJiffy : Nat) - w) :
    distance c ⟨j, old, (advance c a s).counter⟩ =
      ((seen c (pending c total a) : Int) - (newTicks c total a * c.countsPerJiffy : Nat) + w) % (c.tscMax + 1) := by
  have hne : seen c (pending c total a) ≠ 0 := by
    intro hz
    rw [newTicks, hz, Nat.zero_div, Nat.zero_mod] at h0
    exact h0 rfl
  have hd := distance_eq (s := ⟨j, old, (advance c a s).counter⟩) (h.counter_advance a)
  rw [hd, hold, total_add c total a,
    show (((total / c.countsPerJiffy * c.countsPerJiffy + pending c total a : Nat) : Int) -
        ((total / c.countsPerJiffy * c.countsPerJiffy : Nat) + (newTicks c total a * c.countsPerJiffy : Nat) - w)) =
      (pending c total a : Int) - ((newTicks c total a * c.countsPerJiffy : Nat) - w) by omega,
    show ((seen c (pending c total a) : Int) - (newTicks c total a * c.countsPerJiffy : Nat) + w) =
      (seen c (pending c total a) : Int) - ((newTicks c total a * c.countsPerJiffy : Nat) - w) by omega,
    ← Int.emod_sub_emod, ← seen_emod c hne, Int.emod_sub_emod]

/-- A call without a tick leaves `tsc_old`, so the pending counts are to be the distance. -/
theorem measured_of_idle (h : Kept c total s) (h0 : newTicks c total a = 0)
    (hacc : Accounts c (total + a) (advance c a s)) : Measured c total a := by
  obtain ⟨htot, hdist⟩ := hacc
  have hadd := total_add c total a
  have hd : distance c (advance c a s) = (pending c total a : Int) % (c.tscMax + 1) := by
    rw [distance_eq (h.counter_advance a)]
    show ((total + a : Nat) - (s.tscOld : Int)) % _ = _
    rw [h.tscOld, hadd]
    congr 1
    omega
  have hj : (advance c a s).jiffies = total / c.countsPerJiffy := h.jiffies
  rw [hd, hj] at htot
  rw [hd] at hdist
  have hlt := Int.emod_lt_of_pos (pending c total a : Int) (by omega : (0 : Int) < c.tscMax + 1)
  have hb : ((total / c.countsPerJiffy * c.countsPerJiffy : Nat) : Int) =
    (total / c.countsPerJiffy : Nat) * (c.countsPerJiffy : Nat) := by push_cast; rfl
  have hp : (pending c total a : Int) % (c.tscMax + 1) = pending c total a := by omega
  rw [hp] at hdist hlt
  have hdiv : (total + a) / c.countsPerJiffy = total / c.countsPerJiffy := by
    rw [total_add_div, Nat.div_eq_of_lt (Int.ofNat_lt.mp hdist), Nat.add_zero]
  refine ⟨hdiv ▸ h.fits, hdiv ▸ h.noWrap, fun hz => ?_, .inl (by omega)⟩
  rw [newTicks, hz, seen_zero] at h0
  rcases Nat.lt_or_ge (c.tscMax + 1) (2 ^ c.bits) with hbit | hbit
  · rw [Nat.mod_eq_of_lt hbit] at h0
    exact .inr h0
  · have := c.tscMax_lt_bits
    exact .inl (by omega)

/-- A call with ticks has not wrapped `tsc_old`, and what it saw are the pending counts. -/
theorem measured_of_ticked (h : Kept c total s) (h0 : newTicks c total a ≠ 0) {old : Nat}
    (hold : old =
      if total / c.countsPerJiffy * c.countsPerJiffy + newTicks c total a * c.countsPerJiffy < c.tscMax then
        total / c.countsPerJiffy * c.countsPerJiffy + newTicks c total a * c.countsPerJiffy
      else
        total / c.countsPerJiffy * c.countsPerJiffy + newTicks c total a * c.countsPerJiffy - c.tscMax)
    (hacc : Accounts c (total + a)
      ⟨(total / c.countsPerJiffy + newTicks c total a) % 2 ^ 32, old, (advance c a s).counter⟩) :
    Measured c total a := by
  obtain ⟨htot, hdist⟩ := hacc
  have hfits := h.fits
  have hmax := c.tscMax_pos
  have hadd := total_add c total a
  have hle := seen_le c (pending c total a)
  have hmul := newTicks_mul_le c total a
  have hpos : 0 < newTicks c total a * c.countsPerJiffy := Nat.mul_pos (Nat.pos_of_ne_zero h0) c.countsPerJiffy_pos
  have h32 : newTicks c total a < 2 ^ 32 := Nat.mod_lt _ (by decide)
  have hticks : newTicks c total a * c.countsPerJiffy ≤ (2 ^ 32 - 1) * c.countsPerJiffy :=
    Nat.mul_le_mul_right _ (by omega)
  -- the sum of the jiffies fits, since otherwise the distance would be a jiffy or more
  have hsum : total / c.countsPerJiffy + newTicks c total a < 2 ^ 32 := by
    by_contra hge
    have hmod : (total / c.countsPerJiffy + newTicks c total a) % 2 ^ 32 + 2 ^ 32 =
        total / c.countsPerJiffy + newTicks c total a := by omega
    have hprod := congrArg (· * c.countsPerJiffy) hmod
    simp only [Nat.add_mul] at hprod
    have hcast : (((total / c.countsPerJiffy + newTicks c total a) % 2 ^ 32 * c.countsPerJiffy : Nat) : Int) =
      ((total / c.countsPerJiffy + newTicks c total a) % 2 ^ 32 : Nat) * (c.countsPerJiffy : Nat) := by push_cast; rfl
    change ((total / c.countsPerJiffy + newTicks c total a) % 2 ^ 32 : Nat) * (c.countsPerJiffy : Int) + _ = _ at htot
    omega
  have hdist_eq : distance c ⟨(total / c.countsPerJiffy + newTicks c total a) % 2 ^ 32, old,
      (advance c a s).counter⟩ = pending c total a - (newTicks c total a * c.countsPerJiffy : Nat) := by
    have hcast : (((total / c.countsPerJiffy + newTicks c total a) * c.countsPerJiffy : Nat) : Int) =
      (total / c.countsPerJiffy + newTicks c total a : Nat) * (c.countsPerJiffy : Nat) := by push_cast; rfl
    rw [Nat.add_mul] at hcast
    change ((total / c.countsPerJiffy + newTicks c total a) % 2 ^ 32 : Nat) * (c.countsPerJiffy : Int) + _ = _ at htot
    rw [Nat.mod_eq_of_lt hsum] at htot ⊢
    omega
  have hcases := seen_cases c (pending c total a)
  have hlt : total / c.countsPerJiffy * c.countsPerJiffy + newTicks c total a * c.countsPerJiffy < c.tscMax ∧
      seen c (pending c total a) = pending c total a := by
    by_cases hlt : total / c.countsPerJiffy * c.countsPerJiffy + newTicks c total a * c.countsPerJiffy < c.tscMax
    · rw [if_pos hlt] at hold
      rw [h.distance_ticked h0 (w := 0) (by omega), Int.add_zero, Int.emod_eq_of_lt (by omega) (by omega)] at hdist_eq
      exact ⟨hlt, by omega⟩
    · -- one count is lost where `tsc_old` wraps
      rw [if_neg hlt] at hold
      rw [h.distance_ticked h0 (w := c.tscMax) (by omega)] at hdist_eq
      rcases Nat.eq_or_lt_of_le hmul with he | hgt
      · rw [he, Int.sub_self, Int.zero_add, Int.emod_eq_of_lt (by omega) (by omega)] at hdist_eq
        omega
      · rw [← Int.sub_emod_right, Int.emod_eq_of_lt (by omega) (by omega)] at hdist_eq
        omega
  obtain ⟨hwrap, hs⟩ := hlt
  rw [hdist_eq] at hdist
  rw [hs] at hmul hcases
  have hdiv : pending c total a / c.countsPerJiffy = newTicks c total a :=
    Nat.div_eq_of_lt_le hmul (by rw [Nat.add_mul, Nat.one_mul]; omega)
  refine ⟨?_, ?_, fun hz => absurd hz (by omega), ?_⟩
  · rw [total_add_div, hdiv]
    exact hsum
  · rw [total_add_div, hdiv, Nat.add_mul]
    exact hwrap
  · have hk : c.countsPerJiffy ≤ newTicks c total a * c.countsPerJiffy :=
      Nat.le_mul_of_pos_left _ (Nat.pos_of_ne_zero h0)
    omega

/-- Only a measured call accounts for all counts. -/
theorem measured_of_accounts (h : Kept c total s) (hacc : Accounts c (total + a) (Tick.call c s a)) :
    Measured c total a := by
  rw [h.call_eq] at hacc
  by_cases h0 : newTicks c total a = 0
  · rw [if_pos h0] at hacc
    exact measured_of_idle h h0 hacc
  · rw [if_neg h0] at hacc
    exact measured_of_ticked h h0 rfl hacc

/-! ## Runs -/

theorem run_concat (c : Config) (p : List Nat) (a : Nat) : run c (p ++ [a]) = Tick.call c (run c p) a := by
  rw [run, List.foldl_append]
  rfl

theorem eachMeasured_nil (c : Config) : EachMeasured c [] := fun p a hpre =>
  absurd (List.prefix_nil.mp hpre) (List.append_ne_nil_of_right_ne_nil p (List.cons_ne_nil a []))

theorem eachMeasured_concat {as : List Nat} :
    EachMeasured c (as ++ [a]) ↔ EachMeasured c as ∧ Measured c as.sum a := by
  constructor
  · intro h
    exact ⟨fun p b hpre => h p b (hpre.trans (List.prefix_append as [a])), h as a List.prefix_rfl⟩
  · intro ⟨has, hm⟩ p b hpre
    rcases List.prefix_concat_iff.mp hpre with he | hshort
    · obtain ⟨rfl, hb⟩ := List.append_inj' he rfl
      obtain rfl : b = a := by simpa using hb
      exact hm
    · exact has p b hshort

/-- Every call of a measured run leaves the counts accounted for. -/
theorem kept_run {as : List Nat} (h : EachMeasured c as) : Kept c as.sum (run c as) := by
  induction as using List.reverseRecOn with
  | nil => exact Kept.boot c
  | append_singleton p a ih =>
    obtain ⟨hp, hm⟩ := eachMeasured_concat.mp h
    rw [run_concat, List.sum_append, List.sum_singleton]
    exact (ih hp).call hm

theorem eachMeasured_of_neverDrifts {as : List Nat} (h : NeverDrifts c as) : EachMeasured c as := by
  induction as using List.reverseRecOn with
  | nil => exact eachMeasured_nil c
  | append_singleton as a ih =>
    have hm := ih fun p hpre => h p (hpre.trans (List.prefix_append as [a]))
    have hacc := h _ List.prefix_rfl
    rw [run_concat, List.sum_append, List.sum_singleton] at hacc
    exact eachMeasured_concat.mpr ⟨hm, measured_of_accounts (kept_run hm) hacc⟩

/-- The jiffies account for every count exactly in the runs whose calls are all measured: as long
as `tsc_old` has not come to `TSC_MAX`, no sample is equal to `tsc_old` without a pending count,
and at most one period is pending. The counter may advance by any amount in between. -/
theorem never_drifts_iff (c : Config) (as : List Nat) : NeverDrifts c as ↔ EachMeasured c as := by
  constructor
  · exact eachMeasured_of_neverDrifts
  · intro h p hpre
    exact (kept_run fun p' a hp => h p' a (hp.trans hpre)).accounts

/-- The counter of `mach-at90usb1287` at 8 MHz. -/
def at90usb1287 : Config where
  tscMax := 65535
  tscFreq := 8000
  maxBits := none
  tscMax_pos := by decide
  tscMax_lt := by decide
  tscFreq_pos := by decide
  tscFreq_lt := by decide
  maxBits_ge := by simp

/-- Two calls before the counter wraps around. -/
theorem never_drifts_first_period : NeverDrifts at90usb1287 [40000, 25000] := by
  have hfirst : EachMeasured at90usb1287 ([] ++ [40000]) :=
    eachMeasured_concat.mpr ⟨eachMeasured_nil _, by decide, by decide, by decide, by decide⟩
  have hsecond : EachMeasured at90usb1287 ([40000] ++ [25000]) :=
    eachMeasured_concat.mpr ⟨hfirst, by decide, by decide, by decide, by decide⟩
  exact (never_drifts_iff _ _).mpr hsecond

/-- At 80000 counts `tsc_old` has wrapped around to 14465, one count ahead of the counter. -/
theorem drifts_after_wrap : ¬ NeverDrifts at90usb1287 [40000, 40000] := by
  intro h
  have hacc := h [40000, 40000] List.prefix_rfl
  revert hacc
  decide

end Sdfirm.Tick
