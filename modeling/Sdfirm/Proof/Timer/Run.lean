import Sdfirm.Proof.Timer.Order

/-!
# Runs of the timers

`Inv` relates the remaining times to what the log asks for: a timer that is
armed is not due before its remaining time, counted from the last update
(`Waits`), and one that is idle in `timer_orders` is due (`Expired`).
`Regular` steps keep it (`step_inv`, `Run.inv`), and so no handler runs early.
-/

namespace Sdfirm.Timer

variable {c : Config} {s s' : TimerState} {timers l : List Nat} {tid t last : Nat} {x span : Int} {handlers : List Handler}
  {type : TimerType}

/-! ## `timeout_t` -/

theorem Config.pow_bits (c : Config) : (2 : Int) ^ (c.bits - 1) = 2 * 2 ^ (c.bits - 2) ∧ (1 : Int) < 2 ^ (c.bits - 2) := by
  rcases c.bits_cases with h | h | h <;> rw [h] <;> norm_num

theorem Config.toTimeout_eq (h1 : -2 ^ (c.bits - 1) ≤ x) (h2 : x < 2 ^ (c.bits - 1)) : c.toTimeout x = x := by
  unfold Config.toTimeout
  rcases c.bits_cases with h | h | h <;> rw [h] at h1 h2 ⊢ <;> norm_num at h1 h2 <;>
    exact Int.bmod_eq_of_le (by omega) (by omega)

/-- A time of less than `2 ^ (bits - 2)` is kept by its encoding. -/
theorem Config.timerMake_eq (h1 : 0 ≤ x) (h2 : x < 2 ^ (c.bits - 2)) : c.timerMake x = 2 * x + 1 := by
  have hp := c.pow_bits
  have hx : c.toTimeout x = x := Config.toTimeout_eq (by omega) (by omega)
  rw [Config.timerMake, hx, Config.toTimeout_eq (by omega) (by omega)]

theorem timerShot_make (h1 : 0 ≤ x) (h2 : x < 2 ^ (c.bits - 2)) : TimerShot (c.timerMake x) := by
  rw [Config.timerMake_eq h1 h2, TimerShot]
  omega

theorem timerTime_make (h1 : 0 ≤ x) (h2 : x < 2 ^ (c.bits - 2)) : timerTime (c.timerMake x) = x := by
  rw [Config.timerMake_eq h1 h2, timerTime]
  omega

theorem not_timerShot_idle : ¬ TimerShot timerIdle := by decide

theorem recalcSpan_bounds (c : Config) (s : TimerState) : 0 ≤ recalcSpan c false s ∧ recalcSpan c false s < 2 ^ (c.bits - 1) := by
  have hp := c.pow_bits
  have hlt (d : Int) : c.toTimeout d < 2 ^ (c.bits - 1) := by
    unfold Config.toTimeout
    rcases c.bits_cases with h | h | h <;> rw [h] <;> norm_num <;> rw [Int.bmod_def] <;> split <;> omega
  have hd := hlt (((s.tick : Int) - s.lastTick) % 2 ^ 32)
  simp only [recalcSpan, Bool.false_eq_true, if_false]
  split <;> omega

/-- Time measured by the tick counter is not more than has passed. -/
theorem recalcSpan_le (h1 : s.lastTick = last % 2 ^ 32) (h2 : last ≤ s.now) : recalcSpan c false s ≤ s.now - last := by
  obtain ⟨d, hd⟩ : ∃ d, d = ((s.tick : Int) - s.lastTick) % 2 ^ 32 := ⟨_, rfl⟩
  have hd0 : 0 ≤ d := hd ▸ Int.emod_nonneg _ (by norm_num)
  have hdle : d ≤ s.now - last := by
    rw [hd, TimerState.tick, h1]
    omega
  have hle : c.toTimeout d ≤ d := by
    unfold Config.toTimeout
    rcases c.bits_cases with h | h | h <;> rw [h] <;> norm_num <;> rw [Int.bmod_def] <;> split <;> omega
  simp only [recalcSpan, Bool.false_eq_true, if_false, ← hd]
  split <;> omega

/-! ## `timer_shot_timeout` -/

/-- The period that is started and the rest of the time make up at least the time asked for. -/
theorem timerShotTimeout_spec (h1 : 0 ≤ x) (h2 : x < 2 ^ (c.bits - 1)) :
    ∃ e u : Int, timerShotTimeout c s x = { s with unshotTimeout := u, gpt := some e } ∧
      0 ≤ u ∧ u < 2 ^ (c.bits - 1) ∧ s.now + x ≤ e + u := by
  have hp := c.pow_bits
  unfold timerShotTimeout
  split
  · refine ⟨_, 0, rfl, le_rfl, by omega, ?_⟩
    split <;> omega
  · rename_i hbelow
    have hge : (c.gptMax : Int) ≤ x := by
      unfold Config.BelowGptMax at hbelow
      cases hb : c.gptBits with
      | none =>
        rw [hb] at hbelow
        simpa using hbelow
      | some b =>
        rw [hb] at hbelow
        have hpow : (2 : Int) ^ (c.bits - 1) ≤ 2 ^ b :=
          pow_le_pow_right₀ (by norm_num) (by have := c.gptBits_ge b hb; omega)
        have hx : x % 2 ^ b = x := Int.emod_eq_of_lt h1 (by omega)
        simpa [hx] using hbelow
    refine ⟨_, _, rfl, ?_, ?_, ?_⟩ <;> rw [Config.toTimeout_eq (by omega) (by omega)]
    · omega
    · omega
    · rw [Config.toTimeout_eq (by omega) (by omega)]
      omega

/-! ## The loops over the timers -/

/-- The remaining time of an armed timer. -/
def InRange (c : Config) (timeout : Int) : Prop :=
  TimerShot timeout ∧ 1 ≤ timerTime timeout ∧ timerTime timeout < 2 ^ (c.bits - 2)

theorem inRange_make (h1 : 1 ≤ x) (h2 : x < 2 ^ (c.bits - 2)) : InRange c (c.timerMake x) := by
  refine ⟨timerShot_make (by omega) h2, ?_⟩
  rw [timerTime_make (by omega) h2]
  exact ⟨h1, h2⟩

/-- The remaining time after `span`, of which 1 is left in any case. -/
def timeAfter (span : Int) (timeout : Int) : Int := max 1 (timerTime timeout - span)

theorem timeAfter_bounds (h0 : 0 ≤ span) (h : InRange c x) : 1 ≤ timeAfter span x ∧ timeAfter span x < 2 ^ (c.bits - 2) := by
  obtain ⟨-, h1, h2⟩ := h
  unfold timeAfter
  omega

/-- The time left of `timeout` after `__timer_recalc_timeout`. -/
def timeLeft (shot : Bool) (span : Int) (timeout : Int) : Int :=
  if shot then timerTime timeout - span else timeAfter span timeout

/-- A time from which the span can be taken. -/
structure Spans (c : Config) (shot : Bool) (span timeout : Int) : Prop where
  nonneg : 0 ≤ timerTime timeout
  lt : timerTime timeout < 2 ^ (c.bits - 2)
  le : shot = true → span ≤ timerTime timeout

theorem Spans.timeLeft_bounds {shot : Bool} (h0 : 0 ≤ span) (h : Spans c shot span x) :
    0 ≤ timeLeft shot span x ∧ timeLeft shot span x < 2 ^ (c.bits - 2) := by
  have hp := c.pow_bits
  obtain ⟨h1, h2, h3⟩ := h
  unfold timeLeft
  split
  · rename_i hshot
    have := h3 hshot
    omega
  · unfold timeAfter
    omega

theorem InRange.spans (h : InRange c x) : Spans c false span x := ⟨by have := h.2.1; omega, h.2.2, fun he => (by cases he)⟩

theorem recalcTimer_armed {shot : Bool} (h0 : 0 ≤ span) (h1 : span < 2 ^ (c.bits - 1)) (hshot : TimerShot (s.timeouts t))
    (h : Spans c shot span (s.timeouts t)) :
    recalcTimer c shot span s t =
      { s with timeouts := Function.update s.timeouts t (c.timerMake (timeLeft shot span (s.timeouts t))),
               timeout := if TimerShot s.timeout then s.timeout else c.timerMake (timeLeft shot span (s.timeouts t)) } := by
  have hp := c.pow_bits
  obtain ⟨h2, h3, -⟩ := h
  have htime : (if (!shot) = true ∧ c.toTimeout (timerTime (s.timeouts t) - span) ≤ 0 then 1
      else c.toTimeout (timerTime (s.timeouts t) - span)) = timeLeft shot span (s.timeouts t) := by
    rw [Config.toTimeout_eq (by omega) (by omega), timeLeft, timeAfter]
    cases shot with
    | false =>
      simp only [Bool.not_false, true_and, Bool.false_eq_true, if_false]
      split <;> omega
    | true => simp
  simp only [recalcTimer, if_pos hshot, htime]

/-- `__timer_recalc_timeout` over the timers `l`. The period becomes the first time that is left,
if it is not set yet. -/
theorem recalcTimer_foldl {shot : Bool} (h0 : 0 ≤ span) (h1 : span < 2 ^ (c.bits - 1)) (hnd : l.Nodup)
    (h : ∀ t ∈ l, TimerShot (s.timeouts t) → Spans c shot span (s.timeouts t)) :
    ∃ timeouts timeout, l.foldl (recalcTimer c shot span) s = { s with timeouts := timeouts, timeout := timeout } ∧
      (∀ t, timeouts t = if t ∈ l ∧ TimerShot (s.timeouts t) then c.timerMake (timeLeft shot span (s.timeouts t))
        else s.timeouts t) ∧
      timeout = if TimerShot s.timeout then s.timeout
        else (l.find? fun t => TimerShot (s.timeouts t)).elim s.timeout timeouts := by
  induction l generalizing s with
  | nil => exact ⟨s.timeouts, s.timeout, rfl, by simp, by simp⟩
  | cons t l ih =>
    obtain ⟨hnot, hnd⟩ := List.nodup_cons.1 hnd
    by_cases hshot : TimerShot (s.timeouts t)
    · have hin := h t List.mem_cons_self hshot
      have hb := hin.timeLeft_bounds h0
      have hother : ∀ t' ∈ l, Function.update s.timeouts t (c.timerMake (timeLeft shot span (s.timeouts t))) t' = s.timeouts t' :=
        fun t' ht' => Function.update_of_ne (fun e => hnot (by rwa [e] at ht')) _ _
      rw [List.foldl_cons, recalcTimer_armed h0 h1 hshot hin]
      obtain ⟨timeouts, timeout, he, h2, h3⟩ := ih (s := { s with
          timeouts := Function.update s.timeouts t (c.timerMake (timeLeft shot span (s.timeouts t))),
          timeout := if TimerShot s.timeout then s.timeout else c.timerMake (timeLeft shot span (s.timeouts t)) })
        hnd (fun t' ht' => by
          simp only [hother t' ht']
          exact h t' (List.mem_cons_of_mem _ ht'))
      have hnew : timeouts t = c.timerMake (timeLeft shot span (s.timeouts t)) := by
        rw [h2 t, if_neg fun hm => hnot hm.1]
        exact Function.update_self ..
      refine ⟨timeouts, timeout, he, fun t' => ?_, ?_⟩
      · by_cases ht' : t' = t
        · subst ht'
          simp [hnew, hshot]
        · simp [h2 t', ht']
      · -- the period is set from here on
        have hset : TimerShot (if TimerShot s.timeout then s.timeout else c.timerMake (timeLeft shot span (s.timeouts t))) := by
          split
          · assumption
          · exact timerShot_make hb.1 hb.2
        rw [h3, if_pos hset, List.find?_cons_of_pos (by simpa using hshot), Option.elim_some, hnew]
    · rw [List.foldl_cons, recalcTimer, if_neg hshot]
      obtain ⟨timeouts, timeout, he, h2, h3⟩ := ih hnd (fun t' ht' => h t' (List.mem_cons_of_mem _ ht'))
      refine ⟨timeouts, timeout, he, fun t' => ?_, ?_⟩
      · rw [h2 t']
        by_cases ht' : t' = t
        · subst ht'
          simp [hshot]
        · simp [ht']
      · rw [h3, List.find?_cons_of_neg (by simpa using hshot)]

/-- `timer_recalc_timeout` when no timer is armed. -/
theorem timerRecalcTimeout_idle (shot : Bool) (h : ∀ t ∈ pending c s.orders, ¬ TimerShot (s.timeouts t)) :
    timerRecalcTimeout c shot s = { s with lastTick := s.tick, timeout := timerIdle } := by
  have hfold : ∀ (l : List Nat) (span : Int) (s : TimerState), (∀ t ∈ l, ¬ TimerShot (s.timeouts t)) →
      l.foldl (recalcTimer c shot span) s = s := by
    intro l span s hl
    induction l with
    | nil => rfl
    | cons t l ih =>
      rw [List.foldl_cons, recalcTimer, if_neg (hl t List.mem_cons_self)]
      exact ih fun t' ht' => hl t' (List.mem_cons_of_mem _ ht')
  rw [timerRecalcTimeout, timerRecalc, hfold _ _ { s with lastTick := s.tick, timeout := timerIdle } h, timerRestart,
    if_neg not_timerShot_idle]

/-- The body of the loop of `timer_irq_timeout` for a timer whose time has passed. -/
theorem irqTimer_spec {tout : Int} {f : IrqScan} (h : TimerShot (f.state.timeouts t) → timerTime (f.state.timeouts t) ≤ tout) :
    ∃ timeouts b, (irqTimer c tout f t).state = { f.state with timeouts := timeouts, bhAwake := b } ∧
      ∀ t', timeouts t' = if t' = t ∧ TimerShot (f.state.timeouts t') then timerIdle else f.state.timeouts t' := by
  by_cases hshot : TimerShot (f.state.timeouts t)
  · refine ⟨Function.update f.state.timeouts t timerIdle, (irqTimer c tout f t).state.bhAwake, ?_, fun t' => ?_⟩
    · simp only [irqTimer, if_pos hshot, if_pos (h hshot)]
      split <;> rfl
    · by_cases ht' : t' = t
      · subst ht'
        simp [hshot]
      · simp [ht']
  · refine ⟨f.state.timeouts, f.state.bhAwake, ?_, fun t' => ?_⟩
    · rw [irqTimer, if_neg hshot]
    · rw [if_neg]
      rintro ⟨rfl, h'⟩
      exact hshot h'

/-- That loop when the time of every armed timer has passed. -/
theorem irqTimer_foldl (tout : Int) {f : IrqScan}
    (h : ∀ t ∈ l, TimerShot (f.state.timeouts t) → timerTime (f.state.timeouts t) ≤ tout) :
    ∃ timeouts b, (l.foldl (irqTimer c tout) f).state = { f.state with timeouts := timeouts, bhAwake := b } ∧
      ∀ t, timeouts t = if t ∈ l ∧ TimerShot (f.state.timeouts t) then timerIdle else f.state.timeouts t := by
  induction l generalizing f with
  | nil => exact ⟨f.state.timeouts, f.state.bhAwake, rfl, by simp⟩
  | cons t l ih =>
    obtain ⟨timeouts, b, hstate, htimeouts⟩ := irqTimer_spec (c := c) (h t List.mem_cons_self)
    have hstep : ∀ t', (irqTimer c tout f t).state.timeouts t' =
        if t' = t ∧ TimerShot (f.state.timeouts t') then timerIdle else f.state.timeouts t' := by
      intro t'
      rw [hstate]
      exact htimeouts t'
    obtain ⟨timeouts', b', he, h'⟩ := ih (f := irqTimer c tout f t) fun t' ht' hshot' => by
      rw [hstep t'] at hshot' ⊢
      split at hshot'
      · exact absurd hshot' not_timerShot_idle
      · rename_i hn
        rw [if_neg hn]
        exact h t' (List.mem_cons_of_mem _ ht') hshot'
    refine ⟨timeouts', b', ?_, fun t' => ?_⟩
    · rw [List.foldl_cons, he, hstate]
    · rw [h' t', hstep t']
      by_cases ht' : t' = t
      · subst ht'
        by_cases hshot : TimerShot (f.state.timeouts t') <;> simp [hshot, not_timerShot_idle]
      · simp [ht']

/-! ## The invariant -/

/-- An armed timer is not due before its remaining time, counted from the tick `last`. -/
structure Waits (c : Config) (timeouts : Nat → Int) (log : List Event) (last tid : Nat) : Prop where
  range : InRange c (timeouts tid)
  due : ∃ d, due tid log = some d ∧ d ≤ last + timerTime (timeouts tid)

/-- A timer that waits for its handler to be run is due. -/
structure Expired (timeouts : Nat → Int) (log : List Event) (now tid : Nat) : Prop where
  idle : timeouts tid = timerIdle
  due : ∃ d, due tid log = some d ∧ d ≤ now

/-- `timers` are the timers of `timer_orders`, and `last` is the tick of the last update of the
remaining times. -/
structure Inv (c : Config) (s : TimerState) (timers : List Nat) (last : Nat) : Prop where
  holds : Holds c s.orders timers
  last_le : last ≤ s.now
  last_eq : s.lastTick = last % 2 ^ 32
  timer : ∀ t ∈ timers, Waits c s.timeouts s.log last t ∨ Expired s.timeouts s.log s.now t
  unshot : 0 ≤ s.unshotTimeout ∧ s.unshotTimeout < 2 ^ (c.bits - 1)
  gpt : ∀ e ∈ s.gpt, (∃ t ∈ timers, TimerShot (s.timeouts t)) → last + timerTime s.timeout ≤ e + s.unshotTimeout
  never : NeverEarly s.log

theorem Inv.armed_eq (h : Inv c s timers last) (ht : t ∈ timers) (hshot : TimerShot (s.timeouts t)) : t ∈ armed c s := by
  rw [armed, h.holds.pending_eq]
  exact List.mem_filter.2 ⟨ht, by simpa using hshot⟩

theorem Inv.waits (h : Inv c s timers last) (ht : t ∈ timers) (hshot : TimerShot (s.timeouts t)) :
    Waits c s.timeouts s.log last t := by
  refine (h.timer t ht).resolve_right fun he => ?_
  rw [he.idle] at hshot
  exact not_timerShot_idle hshot

/-! ## Scheduling -/

/-- `timer_restart` of a time in range. -/
theorem timerRestart_spec (h : InRange c s.timeout) :
    ∃ e u : Int, timerRestart c s = { s with unshotTimeout := u, gpt := some e } ∧
      0 ≤ u ∧ u < 2 ^ (c.bits - 1) ∧ s.now + timerTime s.timeout ≤ e + u := by
  have hp := c.pow_bits
  obtain ⟨h1, h2, h3⟩ := h
  rw [timerRestart, if_pos h1]
  exact timerShotTimeout_spec (by omega) (by omega)

/-- `timer_schedule_shot` succeeds, and keeps the invariant. No timer becomes idle. -/
theorem schedule_inv (h : Inv c s timers last) {tout : Int} (hok : CallOk c (tid, tout)) (hfit : TimeFits c (tid, tout)) :
    ∃ s' timers', timerScheduleShot c s tid tout = some s' ∧ Inv c s' timers' s.now ∧ s'.now = s.now ∧
      ∀ t ∈ timers', s'.timeouts t = timerIdle → t ∈ timers ∧ s.timeouts t = timerIdle := by
  obtain ⟨htid, -, hlt⟩ := hok
  change tid < c.nrTimers at htid
  change tout < 2 ^ (c.bits - 1) at hlt
  change tout < 2 ^ (c.bits - 2) at hfit
  have hp := c.pow_bits
  have hdel : Holds c (timerDel c tid s.orders) (timers.erase tid) := timerDel_holds h.holds
  obtain ⟨hs0, hs2⟩ := recalcSpan_bounds c s
  have hs1 := recalcSpan_le (c := c) h.last_eq h.last_le
  have hnd : (timers.erase tid).Nodup := h.holds.nodup.erase tid
  have hmem : ∀ t, t ∈ timers.erase tid ↔ t ≠ tid ∧ t ∈ timers := fun t => h.holds.nodup.mem_erase_iff
  -- the remaining times of the other timers
  obtain ⟨timeouts, timeout, hfold, htimeouts, htimeout⟩ := recalcTimer_foldl (c := c)
    (s := { s with log := .scheduled tid s.now tout :: s.log, orders := timerDel c tid s.orders,
                   lastTick := s.tick, timeout := timerIdle }) hs0 hs2 hnd
    fun t ht hshot => (h.waits ((hmem t).1 ht).2 hshot).range.spans
  have hrecalc : timerRecalc c false { s with log := .scheduled tid s.now tout :: s.log, orders := timerDel c tid s.orders } =
      { s with log := .scheduled tid s.now tout :: s.log, orders := timerDel c tid s.orders, lastTick := s.tick,
               timeouts := timeouts, timeout := timeout } := by
    rw [timerRecalc, hdel.pending_eq]
    exact hfold
  obtain ⟨tm, htm, htm1, htm2, htm3⟩ : ∃ tm, tm = (if tout ≤ 0 then 1 else tout) ∧ 1 ≤ tm ∧ tm < 2 ^ (c.bits - 2) ∧ tout ≤ tm := by
    refine ⟨_, rfl, ?_⟩
    split <;> omega
  have hmake := inRange_make htm1 htm2
  obtain ⟨orders, l, r, hlr, hadd, hholds, -⟩ :=
    timerAdd_holds (Function.update timeouts tid (c.timerMake tm)) hdel (fun hm => ((hmem tid).1 hm).1 rfl) htid
  have hmem' : ∀ t ∈ l ++ tid :: r, t = tid ∨ t ≠ tid ∧ t ∈ timers := by
    intro t ht
    have : t = tid ∨ t ∈ timers.erase tid := by
      rw [hlr]
      simp only [List.mem_append, List.mem_cons] at ht ⊢
      tauto
    rwa [hmem] at this
  obtain ⟨tout', hto, hrange⟩ : ∃ tout', tout' = (if ¬ TimerShot timeout ∨ tm < timerTime timeout then c.timerMake tm
      else timeout) ∧ InRange c tout' := by
    refine ⟨_, rfl, ?_⟩
    split
    · exact hmake
    · rename_i hno
      rw [if_neg not_timerShot_idle] at htimeout
      cases hfind : (timers.erase tid).find? fun t => TimerShot (s.timeouts t) with
      | none =>
        rw [hfind, Option.elim_none] at htimeout
        exact absurd (.inl (htimeout ▸ not_timerShot_idle)) hno
      | some t =>
        have ht := List.mem_of_find?_eq_some hfind
        have hshot : TimerShot (s.timeouts t) := by simpa using List.find?_some hfind
        obtain ⟨hb1, hb2⟩ := timeAfter_bounds hs0 (h.waits ((hmem t).1 ht).2 hshot).range
        rw [htimeout, hfind, Option.elim_some, htimeouts t, if_pos ⟨ht, hshot⟩]
        exact inRange_make hb1 hb2
  obtain ⟨e, u, hrestart, hu0, hu1, hge⟩ := timerRestart_spec (c := c)
    (s := { s with log := .scheduled tid s.now tout :: s.log, lastTick := s.tick, orders := orders,
                   timeouts := Function.update timeouts tid (c.timerMake tm), timeout := tout' }) hrange
  have htimeouts' : ∀ t, t ≠ tid → t ∈ timers → Function.update timeouts tid (c.timerMake tm) t =
      if TimerShot (s.timeouts t) then c.timerMake (timeAfter (recalcSpan c false s) (s.timeouts t)) else s.timeouts t := by
    intro t ht hm
    rw [Function.update_of_ne ht, htimeouts t]
    simp only [(hmem t).2 ⟨ht, hm⟩, true_and]
    rfl
  refine ⟨{ s with log := .scheduled tid s.now tout :: s.log, lastTick := s.tick, orders := orders,
                   timeouts := Function.update timeouts tid (c.timerMake tm), timeout := tout',
                   unshotTimeout := u, gpt := some e }, l ++ tid :: r, ?_, ?_, rfl, ?_⟩
  · have hmax : ¬ tout > c.maxTimeout := by
      unfold Config.maxTimeout
      omega
    simp only [timerScheduleShot, if_neg hmax, hrecalc, ← htm, hadd, Option.map_some, Function.update_self, ← hto, hrestart]
  · refine ⟨hholds, le_rfl, rfl, fun t ht => ?_, ⟨hu0, hu1⟩, fun e' he' _ => ?_, h.never⟩
    · rcases hmem' t ht with rfl | ⟨hne, hm⟩
      · refine .inl ⟨by simpa using hmake, s.now + tout, by simp [due], ?_⟩
        change _ ≤ (s.now : Int) + timerTime (Function.update timeouts t (c.timerMake tm) t)
        rw [Function.update_self, timerTime_make (by omega) htm2]
        omega
      · have hdue : due t (.scheduled tid s.now tout :: s.log) = due t s.log := by simp [due, hne.symm]
        rcases h.timer t hm with hw | he
        · obtain ⟨d, hd, hle⟩ := hw.due
          obtain ⟨hb1, hb2⟩ := timeAfter_bounds hs0 hw.range
          have hnew := htimeouts' t hne hm
          rw [if_pos hw.range.1] at hnew
          refine .inl ⟨?_, d, hdue.trans hd, ?_⟩
          · change InRange c (Function.update timeouts tid (c.timerMake tm) t)
            rw [hnew]
            exact inRange_make hb1 hb2
          · change d ≤ s.now + timerTime (Function.update timeouts tid (c.timerMake tm) t)
            rw [hnew, timerTime_make (by omega) hb2, timeAfter]
            omega
        · obtain ⟨d, hd, hle⟩ := he.due
          have hnew := htimeouts' t hne hm
          rw [he.idle, if_neg not_timerShot_idle] at hnew
          exact .inr ⟨hnew, d, hdue.trans hd, hle⟩
    · obtain rfl := Option.some.inj he'
      exact hge
  · intro t ht hidle
    rcases hmem' t ht with rfl | ⟨hne, hm⟩
    · change Function.update timeouts t (c.timerMake tm) t = timerIdle at hidle
      rw [Function.update_self] at hidle
      exact absurd (hidle ▸ hmake.1) not_timerShot_idle
    · refine ⟨hm, ((h.timer t hm).resolve_left fun hw => ?_).idle⟩
      obtain ⟨hb1, hb2⟩ := timeAfter_bounds hs0 hw.range
      have hnew := htimeouts' t hne hm
      rw [if_pos hw.range.1] at hnew
      exact absurd ((hnew.symm.trans hidle) ▸ (inRange_make hb1 hb2).1) not_timerShot_idle

/-! ## Handlers -/

/-- The timers that wait for their handlers. -/
def idle (s : TimerState) (timers : List Nat) : List Nat := timers.filter fun t => s.timeouts t = timerIdle

theorem idle_length_le (hnd : l.Nodup) (h : ∀ t ∈ l, s'.timeouts t = timerIdle → t ∈ timers ∧ s.timeouts t = timerIdle) :
    (idle s' l).length ≤ (idle s timers).length := by
  refine (List.Nodup.subperm (hnd.filter _) fun t ht => ?_).length_le
  obtain ⟨h1, h2⟩ := List.mem_filter.1 ht
  have := h t h1 (by simpa using h2)
  exact List.mem_filter.2 ⟨this.1, by simpa using this.2⟩

/-- A handler keeps the invariant, and makes no timer idle. -/
theorem runHandler_inv {handler : Handler} (h : Inv c s timers last) (hok : ∀ call ∈ handler, CallOk c call ∧ TimeFits c call) :
    ∃ s' timers' last', runHandler c s handler = some s' ∧ Inv c s' timers' last' ∧ s'.now = s.now ∧
      (idle s' timers').length ≤ (idle s timers).length := by
  induction handler generalizing s timers last with
  | nil => exact ⟨s, timers, last, rfl, h, rfl, le_rfl⟩
  | cons call handler ih =>
    obtain ⟨hc, hf⟩ := hok call List.mem_cons_self
    obtain ⟨s₁, timers₁, he, h₁, hnow, hidle⟩ := schedule_inv h hc hf
    obtain ⟨s', timers', last', he', h', hnow', hle⟩ := ih h₁ fun call' hm => hok call' (List.mem_cons_of_mem _ hm)
    refine ⟨s', timers', last', ?_, h', hnow'.trans hnow, hle.trans (idle_length_le h₁.holds.nodup hidle)⟩
    rw [runHandler, List.foldlM_cons, he]
    exact he'

/-- `__timer_run` of a timer that waits for its handler. -/
theorem timerRun_inv {handler : Handler} (h : Inv c s (tid :: timers) last) (hidle : s.timeouts tid = timerIdle)
    (hok : ∀ call ∈ handler, CallOk c call ∧ TimeFits c call) :
    ∃ s' timers' last', timerRun c s tid handler = some s' ∧ Inv c s' timers' last' ∧ s'.now = s.now ∧
      (idle s' timers').length ≤ (idle s timers).length := by
  have hnot : tid ∉ timers := (List.nodup_cons.1 h.holds.nodup).1
  have hexp : Expired s.timeouts s.log s.now tid := (h.timer tid List.mem_cons_self).resolve_left fun hw =>
    not_timerShot_idle (hidle ▸ hw.range.1)
  have hdue : ∀ t ∈ timers, due t (.ran tid s.now :: s.log) = due t s.log := by
    intro t ht
    have hne : tid ≠ t := fun e => hnot (e ▸ ht)
    simp [due, hne]
  have hdel : Holds c (timerDel c tid s.orders) timers := by
    have : Holds c (timerDel c tid s.orders) ((tid :: timers).erase tid) := timerDel_holds h.holds
    rwa [List.erase_cons_head] at this
  have h₀ : Inv c { s with runningTid := tid, orders := timerDel c tid s.orders, log := .ran tid s.now :: s.log } timers last := by
    refine ⟨hdel, h.last_le, h.last_eq, fun t ht => ?_, h.unshot, fun e he harmed => ?_, hexp.due, h.never⟩
    · rcases h.timer t (List.mem_cons_of_mem _ ht) with hw | he
      · exact .inl ⟨hw.range, by rw [hdue t ht]; exact hw.due⟩
      · exact .inr ⟨he.idle, by rw [hdue t ht]; exact he.due⟩
    · obtain ⟨t, ht, hshot⟩ := harmed
      exact h.gpt e he ⟨t, List.mem_cons_of_mem _ ht, hshot⟩
  obtain ⟨s', timers', last', he, h', hnow, hle⟩ := runHandler_inv h₀ hok
  refine ⟨{ s' with runningTid := c.invalidTid }, timers', last', ?_, ?_, hnow, hle⟩
  · simp only [timerRun, he, Option.map_some]
  · exact ⟨h'.holds, h'.last_le, h'.last_eq, h'.timer, h'.unshot, h'.gpt, h'.never⟩

/-- The calls of the handlers are allowed and fit. -/
def HandlersGood (c : Config) (handlers : List Handler) : Prop :=
  ∀ h ∈ handlers, ∀ call ∈ h, CallOk c call ∧ TimeFits c call

theorem HandlersGood.head (h : HandlersGood c handlers) : ∀ call ∈ handlers.headD [], CallOk c call ∧ TimeFits c call := by
  cases handlers with
  | nil => simp
  | cons a handlers => exact h a List.mem_cons_self

theorem HandlersGood.tail (h : HandlersGood c handlers) : HandlersGood c handlers.tail :=
  fun a ha => h a (List.mem_of_mem_tail ha)

/-- `timer_run_timeout` returns when no timer waits for its handler on top. -/
theorem timerRunTimeout_stop (h : Inv c s timers last) (htop : ∀ t ∈ timers.head?, s.timeouts t ≠ timerIdle) (fuel : Nat) :
    timerRunTimeout c type (fuel + 1) s handlers = some s := by
  simp only [timerRunTimeout, h.holds.head_eq]
  cases timers with
  | nil => exact if_pos (.inl rfl)
  | cons t timers => exact if_pos (.inr (htop t rfl))

/-- It runs the handler of the timer on top. -/
theorem timerRunTimeout_run (h : Inv c s (t :: timers) last) (hidle : s.timeouts t = timerIdle) (htype : c.type t = type)
    (fuel : Nat) : timerRunTimeout c type (fuel + 1) s handlers =
      (timerRun c s t (handlers.headD [])).bind fun s => timerRunTimeout c type fuel s handlers.tail := by
  have hne := h.holds.ne_invalid List.mem_cons_self
  rw [timerRunTimeout]
  simp only [h.holds.head_eq, List.headD_cons, hne, hidle, htype, ne_eq, not_true_eq_false, or_self, and_false, if_false, if_true]

/-- With a timer of the other type on top the loop does not end. -/
theorem timerRunTimeout_stuck (h : Inv c s (t :: timers) last) (hidle : s.timeouts t = timerIdle) (htype : c.type t ≠ type)
    (fuel : Nat) : timerRunTimeout c type fuel s handlers = none := by
  induction fuel with
  | zero => rfl
  | succ fuel ih =>
    have hne := h.holds.ne_invalid List.mem_cons_self
    rw [timerRunTimeout]
    simp only [h.holds.head_eq, List.headD_cons, hne, hidle, htype, ne_eq, not_true_eq_false, or_self, if_false, ih, ite_self]

/-- `timer_run_timeout` keeps the invariant. -/
theorem timerRunTimeout_inv {fuel : Nat} (h : Inv c s timers last) (hok : HandlersGood c handlers)
    (he : timerRunTimeout c type fuel s handlers = some s') :
    ∃ timers' last', Inv c s' timers' last' ∧ s'.now = s.now := by
  induction fuel generalizing s timers last handlers with
  | zero => cases he
  | succ fuel ih =>
    by_cases htop : ∀ t ∈ timers.head?, s.timeouts t ≠ timerIdle
    · rw [timerRunTimeout_stop h htop] at he
      obtain rfl := Option.some.inj he
      exact ⟨timers, last, h, rfl⟩
    · push Not at htop
      obtain ⟨t, ht, hidle⟩ := htop
      obtain ⟨timers, rfl⟩ : ∃ l, timers = t :: l := ⟨timers.tail, (List.cons_head?_tail ht).symm⟩
      by_cases htype : c.type t = type
      · obtain ⟨s₁, timers₁, last₁, he₁, h₁, hnow, -⟩ := timerRun_inv h hidle hok.head
        rw [timerRunTimeout_run h hidle htype, he₁] at he
        obtain ⟨timers', last', h', hnow'⟩ := ih h₁ hok.tail he
        exact ⟨timers', last', h', hnow'.trans hnow⟩
      · rw [timerRunTimeout_stuck h hidle htype] at he
        cases he

/-- More rounds than timers wait for their handlers make no difference. -/
theorem timerRunTimeout_fuel {fuel : Nat} (h : Inv c s timers last) (hok : HandlersGood c handlers)
    (hfuel : (idle s timers).length < fuel) :
    timerRunTimeout c type (fuel + 1) s handlers = timerRunTimeout c type fuel s handlers := by
  induction fuel generalizing s timers last handlers with
  | zero => exact absurd hfuel (Nat.not_lt_zero _)
  | succ fuel ih =>
    by_cases htop : ∀ t ∈ timers.head?, s.timeouts t ≠ timerIdle
    · rw [timerRunTimeout_stop h htop, timerRunTimeout_stop h htop]
    · push Not at htop
      obtain ⟨t, ht, hidle⟩ := htop
      obtain ⟨timers, rfl⟩ : ∃ l, timers = t :: l := ⟨timers.tail, (List.cons_head?_tail ht).symm⟩
      by_cases htype : c.type t = type
      · rw [timerRunTimeout_run h hidle htype, timerRunTimeout_run h hidle htype]
        obtain ⟨s₁, timers₁, last₁, he₁, h₁, -, hle⟩ := timerRun_inv h hidle hok.head
        rw [he₁]
        refine ih h₁ hok.tail (lt_of_le_of_lt hle ?_)
        simpa [idle, hidle] using hfuel
      · rw [timerRunTimeout_stuck h hidle htype, timerRunTimeout_stuck h hidle htype]

/-- So the bound on the rounds is no restriction. -/
theorem timerRunTimeout_maxRounds (h : Inv c s timers last) (hok : HandlersGood c handlers) (n : Nat) :
    timerRunTimeout c type (maxRounds c + n) s handlers = timerRunTimeout c type (maxRounds c) s handlers := by
  induction n with
  | zero => rfl
  | succ n ih =>
    have h1 := h.holds.length_le
    have h2 : (idle s timers).length ≤ timers.length := List.length_filter_le _ _
    rw [← Nat.add_assoc, timerRunTimeout_fuel h hok (by unfold maxRounds; omega), ih]

/-! ## Interrupts and the bottom half -/

/-- The invariant without a period that runs. -/
theorem Inv.stop_gpt (h : Inv c s timers last) : Inv c { s with gpt := none } timers last :=
  ⟨h.holds, h.last_le, h.last_eq, h.timer, h.unshot, fun _ he => (by cases he), h.never⟩

/-- `timer_recalc_timeout` with no timer armed. -/
theorem recalcIdle_inv (shot : Bool) (h : Inv c s timers last) (hidle : ∀ t ∈ timers, ¬ TimerShot (s.timeouts t)) :
    Inv c (timerRecalcTimeout c shot s) timers s.now ∧ (timerRecalcTimeout c shot s).now = s.now := by
  rw [timerRecalcTimeout_idle shot (by rwa [h.holds.pending_eq])]
  refine ⟨⟨h.holds, le_rfl, rfl, fun t ht => ?_, h.unshot, fun e _ harmed => ?_, h.never⟩, rfl⟩
  · exact .inr ((h.timer t ht).resolve_left fun w => hidle t ht w.range.1)
  · obtain ⟨t, ht, hshot⟩ := harmed
    exact absurd hshot (hidle t ht)

/-- `tick_handler` when the period has ended at `e`. -/
theorem tickHandler_inv {e : Int} (h : Inv c s timers last) (hgpt : s.gpt = some e) (hdue : e ≤ s.now)
    (hok : HandlersGood c handlers)
    (hreg : s.unshotTimeout = 0 → ∀ t ∈ armed c s, timerTime (s.timeouts t) ≤ timerTime s.timeout)
    (he : tickHandler c { s with gpt := none } handlers = some s') : ∃ timers' last', Inv c s' timers' last' := by
  have hend := h.gpt e hgpt
  unfold tickHandler at he
  split at he
  · -- the rest of a long period
    obtain rfl := Option.some.inj he
    obtain ⟨e', u, hs, hu0, hu1, hge⟩ := timerShotTimeout_spec (c := c) (s := { s with gpt := none }) h.unshot.1 h.unshot.2
    refine ⟨timers, last, ?_⟩
    rw [hs]
    refine ⟨h.holds, h.last_le, h.last_eq, h.timer, ⟨hu0, hu1⟩, fun e'' he'' harmed => ?_, h.never⟩
    obtain rfl := Option.some.inj he''
    have := hend harmed
    change (s.now : Int) + s.unshotTimeout ≤ e' + u at hge
    change (last : Int) + timerTime s.timeout ≤ e' + u
    omega
  · rename_i hunshot
    have hunshot : s.unshotTimeout = 0 := not_not.1 hunshot
    unfold timerIrqTimeout at he
    split at he
    · obtain rfl := Option.some.inj he
      exact ⟨timers, last, h.stop_gpt⟩
    · -- the times of all armed timers have passed
      obtain ⟨timeouts, b, hstate, htimeouts⟩ := irqTimer_foldl (c := c) (l := timers) (timerTime s.timeout)
        (f := ⟨{ s with gpt := none }, false, false⟩) fun t ht hshot => hreg hunshot t (h.armed_eq ht hshot)
      have hscan : irqScan c { s with gpt := none } =
          timers.foldl (irqTimer c (timerTime s.timeout)) ⟨{ s with gpt := none }, false, false⟩ := by
        rw [irqScan, h.holds.pending_eq]
      rw [← hscan] at hstate
      have hidle : ∀ t ∈ timers, timeouts t = timerIdle := by
        intro t ht
        rw [htimeouts t]
        split
        · rfl
        · rename_i hn
          exact ((h.timer t ht).resolve_left fun w => hn ⟨ht, w.range.1⟩).idle
      have hscanned : Inv c (irqScan c { s with gpt := none }).state timers last := by
        rw [hstate]
        refine ⟨h.holds, h.last_le, h.last_eq, fun t ht => .inr ⟨hidle t ht, ?_⟩, h.unshot, fun _ he => (by cases he), h.never⟩
        rcases h.timer t ht with w | w
        · obtain ⟨d, hd, hle⟩ := w.due
          have h1 := hreg hunshot t (h.armed_eq ht w.range.1)
          have h2 := hend ⟨t, ht, w.range.1⟩
          refine ⟨d, hd, ?_⟩
          change d ≤ s.now
          omega
        · exact w.due
      have hnone : ∀ t ∈ timers, ¬ TimerShot ((irqScan c { s with gpt := none }).state.timeouts t) := by
        intro t ht
        rw [hstate]
        change ¬ TimerShot (timeouts t)
        rw [hidle t ht]
        exact not_timerShot_idle
      obtain ⟨s₁, hs₁, last₁, h₁⟩ : ∃ s₁, s₁ = (if (irqScan c { s with gpt := none }).runBh
          then (irqScan c { s with gpt := none }).state
          else timerRecalcTimeout c true (irqScan c { s with gpt := none }).state) ∧ ∃ last₁, Inv c s₁ timers last₁ := by
        refine ⟨_, rfl, ?_⟩
        split
        · exact ⟨last, hscanned⟩
        · exact ⟨_, (recalcIdle_inv true hscanned hnone).1⟩
      simp only [← hs₁] at he
      split at he
      · obtain ⟨timers', last', h', -⟩ := timerRunTimeout_inv h₁ hok he
        exact ⟨timers', last', h'⟩
      · obtain rfl := Option.some.inj he
        exact ⟨timers, last₁, h₁⟩

/-- The bottom half, when its handlers leave no timer armed. -/
theorem timerBhHandler_inv (h : Inv c s timers last) (hok : HandlersGood c handlers)
    (hreg : ∀ s', timerRunTimeout c .bh (maxRounds c) s handlers = some s' → armed c s' = [])
    (he : timerBhHandler c s handlers = some s') : ∃ timers' last', Inv c s' timers' last' := by
  obtain ⟨s₁, he₁, rfl⟩ := Option.map_eq_some_iff.1 he
  obtain ⟨s₂, he₂, rfl⟩ := Option.map_eq_some_iff.1 he₁
  obtain ⟨timers', last', h', -⟩ := timerRunTimeout_inv h hok he₂
  have hnone : ∀ t ∈ timers', ¬ TimerShot (s₂.timeouts t) := by
    intro t ht hshot
    have := h'.armed_eq ht hshot
    rw [hreg s₂ he₂] at this
    exact List.not_mem_nil this
  refine ⟨timers', s₂.now, ?_⟩
  have hidle : (timerRecalcTimeout c true s₂).timeout = timerIdle := by
    rw [timerRecalcTimeout_idle true (by rwa [h'.holds.pending_eq])]
  rw [timerRestart, if_neg (hidle ▸ not_timerShot_idle)]
  exact (recalcIdle_inv true h' hnone).1

/-! ## Runs -/

theorem handlersGood (h1 : HandlersOk c handlers) (h2 : HandlersFit c handlers) : HandlersGood c handlers :=
  fun h hh call hc => ⟨h1 h hh call hc, h2 h hh call hc⟩

/-- A regular step keeps the invariant. -/
theorem step_inv {op : Op} (h : Inv c s timers last) (hreg : Regular c s op) (he : step c s op = some s') :
    ∃ timers' last', Inv c s' timers' last' := by
  cases op with
  | tick =>
    simp only [step] at he
    split at he
    · cases he
    · obtain rfl := Option.some.inj he
      refine ⟨timers, last, h.holds, h.last_le.trans (Nat.le_succ _), h.last_eq, fun t ht => ?_, h.unshot, h.gpt, h.never⟩
      refine (h.timer t ht).imp_right fun e => ⟨e.idle, ?_⟩
      obtain ⟨d, hd, hle⟩ := e.due
      exact ⟨d, hd, hle.trans (by simp)⟩
  | schedule tid toutMs =>
    simp only [step] at he
    split at he
    · rename_i hok
      obtain ⟨s₁, timers', he₁, h₁, -⟩ := schedule_inv h hok hreg
      rw [he₁] at he
      obtain rfl := Option.some.inj he
      exact ⟨timers', _, h₁⟩
    · cases he
  | interrupt handlers =>
    simp only [step] at he
    split at he
    · rename_i hok
      obtain ⟨⟨e, hgpt, hdue⟩, hok⟩ := hok
      exact tickHandler_inv h hgpt hdue (handlersGood hok hreg.1) hreg.2 he
    · cases he
  | bottomHalf handlers =>
    simp only [step] at he
    split at he
    · rename_i hok
      have h₀ : Inv c { s with bhAwake := false } timers last :=
        ⟨h.holds, h.last_le, h.last_eq, h.timer, h.unshot, h.gpt, h.never⟩
      exact timerBhHandler_inv h₀ (handlersGood hok.2 hreg.1) hreg.2 he
    · cases he

theorem timerInit_inv (c : Config) (now : Nat) : Inv c (timerInit c now) [] 0 where
  holds := ⟨by simp [timerInit], by simp, List.nodup_nil⟩
  last_le := Nat.zero_le _
  last_eq := rfl
  timer := by simp
  unshot := ⟨le_rfl, by change (0 : Int) < _; have := c.pow_bits; omega⟩
  gpt := fun _ he => by cases he
  never := trivial

/-- The invariant of regular runs. -/
theorem run_inv (h : Run c (Regular c) s) : ∃ timers last, Inv c s timers last := by
  refine h.invariant (I := fun s => ∃ timers last, Inv c s timers last) ?_ ?_
  · rintro s ⟨now, rfl⟩
    exact ⟨[], 0, timerInit_inv c now⟩
  · rintro s op s' ⟨timers, last, h⟩ hok he
    exact step_inv h hok he

/-- In regular runs no handler runs early. -/
theorem timers_never_early_of_regular (h : Run c (Regular c) s) : NeverEarly s.log := by
  obtain ⟨timers, last, h⟩ := run_inv h
  exact h.never

/-- A build with three timers of one type. -/
def threeTimers (bits : Nat) (hbits : bits = 8 ∨ bits = 16 ∨ bits = 32) (type : TimerType) : Config where
  nrTimers := 3
  bits := bits
  gptMax := 0xFFFFFFFF
  gptBits := some 32
  type := fun _ => type
  bits_cases := hbits
  gptBits_ge := by
    rintro b h
    obtain rfl := Option.some.inj h
    omega

/-- A run from tick 0 that has been computed. -/
theorem exists_run (c : Config) (ok : TimerState → Op → Prop) [∀ s op, Decidable (ok s op)] (ops : List Op)
    {log : List Event}
    (h : (ops.foldlM (Framework.Run.check (step c) ok) (timerInit c 0)).map TimerState.log = some log) :
    ∃ s, Run c ok s ∧ s.log = log :=
  Framework.Run.of_check ops TimerState.log ⟨0, rfl⟩ h

def irqTimers : Config := threeTimers 32 (by decide) .irq

/-- A timer that runs in the interrupt and is scheduled again by its handler. -/
theorem timers_never_early_periodic : ∃ s, Run irqTimers (Regular irqTimers) s ∧
    s.log = [.ran 0 5, .scheduled 0 2 3, .ran 0 2, .scheduled 0 0 2] ∧ NeverEarly s.log := by
  obtain ⟨s, hrun, hlog⟩ := exists_run irqTimers (Regular irqTimers)
    [.bottomHalf [], .schedule 0 2, .tick, .tick, .interrupt [[(0, 3)]], .tick, .tick, .tick, .interrupt [[]]]
    (by decide : _ = some [.ran 0 5, .scheduled 0 2 3, .ran 0 2, .scheduled 0 0 2])
  exact ⟨s, hrun, hlog, timers_never_early_of_regular hrun⟩

/-- Three ways to run early. The interrupt at tick 1 takes its 1 off the time of the second timer
twice, which then runs after 2 ticks instead of 3. The bottom half, which `timer_init` has woken,
takes the time of a timer off itself, and it runs after 1 tick instead of 9. A time of `0x4000`
does not fit the encoding of 16 bits, and its timer runs at once. -/
theorem timers_run_early :
    (∃ s, Run irqTimers (fun _ _ => True) s ∧
      s.log = [.ran 1 2, .ran 0 1, .scheduled 1 0 3, .scheduled 0 0 1] ∧ ¬ NeverEarly s.log) ∧
    (∃ s, Run irqTimers (fun _ _ => True) s ∧ s.log = [.ran 0 1, .scheduled 0 0 9] ∧ ¬ NeverEarly s.log) ∧
    ∃ s, Run (threeTimers 16 (by decide) .irq) (fun _ _ => True) s ∧
      s.log = [.ran 0 0, .scheduled 0 0 0x4000] ∧ ¬ NeverEarly s.log := by
  refine ⟨?_, ?_, ?_⟩
  · obtain ⟨s, hrun, hlog⟩ := exists_run irqTimers (fun _ _ => True)
      [.schedule 0 1, .schedule 1 3, .tick, .interrupt [[]], .tick, .interrupt [[]]]
      (by decide : _ = some [.ran 1 2, .ran 0 1, .scheduled 1 0 3, .scheduled 0 0 1])
    refine ⟨s, hrun, hlog, fun h => ?_⟩
    rw [hlog] at h
    obtain ⟨d, hd, hle⟩ := h.1
    obtain rfl := Option.some.inj hd
    exact absurd hle (by decide)
  · obtain ⟨s, hrun, hlog⟩ := exists_run irqTimers (fun _ _ => True)
      [.schedule 0 9, .bottomHalf [], .tick, .interrupt [[]]]
      (by decide : _ = some [.ran 0 1, .scheduled 0 0 9])
    refine ⟨s, hrun, hlog, fun h => ?_⟩
    rw [hlog] at h
    obtain ⟨d, hd, hle⟩ := h.1
    obtain rfl := Option.some.inj hd
    exact absurd hle (by decide)
  · obtain ⟨s, hrun, hlog⟩ := exists_run (threeTimers 16 (by decide) .irq) (fun _ _ => True)
      [.schedule 0 0x4000, .interrupt [[]]]
      (by decide : _ = some [.ran 0 0, .scheduled 0 0 0x4000])
    refine ⟨s, hrun, hlog, fun h => ?_⟩
    rw [hlog] at h
    obtain ⟨d, hd, hle⟩ := h.1
    obtain rfl := Option.some.inj hd
    exact absurd hle (by decide)

end Sdfirm.Timer
