import Sdfirm.Proof.Timer.Run

/-!
# The timers that expire at an interrupt

`Marked` says which of the timers in `timer_orders` are idle, that is, wait
for their handler. The scan of the interrupt marks those that expire
(`irqScan_marked`), and the computation of the next period keeps the marks
(`timerRecalcTimeout_marked`). `timer_run_timeout` then runs the timers that
are marked at the front, or does not return (`timerRunTimeout_front`,
`timerRunTimeout_other`). `dispatches_iff` puts the two calls together.
-/

namespace Sdfirm.Timer

variable {c : Config} {s s' : TimerState} {timers l : List Nat} {tid t : Nat} {x : Int} {type : TimerType}
  {e : Nat → Prop}

/-- `timer_orders` holds the timers, and those with `e` are idle. -/
structure Marked (c : Config) (s : TimerState) (timers : List Nat) (e : Nat → Prop) : Prop where
  holds : Holds c s.orders timers
  idle : ∀ t ∈ timers, s.timeouts t = timerIdle ↔ e t

theorem Marked.wake (h : Marked c s timers e) (b : Bool) : Marked c { s with bhAwake := b } timers e := ⟨h.holds, h.idle⟩

theorem TimerShot.ne_idle (h : TimerShot x) : x ≠ timerIdle := fun hx => not_timerShot_idle (hx ▸ h)

/-- The encoding of any time has the flag. -/
theorem timerShot_timerMake (c : Config) (x : Int) : TimerShot (c.timerMake x) := by
  have hdvd : (2 : Int) ∣ ((2 ^ c.bits : Nat) : Int) := by
    rcases c.bits_cases with h | h | h <;> rw [h] <;> decide
  have hodd := hdvd.trans (Int.dvd_bmod_sub_self (x := 2 * c.toTimeout x + 1) (m := 2 ^ c.bits))
  rw [TimerShot, Config.timerMake]
  show (Int.bmod (2 * c.toTimeout x + 1) (2 ^ c.bits)) % 2 = 1
  omega

/-! ## The next period -/

theorem timerRestart_frame (s : TimerState) :
    (timerRestart c s).orders = s.orders ∧ (timerRestart c s).timeouts = s.timeouts ∧
      (timerRestart c s).now = s.now ∧ (timerRestart c s).log = s.log := by
  unfold timerRestart timerShotTimeout
  split_ifs <;> exact ⟨rfl, rfl, rfl, rfl⟩

theorem recalcTimer_foldl_idle (shot : Bool) (span : Int) (l : List Nat) (s : TimerState) :
    (l.foldl (recalcTimer c shot span) s).orders = s.orders ∧ (l.foldl (recalcTimer c shot span) s).now = s.now ∧
      (l.foldl (recalcTimer c shot span) s).log = s.log ∧
      ∀ t, (l.foldl (recalcTimer c shot span) s).timeouts t = timerIdle ↔ s.timeouts t = timerIdle := by
  induction l generalizing s with
  | nil => exact ⟨rfl, rfl, rfl, fun _ => Iff.rfl⟩
  | cons t l ih =>
    obtain ⟨h1, h2, h3, h4⟩ := ih (recalcTimer c shot span s t)
    rw [List.foldl_cons]
    by_cases hshot : TimerShot (s.timeouts t)
    · rw [recalcTimer, if_pos hshot] at h1 h2 h3 h4 ⊢
      refine ⟨h1, h2, h3, fun t' => (h4 t').trans ?_⟩
      by_cases ht : t' = t
      · subst ht
        show Function.update s.timeouts t' _ t' = timerIdle ↔ _
        rw [Function.update_self]
        exact ⟨fun h => absurd h (timerShot_timerMake c _).ne_idle, fun h => absurd h hshot.ne_idle⟩
      · show Function.update s.timeouts t _ t' = timerIdle ↔ _
        rw [Function.update_of_ne ht]
    · rw [recalcTimer, if_neg hshot] at h1 h2 h3 h4 ⊢
      exact ⟨h1, h2, h3, h4⟩

/-- `timer_recalc_timeout` changes no mark. -/
theorem timerRecalcTimeout_marked (shot : Bool) (h : Marked c s timers e) :
    Marked c (timerRecalcTimeout c shot s) timers e ∧ (timerRecalcTimeout c shot s).now = s.now ∧
      (timerRecalcTimeout c shot s).log = s.log := by
  obtain ⟨h1, h2, h3, h4⟩ := timerRestart_frame (c := c) (timerRecalc c shot s)
  obtain ⟨k1, k2, k3, k4⟩ := recalcTimer_foldl_idle (c := c) shot (recalcSpan c shot s) (pending c s.orders)
    { s with lastTick := s.tick, timeout := timerIdle }
  refine ⟨⟨?_, fun t ht => ?_⟩, h3.trans k2, h4.trans k3⟩
  · show Holds c (timerRestart c (timerRecalc c shot s)).orders timers
    rw [h1]
    exact k1.symm ▸ h.holds
  · show (timerRestart c (timerRecalc c shot s)).timeouts t = timerIdle ↔ e t
    rw [h2]
    exact (k4 t).trans (h.idle t ht)

/-! ## The scan of the interrupt -/

/-- The timer expires, and was armed before. -/
def Fires (tout : Int) (timeouts : Nat → Int) (t : Nat) : Prop := TimerShot (timeouts t) ∧ timerTime (timeouts t) ≤ tout

theorem irqTimer_eq (tout : Int) (f : IrqScan) (t : Nat) :
    ∃ x b, (irqTimer c tout f t).state = { f.state with timeouts := Function.update f.state.timeouts t x, bhAwake := b } ∧
      (x = timerIdle ↔ f.state.timeouts t = timerIdle ∨ Fires tout f.state.timeouts t) ∧
      ((irqTimer c tout f t).runIrq = true ↔ f.runIrq = true ∨ Fires tout f.state.timeouts t ∧ c.type t = .irq) := by
  unfold irqTimer
  by_cases hshot : TimerShot (f.state.timeouts t)
  · rw [if_pos hshot]
    by_cases htime : timerTime (f.state.timeouts t) ≤ tout
    · have hfires : Fires tout f.state.timeouts t := ⟨hshot, htime⟩
      simp only [if_pos htime]
      by_cases htype : c.type t = .irq
      · rw [if_neg (not_not.2 htype)]
        exact ⟨timerIdle, f.state.bhAwake, rfl, ⟨fun _ => .inr hfires, fun _ => rfl⟩,
          ⟨fun _ => .inr ⟨hfires, htype⟩, fun _ => rfl⟩⟩
      · rw [if_pos htype]
        exact ⟨timerIdle, true, rfl, ⟨fun _ => .inr hfires, fun _ => rfl⟩,
          ⟨fun h => .inl h, fun h => h.elim id fun h => absurd h.2 htype⟩⟩
    · simp only [if_neg htime]
      refine ⟨_, f.state.bhAwake, rfl, ⟨fun h => ?_, fun h => ?_⟩, ⟨fun h => .inl h, fun h => ?_⟩⟩
      · exact absurd h (timerShot_timerMake c _).ne_idle
      · exact h.elim (fun h => absurd h hshot.ne_idle) fun h => absurd h.2 htime
      · exact h.elim id fun h => absurd h.1.2 htime
  · rw [if_neg hshot]
    refine ⟨f.state.timeouts t, f.state.bhAwake, ?_, ⟨fun h => .inl h, fun h => ?_⟩, ⟨fun h => .inl h, fun h => ?_⟩⟩
    · rw [Function.update_eq_self]
    · exact h.elim id fun h => absurd h.1 hshot
    · exact h.elim id fun h => absurd h.1.1 hshot

theorem irqTimer_foldl_marks (tout : Int) (f : IrqScan) (hnd : l.Nodup) :
    ∃ timeouts b, (l.foldl (irqTimer c tout) f).state = { f.state with timeouts := timeouts, bhAwake := b } ∧
      (∀ t ∈ l, timeouts t = timerIdle ↔ f.state.timeouts t = timerIdle ∨ Fires tout f.state.timeouts t) ∧
      (∀ t ∉ l, timeouts t = f.state.timeouts t) ∧
      ((l.foldl (irqTimer c tout) f).runIrq = true ↔
        f.runIrq = true ∨ ∃ t ∈ l, Fires tout f.state.timeouts t ∧ c.type t = .irq) := by
  induction l generalizing f with
  | nil => exact ⟨f.state.timeouts, f.state.bhAwake, rfl, by simp, fun _ _ => rfl, by simp⟩
  | cons t l ih =>
    obtain ⟨hnot, hnd⟩ := List.nodup_cons.1 hnd
    obtain ⟨x, b, hstate, hx, hrun⟩ := irqTimer_eq (c := c) tout f t
    obtain ⟨timeouts, b', hstate', hin, hout, hrun'⟩ := ih (irqTimer c tout f t) hnd
    rw [hstate] at hstate' hin hout hrun'
    -- the timers of the rest are not touched by the first step
    have hsame : ∀ t' ∈ l, Function.update f.state.timeouts t x t' = f.state.timeouts t' := fun t' ht' =>
      Function.update_of_ne (fun heq : t' = t => hnot (heq ▸ ht')) _ _
    have hfires : ∀ t' ∈ l, Fires tout (Function.update f.state.timeouts t x) t' ↔ Fires tout f.state.timeouts t' :=
      fun t' ht' => by unfold Fires; rw [hsame t' ht']
    refine ⟨timeouts, b', hstate', fun t' ht' => ?_, fun t' ht' => ?_, ?_⟩
    · obtain rfl | ht' := List.mem_cons.1 ht'
      · rw [hout t' hnot]
        show Function.update f.state.timeouts t' x t' = timerIdle ↔ _
        rw [Function.update_self, hx]
      · rw [hin t' ht']
        show Function.update f.state.timeouts t x t' = timerIdle ∨ Fires tout (Function.update f.state.timeouts t x) t' ↔ _
        rw [hsame t' ht', hfires t' ht']
    · rw [List.mem_cons, not_or] at ht'
      rw [hout t' ht'.2]
      exact Function.update_of_ne ht'.1 _ _
    · rw [List.foldl_cons, hrun', hrun, or_assoc]
      refine or_congr Iff.rfl ?_
      rw [List.exists_mem_cons_iff]
      refine or_congr Iff.rfl (exists_congr fun t' => and_congr_right fun ht' => ?_)
      rw [← hfires t' ht']

/-- The scan marks the timers that expire, and finds whether one of them is of type `TIMER_IRQ`. -/
theorem irqScan_marked (hp : Pending c s) (h : Holds c s.orders timers) :
    Marked c (irqScan c s).state timers (Expires s) ∧ (irqScan c s).state.now = s.now ∧
      (irqScan c s).state.log = s.log ∧
      ((irqScan c s).runIrq = true ↔ ∃ t ∈ timers, Expires s t ∧ c.type t = .irq) := by
  obtain ⟨timeouts, b, hstate, hin, -, hrun⟩ := irqTimer_foldl_marks (c := c) (timerTime s.timeout) ⟨s, false, false⟩ h.nodup
  have htimer := hp.timer
  rw [h.pending_eq] at htimer
  have hfold : irqScan c s = timers.foldl (irqTimer c (timerTime s.timeout)) ⟨s, false, false⟩ := by
    rw [irqScan, h.pending_eq]
  -- a timer that is not armed is idle already
  have hexp : ∀ t ∈ timers, s.timeouts t = timerIdle ∨ Fires (timerTime s.timeout) s.timeouts t ↔ Expires s t := by
    intro t ht
    obtain hshot | ⟨hidle, -⟩ := htimer t ht
    · exact ⟨fun h hs => h.elim (fun h => absurd h hshot.ne_idle) fun h => h.2, fun h => .inr ⟨hshot, h hshot⟩⟩
    · exact ⟨fun _ hs => absurd hidle hs.ne_idle, fun _ => .inl hidle⟩
  rw [hfold, hstate]
  refine ⟨⟨h, fun t ht => (hin t ht).trans (hexp t ht)⟩, rfl, rfl, hrun.trans ?_⟩
  constructor
  · rintro (hfalse | ⟨t, ht, hfires, htype⟩)
    · cases hfalse
    · exact ⟨t, ht, (hexp t ht).1 (.inr hfires), htype⟩
  · rintro ⟨t, ht, hex, htype⟩
    refine .inr ⟨t, ht, ((hexp t ht).2 hex).resolve_left fun hidle => ?_, htype⟩
    obtain hshot | ⟨-, hbh⟩ := htimer t ht
    · exact hshot.ne_idle hidle
    · rw [htype] at hbh
      cases hbh

/-! ## `timer_run_timeout` -/

/-- The timers have been run, the first of them first. -/
def ranAll (timers : List Nat) (s : TimerState) : List Event := (timers.map fun t => .ran t s.now).reverse ++ s.log

theorem timerRun_nil (h : Holds c s.orders (t :: timers)) :
    ∃ s', timerRun c s t [] = some s' ∧ Holds c s'.orders timers ∧ s'.timeouts = s.timeouts ∧ s'.now = s.now ∧
      s'.log = .ran t s.now :: s.log := by
  have hdel : Holds c (timerDel c t s.orders) ((t :: timers).erase t) := timerDel_holds h
  rw [List.erase_cons_head] at hdel
  exact ⟨_, rfl, hdel, rfl, rfl, rfl⟩

/-- The loop stops before a timer that is not marked. -/
theorem timerRunTimeout_top (h : Marked c s timers e) (htop : ∀ t ∈ timers.head?, ¬ e t) (fuel : Nat) :
    timerRunTimeout c type (fuel + 1) s [] = some s := by
  simp only [timerRunTimeout, h.holds.head_eq]
  cases timers with
  | nil => exact if_pos (.inl rfl)
  | cons t timers => exact if_pos (.inr fun hidle => htop t rfl ((h.idle t List.mem_cons_self).1 hidle))

/-- With a marked timer of the other type on top the loop does not return, whatever its bound is. -/
theorem timerRunTimeout_other (h : Marked c s (t :: timers) e) (he : e t) (htype : c.type t ≠ type) (fuel : Nat) :
    timerRunTimeout c type fuel s [] = none := by
  have hne := h.holds.ne_invalid List.mem_cons_self
  have hidle := (h.idle t List.mem_cons_self).2 he
  induction fuel with
  | zero => rfl
  | succ fuel ih =>
    rw [timerRunTimeout]
    simp only [h.holds.head_eq, List.headD_cons, hne, hidle, htype, ne_eq, not_true_eq_false, or_self, if_false, ih, ite_self]

theorem timerRunTimeout_next (h : Marked c s (t :: timers) e) (he : e t) (htype : c.type t = type) :
    ∃ s₁, Marked c s₁ timers e ∧ s₁.now = s.now ∧ s₁.log = .ran t s.now :: s.log ∧
      ∀ fuel, timerRunTimeout c type (fuel + 1) s [] = timerRunTimeout c type fuel s₁ [] := by
  have hne := h.holds.ne_invalid List.mem_cons_self
  have hidle := (h.idle t List.mem_cons_self).2 he
  obtain ⟨s₁, hrun, hholds, htimeouts, hnow, hlog⟩ := timerRun_nil h.holds
  refine ⟨s₁, ⟨hholds, fun t' ht' => ?_⟩, hnow, hlog, fun fuel => ?_⟩
  · rw [htimeouts]
    exact h.idle t' (List.mem_cons_of_mem _ ht')
  · rw [timerRunTimeout]
    simp only [h.holds.head_eq, List.headD_cons, hne, hidle, htype, ne_eq, not_true_eq_false, or_self, and_false,
      if_false, if_true, List.headD_nil, hrun, Option.bind_some, List.tail_nil]

variable [DecidablePred e]

/-- The loop runs the timers that are marked at the front, if they are all of its type. -/
theorem timerRunTimeout_front (h : Marked c s timers e) (htype : ∀ t ∈ timers.takeWhile e, c.type t = type)
    {fuel : Nat} (hfuel : timers.length < fuel) :
    ∃ s', timerRunTimeout c type fuel s [] = some s' ∧ Marked c s' (timers.dropWhile e) e ∧ s'.now = s.now ∧
      s'.log = ranAll (timers.takeWhile e) s := by
  obtain ⟨fuel, rfl⟩ := Nat.exists_eq_succ_of_ne_zero (Nat.ne_zero_of_lt hfuel)
  induction timers generalizing s fuel with
  | nil => exact ⟨s, timerRunTimeout_top h nofun fuel, h, rfl, rfl⟩
  | cons t timers ih =>
    by_cases he : e t
    · rw [List.takeWhile_cons_of_pos (by simpa using he)] at htype ⊢
      rw [List.dropWhile_cons_of_pos (by simpa using he)]
      obtain ⟨s₁, h₁, hnow₁, hlog₁, hnext⟩ := timerRunTimeout_next h he (htype t List.mem_cons_self)
      rw [List.length_cons] at hfuel
      obtain ⟨fuel, rfl⟩ := Nat.exists_eq_succ_of_ne_zero (show fuel ≠ 0 by omega)
      obtain ⟨s', hs', h', hnow, hlog⟩ :=
        ih h₁ (fun t' ht' => htype t' (List.mem_cons_of_mem _ ht')) fuel (by omega)
      refine ⟨s', by rw [hnext]; exact hs', h', hnow.trans hnow₁, ?_⟩
      rw [hlog, ranAll, ranAll, hlog₁, hnow₁, List.map_cons, List.reverse_cons, List.append_assoc]
      rfl
    · rw [List.takeWhile_cons_of_neg (by simpa using he), List.dropWhile_cons_of_neg (by simpa using he)]
      refine ⟨s, timerRunTimeout_top h (fun t' ht' => ?_) fuel, h, rfl, rfl⟩
      obtain rfl := Option.some.inj ht'
      exact he

/-- If the loop returns, the timers marked at the front are all of its type. -/
theorem front_of_timerRunTimeout (h : Marked c s timers e) {fuel : Nat}
    (hr : timerRunTimeout c type fuel s [] = some s') : ∀ t ∈ timers.takeWhile e, c.type t = type := by
  induction timers generalizing s fuel with
  | nil => exact nofun
  | cons t timers ih =>
    by_cases he : e t
    · rw [List.takeWhile_cons_of_pos (by simpa using he)]
      have htype : c.type t = type := by
        by_contra hne
        rw [timerRunTimeout_other h he hne] at hr
        cases hr
      obtain ⟨s₁, h₁, -, -, hnext⟩ := timerRunTimeout_next h he htype
      cases fuel with
      | zero => cases hr
      | succ fuel =>
        rw [hnext] at hr
        rintro t' ht'
        obtain rfl | ht' := List.mem_cons.1 ht'
        · exact htype
        · exact ih h₁ hr t' ht'
    · rw [List.takeWhile_cons_of_neg (by simpa using he)]
      exact nofun

/-! ## What has been run -/

theorem count_ranAll (hnd : l.Nodup) (s : TimerState) (tid : Nat) :
    (ranAll l s).count (.ran tid s.now) = s.log.count (.ran tid s.now) + if tid ∈ l then 1 else 0 := by
  have hinj : Function.Injective fun t => Event.ran t s.now := fun a b hab => (Event.ran.inj hab).1
  rw [ranAll, List.count_append, List.count_reverse, List.count_map_of_injective _ _ hinj, add_comm, hnd.count]

/-- Runs of `l` that are to be the runs of `timers`. -/
theorem ranOnce_iff (hnd : l.Nodup) (hnow : s'.now = s.now) (hlog : s'.log = ranAll l s) :
    RanOnce timers s s' ↔ ∀ tid, tid ∈ l ↔ tid ∈ timers := by
  unfold RanOnce
  rw [hlog]
  refine ⟨fun h tid => ?_, fun h => ⟨hnow, fun tid => ?_⟩⟩
  · have := h.2 tid
    rw [count_ranAll hnd] at this
    by_cases h1 : tid ∈ l <;> by_cases h2 : tid ∈ timers <;> simp only [h1, h2, if_true, if_false, iff_self] at this ⊢ <;>
      omega
  · rw [count_ranAll hnd]
    simp only [h tid]

/-! ## The interrupt and the bottom half -/

theorem Holds.length_lt_maxRounds (h : Holds c s.orders timers) : timers.length < maxRounds c := Nat.lt_succ_of_le h.length_le

/-- The state in which `timer_irq_timeout` comes to `timer_run_timeout`, or returns. -/
theorem tickHandler_eq (hp : Pending c s) (h : Holds c s.orders timers) :
    ∃ s₀, Marked c s₀ timers (Expires s) ∧ s₀.now = s.now ∧ s₀.log = s.log ∧
      tickHandler c s [] =
        if ∃ t ∈ timers, Expires s t ∧ c.type t = .irq then timerRunTimeout c .irq (maxRounds c) s₀ [] else some s₀ := by
  obtain ⟨hmarked, hnow, hlog, hrun⟩ := irqScan_marked hp h
  obtain ⟨hmarked', hnow', hlog'⟩ := timerRecalcTimeout_marked true hmarked
  have htick : tickHandler c s [] = timerIrqTimeout c s [] := if_neg (not_not.2 hp.period.2)
  rw [htick, timerIrqTimeout, if_neg (not_not.2 hp.period.1)]
  simp only [hrun]
  by_cases hbh : (irqScan c s).runBh = true
  · simp only [if_pos hbh]
    exact ⟨_, hmarked, hnow, hlog, rfl⟩
  · simp only [if_neg hbh]
    exact ⟨_, hmarked', hnow'.trans hnow, hlog'.trans hlog, rfl⟩

theorem timerBhHandler_front (h : Marked c s timers e) (htype : ∀ t ∈ timers.takeWhile e, c.type t = .bh) :
    ∃ s', timerBhHandler c s [] = some s' ∧ s'.now = s.now ∧ s'.log = ranAll (timers.takeWhile e) s := by
  obtain ⟨s₁, hs₁, h₁, hnow₁, hlog₁⟩ := timerRunTimeout_front h htype h.holds.length_lt_maxRounds
  obtain ⟨-, hnow₂, hlog₂⟩ := timerRecalcTimeout_marked true h₁
  obtain ⟨-, -, hnow₃, hlog₃⟩ := timerRestart_frame (c := c) (timerRecalcTimeout c true s₁)
  refine ⟨timerRestart c (timerRecalcTimeout c true s₁), ?_, hnow₃.trans (hnow₂.trans hnow₁),
    hlog₃.trans (hlog₂.trans hlog₁)⟩
  rw [timerBhHandler, timerBhTimeout, hs₁]
  rfl

theorem front_of_timerBhHandler (h : Marked c s timers e) (hr : timerBhHandler c s [] = some s') :
    ∀ t ∈ timers.takeWhile e, c.type t = .bh := by
  obtain ⟨s₂, hs₂, -⟩ := Option.map_eq_some_iff.1 hr
  obtain ⟨s₁, hs₁, -⟩ := Option.map_eq_some_iff.1 hs₂
  exact front_of_timerRunTimeout h hs₁

theorem mem_expired (h : Holds c s.orders timers) :
    tid ∈ expired c s type ↔ tid ∈ timers ∧ Expires s tid ∧ c.type tid = type := by
  rw [expired, h.pending_eq, List.mem_filter, decide_eq_true_iff]

/-- The bottom half after an interrupt that has left the timers. -/
theorem ranOnce_timerBhHandler (h : Marked c s timers e) :
    (∃ s', timerBhHandler c { s with bhAwake := false } [] = some s' ∧ RanOnce l s s') ↔
      (∀ t ∈ timers.takeWhile e, c.type t = .bh) ∧ ∀ tid, tid ∈ timers.takeWhile e ↔ tid ∈ l := by
  have hnd : (timers.takeWhile e).Nodup := h.holds.nodup.sublist (List.takeWhile_sublist _)
  constructor
  · rintro ⟨s', hs', hran⟩
    have htype := front_of_timerBhHandler (h.wake false) hs'
    obtain ⟨s'', hs'', hnow, hlog⟩ := timerBhHandler_front (h.wake false) htype
    obtain rfl := Option.some.inj (hs'.symm.trans hs'')
    exact ⟨htype, (ranOnce_iff (s := s) hnd hnow hlog).1 hran⟩
  · rintro ⟨htype, hmem⟩
    obtain ⟨s', hs', hnow, hlog⟩ := timerBhHandler_front (h.wake false) htype
    exact ⟨s', hs', (ranOnce_iff (s := s) hnd hnow hlog).2 hmem⟩

/-- When no timer of the interrupt expires, the bottom half has to find all that do at the front. -/
theorem dispatches_of_none (hp : Pending c s) (h : Holds c s.orders timers)
    (hnone : ¬ ∃ t ∈ timers, Expires s t ∧ c.type t = .irq) :
    Dispatches c s ↔ (∀ t ∈ timers.takeWhile (Expires s), c.type t = .bh) ∧
      ∀ tid, tid ∈ timers.takeWhile (Expires s) ↔ tid ∈ expired c s .bh := by
  obtain ⟨s₀, h₀, hnow, hlog, htick⟩ := tickHandler_eq hp h
  rw [if_neg hnone] at htick
  have hran : RanOnce (expired c s .irq) s s₀ := by
    refine (ranOnce_iff List.nodup_nil hnow hlog).2 fun tid => ⟨nofun, fun hmem => ?_⟩
    exact absurd ⟨tid, (mem_expired h).1 hmem⟩ hnone
  rw [← ranOnce_timerBhHandler h₀, Dispatches]
  constructor
  · rintro ⟨s₁, hs₁, -, hbh⟩
    obtain rfl := Option.some.inj (htick.symm.trans hs₁)
    exact hbh
  · intro hbh
    exact ⟨s₀, htick, hran, hbh⟩

/-- When one does, the interrupt has to find all that do at the front, and nothing is left for the
bottom half. -/
theorem dispatches_of_some (hp : Pending c s) (h : Holds c s.orders timers)
    (hsome : ∃ t ∈ timers, Expires s t ∧ c.type t = .irq) :
    Dispatches c s ↔ (∀ t ∈ timers.takeWhile (Expires s), c.type t = .irq) ∧
      (∀ tid, tid ∈ timers.takeWhile (Expires s) ↔ tid ∈ expired c s .irq) ∧ ∀ tid, tid ∉ expired c s .bh := by
  obtain ⟨s₀, h₀, hnow, hlog, htick⟩ := tickHandler_eq hp h
  rw [if_pos hsome] at htick
  have hnd : (timers.takeWhile (Expires s)).Nodup := h.nodup.sublist (List.takeWhile_sublist _)
  -- the interrupt has taken the timers at the front, and the first one left is armed
  have hrest : (timers.dropWhile (Expires s)).takeWhile (Expires s) = [] := by
    refine List.takeWhile_eq_nil_iff.2 fun hpos => Bool.eq_false_iff.1 ?_
    rw [List.get_eq_getElem, ← List.head_eq_getElem (List.length_pos_iff.1 hpos)]
    exact List.head_dropWhile_not (fun t => decide (Expires s t)) (List.length_pos_iff.1 hpos)
  have hlog₀ : ∀ l, ranAll l s₀ = ranAll l s := fun l => by rw [ranAll, ranAll, hnow, hlog]
  have hfront := fun htype : ∀ t ∈ timers.takeWhile (Expires s), c.type t = .irq =>
    timerRunTimeout_front h₀ htype h.length_lt_maxRounds
  constructor
  · rintro ⟨s₁, hs₁, hran, hbh⟩
    have htype := front_of_timerRunTimeout h₀ (htick.symm.trans hs₁)
    obtain ⟨s₁', hs₁', h₁, hnow₁, hlog₁⟩ := hfront htype
    obtain rfl := Option.some.inj (hs₁.symm.trans (htick.trans hs₁'))
    obtain ⟨-, hleft⟩ := (ranOnce_timerBhHandler h₁).1 hbh
    rw [hrest] at hleft
    exact ⟨htype, (ranOnce_iff hnd (hnow₁.trans hnow) (hlog₁.trans (hlog₀ _))).1 hran, fun tid hmem => nomatch (hleft tid).2 hmem⟩
  · rintro ⟨htype, hmem, hleft⟩
    obtain ⟨s₁, hs₁, h₁, hnow₁, hlog₁⟩ := hfront htype
    refine ⟨s₁, htick.trans hs₁, (ranOnce_iff hnd (hnow₁.trans hnow) (hlog₁.trans (hlog₀ _))).2 hmem, ?_⟩
    refine (ranOnce_timerBhHandler h₁).2 ⟨?_, fun tid => ?_⟩
    · rw [hrest]
      exact nofun
    · rw [hrest]
      exact ⟨nofun, fun h => absurd h (hleft tid)⟩

theorem mem_takeWhile {l : List Nat} (h : tid ∈ l.takeWhile e) : tid ∈ l ∧ e tid :=
  ⟨(List.takeWhile_sublist _).subset h, by simpa using List.mem_takeWhile_imp h⟩

/-- The interrupt and the bottom half run the timers that expire, each in the context of its type,
exactly when these are all of one type and stand at the front. -/
theorem dispatches_iff (hp : Pending c s) : Dispatches c s ↔ OneType c s := by
  obtain ⟨timers, h⟩ := hp.orders
  by_cases hsome : ∃ t ∈ timers, Expires s t ∧ c.type t = .irq
  · rw [dispatches_of_some hp h hsome]
    constructor
    · rintro ⟨htype, hmem, hleft⟩
      have hirq : ∀ tid ∈ timers, Expires s tid → c.type tid = .irq := fun tid ht he => by
        cases hty : c.type tid with
        | irq => rfl
        | bh => exact absurd ((mem_expired h).2 ⟨ht, he, hty⟩) (hleft tid)
      refine ⟨⟨.irq, h.pending_eq.symm ▸ hirq⟩, ?_⟩
      rw [h.pending_eq]
      exact fun tid ht he => (hmem tid).2 ((mem_expired h).2 ⟨ht, he, hirq tid ht he⟩)
    · rintro ⟨⟨type, hsame⟩, hfront⟩
      rw [h.pending_eq] at hsame hfront
      obtain ⟨t, ht, he, hty⟩ := hsome
      obtain rfl := (hsame t ht he).symm.trans hty
      refine ⟨fun tid hmem => ?_, fun tid => ⟨fun hmem => ?_, fun hmem => ?_⟩, fun tid hmem => ?_⟩
      · exact hsame tid (mem_takeWhile hmem).1 (mem_takeWhile hmem).2
      · obtain ⟨htid, hex⟩ := mem_takeWhile hmem
        exact (mem_expired h).2 ⟨htid, hex, hsame tid htid hex⟩
      · obtain ⟨htid, hex, -⟩ := (mem_expired h).1 hmem
        exact hfront tid htid hex
      · obtain ⟨htid, hex, hbh⟩ := (mem_expired h).1 hmem
        exact absurd ((hsame tid htid hex).symm.trans hbh) (by decide)
  · rw [dispatches_of_none hp h hsome]
    -- what expires is of the other type
    have hbh : ∀ tid ∈ timers, Expires s tid → c.type tid = .bh := fun tid ht he => by
      cases hty : c.type tid with
      | bh => rfl
      | irq => exact absurd ⟨tid, ht, he, hty⟩ hsome
    constructor
    · rintro ⟨-, hmem⟩
      refine ⟨⟨.bh, h.pending_eq.symm ▸ hbh⟩, ?_⟩
      rw [h.pending_eq]
      exact fun tid ht he => (hmem tid).2 ((mem_expired h).2 ⟨ht, he, hbh tid ht he⟩)
    · rintro ⟨-, hfront⟩
      rw [h.pending_eq] at hfront
      refine ⟨fun tid hmem => hbh tid (mem_takeWhile hmem).1 (mem_takeWhile hmem).2, fun tid => ⟨fun hmem => ?_, fun hmem => ?_⟩⟩
      · obtain ⟨htid, hex⟩ := mem_takeWhile hmem
        exact (mem_expired h).2 ⟨htid, hex, hbh tid htid hex⟩
      · obtain ⟨htid, hex, -⟩ := (mem_expired h).1 hmem
        exact hfront tid htid hex

/-! ## Runs with timers of both types -/

/-- Timer 0 is run by the bottom half, and timers 1 and 2 by the interrupt. -/
def mixedTimers : Config := { irqTimers with type := fun tid => if tid = 0 then .bh else .irq }

/-- The interrupt is due, and ends the period. The timers of `timer_orders` are armed. -/
def Due (s : TimerState) (timers : List Nat) : Prop :=
  GptDue s ∧ (TimerShot s.timeout ∧ s.unshotTimeout = 0) ∧
    s.orders = timers ++ List.replicate (4 - timers.length) 3 ∧ ∀ t ∈ timers, TimerShot (s.timeouts t)

instance (s : TimerState) (timers : List Nat) : Decidable (Due s timers) := inferInstanceAs (Decidable (_ ∧ _ ∧ _ ∧ _))

theorem Due.holds (h : Due s timers) (hlt : ∀ t ∈ timers, t < 3) (hnd : timers.Nodup) : Holds mixedTimers s.orders timers :=
  ⟨h.2.2.1, hlt, hnd⟩

theorem Due.pending (h : Due s timers) (hlt : ∀ t ∈ timers, t < 3) (hnd : timers.Nodup) : Pending mixedTimers s where
  orders := ⟨timers, h.holds hlt hnd⟩
  timer := by
    rw [(h.holds hlt hnd).pending_eq]
    exact fun t ht => .inl (h.2.2.2 t ht)
  period := h.2.1

/-- Both timers of the interrupt expire, and the one of the bottom half does not. -/
theorem dispatches_two : ∃ s, Run mixedTimers (fun _ _ => True) s ∧ GptDue s ∧ expired mixedTimers s .irq = [1, 2] ∧
    Dispatches mixedTimers s := by
  obtain ⟨s, hrun, hs⟩ : ∃ s, Run mixedTimers (fun _ _ => True) s ∧
      decide (Due s [1, 2, 0] ∧ Expires s 1 ∧ Expires s 2 ∧ ¬ Expires s 0) = true :=
    Framework.Run.of_check [.bottomHalf [], .schedule 1 1, .schedule 2 1, .schedule 0 5, .tick]
      (fun s => decide (Due s [1, 2, 0] ∧ Expires s 1 ∧ Expires s 2 ∧ ¬ Expires s 0)) ⟨0, rfl⟩ (by decide)
  obtain ⟨hdue, h1, h2, h0⟩ := of_decide_eq_true hs
  have hp := hdue.pending (by decide) (by decide)
  have hpending := (hdue.holds (by decide) (by decide)).pending_eq
  refine ⟨s, hrun, hdue.1, ?_, (dispatches_iff hp).2 ⟨⟨.irq, ?_⟩, ?_⟩⟩
  · rw [expired, hpending]
    simp [h0, h1, h2, mixedTimers]
  · rw [hpending]
    simp [h0, mixedTimers]
  · rw [hpending]
    simp [h0, h1, h2]

/-- A timer of the bottom half and one of the interrupt expire together. The loop of the interrupt
finds the first on top, and never comes to the second. -/
theorem not_dispatches_mixed : ∃ s, Run mixedTimers (fun _ _ => True) s ∧ GptDue s ∧ expired mixedTimers s .bh = [0] ∧
    expired mixedTimers s .irq = [1] ∧ (irqScan mixedTimers s).runIrq = true ∧
    (∀ fuel, timerRunTimeout mixedTimers .irq fuel (irqScan mixedTimers s).state [] = none) ∧
    ¬ Dispatches mixedTimers s := by
  obtain ⟨s, hrun, hs⟩ : ∃ s, Run mixedTimers (fun _ _ => True) s ∧
      decide (Due s [0, 1] ∧ Expires s 0 ∧ Expires s 1) = true :=
    Framework.Run.of_check [.bottomHalf [], .schedule 0 1, .schedule 1 1, .tick]
      (fun s => decide (Due s [0, 1] ∧ Expires s 0 ∧ Expires s 1)) ⟨0, rfl⟩ (by decide)
  obtain ⟨hdue, h0, h1⟩ := of_decide_eq_true hs
  have hp := hdue.pending (by decide) (by decide)
  have hh := hdue.holds (by decide) (by decide)
  obtain ⟨hmarked, -, -, hirq⟩ := irqScan_marked hp hh
  have hsome : ∃ t ∈ [0, 1], Expires s t ∧ mixedTimers.type t = .irq := ⟨1, by decide, h1, rfl⟩
  refine ⟨s, hrun, hdue.1, ?_, ?_, hirq.2 hsome, timerRunTimeout_other hmarked h0 (by decide), fun hd => ?_⟩
  · rw [expired, hh.pending_eq]
    simp [h0, h1, mixedTimers]
  · rw [expired, hh.pending_eq]
    simp [h0, h1, mixedTimers]
  · obtain ⟨s₁, hs₁, -⟩ := hd
    obtain ⟨s₀, h₀, -, -, htick⟩ := tickHandler_eq hp hh
    rw [if_pos hsome, timerRunTimeout_other h₀ h0 (by decide)] at htick
    exact nomatch htick.symm.trans hs₁

end Sdfirm.Timer
