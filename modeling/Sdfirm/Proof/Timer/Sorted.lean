import Sdfirm.Proof.Bitops.Bits
import Sdfirm.Proof.Timer.Dispatch

/-!
# The timers are kept in the order of their times

`Sorted` is what is kept about the timers of `timer_orders`: all are armed, in
order, and no time is less than the period. Taking a span off every time is
monotone (`timeLeft_mono`), so a recalculation keeps it (`timerRecalc_sorted`);
a timer that is scheduled goes between the times that are not greater and
those that are (`Sorted.insert`). A time that does not fit `TIMER_MAKE` is
negative in its encoding, and becomes positive when a span is taken off.
-/

namespace Sdfirm.Timer

variable {c : Config} {unit : Nat} {s : TimerState} {timers l r : List Nat} {tid t : Nat} {shot : Bool} {span x y timeout : Int}
  {timeouts timeouts' : Nat → Int}

/-- The timers are armed and in order, from the period on. -/
structure Sorted (c : Config) (timers : List Nat) (timeouts : Nat → Int) (timeout : Int) : Prop where
  nonneg : 0 ≤ timerTime timeout
  shot : ∀ t ∈ timers, TimerShot (timeouts t)
  le : ∀ t ∈ timers, timerTime timeout ≤ timerTime (timeouts t)
  lt : ∀ t ∈ timers, timerTime (timeouts t) < 2 ^ (c.bits - 2)
  sorted : timers.Pairwise fun a b => timerTime (timeouts a) ≤ timerTime (timeouts b)

theorem Sorted.congr (h : Sorted c timers timeouts timeout) (he : ∀ t ∈ timers, timeouts' t = timeouts t) :
    Sorted c timers timeouts' timeout where
  nonneg := h.nonneg
  shot t ht := he t ht ▸ h.shot t ht
  le t ht := he t ht ▸ h.le t ht
  lt t ht := he t ht ▸ h.lt t ht
  sorted := h.sorted.imp_of_mem fun ha hb hle => by rwa [he _ ha, he _ hb]

theorem Sorted.erase (h : Sorted c timers timeouts timeout) (tid : Nat) : Sorted c (timers.erase tid) timeouts timeout where
  nonneg := h.nonneg
  shot t ht := h.shot t (List.mem_of_mem_erase ht)
  le t ht := h.le t (List.mem_of_mem_erase ht)
  lt t ht := h.lt t (List.mem_of_mem_erase ht)
  sorted := h.sorted.sublist List.erase_sublist

/-! ## Recalculation -/

theorem timeLeft_mono (shot : Bool) (span : Int) (h : timerTime x ≤ timerTime y) : timeLeft shot span x ≤ timeLeft shot span y := by
  unfold timeLeft timeAfter
  split <;> omega

/-- What `__timer_recalc_timeout` takes off is not more than any time, if it is the period. -/
theorem Sorted.span_bounds (h : Sorted c timers s.timeouts s.timeout) (hlt : timerTime s.timeout < 2 ^ (c.bits - 2)) (shot : Bool) :
    0 ≤ recalcSpan c shot s ∧ recalcSpan c shot s < 2 ^ (c.bits - 1) ∧
      ∀ t ∈ timers, Spans c shot (recalcSpan c shot s) (s.timeouts t) := by
  have hp := c.pow_bits
  have h0 := h.nonneg
  have hspan : 0 ≤ recalcSpan c shot s ∧ recalcSpan c shot s < 2 ^ (c.bits - 1) := by
    cases shot with
    | false => exact recalcSpan_bounds c s
    | true =>
      simp only [recalcSpan, if_true]
      omega
  refine ⟨hspan.1, hspan.2, fun t ht => ⟨h0.trans (h.le t ht), h.lt t ht, ?_⟩⟩
  rintro rfl
  simpa [recalcSpan] using h.le t ht

theorem timerRecalc_sorted (hholds : Holds c s.orders timers) (h : Sorted c timers s.timeouts s.timeout)
    (hlt : timerTime s.timeout < 2 ^ (c.bits - 2)) (shot : Bool) :
    ∃ timeouts timeout, timerRecalc c shot s = { s with lastTick := s.tick, timeouts := timeouts, timeout := timeout } ∧
      Sorted c timers timeouts timeout ∧ timerTime timeout < 2 ^ (c.bits - 2) ∧ (¬ TimerShot timeout → timers = []) := by
  have hp := c.pow_bits
  obtain ⟨h0, h1, hspans⟩ := h.span_bounds hlt shot
  obtain ⟨timeouts, timeout, he, htimeouts, htimeout⟩ := recalcTimer_foldl (c := c)
    (s := { s with lastTick := s.tick, timeout := timerIdle }) h0 h1 hholds.nodup fun t ht _ => hspans t ht
  have hbounds : ∀ t ∈ timers, 0 ≤ timeLeft shot (recalcSpan c shot s) (s.timeouts t) ∧ _ :=
    fun t ht => (hspans t ht).timeLeft_bounds h0
  have hnew : ∀ t ∈ timers, timeouts t = c.timerMake (timeLeft shot (recalcSpan c shot s) (s.timeouts t)) :=
    fun t ht => (htimeouts t).trans (if_pos ⟨ht, h.shot t ht⟩)
  have htime : ∀ t ∈ timers, timerTime (timeouts t) = timeLeft shot (recalcSpan c shot s) (s.timeouts t) := fun t ht => by
    rw [hnew t ht, timerTime_make (hbounds t ht).1 (hbounds t ht).2]
  have hmono : timers.Pairwise fun a b => timerTime (timeouts a) ≤ timerTime (timeouts b) :=
    h.sorted.imp_of_mem fun ha hb hle => by
      rw [htime _ ha, htime _ hb]
      exact timeLeft_mono shot _ hle
  -- the period is the time of the first timer
  have hfirst : timers = [] ∧ timeout = timerIdle ∨ ∃ t r, timers = t :: r ∧ timeout = timeouts t := by
    rw [if_neg not_timerShot_idle] at htimeout
    cases timers with
    | nil => exact .inl ⟨rfl, htimeout⟩
    | cons t r =>
      have hshot : TimerShot (s.timeouts t) := h.shot t List.mem_cons_self
      rw [List.find?_cons_of_pos (by simpa using hshot), Option.elim_some] at htimeout
      exact .inr ⟨t, r, rfl, htimeout⟩
  have hrecalc : timerRecalc c shot s = { s with lastTick := s.tick, timeouts := timeouts, timeout := timeout } := by
    rw [timerRecalc, hholds.pending_eq]
    exact he
  refine ⟨timeouts, timeout, hrecalc, ?_⟩
  rcases hfirst with ⟨rfl, rfl⟩ | ⟨t, r, rfl, rfl⟩
  · exact ⟨⟨le_rfl, by simp, by simp, by simp, List.Pairwise.nil⟩, (by decide : timerTime timerIdle < 1).trans hp.2, fun _ => rfl⟩
  · have ht : t ∈ t :: r := List.mem_cons_self
    have hshot : ∀ t' ∈ t :: r, TimerShot (timeouts t') := fun t' ht' => hnew t' ht' ▸ timerShot_timerMake c _
    refine ⟨⟨?_, hshot, fun t' ht' => ?_, fun t' ht' => ?_, hmono⟩, ?_, fun hno => absurd (hshot t ht) hno⟩
    · rw [htime t ht]
      exact (hbounds t ht).1
    · rcases List.mem_cons.1 ht' with rfl | ht'
      · exact le_rfl
      · exact List.rel_of_pairwise_cons hmono ht'
    · rw [htime t' ht']
      exact (hbounds t' ht').2
    · rw [htime t ht]
      exact (hbounds t ht).2

/-! ## Scheduling -/

/-- An element goes between those that are not greater and those that are not less. -/
theorem pairwise_insert {key : Nat → Int} (h : (l ++ r).Pairwise fun a b => key a ≤ key b)
    (hl : ∀ t ∈ l.getLast?, key t ≤ key tid) (hr : ∀ t ∈ r, key tid ≤ key t) :
    (l ++ tid :: r).Pairwise fun a b => key a ≤ key b := by
  obtain ⟨h1, h2, h3⟩ := List.pairwise_append.1 h
  have hle : ∀ a ∈ l, key a ≤ key tid := by
    rcases List.eq_nil_or_concat l with rfl | ⟨l, t, rfl⟩
    · simp
    · rw [List.concat_eq_append] at h1 hl ⊢
      have ht : key t ≤ key tid := hl t (by simp)
      intro a ha
      rcases List.mem_append.1 ha with ha | ha
      · exact ((List.pairwise_append.1 h1).2.2 a ha t (by simp)).trans ht
      · rwa [List.mem_singleton.1 ha]
  refine List.pairwise_append.2 ⟨h1, List.pairwise_cons.2 ⟨hr, h2⟩, fun a ha b hb => ?_⟩
  rcases List.mem_cons.1 hb with rfl | hb
  · exact hle a ha
  · exact h3 a ha b hb

/-- A timer is put in its place, with a period that is not more than its time. -/
theorem Sorted.insert {timeout' : Int} (h : Sorted c (l ++ r) timeouts timeout) (hl : ∀ t ∈ l.getLast?, timerTime (timeouts t) ≤ timerTime (timeouts tid))
    (hr : ∀ t ∈ r, timerTime (timeouts tid) ≤ timerTime (timeouts t)) (hshot : TimerShot (timeouts tid))
    (hlt : timerTime (timeouts tid) < 2 ^ (c.bits - 2)) (h0 : 0 ≤ timerTime timeout')
    (hle : ∀ t ∈ l ++ r, timerTime timeout' ≤ timerTime (timeouts t)) (htid : timerTime timeout' ≤ timerTime (timeouts tid)) :
    Sorted c (l ++ tid :: r) timeouts timeout' := by
  have hmem : ∀ t ∈ l ++ tid :: r, t = tid ∨ t ∈ l ++ r := fun t ht => by
    simp only [List.mem_append, List.mem_cons] at ht ⊢
    tauto
  refine ⟨h0, fun t ht => ?_, fun t ht => ?_, fun t ht => ?_, pairwise_insert h.sorted hl hr⟩
  · rcases hmem t ht with rfl | ht
    exacts [hshot, h.shot t ht]
  · rcases hmem t ht with rfl | ht
    exacts [htid, hle t ht]
  · rcases hmem t ht with rfl | ht
    exacts [hlt, h.lt t ht]

theorem timerRecalc_orders (shot : Bool) (s : TimerState) : (timerRecalc c shot s).orders = s.orders :=
  (recalcTimer_foldl_idle ..).1

/-- No `BUG_ON` of `__timer_add` fires, whatever the times are. -/
theorem timerScheduleShot_isSome (hholds : Holds c s.orders timers) {tout : Int} (hok : CallOk c (tid, tout)) :
    (timerScheduleShot c s tid tout).isSome = true := by
  have hmax : ¬ tout > c.maxTimeout := by
    have : tout < 2 ^ (c.bits - 1) := hok.2.2
    unfold Config.maxTimeout
    omega
  have hdel : Holds c (timerDel c tid s.orders) (timers.erase tid) := timerDel_holds hholds
  have hnot : tid ∉ timers.erase tid := fun hm => (hholds.nodup.mem_erase_iff.1 hm).1 rfl
  simp only [timerScheduleShot, if_neg hmax, Option.isSome_map, timerRecalc_orders]
  obtain ⟨orders, -, -, -, he, -⟩ := timerAdd_holds (Function.update (timerRecalc c false { s with
    log := .scheduled tid s.now tout :: s.log, orders := timerDel c tid s.orders }).timeouts tid
      (c.timerMake (if tout ≤ 0 then 1 else tout))) hdel hnot hok.1
  rw [he]
  rfl

theorem timerScheduleShot_sorted {s' : TimerState} (hholds : Holds c s.orders timers) (h : Sorted c timers s.timeouts s.timeout)
    (hlt : timerTime s.timeout < 2 ^ (c.bits - 2)) {tout : Int} (hok : CallOk c (tid, tout)) (hfit : TimeFits c (tid, tout))
    (he : timerScheduleShot c s tid tout = some s') :
    ∃ timers', Holds c s'.orders timers' ∧ (∀ t ∈ timers', t = tid ∨ t ∈ timers) ∧
      Sorted c timers' s'.timeouts s'.timeout ∧ timerTime s'.timeout < 2 ^ (c.bits - 2) := by
  have hp := c.pow_bits
  have hmax : ¬ tout > c.maxTimeout := by
    have : tout < 2 ^ (c.bits - 1) := hok.2.2
    unfold Config.maxTimeout
    omega
  have hdel : Holds c (timerDel c tid s.orders) (timers.erase tid) := timerDel_holds hholds
  have hnot : tid ∉ timers.erase tid := fun hm => (hholds.nodup.mem_erase_iff.1 hm).1 rfl
  obtain ⟨timeouts, timeout, hrecalc, hs, hplt, hempty⟩ := timerRecalc_sorted
    (s := { s with log := .scheduled tid s.now tout :: s.log, orders := timerDel c tid s.orders }) hdel (h.erase tid) hlt false
  obtain ⟨tm, htm, htm1, htm2⟩ : ∃ tm, tm = (if tout ≤ 0 then 1 else tout) ∧ 1 ≤ tm ∧ tm < 2 ^ (c.bits - 2) := by
    have : tout < 2 ^ (c.bits - 2) := hfit
    refine ⟨_, rfl, ?_⟩
    split <;> omega
  have hs' : Sorted c (timers.erase tid) (Function.update timeouts tid (c.timerMake tm)) timeout :=
    hs.congr fun t ht => Function.update_of_ne (fun e => hnot (by rwa [e] at ht)) _ _
  obtain ⟨orders, l, r, hlr, hadd, hholds', hl, hr⟩ :=
    timerAdd_holds (Function.update timeouts tid (c.timerMake tm)) hdel hnot hok.1
  simp only [timerScheduleShot, if_neg hmax, hrecalc, ← htm, hadd, Option.map_some, Function.update_self, Option.some.injEq] at he
  have hs₂ : s'.orders = orders ∧ s'.timeouts = Function.update timeouts tid (c.timerMake tm) ∧
      s'.timeout = if ¬ TimerShot timeout ∨ tm < timerTime timeout then c.timerMake tm else timeout := by
    rw [← he]
    unfold timerRestart timerShotTimeout
    split_ifs <;> exact ⟨rfl, rfl, rfl⟩
  have hmake : timerTime (c.timerMake tm) = tm := timerTime_make (by omega) htm2
  -- the new period is at most the old one and the time of the timer
  have hperiod : 0 ≤ timerTime s'.timeout ∧ timerTime s'.timeout ≤ tm ∧
      ∀ t ∈ timers.erase tid, timerTime s'.timeout ≤ timerTime (Function.update timeouts tid (c.timerMake tm) t) := by
    have h0 := hs.nonneg
    rw [hs₂.2.2]
    split
    · rename_i hnew
      rw [hmake]
      refine ⟨by omega, le_rfl, fun t ht => ?_⟩
      rcases hnew with hno | hless
      · rw [hempty hno] at ht
        cases ht
      · exact hless.le.trans (hs'.le t ht)
    · rename_i hold
      rw [not_or, not_lt] at hold
      exact ⟨h0, hold.2, hs'.le⟩
  have htid : Function.update timeouts tid (c.timerMake tm) tid = c.timerMake tm := Function.update_self ..
  rw [hs₂.1, hs₂.2.1]
  rw [hlr] at hs' hperiod
  refine ⟨l ++ tid :: r, hholds', fun t ht => ?_, ?_, hperiod.2.1.trans_lt htm2⟩
  · have hmem : t = tid ∨ t ∈ timers.erase tid := by
      rw [hlr]
      simp only [List.mem_append, List.mem_cons] at ht ⊢
      tauto
    exact hmem.imp id List.mem_of_mem_erase
  · apply hs'.insert hl hr _ _ hperiod.1 hperiod.2.2
    · rw [htid, hmake]
      exact hperiod.2.1
    · rw [htid]
      exact timerShot_timerMake c tm
    · rwa [htid, hmake]

/-! ## Runs -/

/-- The timers of `timer_orders` are registered and sorted. -/
structure TableInv (c : Config) (unit : Nat) (s : TimerTable) (timers : List Nat) : Prop where
  holds : Holds c s.timers.orders timers
  words : ∀ i, s.regs i < 2 ^ unit
  registered : ∀ t ∈ timers, Bitops.testBit unit t s.regs = true
  sorted : Sorted c timers s.timers.timeouts s.timers.timeout
  period : timerTime s.timers.timeout < 2 ^ (c.bits - 2)

theorem TableInv.ordered {s : TimerTable} (h : TableInv c unit s timers) : Ordered c unit s where
  holds := h.holds.pending_eq.symm ▸ h.holds
  timer t ht := by
    rw [h.holds.pending_eq] at ht
    exact ⟨⟨h.holds.lt t ht, h.registered t ht⟩, .inl (h.sorted.shot t ht)⟩
  sorted := h.holds.pending_eq.symm ▸ h.sorted.sorted
  adds tid toutMs _ hok := timerScheduleShot_isSome h.holds hok

theorem timerInit_tableInv (c : Config) (unit now : Nat) : TableInv c unit ⟨timerInit c now, fun _ => 0⟩ [] where
  holds := ⟨by simp [timerInit], by simp, List.nodup_nil⟩
  words _ := Nat.two_pow_pos unit
  registered := by simp
  sorted := ⟨le_rfl, by simp, by simp, by simp, List.Pairwise.nil⟩
  period := (by decide : timerTime timerIdle < 1).trans c.pow_bits.2

theorem timerRegister_inv {s s' : TimerTable} (hu : Bitops.UnitBits unit) (h : TableInv c unit s timers)
    (he : timerRegister c unit s = some s') : TableInv c unit s' timers := by
  simp only [timerRegister] at he
  split at he
  · cases he
  · rename_i hne
    obtain rfl := Option.some.inj he
    -- the bit that is found is clear, so the timer is not one of them
    have hclear := (Bitops.findNextClearBit_first hu h.words c.nrTimers 0).resolve_right fun hno => hne hno.2
    have hnot : ∀ t ∈ timers, t ≠ Bitops.findNextClearBit unit s.regs c.nrTimers 0 := fun t ht e =>
      Bool.false_ne_true ((e ▸ hclear.1.2.2).symm.trans (h.registered t ht))
    refine ⟨h.holds, Bitops.setBit_lt hu h.words, fun t ht => ?_, h.sorted.congr fun t ht => ?_, h.period⟩
    · rw [Bitops.testBit_setBit, h.registered t ht, Bool.or_true]
    · exact Function.update_of_ne (hnot t ht) _ _

theorem timerUnregister_inv {s s' : TimerTable} (hu : Bitops.UnitBits unit) (h : TableInv c unit s timers)
    (he : timerUnregister c unit s tid = some s') : TableInv c unit s' (timers.erase tid) := by
  unfold timerUnregister at he
  split at he
  · cases he
  · obtain rfl := Option.some.inj he
    refine ⟨timerDel_holds h.holds, Bitops.clearBit_lt h.words, fun t ht => ?_, h.sorted.erase tid, h.period⟩
    obtain ⟨hne, ht⟩ := h.holds.nodup.mem_erase_iff.1 ht
    rw [Bitops.testBit_clearBit hu.pos, h.registered t ht, decide_eq_false hne]
    rfl

theorem tableStep_inv {s s' : TimerTable} {op : TableOp} (hu : Bitops.UnitBits unit) (h : TableInv c unit s timers)
    (hfit : Fits c s op) (he : tableStep c unit s op = some s') : ∃ timers', TableInv c unit s' timers' := by
  cases op with
  | register => exact ⟨timers, timerRegister_inv hu h he⟩
  | unregister tid =>
    simp only [tableStep] at he
    split at he
    · exact ⟨_, timerUnregister_inv hu h he⟩
    · cases he
  | schedule tid toutMs =>
    simp only [tableStep] at he
    split at he
    · rename_i hcall
      obtain ⟨s₁, hs₁, rfl⟩ := Option.map_eq_some_iff.1 he
      obtain ⟨timers', hholds, hmem, hsorted, hperiod⟩ := timerScheduleShot_sorted h.holds h.sorted h.period hcall.2 hfit hs₁
      refine ⟨timers', hholds, h.words, fun t ht => ?_, hsorted, hperiod⟩
      rcases hmem t ht with rfl | ht
      · exact hcall.1.2
      · exact h.registered t ht
    · cases he
  | recalc shot =>
    obtain rfl := Option.some.inj he
    obtain ⟨timeouts, timeout, hs, hsorted, hperiod, -⟩ := timerRecalc_sorted h.holds h.sorted h.period shot
    refine ⟨timers, ?_⟩
    rw [hs]
    exact ⟨h.holds, h.words, h.registered, hsorted, hperiod⟩
  | ticks n =>
    obtain rfl := Option.some.inj he
    exact ⟨timers, h.holds, h.words, h.registered, h.sorted, h.period⟩
  | running tid =>
    obtain rfl := Option.some.inj he
    exact ⟨timers, h.holds, h.words, h.registered, h.sorted, h.period⟩

/-- While the times asked for fit, the timers stay in order. -/
theorem ordered_of_fits {s : TimerTable} (hu : Bitops.UnitBits unit) (h : TableRun c unit (Fits c) s) : Ordered c unit s := by
  have hinv : ∃ timers, TableInv c unit s timers := by
    refine h.invariant (I := fun s => ∃ timers, TableInv c unit s timers) ?_ ?_
    · rintro _ ⟨now, rfl⟩
      exact ⟨[], timerInit_tableInv c unit now⟩
    · rintro s op s' ⟨timers, hs⟩ hok he
      exact tableStep_inv hu hs hok he
  obtain ⟨timers, hs⟩ := hinv
  exact hs.ordered

/-- A run from the start that has been computed. -/
theorem tableRun_of_check (c : Config) (unit : Nat) (ok : TimerTable → TableOp → Prop) [∀ s op, Decidable (ok s op)]
    {β : Type} (ops : List TableOp) (f : TimerTable → β) {b : β}
    (h : (ops.foldlM (Framework.Run.check (tableStep c unit) ok) ⟨timerInit c 0, fun _ => 0⟩).map f = some b) :
    ∃ s, TableRun c unit ok s ∧ f s = b := Framework.Run.of_check ops f ⟨0, rfl⟩ h

/-- Two timers, the second of which is scheduled to come first; then time is taken off both. -/
theorem ordered_of_two : ∃ s, TableRun (threeTimers 32 (by decide) .irq) 8 (Fits (threeTimers 32 (by decide) .irq)) s ∧
    s.timers.orders = [1, 0, 3, 3] ∧ Ordered (threeTimers 32 (by decide) .irq) 8 s := by
  obtain ⟨s, hrun, horders⟩ := tableRun_of_check (threeTimers 32 (by decide) .irq) 8
    (Fits (threeTimers 32 (by decide) .irq))
    [.register, .schedule 0 20, .register, .schedule 1 30, .ticks 5, .schedule 1 10, .recalc true]
    (fun s => s.timers.orders) (by decide : _ = some [1, 0, 3, 3])
  exact ⟨s, hrun, horders, ordered_of_fits (Or.inl rfl) hrun⟩

/-- A time of `2 ^ 30` is negative in its encoding, so its timer is put before the one of 10. When
the period of 10 is taken off, it becomes positive, and the timers are no longer in order. -/
theorem order_lost : ∃ s, TableRun (threeTimers 32 (by decide) .irq) 8 (fun _ _ => True) s ∧
    pending (threeTimers 32 (by decide) .irq) s.timers.orders = [1, 0] ∧
    timerTime (s.timers.timeouts 1) = 2 ^ 30 - 10 ∧ timerTime (s.timers.timeouts 0) = 0 ∧
    ¬ Ordered (threeTimers 32 (by decide) .irq) 8 s := by
  obtain ⟨s, hrun, hs⟩ := tableRun_of_check (threeTimers 32 (by decide) .irq) 8 (fun _ _ => True)
    [.register, .register, .schedule 0 10, .schedule 1 (2 ^ 30), .recalc true]
    (fun s => (pending (threeTimers 32 (by decide) .irq) s.timers.orders,
      timerTime (s.timers.timeouts 1), timerTime (s.timers.timeouts 0)))
    (b := ([1, 0], 2 ^ 30 - 10, 0)) (by decide)
  simp only [Prod.mk.injEq] at hs
  refine ⟨s, hrun, hs.1, hs.2.1, hs.2.2, fun h => ?_⟩
  have hsorted := h.sorted
  rw [hs.1] at hsorted
  have hle := List.rel_of_pairwise_cons hsorted (List.mem_singleton_self 0)
  rw [hs.2.1, hs.2.2] at hle
  exact absurd hle (by decide)

end Sdfirm.Timer
