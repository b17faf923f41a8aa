import Sdfirm.Proof.Bitops.Bits
import Sdfirm.Proof.Framework.Runs
import Sdfirm.Spec.Sched

/-!
# Passes over the bottom halves

`bhSync_eq_turns`: the pass of `bh_loop` is one turn for each bottom half. What
is awake at the beginning of a pass has been run at its end
(`run_of_awake`). The pass of `bh_sync` runs the first that is awake from its
cursor on (`bhResumed_isFirst`), which is the console if nothing else comes
first.
-/

namespace Sdfirm.Bh

open Bitops (IsNext findNextSetBit_isNext)

variable {cfg : Config} {σ : Type} {handlers : List (Handler cfg σ)} {s s' s₁ s₂ : State cfg σ} {bh : Nat}

/-! ## One call -/

theorem awake_bhSuspend (bh i : Nat) (s : State cfg σ) : awake (bhSuspend bh s) i = (!decide (i = bh) && awake s i) :=
  Bitops.testBit_clearBit cfg.unit_pos

theorem Kept.refl (s : State cfg σ) : Kept s s :=
  ⟨[], (List.append_nil _).symm, fun _ _ h => .inl h⟩

theorem Kept.trans (h₁ : Kept s s₁) (h₂ : Kept s₁ s₂) : Kept s s₂ := by
  obtain ⟨l₁, hran₁, hkept₁⟩ := h₁
  obtain ⟨l₂, hran₂, hkept₂⟩ := h₂
  refine ⟨l₁ ++ l₂, by rw [hran₂, hran₁, List.append_assoc], ?_⟩
  intro bh hlt hbh
  obtain h | h := hkept₁ bh hlt hbh
  · obtain h' | h' := hkept₂ bh hlt h
    · exact .inl h'
    · exact .inr (List.mem_append_right _ h')
  · exact .inr (List.mem_append_left _ h)

/-- What a call of a handler does. -/
theorem bhRun_spec (honest : ∀ h ∈ handlers, Honest handlers h) (hlt : bh < handlers.length) (event : Event)
    (hreg : Registered handlers s) :
    ∃ s' l, bhRun handlers bh event s = some s' ∧ Registered handlers s' ∧ s'.ran = s.ran ++ bh :: l ∧
      ∀ i < cfg.nrBhs, awake s i = true → awake s' i = true ∨ i ∈ bh :: l := by
  have hmem := honest _ (List.getElem_mem hlt)
  obtain ⟨l, hran, hkept⟩ := hmem.kept event { s with ran := s.ran ++ [bh] }
  refine ⟨handlers[bh] event { s with ran := s.ran ++ [bh] }, l, ?_, hmem.registered event _ hreg, ?_, ?_⟩
  · rw [bhRun, List.getElem?_eq_getElem hlt]
    rfl
  · rw [hran, List.append_assoc, List.singleton_append]
  · intro i hi hawake
    obtain h | h := hkept i hi hawake
    · exact .inl h
    · exact .inr (List.mem_cons_of_mem _ h)

theorem Registered.bhSuspend (hreg : Registered handlers s) (bh : Nat) : Registered handlers (bhSuspend bh s) := by
  intro i hi hawake
  rw [awake_bhSuspend, Bool.and_eq_true] at hawake
  exact hreg i hi hawake.2

/-- A bottom half that is awake is suspended and run. -/
theorem bhRun_bhSuspend (honest : ∀ h ∈ handlers, Honest handlers h) (hlt : bh < cfg.nrBhs) (hawake : awake s bh = true)
    (hreg : Registered handlers s) :
    ∃ s' l, bhRun handlers bh .wakeup (bhSuspend bh s) = some s' ∧ Registered handlers s' ∧ s'.ran = s.ran ++ bh :: l ∧
      ∀ i < cfg.nrBhs, awake s i = true → awake s' i = true ∨ i ∈ bh :: l := by
  obtain ⟨s', l, hrun, hreg', hran, hkept⟩ :=
    bhRun_spec honest (hreg bh hlt hawake) .wakeup (hreg.bhSuspend bh)
  refine ⟨s', l, hrun, hreg', hran, ?_⟩
  intro i hi hai
  by_cases heq : i = bh
  · exact .inr (heq ▸ List.mem_cons_self)
  · refine hkept i hi ?_
    rw [awake_bhSuspend, decide_eq_false heq, hai]
    rfl

/-! ## The pass of `bh_loop` -/

/-- The turns from the cursor to the next bottom half that is awake do nothing. -/
theorem foldlM_turn_of_not_awake {l : List Nat} (h : ∀ i ∈ l, awake s i = false) : l.foldlM (turn handlers) s = some s := by
  induction l with
  | nil => rfl
  | cons i l ih =>
    have hi : turn handlers s i = some s := by
      rw [turn, if_neg (by rw [h i List.mem_cons_self]; exact Bool.false_ne_true)]
    rw [List.foldlM_cons, hi]
    exact ih fun j hj => h j (List.mem_cons_of_mem _ hj)

theorem range'_split {m r n : Nat} (hle : m ≤ r) (hlt : r < n) :
    List.range' m (n - m) = List.range' m (r - m) ++ r :: List.range' (r + 1) (n - (r + 1)) := by
  have hcount : n - m = (r - m) + ((n - (r + 1)) + 1) := by omega
  have hstart : m + 1 * (r - m) = r := by omega
  rw [hcount, ← List.range'_append, hstart, List.range'_succ]

/-- The pass from any cursor on. -/
theorem bhSyncLoop_eq (fuel m : Nat) (hm : m ≤ cfg.nrBhs) (hfuel : cfg.nrBhs - m < fuel) (s : State cfg σ) :
    bhSyncLoop handlers false fuel (m, s) = (List.range' m (cfg.nrBhs - m)).foldlM (turn handlers) s := by
  induction fuel generalizing m s with
  | zero => exact absurd hfuel (Nat.not_lt_zero _)
  | succ fuel ih =>
    obtain heq | hlt := hm.eq_or_lt
    · rw [bhSyncLoop, if_pos heq, heq, Nat.sub_self]
      rfl
    have hnext := findNextSetBit_isNext cfg.unitBits s.awakes_lt hm
    rw [bhSyncLoop, if_neg hlt.ne, bhSyncStep, if_pos (.inl rfl), bhRunOnce]
    dsimp only
    rw [show bhResumed m false s = Bitops.findNextSetBit cfg.unit s.awakes cfg.nrBhs m from if_pos (.inr (.inr rfl))]
    generalize Bitops.findNextSetBit cfg.unit s.awakes cfg.nrBhs m = r at hnext ⊢
    have hclear (i : Nat) (hi : i ∈ List.range' m (r - m)) : awake s i = false := by
      obtain ⟨h1, h2⟩ := List.mem_range'_1.1 hi
      exact hnext.clear i h1 (by omega)
    obtain hend | hr := hnext.le_size.eq_or_lt
    · rw [if_pos hend, ← hend, foldlM_turn_of_not_awake hclear, Option.bind_some, hend]
      cases fuel with
      | zero => exact if_pos rfl
      | succ fuel => exact if_pos rfl
    · rw [if_neg hr.ne, range'_split hnext.le hr, List.foldlM_append, foldlM_turn_of_not_awake hclear]
      have hset : awake s r = true := hnext.set hr
      show _ = (r :: _).foldlM (turn handlers) s
      rw [List.foldlM_cons, turn, if_pos hset]
      cases bhRun handlers r .wakeup (bhSuspend r s) with
      | none => rfl
      | some s' =>
        have hle := hnext.le
        exact ih (r + 1) hr (by omega) s'

theorem bhSync_eq_turns (handlers : List (Handler cfg σ)) (s : State cfg σ) :
    bhSync handlers (cfg.nrBhs + 1) false s = turns handlers s := by
  rw [bhSync, bhSyncLoop_eq _ 0 (Nat.zero_le _) (by omega), Nat.sub_zero, turns, List.range_eq_range']

/-- What is awake when its turn comes is run. -/
theorem foldlM_turn_spec (honest : ∀ h ∈ handlers, Honest handlers h) (n m : Nat) (hle : m + n ≤ cfg.nrBhs)
    (hreg : Registered handlers s) :
    ∃ s' l, (List.range' m n).foldlM (turn handlers) s = some s' ∧ Registered handlers s' ∧ s'.ran = s.ran ++ l ∧
      ∀ i < cfg.nrBhs, awake s i = true → awake s' i = true ∧ ¬(m ≤ i ∧ i < m + n) ∨ i ∈ l := by
  induction n generalizing m s with
  | zero => exact ⟨s, [], rfl, hreg, (List.append_nil _).symm, fun i _ h => .inl ⟨h, by omega⟩⟩
  | succ n ih =>
    rw [List.range'_succ, List.foldlM_cons, turn]
    by_cases hm : awake s m = true
    · rw [if_pos hm]
      obtain ⟨s₁, l₁, hrun, hreg₁, hran₁, hkept₁⟩ := bhRun_bhSuspend honest (by omega) hm hreg
      obtain ⟨s₂, l₂, hfold, hreg₂, hran₂, hkept₂⟩ := ih (m + 1) (by omega) hreg₁
      rw [hrun]
      refine ⟨s₂, m :: l₁ ++ l₂, hfold, hreg₂, by rw [hran₂, hran₁, List.append_assoc], ?_⟩
      intro i hi hai
      by_cases heq : i = m
      · exact .inr (heq ▸ List.mem_cons_self)
      obtain h | h := hkept₁ i hi hai
      · obtain ⟨h', hout⟩ | h' := hkept₂ i hi h
        · exact .inl ⟨h', by omega⟩
        · exact .inr (List.mem_append_right _ h')
      · exact .inr (List.mem_append_left _ h)
    · rw [if_neg hm]
      obtain ⟨s₂, l₂, hfold, hreg₂, hran₂, hkept₂⟩ := ih (m + 1) (by omega) hreg
      refine ⟨s₂, l₂, hfold, hreg₂, hran₂, ?_⟩
      intro i hi hai
      have hne : i ≠ m := fun heq => hm (heq ▸ hai)
      obtain ⟨h', hout⟩ | h' := hkept₂ i hi hai
      · exact .inl ⟨h', by omega⟩
      · exact .inr h'

/-- A pass ends, and has run what was awake at its beginning. -/
theorem run_of_awake (honest : ∀ h ∈ handlers, Honest handlers h) (hreg : Registered handlers s) :
    ∃ s' l, turns handlers s = some s' ∧ Registered handlers s' ∧ s'.ran = s.ran ++ l ∧
      ∀ i < cfg.nrBhs, awake s i = true → i ∈ l := by
  rw [turns, List.range_eq_range']
  obtain ⟨s', l, hfold, hreg', hran, hkept⟩ := foldlM_turn_spec honest cfg.nrBhs 0 (by omega) hreg
  refine ⟨s', l, hfold, hreg', hran, ?_⟩
  intro i hi hai
  obtain ⟨-, hout⟩ | h := hkept i hi hai
  · exact absurd ⟨Nat.zero_le i, by omega⟩ hout
  · exact h

theorem dispatched (honest : ∀ h ∈ handlers, Honest handlers h) (hreg : Registered handlers s) : Dispatched handlers s := by
  obtain ⟨s₁, -, hturns, -⟩ := run_of_awake honest hreg
  refine ⟨s₁, by rw [bhSync_eq_turns, hturns], hturns, ?_⟩
  rintro s₂ ⟨l, hran, hkept⟩ hreg₂
  obtain ⟨s₃, l', hturns', -, hran', hrun⟩ := run_of_awake honest hreg₂
  refine ⟨s₃, l ++ l', by rw [bhSync_eq_turns, hturns'], by rw [hran', hran, List.append_assoc], ?_⟩
  intro bh hbh hawake
  obtain h | h := hkept bh hbh hawake
  · exact List.mem_append_right _ (hrun bh hbh h)
  · exact List.mem_append_left _ h

end Sdfirm.Bh

/-!
## The console in the pass of `bh_sync`

`bhSyncLoop_kept`: a handler that waits in `bh_sync` is honest, if the others
are. `runsConsole_iff` says when a repetition of the loop calls the handler of
the console.
-/

namespace Sdfirm.Bh

open Bitops (IsNext findNextSetBit_isNext)

variable {cfg : Config} {σ : Type} {handlers : List (Handler cfg σ)} {s s' : State cfg σ} {c c' : Nat × State cfg σ} {m : Nat}

/-- The bottom half `r` is the first that is awake, from the cursor `m` to the last one and then from 0 on. -/
def IsFirst (s : State cfg σ) (m r : Nat) : Prop :=
  r < cfg.nrBhs ∧ awake s r = true ∧ ∀ i < cfg.nrBhs, awake s i = true →
    if m ≤ r then i < m ∨ r ≤ i else i < m ∧ r ≤ i

theorem IsFirst.unique {r r' : Nat} (h : IsFirst s m r) (h' : IsFirst s m r') : r = r' := by
  obtain ⟨hlt, hawake, hfirst⟩ := h
  obtain ⟨hlt', hawake', hfirst'⟩ := h'
  have h1 := hfirst r' hlt' hawake'
  have h2 := hfirst' r hlt hawake
  split at h1 <;> split at h2 <;> omega

theorem bhResumed_isFirst (hm : m ≤ cfg.nrBhs) (s : State cfg σ) :
    IsFirst s m (bhResumed m true s) ∨ bhResumed m true s = cfg.nrBhs ∧ ∀ i < cfg.nrBhs, awake s i = false := by
  have hnext := findNextSetBit_isNext cfg.unitBits s.awakes_lt hm
  have hwrap := findNextSetBit_isNext cfg.unitBits s.awakes_lt (Nat.zero_le cfg.nrBhs)
  rw [bhResumed]
  generalize Bitops.findNextSetBit cfg.unit s.awakes cfg.nrBhs m = r at hnext ⊢
  generalize Bitops.findNextSetBit cfg.unit s.awakes cfg.nrBhs 0 = r₀ at hwrap ⊢
  have hset {i : Nat} (hi : awake s i = true) (hle : m ≤ i) : r ≤ i := by
    by_contra hlt
    exact absurd (hnext.clear i hle (by omega)) (by rw [show Bitops.testBit cfg.unit i s.awakes = true from hi]; decide)
  have hset₀ {i : Nat} (hi : awake s i = true) : r₀ ≤ i := by
    by_contra hlt
    exact absurd (hwrap.clear i (Nat.zero_le i) (by omega))
      (by rw [show Bitops.testBit cfg.unit i s.awakes = true from hi]; decide)
  split
  · rename_i hcase
    obtain hend | hr := hnext.le_size.eq_or_lt
    · refine .inr ⟨hend, ?_⟩
      intro i hi
      obtain rfl | hne | h := hcase
      · exact hnext.clear i (Nat.zero_le i) (by omega)
      · exact absurd hend hne
      · exact Bool.noConfusion h
    · refine .inl ⟨hr, hnext.set hr, ?_⟩
      intro i _ hawake
      rw [if_pos hnext.le]
      by_cases hle : m ≤ i
      · exact .inr (hset hawake hle)
      · exact .inl (by omega)
  · rename_i hcase
    rw [not_or, not_or, not_not] at hcase
    obtain hend | hr := hwrap.le_size.eq_or_lt
    · exact .inr ⟨hend, fun i hi => hwrap.clear i (Nat.zero_le i) (by omega)⟩
    · refine .inl ⟨hr, hwrap.set hr, ?_⟩
      intro i hi hawake
      -- nothing is awake from the cursor on
      have hlt : ∀ j < cfg.nrBhs, awake s j = true → j < m := by
        intro j hj hj'
        by_contra hge
        have := hset hj' (by omega)
        omega
      have h₀ := hlt r₀ hr (hwrap.set hr)
      rw [if_neg (by omega)]
      exact ⟨hlt i hi hawake, hset₀ hawake⟩

/-! ### Steps -/

/-- What one repetition of the loop does: it calls the handler of the first that is awake, or none. -/
theorem bhSyncStep_cases (honest : ∀ h ∈ handlers, Honest handlers h) (hreg : Registered handlers c.2) (hlt : c.1 < cfg.nrBhs) :
    (c.1 = cfg.consoleBh ∧ bhSyncStep handlers true c = some (c.1 + 1, c.2)) ∨
    (c.1 ≠ cfg.consoleBh ∧ (∀ i < cfg.nrBhs, awake c.2 i = false) ∧ bhSyncStep handlers true c = some (cfg.nrBhs, c.2)) ∨
    (c.1 ≠ cfg.consoleBh ∧ ∃ r n s' l, IsFirst c.2 c.1 r ∧ bhSyncStep handlers true c = some (n, s') ∧ n ≤ cfg.nrBhs ∧
      Registered handlers s' ∧ s'.ran = c.2.ran ++ r :: l ∧
      ∀ i < cfg.nrBhs, awake c.2 i = true → awake s' i = true ∨ i ∈ r :: l) := by
  by_cases hcon : c.1 = cfg.consoleBh
  · exact .inl ⟨hcon, by rw [bhSyncStep, if_neg (by simp [hcon])]⟩
  right
  rw [bhSyncStep, if_pos (.inr hcon), bhRunOnce]
  obtain hfirst | ⟨hend, hnone⟩ := bhResumed_isFirst hlt.le c.2
  · right
    generalize bhResumed c.1 true c.2 = r at hfirst ⊢
    obtain ⟨hr, hawake, -⟩ := id hfirst
    obtain ⟨s', l, hrun, hreg', hran, hkept⟩ := bhRun_bhSuspend honest hr hawake hreg
    rw [if_neg hr.ne, hrun]
    refine ⟨hcon, r, _, s', l, hfirst, rfl, ?_, hreg', hran, hkept⟩
    split <;> omega
  · exact .inl ⟨hcon, hnone, by rw [if_pos hend, hend]⟩

theorem bhSyncStep_kept (honest : ∀ h ∈ handlers, Honest handlers h) (hreg : Registered handlers c.2) (hlt : c.1 < cfg.nrBhs)
    (hstep : bhSyncStep handlers true c = some c') : Kept c.2 c'.2 ∧ Registered handlers c'.2 ∧ c'.1 ≤ cfg.nrBhs := by
  obtain ⟨-, h⟩ | ⟨-, -, h⟩ | ⟨-, r, n, s', l, -, h, hn, hreg', hran, hkept⟩ := bhSyncStep_cases honest hreg hlt
  · obtain rfl := Option.some.inj (h.symm.trans hstep)
    exact ⟨.refl _, hreg, hlt⟩
  · obtain rfl := Option.some.inj (h.symm.trans hstep)
    exact ⟨.refl _, hreg, le_rfl⟩
  · obtain rfl := Option.some.inj (h.symm.trans hstep)
    exact ⟨⟨r :: l, hran, hkept⟩, hreg', hn⟩

/-- A pass of `bh_sync` that ends loses nothing, so that a handler that waits in it is honest. -/
theorem bhSyncLoop_kept (honest : ∀ h ∈ handlers, Honest handlers h) (fuel : Nat) (hreg : Registered handlers c.2)
    (hle : c.1 ≤ cfg.nrBhs) (hloop : bhSyncLoop handlers true fuel c = some s') :
    Kept c.2 s' ∧ Registered handlers s' := by
  induction fuel generalizing c with
  | zero =>
    rw [bhSyncLoop] at hloop
    split at hloop
    · obtain rfl := Option.some.inj hloop
      exact ⟨.refl _, hreg⟩
    · cases hloop
  | succ fuel ih =>
    rw [bhSyncLoop] at hloop
    split at hloop
    · obtain rfl := Option.some.inj hloop
      exact ⟨.refl _, hreg⟩
    · rename_i hne
      obtain ⟨c', hstep, hrest⟩ := Option.bind_eq_some_iff.1 hloop
      obtain ⟨hkept, hreg', hle'⟩ := bhSyncStep_kept honest hreg (by omega) hstep
      obtain ⟨hkept', hreg''⟩ := ih hreg' hle' hrest
      exact ⟨hkept.trans hkept', hreg''⟩

/-- Only bottom halves that have a handler are polled. -/
def Polls (handlers : List (Handler cfg σ)) (pollRegs : Nat → Bool) : Prop := ∀ bh, pollRegs bh = true → bh < handlers.length

/-- Polling, between the passes of `bh_loop`, loses nothing either. -/
theorem irqPollBh_spec (honest : ∀ h ∈ handlers, Honest handlers h) {pollRegs : Nat → Bool} (sync : Bool)
    (hpoll : Polls handlers pollRegs) (hreg : Registered handlers s) :
    ∃ s', irqPollBh handlers pollRegs sync s = some s' ∧ Kept s s' ∧ Registered handlers s' := by
  rw [irqPollBh]
  generalize List.range cfg.nrBhs = bhs
  induction bhs generalizing s with
  | nil => exact ⟨s, rfl, .refl s, hreg⟩
  | cons bh bhs ih =>
    rw [List.foldlM_cons]
    split
    · rename_i hcond
      obtain ⟨s₁, l, hrun, hreg₁, hran, hkept⟩ := bhRun_spec honest (hpoll bh hcond.1) .pollirq hreg
      obtain ⟨s₂, hrest, hkept₂, hreg₂⟩ := ih hreg₁
      exact ⟨s₂, by rw [hrun]; exact hrest, Kept.trans ⟨bh :: l, hran, hkept⟩ hkept₂, hreg₂⟩
    · exact ih hreg

theorem bhSyncSteps_registered (honest : ∀ h ∈ handlers, Honest handlers h) (n : Nat) (hreg : Registered handlers c.2)
    (hle : c.1 ≤ cfg.nrBhs) (hsteps : bhSyncSteps handlers n c = some c') :
    Registered handlers c'.2 ∧ c'.1 ≤ cfg.nrBhs := by
  induction n generalizing c with
  | zero =>
    obtain rfl := Option.some.inj hsteps
    exact ⟨hreg, hle⟩
  | succ n ih =>
    rw [bhSyncSteps] at hsteps
    split at hsteps
    · cases hsteps
    · rename_i hne
      obtain ⟨c₁, hstep, hrest⟩ := Option.bind_eq_some_iff.1 hsteps
      obtain ⟨-, hreg₁, hle₁⟩ := bhSyncStep_kept honest hreg (by omega) hstep
      exact ih hreg₁ hle₁ hrest

/-! ### The console -/

theorem othersFirst_iff : OthersFirst c ↔ ¬(c.1 ≠ cfg.consoleBh ∧ IsFirst c.2 c.1 cfg.consoleBh) := by
  constructor
  · rintro hothers ⟨hne, hlt, hawake, hfirst⟩
    obtain ⟨bh, hbh, hbawake, hcond⟩ := hothers hne hlt hawake
    have := hfirst bh hbh hbawake
    split at hcond <;> split at this <;> omega
  · intro hnot hne hlt hawake
    by_contra hnone
    refine hnot ⟨hne, hlt, hawake, ?_⟩
    intro i hi hiawake
    by_contra hcond
    refine hnone ⟨i, hi, hiawake, ?_⟩
    split at hcond
    · rename_i hle
      rw [if_pos hle]
      omega
    · rename_i hle
      rw [if_neg hle]
      omega

theorem runsConsole_iff (honest : ∀ h ∈ handlers, Honest handlers h) (hreg : Registered handlers c.2) (hlt : c.1 < cfg.nrBhs) :
    RunsConsole handlers c ↔ ¬OthersFirst c := by
  rw [othersFirst_iff, not_not]
  obtain ⟨hcon, h⟩ | ⟨-, hnone, h⟩ | ⟨hne, r, n, s', l, hfirst, h, -, -, hran, -⟩ := bhSyncStep_cases honest hreg hlt
  · constructor
    · rintro ⟨c', l, hstep, hran⟩
      obtain rfl := Option.some.inj (h.symm.trans hstep)
      exact absurd hran (by simp)
    · exact fun h' => absurd hcon h'.1
  · constructor
    · rintro ⟨c', l, hstep, hran⟩
      obtain rfl := Option.some.inj (h.symm.trans hstep)
      exact absurd hran (by simp)
    · rintro ⟨-, hlt', hawake, -⟩
      rw [hnone _ hlt'] at hawake
      exact Bool.noConfusion hawake
  · constructor
    · rintro ⟨c', l', hstep, hran'⟩
      obtain rfl := Option.some.inj (h.symm.trans hstep)
      rw [hran] at hran'
      obtain rfl := (List.cons.inj (List.append_cancel_left hran')).1
      exact ⟨hne, hfirst⟩
    · rintro ⟨-, hcon⟩
      obtain rfl := hfirst.unique hcon
      exact ⟨_, l, h, hran⟩

/-- The pass of `bh_loop` runs what is awake at its turn, and nothing is left after the next one. The pass of
`bh_sync` leaves the console out exactly if, whenever the console is awake, another bottom half comes first. -/
theorem bottomHalves_iff (handlers : List (Handler cfg σ)) (honest : ∀ h ∈ handlers, Honest handlers h) (s : State cfg σ)
    (hreg : Registered handlers s) :
    Dispatched handlers s ∧
      ((∀ n c, bhSyncSteps handlers n (0, s) = some c → c.1 ≠ cfg.nrBhs → ¬RunsConsole handlers c) ↔
        ∀ n c, bhSyncSteps handlers n (0, s) = some c → c.1 ≠ cfg.nrBhs → OthersFirst c) := by
  refine ⟨dispatched honest hreg, ?_⟩
  have hiff (n : Nat) (c : Nat × State cfg σ) (hsteps : bhSyncSteps handlers n (0, s) = some c) (hne : c.1 ≠ cfg.nrBhs) :
      ¬RunsConsole handlers c ↔ OthersFirst c := by
    obtain ⟨hreg', hle⟩ := bhSyncSteps_registered honest n hreg (Nat.zero_le _) hsteps
    rw [runsConsole_iff honest hreg' (by omega), not_not]
  constructor
  · exact fun h n c hsteps hne => (hiff n c hsteps hne).1 (h n c hsteps hne)
  · exact fun h n c hsteps hne => (hiff n c hsteps hne).2 (h n c hsteps hne)

/-- A console that nobody awakens stays asleep. -/
theorem bhSyncSteps_not_awake (hsleep : ∀ h ∈ handlers, ∀ event s, awake s cfg.consoleBh = false →
    awake (h event s) cfg.consoleBh = false) (n : Nat) (hc : awake c.2 cfg.consoleBh = false)
    (hsteps : bhSyncSteps handlers n c = some c') : awake c'.2 cfg.consoleBh = false := by
  induction n generalizing c with
  | zero =>
    obtain rfl := Option.some.inj hsteps
    exact hc
  | succ n ih =>
    rw [bhSyncSteps] at hsteps
    split at hsteps
    · cases hsteps
    · obtain ⟨c₁, hstep, hrest⟩ := Option.bind_eq_some_iff.1 hsteps
      refine ih ?_ hrest
      rw [bhSyncStep] at hstep
      split at hstep
      · rw [bhRunOnce] at hstep
        split at hstep
        · obtain rfl := Option.some.inj hstep
          exact hc
        · obtain ⟨s', hrun, rfl⟩ := Option.map_eq_some_iff.1 hstep
          obtain ⟨handler, hhandler, rfl⟩ := Option.map_eq_some_iff.1 hrun
          refine hsleep _ (List.mem_of_getElem? hhandler) _ _ ?_
          exact (awake_bhSuspend _ _ _).trans (by rw [hc, Bool.and_false])
      · obtain rfl := Option.some.inj hstep
        exact hc

theorem nrBhs_pos_four : 0 < 4 := by decide

theorem nrBhs_lt_four : 4 < 2 ^ 8 := by decide

/-- Three bottom halves, of which the last is the console. -/
def board : Config where
  unit := 8
  nrBhs := 4
  consoleBh := 2
  unitBits := Bitops.unitBits_eight
  nrBhs_pos := nrBhs_pos_four
  nrBhs_lt := nrBhs_lt_four

/-- The state with the awake bottom halves in `awakes`. -/
def woken (awakes : Nat) (h : awakes < 2 ^ 8) : State board Unit where
  awakes i := if i = 0 then awakes else 0
  ran := []
  env := ()
  awakes_lt i := by
    show _ < 2 ^ 8
    split
    · exact h
    · decide

/-- The first awakens the second one. -/
def boardHandlers : List (Handler board Unit) := [fun _ s => bhResume 1 s, fun _ s => s, fun _ s => s]

theorem mem_boardHandlers {h : Handler board Unit} (hmem : h ∈ boardHandlers) :
    (h = fun _ s => bhResume 1 s) ∨ h = fun _ s => s := by
  simpa [boardHandlers] using hmem

theorem awake_bhResume (bh i : Nat) (s : State cfg σ) : awake (bhResume bh s) i = (decide (i = bh) || awake s i) :=
  Bitops.testBit_setBit

theorem boardHandlers_honest : ∀ h ∈ boardHandlers, Honest boardHandlers h := by
  have hid : Honest boardHandlers fun _ s => s := ⟨fun _ s => .refl s, fun _ _ h => h⟩
  have hresume : Honest boardHandlers fun _ s => bhResume 1 s := by
    constructor
    · intro _ s
      refine ⟨[], (List.append_nil _).symm, fun bh _ h => .inl ?_⟩
      rw [awake_bhResume, h, Bool.or_true]
    · intro _ s hreg bh hbh hawake
      rw [awake_bhResume, Bool.or_eq_true, decide_eq_true_eq] at hawake
      obtain rfl | h := hawake
      · decide
      · exact hreg bh hbh h
  intro h hmem
  obtain rfl | rfl := mem_boardHandlers hmem
  · exact hresume
  · exact hid

theorem bottomHalves_first_awake :
    Dispatched boardHandlers (woken 1 (by decide)) ∧
      ∀ n c, bhSyncSteps boardHandlers n (0, woken 1 (by decide)) = some c → c.1 ≠ board.nrBhs →
        ¬RunsConsole boardHandlers c := by
  obtain ⟨hdispatched, hiff⟩ := bottomHalves_iff boardHandlers boardHandlers_honest (woken 1 (by decide)) (by
    show ∀ bh < 4, awake (woken 1 _) bh = true → bh < 3
    decide)
  refine ⟨hdispatched, hiff.2 ?_⟩
  intro n c hsteps _ _ _ hawake
  refine absurd hawake ?_
  rw [bhSyncSteps_not_awake (c := (0, woken 1 (by decide))) ?_ n (by decide) hsteps]
  · exact Bool.false_ne_true
  · intro h hmem _ s hs
    obtain rfl | rfl := mem_boardHandlers hmem
    · exact (awake_bhResume 1 _ s).trans (by rw [hs]; rfl)
    · exact hs

/-- With only the console awake, the first thing that a pass of `bh_sync` does is to call its handler. -/
theorem console_reentered :
    ∃ c, bhSyncStep boardHandlers true (0, woken 4 (by decide)) = some c ∧ c.2.ran = [board.consoleBh] ∧
      RunsConsole boardHandlers (0, woken 4 (by decide)) :=
  ⟨_, rfl, rfl, _, [], rfl, rfl⟩

/-- Whatever the pollers, a turn of `bh_loop` returns and has run what was awake at its beginning. -/
theorem bhLoop_spec (honest : ∀ h ∈ handlers, Honest handlers h) {pollRegs : Nat → Bool} (hpoll : Polls handlers pollRegs)
    (hreg : Registered handlers s) :
    ∃ s' l, bhLoop handlers (cfg.nrBhs + 1) pollRegs s = some s' ∧ Registered handlers s' ∧ s'.ran = s.ran ++ l ∧
      ∀ bh < cfg.nrBhs, awake s bh = true → bh ∈ l := by
  obtain ⟨s₁, l₁, hturns, hreg₁, hran₁, hrun⟩ := run_of_awake honest hreg
  obtain ⟨s₂, hpolled, ⟨l₂, hran₂, -⟩, hreg₂⟩ := irqPollBh_spec honest false hpoll hreg₁
  refine ⟨s₂, l₁ ++ l₂, ?_, hreg₂, by rw [hran₂, hran₁, List.append_assoc], ?_⟩
  · rw [bhLoop, bhSync_eq_turns, hturns, Option.bind_some, hpolled]
  · exact fun bh hlt hbh => List.mem_append_left _ (hrun bh hlt hbh)

/-- In every state of the endless loop the next turn returns, whoever polls in it, and runs all that is awake. -/
theorem bh_loop_serves (handlers : List (Handler cfg σ)) (honest : ∀ h ∈ handlers, Honest handlers h) (s : State cfg σ)
    (h : Framework.Run (fun s pollRegs => bhLoop handlers (cfg.nrBhs + 1) pollRegs s) (Registered handlers)
      (fun _ => Polls handlers) s) (pollRegs : Nat → Bool) (hpoll : Polls handlers pollRegs) :
    ∃ s' l, bhLoop handlers (cfg.nrBhs + 1) pollRegs s = some s' ∧ s'.ran = s.ran ++ l ∧
      ∀ bh < cfg.nrBhs, awake s bh = true → bh ∈ l := by
  have hreg : Registered handlers s := h.invariant (fun _ h => h) fun s pollRegs s' hreg hpoll hs => by
    obtain ⟨s₁, -, hs₁, hreg₁, -⟩ := bhLoop_spec honest hpoll hreg
    obtain rfl := Option.some.inj (hs₁.symm.trans hs)
    exact hreg₁
  obtain ⟨s', l, hs', -, hran, hrun⟩ := bhLoop_spec honest hpoll hreg
  exact ⟨s', l, hs', hran, hrun⟩

/-- The first bottom half is run. -/
theorem bh_loop_serves_first : ∃ s', bhLoop boardHandlers 5 (fun _ => false) (woken 1 (by decide)) = some s' ∧
    0 ∈ s'.ran := by
  have hreg : Registered boardHandlers (woken 1 (by decide)) := by
    show ∀ bh < 4, awake (woken 1 _) bh = true → bh < 3
    decide
  obtain ⟨s', l, hs', hran, hrun⟩ := bh_loop_serves boardHandlers boardHandlers_honest _ (.start hreg) (fun _ => false)
    fun _ h => absurd h Bool.false_ne_true
  exact ⟨s', hs', hran ▸ hrun 0 (by decide) (by decide)⟩

end Sdfirm.Bh
