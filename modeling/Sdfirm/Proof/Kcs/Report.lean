import Sdfirm.Spec.Bus
import Sdfirm.Proof.Framework.Runs

/-!
# What the KCS master reports

A failure is reported as `-i`, where `i` counts the bytes that have been accepted.
So a failure before the first byte is accepted is reported as 0, which is no error.
-/

namespace Sdfirm.Kcs

open Fuel (Returns)

variable {bmc : Bmc} {io : Io} {data : Nat → Byte} {len : Nat}

/-! ## Polls -/

theorem waitFor_returns {cond : Byte → Bool} (h : ∃ m ≥ io.polls, cond (bmc.poll m) = true) :
    ∃ n, Returns (fun steps => waitFor bmc cond steps io) { io with polls := n } := by
  obtain ⟨m, hle, hm⟩ := h
  induction hk : m - io.polls generalizing io with
  | zero =>
    obtain rfl : m = io.polls := by omega
    exact ⟨io.polls + 1, .of_step (g := fun _ => some _) (fun steps => if_pos hm) (.of_eq fun _ => rfl)⟩
  | succ k ih =>
    by_cases hcond : cond (bmc.poll io.polls) = true
    · exact ⟨io.polls + 1, .of_step (g := fun _ => some _) (fun steps => if_pos hcond) (.of_eq fun _ => rfl)⟩
    · obtain ⟨n, hn⟩ := @ih { io with polls := io.polls + 1 } (by show io.polls + 1 ≤ m; omega) (by show m - (io.polls + 1) = k; omega)
      exact ⟨n, .of_step (fun steps => if_neg hcond) hn⟩

theorem kcsWaitIbf0_returns (bmc : Bmc) (io : Io) :
    ∃ io', Returns (fun steps => kcsWaitIbf0 bmc steps io) io' ∧ io'.checks = io.checks ∧ io'.reads = io.reads ∧ io'.written = io.written := by
  obtain ⟨m, hle, hm⟩ := bmc.ibfClear io.polls
  obtain ⟨n, hn⟩ := @waitFor_returns bmc io (fun s => s &&& ibf = 0) ⟨m, hle, decide_eq_true hm⟩
  exact ⟨_, hn, rfl, rfl, rfl⟩

theorem kcsWaitObf1_returns (bmc : Bmc) (io : Io) :
    ∃ io', Returns (fun steps => kcsWaitObf1 bmc steps io) io' ∧ io'.checks = io.checks ∧ io'.reads = io.reads ∧ io'.written = io.written := by
  obtain ⟨m, hle, hm⟩ := bmc.obfSet io.polls
  obtain ⟨n, hn⟩ := @waitFor_returns bmc io (fun s => s &&& obf ≠ 0) ⟨m, hle, decide_eq_true hm⟩
  exact ⟨_, hn, rfl, rfl, rfl⟩

theorem kcsClearObf_returns (bmc : Bmc) (io : Io) :
    ∃ io', Returns (fun steps => kcsClearObf bmc steps io) io' ∧ io'.checks = io.checks ∧ io'.written = io.written := by
  obtain ⟨m, hle, hm⟩ := bmc.obfClear io.polls
  induction hk : m - io.polls generalizing io with
  | zero =>
    obtain rfl : m = io.polls := by omega
    exact ⟨_, .of_step (g := fun _ => some _) (fun steps => if_neg (not_not.mpr hm)) (.of_eq fun _ => rfl), rfl, rfl⟩
  | succ k ih =>
    by_cases hobf : bmc.poll io.polls &&& obf = 0
    · exact ⟨_, .of_step (g := fun _ => some _) (fun steps => if_neg (not_not.mpr hobf)) (.of_eq fun _ => rfl), rfl, rfl⟩
    · obtain ⟨io', hn, hchecks, hwritten⟩ := ih { io with polls := io.polls + 1, reads := io.reads + 1 }
        (by show io.polls + 1 ≤ m; omega) (by show m - (io.polls + 1) = k; omega)
      exact ⟨io', .of_step (fun steps => if_pos hobf) hn, hchecks, hwritten⟩

/-! ## Writing -/

theorem send_returns (bmc : Bmc) (value : Byte) (port : Port) (io : Io) :
    ∃ io', Returns (fun steps => send bmc steps value port io) (decide (InState writeState (bmc.state io.checks)), io') ∧
      io'.checks = io.checks + 1 ∧ io'.written = io.written ++ [(value, port)] := by
  obtain ⟨io₁, hwait, hchecks₁, -, hwritten₁⟩ := kcsWaitIbf0_returns bmc (io.write value port)
  have hchecks₁ : io₁.checks = io.checks := hchecks₁
  obtain ⟨io₂, hclear, hchecks₂, hwritten₂⟩ := kcsClearObf_returns bmc { io₁ with checks := io₁.checks + 1 }
  rw [← hchecks₁]
  by_cases hstate : InState writeState (bmc.state io₁.checks)
  · rw [decide_eq_true hstate]
    refine ⟨io₂, .bind hwait (.congr (hclear.bind (k := fun _ io => some (true, io)) (.of_eq fun _ => rfl)) fun steps => ?_), hchecks₂,
      hwritten₂.trans hwritten₁⟩
    exact if_pos (decide_eq_true hstate)
  · rw [decide_eq_false hstate]
    refine ⟨{ io₁ with checks := io₁.checks + 1 }, .bind hwait (.of_eq fun steps => ?_), rfl, hwritten₁⟩
    exact if_neg (ne_true_of_eq_false (decide_eq_false hstate))

/-- The loop sends bytes up to the first check that fails. -/
theorem writeLoop_returns (bmc : Bmc) (data : Nat → Byte) (left i : Nat) (io : Io) :
    ∃ j ≤ left, ∃ io', (∀ k < j, InState writeState (bmc.state (io.checks + k))) ∧
      (j = left ∧ Returns (fun steps => writeLoop bmc steps data left i io) (true, i + left, io') ∧ io'.checks = io.checks + left ∧
          io'.written = io.written ++ (List.range left).map (fun k => (data (i + k), .dataIn)) ∨
        j < left ∧ ¬InState writeState (bmc.state (io.checks + j)) ∧
          Returns (fun steps => writeLoop bmc steps data left i io) (false, i + j, io') ∧ io'.checks = io.checks + j + 1) := by
  induction left generalizing i io with
  | zero => exact ⟨0, Nat.le_refl 0, io, nofun, .inl ⟨rfl, .of_eq fun _ => rfl, rfl, (List.append_nil _).symm⟩⟩
  | succ left ih =>
    obtain ⟨io₁, hsend, hchecks, hwritten⟩ := send_returns bmc (data i) .dataIn io
    by_cases hstate : InState writeState (bmc.state io.checks)
    · rw [decide_eq_true hstate] at hsend
      obtain ⟨j, hj, io', hpassed, hcases⟩ := ih (i + 1) io₁
      rw [hchecks] at hpassed hcases
      refine ⟨j + 1, Nat.succ_le_succ hj, io', ?_, ?_⟩
      · intro k hk
        cases k with
        | zero => exact hstate
        | succ k =>
          have hk := hpassed k (Nat.lt_of_succ_lt_succ hk)
          rwa [Nat.add_right_comm] at hk
      · obtain ⟨rfl, hloop, hchecks', hwritten'⟩ | ⟨hlt, hfailed, hloop, hchecks'⟩ := hcases
        · left
          refine ⟨rfl, ?_, by omega, ?_⟩
          · rw [show i + (j + 1) = i + 1 + j by omega]
            exact hsend.bind hloop
          · rw [hwritten', hwritten, List.range_succ_eq_map, List.map_cons, List.map_map, List.append_assoc]
            have hnext (k : Nat) : (data (i + 1 + k), Port.dataIn) = ((fun k => (data (i + k), Port.dataIn)) ∘ Nat.succ) k := by
              show _ = (data (i + (k + 1)), Port.dataIn)
              rw [Nat.add_right_comm, Nat.add_assoc]
            rw [List.map_congr_left fun k _ => hnext k]
            rfl
        · right
          refine ⟨Nat.succ_lt_succ hlt, ?_, ?_, by omega⟩
          · rwa [Nat.add_right_comm] at hfailed
          · rw [show i + (j + 1) = i + 1 + j by omega]
            exact hsend.bind hloop
    · rw [decide_eq_false hstate] at hsend
      exact ⟨0, Nat.zero_le _, io₁, nofun, .inr ⟨Nat.succ_pos left, hstate, hsend.bind (.of_eq fun _ => rfl), hchecks⟩⟩

/-- A run of `kcs_write`: all checks pass, or one fails and the result is the number of bytes that have been accepted. -/
theorem kcsWrite_returns (bmc : Bmc) (data : Nat → Byte) (hlen : 1 ≤ len) :
    ∃ r, Returns (fun steps => kcsWrite bmc steps data len Io.init) r ∧
      ((∀ k ≤ len, InState writeState (bmc.state k)) ∧ r.1 = len ∧ Sent bmc data len r.2 ∨
        ∃ q ≤ len, (∀ k < q, InState writeState (bmc.state k)) ∧ ¬InState writeState (bmc.state q) ∧ r.1 = -((q - 1 : Nat) : Int) ∧
          ¬Sent bmc data len r.2) := by
  obtain ⟨io₀, hwait, hchecks, -, hwritten⟩ := kcsWaitIbf0_returns bmc Io.init
  obtain ⟨io₁, hclear, hchecks₁, hwritten₁⟩ := kcsClearObf_returns bmc io₀
  obtain ⟨io₂, hstart, hchecks₂, hwritten₂⟩ := send_returns bmc writeStart .command io₁
  have hzero : io₁.checks = 0 := hchecks₁.trans hchecks
  rw [hzero] at hstart hchecks₂
  -- A check that has failed is one of the checks.
  have hnotSent {q : Nat} {io : Io} (hq : ¬InState writeState (bmc.state q)) (hlt : q < io.checks) : ¬Sent bmc data len io :=
    fun h => hq (h.1 q hlt)
  by_cases hstate : InState writeState (bmc.state 0)
  · rw [decide_eq_true hstate] at hstart
    obtain ⟨j, hj, io₃, hpassed, hcases⟩ := writeLoop_returns bmc data (len - 1) 0 io₂
    rw [hchecks₂] at hpassed hcases
    have hpassed (k : Nat) (hk : k < j + 1) : InState writeState (bmc.state k) := by
      cases k with
      | zero => exact hstate
      | succ k =>
        have hk := hpassed k (by omega)
        rwa [show 0 + 1 + k = k + 1 by omega] at hk
    obtain ⟨rfl, hloop, hchecks₃, hwritten₃⟩ | ⟨hlt, hfailed, hloop, hchecks₃⟩ := hcases
    · obtain ⟨io₄, hend, hchecks₄, hwritten₄⟩ := send_returns bmc writeEnd .command io₃
      rw [hchecks₃, show 0 + 1 + (len - 1) = len by omega] at hend hchecks₄
      by_cases hstate' : InState writeState (bmc.state len)
      · rw [decide_eq_true hstate'] at hend
        have hall (k : Nat) (hk : k ≤ len) : InState writeState (bmc.state k) := by
          obtain rfl | hlt := Nat.eq_or_lt_of_le hk
          · exact hstate'
          · exact hpassed k (by omega)
        refine ⟨(len, io₄.write (data (0 + (len - 1))) .dataIn),
          hwait.bind (hclear.bind (hstart.bind (hloop.bind (hend.bind (.of_eq fun _ => rfl))))), .inl ⟨hall, rfl, ?_, ?_⟩⟩
        · intro k hk
          have hk : k < io₄.checks := hk
          exact hall k (by omega)
        · show io₄.written ++ _ = framed data len
          rw [hwritten₄, hwritten₃, hwritten₂, hwritten₁, hwritten, framed]
          simp [Io.init]
      · rw [decide_eq_false hstate'] at hend
        refine ⟨(-((0 + (len - 1) : Nat) : Int), io₄),
          hwait.bind (hclear.bind (hstart.bind (hloop.bind (hend.bind (.of_eq fun _ => rfl))))),
          .inr ⟨len, Nat.le_refl len, fun k hk => hpassed k (by omega), hstate', ?_, hnotSent hstate' (by show len < io₄.checks; omega)⟩⟩
        show -((0 + (len - 1) : Nat) : Int) = _
        rw [Nat.zero_add]
    · refine ⟨(-((0 + j : Nat) : Int), io₃), hwait.bind (hclear.bind (hstart.bind (hloop.bind (.of_eq fun _ => rfl)))),
        .inr ⟨j + 1, by omega, hpassed, ?_, ?_, ?_⟩⟩
      · rwa [show 0 + 1 + j = j + 1 by omega] at hfailed
      · show -((0 + j : Nat) : Int) = _
        rw [Nat.zero_add, Nat.add_sub_cancel]
      · exact hnotSent hfailed (by show 0 + 1 + j < io₃.checks; omega)
  · rw [decide_eq_false hstate] at hstart
    refine ⟨(-0, io₂), hwait.bind (hclear.bind (hstart.bind (.of_eq fun _ => rfl))),
      .inr ⟨0, Nat.zero_le len, nofun, hstate, rfl, hnotSent hstate (by show 0 < io₂.checks; omega)⟩⟩

theorem writeReported_iff (bmc : Bmc) (data : Nat → Byte) (hlen : 1 ≤ len) :
    ∃ r, Returns (fun steps => kcsWrite bmc steps data len Io.init) r ∧
      (WriteReported bmc data len r ↔ InState writeState (bmc.state 0) ∧ InState writeState (bmc.state 1)) := by
  obtain ⟨r, hreturns, hcases⟩ := kcsWrite_returns bmc data hlen
  refine ⟨r, hreturns, ?_⟩
  obtain ⟨hall, hr, hsent⟩ | ⟨q, hq, hpassed, hfailed, hr, hnot⟩ := hcases
  · exact ⟨fun _ => ⟨hall 0 (by omega), hall 1 hlen⟩, fun _ => ⟨⟨fun _ => hsent, fun _ => hr⟩, fun h => absurd hsent h⟩⟩
  · constructor
    · intro h
      have hneg := h.2 hnot
      rw [hr] at hneg
      exact ⟨hpassed 0 (by omega), hpassed 1 (by omega)⟩
    · intro ⟨hfirst, hsecond⟩
      have hlt : 2 ≤ q := by
        by_contra hlt
        obtain rfl | rfl : q = 0 ∨ q = 1 := by omega
        · exact hfailed hfirst
        · exact hfailed hsecond
      refine ⟨⟨fun heq => ?_, fun h => absurd h hnot⟩, fun _ => ?_⟩
      · rw [hr] at heq
        omega
      · rw [hr]
        omega

/-! ## Reading -/

/-- What has been read into the buffer up to `n` -/
def Filled (bmc : Bmc) (n : Nat) (data : Nat → Byte) : Prop := ∀ k < n, data k = bmc.data k

theorem Filled.update {n : Nat} (h : Filled bmc n data) : Filled bmc (n + 1) (Function.update data n (bmc.data n)) := by
  intro k hk
  obtain rfl | hlt := Nat.eq_or_lt_of_le (Nat.le_of_lt_succ hk)
  · exact Function.update_self ..
  · rw [Function.update_of_ne (Nat.ne_of_lt hlt)]
    exact h k hlt

theorem readLoop_returns (bmc : Bmc) (len left i : Nat) (data : Nat → Byte) (io : Io) (hchecks : io.checks = i) (hreads : io.reads = i)
    (hfilled : Filled bmc i data) (hpassed : ∀ k < i, InState readState (bmc.state k)) :
    ∃ r, Returns (fun steps => readLoop bmc steps len left i data io) r ∧
      ((∀ k < i + left, InState readState (bmc.state k)) ∧ r.1 = -(len : Int) ∨
        ∃ n < i + left, (∀ k < n, InState readState (bmc.state k)) ∧ ¬InState readState (bmc.state n) ∧
          (InState idleState (bmc.state (n + 1)) ∧ r.1 = n ∧ Filled bmc n r.2.1 ∨
            ¬InState idleState (bmc.state (n + 1)) ∧ r.1 = -(n : Int))) := by
  induction left generalizing i data io with
  | zero => exact ⟨(-(len : Int), data, io), .of_eq fun _ => rfl, .inl ⟨hpassed, rfl⟩⟩
  | succ left ih =>
    obtain ⟨io₁, hwait, hchecks₁, hreads₁, -⟩ := kcsWaitIbf0_returns bmc io
    have hchecks₁ : io₁.checks = i := hchecks₁.trans hchecks
    have hreads₁ : io₁.reads = i := hreads₁.trans hreads
    by_cases hstate : InState readState (bmc.state i)
    · obtain ⟨io₂, hobf, hchecks₂, hreads₂, -⟩ := kcsWaitObf1_returns bmc { io₁ with checks := io₁.checks + 1 }
      have hreads₂ : io₂.reads = i := hreads₂.trans hreads₁
      have hpassed' (k : Nat) (hk : k < i + 1) : InState readState (bmc.state k) := by
        obtain rfl | hlt := Nat.eq_or_lt_of_le (Nat.le_of_lt_succ hk)
        · exact hstate
        · exact hpassed k hlt
      obtain ⟨r, hloop, hcases⟩ := ih (i + 1) (Function.update data i (bmc.data i)) ({ io₂ with reads := io₂.reads + 1 }.write read .dataIn)
        (hchecks₂.trans (congrArg (· + 1) hchecks₁)) (congrArg (· + 1) hreads₂) hfilled.update hpassed'
      rw [show i + 1 + left = i + (left + 1) by omega] at hcases
      refine ⟨r, hwait.bind (.congr (hobf.bind (k := fun steps io => readLoop bmc steps len left (i + 1)
        (Function.update data i (bmc.data io.reads)) ({ io with reads := io.reads + 1 }.write read .dataIn))
        (.congr hloop fun steps => ?_)) fun steps => ?_), hcases⟩
      · show readLoop bmc steps len left (i + 1) (Function.update data i (bmc.data io₂.reads)) _ = _
        rw [hreads₂]
      · show (if (!decide (InState readState (bmc.state io₁.checks))) = true then _ else _) = _
        rw [hchecks₁, decide_eq_true hstate]
        rfl
    · by_cases hidle : InState idleState (bmc.state (i + 1))
      · obtain ⟨io₂, hobf, hchecks₂, hreads₂, -⟩ := kcsWaitObf1_returns bmc { io₁ with checks := io₁.checks + 1 + 1 }
        refine ⟨(i, Function.update data (i + 1) (bmc.data io₂.reads), { io₂ with reads := io₂.reads + 1 }), ?_,
          .inr ⟨i, by omega, hpassed, hstate, .inl ⟨hidle, rfl, ?_⟩⟩⟩
        · refine hwait.bind (.congr (hobf.bind (k := fun _ io => some ((i : Int), Function.update data (i + 1) (bmc.data io.reads),
            { io with reads := io.reads + 1 })) (.of_eq fun _ => rfl)) fun steps => ?_)
          show (if (!decide (InState readState (bmc.state io₁.checks))) = true then
            (if decide (InState idleState (bmc.state (io₁.checks + 1))) = true then _ else _) else _) = _
          rw [hchecks₁, decide_eq_false hstate, decide_eq_true hidle]
          rfl
        · intro k hk
          have hne : k ≠ i + 1 := by omega
          show Function.update data (i + 1) _ k = _
          rw [Function.update_of_ne hne]
          exact hfilled k hk
      · refine ⟨(-(i : Int), data, { io₁ with checks := io₁.checks + 1 + 1 }), ?_, .inr ⟨i, by omega, hpassed, hstate, .inr ⟨hidle, rfl⟩⟩⟩
        refine hwait.bind (.of_eq fun steps => ?_)
        show (if (!decide (InState readState (bmc.state io₁.checks))) = true then
          (if decide (InState idleState (bmc.state (io₁.checks + 1))) = true then _ else _) else _) = _
        rw [hchecks₁, decide_eq_false hstate, decide_eq_false hidle]
        rfl

theorem Presented.unique {n m : Nat} (hn : Presented bmc len n) (hm : Presented bmc len m) : n = m := by
  obtain hlt | heq | hlt := Nat.lt_trichotomy n m
  · exact absurd (hm.2.1 n hlt) hn.2.2.1
  · exact heq
  · exact absurd (hn.2.1 m hlt) hm.2.2.1

theorem readReported_iff (bmc : Bmc) (data : Nat → Byte) (hlen : 1 ≤ len) :
    ∃ r, Returns (fun steps => kcsRead bmc steps data len Io.init) r ∧
      (ReadReported bmc len r.1 r.2.1 ↔ (1 < len → InState readState (bmc.state 0) ∨ InState idleState (bmc.state 1))) := by
  obtain ⟨r, hreturns, hcases⟩ := readLoop_returns bmc len (len - 1) 0 data Io.init rfl rfl nofun nofun
  refine ⟨r, hreturns, ?_⟩
  rw [Nat.zero_add] at hcases
  obtain ⟨hall, hr⟩ | ⟨n, hlt, hpassed, hfailed, ⟨hidle, hr, hfilled⟩ | ⟨hidle, hr⟩⟩ := hcases
  · refine ⟨fun _ hone => .inl (hall 0 (by omega)), fun _ => ?_⟩
    have hnone (n : Nat) : ¬Presented bmc len n := fun h => h.2.2.1 (hall n h.1)
    exact ⟨fun n => ⟨fun h => by omega, fun h => absurd h (hnone n)⟩, fun n h => absurd h (hnone n), fun _ => by omega⟩
  · have hpresented : Presented bmc len n := ⟨hlt, hpassed, hfailed, hidle⟩
    refine ⟨fun _ hone => ?_, fun _ => ⟨fun m => ⟨fun h => ?_, fun h => ?_⟩, fun m h => ?_, fun h => absurd ⟨n, hpresented⟩ h⟩⟩
    · obtain rfl | hpos := Nat.eq_zero_or_pos n
      · exact .inr hidle
      · exact .inl (hpassed 0 hpos)
    · obtain rfl : n = m := by omega
      exact hpresented
    · rw [hr, hpresented.unique h]
    · rw [← hpresented.unique h]
      exact hfilled
  · have hnone (m : Nat) : ¬Presented bmc len m := by
      intro h
      obtain hmn | rfl | hmn := Nat.lt_trichotomy m n
      · exact h.2.2.1 (hpassed m hmn)
      · exact hidle h.2.2.2
      · exact hfailed (h.2.1 n hmn)
    constructor
    · intro h hone
      obtain rfl | hpos := Nat.eq_zero_or_pos n
      · exact absurd ((h.presented 0).mp hr) (hnone 0)
      · exact .inl (hpassed 0 hpos)
    · intro h
      have hpos : 0 < n := by
        by_contra hzero
        obtain rfl : n = 0 := by omega
        exact (h (by omega)).elim hfailed hidle
      exact ⟨fun m => ⟨fun heq => by omega, fun h => absurd h (hnone m)⟩, fun m h => absurd h (hnone m), fun _ => by omega⟩

/-- What the master reports is right if and only if the BMC does not fail at the start: `kcs_write` sees the write state at
its first two checks, and `kcs_read` sees the read state or, after it, the idle state. -/
theorem reported_iff (bmc : Bmc) (data : Nat → Byte) (len : Nat) (hlen : 1 ≤ len) (_ : len ≤ 255) :
    (∃ r, Returns (fun steps => kcsWrite bmc steps data len Io.init) r ∧
      (WriteReported bmc data len r ↔ InState writeState (bmc.state 0) ∧ InState writeState (bmc.state 1))) ∧
    (∃ r, Returns (fun steps => kcsRead bmc steps data len Io.init) r ∧
      (ReadReported bmc len r.1 r.2.1 ↔ (1 < len → InState readState (bmc.state 0) ∨ InState idleState (bmc.state 1)))) :=
  ⟨writeReported_iff bmc data hlen, readReported_iff bmc data hlen⟩

/-- A BMC whose output buffer is full at every other poll, with these states -/
def alternating (state : Nat → Byte) : Bmc where
  poll n := if n % 2 = 0 then 0 else obf
  state := state
  data n := BitVec.ofNat 8 n
  ibfClear n := ⟨2 * n, by omega, by rw [if_pos (by omega)]; rfl⟩
  obfClear n := ⟨2 * n, by omega, by rw [if_pos (by omega)]; rfl⟩
  obfSet n := ⟨2 * n + 1, by omega, by rw [if_neg (by omega)]; decide⟩

/-- The BMC is in the error state from the start on, and both functions return 0. -/
theorem error_not_reported :
    (∃ r, kcsWrite (alternating fun _ => 0xc0) 3 (fun _ => 0x20) 2 Io.init = some r ∧ r.1 = 0 ∧
      ¬WriteReported (alternating fun _ => 0xc0) (fun _ => 0x20) 2 r) ∧
    (∃ r, kcsRead (alternating fun _ => 0xc0) 3 (fun _ => 0) 8 Io.init = some r ∧ r.1 = 0 ∧
      ¬ReadReported (alternating fun _ => 0xc0) 8 r.1 r.2.1) := by
  constructor
  · refine ⟨(0, ⟨4, 1, 1, [(writeStart, .command)]⟩), by decide, rfl, fun h => ?_⟩
    refine absurd (h.2 fun hsent => ?_) (by decide)
    exact absurd (hsent.1 0 (by decide)) (by decide)
  · refine ⟨(0, fun _ => 0, ⟨1, 2, 0, []⟩), rfl, rfl, fun h => ?_⟩
    exact absurd ((h.presented 0).mp rfl).2.2.2 (by decide)

/-- A BMC in the write state, and one that presents a byte in the read state -/
theorem reported_two :
    (∃ r, Returns (fun steps => kcsWrite (alternating fun _ => writeState) steps (fun _ => 0x20) 2 Io.init) r ∧
      (WriteReported (alternating fun _ => writeState) (fun _ => 0x20) 2 r ↔
        InState writeState ((alternating fun _ => writeState).state 0) ∧ InState writeState ((alternating fun _ => writeState).state 1))) ∧
    (∃ r, Returns (fun steps => kcsRead (alternating fun _ => writeState) steps (fun _ => 0x20) 2 Io.init) r ∧
      (ReadReported (alternating fun _ => writeState) 2 r.1 r.2.1 ↔ (1 < 2 →
        InState readState ((alternating fun _ => writeState).state 0) ∨ InState idleState ((alternating fun _ => writeState).state 1)))) :=
  reported_iff (alternating fun _ => writeState) (fun _ => 0x20) 2 (by decide) (by decide)

end Sdfirm.Kcs
