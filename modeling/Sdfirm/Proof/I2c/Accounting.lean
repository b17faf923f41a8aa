import Mathlib
import Sdfirm.Proof.Framework.Runs
import Sdfirm.Spec.Bus

/-!
# Accounting of I2C transfers

A byte that has been asked for is in one of two states: `writing` and `reading`
are those in which its report has not come yet. When it has come, the bottom
half asks for the next byte or ends the transfer (`Ends.writing`,
`Ends.reading`). What earlier transfers may have left (`Left`) are reports and
events of stop conditions, and they are dropped while the transfer waits for its
start condition (`Ends.starting`).
-/

namespace Sdfirm.I2c

open Fuel (Returns)

variable {c : Controller} {s : Master} {P : Master → Prop} {x : Xfer} {b : Nat} {calls : List Call}

/-! ## Acknowledged bytes -/

theorem acks_of_nack {n m : Nat} (hn : n < m) (hack : ∀ i < n, c.outcome (b + i) = .ack)
    (hnack : c.outcome (b + n) ≠ .ack) : acks c b m = n := by
  obtain ⟨j, rfl⟩ := Nat.exists_eq_add_of_lt hn
  have hall : ∀ i ∈ List.range n, decide (c.outcome (b + i) = .ack) = true := by
    intro i hi
    exact decide_eq_true (hack i (List.mem_range.mp hi))
  rw [acks, Nat.add_assoc, List.range_add, List.takeWhile_append_of_pos hall, List.range_succ_eq_map, List.map_cons,
    List.takeWhile_cons_of_neg (by simpa using hnack), List.append_nil, List.length_range]

theorem acks_of_acked {m : Nat} (hack : ∀ i < m, c.outcome (b + i) = .ack) : acks c b m = m := by
  rw [acks, List.takeWhile_eq_self_iff.mpr, List.length_range]
  intro i hi
  exact decide_eq_true (hack i (List.mem_range.mp hi))

/-! ## Reports -/

@[simp] theorem deliver_zero (s : Master) : deliver 0 s = s := rfl

theorem deliver_of_nil (h : s.reports = []) (n : Nat) : deliver n s = s := by
  cases n with
  | zero => rfl
  | succ n => rw [deliver, h]

theorem deliver_cons {status : Status} {reports : List Status} (h : s.reports = status :: reports) (n : Nat) :
    deliver (n + 1) s = deliver n (i2cSetStatus status { s with reports }) := by
  rw [deliver, h]

theorem i2cSetStatus_reports (status : Status) (s : Master) : (i2cSetStatus status s).reports = s.reports := by
  cases status with
  | ack =>
    rw [i2cSetStatus]
    show (if _ then _ else _ : Master).reports = _
    split <;> rfl
  | _ => rfl

theorem i2cSetStatus_state (status : Status) (s : Master) : (i2cSetStatus status s).state = s.state := by
  cases status with
  | ack =>
    rw [i2cSetStatus]
    show (if _ then _ else _ : Master).state = _
    split <;> rfl
  | _ => rfl

theorem i2cSetStatus_syncs (status : Status) (s : Master) (k : Nat) :
    i2cSetStatus status { s with syncs := k } = { i2cSetStatus status s with syncs := k } := by
  cases status with
  | ack =>
    rw [i2cSetStatus, i2cSetStatus]
    show (if _ then _ else _ : Master) = { (if _ then _ else _ : Master) with syncs := k }
    split <;> rfl
  | _ => rfl

/-- The only report comes. -/
theorem deliver_singleton {status : Status} (h : s.reports = [status]) (n : Nat) :
    deliver (n + 1) s = i2cSetStatus status { s with reports := [] } := by
  rw [deliver_cons h, deliver_of_nil (i2cSetStatus_reports ..)]

theorem i2cHandleXfr_of_no_event (h : s.event = {}) : i2cHandleXfr c s = s := by
  rw [i2cHandleXfr]
  exact if_pos h

/-! ## Waiting -/

/-- The loop of `i2c_master_submit` ends in a state with `P`. -/
def Ends (c : Controller) (s : Master) (P : Master → Prop) : Prop :=
  ∃ s', Returns (fun fuel => waitIdle c fuel s) s' ∧ P s'

theorem Ends.of_idle (hs : s.state = .idle) (h : P s) : Ends c s P := by
  refine ⟨s, ⟨1, ?_⟩, h⟩
  intro fuel hfuel
  obtain ⟨fuel, rfl⟩ := Nat.exists_eq_add_one_of_ne_zero (by omega : fuel ≠ 0)
  exact if_pos hs

theorem Ends.of_sync (hs : s.state ≠ .idle) (h : Ends c (bhSync c s) P) : Ends c s P := by
  obtain ⟨s', hs', hP⟩ := h
  exact ⟨s', hs'.of_step fun fuel => if_neg hs, hP⟩

/-- While no report comes nothing happens, and then one comes. -/
theorem Ends.of_poll (hs : s.state ≠ .idle) (he : s.event = {})
    (h : ∀ k n, Ends c (i2cHandleXfr c (deliver (n + 1) { s with syncs := k })) P) : Ends c s P := by
  obtain ⟨m, hm, hpolls⟩ := c.fair s.syncs
  obtain ⟨d, hd⟩ := Nat.exists_eq_add_of_le hm
  -- by induction on the number of calls of `bh_sync` before
  induction d generalizing s with
  | zero =>
    obtain ⟨n, hn⟩ := Nat.exists_eq_add_one_of_ne_zero (Nat.pos_iff_ne_zero.mp hpolls)
    refine .of_sync hs ?_
    rw [bhSync, ← Nat.add_zero s.syncs, ← hd, hn]
    exact h (m + 1) n
  | succ d ih =>
    refine .of_sync hs ?_
    obtain hzero | hpos := Nat.eq_zero_or_pos (c.polls s.syncs)
    · have hskip : bhSync c s = { s with syncs := s.syncs + 1 } := by
        rw [bhSync, hzero]
        exact i2cHandleXfr_of_no_event he
      rw [hskip]
      exact ih hs he h (show s.syncs + 1 ≤ m by omega) (show m = s.syncs + 1 + d by omega)
    · obtain ⟨n, hn⟩ := Nat.exists_eq_add_one_of_ne_zero (Nat.pos_iff_ne_zero.mp hpos)
      rw [bhSync, hn]
      exact h (s.syncs + 1) n

/-- The controller has been asked for something, and reports it at once or later. -/
theorem Ends.of_report {status : Status} (hs : s.state ≠ .idle) (he : s.event = {}) (hr : s.reports = [])
    (h : ∀ k, Ends c (i2cHandleXfr c (i2cSetStatus status { s with syncs := k })) P) :
    Ends c (report c status s) P := by
  have hpending : { s with reports := s.reports ++ [status] } = { s with reports := [status] } := by rw [hr]; rfl
  have hreports : { s with reports := [] } = s := by rw [← hr]
  rw [report]
  show Ends c (if c.prompt then deliver (s.reports ++ [status]).length { s with reports := s.reports ++ [status] } else
    { s with reports := s.reports ++ [status] }) P
  rw [hpending, hr]
  split
  · -- the report has come
    rw [List.nil_append, List.length_singleton, deliver_singleton rfl]
    show Ends c (i2cSetStatus status { s with reports := [] }) P
    rw [hreports]
    refine .of_sync ?_ ?_
    · rw [i2cSetStatus_state]
      exact hs
    · have hnil : ∀ k, (i2cSetStatus status { s with syncs := k }).reports = [] := fun k =>
        (i2cSetStatus_reports ..).trans hr
      rw [bhSync, ← i2cSetStatus_syncs, deliver_of_nil (hnil _)]
      exact h _
  · refine .of_poll hs he ?_
    intro k n
    rw [deliver_singleton rfl]
    show Ends c (i2cHandleXfr c (i2cSetStatus status { s with reports := [], syncs := k })) P
    rw [← hr]
    exact h k

/-! ## The end of a transfer -/

/-- What a transfer may leave: of the stop condition an event, and reports that have not come yet. -/
structure Left (s : Master) : Prop where
  state : s.state = .idle
  event : s.event.start = false
  reports : ∀ status ∈ s.reports, status = .stop

theorem enterIdle_cases (he : s.event = {}) (hr : s.reports = []) :
    ∃ event reports, i2cEnterState c .idle s =
        { s with state := .idle, log := s.log ++ (if s.rxsubmit = 0 then [Call.stop] else []), event, reports } ∧
      event.start = false ∧ ∀ status ∈ reports, status = .stop := by
  by_cases hrx : s.rxsubmit = 0
  · have hstop : i2cEnterState c .idle s = i2cHwStopCondition c { s with state := .idle } := if_pos hrx
    rw [hstop, i2cHwStopCondition, if_pos hrx]
    show ∃ event reports, (if c.stops then
      report c .stop { s with state := .idle, log := s.log ++ [.stop] } else _) = _ ∧ _
    split
    case isFalse => exact ⟨s.event, s.reports, rfl, by rw [he], by rw [hr]; exact fun _ h => absurd h List.not_mem_nil⟩
    rw [report]
    show ∃ event reports, (if c.prompt then deliver (s.reports ++ [Status.stop]).length
      { s with state := .idle, log := s.log ++ [.stop], reports := s.reports ++ [.stop] } else _) = _ ∧ _
    rw [hr]
    split
    · refine ⟨{ s.event with stop := true }, [], rfl, ?_, fun _ h => absurd h List.not_mem_nil⟩
      rw [he]
    · refine ⟨s.event, [.stop], rfl, ?_, fun _ h => List.mem_singleton.mp h⟩
      rw [he]
  · have hno : i2cEnterState c .idle s = { s with state := .idle } := if_neg hrx
    rw [hno, if_neg hrx, List.append_nil]
    exact ⟨s.event, s.reports, rfl, by rw [he], by rw [hr]; exact fun _ h => absurd h List.not_mem_nil⟩

/-- The transfer has come to its end. -/
structure Ended (c : Controller) (x : Xfer) (b : Nat) (calls : List Call) (s : Master) : Prop extends Left s where
  log : s.log = calls ++ xferCalls c b x
  bytes : s.bytes = b + x.bytes c b

/-- The calls up to the byte `n`. -/
def callsUpTo (x : Xfer) (calls : List Call) (n : Nat) : List Call :=
  calls ++ [.start, .address (i2cAddrMode x.slave x.dir)] ++ x.iocbs.take n

/-- The master returns to `IDLE` after the byte `n`, which was the last one or has not been acknowledged. -/
theorem Ended.enterIdle {n : Nat} (hlast : acks c b x.total = n ∨ acks c b x.total = x.total ∧ n + 1 = x.total)
    (hn : n < x.total) (he : s.event = {}) (hr : s.reports = []) (hrx : s.rxsubmit = x.rxlen)
    (hbytes : s.bytes = b + n + 1) (hlog : s.log = callsUpTo x calls n) :
    Ended c x b calls (i2cEnterState c .idle s) := by
  have htake : x.iocbs.take n = x.iocbs.take (acks c b x.total) := by
    obtain h | ⟨h, hlast⟩ := hlast
    · rw [h]
    · have hlen : x.iocbs.length = n := by
        rw [Xfer.iocbs, List.length_append, List.length_replicate, List.length_replicate]
        rw [Xfer.total] at hlast
        omega
      rw [h, List.take_of_length_le hlen.le, List.take_of_length_le (by omega)]
  obtain ⟨event, reports, heq, hevent, hreports⟩ := enterIdle_cases (c := c) he hr
  rw [heq]
  refine ⟨⟨rfl, hevent, hreports⟩, ?_, ?_⟩
  · show s.log ++ _ = _
    rw [hlog, hrx, callsUpTo, htake, xferCalls, List.append_assoc, List.append_assoc, List.append_assoc]
  · show s.bytes = _
    rw [hbytes, Xfer.bytes]
    omega

/-! ## Bytes -/

variable (x b calls)

/-- The byte `n` is written, the address if it is the byte 0. -/
def writing (n k : Nat) : Master where
  target := x.slave
  state := .write
  mode := .tx
  txsubmit := x.txlen + 1
  rxsubmit := x.rxlen
  limit := x.txlen + 1
  current := n
  event := {}
  reports := []
  bytes := b + n + 1
  syncs := k
  log := callsUpTo x calls n

/-- The byte `j` of the data from the slave is read. -/
def reading (j k : Nat) : Master where
  target := x.slave
  state := .read
  mode := .rx
  txsubmit := x.txlen + 1
  rxsubmit := x.rxlen
  limit := x.rxlen
  current := j
  event := {}
  reports := []
  bytes := b + (x.txlen + 1 + j) + 1
  syncs := k
  log := callsUpTo x calls (x.txlen + 1 + j)

variable {x b calls}

theorem callsUpTo_succ {n : Nat} {call : Call} (h : x.iocbs[n]? = some call) :
    callsUpTo x calls n ++ [call] = callsUpTo x calls (n + 1) := by
  rw [callsUpTo, callsUpTo, List.append_assoc, List.take_add_one, h]
  rfl

theorem iocbs_tx {n : Nat} (h : n < x.txlen) : x.iocbs[n]? = some (.iocb .tx) := by
  rw [Xfer.iocbs, List.getElem?_append_left (by rwa [List.length_replicate]), List.getElem?_replicate, if_pos h]

theorem iocbs_rx {j : Nat} (h : j < x.rxlen) : x.iocbs[x.txlen + j]? = some (.iocb .rx) := by
  rw [Xfer.iocbs, List.getElem?_append_right (by rw [List.length_replicate]; omega), List.length_replicate,
    Nat.add_sub_cancel_left, List.getElem?_replicate, if_pos h]

/-- The device is asked to write the next byte. -/
theorem enterWrite_eq {n k : Nat} (hn : n < x.txlen) :
    i2cEnterState c .write { writing x b calls n k with current := n + 1 } =
      report c (c.outcome (b + (n + 1))).status (writing x b calls (n + 1) k) := by
  have hlt : n + 1 < x.txlen + 1 := by omega
  rw [i2cEnterState]
  show (if n + 1 < 1 then _ else if n + 1 < x.txlen + 1 then iocb c { writing x b calls n k with current := n + 1 }
    else _) = _
  rw [if_neg (by omega), if_pos hlt]
  show report c (c.outcome (b + n + 1)).status
    { writing x b calls n k with current := n + 1, bytes := b + n + 1 + 1, log := callsUpTo x calls n ++ [.iocb .tx] } = _
  rw [callsUpTo_succ (iocbs_tx hn)]
  rfl

/-- The device is asked to read the byte `j`. -/
theorem enterRead_eq {j k : Nat} (hj : j < x.rxlen) (state : XfrState) :
    i2cEnterState c .read { reading x b calls j k with
      state, bytes := b + (x.txlen + j) + 1, log := callsUpTo x calls (x.txlen + j) } =
      report c (c.outcome (b + (x.txlen + 1 + j))).status (reading x b calls j k) := by
  rw [i2cEnterState]
  show (if j < x.rxlen then iocb c { reading x b calls j k with
    bytes := b + (x.txlen + j) + 1, log := callsUpTo x calls (x.txlen + j) } else _) = _
  rw [if_pos hj]
  show report c (c.outcome (b + (x.txlen + j) + 1)).status
    { reading x b calls j k with
      bytes := b + (x.txlen + j) + 1 + 1, log := callsUpTo x calls (x.txlen + j) ++ [.iocb .rx] } = _
  rw [callsUpTo_succ (iocbs_rx hj), show b + (x.txlen + j) + 1 = b + (x.txlen + 1 + j) by omega,
    show x.txlen + j + 1 = x.txlen + 1 + j by omega]
  rfl

/-! ## Events -/

def Master.raised (event : Events) (s : Master) : Master := { s with event }

/-- The byte counts. -/
def Master.advanced (s : Master) : Master := { s with current := s.current + 1 }

theorem i2cSetStatus_ack_last (hlt : s.current + 1 < 2 ^ 16) (h : s.current + 1 = s.limit) (he : s.event = {}) :
    i2cSetStatus .ack s = s.advanced.raised { stop := true } := by
  rw [i2cSetStatus]
  show (if (s.current + 1) % 2 ^ 16 = s.limit then _ else _) = _
  rw [Nat.mod_eq_of_lt hlt, if_pos h, he]
  rfl

theorem i2cSetStatus_ack_more (hlt : s.current + 1 < 2 ^ 16) (h : s.current + 1 ≠ s.limit) (he : s.event = {}) :
    i2cSetStatus .ack s = s.advanced.raised { pause := true } := by
  rw [i2cSetStatus]
  show (if (s.current + 1) % 2 ^ 16 = s.limit then _ else _) = _
  rw [Nat.mod_eq_of_lt hlt, if_neg h, he]
  rfl

/-- A byte that is not acknowledged. -/
theorem i2cSetStatus_abort {outcome : Outcome} (h : outcome ≠ .ack) (he : s.event = {}) :
    i2cSetStatus outcome.status s = s.raised { abort := true } := by
  cases outcome with
  | ack => exact absurd rfl h
  | nack => show { s with event := { s.event with abort := true } } = _; rw [he]; rfl
  | arbi => show { s with event := { s.event with abort := true } } = _; rw [he]; rfl

theorem handle_read {event : Events} (hs : s.state = .read) (he : s.event = {}) (hne : event ≠ {}) :
    i2cHandleXfr c (s.raised event) = handleRead c event s := by
  cases s
  cases hs
  cases he
  exact if_neg hne

theorem handle_write {event : Events} (hs : s.state = .write) (he : s.event = {}) (hne : event ≠ {}) :
    i2cHandleXfr c (s.raised event) = handleWrite c event s := by
  cases s
  cases hs
  cases he
  exact if_neg hne

/-! ## Bytes in flight -/

theorem Ends.of_ended (h : Ended c x b calls s) : Ends c s (Ended c x b calls) := .of_idle h.state h

theorem acked_succ {n : Nat} (hack : ∀ i < n, c.outcome (b + i) = .ack) (h : c.outcome (b + n) = .ack) :
    ∀ i < n + 1, c.outcome (b + i) = .ack := by
  intro i hi
  obtain hlt | rfl := Nat.lt_or_eq_of_le (Nat.lt_succ_iff.mp hi)
  · exact hack i hlt
  · exact h

/-- From the byte `j` on, which is read. -/
theorem Ends.of_reading {j : Nat} (hj : j < x.rxlen) (hack : ∀ i < x.txlen + 1 + j, c.outcome (b + i) = .ack) (k : Nat) :
    Ends c (report c (c.outcome (b + (x.txlen + 1 + j))).status (reading x b calls j k)) (Ended c x b calls) := by
  -- by induction on the number of bytes that are left
  induction hd : x.rxlen - j generalizing j k with
  | zero => omega
  | succ d ih =>
    have hrx := x.rxlen_lt
    have htotal : x.txlen + 1 + j < x.total := by
      rw [Xfer.total]
      omega
    refine .of_report nofun rfl rfl fun k => ?_
    show Ends c (i2cHandleXfr c (i2cSetStatus _ (reading x b calls j k))) _
    by_cases hout : c.outcome (b + (x.txlen + 1 + j)) = .ack
    case neg =>
      rw [i2cSetStatus_abort hout rfl, handle_read rfl rfl (by decide)]
      exact .of_ended (.enterIdle (.inl (acks_of_nack htotal hack hout)) htotal rfl rfl rfl rfl rfl)
    have hack' := acked_succ hack hout
    have hlt : (reading x b calls j k).current + 1 < 2 ^ 16 := show j + 1 < 2 ^ 16 by omega
    rw [hout, Outcome.status]
    by_cases hlast : j + 1 = x.rxlen
    · have hend : x.txlen + 1 + j + 1 = x.total := by
        rw [Xfer.total]
        omega
      have hacks : acks c b x.total = x.total := acks_of_acked (hend ▸ hack')
      rw [i2cSetStatus_ack_last hlt hlast rfl, handle_read rfl rfl (by decide)]
      exact .of_ended (.enterIdle (.inr ⟨hacks, hend⟩) htotal rfl rfl rfl rfl rfl)
    · rw [i2cSetStatus_ack_more hlt hlast rfl, handle_read rfl rfl (by decide)]
      show Ends c (i2cEnterState c .read { reading x b calls (j + 1) k with
        state := .read, bytes := b + (x.txlen + 1 + j) + 1, log := callsUpTo x calls (x.txlen + 1 + j) }) _
      rw [show x.txlen + 1 + j = x.txlen + (j + 1) by omega, enterRead_eq (by omega)]
      exact ih (by omega) hack' k (by omega)

/-- From the byte `n` on, which is written. -/
theorem Ends.of_writing (htx : x.txlen + 1 < 2 ^ 16) {n : Nat} (hn : n ≤ x.txlen)
    (hack : ∀ i < n, c.outcome (b + i) = .ack) (k : Nat) :
    Ends c (report c (c.outcome (b + n)).status (writing x b calls n k)) (Ended c x b calls) := by
  -- by induction on the number of bytes that are left
  induction hd : x.txlen + 1 - n generalizing n k with
  | zero => omega
  | succ d ih =>
    have htotal : n < x.total := by
      rw [Xfer.total]
      omega
    refine .of_report nofun rfl rfl fun k => ?_
    show Ends c (i2cHandleXfr c (i2cSetStatus _ (writing x b calls n k))) _
    by_cases hout : c.outcome (b + n) = .ack
    case neg =>
      rw [i2cSetStatus_abort hout rfl, handle_write rfl rfl (by decide)]
      exact .of_ended (.enterIdle (.inl (acks_of_nack htotal hack hout)) htotal rfl rfl rfl rfl rfl)
    have hack' := acked_succ hack hout
    have hlt : (writing x b calls n k).current + 1 < 2 ^ 16 := show n + 1 < 2 ^ 16 by omega
    rw [hout, Outcome.status]
    obtain hmore | rfl := Nat.lt_or_eq_of_le hn
    · have hne : n + 1 ≠ x.txlen + 1 := by omega
      rw [i2cSetStatus_ack_more hlt hne rfl, handle_write rfl rfl (by decide)]
      show Ends c (i2cEnterState c .write { writing x b calls n k with current := n + 1 }) _
      rw [enterWrite_eq hmore]
      exact ih (by omega) hack' k (by omega)
    · rw [i2cSetStatus_ack_last hlt rfl rfl, handle_write rfl rfl (by decide)]
      show Ends c (handleWriteStop c { writing x b calls x.txlen k with current := x.txlen + 1 }) _
      rw [handleWriteStop]
      by_cases hrx : 0 < x.rxlen
      · -- the data from the slave comes next
        show Ends c (if 0 < x.rxlen then i2cEnterState c .read { reading x b calls 0 k with
          state := .write, bytes := b + (x.txlen + 0) + 1, log := callsUpTo x calls (x.txlen + 0) } else _) _
        rw [if_pos hrx, enterRead_eq hrx]
        exact .of_reading hrx hack' k
      · have hend : x.txlen + 1 = x.total := by
          rw [Xfer.total]
          omega
        have hacks : acks c b x.total = x.total := acks_of_acked (hend ▸ hack')
        rw [if_neg (show ¬0 < (_ : Master).rxsubmit from hrx)]
        exact .of_ended (.enterIdle (.inr ⟨hacks, hend⟩) htotal rfl rfl rfl rfl rfl)

/-! ## The start of a transfer -/

variable (x b calls) in
/-- The start condition has been asked for. -/
def starting (event : Events) (reports : List Status) (k : Nat) : Master where
  target := x.slave
  state := .wait
  mode := .tx
  txsubmit := x.txlen + 1
  rxsubmit := x.rxlen
  limit := x.txlen + 1
  current := 0
  event := event
  reports := reports
  bytes := b
  syncs := k
  log := calls ++ [.start]

/-- Events of other transfers are dropped. -/
theorem handle_starting {event : Events} (h : event.start = false) (reports : List Status) (k : Nat) :
    i2cHandleXfr c (starting x b calls event reports k) = starting x b calls {} reports k := by
  by_cases he : event = {}
  · rw [he]
    exact i2cHandleXfr_of_no_event rfl
  · rw [i2cHandleXfr]
    show (if event = {} then _ else if event.start = true then _ else starting x b calls {} reports k) = _
    rw [if_neg he, if_neg (by rw [h]; exact Bool.false_ne_true)]

/-- The address is sent. -/
theorem handle_started {event : Events} (h : event.start = true) (k : Nat) :
    i2cHandleXfr c (starting x b calls event [] k) = report c (c.outcome b).status (writing x b calls 0 k) := by
  have he : event ≠ {} := by
    intro he
    rw [he] at h
    cases h
  have hdir : (if x.txlen + 1 ≤ 1 then Dir.rx else Dir.tx) = x.dir := by
    rw [Xfer.dir]
    by_cases htx : x.txlen = 0
    · rw [if_pos htx, if_pos (by omega)]
    · rw [if_neg htx, if_neg (by omega)]
  have hlog : calls ++ [.start] ++ [.address (i2cAddrMode x.slave x.dir)] = callsUpTo x calls 0 := by
    rw [callsUpTo, List.take_zero, List.append_nil, List.append_assoc]
    rfl
  rw [i2cHandleXfr]
  show (if event = {} then _ else if event.start = true then
    i2cEnterState c .write (starting x b calls {} [] k) else _) = _
  rw [if_neg he, if_pos h, i2cEnterState]
  show report c (c.outcome b).status { writing x b calls 0 k with
    log := calls ++ [.start] ++ [.address (i2cAddrMode x.slave (if x.txlen + 1 ≤ 1 then .rx else .tx))] } = _
  rw [hdir, hlog]
  rfl

variable (x b calls) in
/-- Reports come, of which the last one is that of the start condition. -/
theorem deliver_starting (n : Nat) {l : List Status} (hl : ∀ status ∈ l, status = .stop) (event : Events)
    (he : event.start = false) (k : Nat) :
    (∃ l' event', l'.length ≤ l.length ∧ (∀ status ∈ l', status = .stop) ∧ event'.start = false ∧
        deliver n (starting x b calls event (l ++ [.start]) k) = starting x b calls event' (l' ++ [.start]) k) ∨
      ∃ event', event'.start = true ∧
        deliver n (starting x b calls event (l ++ [.start]) k) = starting x b calls event' [] k := by
  induction n generalizing l event with
  | zero => exact .inl ⟨l, event, le_rfl, hl, he, rfl⟩
  | succ n ih =>
    cases l with
    | nil =>
      refine .inr ⟨{ event with start := true }, rfl, ?_⟩
      rw [List.nil_append, deliver_singleton rfl]
      rfl
    | cons status l =>
      obtain rfl := hl status (List.mem_cons_self ..)
      have hl' : ∀ status ∈ l, status = .stop := fun status h => hl status (List.mem_cons_of_mem _ h)
      rw [List.cons_append, deliver_cons rfl]
      obtain ⟨l', event', hlen, hrest⟩ | hstarted := ih hl' { event with stop := true } he
      · exact .inl ⟨l', event', hlen.trans (Nat.le_succ _), hrest⟩
      · exact .inr hstarted

theorem Ends.of_handle_started (htx : x.txlen + 1 < 2 ^ 16) (event : Events) (h : event.start = true) (k : Nat) :
    Ends c (i2cHandleXfr c (starting x b calls event [] k)) (Ended c x b calls) := by
  rw [handle_started h]
  exact .of_writing htx (Nat.zero_le _) (fun i hi => absurd hi (Nat.not_lt_zero i)) k

/-- The report of the start condition has not come yet. -/
theorem Ends.of_pending (htx : x.txlen + 1 < 2 ^ 16) {l : List Status} (hl : ∀ status ∈ l, status = .stop) (k : Nat) :
    Ends c (starting x b calls {} (l ++ [.start]) k) (Ended c x b calls) := by
  -- by induction on the number of reports before it
  induction hn : l.length using Nat.strong_induction_on generalizing l k with
  | h n ih =>
    refine .of_poll nofun rfl fun k m => ?_
    show Ends c (i2cHandleXfr c (deliver (m + 1) (starting x b calls {} (l ++ [.start]) k))) _
    cases l with
    | nil =>
      rw [List.nil_append, deliver_singleton rfl]
      exact .of_handle_started htx { start := true } rfl k
    | cons status l =>
      obtain rfl := hl status (List.mem_cons_self ..)
      have hl' : ∀ status ∈ l, status = .stop := fun status h => hl status (List.mem_cons_of_mem _ h)
      rw [List.cons_append, deliver_cons rfl]
      show Ends c (i2cHandleXfr c (deliver m (starting x b calls { stop := true } (l ++ [.start]) k))) _
      obtain ⟨l', event', hlen, hl'', he', heq⟩ | ⟨event', he', heq⟩ :=
        deliver_starting x b calls m hl' { stop := true } rfl k
      · rw [heq, handle_starting he']
        exact ih l'.length (by rw [← hn, List.length_cons]; omega) hl'' k rfl
      · rw [heq]
        exact .of_handle_started htx event' he' k

theorem Ends.of_starting (htx : x.txlen + 1 < 2 ^ 16) {l : List Status} (hl : ∀ status ∈ l, status = .stop)
    {event : Events} (he : event.start = false) (k : Nat) :
    Ends c (starting x b calls event (l ++ [.start]) k) (Ended c x b calls) := by
  refine .of_sync nofun ?_
  show Ends c (i2cHandleXfr c (deliver _ (starting x b calls event (l ++ [.start]) (k + 1)))) _
  obtain ⟨l', event', -, hl', he', heq⟩ | ⟨event', he', heq⟩ :=
    deliver_starting x b calls (c.polls k) hl event he (k + 1)
  · rw [show c.polls (starting x b calls event (l ++ [.start]) k).syncs = c.polls k from rfl, heq, handle_starting he']
    exact .of_pending htx hl' _
  · rw [show c.polls (starting x b calls event (l ++ [.start]) k).syncs = c.polls k from rfl, heq]
    exact .of_handle_started htx event' he' _

theorem Ends.of_started (htx : x.txlen + 1 < 2 ^ 16) {event : Events} (he : event.start = true) (k : Nat) :
    Ends c (starting x b calls event [] k) (Ended c x b calls) := by
  refine .of_sync nofun ?_
  rw [bhSync, deliver_of_nil rfl]
  exact .of_handle_started htx event he (k + 1)

theorem submitStart_eq (htx : x.txlen + 1 < 2 ^ 16) (h : s.state = .idle) :
    submitStart c x s = report c .start (starting x s.bytes s.log s.event s.reports s.syncs) := by
  have hlengths : submitLengths x { s with target := x.slave } =
      { starting x s.bytes s.log s.event s.reports s.syncs with state := .idle, log := s.log } := by
    have hlen : (x.txlen + i2cAddrLen) % 2 ^ 16 = x.txlen + 1 := Nat.mod_eq_of_lt htx
    cases s
    cases h
    rw [submitLengths, hlen]
    exact if_pos (Nat.succ_pos x.txlen)
  rw [submitStart, hlengths]
  exact if_pos rfl

/-- A transfer ends, whatever transfers before it have left. -/
theorem Left.ends (htx : x.txlen + 1 < 2 ^ 16) (h : Left s) :
    Ends c (submitStart c x s) (Ended c x s.bytes s.log) := by
  rw [submitStart_eq htx h.state, report]
  show Ends c (if c.prompt then deliver (s.reports ++ [Status.start]).length
    (starting x s.bytes s.log s.event (s.reports ++ [.start]) s.syncs) else
      starting x s.bytes s.log s.event (s.reports ++ [.start]) s.syncs) _
  split
  · obtain ⟨l', event', -, hl', he', heq⟩ | ⟨event', he', heq⟩ :=
      deliver_starting x s.bytes s.log (s.reports ++ [Status.start]).length h.reports s.event h.event s.syncs
    · rw [heq]
      exact .of_starting htx hl' he' _
    · rw [heq]
      exact .of_started htx he' _
  · exact .of_starting htx h.reports h.event _

/-! ## Transfers -/

theorem Left.submitAll {xs : List Xfer} (hxs : ∀ x ∈ xs, x.txlen + i2cAddrLen ≤ 65535) (h : Left s) :
    ∃ s', Returns (fun fuel => submitAll c fuel xs s) s' ∧ s'.state = .idle ∧
      s'.log = s.log ++ allCalls c s.bytes xs := by
  induction xs generalizing s with
  | nil => exact ⟨s, .of_eq fun _ => rfl, h.state, (List.append_nil _).symm⟩
  | cons x xs ih =>
    have htx : x.txlen + 1 < 2 ^ 16 := Nat.lt_succ_of_le (hxs x (List.mem_cons_self ..))
    obtain ⟨s₁, hs₁, hended⟩ := h.ends (c := c) htx
    obtain ⟨s', hs', hstate, hlog⟩ := ih (fun x hx => hxs x (List.mem_cons_of_mem _ hx)) hended.toLeft
    refine ⟨s', hs₁.bind hs', hstate, ?_⟩
    rw [hlog, hended.log, hended.bytes, allCalls, List.append_assoc]

/-- Transfers made one after the other return in `IDLE`, and each of them has sent its address once and called the
device once for each byte up to the first one that has not been acknowledged. -/
theorem transfers_accounted (c : Controller) (xs : List Xfer) (h : ∀ x ∈ xs, x.txlen + i2cAddrLen ≤ 65535) :
    ∃ s', Returns (fun fuel => submitAll c fuel xs i2cInit) s' ∧ s'.state = .idle ∧ s'.log = allCalls c 0 xs :=
  Left.submitAll h ⟨rfl, rfl, fun _ h => absurd h List.not_mem_nil⟩

/-- The byte 2 is not acknowledged, and reports come one at a time. -/
def nackThird : Controller where
  outcome n := if n = 2 then .nack else .ack
  prompt := false
  stops := true
  polls _ := 1
  fair n := ⟨n, le_rfl, Nat.one_pos⟩

/-- The first of three transfers ends with the first byte from the slave. -/
theorem transfers_accounted_third_nack :
    ∃ s', Returns (fun fuel => submitAll nackThird fuel
        [⟨0x50, 1, 2, by decide, by decide⟩, ⟨0x50, 0, 1, by decide, by decide⟩, ⟨0x51, 2, 0, by decide, by decide⟩]
        i2cInit) s' ∧
      s'.state = .idle ∧
      s'.log = [.start, .address 0xA0, .iocb .tx, .iocb .rx, .start, .address 0xA1, .iocb .rx,
        .start, .address 0xA2, .iocb .tx, .iocb .tx, .stop] := by
  obtain ⟨s', hs', hstate, hlog⟩ := transfers_accounted nackThird
    [⟨0x50, 1, 2, by decide, by decide⟩, ⟨0x50, 0, 1, by decide, by decide⟩, ⟨0x51, 2, 0, by decide, by decide⟩]
    (by decide)
  refine ⟨s', hs', hstate, hlog.trans ?_⟩
  decide

end Sdfirm.I2c
