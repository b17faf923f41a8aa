import Sdfirm.Proof.Framework.Runs
import Sdfirm.Spec.Hid

/-!
# What the HID class withstands

A poll fails exactly if the idle duration of a busy report is over
(`hidInputPoll_isSome_iff`), and leaves the marks of the reports that run as
they are. Of the control requests only `GET_IDLE` with report 0 and
`GET_DESCRIPTOR` for reports that cannot describe themselves go wrong
(`ctrl_iff`). `sound_iff` puts the steps together to runs.
-/

namespace Sdfirm.Hid

open Framework

variable {s s' : State} {c c' : Slot} {jiffies : UInt32} {raises : List Nat} {rid : Nat} {slots slots' : List Slot}

/-! ## Polls -/

/-- `hid_raise_interrupt` on the report. -/
def raiseSlot (c : Slot) : Option Slot := if hidInterruptBusy c then none else some { c with pending := true }

/-- `hid_poll_interrupt` on the report. -/
def pollSlot (jiffies : UInt32) (raises : List Nat) (rid : Nat) (c : Slot) : Option Slot :=
  if c.expired jiffies then raiseSlot { c with lastPoll := jiffies }
  else if !hidInterruptBusy c ∧ c.report.poll ∧ rid ∈ raises then raiseSlot c
  else some c

theorem hidRaiseInterrupt_eq : hidRaiseInterrupt rid slots = updateAt raiseSlot slots rid := by
  unfold hidRaiseInterrupt updateAt
  cases slots[rid]? with
  | none => rfl
  | some c =>
    dsimp only [raiseSlot]
    split <;> rfl

/-- A report is polled without a look at the others. -/
theorem hidPollInterrupt_eq : hidPollInterrupt jiffies raises rid slots = updateAt (pollSlot jiffies raises rid) slots rid := by
  unfold hidPollInterrupt hidPollDuration updateAt
  cases hget : slots[rid]? with
  | none => simp [hget]
  | some c =>
    obtain ⟨hlt, hc⟩ := List.getElem?_eq_some_iff.mp hget
    dsimp only
    by_cases hexp : c.expired jiffies = true
    · rw [if_pos hexp, hidRaiseInterrupt_eq, updateAt, List.getElem?_set_self hlt, pollSlot, if_pos hexp]
      dsimp only
      cases hraise : raiseSlot { c with lastPoll := jiffies } with
      | none => rfl
      | some c' =>
        have hbusy : hidInterruptBusy c' = true := by
          unfold raiseSlot at hraise
          split at hraise
          · cases hraise
          · obtain rfl := Option.some.inj hraise
            simp [hidInterruptBusy]
        simp [hlt, hbusy]
    · rw [if_neg hexp, pollSlot, if_neg hexp]
      simp only [Option.bind_eq_bind, Option.bind_some, hget]
      split
      · rw [hidRaiseInterrupt_eq, updateAt, hget]
      · rw [Option.map_some, ← hc, List.set_getElem_self]

theorem hidInputPoll_eq : hidInputPoll jiffies raises slots =
    (List.range slots.length).foldlM (fun l i => updateAt (pollSlot jiffies raises i) l i) slots := by
  simp only [hidInputPoll, hidPollInterrupt_eq]

theorem pollSlot_isSome_iff : (pollSlot jiffies raises rid c).isSome = true ↔
    (hidInterruptBusy c = true → c.expired jiffies = false) := by
  have hset : hidInterruptBusy { c with lastPoll := jiffies } = hidInterruptBusy c := rfl
  unfold pollSlot raiseSlot
  rw [hset]
  cases hexp : c.expired jiffies <;> cases hbusy : hidInterruptBusy c <;> simp
  split <;> rfl

/-- No report is marked as running when its interrupt is raised. -/
theorem raiseSlot_running (h : raiseSlot c = some c') : c'.running = c.running := by
  unfold raiseSlot at h
  split at h
  · cases h
  · obtain rfl := Option.some.inj h
    rfl

theorem pollSlot_running (h : pollSlot jiffies raises rid c = some c') : c'.running = c.running := by
  unfold pollSlot at h
  split at h
  · exact raiseSlot_running (c := { c with lastPoll := jiffies }) h
  · split at h
    · exact raiseSlot_running h
    · obtain rfl := Option.some.inj h
      rfl

theorem hidInputPoll_isSome_iff : (∃ slots', hidInputPoll jiffies raises slots = some slots') ↔
    ∀ c ∈ slots, hidInterruptBusy c = true → c.expired jiffies = false := by
  rw [hidInputPoll_eq, foldlM_updateAt_isSome_iff]
  constructor
  · intro h c hc
    obtain ⟨i, hi⟩ := List.getElem?_of_mem hc
    exact pollSlot_isSome_iff.mp (h i c hi)
  · intro h i c hi
    exact pollSlot_isSome_iff.mpr (h c (List.mem_of_getElem? hi))

theorem hidInputPoll_running (h : hidInputPoll jiffies raises slots = some slots') (hc : c' ∈ slots') :
    ∃ c ∈ slots, c'.running = c.running := by
  rw [hidInputPoll_eq] at h
  have hupd := updated_of_foldlM h
  obtain ⟨i, hi⟩ := List.getElem?_of_mem hc
  have hlt : i < slots.length := hupd.length ▸ (List.getElem?_eq_some_iff.mp hi).1
  obtain ⟨c₁, hpoll, hi₁⟩ := hupd.entry (List.getElem?_eq_getElem hlt)
  obtain rfl := Option.some.inj (hi.symm.trans hi₁)
  exact ⟨slots[i], List.getElem_mem hlt, pollSlot_running hpoll⟩

theorem poll_iff (h : Sound s) (submitted : Bool) :
    (∃ s', hidInputSubmit jiffies raises submitted s = some s' ∧ Sound s') ↔
      ∀ c ∈ s.slots, hidInterruptBusy c = true → c.expired jiffies = false := by
  rw [← @hidInputPoll_isSome_iff jiffies raises s.slots]
  constructor
  · rintro ⟨s', hs', -⟩
    obtain ⟨slots, hslots, -⟩ := Option.bind_eq_some_iff.mp hs'
    exact ⟨slots, hslots⟩
  · rintro ⟨slots, hslots⟩
    unfold hidInputSubmit
    simp only [hslots, Option.bind_eq_bind, Option.bind_some]
    split
    · exact ⟨_, rfl, h.stray, fun _ _ _ => rfl⟩
    · refine ⟨_, rfl, h.stray, fun c hc hrun => ?_⟩
      obtain ⟨c₀, hc₀, heq⟩ := hidInputPoll_running hslots hc
      exact h.running c₀ hc₀ (heq ▸ hrun)

theorem complete_sound (h : Sound s) : Sound (hidInputDiscard s) := by
  refine ⟨h.stray, fun c hc hrun => ?_⟩
  obtain ⟨c₀, -, rfl⟩ := List.mem_map.mp hc
  split at hrun
  · cases hrun
  · rename_i hnot
    exact absurd hrun hnot

/-! ## Control requests -/

theorem mapM_isSome_iff {α β : Type} (f : α → Option β) (l : List α) :
    (l.mapM f).isSome = true ↔ ∀ a ∈ l, (f a).isSome = true := by
  induction l with
  | nil => simp
  | cons a l ih =>
    rw [List.mapM_cons]
    cases hf : f a with
    | none => simp [hf]
    | some b =>
      cases hl : l.mapM f with
      | none => simp_all
      | some bs => simp_all

theorem hidGetHidDesc_isSome_iff : (hidGetHidDesc s).isSome = true ↔ ∀ c ∈ s.slots, c.report.configLen.isSome = true := by
  have hmap : (hidGetHidDesc s).isSome =
      (s.slots.mapM fun c => (hidOptDescriptorLength c).map fun length => 0x22 :: word length).isSome := by
    unfold hidGetHidDesc
    cases s.slots.mapM fun c => (hidOptDescriptorLength c).map fun length => 0x22 :: word length <;> rfl
  rw [hmap, mapM_isSome_iff]
  simp [hidOptDescriptorLength]

theorem hidInShort_isSome_iff {item : Item} : (hidInShort item).isSome = true ↔ item.format = .short := by
  unfold hidInShort
  split
  · rename_i hlong
    simp [hlong]
  · rename_i hshort
    simp only [hshort]
    split <;> simp

theorem hidGetReportDesc_isSome_iff {rid : Nat} :
    (hidGetReportDesc rid s).isSome = true ↔ ∀ c ∈ s.slots[rid]?, c.report.describes := by
  unfold hidGetReportDesc
  cases s.slots[rid]? with
  | none => simp
  | some c =>
    cases hctrl : c.report.ctrl with
    | none => simp [Report.describes, hctrl]
    | some items => simp [Report.describes, hctrl, mapM_isSome_iff, hidInShort_isSome_iff]

theorem hidGetDescriptor_isSome_iff {q : Setup} : (hidGetDescriptor q s).isSome = true ↔
    ((q.hi = 0x02 ∨ (q.hi = 0x21 ∧ q.recp = .interface)) → ∀ c ∈ s.slots, c.report.configLen.isSome = true) ∧
      ((q.hi = 0x22 ∧ q.recp = .interface) → ∀ c ∈ s.slots[q.lo]?, c.report.describes) := by
  rw [← hidGetHidDesc_isSome_iff, ← hidGetReportDesc_isSome_iff]
  unfold hidGetDescriptor
  split
  · rename_i hhi
    simp [hhi]
  · rename_i hhi
    simp [hhi]
  · rename_i hhi
    split <;> simp_all
  · rename_i hhi
    split <;> simp_all
  · simp_all

/-- A standard request changes nothing, and fails if a report cannot describe itself. -/
theorem standard_iff (h : Sound s) {q : Setup} (htype : q.type = .standard) (hrecp : q.recp = .device ∨ q.recp = .interface) :
    (∃ s', (hidHandleStandardRequest q s).map Prod.snd = some s' ∧ Sound s') ↔
      (q.asksHid → ∀ c ∈ s.slots, c.report.configLen.isSome = true) ∧
        (q.asksReport → ∀ c ∈ s.slots[q.lo]?, c.report.describes) := by
  by_cases hreq : q.request = 0x06
  · have hsome : (∃ s', (hidHandleStandardRequest q s).map Prod.snd = some s' ∧ Sound s') ↔
        (hidGetDescriptor q s).isSome = true := by
      unfold hidHandleStandardRequest
      rw [hreq]
      cases hidGetDescriptor q s with
      | none => simp
      | some a => simpa using h
    rw [hsome, hidGetDescriptor_isSome_iff]
    rcases hrecp with hrecp | hrecp <;> simp [Setup.asksHid, Setup.asksReport, htype, hreq, hrecp]
  · have hnone : hidHandleStandardRequest q s = some (.halt, s) := by
      unfold hidHandleStandardRequest
      split
      · exact absurd ‹_› hreq
      · rfl
    simpa [hnone, Setup.asksHid, Setup.asksReport, hreq] using h

/-- The idle durations do not matter. -/
theorem Sound.of_slots (h : Sound s) {slots : List Slot} (hslots : ∀ c ∈ slots, c.running = true → ∃ c₀ ∈ s.slots, c₀.running = true) :
    Sound { s with slots } :=
  ⟨h.stray, fun c hc hrun => by
    obtain ⟨c₀, hc₀, hrun₀⟩ := hslots c hc hrun
    exact h.running c₀ hc₀ hrun₀⟩

theorem hidSetIdle_sound (h : Sound s) (q : Setup) : Sound (hidSetIdle q s).2 := by
  unfold hidSetIdle
  split
  · refine h.of_slots fun c hc hrun => ?_
    obtain ⟨c₀, hc₀, rfl⟩ := List.mem_map.mp hc
    exact ⟨c₀, hc₀, hrun⟩
  · split
    · refine h.of_slots fun c hc hrun => ?_
      obtain ⟨i, hi⟩ := List.getElem?_of_mem hc
      rw [List.getElem?_modify] at hi
      obtain ⟨c₀, hi₀, rfl⟩ := Option.map_eq_some_iff.mp hi
      refine ⟨c₀, List.mem_of_getElem? hi₀, ?_⟩
      split at hrun <;> exact hrun
    · exact h

/-- Report 0 counts as registered. -/
theorem hidGetIdle_sound_iff (h : Sound s) (q : Setup) : Sound (hidGetIdle q s).2 ↔ q.lo ≠ 0 := by
  unfold hidGetIdle hidReportRegistered hidReportrid
  by_cases hlo : q.lo = 0
  · have hneg : ((0 : Nat) : Int) - 1 < s.slots.length := by omega
    rw [hlo, if_pos (by simpa using hneg), if_neg (by decide)]
    simp only [ne_eq, not_true_eq_false, iff_false]
    intro hs
    have := hs.stray
    simp at this
  · have hsame : ∀ a b : Answer, Sound (if decide ((q.lo : Int) - 1 < s.slots.length) = true then
        if 0 ≤ (q.lo : Int) - 1 then (a, s) else (b, { s with stray := s.stray ++ [(q.lo : Int) - 1] }) else (.halt, s)).2 := by
      intro a b
      rw [if_pos (show (0 : Int) ≤ (q.lo : Int) - 1 by omega)]
      split <;> exact h
    simpa [hlo] using hsame _ _

theorem class_iff (h : Sound s) (q : Setup) : Sound (hidHandleClassRequest q s).2 ↔ (q.request = 0x02 → q.lo ≠ 0) := by
  unfold hidHandleClassRequest
  split
  · rename_i hreq
    simpa [hreq] using h
  · rename_i hreq
    simpa [hreq] using hidGetIdle_sound_iff h q
  · rename_i hreq
    simpa [hreq] using h
  · rename_i hreq
    simpa [hreq] using hidSetIdle_sound h q
  · rename_i _ hget _ _
    simpa [show q.request ≠ 2 from hget] using h

theorem ctrl_iff (h : Sound s) (q : Setup) :
    (∃ s', step s (.control q) = some s' ∧ Sound s') ↔ Regular s (.control q) := by
  obtain ⟨recp, type, request, value⟩ := q
  cases recp with
  | device =>
    cases type with
    | standard =>
      refine (standard_iff h rfl (.inl rfl)).trans ?_
      simp [Regular, Setup.isClass]
    | cls => simpa [step, hidHandleCtrlData, Regular, Setup.isClass, Setup.asksHid, Setup.asksReport] using h
    | other => simpa [step, hidHandleCtrlData, Regular, Setup.isClass, Setup.asksHid, Setup.asksReport] using h
  | interface =>
    cases type with
    | standard =>
      refine (standard_iff h rfl (.inr rfl)).trans ?_
      simp [Regular, Setup.isClass]
    | cls => simpa [step, hidHandleCtrlData, Regular, Setup.isClass, Setup.asksHid, Setup.asksReport] using class_iff h _
    | other => simpa [step, hidHandleCtrlData, Regular, Setup.isClass, Setup.asksHid, Setup.asksReport] using h
  | other =>
    cases type <;> simpa [step, hidHandleCtrlData, Regular, Setup.isClass, Setup.asksHid, Setup.asksReport] using h

theorem step_iff (h : Sound s) (op : Op) : (∃ s', step s op = some s' ∧ Sound s') ↔ Regular s op := by
  cases op with
  | control q => exact ctrl_iff h q
  | poll jiffies raises submitted => exact poll_iff h submitted
  | complete => exact ⟨fun _ => trivial, fun _ => ⟨_, rfl, complete_sound h⟩⟩

/-! ## Runs -/

theorem registered_idle (nr : Nat) (reports : List (Nat × Report)) {s : State}
    (hs : s.inflight = false ∧ s.stray = [] ∧ ∀ c ∈ s.slots, c.running = false ∧ c.pending = false) :
    (reports.foldl (hidRegisterReport nr) s).inflight = false ∧ (reports.foldl (hidRegisterReport nr) s).stray = [] ∧
      ∀ c ∈ (reports.foldl (hidRegisterReport nr) s).slots, c.running = false ∧ c.pending = false := by
  induction reports generalizing s with
  | nil => exact hs
  | cons r reports ih =>
    apply ih
    unfold hidRegisterReport
    split
    · refine ⟨hs.1, hs.2.1, fun c hc => ?_⟩
      rcases List.mem_append.mp hc with hc | hc
      · exact hs.2.2 c hc
      · obtain rfl := List.mem_singleton.mp hc
        exact ⟨rfl, rfl⟩
    · exact hs

/-- The reports are raised once when they have been registered. -/
theorem hidInit_sound (nr : Nat) (reports : List (Nat × Report)) : ∃ s₀, hidInit nr reports = some s₀ ∧ Sound s₀ := by
  obtain ⟨hinflight, hstray, hidle⟩ := registered_idle nr reports (s := {}) ⟨rfl, rfl, by simp⟩
  generalize hs : reports.foldl (hidRegisterReport nr) {} = s at hinflight hstray hidle
  have hloop : (List.range s.slots.length).foldlM (fun slots rid => hidRaiseInterrupt rid slots) s.slots =
      (List.range s.slots.length).foldlM (fun l i => updateAt raiseSlot l i) s.slots := by
    simp only [hidRaiseInterrupt_eq]
  obtain ⟨slots, hslots⟩ : ∃ slots, (List.range s.slots.length).foldlM (fun l i => updateAt raiseSlot l i) s.slots = some slots := by
    rw [foldlM_updateAt_isSome_iff (g := fun _ => raiseSlot)]
    intro i c hc
    obtain ⟨hrun, hpend⟩ := hidle c (List.mem_of_getElem? hc)
    simp [raiseSlot, hidInterruptBusy, hrun, hpend]
  refine ⟨{ s with slots }, ?_, hstray, fun c hc hrun => ?_⟩
  · rw [hidInit, hs, hidStart, hloop, hslots]
    rfl
  · have hupd := updated_of_foldlM (g := fun _ => raiseSlot) hslots
    obtain ⟨i, hi⟩ := List.getElem?_of_mem hc
    have hlt : i < s.slots.length := hupd.length ▸ (List.getElem?_eq_some_iff.mp hi).1
    obtain ⟨c₁, hraise, hi₁⟩ := hupd.entry (List.getElem?_eq_getElem hlt)
    obtain rfl := Option.some.inj (hi.symm.trans hi₁)
    rw [raiseSlot_running hraise, (hidle _ (List.getElem_mem hlt)).1] at hrun
    cases hrun

/-- In runs of regular steps all is well, and it is so after no other step. -/
theorem sound_iff (nr : Nat) (reports : List (Nat × Report)) : ∃ s₀, hidInit nr reports = some s₀ ∧
    ∀ s, Runs s₀ s → Sound s ∧ ∀ op, (∃ s', step s op = some s' ∧ Sound s') ↔ Regular s op := by
  obtain ⟨s₀, hs₀, hsound⟩ := hidInit_sound nr reports
  refine ⟨s₀, hs₀, fun s hrun => ?_⟩
  have h : Sound s := by
    refine hrun.invariant ?_ fun s op s' h hreg hs => ?_
    · rintro _ rfl
      exact hsound
    · obtain ⟨s₁, hs₁, h₁⟩ := (step_iff h op).mpr hreg
      obtain rfl := Option.some.inj (hs.symm.trans hs₁)
      exact h₁
  exact ⟨h, step_iff h⟩

/-- A keyboard that has been started. -/
def keyboard : State := { slots := [{ report := hidKbdReport, duration := 0, pending := true }] }

theorem hidInit_keyboard : hidInit 1 [(0, hidKbdReport)] = some keyboard := rfl

/-- The keyboard sends its first report. -/
theorem sound_keyboard : hidInit 1 [(0, hidKbdReport)] = some keyboard ∧ ∃ s, Runs keyboard s ∧ s.inflight = true ∧ Sound s := by
  obtain ⟨s₀, hs₀, h⟩ := sound_iff 1 [(0, hidKbdReport)]
  obtain rfl := Option.some.inj (hidInit_keyboard.symm.trans hs₀)
  have hreg : ∀ c ∈ keyboard.slots, hidInterruptBusy c = true → c.expired 5 = false := by decide
  have hrun : Runs keyboard { slots := [{ report := hidKbdReport, duration := 0, running := true }], inflight := true } :=
    Framework.Run.next (s := keyboard) (.poll 5 [] true) (.start rfl) hreg rfl
  exact ⟨hs₀, _, hrun, rfl, (h _ hrun).1⟩

/-- The host sets an idle duration of 4 ms before the first poll; the host asks for the idle duration of report 0. -/
theorem not_sound_keyboard :
    (∃ s, hidInit 1 [(0, hidKbdReport)] = some keyboard ∧ step keyboard (.control ⟨.interface, .cls, 0x0A, 0x0100⟩) = some s ∧
      step s (.poll 5 [] true) = none) ∧
    (∃ s, step keyboard (.control ⟨.interface, .cls, 0x02, 0x0000⟩) = some s ∧ s.stray = [-1]) :=
  ⟨⟨_, rfl, rfl, by decide⟩, ⟨_, rfl, by decide⟩⟩

end Sdfirm.Hid
