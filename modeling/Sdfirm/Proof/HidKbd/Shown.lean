import Sdfirm.Proof.Hid.Robust
import Sdfirm.Spec.Hid

/-!
# Reports of the keyboard

The bits of `hid_kbd_last` say where `Host` is (`Host.Bits`). A report that is
running carries the key that it carried when its bytes were asked for, since a
key press is not accepted meanwhile, and no report is busy while a key is held
that has been reported (`Inv`).
-/

namespace Sdfirm.HidKbd

open Hid (Slot hidInterruptBusy pollSlot raiseSlot)

variable {n : NrKeys} {s s' : Kbd} {h : Host} {c : Slot}

/-! ## Polls of the only report -/

theorem hidInputPoll_singleton (jiffies : UInt32) (raises : List Nat) (c : Slot) :
    Hid.hidInputPoll jiffies raises [c] = (pollSlot jiffies raises 0 c).map ([·]) := by
  rw [Hid.hidInputPoll_eq]
  show ((pollSlot jiffies raises 0 c).map ([c].set 0)).bind _ = _
  cases pollSlot jiffies raises 0 c with
  | none => rfl
  | some c' => rfl

/-- The report is sent if it is pending, its idle duration is over, or the keyboard wants it. -/
def wanted (jiffies : UInt32) (last : Last) (c : Slot) : Bool :=
  c.pending || !c.running && (c.expired jiffies || hidKbdIrqPoll last)

/-- What a poll makes of the report, if its idle duration is not over while it is busy. -/
theorem pollSlot_eq {jiffies : UInt32} (last : Last) (hpoll : c.report.poll = true)
    (hrun : c.running = true → c.pending = false) (hquiet : c.expired jiffies = true → hidInterruptBusy c = false) :
    pollSlot jiffies (if hidKbdIrqPoll last then [hidKbdRid] else []) 0 c =
      some { c with
        lastPoll := if c.expired jiffies then jiffies else c.lastPoll
        pending := wanted jiffies last c } := by
  unfold pollSlot raiseSlot wanted
  generalize Slot.expired jiffies c = expired at hquiet ⊢
  obtain ⟨report, duration, lastPoll, running, pending⟩ := c
  cases expired <;> cases running <;> cases pending <;> cases hidKbdIrqPoll last <;>
    simp_all [hidInterruptBusy, hidKbdRid]

/-- The report after a poll. -/
def polled (jiffies : UInt32) (submitted : Bool) (last : Last) (c : Slot) : Slot :=
  { c with
    lastPoll := if c.expired jiffies then jiffies else c.lastPoll
    pending := wanted jiffies last c && !submitted
    running := c.running || wanted jiffies last c && submitted }

theorem kbdPoll_eq {jiffies : UInt32} (hslots : s.hid.slots = [c]) (hpoll : c.report.poll = true)
    (hinflight : s.hid.inflight = c.running) (hrun : c.running = true → c.pending = false)
    (hquiet : c.expired jiffies = true → hidInterruptBusy c = false) (submitted : Bool) :
    kbdPoll jiffies submitted s = some { s with hid := { s.hid with
      slots := [polled jiffies submitted s.last c], inflight := (polled jiffies submitted s.last c).running } } := by
  rw [kbdPoll, Hid.hidInputSubmit, hslots, hidInputPoll_singleton, pollSlot_eq s.last hpoll hrun hquiet]
  cases hwanted : wanted jiffies s.last c <;> cases submitted <;> simp [polled, hwanted, hinflight]

/-! ## The invariant -/

/-- The bits of `hid_kbd_last`. -/
def Host.Bits (last : Last) : Host → Prop
  | .none => last.down = false ∧ last.up = false ∧ last.busy = false
  | .pressed k => last = { code := k, down := true, up := false, busy := true }
  | .held k => last = { code := k, down := false, up := false, busy := true }
  | .early k => last = { code := k, down := true, up := true, busy := true }
  | .released k => last = { code := k, down := false, up := true, busy := true }

structure Inv (n : NrKeys) (s : Kbd) (h : Host) (c : Slot) : Prop where
  slots : s.hid.slots = [c]
  poll : c.report.poll = true
  inflight : s.hid.inflight = c.running
  running : c.running = true → c.pending = false
  fifo : ∀ bytes ∈ s.fifo, c.running = true ∧ bytes = hidKbdIrqIn n s.last
  /-- No report is sent while a key is held that has been reported. -/
  held : ∀ k, h = .held k → hidInterruptBusy c = false
  bits : h.Bits s.last
  after : Host.after n s.seen = some h

theorem Host.after_append {seen : List Seen} (h₀ : Host.after n seen = some h) (x : Seen) :
    Host.after n (seen ++ [x]) = h.step n x := by
  rw [Host.after] at h₀
  rw [Host.after, List.foldlM_append, h₀]
  show (h.step n x).bind some = _
  exact Option.bind_fun_some ..

theorem hidKbdIrqIn_down {last : Last} (hd : last.down = true) : hidKbdIrqIn n last = keyReport n last.code := by
  rw [hidKbdIrqIn, if_pos hd, if_pos hd]
  rfl

theorem hidKbdIrqIn_not_down {last : Last} (hd : last.down = false) : hidKbdIrqIn n last = noKeyReport := by
  rw [hidKbdIrqIn, hd]
  rfl

theorem Inv.interruptBusy (hi : Inv n s h c) : hidKbdInterruptBusy s = hidInterruptBusy c := by
  rw [hidKbdInterruptBusy, hi.slots]
  rfl

theorem Inv.fifo_of_not_busy (hi : Inv n s h c) (hbusy : hidInterruptBusy c = false) : s.fifo = none := by
  cases hf : s.fifo with
  | none => rfl
  | some bytes =>
    have hrun := (hi.fifo bytes (Option.mem_def.mpr hf)).1
    rw [hidInterruptBusy, hrun, Bool.true_or] at hbusy
    cases hbusy

/-- A key press is accepted only if there is no key. -/
theorem Inv.down (hi : Inv n s h c) (key : Byte) : ∃ h', Inv n (hidKbdKeyDown key s) h' c := by
  rw [hidKbdKeyDown, hi.interruptBusy]
  split
  case isFalse => exact ⟨h, hi⟩
  case isTrue hacc =>
    obtain ⟨hbusy, hlast⟩ := hacc
    have hbusy' : hidInterruptBusy c = false := by simpa using hbusy
    have hfifo := hi.fifo_of_not_busy hbusy'
    have hnone : h = .none := by
      have hbits := hi.bits
      cases h with
      | none => rfl
      | _ => simp_all [Host.Bits]
    subst hnone
    refine ⟨.pressed key, { hi with fifo := ?_, held := nofun, bits := rfl, after := ?_ }⟩
    · rw [hfifo]
      exact nofun
    · rw [Host.after_append hi.after]
      rfl

/-- The release of another key, and of a key that has been released, changes nothing. -/
theorem Host.Bits.up {last : Last} (hb : h.Bits last) (key : Byte) :
    (h.up key).Bits (if last.code = key ∧ last.busy then { last with up := true } else last) := by
  cases h with
  | none =>
    rw [if_neg (fun hk => by rw [hb.2.2] at hk; exact Bool.false_ne_true hk.2)]
    exact hb
  | early k =>
    obtain rfl := hb
    split <;> rfl
  | released k =>
    obtain rfl := hb
    split <;> rfl
  | pressed k =>
    obtain rfl := hb
    rw [Host.up]
    by_cases hk : key = k
    · rw [if_pos hk, if_pos ⟨hk.symm, rfl⟩]
      rfl
    · rw [if_neg hk, if_neg (fun h => hk h.1.symm)]
      rfl
  | held k =>
    obtain rfl := hb
    rw [Host.up]
    by_cases hk : key = k
    · rw [if_pos hk, if_pos ⟨hk.symm, rfl⟩]
      rfl
    · rw [if_neg hk, if_neg (fun h => hk h.1.symm)]
      rfl

theorem Host.up_held {key k : Byte} (hu : h.up key = .held k) : h = .held k := by
  cases h with
  | held k' =>
    rw [Host.up] at hu
    split at hu
    · cases hu
    · exact hu
  | pressed k' =>
    rw [Host.up] at hu
    split at hu <;> cases hu
  | _ => cases hu

theorem Inv.up (hi : Inv n s h c) (key : Byte) : ∃ h', Inv n (hidKbdKeyUp key s) h' c := by
  have hlast : (hidKbdKeyUp key s).last =
      if s.last.code = key ∧ s.last.busy then { s.last with up := true } else s.last := by
    rw [hidKbdKeyUp]
    show (if s.last.code = key ∧ s.last.busy then _ else _ : Kbd).last = _
    split <;> rfl
  have hrest : (hidKbdKeyUp key s).hid = s.hid ∧ (hidKbdKeyUp key s).fifo = s.fifo ∧
      (hidKbdKeyUp key s).seen = s.seen ++ [.up key] := by
    rw [hidKbdKeyUp]
    show (if s.last.code = key ∧ s.last.busy then _ else _ : Kbd).hid = _ ∧ _
    split
    · exact ⟨rfl, rfl, rfl⟩
    · exact ⟨rfl, rfl, rfl⟩
  obtain ⟨hhid, hfifo, hseen⟩ := hrest
  -- the bytes of a report do not depend on the bit that is set
  have hin : hidKbdIrqIn n (hidKbdKeyUp key s).last = hidKbdIrqIn n s.last := by
    rw [hlast]
    split <;> rfl
  refine ⟨h.up key, { hi with slots := ?_, inflight := ?_, fifo := ?_, held := ?_, bits := ?_, after := ?_ }⟩
  · rw [hhid, hi.slots]
  · rw [hhid, hi.inflight]
  · rw [hfifo, hin]
    exact hi.fifo
  · exact fun k hk => hi.held k (Host.up_held hk)
  · rw [hlast]
    exact hi.bits.up key
  · rw [hseen, Host.after_append hi.after]
    rfl

/-- What a poll that is quiet leaves. -/
theorem Inv.poll_eq (hi : Inv n s h c) {jiffies : UInt32} {submitted : Bool} (hq : Quiet s (.poll jiffies submitted)) :
    kbdPoll jiffies submitted s = some { s with hid := { s.hid with
      slots := [polled jiffies submitted s.last c], inflight := (polled jiffies submitted s.last c).running } } := by
  refine kbdPoll_eq hi.slots hi.poll hi.inflight hi.running ?_ submitted
  intro hexp
  exact (hq c (by rw [hi.slots]; exact List.mem_singleton.mpr rfl) hexp).1

theorem Inv.polled (hi : Inv n s h c) {jiffies : UInt32} {submitted : Bool} (hq : Quiet s (.poll jiffies submitted)) :
    Inv n { s with hid := { s.hid with
      slots := [polled jiffies submitted s.last c], inflight := (polled jiffies submitted s.last c).running } } h
      (HidKbd.polled jiffies submitted s.last c) where
  slots := rfl
  poll := hi.poll
  inflight := rfl
  running := by
    intro hrun
    show (wanted jiffies s.last c && !submitted) = false
    cases submitted with
    | true => exact Bool.and_false _
    | false =>
      have hrun' : c.running = true := by simpa [HidKbd.polled] using hrun
      rw [wanted, hi.running hrun', hrun']
      rfl
  fifo := by
    intro bytes hbytes
    obtain ⟨hrun, heq⟩ := hi.fifo bytes hbytes
    refine ⟨?_, heq⟩
    show (c.running || _) = true
    rw [hrun, Bool.true_or]
  held := by
    rintro k rfl
    have hbusy := Bool.or_eq_false_iff.mp (hi.held k rfl)
    have hlast : s.last = { code := k, down := false, up := false, busy := true } := hi.bits
    have hexp : c.expired jiffies = false := by
      rw [← Bool.not_eq_true]
      intro hexp
      have hdue := (hq c (by rw [hi.slots]; exact List.mem_singleton.mpr rfl) hexp).2
      rw [hlast] at hdue
      simp at hdue
    have hwanted : wanted jiffies s.last c = false := by
      rw [wanted, hbusy.2, hexp, hlast]
      exact Bool.and_false _
    show (c.running || wanted jiffies s.last c && submitted || wanted jiffies s.last c && !submitted) = false
    rw [hwanted, hbusy.1]
    rfl
  bits := hi.bits
  after := hi.after

theorem Inv.handle (hi : Inv n s h c) : Inv n (kbdHandle n s) h c := by
  rw [kbdHandle]
  split
  case isFalse => exact hi
  case isTrue hin =>
    refine { hi with fifo := ?_ }
    intro bytes hbytes
    exact ⟨hi.inflight.symm.trans hin, (Option.some.inj hbytes).symm⟩

/-- The report that the host has received. -/
theorem Host.Bits.done {last : Last} (hb : h.Bits last) (hheld : ∀ k, h ≠ .held k) :
    ∃ h', h.report n (hidKbdIrqIn n last) = some h' ∧ h'.Bits (hidKbdIrqDone last) ∧ ∀ h₁ ∈ h.due, h' = h₁ := by
  cases h with
  | none =>
    obtain ⟨hdown, hup, hbusy⟩ := hb
    refine ⟨.none, ?_, ?_, nofun⟩
    · rw [hidKbdIrqIn_not_down hdown]
      rfl
    · rw [hidKbdIrqDone, hdown, hup]
      exact ⟨hdown, hup, hbusy⟩
  | held k => exact absurd rfl (hheld k)
  | pressed k =>
    obtain rfl := hb
    refine ⟨.held k, ?_, rfl, fun _ hd => Option.some.inj hd⟩
    rw [hidKbdIrqIn_down rfl]
    exact if_pos rfl
  | early k =>
    obtain rfl := hb
    refine ⟨.released k, ?_, rfl, fun _ hd => Option.some.inj hd⟩
    rw [hidKbdIrqIn_down rfl]
    exact if_pos rfl
  | released k =>
    obtain rfl := hb
    refine ⟨.none, ?_, ⟨rfl, rfl, rfl⟩, fun _ hd => Option.some.inj hd⟩
    rw [hidKbdIrqIn_not_down rfl]
    rfl

/-- A request is completed. -/
theorem Inv.complete_of_fifo (hi : Inv n s h c) {bytes : List Byte} (hf : s.fifo = some bytes) :
    ∃ h' c', Inv n (kbdComplete s) h' c' ∧ ∀ h₁ ∈ h.due, h' = h₁ := by
  obtain ⟨hrun, rfl⟩ := hi.fifo bytes hf
  have hpending := hi.running hrun
  have hheld : ∀ k, h ≠ .held k := by
    intro k hk
    have hbusy := hi.held k hk
    rw [hidInterruptBusy, hrun, Bool.true_or] at hbusy
    cases hbusy
  obtain ⟨h', hreport, hbits, hdue⟩ := hi.bits.done (n := n) hheld
  have hany : s.hid.slots.any Slot.running = true := by
    rw [hi.slots]
    exact List.any_eq_true.mpr ⟨c, List.mem_singleton.mpr rfl, hrun⟩
  rw [kbdComplete, hf]
  refine ⟨h', { c with running := false }, ?_, hdue⟩
  refine ⟨?_, hi.poll, rfl, fun h => absurd h Bool.false_ne_true, fun bytes h => absurd h (Option.not_mem_none bytes), ?_, ?_, ?_⟩
  · show s.hid.slots.map _ = _
    rw [hi.slots, List.map_singleton, if_pos hrun]
  · exact fun _ _ => hpending
  · show h'.Bits (if s.hid.slots.any Slot.running then _ else _)
    rw [if_pos hany]
    exact hbits
  · show Host.after n (s.seen ++ [_]) = _
    rw [Host.after_append hi.after]
    exact hreport

theorem Inv.complete (hi : Inv n s h c) : ∃ h' c', Inv n (kbdComplete s) h' c' := by
  cases hf : s.fifo with
  | none =>
    rw [kbdComplete, hf]
    exact ⟨h, c, hi⟩
  | some bytes =>
    obtain ⟨h', c', hi', -⟩ := hi.complete_of_fifo hf
    exact ⟨h', c', hi'⟩

/-- `SET_IDLE` changes the duration at most. -/
theorem hidSetIdle_singleton {s : Hid.State} (hslots : s.slots = [c]) (q : Hid.Setup) :
    ∃ duration, (Hid.hidSetIdle q s).2 = { s with slots := [{ c with duration }] } := by
  have hsame : s = { s with slots := [c] } := by rw [← hslots]
  rw [Hid.hidSetIdle]
  split
  · refine ⟨q.hi, ?_⟩
    show { s with slots := s.slots.map _ } = _
    rw [hslots]
    rfl
  split
  · rw [hslots]
    cases (Hid.hidReportrid q.lo).toNat with
    | zero => exact ⟨q.hi, rfl⟩
    | succ i =>
      refine ⟨c.duration, ?_⟩
      rw [List.modify_succ_cons, List.modify_nil]
  · exact ⟨c.duration, hsame⟩

theorem Inv.setIdle (hi : Inv n s h c) (value : UInt16) : ∃ c', Inv n (kbdSetIdle value s) h c' := by
  obtain ⟨duration, hhid⟩ := hidSetIdle_singleton hi.slots ⟨.interface, .cls, 0x0A, value⟩
  refine ⟨{ c with duration }, { hi with slots := ?_, inflight := ?_, fifo := hi.fifo, held := hi.held }⟩
  · rw [kbdSetIdle, hhid]
  · rw [kbdSetIdle, hhid]
    exact hi.inflight

/-! ## Runs -/

theorem Inv.init (hinit : hidKbdInit = some s) : ∃ c, Inv n s .none c := by
  cases hinit
  exact ⟨_, rfl, rfl, rfl, nofun, nofun, nofun, ⟨rfl, rfl, rfl⟩, rfl⟩

theorem Inv.step (hi : Inv n s h c) {op : Op} (hq : Quiet s op) :
    ∃ s' h' c', HidKbd.step n s op = some s' ∧ Inv n s' h' c' := by
  cases op with
  | down key =>
    obtain ⟨h', hi'⟩ := hi.down key
    exact ⟨_, h', c, rfl, hi'⟩
  | up key =>
    obtain ⟨h', hi'⟩ := hi.up key
    exact ⟨_, h', c, rfl, hi'⟩
  | poll jiffies submitted => exact ⟨_, h, _, hi.poll_eq hq, hi.polled hq⟩
  | handle => exact ⟨_, h, c, rfl, hi.handle⟩
  | complete =>
    obtain ⟨h', c', hi'⟩ := hi.complete
    exact ⟨_, h', c', rfl, hi'⟩
  | setIdle value =>
    obtain ⟨c', hi'⟩ := hi.setIdle value
    exact ⟨_, h, c', rfl, hi'⟩

/-- A report that is due makes a poll submit it. -/
theorem Host.Bits.irqPoll {last : Last} (hb : h.Bits last) {h' : Host} (hdue : h.due = some h') :
    hidKbdIrqPoll last = true := by
  cases h with
  | none => cases hdue
  | held k => cases hdue
  | pressed k =>
    obtain rfl := hb
    rfl
  | early k =>
    obtain rfl := hb
    rfl
  | released k =>
    obtain rfl := hb
    rfl

/-- The report that is due is received when the endpoint is served. -/
theorem Inv.serve (hi : Inv n s h c) {h' : Host} (hdue : h.due = some h') {jiffies : UInt32}
    (hq : Quiet s (.poll jiffies true)) :
    ∃ s', HidKbd.serve n jiffies s = some s' ∧ Host.after n s'.seen = some h' := by
  have hi₁ := hi.polled hq
  have hrun : (HidKbd.polled jiffies true s.last c).running = true := by
    show (c.running || wanted jiffies s.last c && true) = true
    rw [wanted, hi.bits.irqPoll hdue]
    cases c.running <;> simp
  have hfifo : (kbdHandle n { s with hid := { s.hid with
      slots := [HidKbd.polled jiffies true s.last c],
      inflight := (HidKbd.polled jiffies true s.last c).running } }).fifo = some (hidKbdIrqIn n s.last) := by
    rw [kbdHandle]
    exact congrArg Kbd.fifo (if_pos hrun)
  obtain ⟨h₂, c₂, hi₂, hnext⟩ := hi₁.handle.complete_of_fifo hfifo
  refine ⟨_, by rw [HidKbd.serve, hi.poll_eq hq]; rfl, ?_⟩
  rw [hi₂.after, hnext h' hdue]

theorem Inv.shown (hi : Inv n s h c) : Shown n s := by
  refine ⟨h, hi.after, ?_, ?_, ?_⟩
  · rintro rfl
    exact hi.bits.2.2
  · intro op hq
    obtain ⟨s', h', c', hs', -⟩ := hi.step hq
    rw [hs']
    rfl
  · intro h' hdue jiffies hq
    exact hi.serve hdue hq

/-- In every run whose polls are quiet the host sees the keys as they are pressed and released. -/
theorem shown_of_run (hr : Runs n s) : Shown n s := by
  have hinv : ∃ h c, Inv n s h c := by
    refine Framework.Run.invariant (I := fun s => ∃ h c, Inv n s h c) (fun s hs => ?_) (fun s op s' hs hq hstep => ?_) hr
    · obtain ⟨c, hi⟩ := Inv.init (n := n) hs
      exact ⟨.none, c, hi⟩
    · obtain ⟨h, c, hi⟩ := hs
      obtain ⟨s₁, h', c', hs₁, hi'⟩ := hi.step hq
      obtain rfl := Option.some.inj (hs₁.symm.trans hstep)
      exact ⟨h', c', hi'⟩
  obtain ⟨h, c, hi⟩ := hinv
  exact hi.shown

instance (s : Kbd) : ∀ op, Decidable (Quiet s op)
  | .poll _ _ => List.decidableBAll _ _
  | .down _ | .up _ | .handle | .complete | .setIdle _ => isTrue trivial

theorem runs_of_check (n : NrKeys) (ops : List Op) {β : Type} (f : Kbd → β) {b : β} (hinit : hidKbdInit = some s)
    (h : (ops.foldlM (Framework.Run.check (step n) Quiet) s).map f = some b) : ∃ s', Runs n s' ∧ f s' = b :=
  Framework.Run.of_check ops f hinit h

/-- The key `1` is pressed, reported and released, and that is reported. -/
theorem shown_of_run_one_key : ∃ s, Runs .keys16 s ∧ Shown .keys16 s ∧
    s.seen = [.report noKeyReport, .accepted 0x31, .report (keyReport .keys16 0x31), .up 0x31, .report noKeyReport] ∧
    s.last.busy = false := by
  obtain ⟨s, hs, heq⟩ := runs_of_check .keys16 [.poll 0 true, .handle, .complete, .down 0x31, .poll 1 true, .handle,
    .complete, .up 0x31, .poll 2 true, .handle, .complete] (fun s => (s.seen, s.last.busy)) rfl rfl
  obtain ⟨hseen, hbusy⟩ := Prod.mk.inj heq
  exact ⟨s, hs, shown_of_run hs, hseen, hbusy⟩

/-- After `SET_IDLE` with a duration of 4 ms the key is reported as released while it is held. -/
theorem held_key_not_shown : ∃ s, hidKbdInit.bind (fun s => [Op.poll 0 true, .handle, .complete, .setIdle 0x0100,
      .down 0x31, .poll 1 true, .handle, .complete, .poll 10 true, .handle, .complete].foldlM (step .keys16) s) = some s ∧
    s.seen = [.report noKeyReport, .accepted 0x31, .report (keyReport .keys16 0x31), .report noKeyReport] ∧
    Host.after .keys16 s.seen = none ∧ ¬Shown .keys16 s := by
  refine ⟨_, rfl, rfl, rfl, ?_⟩
  intro ⟨h, hafter, _⟩
  cases hafter

end Sdfirm.HidKbd
