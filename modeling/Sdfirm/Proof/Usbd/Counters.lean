import Sdfirm.Spec.Usbd

/-!
# Counters and events

What the machine arithmetic of the counters comes to while the bytes that have
been handled do not exceed the length of the request, and how events follow
each other.
-/

namespace Sdfirm.Usbd

variable {e : Endpoint} {d : Dev} {μ : Type}

theorem requestUnhandled_eq (hle : d.reqCur ≤ d.reqAll) (hlt : d.reqAll < e.urbSize) :
    requestUnhandled e d = d.reqAll - d.reqCur := by
  unfold requestUnhandled
  rw [show d.reqAll + e.urbSize - d.reqCur = d.reqAll - d.reqCur + e.urbSize by omega, Nat.add_mod_right]
  exact Nat.mod_eq_of_lt (by omega)

theorem transferUnhandled_eq (hle : d.xfrCur ≤ d.xfrAll) (hlt : d.xfrAll < 2 ^ 8) :
    transferUnhandled d = d.xfrAll - d.xfrCur := by
  unfold transferUnhandled
  rw [show d.xfrAll + 2 ^ 8 - d.xfrCur = d.xfrAll - d.xfrCur + 2 ^ 8 by omega, Nat.add_mod_right]
  exact Nat.mod_eq_of_lt (by omega)

/-- A packet of an IN endpoint has what is left of the request, as far as it goes into it. -/
theorem transferLimit_input (hdir : e.dir = .input) (hxfr : d.xfrCur = 0) (hle : d.reqCur ≤ d.reqAll)
    (hlt : d.reqAll < e.urbSize) :
    transferLimit e d = { d with xfrAll := min e.size (d.reqAll - d.reqCur) } := by
  have hsize := e.size_lt
  have hleft : (d.reqAll - d.reqCur + e.urbSize) % e.urbSize = d.reqAll - d.reqCur := by
    rw [Nat.add_mod_right]
    exact Nat.mod_eq_of_lt (by omega)
  simp only [transferLimit, hdir, hxfr, requestUnhandled_eq hle hlt, Nat.sub_zero, hleft]
  congr 1
  split
  · rw [Nat.mod_eq_of_lt (by omega), Nat.min_eq_right (by omega)]
  · rw [Nat.min_eq_left (by omega)]

theorem transferReset_input (hdir : e.dir = .input) (hle : d.reqCur ≤ d.reqAll) (hlt : d.reqAll < e.urbSize) :
    transferReset e d = .ok { d with xfrCur := 0, xfrAll := min e.size (d.reqAll - d.reqCur) } := by
  unfold transferReset
  rw [transferLimit_input (d := { d with xfrCur := 0 }) hdir rfl hle hlt]
  simp only [hwTransferOpen, hdir]
  rfl

theorem transferLast_of_handled (hz : e.zlp = false) (h : requestUnhandled e d = 0) : transferLast e d = true := by
  rw [transferLast, hz]
  exact decide_eq_true h

/-- How the last packet is told. -/
theorem transferLast_eq_true_iff (hle : d.reqCur ≤ d.reqAll) (hlt : d.reqAll < e.urbSize) :
    transferLast e d = true ↔ if e.zlp = true then d.xfrCur < e.size else d.reqCur = d.reqAll := by
  unfold transferLast
  cases e.zlp with
  | true => simp [transferPartial]
  | false =>
    rw [requestUnhandled_eq hle hlt]
    simp only [Bool.false_eq_true, if_false, decide_eq_true_eq]
    omega

/-- A request that has been submitted to an IN endpoint. -/
theorem requestSubmit_input {reqAll : Nat} (hdir : e.dir = .input) (hlt : reqAll < e.urbSize) :
    requestSubmit e reqAll [] =
      { reqAll, reqCur := 0, xfrAll := min e.size reqAll, xfrCur := 0, iter := 0, fifo := [], sent := [], rx := []
        running := false, asyncing := false, ended := false } := by
  rw [requestSubmit, Nat.mod_eq_of_lt hlt, transferLimit_input hdir rfl (Nat.zero_le _) hlt]
  rfl

theorem requestReap_input (hdir : e.dir = .input) (fuel : Nat) (b : Byte) : requestReap e fuel b d = .ok d := by
  cases fuel <;> simp [requestReap, hdir] <;> rfl

/-! ## Events -/

theorem events_add (fuel : Nat) (iocb : μ → Io μ) (a b : Nat) (m : μ) (d : Dev) :
    events e fuel iocb (a + b) m d = (events e fuel iocb a m d).bind fun r => events e fuel iocb b r.1 r.2 := by
  induction a generalizing m d with
  | zero =>
    rw [Nat.zero_add]
    rfl
  | succ a ih =>
    rw [Nat.succ_add]
    show (event e fuel iocb m d).bind (fun r => events e fuel iocb (a + b) r.1 r.2) =
      ((event e fuel iocb m d).bind fun r => events e fuel iocb a r.1 r.2).bind _
    cases event e fuel iocb m d with
    | error _ => rfl
    | ok r => exact ih r.1 r.2

/-- Nothing happens after the end of a request. -/
theorem events_ended (fuel : Nat) (iocb : μ → Io μ) (n : Nat) (m : μ) (h : d.ended = true) :
    events e fuel iocb n m d = .ok (m, d) := by
  induction n with
  | zero => rfl
  | succ n ih =>
    have hev : event e fuel iocb m d = .ok (m, d) := by
      unfold event
      rw [if_pos h]
      rfl
    show (event e fuel iocb m d).bind (fun r => events e fuel iocb n r.1 r.2) = _
    rw [hev]
    exact ih

/-- An event that is followed by others. -/
theorem events_succ {fuel : Nat} {iocb : μ → Io μ} {n : Nat} {m m' : μ} {d' : Dev} {r : μ × Dev}
    (h : event e fuel iocb m d = .ok (m', d')) (h' : events e fuel iocb n m' d' = .ok r) :
    events e fuel iocb (n + 1) m d = .ok r := by
  show (event e fuel iocb m d).bind (fun r => events e fuel iocb n r.1 r.2) = _
  rw [h]
  exact h'

/-- An IN endpoint always has an event, be it an interrupt or not. -/
theorem event_input (hdir : e.dir = .input) (he : d.ended = false) (fuel : Nat) (iocb : μ → Io μ) (m : μ) :
    event e fuel iocb m d = transferIocb e fuel iocb m { d with asyncing := false } := by
  rw [event, if_neg (by simp [he])]
  split
  · rfl
  · rename_i ha
    have ha : d.asyncing = false := by simpa using ha
    rw [if_neg (by simp [hdir]), ← ha]

theorem transferIocb_data (hmore : d.running = false ∨ transferLast e d = false) (fuel : Nat) (iocb : μ → Io μ) (m : μ) :
    transferIocb e fuel iocb m d = transferData e fuel iocb m { d with running := true } := by
  unfold transferIocb
  split
  · rfl
  · rename_i hr
    have hr : d.running = true := by simpa using hr
    rw [if_neg (by simpa [hr] using hmore), ← hr]

theorem transferIocb_exit (hr : d.running = true) (hlast : transferLast e d = true) (fuel : Nat) (iocb : μ → Io μ) (m : μ) :
    transferIocb e fuel iocb m d = .ok (m, requestExit d) := by
  rw [transferIocb, if_neg (by simp [hr]), if_pos hlast]
  rfl

/-- After the last packet the next event ends the request. -/
theorem event_exit (hdir : e.dir = .input) (he : d.ended = false) (hr : d.running = true) (hlast : transferLast e d = true)
    (fuel : Nat) (iocb : μ → Io μ) (m : μ) : event e fuel iocb m d = .ok (m, requestExit d) := by
  rw [event_input hdir he]
  exact transferIocb_exit (d := { d with asyncing := false }) hr hlast fuel iocb m

/-- A request ends in one way. -/
theorem Ends.unique {fuel reqAll : Nat} {items : List Item} {ps ps' : List (List Byte)} (h : Ends e fuel items reqAll ps)
    (h' : Ends e fuel items reqAll ps') : ps = ps' := by
  obtain ⟨n, d, hn, hd, rfl⟩ := h
  obtain ⟨n', d', hn', hd', rfl⟩ := h'
  have h1 := events_add (e := e) fuel (emit items) n n' () (requestSubmit e reqAll [])
  have h2 := events_add (e := e) fuel (emit items) n' n () (requestSubmit e reqAll [])
  rw [hn] at h1
  rw [hn', Nat.add_comm] at h2
  have he : (.ok ((), d) : Res (Unit × Dev)) = .ok ((), d') := by
    calc _ = events e fuel (emit items) (n + n') () (requestSubmit e reqAll []) :=
          (h1.trans (events_ended fuel _ n' () hd)).symm
      _ = _ := h2.trans (events_ended fuel _ n () hd')
  simp only [Except.ok.injEq, Prod.mk.injEq, true_and] at he
  rw [he]

/-! ## Calls of an IN callback -/

/-- The calls of a callback, byte by byte. -/
def emitBytes (bs : List Byte) : Io Unit := bs.foldr Io.inb (.ret ())

theorem Item.io_bytes (item : Item) (k : Io Unit) : item.io k = item.bytes.foldr Io.inb k := by
  cases item <;> rfl

theorem emit_eq (items : List Item) : emit items () = emitBytes (itemBytes items) := by
  unfold emit emitBytes itemBytes
  induction items with
  | nil => rfl
  | cons item items ih => rw [List.foldr_cons, ih, List.flatMap_cons, List.foldr_append, Item.io_bytes]

/-! ## The end of a call -/

theorem requestEnd_partial (hdir : e.dir = .input) (hxfr : d.xfrCur < e.size) :
    ∃ b, requestEnd e d = .ok { d with sent := d.sent ++ [d.fifo], fifo := [], asyncing := b } := by
  have hpart : transferPartial e d = true := by simpa [transferPartial] using hxfr
  have hclose : requestClose e d = .ok { d with sent := d.sent ++ [d.fifo], fifo := [] } := by
    simp only [requestClose, hpart, if_true, hdir, true_or, hwTransferClose]
    rfl
  simp only [requestEnd, hclose, bind, Except.bind, pure, Except.pure]
  split
  · exact ⟨true, rfl⟩
  · exact ⟨d.asyncing, rfl⟩

theorem requestEnd_full (hxfr : d.xfrCur = e.size) (hz : ¬(e.syncingEnd = true ∧ e.zlp = true)) :
    ∃ b, requestEnd e d = .ok { d with asyncing := b } := by
  have hpart : ¬transferPartial e d = true := by simp [transferPartial, hxfr]
  have hclose : requestClose e d = .ok d := by
    rw [requestClose, if_neg hpart, if_neg hz]
    rfl
  simp only [requestEnd, hclose, bind, Except.bind, pure, Except.pure]
  split
  · exact ⟨true, rfl⟩
  · exact ⟨d.asyncing, rfl⟩

/-- In synchronous mode the empty packet is sent at once. -/
theorem requestEnd_zlp (hdir : e.dir = .input) (hxfr : d.xfrCur = e.size) (hs : e.syncingEnd = true) (hz : e.zlp = true)
    (hle : d.reqCur ≤ d.reqAll) (hlt : d.reqAll < e.urbSize) :
    ∃ a b, requestEnd e d =
      .ok { d with xfrCur := 0, xfrAll := a, sent := d.sent ++ [d.fifo], fifo := [], asyncing := b } := by
  have hpart : ¬transferPartial e d = true := by simp [transferPartial, hxfr]
  have hclose : requestClose e d =
      .ok { d with
        xfrCur := 0, xfrAll := min e.size (d.reqAll - d.reqCur), sent := d.sent ++ [d.fifo], fifo := [] } := by
    rw [requestClose, if_neg hpart, if_pos ⟨hs, hz⟩, transferReset_input hdir hle hlt]
    simp only [bind, Except.bind, pure, Except.pure, hwTransferClose, hdir]
  simp only [requestEnd, hclose, bind, Except.bind, pure, Except.pure]
  split
  · exact ⟨_, true, rfl⟩
  · exact ⟨_, d.asyncing, rfl⟩

/-- A call of the callback is a packet reset, the bytes, and the end. -/
theorem transferData_eq {fuel : Nat} {items : List Item} {d' : Dev} (hdir : e.dir = .input) (hle : d.reqCur ≤ d.reqAll)
    (hlt : d.reqAll < e.urbSize)
    (hexec : exec e (emitBytes (itemBytes items))
      { d with iter := 0, xfrCur := 0, xfrAll := min e.size (d.reqAll - d.reqCur) } = .ok ((), d')) :
    transferData e fuel (emit items) () d = (requestEnd e d').map fun d => ((), d) := by
  have hreset := transferReset_input (d := { d with iter := 0 }) hdir hle hlt
  have hbug : ¬d.reqAll < d.reqCur := by omega
  simp only [transferData, hreset, emit_eq, hbug, if_false, hexec, requestReap_input hdir, Except.bind, bind, pure,
    Except.pure]
  cases requestEnd e d' <;> rfl

end Sdfirm.Usbd
