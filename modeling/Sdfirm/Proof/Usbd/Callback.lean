import Sdfirm.Proof.Framework.Runs
import Sdfirm.Proof.Usbd.In

/-!
# IN callbacks with variables

A callback that asks how many bytes have been handled, writes its bytes, and
asks again (`Writes`) sends what the bare bytes send (`events_writes`), and
what it does when all of them have been handled has been done at the end of
the request (`Ended`).
-/

namespace Sdfirm.Usbd

variable {e : Endpoint} {fuel : Nat} {d d' : Dev} {μ : Type} {iocb : μ → Io μ} {I J : μ → Prop} {bs : List Byte}
  {next : μ → Nat → Nat → μ} {m m' : μ}

/-! ## Calls -/

/-- On variables with `I` the callback writes `bs`, and `next` is what it makes of its variables. -/
structure Writes (iocb : μ → Io μ) (I : μ → Prop) (bs : List Byte) (next : μ → Nat → Nat → μ) : Prop where
  iocb_eq : ∀ m, I m → iocb m = .handled fun n => bs.foldr .inb (.handled fun n' => .ret (next m n n'))
  keeps : ∀ m n n', I m → I (next m n n')

theorem exec_foldr_inb (bs : List Byte) (k : Io μ) (d : Dev) :
    exec e (bs.foldr .inb k) d = (exec e (emitBytes bs) d).bind fun r => exec e k r.2 := by
  induction bs generalizing d with
  | nil => rfl
  | cons b bs ih =>
    show (inb e b d).bind (fun d => exec e (bs.foldr .inb k) d) =
      ((inb e b d).bind fun d => exec e (emitBytes bs) d).bind _
    cases inb e b d with
    | error _ => rfl
    | ok d₁ => exact ih d₁

theorem Writes.exec_eq (h : Writes iocb I bs next) (hm : I m) (d : Dev) :
    exec e (iocb m) d = (exec e (emitBytes bs) d).map fun r => (next m d.reqCur r.2.reqCur, r.2) := by
  rw [h.iocb_eq m hm]
  show exec e (bs.foldr .inb (.handled fun n' => .ret (next m d.reqCur n'))) d = _
  rw [exec_foldr_inb]
  cases exec e (emitBytes bs) d <;> rfl

theorem transferReset_input_eq (hdir : e.dir = .input) (d : Dev) :
    ∃ a, transferReset e d = .ok { d with xfrCur := 0, xfrAll := a } := by
  simp only [transferReset, transferLimit, hwTransferOpen, hdir]
  exact ⟨_, rfl⟩

theorem requestClose_cases (hdir : e.dir = .input) (d : Dev) :
    (∃ a c, requestClose e d = .ok { d with xfrCur := c, xfrAll := a, sent := d.sent ++ [d.fifo], fifo := [] }) ∨
      requestClose e d = .ok d ∧ ¬d.xfrCur < e.size := by
  unfold requestClose
  split
  · rw [if_pos (.inl hdir)]
    simp only [hwTransferClose, hdir]
    exact .inl ⟨_, _, rfl⟩
  · rename_i hpart
    split
    · obtain ⟨a, ha⟩ := transferReset_input_eq hdir d
      rw [ha]
      simp only [hwTransferClose, hdir]
      exact .inl ⟨a, 0, rfl⟩
    · exact .inr ⟨rfl, by simpa [transferPartial] using hpart⟩

theorem requestEnd_cases (hdir : e.dir = .input) (d : Dev) :
    (∃ a b c, requestEnd e d =
      .ok { d with xfrCur := c, xfrAll := a, sent := d.sent ++ [d.fifo], fifo := [], asyncing := b }) ∨
      ∃ b, requestEnd e d = .ok { d with asyncing := b } ∧ ¬d.xfrCur < e.size := by
  obtain ⟨a, c, h⟩ | ⟨h, hfull⟩ := requestClose_cases hdir d
  · left
    simp only [requestEnd, h, bind, Except.bind, pure, Except.pure]
    split
    · exact ⟨_, _, _, rfl⟩
    · exact ⟨_, _, _, rfl⟩
  · right
    simp only [requestEnd, h, bind, Except.bind, pure, Except.pure]
    split
    · exact ⟨_, rfl, hfull⟩
    · exact ⟨_, rfl, hfull⟩

theorem reqCur_requestEnd (hdir : e.dir = .input) (h : requestEnd e d = .ok d') : d'.reqCur = d.reqCur := by
  obtain ⟨a, b, c, heq⟩ | ⟨b, heq, -⟩ := requestEnd_cases hdir d
  · obtain rfl := Except.ok.inj (heq.symm.trans h)
    rfl
  · obtain rfl := Except.ok.inj (heq.symm.trans h)
    rfl

theorem itemBytes_byte (bs : List Byte) : itemBytes (bs.map .byte) = bs := by
  induction bs with
  | nil => rfl
  | cons b bs ih =>
    show b :: itemBytes (bs.map .byte) = b :: bs
    rw [ih]

theorem emit_byte (bs : List Byte) : emit (bs.map .byte) () = emitBytes bs := by
  rw [emit_eq, itemBytes_byte]

theorem Writes.transferData_eq (h : Writes iocb I bs next) (hdir : e.dir = .input) (hm : I m) (d : Dev) :
    transferData e fuel iocb m d =
      (transferData e fuel (emit (bs.map .byte)) () d).map fun r => (next m d.reqCur r.2.reqCur, r.2) := by
  obtain ⟨a, ha⟩ := transferReset_input_eq hdir { d with iter := 0 }
  simp only [transferData, ha, emit_byte, h.exec_eq hm, requestReap_input hdir, bind, Except.bind, pure, Except.pure]
  split
  · rfl
  · cases exec e (emitBytes bs) { d with iter := 0, xfrCur := 0, xfrAll := a } with
    | error _ => rfl
    | ok r =>
      show (requestEnd e r.2).bind _ = ((requestEnd e r.2).bind _).map _
      cases hend : requestEnd e r.2 with
      | error _ => rfl
      | ok d' =>
        show Except.ok (next m d.reqCur r.2.reqCur, d') = .ok (next m d.reqCur d'.reqCur, d')
        rw [reqCur_requestEnd hdir hend]

/-! ## Events -/

/-- The next event calls the callback. -/
def CallsIn (e : Endpoint) (d : Dev) : Prop := d.ended = false ∧ (d.running = false ∨ transferLast e d = false)

/-- What an event of an IN endpoint is. -/
theorem event_cases (fuel : Nat) (hdir : e.dir = .input) (d : Dev) :
    (d.ended = true ∧ ∀ {ν : Type} (iocb : ν → Io ν) (m : ν), event e fuel iocb m d = .ok (m, d)) ∨
    (CallsIn e d ∧ ∀ {ν : Type} (iocb : ν → Io ν) (m : ν), event e fuel iocb m d =
      transferData e fuel iocb m { d with running := true, asyncing := false }) ∨
    (d.ended = false ∧ d.running = true ∧ transferLast e d = true ∧
      ∀ {ν : Type} (iocb : ν → Io ν) (m : ν), event e fuel iocb m d = .ok (m, requestExit d)) := by
  by_cases hended : d.ended = true
  · refine .inl ⟨hended, fun iocb m => ?_⟩
    rw [event, if_pos hended]
    rfl
  rw [Bool.not_eq_true] at hended
  by_cases hmore : d.running = false ∨ transferLast e d = false
  · refine .inr (.inl ⟨⟨hended, hmore⟩, fun iocb m => ?_⟩)
    rw [event_input hdir hended]
    exact transferIocb_data (d := { d with asyncing := false }) hmore fuel iocb m
  · rw [not_or, Bool.not_eq_false, Bool.not_eq_false] at hmore
    exact .inr (.inr ⟨hended, hmore.1, hmore.2, fun iocb m => event_exit hdir hended hmore.1 hmore.2 fuel iocb m⟩)

theorem Writes.event_eq (h : Writes iocb I bs next) (fuel : Nat) (hdir : e.dir = .input) (hm : I m) (d : Dev) :
    ∃ f : Dev → μ, (∀ d', I (f d')) ∧
      event e fuel iocb m d = (event e fuel (emit (bs.map .byte)) () d).map fun r => (f r.2, r.2) := by
  obtain ⟨-, hev⟩ | ⟨-, hev⟩ | ⟨-, -, -, hev⟩ := event_cases fuel hdir d
  · exact ⟨fun _ => m, fun _ => hm, by rw [hev, hev]; rfl⟩
  · refine ⟨fun d' => next m d.reqCur d'.reqCur, fun _ => h.keeps _ _ _ hm, ?_⟩
    rw [hev, hev]
    exact h.transferData_eq hdir hm _
  · exact ⟨fun _ => m, fun _ => hm, by rw [hev, hev]; rfl⟩

/-- The events are those of the bare bytes. -/
theorem Writes.events_eq (h : Writes iocb I bs next) (fuel : Nat) (hdir : e.dir = .input) (hm : I m) (n : Nat) (d : Dev) :
    ∃ m', I m' ∧ events e fuel iocb n m d = (events e fuel (emit (bs.map .byte)) n () d).map fun r => (m', r.2) := by
  induction n generalizing m d with
  | zero => exact ⟨m, hm, rfl⟩
  | succ n ih =>
    show ∃ m', I m' ∧ (event e fuel iocb m d).bind (fun r => events e fuel iocb n r.1 r.2) =
      ((event e fuel (emit (bs.map .byte)) () d).bind fun r => events e fuel (emit (bs.map .byte)) n r.1 r.2).map _
    obtain ⟨f, hf, hev⟩ := h.event_eq fuel hdir hm d
    rw [hev]
    cases event e fuel (emit (bs.map .byte)) () d with
    | error _ => exact ⟨m, hm, rfl⟩
    | ok r => exact ih (hf r.2) r.2

/-! ## What has been counted -/

/-- The request has not ended, and `req_cur` is the number of bytes that have been written. -/
structure Counted (e : Endpoint) (d : Dev) : Prop where
  cur : (d.sent.flatten.length + d.fifo.length) % e.urbSize = d.reqCur
  ended : d.ended = false

theorem Counted.close (h : Counted e d) (hdir : e.dir = .input) : Counted e (hwTransferClose e d) := by
  have hcur := h.cur
  constructor
  · simpa only [hwTransferClose, hdir, List.flatten_append, List.flatten_singleton, List.length_append, List.length_nil,
      Nat.add_zero] using hcur
  · simpa only [hwTransferClose, hdir] using h.ended

theorem Counted.advance (h : Counted e d) (hdir : e.dir = .input) (b : Byte) :
    Counted e (advance e (hwWriteByte b d)) := by
  have hnext : Counted e { hwWriteByte b d with
      xfrCur := (d.xfrCur + 1) % 2 ^ 8, reqCur := (d.reqCur + 1) % e.urbSize } := by
    refine ⟨?_, h.ended⟩
    show (d.sent.flatten.length + (d.fifo ++ [b]).length) % e.urbSize = (d.reqCur + 1) % e.urbSize
    rw [List.length_append, List.length_singleton, ← Nat.add_assoc, ← h.cur, Nat.mod_add_mod]
  unfold Usbd.advance
  dsimp only
  split
  · exact hnext.close hdir
  · exact hnext

/-- A byte is written, or not. -/
theorem Counted.write (h : Counted e d) (hdir : e.dir = .input) (b : Byte) (p : Prop) [Decidable p] :
    Counted e (iterNext e (if p then Usbd.advance e (hwWriteByte b d) else d)) := by
  have hd : Counted e (if p then Usbd.advance e (hwWriteByte b d) else d) := by
    split
    · exact h.advance hdir b
    · exact h
  exact ⟨hd.cur, hd.ended⟩

theorem Counted.inb (h : Counted e d) (hdir : e.dir = .input) {b : Byte} (hinb : inb e b d = .ok d') : Counted e d' := by
  unfold Usbd.inb at hinb
  split at hinb
  · rw [inbSync] at hinb
    split at hinb
    · obtain ⟨a, ha⟩ := transferReset_input_eq hdir d
      rw [ha] at hinb
      obtain rfl := Except.ok.inj hinb
      exact Counted.write (d := { d with xfrCur := 0, xfrAll := a }) ⟨h.cur, h.ended⟩ hdir b _
    · obtain rfl := Except.ok.inj hinb
      exact h.write hdir b _
  · obtain rfl := Except.ok.inj hinb
    exact h.write hdir b _

theorem Counted.exec (h : Counted e d) (hdir : e.dir = .input) (bs : List Byte)
    (hexec : exec e (emitBytes bs) d = .ok ((), d')) : Counted e d' := by
  induction bs generalizing d with
  | nil =>
    obtain rfl : d = d' := congrArg Prod.snd (Except.ok.inj hexec)
    exact h
  | cons b bs ih =>
    obtain ⟨d₁, hinb, hrest⟩ := Framework.Except.bind_eq_ok_iff.1 hexec
    exact ih (h.inb hdir hinb) hrest

/-- After a call the packet is in the FIFO no more, unless it is full. -/
theorem Counted.transferData (h : Counted e d) (hdir : e.dir = .input)
    (hdata : transferData e fuel (emit (bs.map .byte)) () d = .ok ((), d')) :
    Counted e d' ∧ (d'.xfrCur < e.size → d'.fifo = []) := by
  obtain ⟨a, ha⟩ := transferReset_input_eq hdir { d with iter := 0 }
  simp only [Usbd.transferData, ha, emit_byte, requestReap_input hdir, bind, Except.bind, pure, Except.pure] at hdata
  split at hdata
  · cases hdata
  cases hexec : Usbd.exec e (emitBytes bs) { d with iter := 0, xfrCur := 0, xfrAll := a } with
  | error _ =>
    rw [hexec] at hdata
    cases hdata
  | ok r =>
    rw [hexec] at hdata
    have hc : Counted e r.2 := Counted.exec (d := { d with iter := 0, xfrCur := 0, xfrAll := a }) ⟨h.cur, h.ended⟩ hdir bs hexec
    obtain ⟨a', b, c, heq⟩ | ⟨b, heq, hfull⟩ := requestEnd_cases hdir r.2
    · simp only [heq, Except.ok.injEq, Prod.mk.injEq, true_and] at hdata
      subst hdata
      refine ⟨⟨?_, hc.ended⟩, fun _ => rfl⟩
      have hclose := (hc.close hdir).cur
      simpa only [hwTransferClose, hdir] using hclose
    · simp only [heq, Except.ok.injEq, Prod.mk.injEq, true_and] at hdata
      subst hdata
      exact ⟨⟨hc.cur, hc.ended⟩, fun h => absurd h hfull⟩

/-- While the request runs, `J` holds if all bytes have been handled. -/
structure Told (e : Endpoint) (length : Nat) (J : μ → Prop) (m : μ) (d : Dev) : Prop where
  counted : Counted e d
  closed : d.running = true → d.xfrCur < e.size → d.fifo = []
  told : d.running = true → d.reqCur = length → J m

/-- Either the request goes on, or it ends, with `J` if all bytes have been sent. -/
theorem Writes.event_told (h : Writes iocb I bs next) (hdir : e.dir = .input) (hzlp : e.zlp = true) (hm : I m)
    (hJ : ∀ m n, I m → J (next m n bs.length)) (htold : Told e bs.length J m d)
    (hevent : event e fuel iocb m d = .ok (m', d')) :
    Told e bs.length J m' d' ∨ d'.ended = true ∧ (d'.sent.flatten.length % e.urbSize = bs.length → J m') := by
  obtain ⟨hend, -⟩ | ⟨-, hev⟩ | ⟨-, hrun, hlast, hev⟩ := event_cases fuel hdir d
  · rw [htold.counted.ended] at hend
    exact Bool.noConfusion hend
  · left
    rw [hev, h.transferData_eq hdir hm] at hevent
    cases hdata : transferData e fuel (emit (bs.map .byte)) () { d with running := true, asyncing := false } with
    | error _ =>
      rw [hdata] at hevent
      cases hevent
    | ok r =>
      rw [hdata] at hevent
      obtain ⟨rfl, rfl⟩ := Prod.mk.inj (Except.ok.inj hevent)
      obtain ⟨hc, hclosed⟩ := Counted.transferData (d := { d with running := true, asyncing := false })
        ⟨htold.counted.cur, htold.counted.ended⟩ hdir hdata
      refine ⟨hc, fun _ => hclosed, fun _ heq => ?_⟩
      rw [heq]
      exact hJ m _ hm
  · right
    rw [hev] at hevent
    obtain ⟨rfl, rfl⟩ := Prod.mk.inj (Except.ok.inj hevent)
    refine ⟨rfl, fun hlen => ?_⟩
    have hpart : d.xfrCur < e.size := by simpa [transferLast, hzlp, transferPartial] using hlast
    refine htold.told hrun ?_
    have hcur := htold.counted.cur
    rw [htold.closed hrun hpart, List.length_nil, Nat.add_zero] at hcur
    exact hcur.symm.trans hlen

theorem Writes.events_told (h : Writes iocb I bs next) (hdir : e.dir = .input) (hzlp : e.zlp = true) (hm : I m)
    (hJ : ∀ m n, I m → J (next m n bs.length)) (n : Nat) (htold : Told e bs.length J m d)
    (hevents : events e fuel iocb n m d = .ok (m', d')) (hended : d'.ended = true)
    (hlen : d'.sent.flatten.length % e.urbSize = bs.length) : J m' := by
  induction n generalizing m d with
  | zero =>
    obtain ⟨rfl, rfl⟩ := Prod.mk.inj (Except.ok.inj hevents)
    rw [htold.counted.ended] at hended
    exact Bool.noConfusion hended
  | succ n ih =>
    obtain ⟨⟨m₁, d₁⟩, hevent, hrest⟩ := Framework.Except.bind_eq_ok_iff.1 hevents
    obtain htold' | ⟨hended₁, hJ₁⟩ := h.event_told hdir hzlp hm hJ htold hevent
    · refine ih ?_ htold' hrest
      obtain ⟨f, hf, hev⟩ := h.event_eq fuel hdir hm d
      rw [hev] at hevent
      obtain ⟨r, -, hr⟩ := Framework.Except.map_eq_ok_iff.1 hevent
      exact (Prod.mk.inj hr).1 ▸ hf r.2
    · have hstop := (events_ended (e := e) fuel iocb n m₁ hended₁).symm.trans hrest
      obtain ⟨rfl, rfl⟩ := Prod.mk.inj (Except.ok.inj hstop)
      exact hJ₁ hlen

/-- A request for as many bytes or more ends, in one way only, when all bytes have been sent and told. -/
theorem Writes.ended (h : Writes iocb I bs next) (hdir : e.dir = .input) (hzlp : e.zlp = true) (hm : I m)
    (hJ : ∀ m n, I m → J (next m n bs.length)) {reqAll : Nat} (hlt : reqAll < e.urbSize) (hle : bs.length ≤ reqAll) {n : Nat}
    (hevents : events e fuel iocb n m (requestSubmit e reqAll []) = .ok (m', d')) (hended : d'.ended = true) :
    d'.sent.flatten = bs ∧ I m' ∧ J m' := by
  have hexact : Exact e (bs.map .byte) reqAll := .inl hzlp
  obtain ⟨ps, hends, hps, -⟩ := hexact.transparent fuel hdir hlt
  rw [itemBytes_byte, List.take_of_length_le hle] at hps
  obtain ⟨m₁, hm₁, heq⟩ := h.events_eq fuel hdir hm n (requestSubmit e reqAll [])
  have hsent : d'.sent.flatten = bs := by
    rw [heq] at hevents
    obtain ⟨r, hr, hrd⟩ := Framework.Except.map_eq_ok_iff.1 hevents
    obtain ⟨-, rfl⟩ := Prod.mk.inj hrd
    rw [Ends.unique ⟨n, r.2, hr, hended, rfl⟩ (hends e.mode), hps]
  have hI : I m' := by
    rw [heq] at hevents
    obtain ⟨r, -, hrd⟩ := Framework.Except.map_eq_ok_iff.1 hevents
    exact (Prod.mk.inj hrd).1 ▸ hm₁
  refine ⟨hsent, hI, h.events_told hdir hzlp hm hJ n ?_ hevents hended ?_⟩
  · rw [requestSubmit_input hdir hlt]
    exact ⟨⟨Nat.zero_mod _, rfl⟩, fun hrun => Bool.noConfusion hrun, fun hrun => Bool.noConfusion hrun⟩
  · rw [hsent, Nat.mod_eq_of_lt (by omega)]

theorem Writes.ends (h : Writes iocb I bs next) (fuel : Nat) (hdir : e.dir = .input) (hzlp : e.zlp = true) (hm : I m)
    {reqAll : Nat} (hlt : reqAll < e.urbSize) :
    ∃ n m' d', events e fuel iocb n m (requestSubmit e reqAll []) = .ok (m', d') ∧ d'.ended = true := by
  have hexact : Exact e (bs.map .byte) reqAll := .inl hzlp
  obtain ⟨ps, hends, -⟩ := hexact.transparent fuel hdir hlt
  obtain ⟨n, d', hevents, hended, -⟩ := hends e.mode
  obtain ⟨m', -, heq⟩ := h.events_eq fuel hdir hm n (requestSubmit e reqAll [])
  refine ⟨n, m', d', ?_, hended⟩
  have hevents' : events e fuel (emit (bs.map .byte)) n () (requestSubmit e reqAll []) = .ok ((), d') := hevents
  rw [heq, hevents']
  rfl

end Sdfirm.Usbd
