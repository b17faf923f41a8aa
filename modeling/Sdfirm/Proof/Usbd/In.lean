import Sdfirm.Proof.Usbd.InAsync

/-!
# IN requests in synchronous mode

One call of the callback writes all bytes of the request, and sends each packet
as it becomes full (`Written`). What is left at the end of the call is sent by
`usbd_request_end`; if nothing is left, that depends on whether the callback has
asked for one more packet.
-/

namespace Sdfirm.Usbd

open Framework

variable {e : Endpoint} {d : Dev} {fuel : Nat}

/-! ## All bytes -/

/-- The callback has written `bs`, of which the first `reqAll` are sent or in the FIFO. -/
structure Progress (e : Endpoint) (reqAll : Nat) (bs : List Byte) (d : Dev) : Prop where
  all : d.reqAll = reqAll
  cur : d.reqCur = (bs.take reqAll).length
  iter : bs.length ≤ reqAll → d.iter = bs.length
  data : d.sent.flatten ++ d.fifo = bs.take reqAll
  full : ∀ c ∈ d.sent, c.length = e.size
  running : d.running = true
  ended : d.ended = false

/-- The last packet is not full, and is empty only at the start or after a byte too many; or it is full and has
been sent. -/
structure Written (e : Endpoint) (reqAll : Nat) (bs : List Byte) (d : Dev) : Prop extends Progress e reqAll bs d where
  packet : d.xfrCur = d.fifo.length ∧ d.fifo.length < e.size ∧ (bs.length ≤ reqAll → bs = [] ∨ d.fifo ≠ []) ∨
    d.xfrCur = e.size ∧ d.fifo = [] ∧ d.sent ≠ [] ∧ bs.length ≤ reqAll

section

variable {reqAll : Nat} {bs : List Byte}

theorem Progress.cur_le (h : Progress e reqAll bs d) : d.reqCur ≤ d.reqAll := by
  rw [h.cur, h.all]
  exact List.length_take_le ..

theorem Progress.unhandled (h : Progress e reqAll bs d) (hlt : reqAll < e.urbSize) :
    requestUnhandled e d = reqAll - bs.length := by
  rw [requestUnhandled_eq h.cur_le (h.all ▸ hlt), h.cur, h.all, List.length_take]
  omega

/-- A byte that goes into a packet that is not full. -/
theorem Progress.write (h : Progress e reqAll bs d) (hdir : e.dir = .input) (hlt : reqAll < e.urbSize)
    (hbs : bs.length < reqAll) (hxfr : d.xfrCur = d.fifo.length) (hfifo : d.fifo.length < e.size) (b : Byte) :
    Written e reqAll (bs ++ [b]) (iterNext e (advance e (hwWriteByte b d))) := by
  have hsize := e.size_lt
  have hlen : (bs ++ [b]).length = bs.length + 1 := by simp
  have htake : bs.take reqAll = bs := List.take_of_length_le hbs.le
  have htake' : (bs ++ [b]).take reqAll = bs ++ [b] := List.take_of_length_le (by omega)
  have hcur : (d.reqCur + 1) % e.urbSize = bs.length + 1 := by
    rw [h.cur, htake]
    exact Nat.mod_eq_of_lt (by omega)
  have hiter : (d.iter + 1) % e.urbSize = bs.length + 1 := by
    rw [h.iter hbs.le]
    exact Nat.mod_eq_of_lt (by omega)
  have hxfr' : (d.xfrCur + 1) % 2 ^ 8 = d.fifo.length + 1 := by
    rw [hxfr]
    exact Nat.mod_eq_of_lt (by omega)
  have hdata : d.sent.flatten ++ (d.fifo ++ [b]) = bs ++ [b] := by
    rw [← List.append_assoc, h.data, htake]
  have hall := h.all
  simp only [advance, hwWriteByte, hcur, hxfr']
  split
  · rename_i hfull
    -- the packet is full with it
    simp only [hwTransferClose, hdir, iterNext, hiter]
    refine ⟨⟨h.all, ?_, fun _ => hlen.symm, ?_, ?_, h.running, h.ended⟩,
      .inr ⟨hfull, rfl, by simp, by omega⟩⟩
    · rw [htake', hlen]
    · rw [htake', ← hdata]
      simp
    · intro c hc
      obtain hc | hc := List.mem_append.1 hc
      · exact h.full c hc
      · rw [List.mem_singleton.1 hc, List.length_append]
        exact hfull
  · rename_i hfull
    simp only [iterNext, hiter]
    refine ⟨⟨h.all, ?_, fun _ => hlen.symm, ?_, h.full, h.running, h.ended⟩,
      .inl ⟨by simp, ?_, fun _ => .inr (by simp)⟩⟩
    · rw [htake', hlen]
    · rw [htake', ← hdata]
    · simp only [List.length_append, List.length_singleton]
      omega

/-- A byte that is not written, since the request has all its bytes. -/
theorem Progress.skip (h : Progress e reqAll bs d) (hbs : reqAll ≤ bs.length) (hxfr : d.xfrCur = d.fifo.length)
    (hfifo : d.fifo.length < e.size) (b : Byte) : Written e reqAll (bs ++ [b]) (iterNext e d) := by
  have hlen : (bs ++ [b]).length = bs.length + 1 := by simp
  have htake : (bs ++ [b]).take reqAll = bs.take reqAll := List.take_append_of_le_length hbs
  refine ⟨⟨h.all, htake ▸ h.cur, fun hle => ?_, htake ▸ h.data, h.full, h.running, h.ended⟩,
    .inl ⟨hxfr, hfifo, fun hle => ?_⟩⟩
  · omega
  · omega

theorem Written.inb (h : Written e reqAll bs d) (hdir : e.dir = .input) (hmode : e.mode ≠ .async) (hlt : reqAll < e.urbSize)
    (b : Byte) : ∃ d', inb e b d = .ok d' ∧ Written e reqAll (bs ++ [b]) d' := by
  have hsync : e.syncing = true := by simp [Endpoint.syncing, hmode]
  -- the packet after one that is full is a new one
  obtain ⟨d₁, hd₁, hp, hxfr, hfifo⟩ : ∃ d₁, (if d.xfrCur = e.size then transferReset e d else pure d) = .ok d₁ ∧
      Progress e reqAll bs d₁ ∧ d₁.xfrCur = d₁.fifo.length ∧ d₁.fifo.length < e.size := by
    obtain ⟨hxfr, hfifo, -⟩ | ⟨hxfr, hfifo, -⟩ := h.packet
    · rw [if_neg (by omega)]
      exact ⟨d, rfl, h.toProgress, hxfr, hfifo⟩
    · rw [if_pos hxfr, transferReset_input hdir h.cur_le (h.all ▸ hlt)]
      refine ⟨_, rfl, ⟨h.all, h.cur, h.iter, h.data, h.full, h.running, h.ended⟩, ?_, ?_⟩
      · simp [hfifo]
      · simpa [hfifo] using e.size_pos
  have hinb : Usbd.inb e b d =
      .ok (iterNext e (if 0 < requestUnhandled e d₁ ∧ d₁.reqCur = d₁.iter then advance e (hwWriteByte b d₁) else d₁)) := by
    rw [Usbd.inb, if_pos hsync, inbSync]
    split at hd₁
    · rename_i hc
      rw [if_pos hc, hd₁]
      rfl
    · rename_i hc
      cases hd₁
      rw [if_neg hc]
      rfl
  refine ⟨_, hinb, ?_⟩
  rw [hp.unhandled hlt]
  by_cases hbs : bs.length < reqAll
  · have hiter : d₁.reqCur = d₁.iter := by
      rw [hp.cur, hp.iter hbs.le, List.take_of_length_le hbs.le]
    rw [if_pos ⟨by omega, hiter⟩]
    exact hp.write hdir hlt hbs hxfr hfifo b
  · rw [if_neg (by omega)]
    exact hp.skip (by omega) hxfr hfifo b

theorem Written.exec (h : Written e reqAll bs d) (bs' : List Byte) (hdir : e.dir = .input) (hmode : e.mode ≠ .async)
    (hlt : reqAll < e.urbSize) : ∃ d', exec e (emitBytes bs') d = .ok ((), d') ∧ Written e reqAll (bs ++ bs') d' := by
  induction bs' generalizing bs d with
  | nil =>
    rw [List.append_nil]
    exact ⟨d, rfl, h⟩
  | cons b bs' ih =>
    obtain ⟨d₁, h₁, hw⟩ := h.inb hdir hmode hlt b
    obtain ⟨d₂, h₂, hw'⟩ := ih hw
    rw [List.append_assoc] at hw'
    refine ⟨d₂, ?_, hw'⟩
    show (Usbd.inb e b d).bind (fun d => Usbd.exec e (emitBytes bs') d) = _
    rw [h₁]
    exact h₂

/-- The state in which the callback is called for the first time. -/
theorem written_nil (h : d.reqCur = 0) (hiter : d.iter = 0) (hfifo : d.fifo = []) (hsent : d.sent = []) (hxfr : d.xfrCur = 0)
    (hr : d.running = true) (he : d.ended = false) : Written e d.reqAll [] d := by
  refine ⟨⟨rfl, by simpa using h, fun _ => hiter, by simp [hfifo, hsent], by simp [hsent], hr, he⟩, .inl ⟨?_, ?_, ?_⟩⟩
  · rw [hxfr, hfifo]
    rfl
  · rw [hfifo]
    exact e.size_pos
  · exact fun _ => .inl rfl

/-! ## The end of the call -/

/-- The request has all its bytes in packets that have been sent, and is at its last packet. -/
structure Finished (e : Endpoint) (ps : List (List Byte)) (d : Dev) : Prop where
  last : transferLast e d = true
  running : d.running = true
  ended : d.ended = false
  sent : d.sent = ps

theorem Finished.ends {ps : List (List Byte)} (h : Finished e ps d) (hdir : e.dir = .input) (items : List Item) :
    ∃ d', events e fuel (emit items) 1 () d = .ok ((), d') ∧ d'.ended = true ∧ d'.sent = ps :=
  ⟨requestExit d, events_succ (event_exit hdir h.ended h.running h.last fuel (emit items) ()) rfl, rfl, h.sent⟩

/-- The packets of a request whose bytes have been written: the last one is sent as it is, and if it is full and
has been sent there may be an empty one after it. -/
def closing (e : Endpoint) (d : Dev) : List (List Byte) :=
  if d.xfrCur = e.size then if e.zlp then d.sent ++ [[]] else d.sent else d.sent ++ [d.fifo]

/-- Bytes that have been sent before are not written again. -/
theorem exec_skip (bs : List Byte) (hmode : e.mode ≠ .async) (hle : d.iter + bs.length ≤ d.reqCur) (hlt : d.reqCur < e.urbSize)
    (hxfr : d.xfrCur ≠ e.size) : ∃ i, exec e (emitBytes bs) d = .ok ((), { d with iter := i }) := by
  induction bs generalizing d with
  | nil => exact ⟨d.iter, rfl⟩
  | cons b bs ih =>
    rw [List.length_cons] at hle
    have hsync : e.syncing = true := by simp [Endpoint.syncing, hmode]
    have hnext : (d.iter + 1) % e.urbSize = d.iter + 1 := Nat.mod_eq_of_lt (by omega)
    have hb : inb e b d = .ok { d with iter := d.iter + 1 } := by
      rw [inb, if_pos hsync, inbSync, if_neg hxfr]
      show Except.ok (iterNext e (if 0 < requestUnhandled e d ∧ d.reqCur = d.iter then _ else d)) = _
      rw [if_neg (by omega), iterNext, hnext]
    obtain ⟨i, hi⟩ := ih (d := { d with iter := d.iter + 1 }) (by simp only; omega) hlt hxfr
    refine ⟨i, ?_⟩
    show (inb e b d).bind (fun d => exec e (emitBytes bs) d) = _
    rw [hb]
    exact hi

/-- The empty packet of a request whose last packet was full, when the mode has been left: the callback is called
once more and has nothing to write. -/
theorem Written.resume {items : List Item} (h : Written e reqAll (itemBytes items) d) (hdir : e.dir = .input)
    (hmode : e.mode ≠ .async) (hlt : reqAll < e.urbSize) (hz : e.zlp = true) (hxfr : d.xfrCur = e.size) (fuel : Nat) :
    ∃ d', event e fuel (emit items) () d = .ok ((), d') ∧ Finished e (d.sent ++ [[]]) d' := by
  obtain ⟨hfifo, hle⟩ : d.fifo = [] ∧ (itemBytes items).length ≤ reqAll := by
    obtain ⟨h1, h2, -⟩ | ⟨-, h1, -, h2⟩ := h.packet
    · omega
    · exact ⟨h1, h2⟩
  have hcur : d.reqCur = (itemBytes items).length := by
    rw [h.cur, List.take_of_length_le hle]
  have hnot : transferLast e { d with asyncing := false } = false := by
    simp [transferLast, hz, transferPartial, hxfr]
  rw [event_input hdir h.ended, transferIocb_data (d := { d with asyncing := false }) (.inr hnot)]
  obtain ⟨i, hi⟩ := exec_skip (e := e) (itemBytes items)
    (d := { d with
      asyncing := false, running := true, iter := 0, xfrCur := 0, xfrAll := min e.size (d.reqAll - d.reqCur) })
    hmode (by simp only; omega) (by simp only; omega) (by simpa using e.size_pos.ne)
  obtain ⟨b, hb⟩ := requestEnd_partial (e := e)
    (d := { d with
      asyncing := false, running := true, iter := i, xfrCur := 0, xfrAll := min e.size (d.reqAll - d.reqCur) })
    hdir (by simpa using e.size_pos)
  rw [transferData_eq (d := { d with asyncing := false, running := true }) hdir h.cur_le (h.all ▸ hlt) hi, hb]
  refine ⟨_, rfl, ⟨?_, rfl, h.ended, ?_⟩⟩
  · simp [transferLast, hz, transferPartial, e.size_pos]
  · simp [hfifo]

/-- After the call of the callback the request ends, if the end of it can be told. -/
theorem Written.ends {items : List Item} (h : Written e reqAll (itemBytes items) d) (hdir : e.dir = .input)
    (hmode : e.mode ≠ .async) (hlt : reqAll < e.urbSize) (hall : e.zlp = true ∨ reqAll ≤ (itemBytes items).length)
    (fuel : Nat) :
    ∃ d' n d'', requestEnd e d = .ok d' ∧ events e fuel (emit items) n () d' = .ok ((), d'') ∧ d''.ended = true ∧
      d''.sent = closing e d := by
  have hun := h.unhandled hlt
  -- one event is left where the last packet has been recognised
  have finish : ∀ {d' ps}, requestEnd e d = .ok d' → Finished e ps d' → closing e d = ps →
      ∃ d' n d'', requestEnd e d = .ok d' ∧ events e fuel (emit items) n () d' = .ok ((), d'') ∧ d''.ended = true ∧
        d''.sent = closing e d := by
    rintro d' ps hd' hf rfl
    obtain ⟨d'', h1, h2, h3⟩ := hf.ends hdir items
    exact ⟨d', 1, d'', hd', h1, h2, h3⟩
  obtain ⟨hxfr, hfifo, -⟩ | ⟨hxfr, hfifo, -⟩ := h.packet
  · obtain ⟨b, hb⟩ := requestEnd_partial (d := d) hdir (by omega)
    refine finish hb ⟨?_, h.running, h.ended, rfl⟩ (if_neg (by omega))
    cases hz : e.zlp with
    | true => simpa [transferLast, hz, transferPartial] using hxfr ▸ hfifo
    | false =>
      have : requestUnhandled e d = 0 := by
        have : reqAll ≤ (itemBytes items).length := by simpa [hz] using hall
        omega
      exact transferLast_of_handled hz this
  · cases hz : e.zlp with
    | false =>
      obtain ⟨b, hb⟩ := requestEnd_full (e := e) (d := d) hxfr (by simp [hz])
      refine finish hb ⟨?_, h.running, h.ended, rfl⟩ (by simp [closing, hxfr, hz])
      have : requestUnhandled e d = 0 := by
        have : reqAll ≤ (itemBytes items).length := by simpa [hz] using hall
        omega
      exact transferLast_of_handled hz this
    | true =>
      have hclosing : closing e d = d.sent ++ [[]] := by simp [closing, hxfr, hz]
      cases hs : e.syncingEnd with
      | true =>
        obtain ⟨a, b, hb⟩ := requestEnd_zlp hdir hxfr hs hz h.cur_le (h.all ▸ hlt)
        refine finish hb ⟨?_, h.running, h.ended, rfl⟩ (by rw [hclosing, hfifo])
        simp [transferLast, hz, transferPartial, e.size_pos]
      | false =>
        obtain ⟨b, hb⟩ := requestEnd_full (e := e) (d := d) hxfr (by simp [hs])
        have hw : Written e reqAll (itemBytes items) { d with asyncing := b } :=
          ⟨⟨h.all, h.cur, h.iter, h.data, h.full, h.running, h.ended⟩, h.packet⟩
        obtain ⟨d', hd', hf⟩ := hw.resume hdir hmode hlt hz hxfr fuel
        obtain ⟨d'', h1, h2, h3⟩ := hf.ends hdir items
        exact ⟨_, 2, d'', hb, events_succ hd' h1, h2, h3.trans hclosing.symm⟩

/-- In synchronous mode the request ends with the packets its bytes were written to. -/
theorem ends_sync {items : List Item} (hdir : e.dir = .input) (hmode : e.mode ≠ .async) (hlt : reqAll < e.urbSize)
    (hall : e.zlp = true ∨ reqAll ≤ (itemBytes items).length) (fuel : Nat) :
    ∃ d, Written e reqAll (itemBytes items) d ∧ Ends e fuel items reqAll (closing e d) := by
  have hsubmit := requestSubmit_input hdir hlt
  obtain ⟨d, hexec, hw⟩ := (written_nil (e := e)
    (d := { reqAll, reqCur := 0, xfrAll := min e.size reqAll, xfrCur := 0, iter := 0, fifo := [], sent := [], rx := []
            running := true, asyncing := false, ended := false })
    rfl rfl rfl rfl rfl rfl rfl).exec (itemBytes items) hdir hmode hlt
  rw [List.nil_append] at hw
  obtain ⟨d', n, d'', hend, hevs, hended, hsent⟩ := hw.ends hdir hmode hlt hall fuel
  refine ⟨d, hw, n + 1, d'', events_succ ?_ hevs, hended, hsent⟩
  rw [hsubmit, event_input hdir rfl, transferIocb_data (.inl rfl), transferData_eq hdir (Nat.zero_le _) hlt hexec, hend]
  rfl

end

end Sdfirm.Usbd

/-!
## IN requests

A request is transparent exactly if it is `Exact`. Otherwise its endpoint does
not need an empty packet after a full one, and either the callback has too few
bytes, so that the request never ends and sends empty packets for ever, or it
has too many, so that there is an empty packet in synchronous mode only.
-/

namespace Sdfirm.Usbd

open Framework

variable {e : Endpoint} {items : List Item} {reqAll fuel : Nat} {d : Dev}

/-! ### The packets in all modes -/

theorem sending_submit (items : List Item) (hdir : e.dir = .input) (hlt : reqAll < e.urbSize) :
    Sending e items (requestSubmit e reqAll []) := by
  rw [requestSubmit_input hdir hlt]
  exact ⟨Nat.zero_le _, hlt, rfl, rfl, .inl rfl⟩

theorem ends_async (hdir : e.dir = .input) (hmode : e.mode = .async) (hlt : reqAll < e.urbSize)
    (hall : e.zlp = true ∨ reqAll ≤ (itemBytes items).length) :
    ∃ ps, Ends e fuel items reqAll ps ∧ Packets e.size e.zlp ((itemBytes items).take reqAll) ps := by
  have hsubmit := requestSubmit_input hdir hlt
  obtain ⟨n, d, ps, hevs, hended, hsent, hps⟩ := (sending_submit items hdir hlt).ends hdir hmode
    (by simpa [hsubmit] using hall)
  rw [hsubmit] at hsent hps
  exact ⟨ps, ⟨n, d, hevs, hended, hsent⟩, hps⟩

/-- If the packets that have been sent have all bytes, the length of the request is a multiple of the size. -/
theorem Written.dvd (hw : Written e reqAll (itemBytes items) d) (hge : reqAll ≤ (itemBytes items).length)
    (hfifo : d.fifo = []) : reqAll = d.sent.length * e.size := by
  have hlen := congrArg List.length hw.data
  rw [hfifo, List.append_nil, Packets.flatten_length_of_full hw.full, List.length_take_of_le hge] at hlen
  exact hlen.symm

/-- In synchronous mode too the request is sent as it has to be. -/
theorem Written.packets (hw : Written e reqAll (itemBytes items) d) (hx : Exact e items reqAll) :
    Packets e.size e.zlp ((itemBytes items).take reqAll) (closing e d) := by
  rw [← hw.data, closing]
  obtain ⟨hxfr, hfifo, hempty⟩ | ⟨hxfr, hfifo, hsent, hle⟩ := hw.packet
  · rw [if_neg (by omega)]
    refine .of_full_append hw.full hfifo ?_
    obtain hz | ⟨hge, hdvd⟩ := hx
    · exact .inl hz
    · right
      by_contra hne
      rw [not_or, not_not] at hne
      obtain ⟨hnil, hsent⟩ := hne
      -- all packets are full, so there is no byte too many after which a packet could be empty
      have hreq := hw.dvd hge hnil
      have hpos : 0 < reqAll := by
        rw [hreq]
        exact Nat.mul_pos (List.length_pos_iff.2 hsent) e.size_pos
      have hbytes := hdvd hpos (hreq ▸ Nat.dvd_mul_left _ _)
      obtain hbs | hfifo := hempty hbytes.le
      · rw [hbs, List.length_nil] at hbytes
        omega
      · exact hfifo hnil
  · rw [if_pos hxfr, hfifo, List.append_nil]
    cases hz : e.zlp with
    | true =>
      have h : Packets e.size true (d.sent.flatten ++ []) (d.sent ++ [[]]) :=
        .of_full_append hw.full e.size_pos (.inl rfl)
      rwa [List.append_nil] at h
    | false => exact .of_full hw.full hsent e.size_pos

theorem ends_packets (fuel : Nat) (hdir : e.dir = .input) (hlt : reqAll < e.urbSize) (hx : Exact e items reqAll) :
    ∃ ps, Ends e fuel items reqAll ps ∧ Packets e.size e.zlp ((itemBytes items).take reqAll) ps := by
  have hall : e.zlp = true ∨ reqAll ≤ (itemBytes items).length := hx.imp_right And.left
  by_cases hmode : e.mode = .async
  · exact ends_async hdir hmode hlt hall
  · obtain ⟨d, hw, hends⟩ := ends_sync hdir hmode hlt hall fuel
    exact ⟨_, hends, hw.packets hx⟩

theorem Exact.transparent (hx : Exact e items reqAll) (fuel : Nat) (hdir : e.dir = .input) (hlt : reqAll < e.urbSize) :
    Transparent e fuel items reqAll := by
  obtain ⟨ps, -, hps⟩ := ends_packets fuel hdir hlt hx
  refine ⟨ps, fun mode => ?_, hps.flatten_eq, hps.full, hps.trailing e.size_pos⟩
  obtain ⟨ps', hends, hps'⟩ := ends_packets (e := { e with mode }) fuel hdir hlt hx
  rwa [hps.unique hps']

/-! ### Too few bytes -/

/-- A request that has not been told to need fewer bytes is never at its last packet. -/
theorem Sending.forever (h : Sending e items d) (hdir : e.dir = .input) (hmode : e.mode = .async) (hz : e.zlp = false)
    (hless : (itemBytes items).length < d.reqAll) (fuel n : Nat) :
    ∃ d', events e fuel (emit items) n () d = .ok ((), d') ∧ d'.ended = false := by
  induction n generalizing d with
  | zero => exact ⟨d, rfl, h.ended⟩
  | succ n ih =>
    obtain ⟨d', hev, hall', hcur', hxfr', -, hfifo', -, hend'⟩ := h.event hdir hmode
    have hlast : transferLast e d' = false := by
      rw [← Bool.not_eq_true, h.transferLast_iff hall' hcur' hxfr', if_neg (by simp [hz])]
      have hlen := packetAt_length (e := e) items d.reqAll d.reqCur
      have hle := h.cur_le
      rw [List.length_take] at hlen hle
      omega
    obtain ⟨d'', hevs, he⟩ := ih (h.next hall' hcur' hfifo' hend' hlast) (hall' ▸ hless)
    exact ⟨d'', events_succ hev hevs, he⟩

theorem not_ends_of_less (hdir : e.dir = .input) (hmode : e.mode = .async) (hz : e.zlp = false) (hlt : reqAll < e.urbSize)
    (hless : (itemBytes items).length < reqAll) (ps : List (List Byte)) : ¬Ends e fuel items reqAll ps := by
  rintro ⟨n, d, hevs, hended, -⟩
  obtain ⟨d', hevs', hended'⟩ := (sending_submit items hdir hlt).forever hdir hmode hz
    (by rwa [requestSubmit_input hdir hlt]) fuel n
  rw [hevs] at hevs'
  cases hevs'
  rw [hended] at hended'
  exact Bool.noConfusion hended'

/-! ### Too many bytes -/

/-- A byte after the last packet, which is full, opens another one. -/
theorem Written.trailing (hw : Written e reqAll (itemBytes items) d) (hmore : reqAll < (itemBytes items).length)
    (hpos : 0 < reqAll) (hdvd : e.size ∣ reqAll) : d.sent ≠ [] ∧ closing e d = d.sent ++ [[]] := by
  obtain ⟨hxfr, hfifo, -⟩ | ⟨-, -, -, hle⟩ := hw.packet
  · have hlen := congrArg List.length hw.data
    rw [List.length_append, Packets.flatten_length_of_full hw.full, List.length_take_of_le hmore.le] at hlen
    have hnil : d.fifo = [] := by
      rw [← hlen, Nat.dvd_add_right (Nat.dvd_mul_left _ _)] at hdvd
      exact List.length_eq_zero_iff.1 (Nat.eq_zero_of_dvd_of_lt hdvd hfifo)
    refine ⟨?_, ?_⟩
    · rintro hsent
      rw [hsent, hnil] at hlen
      simp at hlen
      omega
    · rw [closing, if_neg (by omega), hnil]
  · omega

/-- An IN request is sent in the same packets in all modes, and in the right ones, exactly if its endpoint needs
an empty packet after a full one, or the callback has at least as many bytes as the request and no more of them
where the last packet is full. -/
theorem transparent_iff (e : Endpoint) (fuel : Nat) (items : List Item) (reqAll : Nat) (hdir : e.dir = .input)
    (hlt : reqAll < e.urbSize) : Transparent e fuel items reqAll ↔ Exact e items reqAll := by
  refine ⟨?_, fun hx => hx.transparent fuel hdir hlt⟩
  rintro ⟨ps, hends, -, -, htrail⟩
  by_contra hx
  simp only [Exact, not_or, Bool.not_eq_true, not_and, Classical.not_imp] at hx
  obtain ⟨hz, hx⟩ := hx
  by_cases hge : reqAll ≤ (itemBytes items).length
  · obtain ⟨hpos, hdvd, hne⟩ := hx hge
    obtain ⟨d, hw, hends'⟩ := ends_sync (e := { e with mode := .sync }) hdir (by simp) hlt (.inr hge) fuel
    obtain ⟨hsent, hclosing⟩ := hw.trailing (by omega) hpos hdvd
    have hps : ps = d.sent ++ [[]] := hclosing ▸ (hends .sync).unique hends'
    have htwo : 1 < ps.length ∧ ps.getLast? = some [] := by
      have := List.length_pos_iff.2 hsent
      rw [hps]
      simp
      omega
    simp [hz] at htrail
    exact htrail htwo.1 htwo.2
  · exact not_ends_of_less (e := { e with mode := .async }) hdir rfl hz hlt (by omega) ps (hends .async)

/-- An endpoint as those of the mass storage device, which do not need the empty packet. -/
def bulkIn : Endpoint :=
  { size := 8, dir := .input, zlp := false, mode := .async, mass := true, size_pos := by decide, size_lt := by decide }

/-- Two packets, the second of which has the end of a double word. -/
theorem transparent_twoPackets :
    Transparent bulkIn 0 [.word 0x0201, .dword 0x06050403, .dword 0x0a090807, .byte 0x0b] 11 :=
  (transparent_iff bulkIn 0 _ 11 rfl (by decide)).2 (by decide)

/-- With three bytes for a request of ten the endpoint sends for ever. With nine bytes for a request of eight
there is an empty packet in synchronous mode, and none in asynchronous mode. -/
theorem not_transparent :
    (∀ ps, ¬Ends bulkIn 0 [.word 0x0201, .byte 0x03] 10 ps) ∧
      Ends bulkIn 0 [.dword 0x04030201, .dword 0x08070605, .byte 0x09] 8 [[1, 2, 3, 4, 5, 6, 7, 8]] ∧
      Ends { bulkIn with mode := .sync } 0 [.dword 0x04030201, .dword 0x08070605, .byte 0x09] 8
        [[1, 2, 3, 4, 5, 6, 7, 8], []] :=
  ⟨not_ends_of_less rfl rfl rfl (by decide) (by decide), ⟨2, _, rfl, rfl, rfl⟩, ⟨2, _, rfl, rfl, rfl⟩⟩

end Sdfirm.Usbd
