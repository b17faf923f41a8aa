import Sdfirm.Proof.Usbd.Counters

/-!
# IN requests in asynchronous mode

The callback is called once for each packet, and of its bytes the ones that
come next go into it (`writeAsync_eq`). So the request sends the packets of
the bytes it has asked for, one with each event.
-/

namespace Sdfirm.Usbd

open Framework

variable {e : Endpoint} {d : Dev} {fuel : Nat}

/-! ## One packet -/

/-- The bytes of a callback in asynchronous mode. -/
def writeAsync (e : Endpoint) (bs : List Byte) (d : Dev) : Dev := bs.foldl (fun d b => inbAsync e b d) d

theorem exec_emitBytes_async (hmode : e.mode = .async) (bs : List Byte) (d : Dev) :
    exec e (emitBytes bs) d = .ok ((), writeAsync e bs d) := by
  induction bs generalizing d with
  | nil => rfl
  | cons b bs ih =>
    have hb : inb e b d = .ok (inbAsync e b d) := by
      simp only [inb, Endpoint.syncing, hmode]
      rfl
    show (inb e b d).bind (fun d => exec e (emitBytes bs) d) = _
    rw [hb]
    exact ih _

/-- The bytes `w` are in the packet, which is sent when it is full. -/
def wrote (e : Endpoint) (w : List Byte) (d : Dev) : Dev :=
  if w ≠ [] ∧ d.xfrCur + w.length = e.size then
    { d with reqCur := d.reqCur + w.length, xfrCur := e.size, sent := d.sent ++ [d.fifo ++ w], fifo := [] }
  else { d with reqCur := d.reqCur + w.length, xfrCur := d.xfrCur + w.length, fifo := d.fifo ++ w }

theorem wrote_nil : wrote e [] d = d := by simp [wrote]

/-- A packet that is complete takes no more bytes. -/
theorem writeAsync_complete (bs : List Byte) (h : d.xfrCur = d.xfrAll) : ∃ i, writeAsync e bs d = { d with iter := i } := by
  induction bs generalizing d with
  | nil => exact ⟨d.iter, rfl⟩
  | cons b bs ih =>
    have h0 : ¬(0 < transferUnhandled d ∧ d.reqCur = d.iter) := by
      simp [transferUnhandled, h]
    obtain ⟨i, hi⟩ := ih (d := iterNext e d) h
    refine ⟨i, ?_⟩
    show writeAsync e bs (inbAsync e b d) = _
    rw [inbAsync, if_neg h0, hi]
    rfl

/-- Of the bytes of the callback those from `reqCur` on go into the packet, as many as it takes. -/
theorem writeAsync_eq (bs : List Byte) (hdir : e.dir = .input) (hiter : d.iter ≤ d.reqCur) (hle : d.xfrCur ≤ d.xfrAll)
    (hall : d.xfrAll ≤ e.size) (hlt : d.reqCur + (d.xfrAll - d.xfrCur) < e.urbSize) :
    ∃ i, writeAsync e bs d =
      { wrote e ((bs.drop (d.reqCur - d.iter)).take (d.xfrAll - d.xfrCur)) d with iter := i } := by
  have hsize := e.size_lt
  induction bs generalizing d with
  | nil =>
    refine ⟨d.iter, ?_⟩
    rw [List.drop_nil, List.take_nil, wrote_nil]
    rfl
  | cons b bs ih =>
    obtain heq | hlt' := hle.eq_or_lt
    · rw [heq, Nat.sub_self, List.take_zero, wrote_nil]
      exact writeAsync_complete _ heq
    · have hun : transferUnhandled d = d.xfrAll - d.xfrCur := transferUnhandled_eq hle (by omega)
      show ∃ i, writeAsync e bs (inbAsync e b d) = _
      obtain heq | hskip := hiter.eq_or_lt
      · -- the byte is written
        rw [inbAsync, if_pos ⟨by omega, heq.symm⟩, heq, Nat.sub_self, List.drop_zero,
          show d.xfrAll - d.xfrCur = d.xfrAll - (d.xfrCur + 1) + 1 by omega, List.take_succ_cons]
        have hcur : (d.reqCur + 1) % e.urbSize = d.reqCur + 1 := Nat.mod_eq_of_lt (by omega)
        have hxfr : (d.xfrCur + 1) % 2 ^ 8 = d.xfrCur + 1 := Nat.mod_eq_of_lt (by omega)
        simp only [advance, hwWriteByte, iterNext, hcur, hxfr, heq]
        by_cases hfull : d.xfrCur + 1 = e.size
        · -- the packet is full with it
          simp only [hfull, if_true, hwTransferClose, hdir, hcur]
          obtain ⟨i, hi⟩ := writeAsync_complete (e := e) bs
            (d := { d with
              reqCur := d.reqCur + 1, xfrCur := e.size, iter := d.reqCur + 1
              sent := d.sent ++ [d.fifo ++ [b]], fifo := [] }) (by simp only; omega)
          refine ⟨i, hi.trans ?_⟩
          have hnil : d.xfrAll - e.size = 0 := by omega
          simp [wrote, hnil, hfull]
        · simp only [hfull, if_false, hcur]
          obtain ⟨i, hi⟩ := ih
            (d := { d with reqCur := d.reqCur + 1, xfrCur := d.xfrCur + 1, iter := d.reqCur + 1, fifo := d.fifo ++ [b] })
            (le_refl _) (by simp only; omega) hall (by simp only; omega)
          refine ⟨i, hi.trans ?_⟩
          simp only [Nat.sub_self, List.drop_zero]
          generalize bs.take (d.xfrAll - (d.xfrCur + 1)) = w
          cases w with
          | nil => simp [wrote, hfull]
          | cons b' w =>
            have hlen : d.xfrCur + 1 + (b' :: w).length = d.xfrCur + (b :: b' :: w).length := by
              simp only [List.length_cons]
              omega
            have hlen' : d.reqCur + 1 + (b' :: w).length = d.reqCur + (b :: b' :: w).length := by
              simp only [List.length_cons]
              omega
            simp only [wrote, hlen, hlen', ne_eq, reduceCtorEq, not_false_eq_true, true_and, List.append_assoc,
              List.singleton_append]
            split <;> rfl
      · -- the byte has been sent before
        have hnext : (d.iter + 1) % e.urbSize = d.iter + 1 := Nat.mod_eq_of_lt (by omega)
        rw [inbAsync, if_neg fun h => by omega,
          show d.reqCur - d.iter = d.reqCur - (d.iter + 1) + 1 by omega, List.drop_succ_cons]
        simp only [iterNext, hnext]
        obtain ⟨i, hi⟩ := ih (d := { d with iter := d.iter + 1 }) hskip hle hall hlt
        refine ⟨i, hi.trans ?_⟩
        simp only [wrote]
        split <;> rfl

/-- The bytes of a request that are in the packet after `p` bytes of it. -/
def packetAt (e : Endpoint) (items : List Item) (reqAll p : Nat) : List Byte :=
  (((itemBytes items).take reqAll).drop p).take e.size

theorem packetAt_length_le (items : List Item) (reqAll p : Nat) : (packetAt e items reqAll p).length ≤ e.size :=
  List.length_take_le ..

theorem packetAt_length (items : List Item) (reqAll p : Nat) :
    (packetAt e items reqAll p).length = min e.size (((itemBytes items).take reqAll).length - p) := by
  rw [packetAt, List.length_take, List.length_drop]

/-- One call of the callback sends one packet. -/
theorem transferData_async (hdir : e.dir = .input) (hmode : e.mode = .async) (items : List Item)
    (hle : d.reqCur ≤ d.reqAll) (hlt : d.reqAll < e.urbSize) (hfifo : d.fifo = []) :
    ∃ a i b, transferData e fuel (emit items) () d = .ok ((),
      { d with
        reqCur := d.reqCur + (packetAt e items d.reqAll d.reqCur).length
        xfrCur := (packetAt e items d.reqAll d.reqCur).length
        sent := d.sent ++ [packetAt e items d.reqAll d.reqCur], xfrAll := a, iter := i, asyncing := b }) := by
  obtain ⟨i, hi⟩ := writeAsync_eq (e := e) (itemBytes items)
    (d := { d with iter := 0, xfrCur := 0, xfrAll := min e.size (d.reqAll - d.reqCur) }) hdir (Nat.zero_le _)
    (Nat.zero_le _) (min_le_left _ _) (by simp only; omega)
  simp only [Nat.sub_zero] at hi
  have hw : ((itemBytes items).drop d.reqCur).take (min e.size (d.reqAll - d.reqCur)) =
      packetAt e items d.reqAll d.reqCur := by
    rw [packetAt, List.drop_take, List.take_take]
  rw [hw] at hi
  have hexec := exec_emitBytes_async hmode (itemBytes items)
    { d with iter := 0, xfrCur := 0, xfrAll := min e.size (d.reqAll - d.reqCur) }
  rw [hi] at hexec
  rw [transferData_eq hdir hle hlt hexec]
  have hwlen := packetAt_length_le (e := e) items d.reqAll d.reqCur
  generalize packetAt e items d.reqAll d.reqCur = w at hwlen ⊢
  refine ⟨min e.size (d.reqAll - d.reqCur), i, ?_⟩
  by_cases hfull : w.length = e.size
  · -- the packet has been sent with its last byte
    have hne : w ≠ [] := by
      rw [← List.length_pos_iff, hfull]
      exact e.size_pos
    have hend : ¬(e.syncingEnd = true ∧ e.zlp = true) := by simp [Endpoint.syncingEnd, hmode]
    simp only [wrote, ne_eq, hne, not_false_eq_true, hfull, Nat.zero_add, and_self, if_true, hfifo, List.nil_append]
    obtain ⟨b, hb⟩ := requestEnd_full (e := e)
      (d := { d with
        reqCur := d.reqCur + e.size, xfrCur := e.size, xfrAll := min e.size (d.reqAll - d.reqCur), iter := i
        sent := d.sent ++ [w], fifo := [] }) rfl hend
    rw [hb]
    exact ⟨b, rfl⟩
  · simp only [wrote, Nat.zero_add, hfull, and_false, if_false, hfifo, List.nil_append]
    obtain ⟨b, hb⟩ := requestEnd_partial (e := e)
      (d := { d with
        reqCur := d.reqCur + w.length, xfrCur := w.length, xfrAll := min e.size (d.reqAll - d.reqCur), iter := i
        fifo := w }) hdir (by simp only; omega)
    rw [hb]
    exact ⟨b, rfl⟩

/-! ## The request -/

/-- The request has sent `p` bytes of it, and is not at its end. -/
structure Sending (e : Endpoint) (items : List Item) (d : Dev) : Prop where
  cur_le : d.reqCur ≤ ((itemBytes items).take d.reqAll).length
  lt : d.reqAll < e.urbSize
  fifo : d.fifo = []
  ended : d.ended = false
  more : d.running = false ∨ transferLast e d = false

namespace Sending

variable {items : List Item}

theorem cur_le_all (h : Sending e items d) : d.reqCur ≤ d.reqAll := by
  have := h.cur_le
  rw [List.length_take] at this
  omega

/-- The next event sends a packet. -/
theorem event (h : Sending e items d) (hdir : e.dir = .input) (hmode : e.mode = .async) :
    ∃ d', event e fuel (emit items) () d = .ok ((), d') ∧
      d'.reqAll = d.reqAll ∧ d'.reqCur = d.reqCur + (packetAt e items d.reqAll d.reqCur).length ∧
      d'.xfrCur = (packetAt e items d.reqAll d.reqCur).length ∧
      d'.sent = d.sent ++ [packetAt e items d.reqAll d.reqCur] ∧
      d'.fifo = [] ∧ d'.running = true ∧ d'.ended = false := by
  obtain ⟨a, i, b, hi⟩ := transferData_async (d := { d with asyncing := false, running := true }) hdir hmode
    items h.cur_le_all h.lt h.fifo
  rw [event_input hdir h.ended, transferIocb_data (d := { d with asyncing := false }) h.more]
  exact ⟨_, hi, rfl, rfl, rfl, rfl, h.fifo, rfl, h.ended⟩

theorem transferLast_iff {d' : Dev} (h : Sending e items d) (hall : d'.reqAll = d.reqAll)
    (hcur : d'.reqCur = d.reqCur + (packetAt e items d.reqAll d.reqCur).length)
    (hxfr : d'.xfrCur = (packetAt e items d.reqAll d.reqCur).length) :
    transferLast e d' = true ↔
      if e.zlp then (packetAt e items d.reqAll d.reqCur).length < e.size
      else d.reqCur + (packetAt e items d.reqAll d.reqCur).length = d.reqAll := by
  have hlen := packetAt_length (e := e) items d.reqAll d.reqCur
  have hle := h.cur_le
  have hlt := h.lt
  rw [List.length_take] at hlen hle
  rw [transferLast_eq_true_iff (by omega) (by omega), hall, hcur, hxfr]

/-- The state after a packet that is not the last one. -/
theorem next {d' : Dev} (h : Sending e items d) (hall : d'.reqAll = d.reqAll)
    (hcur : d'.reqCur = d.reqCur + (packetAt e items d.reqAll d.reqCur).length) (hfifo : d'.fifo = [])
    (he : d'.ended = false) (hlast : transferLast e d' = false) : Sending e items d' := by
  have hlen := packetAt_length (e := e) items d.reqAll d.reqCur
  have hle := h.cur_le
  refine ⟨?_, hall ▸ h.lt, hfifo, he, .inr hlast⟩
  rw [hall, hcur]
  omega

/-- The rest of the request is sent in packets, if the end of it can be told. -/
theorem ends (h : Sending e items d) (hdir : e.dir = .input) (hmode : e.mode = .async)
    (hall : e.zlp = true ∨ d.reqAll ≤ (itemBytes items).length) :
    ∃ n d' ps, events e fuel (emit items) n () d = .ok ((), d') ∧ d'.ended = true ∧ d'.sent = d.sent ++ ps ∧
      Packets e.size e.zlp (((itemBytes items).take d.reqAll).drop d.reqCur) ps := by
  -- on the number of bytes that are left
  induction hn : ((itemBytes items).take d.reqAll).length - d.reqCur using Nat.strong_induction_on generalizing d with
  | h n ih =>
    obtain ⟨d', hev, hall', hcur', hxfr', hsent', hfifo', hrun', hend'⟩ := h.event hdir hmode
    have hlast := h.transferLast_iff hall' hcur' hxfr'
    have hlen := packetAt_length (e := e) items d.reqAll d.reqCur
    have hsize := e.size_pos
    have hle := h.cur_le
    set data := (itemBytes items).take d.reqAll with hdata
    have hp : packetAt e items d.reqAll d.reqCur = (data.drop d.reqCur).take e.size := rfl
    have hdrop : (data.drop d.reqCur).length = data.length - d.reqCur := List.length_drop
    cases hl : transferLast e d' with
    | true =>
      have hexit := event_exit hdir hend' hrun' hl fuel (emit items) ()
      refine ⟨2, _, [packetAt e items d.reqAll d.reqCur], events_succ hev (events_succ hexit rfl), rfl, hsent', ?_⟩
      have hl' := hlast.1 hl
      -- the packet has all that is left
      have hrest : (data.drop d.reqCur).length ≤ e.size := by
        obtain hz | ⟨hz, hge⟩ : e.zlp = true ∨ e.zlp = false ∧ d.reqAll ≤ (itemBytes items).length := by
          cases hz : e.zlp with
          | true => exact .inl rfl
          | false => exact .inr ⟨rfl, by simpa [hz] using hall⟩
        · rw [if_pos hz] at hl'
          omega
        · rw [if_neg (by simp [hz])] at hl'
          have : data.length = d.reqAll := List.length_take_of_le hge
          omega
      rw [hp, List.take_of_length_le hrest]
      obtain hlt | heq := hrest.lt_or_eq
      · exact .last hlt
      · refine .exact ?_ heq
        cases hz : e.zlp with
        | false => rfl
        | true =>
          rw [if_pos hz] at hl'
          omega
    | false =>
      have hnot : ¬_ := fun hl' => Bool.false_ne_true (hl.symm.trans (hlast.2 hl'))
      -- the packet is full, and there is more to come
      have hmore : e.size ≤ (data.drop d.reqCur).length ∧ (e.zlp = true ∨ e.size < (data.drop d.reqCur).length) := by
        cases hz : e.zlp with
        | true =>
          rw [if_pos hz] at hnot
          exact ⟨by omega, .inl rfl⟩
        | false =>
          rw [if_neg (by simp [hz])] at hnot
          have : data.length = d.reqAll := List.length_take_of_le (by simpa [hz] using hall)
          exact ⟨by omega, .inr (by omega)⟩
      have hfull : (packetAt e items d.reqAll d.reqCur).length = e.size := by omega
      obtain ⟨n', d'', ps, hevs, hended, hsent, hps⟩ := ih (data.length - d'.reqCur) (by omega)
        (h.next hall' hcur' hfifo' hend' hl) (hall' ▸ hall) (by rw [hall'])
      refine ⟨n' + 1, d'', packetAt e items d.reqAll d.reqCur :: ps, events_succ hev hevs, hended, ?_, ?_⟩
      · rw [hsent, hsent', List.append_assoc]
        rfl
      · rw [hall', hcur', hfull, ← hdata, ← List.drop_drop] at hps
        exact .cons hmore.1 hmore.2 hps

end Sending

end Sdfirm.Usbd
