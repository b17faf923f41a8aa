import Sdfirm.Spec.IfdTpdu

/-!
# The T=0 engine and a conforming card

`Awaiting` is the invariant of an exchange: which command bytes are still to
be sent, which response bytes have arrived, and how many more the engine
takes as data before the next procedure byte. One lemma for each kind of
byte says what `feed` does to it (`feed_null`, `feed_sendAll`,
`feed_sendOne`, `feed_recv`, `feed_data`, `feed_status`); `exchange_spec`
follows a whole conforming stream. `exchange_transparent` is the result for
commands as they are parsed.
-/

namespace Sdfirm.IfdT0

variable {bits : Nat}

theorem subSize_eq {a b : Nat} (h : b ≤ a) (ha : a < 2 ^ bits) : subSize bits a b = a - b := by
  rw [subSize, show a + 2 ^ bits - b = a - b + 2 ^ bits by omega, Nat.add_mod_right]
  exact Nat.mod_eq_of_lt (by omega)

@[simp] theorem length_contents (buf : Nat → Byte) (n : Nat) : (contents buf n).length = n := by
  simp [contents]

theorem contents_succ (buf : Nat → Byte) (n : Nat) :
    contents buf (n + 1) = contents buf n ++ [buf n] := by
  simp [contents, List.range_succ]

theorem contents_update {buf : Nat → Byte} {n i : Nat} (b : Byte) (h : n ≤ i) :
    contents (Function.update buf i b) n = contents buf n := by
  refine List.map_congr_left fun j hj => ?_
  have hne : j ≠ i := by
    have := List.mem_range.1 hj
    omega
  exact Function.update_of_ne hne _ _

/-- A parsed command: its header, its data field, and the instruction byte and `Le` read from it. -/
structure Command where
  hdr : List Byte
  data : List Byte
  ins : Byte
  le : Nat

/-- The exchange between two bytes of the card: the command bytes `c.data` but the last `n` have
been sent, the response bytes `got` have arrived, and `k` more will be taken as data before
the next procedure byte. -/
structure Awaiting (s : Slot) (c : Command) (n : Nat) (got : List Byte) (k : Nat) : Prop where
  ins : s.t0.ins = c.ins
  le : s.t0.le = c.le
  notCmpl : s.t0.cmpl = false
  running : s.ended = none
  nc : s.t0.nc = c.data.length + 5
  ne : s.t0.ne = c.le + 2
  tx : s.t0.tx + n = s.t0.nc
  rx : s.t0.rx = got.length + 1 + k
  pos : s.xfr.rxStart + s.xfr.rx = got.length
  last : s.xfr.rx + 1 + k = s.xfr.ne
  room : got.length + k ≤ c.le
  quiet : 0 < n → got = [] ∧ k = 0
  got : contents s.buf got.length = got
  rest : ∀ i (h : i < c.data.length), c.data.length ≤ i + n → s.buf (5 + i) = c.data.get ⟨i, h⟩
  sent : s.sent = c.hdr ++ c.data.take (c.data.length - n)
  toSend : n ≤ c.data.length
  cmdShort : c.data.length ≤ 255
  leShort : c.le ≤ 256

/-- The slot after a byte of the card is stored. -/
def store (s : Slot) (b : Byte) : Slot :=
  { s with
    buf := Function.update s.buf ((s.xfr.rxStart + s.xfr.rx) % 2 ^ 32) b
    xfr := { s.xfr with rx := s.xfr.rx + 1 } }

variable {s : Slot} {c : Command} {got : List Byte} {n k : Nat} {b : Byte}

theorem Awaiting.index (h : Awaiting s c n got k) :
    (s.xfr.rxStart + s.xfr.rx) % 2 ^ 32 = got.length := by
  have := h.room
  have := h.leShort
  rw [h.pos]
  exact Nat.mod_eq_of_lt (by omega)

/-- A byte that is not the last of its block is stored and nothing else happens. -/
theorem feed_inner (hrun : s.ended = none) (hlast : s.xfr.rx + 1 < s.xfr.ne) : feed bits s b = store s b := by
  have hread : ¬ (s.ended.isSome ∨ s.xfr.ne ≤ s.xfr.rx) := by
    rw [hrun]
    rintro (h | h)
    · exact Bool.false_ne_true h
    · omega
  have hne : ¬ s.xfr.rx + 1 = s.xfr.ne := by omega
  simp only [feed, if_neg hread, if_neg hne, store]

theorem neExpireProc_ended (s : Slot) : (neExpireProc bits s).ended = s.ended := by
  unfold neExpireProc
  simp only
  split_ifs <;> rfl

/-- The last byte of a block is stored and handled. -/
theorem feed_end (hrun : s.ended = none) (hlast : s.xfr.rx + 1 = s.xfr.ne) :
    feed bits s b = if (neExpire bits (store s b)).ended.isSome then neExpire bits (store s b)
      else transmit (neExpire bits (store s b)) := by
  have hread : ¬ (s.ended.isSome ∨ s.xfr.ne ≤ s.xfr.rx) := by
    rw [hrun]
    rintro (h | h)
    · exact Bool.false_ne_true h
    · omega
  rw [feed, if_neg hread]
  exact if_pos hlast

/-- A procedure byte is stored and handled. -/
theorem feed_proc (hrun : s.ended = none) (hcmpl : s.t0.cmpl = false) (hlast : s.xfr.rx + 1 = s.xfr.ne) :
    feed bits s b = transmit (neExpireProc bits (store s b)) := by
  have hend : (neExpireProc bits (store s b)).ended = none := by
    rw [neExpireProc_ended]
    exact hrun
  have hproc : neExpire bits (store s b) = neExpireProc bits (store s b) :=
    if_neg (by simp [store, hcmpl])
  rw [feed_end hrun hlast, hproc, hend]
  rfl

theorem readLast_store (hlast : s.xfr.rx + 1 = s.xfr.ne) : readLast (store s b) = b := by
  simp only [readLast, store, show s.xfr.ne - 1 = s.xfr.rx by omega, Function.update_self]

theorem Awaiting.feed_more (h : Awaiting s c n got (k + 1)) : feed bits s b = store s b :=
  feed_inner h.running (by have := h.last; omega)

theorem Awaiting.feed_last (h : Awaiting s c n got 0) :
    feed bits s b = transmit (neExpireProc bits (store s b)) :=
  feed_proc h.running h.notCmpl h.last

theorem Awaiting.readLast (h : Awaiting s c n got 0) : readLast (store s b) = b := readLast_store h.last

theorem Awaiting.got_store (h : Awaiting s c n got k) :
    contents (store s b).buf got.length = got := by
  simp only [store, h.index, contents_update _ le_rfl, h.got]

theorem Awaiting.rest_store (h : Awaiting s c n got k) :
    ∀ i (hi : i < c.data.length), c.data.length ≤ i + n → (store s b).buf (5 + i) = c.data.get ⟨i, hi⟩ := by
  intro i hi hn
  have hg : got = [] := (h.quiet (by omega)).1
  have hne : 5 + i ≠ got.length := by simp [hg]
  simp only [store, h.index, Function.update_of_ne hne, h.rest i hi hn]

theorem isSw1_iff : IsSw1 b ↔ b ≠ 0x60 ∧ (sw1_6x b || sw1_9x b) = true := by
  simp [IsSw1, sw1_6x, sw1_9x]

theorem validIns_iff : ValidIns b ↔ (sw1_6x b || sw1_9x b) = false := by
  simp [ValidIns, sw1_6x, sw1_9x]

/-- The complement of a valid instruction byte is not a status byte either, and it differs
from the byte itself. -/
theorem ValidIns.xor (h : ValidIns b) : ValidIns (b ^^^ 0xFF) ∧ b ^^^ 0xFF ^^^ b ≠ 0 := by
  revert h
  unfold ValidIns
  revert b
  decide

variable (hb : 16 ≤ bits)

include hb in
theorem lt_two_pow {x : Nat} (h : x < 2 ^ 16) : x < 2 ^ bits :=
  lt_of_lt_of_le h (Nat.pow_le_pow_right (by decide) hb)

/-- The next `m` bytes of the command. -/
theorem Awaiting.sent_block (h : Awaiting s c n got k) {m : Nat} (hm : m ≤ n) :
    s.sent ++ ((List.range m).map fun i => (store s b).buf (s.t0.tx + i)) =
      c.hdr ++ c.data.take (c.data.length - (n - m)) := by
  have h4 := h.tx
  have h5 := h.nc
  have h7 := h.toSend
  have hmap : ((List.range m).map fun i => (store s b).buf (s.t0.tx + i)) =
      (c.data.drop (c.data.length - n)).take m := by
    refine List.ext_getElem (by simp; omega) fun i h1 h2 => ?_
    have hi : i < m := by simpa using h1
    have hidx : s.t0.tx + i = 5 + (c.data.length - n + i) := by omega
    simp only [List.getElem_map, List.getElem_range, List.getElem_take, List.getElem_drop, hidx]
    exact h.rest_store _ (by omega) (by omega)
  rw [hmap, h.sent, List.append_assoc, show c.data.length - (n - m) = c.data.length - n + m by omega,
    List.take_add]

/-- A block of `m` command bytes and `j + 1` card bytes, set up when a procedure byte has been
taken back. -/
theorem Awaiting.block (hb : 16 ≤ bits) (h : Awaiting s c n got 0) {m j : Nat} (hm : m ≤ n)
    (hj : got.length + j ≤ c.le) (hq : 0 < n - m → j = 0) :
    Awaiting (transmit (xfrBlock bits (rxBack bits (store s b)) m (j + 1))) c (n - m) got j := by
  have h1 := h.rx
  have h2 := h.room
  have h3 := h.leShort
  have h4 := h.tx
  have h5 := h.nc
  have h6 := h.cmdShort
  have h7 := h.toSend
  have hrx : subSize bits s.t0.rx 1 = got.length := by
    rw [subSize_eq (by omega) (lt_two_pow hb (by omega)), h1]
    omega
  refine ⟨h.ins, h.le, h.notCmpl, h.running, h5, h.ne, ?_, ?_, hrx, ?_, hj, ?_, h.got_store, ?_, ?_, by omega, h6, h3⟩
  · change (s.t0.tx + m) % 2 ^ bits + (n - m) = s.t0.nc
    rw [Nat.mod_eq_of_lt (lt_two_pow hb (by omega))]
    omega
  · change (subSize bits s.t0.rx 1 + (j + 1)) % 2 ^ bits = got.length + 1 + j
    rw [hrx, Nat.mod_eq_of_lt (lt_two_pow hb (by omega))]
    omega
  · change 0 + 1 + j = j + 1
    omega
  · exact fun h0 => ⟨(h.quiet (by omega)).1, hq h0⟩
  · exact fun i hi hn => h.rest_store i hi (by omega)
  · exact h.sent_block hm

/-! ## One byte of the card -/

theorem feed_null (hb : 16 ≤ bits) (h : Awaiting s c n got 0) :
    Awaiting (feed bits s 0x60) c n got 0 := by
  have hproc : neExpireProc bits (store s 0x60) = xfrBlock bits (rxBack bits (store s 0x60)) 0 1 := by
    simp only [neExpireProc, h.readLast]
    rfl
  rw [h.feed_last, hproc]
  exact h.block hb (Nat.zero_le n) h.room fun _ => rfl

/-- How a procedure byte that is not a status byte is handled. -/
theorem Awaiting.proc (h : Awaiting s c n got 0) (hv : ValidIns b) :
    neExpireProc bits (store s b) =
      if b ^^^ c.ins ≠ 0 then
        if s.t0.tx < s.t0.nc then xfrBlock bits (rxBack bits (store s b)) 1 1
        else xfrBlock bits (rxBack bits (store s b)) 0 2
      else
        if s.t0.tx < s.t0.nc then
          xfrBlock bits (rxBack bits (store s b)) (s.t0.nc - s.t0.tx) 1
        else xfrBlock bits (rxBack bits (store s b)) 0
          (subSize bits (s.t0.ne - 1) (subSize bits s.t0.rx 1)) := by
  simp only [neExpireProc, h.readLast, validIns_iff.1 hv, Bool.false_eq_true, if_false, ← h.ins]
  rfl

theorem feed_sendAll (hb : 16 ≤ bits) (h : Awaiting s c n got 0) (hv : ValidIns c.ins)
    (hn : 0 < n) : Awaiting (feed bits s c.ins) c 0 got 0 := by
  have htx := h.tx
  rw [h.feed_last, h.proc hv, if_neg (by simp), if_pos (by omega), show s.t0.nc - s.t0.tx = n by omega]
  simpa using h.block hb le_rfl h.room fun _ => rfl

theorem feed_sendOne (hb : 16 ≤ bits) (h : Awaiting s c (n + 1) got 0) (hv : ValidIns c.ins) :
    Awaiting (feed bits s (c.ins ^^^ 0xFF)) c n got 0 := by
  have htx := h.tx
  rw [h.feed_last, h.proc hv.xor.1, if_pos hv.xor.2, if_pos (by omega)]
  exact h.block (m := 1) hb (by omega) h.room fun _ => rfl

theorem feed_recvAll (hb : 16 ≤ bits) (h : Awaiting s c 0 got 0) (hv : ValidIns c.ins) {r : Nat}
    (hr : got.length + r = c.le) : Awaiting (feed bits s c.ins) c 0 got r := by
  have htx := h.tx
  have hrx := h.rx
  have hne := h.ne
  have hle := h.leShort
  have hlen : subSize bits (s.t0.ne - 1) (subSize bits s.t0.rx 1) = r + 1 := by
    rw [subSize_eq (a := s.t0.rx) (by omega) (lt_two_pow hb (by omega)),
      subSize_eq (by omega) (lt_two_pow hb (by omega))]
    omega
  rw [h.feed_last, h.proc hv, if_neg (by simp), if_neg (by omega), hlen]
  exact h.block (m := 0) hb le_rfl (by omega) (by simp)

theorem feed_recvOne (hb : 16 ≤ bits) (h : Awaiting s c 0 got 0) (hv : ValidIns c.ins)
    (hr : got.length < c.le) : Awaiting (feed bits s (c.ins ^^^ 0xFF)) c 0 got 1 := by
  have htx := h.tx
  rw [h.feed_last, h.proc hv.xor.1, if_pos hv.xor.2, if_neg (by omega)]
  exact h.block (m := 0) hb le_rfl (by omega) (by simp)

theorem feed_data (bits : Nat) (h : Awaiting s c 0 got (k + 1)) (b : Byte) :
    Awaiting (feed bits s b) c 0 (got ++ [b]) k := by
  have h1 := h.rx
  have h2 := h.room
  have h3 := h.pos
  have h4 := h.last
  rw [h.feed_more]
  refine ⟨h.ins, h.le, h.notCmpl, h.running, h.nc, h.ne, h.tx, ?_, ?_, ?_, ?_, by simp, ?_, ?_, h.sent, h.toSend,
    h.cmdShort, h.leShort⟩
  · simp only [store, List.length_append, List.length_singleton]
    omega
  · simp only [store, List.length_append, List.length_singleton]
    omega
  · simp only [store]
    omega
  · simp only [List.length_append, List.length_singleton]
    omega
  · rw [List.length_append, List.length_singleton, contents_succ, h.got_store]
    simp only [store, h.index, Function.update_self]
  · exact fun i hi hn => absurd hi (by omega)

theorem feed_block (bits : Nat) : ∀ (block : List Byte) (s : Slot) (got : List Byte),
    Awaiting s c 0 got block.length →
    Awaiting (block.foldl (feed bits) s) c 0 (got ++ block) 0
  | [], s, got, h => by simpa using h
  | b :: block, s, got, h => by
    simpa using feed_block bits block (feed bits s b) (got ++ [b]) (feed_data bits h b)

/-- The two status bytes end the exchange. -/
theorem feed_status (hb : 16 ≤ bits) (h : Awaiting s c n got 0) {sw1 : Byte} (hsw : IsSw1 sw1) (sw2 : Byte) :
    (feed bits (feed bits s sw1) sw2).ended = some (got.length + 2) ∧
      (feed bits (feed bits s sw1) sw2).sent = s.sent ∧
      contents (feed bits (feed bits s sw1) sw2).buf (got.length + 2) = got ++ [sw1, sw2] := by
  obtain ⟨h60, hsw'⟩ := isSw1_iff.1 hsw
  have hrx := h.rx
  have hroom := h.room
  have hle := h.leShort
  have hproc : neExpireProc bits (store s sw1) =
      { xfrBlock bits (store s sw1) 0 1 with
        t0 := { (xfrBlock bits (store s sw1) 0 1).t0 with cmpl := true } } := by
    simp only [neExpireProc, h.readLast, hsw', if_true, if_neg h60]
  have hidx : (s.t0.rx + 0) % 2 ^ 32 = got.length + 1 := by
    rw [Nat.mod_eq_of_lt (by omega)]
    omega
  have hbuf : (feed bits (feed bits s sw1) sw2).buf =
      Function.update (store s sw1).buf (got.length + 1) sw2 := by
    rw [h.feed_last, hproc, ← hidx, feed, if_neg (by simp [transmit, xfrBlock, store, h.running])]
    rfl
  refine ⟨?_, ?_, ?_⟩
  · have hend : (feed bits (feed bits s sw1) sw2).ended = some ((s.t0.rx + 1) % 2 ^ bits) := by
      rw [h.feed_last, hproc, feed, if_neg (by simp [transmit, xfrBlock, store, h.running])]
      rfl
    rw [hend, Nat.mod_eq_of_lt (lt_two_pow hb (by omega)), hrx]
  · have hsent : (feed bits (feed bits s sw1) sw2).sent = s.sent ++ [] := by
      rw [h.feed_last, hproc, feed, if_neg (by simp [transmit, xfrBlock, store, h.running])]
      rfl
    rw [hsent, List.append_nil]
  · have hlast : (store s sw1).buf got.length = sw1 := by
      simp only [store, h.index, Function.update_self]
    have hne : got.length ≠ got.length + 1 := by omega
    rw [hbuf, contents_succ, contents_update _ le_rfl, contents_succ, h.got_store, hlast,
      Function.update_self, List.append_assoc]
    rfl

/-! ## A whole exchange -/

/-- What a conforming stream makes of an exchange. -/
theorem exchange_spec (hb : 16 ≤ bits) {n r left : Nat} {stream data : List Byte} {sw1 sw2 : Byte}
    (hc : Conforming c.ins n r stream left data sw1 sw2) :
    ∀ (s : Slot) (got : List Byte), Awaiting s c n got 0 → got.length + r = c.le →
      (stream.foldl (feed bits) s).ended = some (got.length + data.length + 2) ∧
      (stream.foldl (feed bits) s).sent = c.hdr ++ c.data.take (c.data.length - left) ∧
      contents (stream.foldl (feed bits) s).buf (got.length + data.length + 2) =
        got ++ data ++ [sw1, sw2] := by
  induction hc with
  | status sw2 hsw =>
    intro s got h _
    obtain ⟨h1, h2, h3⟩ := feed_status hb h hsw sw2
    exact ⟨by simpa using h1, by simpa [h.sent] using h2, by simpa using h3⟩
  | null _ ih => exact fun s got h hr => ih _ _ (feed_null hb h) hr
  | sendAll hv hn _ ih => exact fun s got h hr => ih _ _ (feed_sendAll hb h hv hn) hr
  | sendOne hv _ ih => exact fun s got h hr => ih _ _ (feed_sendOne hb h hv) hr
  | recvAll block hv _ ih =>
    intro s got h hr
    have hblock := feed_block bits block _ _ (feed_recvAll hb h hv hr)
    have := ih _ _ hblock (by simpa using hr)
    simpa [Nat.add_assoc] using this
  | recvOne b hv _ ih =>
    intro s got h hr
    have := ih _ _ (feed_data bits (feed_recvOne hb h hv (by omega)) b) (by simp; omega)
    simpa [Nat.add_assoc, Nat.add_comm, Nat.add_left_comm] using this

/-! ## Commands as they are parsed -/

/-- What `ifd_t0_xfr_parse` leaves behind when it accepts a command. -/
structure Parsed (s0 s : Slot) (nc : Nat) : Prop where
  lens : s.t0.nc = s.t0.lc + 5 ∧ s.t0.ne = s.t0.le + 2
  bounds : s.t0.lc ≤ 255 ∧ s.t0.le ≤ 256
  start : s.t0.tx = 0 ∧ s.t0.rx = 0
  line : s.sent = s0.sent ∧ s.ended = s0.ended
  buf : s.buf = if nc = 4 then Function.update s0.buf 4 0 else s0.buf
  length : 4 ≤ nc

theorem xchgInit_parsed {apdu : Bool} {s0 s : Slot} {nc : Nat} (h : xchgInit apdu s0 nc = .ok s) :
    Parsed s0 s nc := by
  have hbyte : ∀ b : Byte, b.toNat ≤ 255 := fun b => by
    have := b.isLt
    omega
  have hle : ∀ b : Byte, leOf b ≤ 256 := fun b => by
    have := b.isLt
    unfold leOf
    split <;> omega
  unfold xchgInit at h
  cases apdu with
  | true =>
    simp only [if_true, xfrParse] at h
    split_ifs at h with h1 h2 h3 h4 h5 <;>
      simp only [Except.map, Except.ok.injEq, reduceCtorEq] at h <;> subst h
    · exact ⟨⟨rfl, rfl⟩, ⟨by simp, by simp⟩, ⟨rfl, rfl⟩, ⟨rfl, rfl⟩, by simp [h2], by omega⟩
    · exact ⟨⟨rfl, rfl⟩, ⟨by simp, hle _⟩, ⟨rfl, rfl⟩, ⟨rfl, rfl⟩, by simp [h2], by omega⟩
    · exact ⟨⟨rfl, rfl⟩, ⟨hbyte _, hle _⟩, ⟨rfl, rfl⟩, ⟨rfl, rfl⟩, by simp [h2], by omega⟩
    · exact ⟨⟨rfl, rfl⟩, ⟨hbyte _, by simp⟩, ⟨rfl, rfl⟩, ⟨rfl, rfl⟩, by simp [h2], by omega⟩
  | false =>
    simp only [Bool.false_eq_true, if_false, xfrParseTpdu] at h
    split_ifs at h with h1 h2 h3 <;>
      simp only [Except.map, Except.ok.injEq, reduceCtorEq] at h <;> subst h
    · exact ⟨⟨rfl, rfl⟩, ⟨by simp, hle _⟩, ⟨rfl, rfl⟩, ⟨rfl, rfl⟩, (if_neg (by omega)).symm, by omega⟩
    · exact ⟨⟨rfl, rfl⟩, ⟨hbyte _, by simp⟩, ⟨rfl, rfl⟩, ⟨rfl, rfl⟩, (if_neg (by omega)).symm, by omega⟩

/-- The first five bytes of the buffer are the header. -/
theorem Parsed.header {s0 s : Slot} {c : List Byte} (h : Parsed s0 s c.length) (hs : Stored s0.buf c) :
    contents s.buf 5 = header c := by
  have hlen := h.length
  have h4 : s.buf 4 = c.getD 4 0 := by
    rw [h.buf]
    by_cases h4 : c.length = 4
    · rw [if_pos h4, Function.update_self, List.getD_eq_default _ _ (by omega)]
    · rw [if_neg h4, hs 4 (by omega), List.getD_eq_getElem _ _ (by omega), List.get_eq_getElem]
  have hlow : ∀ i (hi : i < 4), s.buf i = c.get ⟨i, by omega⟩ := by
    intro i hi
    rw [h.buf, ← hs i]
    split
    · exact Function.update_of_ne (by omega) _ _
    · rfl
  rw [contents_succ, IfdT0.header, h4]
  congr 1
  refine List.ext_getElem (by simp; omega) fun i h1 h2 => ?_
  have hi : i < 4 := by simpa using h1
  simp only [contents, List.getElem_map, List.getElem_range, List.getElem_take, hlow i hi, List.get_eq_getElem]

/-- The engine waits for the first procedure byte when the header is out. -/
theorem Parsed.awaiting {s0 s : Slot} {c : List Byte} (h : Parsed s0 s c.length) (hs : Stored s0.buf c)
    (hsent : s0.sent = []) (hended : s0.ended = none) (hd : s.t0.lc = 0 ∨ s.t0.lc + 5 ≤ c.length) :
    Awaiting (xchgAval s) ⟨IfdT0.header c, (c.drop 5).take s.t0.lc, s.t0.ins, s.t0.le⟩ s.t0.lc [] 0 := by
  have hlen : ((c.drop 5).take s.t0.lc).length = s.t0.lc := by
    rw [List.length_take, List.length_drop]
    omega
  obtain ⟨htx, hrx⟩ := h.start
  refine ⟨rfl, rfl, rfl, ?_, ?_, h.lens.2, ?_, ?_, ?_, rfl, Nat.zero_le _, ?_, rfl, ?_, ?_, ?_, ?_,
    h.bounds.2⟩
  · exact h.line.2.trans hended
  · change s.t0.nc = ((c.drop 5).take s.t0.lc).length + 5
    rw [hlen, h.lens.1]
  · change s.t0.tx + 5 + s.t0.lc = s.t0.nc
    rw [htx, h.lens.1]
    omega
  · change s.t0.rx + 1 = 0 + 1 + 0
    rw [hrx]
  · change s.t0.rx + 0 = 0
    rw [hrx]
  · exact fun _ => ⟨rfl, rfl⟩
  · intro i hi _
    rw [hlen] at hi
    have hbuf : s.buf (5 + i) = s0.buf (5 + i) := by
      rw [h.buf, if_neg (by omega)]
    change s.buf (5 + i) = _
    rw [hbuf, hs (5 + i) (by omega)]
    simp
  · change s.sent ++ _ = _
    rw [h.line.1, hsent, hlen, Nat.sub_self, List.take_zero, List.append_nil, List.nil_append,
      ← h.header hs]
    change (List.range 5).map (fun i => s.buf (s.t0.tx + i)) = _
    simp only [htx, Nat.zero_add]
    rfl
  · rw [hlen]
  · rw [hlen]
    exact h.bounds.1

/-- A command that is accepted and whose data field is present, and a card that conforms: the
engine sends the header and the command bytes the card asks for (all but the last `left`),
each once and in order, and ends with the card's data and status in the buffer and their
number as the length. -/
theorem exchange_transparent (apdu : Bool) (s0 : Slot) {s : Slot} {c stream data : List Byte} {left : Nat}
    {sw1 sw2 : Byte} (hb : bits = 16 ∨ bits = 32) (hs : Stored s0.buf c) (hsent : s0.sent = [])
    (hended : s0.ended = none) (hp : xchgInit apdu s0 c.length = .ok s)
    (hd : s.t0.lc = 0 ∨ s.t0.lc + 5 ≤ c.length)
    (hc : Conforming s.t0.ins s.t0.lc s.t0.le stream left data sw1 sw2) :
    (exchange bits s stream).sent = header c ++ (c.drop 5).take (s.t0.lc - left) ∧
      (exchange bits s stream).ended = some (data.length + 2) ∧
      contents (exchange bits s stream).buf (data.length + 2) = data ++ [sw1, sw2] := by
  have hbits : 16 ≤ bits := by omega
  have hparsed := xchgInit_parsed hp
  have hlen : ((c.drop 5).take s.t0.lc).length = s.t0.lc := by
    rw [List.length_take, List.length_drop]
    omega
  obtain ⟨h1, h2, h3⟩ := exchange_spec hbits hc (c := ⟨header c, (c.drop 5).take s.t0.lc, _, _⟩) _ _
    (hparsed.awaiting hs hsent hended hd) (by simp)
  refine ⟨?_, by simpa [exchange] using h1, by simpa [exchange] using h3⟩
  rw [exchange, h2, hlen, List.take_take, Nat.min_eq_left (Nat.sub_le _ _)]

/-- A SELECT with two bytes of data: the card asks for time, for the first byte and for the
rest, and answers `9000`. -/
theorem exchange_transparent_select :
    ∃ s, xchgInit true ⟨fun i => [0x00, 0xA4, 0x04, 0x00, 0x02, 0x3F, 0x01].getD i 0,
        ⟨true, 0, 0, 0, 0, 0, 0, 0⟩, ⟨0, 0, 0, 0, 0⟩, [], none⟩ 7 = .ok s ∧
      (exchange 16 s [0x60, 0x5B, 0xA4, 0x90, 0x00]).sent = [0x00, 0xA4, 0x04, 0x00, 0x02, 0x3F, 0x01] ∧
      (exchange 16 s [0x60, 0x5B, 0xA4, 0x90, 0x00]).ended = some 2 ∧
      contents (exchange 16 s [0x60, 0x5B, 0xA4, 0x90, 0x00]).buf 2 = [0x90, 0x00] := by
  refine ⟨_, rfl, ?_⟩
  have hv : ValidIns 0xA4 := ⟨by decide, by decide⟩
  have hc : Conforming 0xA4 2 0 [0x60, 0x5B, 0xA4, 0x90, 0x00] 0 [] 0x90 0x00 :=
    .null (.sendOne hv (.sendAll hv (by decide) (.status 0x00 ⟨by decide, by decide⟩)))
  exact exchange_transparent true (s := ⟨fun i => [0x00, 0xA4, 0x04, 0x00, 0x02, 0x3F, 0x01].getD i 0,
    ⟨true, 0xA4, 2, 0, 7, 2, 0, 0⟩, ⟨0, 0, 0, 0, 0⟩, [], none⟩) (c := [0x00, 0xA4, 0x04, 0x00, 0x02, 0x3F, 0x01])
    ⟨fun i => [0x00, 0xA4, 0x04, 0x00, 0x02, 0x3F, 0x01].getD i 0,
      ⟨true, 0, 0, 0, 0, 0, 0, 0⟩, ⟨0, 0, 0, 0, 0⟩, [], none⟩ (.inl rfl) (by unfold Stored; decide) rfl rfl
    rfl (.inr (by decide)) hc

end Sdfirm.IfdT0
