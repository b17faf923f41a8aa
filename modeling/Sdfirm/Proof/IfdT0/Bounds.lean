import Sdfirm.Proof.IfdT0.Exchange

/-!
# The T=0 engine and any card

`Counting` is what holds between two bytes of the card as long as the
response bytes it has announced fit: their number `a` is at most `Le + 1`.
`confined_iff_fits` follows a stream byte by byte, with one lemma for each
way a procedure byte is handled; `confined_iff` is the result for commands
as they are parsed.
-/

namespace Sdfirm.IfdT0

variable {cfg : Config} {bits send a k : Nat} {s : Slot} {b : Byte} {stream : List Byte}

theorem Config.le_bits (c : Config) : 16 ≤ c.bits := by
  unfold Config.bits
  split <;> omega

theorem Config.le_bufSize (c : Config) : 261 ≤ c.bufSize := by
  have := c.apduMax_ge
  unfold Config.bufSize
  split <;> omega

/-! ## Streams of which nothing is read -/

theorem Confined.inside (h : Confined cfg s stream) : Inside s := by
  cases stream with
  | nil => exact h
  | cons b stream => exact h.1

theorem feed_of_not_reads (h : ¬ Reads s) : feed bits s b = s := by
  refine if_pos ?_
  by_cases he : s.ended = none
  · exact .inr (not_lt.1 fun hlt => h ⟨he, hlt⟩)
  · exact .inl (Option.isSome_iff_ne_none.2 he)

theorem confined_of_not_reads (h : ¬ Reads s) : Confined cfg s stream ↔ Inside s := by
  induction stream with
  | nil => exact Iff.rfl
  | cons b stream ih =>
    rw [Confined, feed_of_not_reads h, ih]
    exact ⟨fun hc => hc.1, fun hi => ⟨hi, fun hr => absurd hr h, hi⟩⟩

/-! ## One byte of the card -/

/-- The exchange between two bytes of the card: `send` command bytes have not been sent, `a`
response bytes have been announced, and `k` of these are to come. -/
structure Counting (s : Slot) (send a k : Nat) : Prop where
  running : s.ended = none
  notCmpl : s.t0.cmpl = false
  tx : s.t0.tx + send = s.t0.nc
  ne : s.t0.ne = s.t0.le + 2
  rx : s.t0.rx = a + 1
  pos : s.xfr.rxStart + s.xfr.rx + k = a
  last : s.xfr.rx + 1 + k = s.xfr.ne
  room : a ≤ s.t0.le + 1
  cmdShort : s.t0.nc ≤ 260
  leShort : s.t0.le ≤ 256

theorem Counting.inside (h : Counting s send a k) : Inside s := by
  have := h.pos
  have := h.last
  have := h.room
  unfold Inside
  omega

theorem Counting.safe (cfg : Config) (h : Counting s send a k) (b : Byte) : Safe cfg s b := by
  have hpos := h.pos
  have hroom := h.room
  have hle := h.leShort
  have hbuf := cfg.le_bufSize
  refine ⟨?_, fun _ => ?_⟩
  · rw [Nat.mod_eq_of_lt (by omega)]
    omega
  · rw [h.rx, h.ne]
    omega

/-- The head of a stream only matters through the state that it leads to. -/
theorem Counting.confined_cons (h : Counting s send a k) :
    Confined cfg s (b :: stream) ↔ Confined cfg (feed cfg.bits s b) stream :=
  ⟨fun hc => hc.2.2, fun hc => ⟨h.inside, fun _ => h.safe cfg b, hc⟩⟩

theorem Counting.feed_data (h : Counting s send a (k + 1)) : Counting (feed bits s b) send a k := by
  have hpos := h.pos
  have hlast := h.last
  rw [feed_inner h.running (by omega)]
  refine ⟨h.running, h.notCmpl, h.tx, h.ne, h.rx, ?_, ?_, h.room, h.cmdShort, h.leShort⟩
  · change s.xfr.rxStart + (s.xfr.rx + 1) + k = a
    omega
  · change s.xfr.rx + 1 + 1 + k = s.xfr.ne
    omega

/-- `rx--` takes the procedure byte back. -/
theorem Counting.rxBack (hb : 16 ≤ bits) (h : Counting s send a k) : subSize bits s.t0.rx 1 = a := by
  have hrx := h.rx
  have hroom := h.room
  have hle := h.leShort
  rw [subSize_eq (by omega) (lt_two_pow hb (by omega)), hrx]
  rfl

/-- The block that follows a procedure byte: `m` command bytes go out, and `j` response bytes
are announced before the next procedure byte. -/
theorem Counting.block (hb : 16 ≤ bits) (h : Counting s send a 0) {m j : Nat} (hm : m ≤ send)
    (hj : a + j ≤ s.t0.le + 1) :
    Counting (transmit (xfrBlock bits (IfdT0.rxBack bits (store s b)) m (j + 1))) (send - m) (a + j) j := by
  have htx := h.tx
  have hnc := h.cmdShort
  have hle := h.leShort
  refine ⟨h.running, h.notCmpl, ?_, h.ne, ?_, ?_, ?_, hj, hnc, hle⟩
  · change (s.t0.tx + m) % 2 ^ bits + (send - m) = s.t0.nc
    rw [Nat.mod_eq_of_lt (lt_two_pow hb (by omega))]
    omega
  · change (subSize bits s.t0.rx 1 + (j + 1)) % 2 ^ bits = a + j + 1
    rw [h.rxBack hb, Nat.mod_eq_of_lt (lt_two_pow hb (by omega))]
    omega
  · change subSize bits s.t0.rx 1 + 0 + j = a + j
    rw [h.rxBack hb]
    omega
  · change 0 + 1 + j = j + 1
    omega

/-- How a procedure byte that is not a status byte is handled. -/
theorem Counting.proc (h : Counting s send a 0) (hv : (sw1_6x b || sw1_9x b) = false) :
    feed bits s b = transmit (
      if b = s.t0.ins then
        if 0 < send then xfrBlock bits (IfdT0.rxBack bits (store s b)) send 1
        else xfrBlock bits (IfdT0.rxBack bits (store s b)) 0
          (subSize bits (s.t0.ne - 1) (subSize bits s.t0.rx 1))
      else if 0 < send then xfrBlock bits (IfdT0.rxBack bits (store s b)) 1 1
      else xfrBlock bits (IfdT0.rxBack bits (store s b)) 0 2) := by
  have htx := h.tx
  have hsend : s.t0.tx < s.t0.nc ↔ 0 < send := by omega
  have hall : s.t0.nc - s.t0.tx = send := by omega
  have hxor : b ^^^ s.t0.ins = 0 ↔ b = s.t0.ins := BitVec.xor_eq_zero_iff
  rw [feed_proc h.running h.notCmpl h.last]
  congr 1
  have hproc : neExpireProc bits (store s b) =
      if b ^^^ s.t0.ins ≠ 0 then
        if s.t0.tx < s.t0.nc then xfrBlock bits (IfdT0.rxBack bits (store s b)) 1 1
        else xfrBlock bits (IfdT0.rxBack bits (store s b)) 0 2
      else
        if s.t0.tx < s.t0.nc then
          xfrBlock bits (IfdT0.rxBack bits (store s b)) (s.t0.nc - s.t0.tx) 1
        else xfrBlock bits (IfdT0.rxBack bits (store s b)) 0
          (subSize bits (s.t0.ne - 1) (subSize bits s.t0.rx 1)) := by
    simp only [neExpireProc, readLast_store h.last, hv, Bool.false_eq_true, if_false]
    rfl
  rw [hproc, hall]
  simp only [hsend, hxor, ne_eq, ite_not]

theorem Counting.feed_null (hb : 16 ≤ bits) (h : Counting s send a 0) :
    Counting (feed bits s 0x60) send a 0 := by
  have hproc : neExpireProc bits (store s 0x60) = xfrBlock bits (IfdT0.rxBack bits (store s 0x60)) 0 1 := by
    simp only [neExpireProc, readLast_store h.last]
    rfl
  rw [feed_proc h.running h.notCmpl h.last, hproc]
  exact h.block hb (Nat.zero_le send) h.room

/-- SW1 is followed by one more byte, and then the exchange is over. -/
theorem Counting.feed_status (h : Counting s send a 0) (h60 : b ≠ 0x60) (hsw : (sw1_6x b || sw1_9x b) = true) :
    Confined cfg (feed cfg.bits s b) stream ↔ a ≤ s.t0.le := by
  have hrx := h.rx
  have hroom := h.room
  have hle := h.leShort
  have hbuf := cfg.le_bufSize
  have hproc : neExpireProc cfg.bits (store s b) =
      { xfrBlock cfg.bits (store s b) 0 1 with
        t0 := { (xfrBlock cfg.bits (store s b) 0 1).t0 with cmpl := true } } := by
    simp only [neExpireProc, readLast_store h.last, hsw, if_true, if_neg h60]
  rw [feed_proc h.running h.notCmpl h.last, hproc]
  generalize hs : transmit _ = s'
  have hxfr : s'.xfr = ⟨s.t0.tx, 0, a + 1, 1, 0⟩ := by
    rw [← hs, ← hrx]
    rfl
  have hcmpl : s'.t0.cmpl = true := by rw [← hs]; rfl
  have hrun : s'.ended = none := by rw [← hs]; exact h.running
  have hle' : s'.t0.le = s.t0.le := by rw [← hs]; rfl
  have hin : Inside s' ↔ a ≤ s.t0.le := by
    rw [Inside, hxfr, hle']
    change a + 1 + 1 ≤ s.t0.le + 2 ↔ _
    omega
  cases stream with
  | nil => exact hin
  | cons sw2 stream =>
    have hend : feed cfg.bits s' sw2 = neExpireCmpl (store s' sw2) := by
      have hexp : neExpire cfg.bits (store s' sw2) = neExpireCmpl (store s' sw2) := if_pos hcmpl
      rw [feed_end hrun (by rw [hxfr]), hexp]
      rfl
    have hdone : ¬ Reads (neExpireCmpl (store s' sw2)) := fun hr => by
      have := hr.1
      exact absurd this (Option.some_ne_none _)
    have hsafe : Safe cfg s' sw2 := by
      refine ⟨?_, fun hask => ?_⟩
      · rw [hxfr]
        change (a + 1 + 0) % 2 ^ 32 < cfg.bufSize
        rw [Nat.mod_eq_of_lt (by omega)]
        omega
      · rw [hask.1] at hcmpl
        exact absurd hcmpl Bool.false_ne_true
    rw [Confined, hend, confined_of_not_reads hdone]
    exact ⟨fun hc => hin.1 hc.1, fun ha => ⟨hin.2 ha, fun _ => hsafe, hin.2 ha⟩⟩

/-- `INS` when all command bytes are sent: the response bytes that are left of `Le`, or a block
of length 0 if one too many was announced. -/
theorem Counting.feed_rest (hb : 16 ≤ bits) (h : Counting s 0 a 0) (hv : (sw1_6x b || sw1_9x b) = false)
    (hins : b = s.t0.ins) :
    a ≤ s.t0.le ∧ Counting (feed bits s b) 0 s.t0.le (s.t0.le - a) ∨
      a = s.t0.le + 1 ∧ ¬ Reads (feed bits s b) ∧ Inside (feed bits s b) := by
  have hne := h.ne
  have hroom := h.room
  have hle := h.leShort
  have hlen : subSize bits (s.t0.ne - 1) (subSize bits s.t0.rx 1) = s.t0.le + 1 - a := by
    rw [h.rxBack hb, subSize_eq (by omega) (lt_two_pow hb (by omega)), hne]
    rfl
  rw [h.proc hv, if_pos hins, if_neg (Nat.lt_irrefl 0), hlen]
  by_cases ha : a ≤ s.t0.le
  · have hblock := h.block (b := b) (m := 0) (j := s.t0.le - a) hb le_rfl (by omega)
    rw [show s.t0.le - a + 1 = s.t0.le + 1 - a by omega, show a + (s.t0.le - a) = s.t0.le by omega] at hblock
    exact .inl ⟨ha, hblock⟩
  · refine .inr ⟨by omega, fun hr => ?_, ?_⟩
    · have hlt : 0 < s.t0.le + 1 - a := hr.2
      omega
    · change subSize bits s.t0.rx 1 + (s.t0.le + 1 - a) ≤ s.t0.le + 2
      rw [h.rxBack hb]
      omega

/-- Another procedure byte when all command bytes are sent: one more response byte. -/
theorem Counting.feed_one (hb : 16 ≤ bits) (h : Counting s 0 a 0) (hv : (sw1_6x b || sw1_9x b) = false)
    (hins : b ≠ s.t0.ins) :
    a ≤ s.t0.le ∧ Counting (feed bits s b) 0 (a + 1) 1 ∨ a = s.t0.le + 1 ∧ ¬ Inside (feed bits s b) := by
  have hroom := h.room
  rw [h.proc hv, if_neg hins, if_neg (Nat.lt_irrefl 0)]
  by_cases ha : a ≤ s.t0.le
  · exact .inl ⟨ha, h.block (m := 0) (j := 1) hb le_rfl (by omega)⟩
  · refine .inr ⟨by omega, fun hin => ?_⟩
    have hle : subSize bits s.t0.rx 1 + 2 ≤ s.t0.le + 2 := hin
    rw [h.rxBack hb] at hle
    omega

/-- A procedure byte while command bytes are left. -/
theorem Counting.feed_send (hb : 16 ≤ bits) (h : Counting s send a 0) (hv : (sw1_6x b || sw1_9x b) = false)
    (hsend : 0 < send) : Counting (feed bits s b) (if b = s.t0.ins then 0 else send - 1) a 0 := by
  rw [h.proc hv, if_pos hsend, if_pos hsend]
  split
  · have hblock := h.block (b := b) (m := send) (j := 0) hb le_rfl h.room
    rwa [Nat.sub_self] at hblock
  · exact h.block (m := 1) (j := 0) hb hsend h.room

/-! ## A whole stream -/

/-- The command stays what it is while its response comes in. -/
theorem Counting.feed_command (h : Counting s send a k) (b : Byte) :
    (feed bits s b).t0.ins = s.t0.ins ∧ (feed bits s b).t0.le = s.t0.le := by
  cases k with
  | succ k =>
    rw [feed_inner h.running (by have := h.last; omega)]
    exact ⟨rfl, rfl⟩
  | zero =>
    rw [feed_proc h.running h.notCmpl h.last]
    change (neExpireProc bits (store s b)).t0.ins = _ ∧ (neExpireProc bits (store s b)).t0.le = _
    unfold neExpireProc
    simp only
    split_ifs <;> exact ⟨rfl, rfl⟩

theorem confined_iff_fits (h : Counting s send a k) :
    Confined cfg s stream ↔ Fits s.t0.ins send (s.t0.le + 1 - a) k stream := by
  induction stream generalizing s send a k with
  | nil => exact ⟨fun _ => by rw [Fits]; trivial, fun _ => h.inside⟩
  | cons b stream ih =>
    have hb := cfg.le_bits
    have hroom := h.room
    obtain ⟨hins, hle⟩ : (feed cfg.bits s b).t0.ins = s.t0.ins ∧ (feed cfg.bits s b).t0.le = s.t0.le := h.feed_command b
    rw [h.confined_cons]
    cases k with
    | succ k => rw [Fits, ih h.feed_data, hins, hle]
    | zero =>
      rw [Fits]
      by_cases h60 : b = 0x60
      · subst h60
        rw [if_pos rfl, ih (h.feed_null hb), hins, hle]
      rw [if_neg h60]
      by_cases hsw : (sw1_6x b || sw1_9x b) = true
      · rw [if_pos hsw, h.feed_status h60 hsw]
        omega
      rw [if_neg hsw]
      have hv := Bool.eq_false_of_not_eq_true hsw
      by_cases hsend : 0 < send
      · rw [if_pos hsend, ih (h.feed_send hb hv hsend), hins, hle]
      rw [if_neg hsend]
      obtain rfl : send = 0 := by omega
      by_cases hi : b = s.t0.ins
      · rw [if_pos hi]
        obtain ⟨ha, hc⟩ | ⟨ha, hr, hin⟩ := h.feed_rest hb hv hi
        · rw [ih hc, hins, hle, show s.t0.le + 1 - s.t0.le = 1 by omega,
            show s.t0.le - a = s.t0.le + 1 - a - 1 by omega]
          exact ⟨fun hf _ => hf, fun hf => hf (by omega)⟩
        · rw [confined_of_not_reads hr]
          exact ⟨fun _ hlt => by omega, fun _ => hin⟩
      · rw [if_neg hi]
        obtain ⟨ha, hc⟩ | ⟨ha, hin⟩ := h.feed_one hb hv hi
        · rw [ih hc, hins, hle, show s.t0.le + 1 - (a + 1) = s.t0.le + 1 - a - 1 by omega]
          exact ⟨fun hf => ⟨by omega, hf⟩, fun hf => hf.2⟩
        · exact ⟨fun hc => absurd hc.inside hin, fun hf => by omega⟩

/-! ## Commands as they are parsed -/

theorem Parsed.counting {s0 : Slot} {nc : Nat} (h : Parsed s0 s nc) (hended : s0.ended = none) :
    Counting (xchgAval s) s.t0.lc 0 0 := by
  obtain ⟨hnc, hne⟩ := h.lens
  obtain ⟨hlc, hle⟩ := h.bounds
  obtain ⟨htx, hrx⟩ := h.start
  refine ⟨h.line.2.trans hended, rfl, ?_, hne, ?_, ?_, rfl, Nat.zero_le _, ?_, hle⟩
  · change s.t0.tx + 5 + s.t0.lc = s.t0.nc
    omega
  · change s.t0.rx + 1 = 0 + 1
    omega
  · change s.t0.rx + 0 + 0 = 0
    omega
  · change s.t0.nc ≤ 260
    omega

/-- An accepted command and any bytes of the card: the engine keeps within `Le + 2` bytes, asks
for no length that has wrapped and stores nothing outside its buffer, exactly if the response
bytes that the card announces fit. -/
theorem confined_iff (c : Config) (apdu : Bool) (s0 : Slot) {s : Slot} {nc : Nat} (stream : List Byte)
    (hended : s0.ended = none) (hp : xchgInit apdu s0 nc = .ok s) :
    Confined c (xchgAval s) stream ↔ Fits s.t0.ins s.t0.lc (s.t0.le + 1) 0 stream :=
  confined_iff_fits ((xchgInit_parsed hp).counting hended)

/-- GET DATA for two bytes: the card announces one byte, then what is left, and answers `9000`. -/
theorem confined_getData :
    ∃ s, xchgInit true (idle [0x00, 0xCA, 0x00, 0x00, 0x02]) 5 = .ok s ∧
      Confined ⟨256, le_rfl, by decide⟩ (xchgAval s) [0x35, 0x01, 0xCA, 0x02, 0x90, 0x00] := by
  refine ⟨_, rfl, ?_⟩
  exact (@confined_iff ⟨256, le_rfl, by decide⟩ true (idle [0x00, 0xCA, 0x00, 0x00, 0x02]) _ 5 _ rfl rfl).2
    (by decide)

/-- GET DATA for one byte: the card announces three bytes one by one. -/
theorem not_confined_getData :
    ∃ s, xchgInit true (idle [0x00, 0xCA, 0x00, 0x00, 0x01]) 5 = .ok s ∧
      ¬ Confined ⟨256, le_rfl, by decide⟩ (xchgAval s) [0x35, 0x01, 0x35, 0x02, 0x35] := by
  refine ⟨_, rfl, fun hc => ?_⟩
  have hparsed : Parsed (idle [0x00, 0xCA, 0x00, 0x00, 0x01]) _ 5 :=
    xchgInit_parsed (rfl : xchgInit true _ 5 = .ok _)
  exact absurd ((confined_iff_fits (hparsed.counting rfl)).1 hc) (by decide)

end Sdfirm.IfdT0
