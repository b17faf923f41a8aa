import Sdfirm.Proof.IfdT0.Bounds

/-!
# The T=0 engine and any command

`Sending` is what holds while command bytes are left: they are in the buffer
as they were written, because all bytes of the card go to its start.
`Silent` is what holds afterwards, and then no byte is sent any more.
`exchange_sent` says which bytes an exchange has sent, whatever the card
answers; `commands_sound_iff` compares them with the command.
-/

namespace Sdfirm.IfdT0

variable {bits lc send nc : Nat} {s s0 : Slot} {b : Byte} {buf : Nat → Byte} {hdr : List Byte}

/-! ## Nothing is sent any more -/

/-- The status is coming in, or the whole command has been sent. -/
def Silent (bits : Nat) (s : Slot) : Prop := s.t0.cmpl = true ∨ s.t0.nc ≤ s.t0.tx ∧ s.t0.tx < 2 ^ bits

theorem neExpireProc_silent (hle : s.t0.nc ≤ s.t0.tx) (hlt : s.t0.tx < 2 ^ bits) :
    (neExpireProc bits s).xfr.nc = 0 ∧ (neExpireProc bits s).sent = s.sent ∧
      (neExpireProc bits s).t0.nc = s.t0.nc ∧ (neExpireProc bits s).t0.tx = s.t0.tx := by
  have htx : (s.t0.tx + 0) % 2 ^ bits = s.t0.tx := Nat.mod_eq_of_lt hlt
  have hsend : ¬ (rxBack bits s).t0.tx < (rxBack bits s).t0.nc := not_lt.2 hle
  unfold neExpireProc
  simp only [if_neg hsend]
  split_ifs <;> exact ⟨rfl, rfl, rfl, htx⟩

theorem Silent.feed (h : Silent bits s) (b : Byte) :
    (feed bits s b).sent = s.sent ∧ Silent bits (feed bits s b) := by
  by_cases hr : Reads s
  · obtain hlast | hlast : s.xfr.rx + 1 < s.xfr.ne ∨ s.xfr.rx + 1 = s.xfr.ne := by
      have := hr.2
      omega
    · rw [feed_inner hr.1 hlast]
      exact ⟨rfl, h⟩
    · by_cases hc : s.t0.cmpl = true
      · have hend : IfdT0.feed bits s b = neExpireCmpl (store s b) := by
          have hexp : neExpire bits (store s b) = neExpireCmpl (store s b) := if_pos hc
          rw [feed_end hr.1 hlast, hexp]
          rfl
        rw [hend]
        exact ⟨rfl, .inl hc⟩
      · obtain ⟨hle, hlt⟩ := h.resolve_left hc
        rw [feed_proc hr.1 (Bool.eq_false_of_not_eq_true hc) hlast]
        obtain ⟨hnc, hsent, hnc', htx⟩ := neExpireProc_silent (s := store s b) hle hlt
        refine ⟨?_, .inr ⟨?_, ?_⟩⟩
        · change (neExpireProc bits (store s b)).sent ++ _ = _
          rw [hsent, hnc]
          exact List.append_nil _
        · change (neExpireProc bits (store s b)).t0.nc ≤ (neExpireProc bits (store s b)).t0.tx
          rw [hnc', htx]
          exact hle
        · change (neExpireProc bits (store s b)).t0.tx < 2 ^ bits
          rw [htx]
          exact hlt
  · rw [feed_of_not_reads hr]
    exact ⟨rfl, h⟩

theorem Silent.run (h : Silent bits s) (stream : List Byte) : (stream.foldl (IfdT0.feed bits) s).sent = s.sent := by
  induction stream generalizing s with
  | nil => rfl
  | cons b stream ih =>
    obtain ⟨hsent, hs⟩ := h.feed b
    exact (ih hs).trans hsent

/-! ## The command goes out -/

/-- The `lc` bytes of the data field but the last `send` have been sent after the header `hdr`, and
the rest of them is in the buffer. -/
structure Sending (buf : Nat → Byte) (hdr : List Byte) (lc : Nat) (s : Slot) (send : Nat) : Prop where
  counting : Counting s send 0 0
  le : send ≤ lc
  total : s.t0.nc = lc + 5
  rest : ∀ i, 5 ≤ i → s.buf i = buf i
  sent : s.sent = hdr ++ (List.range (lc - send)).map fun i => buf (5 + i)

theorem Sending.silent (hb : 16 ≤ bits) (h : Sending buf hdr lc s 0) : Silent bits s := by
  have htx := h.counting.tx
  have hnc := h.counting.cmdShort
  exact .inr ⟨by omega, lt_two_pow hb (by omega)⟩

theorem Sending.rest_store (h : Sending buf hdr lc s send) : ∀ i, 5 ≤ i → (store s b).buf i = buf i := by
  intro i hi
  have hpos := h.counting.pos
  have hne : i ≠ (s.xfr.rxStart + s.xfr.rx) % 2 ^ 32 := by omega
  exact (Function.update_of_ne hne _ _).trans (h.rest i hi)

/-- The next `m` bytes go out. -/
theorem Sending.block (hb : 16 ≤ bits) (h : Sending buf hdr lc s send) {m : Nat} (hm : m ≤ send) :
    Sending buf hdr lc (transmit (xfrBlock bits (rxBack bits (store s b)) m 1)) (send - m) := by
  have htx := h.counting.tx
  have htotal := h.total
  have hle := h.le
  refine ⟨h.counting.block (j := 0) hb hm (Nat.zero_le _), by omega, htotal, h.rest_store, ?_⟩
  change s.sent ++ (List.range m).map (fun i => (store s b).buf (s.t0.tx + i)) = _
  have hmap : (List.range m).map (fun i => (store s b).buf (s.t0.tx + i)) =
      (List.range m).map fun i => buf (5 + (lc - send + i)) := by
    refine List.map_congr_left fun i _ => ?_
    rw [h.rest_store _ (by omega), show s.t0.tx + i = 5 + (lc - send + i) by omega]
  rw [hmap, h.sent, List.append_assoc, show lc - (send - m) = lc - send + m by omega, List.range_add,
    List.map_append, List.map_map]
  rfl

/-- A byte of the card that is neither NULL nor a status byte makes at least one byte go out. -/
theorem Sending.feed_proc (hb : 16 ≤ bits) (h : Sending buf hdr lc s send) (hsend : 0 < send)
    (hv : (sw1_6x b || sw1_9x b) = false) : ∃ n < send, Sending buf hdr lc (feed bits s b) n := by
  rw [h.counting.proc hv, if_pos hsend, if_pos hsend]
  split
  · exact ⟨send - send, by omega, h.block hb le_rfl⟩
  · exact ⟨send - 1, by omega, h.block hb hsend⟩

theorem Sending.feed_null (hb : 16 ≤ bits) (h : Sending buf hdr lc s send) :
    Sending buf hdr lc (feed bits s 0x60) send := by
  have hproc : neExpireProc bits (store s 0x60) = xfrBlock bits (rxBack bits (store s 0x60)) 0 1 := by
    simp only [neExpireProc, readLast_store h.counting.last]
    rfl
  rw [IfdT0.feed_proc h.counting.running h.counting.notCmpl h.counting.last, hproc]
  exact h.block hb (Nat.zero_le send)

theorem Sending.feed_status (h : Sending buf hdr lc s send) (h60 : b ≠ 0x60) (hsw : (sw1_6x b || sw1_9x b) = true) :
    (feed bits s b).sent = s.sent ∧ Silent bits (feed bits s b) := by
  have hproc : neExpireProc bits (store s b) =
      { xfrBlock bits (store s b) 0 1 with
        t0 := { (xfrBlock bits (store s b) 0 1).t0 with cmpl := true } } := by
    simp only [neExpireProc, readLast_store h.counting.last, hsw, if_true, if_neg h60]
  rw [IfdT0.feed_proc h.counting.running h.counting.notCmpl h.counting.last, hproc]
  exact ⟨List.append_nil _, .inl rfl⟩

/-- Whatever the card sends, the bytes after the header are the first ones of the data field. -/
theorem Sending.run (hb : 16 ≤ bits) (h : Sending buf hdr lc s send) (stream : List Byte) :
    ∃ j ≤ lc, (stream.foldl (feed bits) s).sent = hdr ++ (List.range j).map fun i => buf (5 + i) := by
  induction stream generalizing s send with
  | nil => exact ⟨lc - send, Nat.sub_le _ _, h.sent⟩
  | cons b stream ih =>
    by_cases h60 : b = 0x60
    · subst h60
      exact ih (h.feed_null hb)
    by_cases hsw : (sw1_6x b || sw1_9x b) = true
    · obtain ⟨hsent, hs⟩ : (feed bits s b).sent = s.sent ∧ Silent bits (feed bits s b) := h.feed_status h60 hsw
      exact ⟨lc - send, Nat.sub_le _ _, ((hs.run stream).trans hsent).trans h.sent⟩
    obtain rfl | hsend := Nat.eq_zero_or_pos send
    · exact ⟨lc - 0, Nat.sub_le _ _, ((h.silent hb).run (b :: stream)).trans h.sent⟩
    · obtain ⟨n, -, hn⟩ := h.feed_proc hb hsend (Bool.eq_false_of_not_eq_true hsw)
      exact ih hn

/-- A card that goes on asking gets the whole data field. -/
theorem Sending.run_all (hb : 16 ≤ bits) (h : Sending buf hdr lc s send) {n : Nat} (hn : send ≤ n) :
    ((List.replicate n (0 : Byte)).foldl (feed bits) s).sent = hdr ++ (List.range lc).map fun i => buf (5 + i) := by
  induction n generalizing s send with
  | zero =>
    obtain rfl : send = 0 := by omega
    exact h.sent
  | succ n ih =>
    obtain rfl | hsend := Nat.eq_zero_or_pos send
    · exact ((h.silent hb).run _).trans h.sent
    · obtain ⟨m, hm, hs⟩ := h.feed_proc (b := 0) hb hsend (by decide)
      exact ih hs (by omega)

/-! ## Commands as they are parsed -/

theorem Parsed.sending (h : Parsed s0 s nc) (hsent : s0.sent = []) (hended : s0.ended = none) :
    Sending s.buf (contents s.buf 5) s.t0.lc (xchgAval s) s.t0.lc := by
  refine ⟨h.counting hended, le_rfl, h.lens.1, fun _ _ => rfl, ?_⟩
  change s.sent ++ (List.range 5).map (fun i => s.buf (s.t0.tx + i)) = _
  rw [h.line.1, hsent, h.start.1, Nat.sub_self, List.range_zero, List.map_nil, List.append_nil, List.nil_append]
  simp only [Nat.zero_add]
  rfl

theorem exchange_sent (hb : 16 ≤ bits) (h : Parsed s0 s nc) (hsent : s0.sent = []) (hended : s0.ended = none)
    (stream : List Byte) :
    ∃ j ≤ s.t0.lc, (exchange bits s stream).sent = contents s.buf 5 ++ (List.range j).map fun i => s.buf (5 + i) :=
  (h.sending hsent hended).run hb stream

theorem stored_contents (buf : Nat → Byte) (n : Nat) : Stored buf (contents buf n) := by
  intro i hi
  simp [contents]

/-- The bytes that an exchange has sent, as bytes of the command. -/
theorem Parsed.sentFrom (h : Parsed s0 s nc) {j : Nat} (hj : j ≤ s.t0.lc) (hlc : s.t0.lc = 0 ∨ 5 + s.t0.lc ≤ nc) :
    SentFrom (contents s0.buf nc) (contents s.buf 5 ++ (List.range j).map fun i => s.buf (5 + i)) := by
  have hlen : Parsed s0 s (contents s0.buf nc).length := by rwa [length_contents]
  refine ⟨j, ?_⟩
  rw [hlen.header (stored_contents _ _)]
  congr 1
  refine List.ext_getElem (by simp; omega) fun i h1 h2 => ?_
  have hi : i < j := by simpa using h1
  have hbuf : s.buf (5 + i) = s0.buf (5 + i) := by
    rw [h.buf]
    split
    · exact Function.update_of_ne (by omega) _ _
    · rfl
  simp [contents, hbuf]

theorem SentFrom.length_le {c sent : List Byte} (h : SentFrom c sent) (h5 : 5 ≤ c.length) : sent.length ≤ c.length := by
  obtain ⟨j, rfl⟩ := h
  simp [header]
  omega

/-- What `ifd_t0_xfr_parse` accepts, with the `Lc` it takes from the command. -/
theorem xfrParse_ok_iff (s : Slot) (nc : Nat) :
    (∃ s', xfrParse s nc = .ok s') ↔ nc = 4 ∨ nc = 5 ∨ 6 ≤ nc ∧ nc ≤ 6 + (s.buf 4).toNat := by
  unfold xfrParse
  simp only
  split_ifs with h1 h2 h3 h4 h5 <;> simp <;> omega

theorem xchgInit_lc {s' : Slot} (h : xchgInit true s nc = .ok s') :
    s'.t0.lc = if 6 ≤ nc then (s.buf 4).toNat else 0 := by
  unfold xchgInit at h
  simp only [if_true, xfrParse] at h
  split_ifs at h with h1 h2 h3 h4 h5 <;>
    simp only [Except.map, Except.ok.injEq, reduceCtorEq] at h <;> subst h
  · exact (if_neg (by omega)).symm
  · exact (if_neg (by omega)).symm
  · exact (if_pos (by omega)).symm
  · exact (if_pos (by omega)).symm

theorem accepts_iff (s : Slot) (nc : Nat) :
    ((∃ s', xfrParse s nc = .ok s') ↔ WellFormed s.buf nc) ↔ LengthOk s.buf nc := by
  rw [xfrParse_ok_iff]
  unfold WellFormed LengthOk
  omega

/-- The card is sent bytes of the command only, exactly if the data field is there. -/
theorem sends_iff (hb : 16 ≤ bits) {s' : Slot} (hsent : s.sent = []) (hended : s.ended = none)
    (hp : xchgInit true s nc = .ok s') :
    (∀ stream, SentFrom (contents s.buf nc) (exchange bits s' stream).sent) ↔
      (6 ≤ nc → 5 + (s.buf 4).toNat ≤ nc) := by
  have hparsed := xchgInit_parsed hp
  have hlc := xchgInit_lc hp
  constructor
  · intro h h6
    rw [if_pos h6] at hlc
    have hlen := (h (List.replicate s'.t0.lc 0)).length_le (by rw [length_contents]; omega)
    rw [exchange, (hparsed.sending hsent hended).run_all hb le_rfl] at hlen
    simp at hlen
    omega
  · intro h stream
    obtain ⟨j, hj, hs⟩ := exchange_sent hb hparsed hsent hended stream
    rw [hs]
    refine hparsed.sentFrom hj ?_
    split_ifs at hlc with h6
    · exact .inr (by have := h h6; omega)
    · exact .inl hlc

/-- Any buffer and any length: `ifd_t0_xfr_parse` accepts just the short commands and the card is
sent nothing but their bytes, exactly if the length is one that `Lc` provides for. The second
half alone fails for an accepted command exactly if its data field is cut off. -/
theorem commands_sound_iff (hb : bits = 16 ∨ bits = 32) (s : Slot) (nc : Nat) (hsent : s.sent = []) (hended : s.ended = none) :
    (Sound bits s nc ↔ LengthOk s.buf nc) ∧
      ∀ s', xchgInit true s nc = .ok s' →
        ((∀ stream, SentFrom (contents s.buf nc) (exchange bits s' stream).sent) ↔
          (6 ≤ nc → 5 + (s.buf 4).toNat ≤ nc)) := by
  have hbits : 16 ≤ bits := by omega
  refine ⟨⟨fun h => (accepts_iff s nc).1 h.accepts, fun h => ⟨(accepts_iff s nc).2 h, ?_⟩⟩,
    fun s' hp => sends_iff hbits hsent hended hp⟩
  exact fun s' stream hp => (sends_iff hbits hsent hended hp).2 (fun h6 => (h h6).1) stream

/-- VERIFY with a PIN of two bytes. -/
theorem sound_verify : Sound 16 (idle [0x00, 0x20, 0x00, 0x01, 0x02, 0x31, 0x32]) 7 :=
  (commands_sound_iff (.inl rfl) (idle [0x00, 0x20, 0x00, 0x01, 0x02, 0x31, 0x32]) 7 rfl rfl).1.2
    (by unfold LengthOk; decide)

/-- A command of six bytes whose `Lc` is 4, in a buffer that holds a PIN behind it: the card gets
three bytes of the PIN. -/
theorem not_sound_verify : ¬ Sound 16 (idle [0x00, 0x20, 0x00, 0x01, 0x04, 0x31, 0x32, 0x33, 0x34]) 6 := by
  intro h
  have hsent := h.sends _ [0x20] rfl
  exact absurd (hsent.length_le (by decide)) (by decide)

end Sdfirm.IfdT0
