import Sdfirm.Proof.IfdAtr.Parse

/-!
# How much of an answer is received

A block has at most 15 bytes (`Near`), so a reception that has taken few
bytes asks for none outside the buffer. `exists_stop` finds the point where
a reception ends, and `received_iff` says what has come in there;
`limited_iff` puts the two together.
-/

namespace Sdfirm.IfdAtr

variable {c : Config} {conv ts t0 b : Byte} {s s' s₁ : Reception} {got L p : List Byte}

/-! ## The size of a block -/

/-- The block in transfer starts among the bytes `got`, and it is a small one. -/
def Near (s : Reception) (got : List Byte) : Prop := s.rxStart ≤ got.length ∧ s.ne ≤ 15

theorem atrRequest_near (h : Waiting c s got 0) (hy : s.atr.y.toNat ≤ 15) (hk : s.atr.k.toNat ≤ 15) :
    Near (atrRequest c s) got := by
  have hpos := h.pos
  have hleft := h.left
  have hrx := h.atrRx
  have hstart : s.atr.rx ≤ got.length := by omega
  unfold atrRequest
  split_ifs with h1 h2 h3
  · exact ⟨hstart, hy⟩
  · exact ⟨hstart, hk⟩
  · exact ⟨hstart, show 1 ≤ 15 by decide⟩
  · exact ⟨show s.rxStart ≤ got.length by omega, Nat.zero_le 15⟩

theorem atrExpire_near (h : Waiting c s got 0)
    (hyk : s.atr.state = .ts ∨ s.atr.y.toNat ≤ 15 ∧ s.atr.k.toNat ≤ 15) : Near (atrExpire c conv s) got := by
  unfold atrExpire
  split
  · split_ifs with hts
    · have hpos := h.pos
      exact ⟨show s.rxStart ≤ got.length by omega, Nat.zero_le 15⟩
    · exact atrRequest_near (h.congr_atr _ rfl) (ifdAtrBytes_le _) (t0K_le _)
  · rename_i hstate
    have hk := (hyk.resolve_left (by rw [hstate]; decide)).2
    exact atrRequest_near (h.congr_atr _ rfl) (ifdAtrBytes_le _) hk
  · rename_i hts _
    obtain ⟨hy, hk⟩ := hyk.resolve_left hts
    exact atrRequest_near h hy hk

/-- A transfer that has ended takes no byte. -/
theorem feed_of_event (h : s.event ≠ none) : feed c conv s b = none :=
  if_pos (.inl (Option.isSome_iff_ne_none.2 h))

theorem feed_near (h : Inv c s got) (hn : Near s got) (he : feed c conv s b = some s') : Near s' (got ++ [b]) := by
  have hlen : (got ++ [b]).length = got.length + 1 := by rw [List.length_append, List.length_singleton]
  obtain ⟨n, hw, hyk⟩ | h | ⟨h, -⟩ := h
  · rw [hw.feed] at he
    split_ifs at he with hroom h0
    · obtain rfl := Option.some.inj he
      subst h0
      exact atrExpire_near (hw.store hroom b) hyk
    · obtain rfl := Option.some.inj he
      exact ⟨show s.rxStart ≤ _ by have := hn.1; omega, hn.2⟩
  · rw [feed_of_event (by rw [h]; exact Option.some_ne_none _)] at he
    cases he
  · rw [feed_of_event (by rw [h]; exact Option.some_ne_none _)] at he
    cases he

theorem foldlM_feed_near (h : Inv c s got) (hn : Near s got) (he : L.foldlM (feed c conv) s = some s') :
    Near s' (got ++ L) :=
  (Framework.foldlM_invariant (I := fun s got => Inv c s got ∧ Near s got)
    (fun _ _ _ _ h he => ⟨feed_inv h.1 he, feed_near h.1 h.2 he⟩) ⟨h, hn⟩ he).2

theorem reset_inv (c : Config) (s : Reception) : Inv c (reset s) [] := .inl ⟨1, reset_waiting c s, .inl rfl⟩

/-- As long as no more than `SCS_ATR_MAX` bytes have come in, the next block fits the buffer. -/
theorem receive_inside (hlen : p.length ≤ scsAtrMax) (he : receive c conv s p = some s') :
    s'.rxStart + s'.ne ≤ c.bufSize := by
  have hroom := c.bufSize_ge
  obtain ⟨hstart, hne⟩ : Near s' ([] ++ p) :=
    foldlM_feed_near (reset_inv c s) ⟨le_rfl, show 2 ≤ 15 by decide⟩ he
  rw [List.nil_append] at hstart
  unfold scsAtrMax at hlen
  omega

/-! ## Where a reception ends -/

/-- What has come in before more bytes do, and then the transfer goes on. -/
theorem receive_append {q : List Byte} (he : receive c conv s (p ++ q) = some s') :
    ∃ s₁, receive c conv s p = some s₁ ∧ (q ≠ [] → s₁.event = none) := by
  unfold receive at he
  rw [List.foldlM_append] at he
  obtain ⟨s₁, h1, h2⟩ := Option.bind_eq_some_iff.1 he
  refine ⟨s₁, h1, fun hq => ?_⟩
  obtain ⟨b, q, rfl⟩ := List.exists_cons_of_ne_nil hq
  by_contra hev
  rw [List.foldlM_cons, feed_of_event hev] at h2
  cases h2

/-- A transfer takes a byte or has ended, as long as there is room. -/
theorem Inv.takes (h : Inv c s got) (hroom : got.length < c.bufSize) (b : Byte) :
    s.event ≠ none ∨ ∃ s', feed c conv s b = some s' := by
  obtain ⟨n, hw, -⟩ | h | ⟨h, -⟩ := h
  · exact .inr ⟨_, by rw [hw.feed, if_pos hroom]⟩
  · exact .inl (by rw [h]; exact Option.some_ne_none _)
  · exact .inl (by rw [h]; exact Option.some_ne_none _)

/-- Either all bytes are taken and the transfer goes on, or it ends somewhere among them. -/
theorem exists_stop (h : Inv c s got) (hroom : got.length + L.length ≤ c.bufSize) :
    (∃ s', L.foldlM (feed c conv) s = some s' ∧ s'.event = none) ∨
      ∃ p s', p <+: L ∧ p.foldlM (feed c conv) s = some s' ∧ s'.event ≠ none := by
  induction L generalizing s got with
  | nil =>
    by_cases hev : s.event = none
    · exact .inl ⟨s, rfl, hev⟩
    · exact .inr ⟨[], s, List.nil_prefix, rfl, hev⟩
  | cons b L ih =>
    rw [List.length_cons] at hroom
    obtain hev | ⟨s₁, h1⟩ : s.event ≠ none ∨ ∃ s', feed c conv s b = some s' := h.takes (by omega) b
    · exact .inr ⟨[], s, List.nil_prefix, rfl, hev⟩
    · have hlen : (got ++ [b]).length + L.length ≤ c.bufSize := by
        rw [List.length_append, List.length_singleton]
        omega
      obtain ⟨s', h2, hev⟩ | ⟨p, s', hp, h2, hev⟩ := ih (feed_inv h h1) hlen
      · exact .inl ⟨s', by rw [List.foldlM_cons, h1]; exact h2, hev⟩
      · refine .inr ⟨b :: p, s', ?_, by rw [List.foldlM_cons, h1]; exact h2, hev⟩
        exact List.cons_prefix_cons.2 ⟨rfl, hp⟩

/-! ## The convention -/

/-- TS has been compared with the convention and accepted. -/
def Compared (s : Reception) : Prop := s.event = some .xfrCmpl ∨ s.event = none ∧ s.atr.state ≠ .ts

theorem atrRequest_compared (h : s.event = none) :
    Compared (atrRequest c s) := by
  unfold atrRequest
  split_ifs with h1 h2 h3
  · exact .inr ⟨h, show AtrState.td ≠ .ts by decide⟩
  · exact .inr ⟨h, show AtrState.tk ≠ .ts by decide⟩
  · exact .inr ⟨h, show AtrState.tck ≠ .ts by decide⟩
  · refine .inl ?_
    show (s.event <|> some .xfrCmpl) = some .xfrCmpl
    rw [h]
    rfl

theorem feed_compared (h : Compared s) (he : feed c conv s b = some s') : Compared s' := by
  obtain h | ⟨hev, hts⟩ := h
  · rw [feed_of_event (by rw [h]; exact Option.some_ne_none _)] at he
    cases he
  · unfold feed at he
    split_ifs at he
    obtain rfl := Option.some.inj he
    split_ifs
    · unfold atrExpire
      split
      · rename_i hstate
        exact absurd hstate hts
      · exact atrRequest_compared hev
      · exact atrRequest_compared hev
    · exact .inr ⟨hev, hts⟩

theorem foldlM_feed_compared (h : Compared s) (he : L.foldlM (feed c conv) s = some s') : Compared s' := by
  have hstep : ∀ (t t' : Reception) (_ : List Byte) b, Compared t → feed c conv t b = some t' → Compared t' :=
    fun _ _ _ _ h he => feed_compared h he
  exact @Framework.foldlM_invariant _ _ _ _ _ (fun t _ => Compared t) hstep [] L h he

/-- TS comes in. -/
theorem feed_reset (c : Config) (conv : Byte) (s : Reception) (ts : Byte) :
    feed c conv (reset s) ts = some (store (reset s) ts) := by
  have hroom : ([] : List Byte).length < c.bufSize := by
    have := c.bufSize_ge
    rw [List.length_nil]
    omega
  rw [(reset_waiting c s).feed, if_pos hroom, if_neg (by decide)]

/-- The first two bytes of a reception. -/
theorem receive_two (c : Config) (conv : Byte) (s : Reception) (ts t0 : Byte) :
    ∃ s₂, Waiting c s₂ [ts, t0] 0 ∧ receive c conv s (ts :: t0 :: L) =
      L.foldlM (feed c conv) (if ts ≠ conv then xchgStop s₂ .convErr else
        atrRequest c { s₂ with
          atr := { s₂.atr with k := t0K t0, tck := false, tdLast := t0, y := ifdAtrBytes t0 } }) := by
  have hroom := c.bufSize_ge
  have hw := reset_waiting c s
  have hw1 : Waiting c (store (reset s) ts) [ts] 1 := hw.store (show 0 < c.bufSize by omega) ts
  have hw2 : Waiting c (store (store (reset s) ts) t0) [ts, t0] 0 := hw1.store (show 1 < c.bufSize by omega) t0
  refine ⟨_, hw2, ?_⟩
  have h2 : feed c conv (store (reset s) ts) t0 = some (atrExpire c conv (store (store (reset s) ts) t0)) := by
    rw [hw1.feed, if_pos (show [ts].length < c.bufSize by rw [List.length_singleton]; omega), if_pos rfl]
  unfold receive
  rw [List.foldlM_cons, feed_reset, ← atrExpire_ts hw2 rfl rfl]
  show List.foldlM (feed c conv) (store (reset s) ts) (t0 :: L) = _
  rw [List.foldlM_cons, h2]
  rfl

/-- A reception that begins with the TS of the convention does not end in a convention error. -/
theorem receive_conv (he : receive c conv s p = some s') (hts : p.head? = some conv) :
    s'.event ≠ some .convErr := by
  obtain ⟨b, q, rfl⟩ : ∃ b q, p = b :: q := by
    cases p with
    | nil => cases hts
    | cons b q => exact ⟨b, q, rfl⟩
  obtain rfl : b = conv := Option.some.inj hts
  cases q with
  | nil =>
    unfold receive at he
    rw [List.foldlM_cons, feed_reset] at he
    obtain rfl := Option.some.inj he
    exact fun hev => by cases hev
  | cons t0 L =>
    obtain ⟨s₂, hw, heq⟩ := receive_two c b s b t0 (L := L)
    rw [heq, if_neg (not_not.2 rfl)] at he
    have hcmp := foldlM_feed_compared (atrRequest_compared (c := c) (s := { s₂ with
      atr := { s₂.atr with k := t0K t0, tck := false, tdLast := t0, y := ifdAtrBytes t0 } }) hw.running) he
    obtain hev | ⟨hev, -⟩ := hcmp
    · rw [hev]
      decide
    · rw [hev]
      decide

/-- A reception that begins with another byte ends after T0. -/
theorem receive_wrong (he : receive c conv s p = some s') (hts : p.head? ≠ some conv) :
    p.length ≤ 2 ∧ (s'.event = none → p.length < 2) := by
  rcases p with - | ⟨ts, - | ⟨t0, L⟩⟩
  · exact ⟨show 0 ≤ 2 by decide, fun _ => show 0 < 2 by decide⟩
  · exact ⟨show 1 ≤ 2 by decide, fun _ => show 1 < 2 by decide⟩
  · have hne : ts ≠ conv := fun h => hts (by rw [h]; rfl)
    obtain ⟨s₂, hw, heq⟩ := receive_two c conv s ts t0 (L := L)
    rw [heq, if_pos hne] at he
    have hev : (xchgStop s₂ .convErr).event = some .convErr := by
      show (s₂.event <|> some .convErr) = some .convErr
      rw [hw.running]
      rfl
    cases L with
    | nil =>
      obtain rfl := Option.some.inj he
      exact ⟨le_rfl, fun h => by rw [hev] at h; cases h⟩
    | cons b L =>
      rw [List.foldlM_cons, feed_of_event (by rw [hev]; exact Option.some_ne_none _)] at he
      cases he

/-! ## The result -/

theorem head_eq_of_isPrefix (h : p <+: L) (hp : p ≠ []) : p.head? = L.head? := by
  obtain ⟨q, rfl⟩ := h
  obtain ⟨b, p, rfl⟩ := List.exists_cons_of_ne_nil hp
  rfl

theorem Short.limited (s : Reception) (h : Short conv L) : Limited c conv s L := by
  -- it is enough to bound the bytes that are taken
  suffices hlen : ∀ p s', p <+: L → receive c conv s p = some s' →
      p.length ≤ scsAtrMax ∧ (s'.event = none → p.length < scsAtrMax) from
    ⟨fun p s' hp he => (hlen p s' hp he).2, fun p s' hp he => receive_inside (hlen p s' hp he).1 he⟩
  intro p s' hp he
  obtain h | h | ⟨a, hck, hts, ha, h⟩ := h
  · have := hp.length_le
    exact ⟨by omega, fun _ => by omega⟩
  · by_cases hnil : p = []
    · subst hnil
      exact ⟨by decide, fun _ => by decide⟩
    · obtain ⟨h1, h2⟩ := receive_wrong he (by rw [head_eq_of_isPrefix hp hnil]; exact h)
      unfold scsAtrMax
      exact ⟨by omega, fun hev => by have := h2 hev; omega⟩
  · have hbuf := c.bufSize_ge
    obtain ⟨s₁, hrec, hcmpl⟩ := (received_iff (c := c) (s := s)).2
      ⟨⟨a, hck, hts, rfl⟩, by unfold scsAtrMax at h; omega⟩
    have hev : s₁.event ≠ none := by
      rw [hcmpl]
      exact Option.some_ne_none _
    obtain hle | hle := List.prefix_or_prefix_of_prefix ha hp
    · obtain ⟨q, rfl⟩ := hle
      obtain ⟨s₂, h1, h2⟩ := receive_append he
      obtain rfl : s₁ = s₂ := Option.some.inj (hrec.symm.trans h1)
      have hq : q = [] := by
        by_contra hq
        exact hev (h2 hq)
      subst hq
      rw [List.append_nil] at he ⊢
      obtain rfl : s₁ = s' := Option.some.inj (hrec.symm.trans he)
      exact ⟨h, fun hnone => absurd hnone hev⟩
    · refine ⟨hle.length_le.trans h, fun hnone => lt_of_lt_of_le (lt_of_le_of_ne hle.length_le fun heq => ?_) h⟩
      obtain rfl := hle.eq_of_length heq
      obtain rfl : s₁ = s' := Option.some.inj (hrec.symm.trans he)
      exact hev hnone

theorem Limited.short (h : Limited c conv s L) : Short conv L := by
  have hbuf := c.bufSize_ge
  by_contra hshort
  unfold Short at hshort
  push Not at hshort
  obtain ⟨hlen, hts, hnone⟩ := hshort
  have htake : (L.take scsAtrMax).length = scsAtrMax := List.length_take_of_le hlen
  obtain ⟨s', he, hev⟩ | ⟨p, s', hp, he, hev⟩ := @exists_stop c conv _ [] (L.take scsAtrMax) (reset_inv c s)
    (by rw [htake, List.length_nil]; unfold scsAtrMax; omega)
  · have := h.stops _ s' (List.take_prefix _ _) he hev
    omega
  · have hpL : p <+: L := hp.trans (List.take_prefix _ _)
    have hp33 := hp.length_le
    have hnil : p ≠ [] := by
      rintro rfl
      obtain rfl := Option.some.inj he
      exact hev rfl
    obtain ⟨n, hw, -⟩ | hconv | ⟨hcmpl, -⟩ := foldlM_feed_inv (reset_inv c s) he
    · exact hev hw.running
    · exact receive_conv he (by rw [head_eq_of_isPrefix hpL hnil, hts]) hconv
    · obtain ⟨⟨a, hck, hats, rfl⟩, -⟩ := received_iff.1 ⟨s', he, hcmpl⟩
      have := hnone a hck hats hpL
      omega

/-- Any bytes of the card: the reception stops within `SCS_ATR_MAX` characters and asks for none
outside the buffer, exactly if the answer that the card sends is so short. -/
theorem limited_iff (c : Config) (conv : Byte) (s : Reception) (bytes : List Byte) :
    Limited c conv s bytes ↔ Short conv bytes :=
  ⟨Limited.short, Short.limited s⟩

/-- A card that announces four more interface bytes with each TD. -/
def endlessCard : List Byte := [0x3B, 0xF0] ++ (List.replicate 8 [0x00, 0x00, 0x00, 0xF0]).flatten

/-- After 33 of its characters the reception goes on. -/
theorem not_limited_endless : ¬ Limited twoProtocols 0x3B resting endlessCard := by
  intro h
  have hrun : (receive twoProtocols 0x3B resting (endlessCard.take 33)).map Reception.event = some none := by
    decide
  obtain ⟨s', he, hev⟩ := Option.map_eq_some_iff.1 hrun
  exact absurd (h.stops _ s' (List.take_prefix _ _) he hev) (by decide)

end Sdfirm.IfdAtr
