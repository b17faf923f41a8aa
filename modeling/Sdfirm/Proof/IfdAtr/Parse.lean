import Sdfirm.Proof.IfdAtr.Reception

/-!
# What the parser makes of an answer

`Reads buf p L` says that the next bytes the parser comes to are `L`. Each
function of the parser takes its bytes off `L` (`atrReadIbyte_spec`,
`atrParseIbytes_spec`, `atrParseTail_spec`). The T that it sees are those of
`announced`, and they decide whether it expects TCK and which protocols it
records. `atr_grammars_agree_iff` puts this together with the reception.
-/

namespace Sdfirm.IfdAtr

variable {c : Config} {buf : Nat → Byte} {p p' : AtrParser} {L : List Byte} {b : Byte}

/-! ## Reading -/

/-- The bytes from `len` on are `L`, and `len` does not overflow on them. -/
structure Reads (buf : Nat → Byte) (p : AtrParser) (L : List Byte) : Prop where
  taken : p.taken = p.len.toNat
  fits : p.len.toNat + L.length ≤ 255
  bytes : ∀ i (h : i < L.length), buf (p.len.toNat + i) = L.get ⟨i, h⟩

/-- The bytes `L` have been read. -/
structure Read (p : AtrParser) (L : List Byte) (p' : AtrParser) : Prop where
  taken : p'.taken = p.taken + L.length
  csum : p'.csum = L.foldl (· ^^^ ·) p.csum
  tckExists : p'.tckExists = p.tckExists
  tdLast : p'.tdLast = p.tdLast

theorem Read.refl (p : AtrParser) : Read p [] p := ⟨rfl, rfl, rfl, rfl⟩

theorem Read.trans {p'' : AtrParser} {L' : List Byte} (h : Read p L p') (h' : Read p' L' p'') : Read p (L ++ L') p'' where
  taken := by rw [h'.taken, h.taken, List.length_append, Nat.add_assoc]
  csum := by rw [h'.csum, h.csum, List.foldl_append]
  tckExists := h'.tckExists.trans h.tckExists
  tdLast := h'.tdLast.trans h.tdLast

theorem atrRead_spec (h : Reads buf p (b :: L)) :
    (atrRead buf p).1 = b ∧ Reads buf (atrRead buf p).2 L ∧ Read p [b] (atrRead buf p).2 := by
  have hb : buf p.len.toNat = b := h.bytes 0 (by simp)
  have hfits := h.fits
  rw [List.length_cons] at hfits
  have hlen : (p.len + 1).toNat = p.len.toNat + 1 := by
    rw [BitVec.toNat_add]
    exact Nat.mod_eq_of_lt (by simpa using by omega)
  refine ⟨hb, ⟨?_, ?_, ?_⟩, ⟨rfl, ?_, rfl, rfl⟩⟩
  · change p.taken + 1 = (p.len + 1).toNat
    rw [hlen, h.taken]
  · change (p.len + 1).toNat + L.length ≤ 255
    omega
  · intro i hi
    change buf ((p.len + 1).toNat + i) = _
    rw [hlen, Nat.add_assoc, Nat.add_comm 1 i]
    exact h.bytes (i + 1) (by simpa using hi)
  · simp [atrRead, hb]

theorem atrReadIf_spec {y bit : Byte} {o : Option Byte} (hbit : y &&& bit ≠ 0 ↔ o.isSome = true)
    (h : Reads buf p (o.toList ++ L)) :
    (atrReadIf buf y bit p).1 = o.getD 0 ∧ Reads buf (atrReadIf buf y bit p).2 L ∧
      Read p o.toList (atrReadIf buf y bit p).2 := by
  cases o with
  | none =>
    rw [atrReadIf, if_neg (by rw [hbit]; decide)]
    exact ⟨rfl, h, .refl p⟩
  | some b =>
    rw [atrReadIf, if_pos (hbit.2 rfl)]
    exact atrRead_spec h

/-! ## Interface bytes -/

theorem exists_td (g : Group) (o : Bool) (t : BitVec 4) :
    (tdY (g.y o ++ t) &&& taExists ≠ 0 ↔ g.ta.isSome = true) ∧
    (tdY (g.y o ++ t) &&& tbExists ≠ 0 ↔ g.tb.isSome = true) ∧
    (tdY (g.y o ++ t) &&& tcExists ≠ 0 ↔ g.tc.isSome = true) ∧
    (tdY (g.y o ++ t) &&& tdExists ≠ 0 ↔ o = true) ∧ (tdY (g.y o ++ t) = 0 ↔ g.y o = 0) := by
  rw [Group.y]
  generalize g.ta.isSome = x
  generalize g.tb.isSome = y
  generalize g.tc.isSome = z
  revert x y z o t
  decide

theorem bytes_of_y_eq_zero {g : Group} {o : Option Byte} (h : g.y o.isSome = 0) : g.bytes = [] ∧ o = none := by
  have hlen := ifdAtrBytes_td g o.isSome 0
  rw [h, show (ifdAtrBytes ((0 : BitVec 4) ++ (0 : BitVec 4))).toNat = 0 by decide] at hlen
  refine ⟨List.length_eq_zero_iff.1 (by omega), ?_⟩
  cases o with
  | none => rfl
  | some x => simp at hlen

theorem y_true_ne_zero (g : Group) : g.y true ≠ 0 := by
  intro h
  have := (bytes_of_y_eq_zero (o := some 0) h).2
  cases this

/-- A group is read, and TD if it follows. -/
theorem atrReadIbyte_spec {g : Group} {o : Option Byte} {t : BitVec 4} (htd : p.td = g.y o.isSome ++ t)
    (h : Reads buf p (g.bytes ++ o.toList ++ L)) :
    (atrReadIbyte buf p).1 = tdY p.td ∧ Reads buf (atrReadIbyte buf p).2 L ∧
      Read { p with tdLast := p.td } (g.bytes ++ o.toList) (atrReadIbyte buf p).2 ∧
      (g.y o.isSome ≠ 0 → (atrReadIbyte buf p).2.td = o.getD 0) := by
  obtain ⟨hta, htb, htc, htdx, h0⟩ := exists_td g o.isSome t
  rw [← htd] at hta htb htc htdx h0
  by_cases hy : g.y o.isSome = 0
  · obtain ⟨hg, rfl⟩ := bytes_of_y_eq_zero hy
    rw [atrReadIbyte]
    simp only [h0.2 hy, ne_eq, not_true_eq_false, if_false, hg] at h ⊢
    exact ⟨trivial, ⟨h.taken, h.fits, h.bytes⟩, .refl _, fun hne => absurd hy hne⟩
  · have h0' : tdY p.td ≠ 0 := fun h => hy (h0.1 h)
    have h1 : Reads buf { p with tdLast := p.td } (g.ta.toList ++ (g.tb.toList ++ (g.tc.toList ++ (o.toList ++ L)))) := by
      have := h.bytes
      refine ⟨h.taken, by simpa [Group.bytes] using h.fits, by simpa [Group.bytes] using this⟩
    obtain ⟨ra, h2, r1⟩ := atrReadIf_spec hta h1
    obtain ⟨rb, h3, r2⟩ := atrReadIf_spec htb h2
    obtain ⟨rc, h4, r3⟩ := atrReadIf_spec htc h3
    obtain ⟨rd, h5, r4⟩ := atrReadIf_spec htdx h4
    have hread := ((r1.trans r2).trans r3).trans r4
    rw [atrReadIbyte]
    simp only [h0', ne_eq, not_false_eq_true, if_true]
    exact ⟨trivial, ⟨h5.taken, h5.fits, h5.bytes⟩, ⟨hread.taken, hread.csum, hread.tckExists, hread.tdLast⟩,
      fun _ => rd⟩

/-! ## The protocols -/

/-- A T for which the parser expects TCK. -/
def Expects (t : BitVec 4) : Bool := t ≠ 0 ∧ t ≠ 15

/-- What the parser has noted of the T in `ts`, after `q`. -/
structure Noted (c : Config) (ts : List (BitVec 4)) (q q' : Parse) : Prop where
  first : q'.slot.firstProto = q.slot.firstProto
  protos : ∀ t : BitVec 4, q'.slot.indProtos.getLsbD t.toNat = true ↔
    q.slot.indProtos.getLsbD t.toNat = true ∨ t ∈ ts ∧ t ≠ 15 ∧ c.Registered (t.setWidth 8)

theorem Noted.refl (c : Config) (q : Parse) : Noted c [] q q := ⟨rfl, fun t => by simp⟩

theorem Noted.cons {t : BitVec 4} {ts : List (BitVec 4)} {q q' q'' : Parse} (h : Noted c [t] q q')
    (h' : Noted c ts q' q'') : Noted c (t :: ts) q q'' where
  first := h'.first.trans h.first
  protos u := by
    rw [h'.protos, h.protos, List.mem_singleton, List.mem_cons]
    tauto

theorem Noted.congr {ts : List (BitVec 4)} {q q' : Parse} (h : Noted c ts q q') {q₁ q₁' : Parse}
    (hs : q₁.slot = q.slot) (hs' : q₁'.slot = q'.slot) : Noted c ts q₁ q₁' := by
  obtain ⟨h1, h2⟩ := h
  rw [← hs, ← hs'] at h1 h2
  exact ⟨h1, h2⟩

theorem getLsbD_or_bit (x : BitVec 16) (t u : BitVec 4) :
    (x ||| (1 : BitVec 16) <<< (t.setWidth 8 : Byte).toNat).getLsbD u.toNat = true ↔ x.getLsbD u.toNat = true ∨ u = t := by
  have hbit : ∀ t u : BitVec 4, ((1 : BitVec 16) <<< (t.setWidth 8 : Byte).toNat).getLsbD u.toNat = decide (u = t) := by
    decide
  rw [BitVec.getLsbD_or, hbit, Bool.or_eq_true, decide_eq_true_eq]

theorem setWidth_eq_ifdGlobalT15 (t : BitVec 4) : t.setWidth 8 = ifdGlobalT15 ↔ t = 15 := by
  revert t
  decide

/-- `ifd_atr_parse_t` notes the T of TD. -/
theorem atrParseT_spec {q : Parse} {y t : BitVec 4} (htd : q.parser.tdLast = y ++ t) :
    (atrParseT c q).parser = { q.parser with tckExists := q.parser.tckExists || Expects t } ∧
      Noted c [t] q (atrParseT c q) := by
  have ht : tdT q.parser.tdLast = t.setWidth 8 := by rw [htd, tdT_td]
  have htck : (if q.parser.tckExists then true else decide (t.setWidth 8 ≠ scsProtoT0)) =
      (q.parser.tckExists || decide (t ≠ 0)) := by
    simp only [ne_eq, setWidth_eq_scsProtoT0]
    cases q.parser.tckExists <;> rfl
  by_cases h15 : t = 15
  · have hpar : atrParseT c q = { q with slot := atrParseGbyte15 q.parser (tdY q.parser.tdLast) q.slot } := by
      simp only [atrParseT, ht, if_pos ((setWidth_eq_ifdGlobalT15 t).2 h15)]
    rw [hpar]
    refine ⟨?_, ?_, ?_⟩
    · simp [Expects, h15]
    · simp only [atrParseGbyte15]
      split_ifs <;> rfl
    · intro u
      simp only [atrParseGbyte15, List.mem_singleton]
      split_ifs <;> simp_all
  · simp only [atrParseT, ht, if_neg (mt (setWidth_eq_ifdGlobalT15 t).1 h15), htck]
    have hexp : Expects t = decide (t ≠ 0) := decide_eq_decide.2 (and_iff_left h15)
    rw [hexp]
    split_ifs with hreg
    · refine ⟨rfl, rfl, fun u => ?_⟩
      rw [getLsbD_or_bit, List.mem_singleton]
      constructor
      · rintro (h | rfl)
        · exact .inl h
        · exact .inr ⟨rfl, h15, hreg⟩
      · rintro (h | ⟨h, -⟩)
        · exact .inl h
        · exact .inr h
    · refine ⟨rfl, rfl, fun u => ?_⟩
      rw [List.mem_singleton]
      constructor
      · exact .inl
      · rintro (h | ⟨rfl, -, h⟩)
        · exact h
        · exact absurd h hreg

/-- TD when it is there. -/
def tdOf : List (BitVec 4 × Group) → Option Byte
  | [] => none
  | (t, g) :: rest => some (g.y (!rest.isEmpty) ++ t)

/-- The interface bytes after TD. -/
def following : List (BitVec 4 × Group) → List Byte
  | [] => []
  | (_, g) :: rest => chain g rest

theorem isSome_tdOf (rest : List (BitVec 4 × Group)) : (tdOf rest).isSome = !rest.isEmpty := by
  cases rest <;> rfl

theorem chain_eq (g : Group) (rest : List (BitVec 4 × Group)) :
    chain g rest = g.bytes ++ (tdOf rest).toList ++ following rest := by
  cases rest with
  | nil => simp [chain, tdOf, following]
  | cons x rest => simp [chain, tdOf, following]

theorem atrParseIbytes_end (fuel : Nat) (q : Parse) : atrParseIbytes c buf fuel q 0 = some q := by
  cases fuel <;> exact if_pos rfl

/-- The state after one round of the loop. -/
def ibytesNext (c : Config) (buf : Nat → Byte) (q : Parse) : Parse :=
  { atrParseT c q with parser := (atrReadIbyte buf (atrParseT c q).parser).2 }

/-- One round of the loop: the T of TD is noted, and the next group is read. -/
theorem ibytesNext_spec {q : Parse} {y t t' : BitVec 4} {g : Group} {o : Option Byte}
    (hlast : q.parser.tdLast = y ++ t) (htd : q.parser.td = g.y o.isSome ++ t')
    (h : Reads buf q.parser (g.bytes ++ o.toList ++ L)) :
    (atrReadIbyte buf (atrParseT c q).parser).1 = tdY (ibytesNext c buf q).parser.tdLast ∧
      (ibytesNext c buf q).parser.tdLast = g.y o.isSome ++ t' ∧
      (g.y o.isSome ≠ 0 → (ibytesNext c buf q).parser.td = o.getD 0) ∧ Reads buf (ibytesNext c buf q).parser L ∧
      Read { q.parser with tckExists := q.parser.tckExists || Expects t, tdLast := q.parser.td } (g.bytes ++ o.toList)
        (ibytesNext c buf q).parser ∧ Noted c [t] q (ibytesNext c buf q) := by
  obtain ⟨hp, hnoted⟩ := atrParseT_spec (c := c) hlast
  have h' : Reads buf (atrParseT c q).parser (g.bytes ++ o.toList ++ L) := by
    rw [hp]
    exact ⟨h.taken, h.fits, h.bytes⟩
  have htd' : (atrParseT c q).parser.td = g.y o.isSome ++ t' := by rw [hp, htd]
  obtain ⟨h1, h2, h3, h4⟩ := atrReadIbyte_spec htd' h'
  have hlast' : (ibytesNext c buf q).parser.tdLast = g.y o.isSome ++ t' := h3.tdLast.trans htd'
  refine ⟨by rw [h1, hlast', htd'], hlast', h4, h2, ?_, hnoted.congr rfl rfl⟩
  rw [hp] at h3
  have hread : (ibytesNext c buf q).parser = (atrReadIbyte buf (atrParseT c q).parser).2 := rfl
  rw [hread, hp]
  exact h3

theorem atrParseIbytes_succ {q : Parse} {y : Byte} (hy : y ≠ 0) (fuel : Nat) :
    atrParseIbytes c buf (fuel + 1) q y =
      atrParseIbytes c buf fuel (ibytesNext c buf q) (atrReadIbyte buf (atrParseT c q).parser).1 :=
  if_neg hy

/-- The loop over the interface bytes, when TD with the first T of the list and the group after it
have been read. -/
theorem atrParseIbytes_spec {rest : List (BitVec 4 × Group)} {t : BitVec 4} {g : Group} {q : Parse} {fuel : Nat}
    (hfuel : rest.length < fuel) (hlast : q.parser.tdLast = g.y (!rest.isEmpty) ++ t)
    (htd : g.y (!rest.isEmpty) ≠ 0 → q.parser.td = (tdOf rest).getD 0)
    (h : Reads buf q.parser (following rest ++ L)) :
    ∃ q', atrParseIbytes c buf fuel q (tdY q.parser.tdLast) = some q' ∧ Reads buf q'.parser L ∧
      q'.parser.taken = q.parser.taken + (following rest).length ∧
      q'.parser.csum = (following rest).foldl (· ^^^ ·) q.parser.csum ∧
      q'.parser.tckExists = (q.parser.tckExists || (announced ((t, g) :: rest)).any Expects) ∧
      Noted c (announced ((t, g) :: rest)) q q' := by
  induction rest generalizing t g q fuel with
  | nil =>
    obtain ⟨fuel, rfl⟩ := Nat.exists_eq_succ_of_ne_zero (Nat.ne_zero_of_lt hfuel)
    by_cases hy : g.y false = 0
    · have hy' : tdY q.parser.tdLast = 0 := by
        rw [hlast]
        exact (exists_td g false t).2.2.2.2.2 hy
      refine ⟨q, by rw [hy', atrParseIbytes_end], h, rfl, rfl, ?_, ?_⟩ <;> simp [announced, hy, Noted.refl]
    · have hy' : tdY q.parser.tdLast ≠ 0 := by
        rw [hlast]
        exact fun h0 => hy ((exists_td g false t).2.2.2.2.1 h0)
      have hzero : q.parser.td = (⟨none, none, none⟩ : Group).y (none : Option Byte).isSome ++ (0 : BitVec 4) := htd hy
      have hseen : announced [(t, g)] = [t] := if_neg hy
      obtain ⟨h1, h2, -, h3, h4, h5⟩ := ibytesNext_spec hlast hzero h
      rw [hseen]
      refine ⟨ibytesNext c buf q, ?_, h3, h4.taken, h4.csum, ?_, h5⟩
      · rw [atrParseIbytes_succ hy', h1, h2]
        exact atrParseIbytes_end fuel _
      · rw [h4.tckExists, List.any_cons, List.any_nil, Bool.or_false]
  | cons x rest ih =>
    obtain ⟨t', g'⟩ := x
    obtain ⟨fuel, rfl⟩ := Nat.exists_eq_succ_of_ne_zero (Nat.ne_zero_of_lt hfuel)
    have hy := y_true_ne_zero g
    have hy' : tdY q.parser.tdLast ≠ 0 := by
      rw [hlast]
      exact fun h0 => hy ((exists_td g true t).2.2.2.2.1 h0)
    have hseen : announced ((t, g) :: (t', g') :: rest) = t :: announced ((t', g') :: rest) := if_neg hy
    have htd' : q.parser.td = g'.y (tdOf rest).isSome ++ t' := by
      rw [isSome_tdOf]
      exact htd hy
    have hreads : Reads buf q.parser (g'.bytes ++ (tdOf rest).toList ++ (following rest ++ L)) := by
      rw [← List.append_assoc, ← chain_eq]
      exact h
    obtain ⟨h1, h2, h3, h4, h5, h6⟩ := ibytesNext_spec (c := c) hlast htd' hreads
    rw [isSome_tdOf] at h2 h3
    obtain ⟨q', e1, e2, e3, e4, e5, e6⟩ := ih (Nat.lt_of_succ_lt_succ hfuel) h2 h3 h4
    have hchain : following ((t', g') :: rest) = g'.bytes ++ (tdOf rest).toList ++ following rest := chain_eq g' rest
    rw [hseen, hchain]
    refine ⟨q', by rw [atrParseIbytes_succ hy', h1, e1], e2, ?_, ?_, ?_, h6.cons e6⟩
    · rw [e3, h5.taken]
      simp only [List.length_append]
      exact Nat.add_assoc _ _ _
    · rw [e4, h5.csum]
      exact List.foldl_append.symm
    · rw [e5, h5.tckExists, List.any_cons, Bool.or_assoc]

theorem atrParseIbytes_mono {q q' : Parse} {y : Byte} {m n : Nat} (hle : m ≤ n)
    (h : atrParseIbytes c buf m q y = some q') : atrParseIbytes c buf n q y = some q' := by
  induction m generalizing q y n with
  | zero =>
    rw [atrParseIbytes] at h
    split_ifs at h with hy
    rw [hy, atrParseIbytes_end, h]
  | succ m ih =>
    obtain ⟨n, rfl⟩ := Nat.exists_eq_succ_of_ne_zero (by omega : n ≠ 0)
    by_cases hy : y = 0
    · rw [hy, atrParseIbytes_end] at h ⊢
      exact h
    · rw [atrParseIbytes_succ hy] at h ⊢
      exact ih (by omega) h

/-! ## An answer -/

theorem atrSkip_spec {hist : List Byte} (h : Reads buf p (hist ++ L)) :
    Reads buf (atrSkip buf hist.length p) L ∧ Read p hist (atrSkip buf hist.length p) := by
  induction hist generalizing p with
  | nil => exact ⟨h, .refl p⟩
  | cons b hist ih =>
    obtain ⟨-, h1, r1⟩ := atrRead_spec h
    obtain ⟨h2, r2⟩ := ih h1
    exact ⟨h2, r1.trans r2⟩

/-- What has been read and noted when the interface bytes are done. -/
structure Interface (c : Config) (buf : Nat → Byte) (a : Atr) (q : Parse) : Prop where
  reads : Reads buf q.parser (a.hist ++ a.tck.toList)
  taken : q.parser.taken + a.hist.length + a.tck.toList.length = a.bytes.length
  csum : q.parser.csum = (a.t0 :: chain a.first a.rest).foldl (· ^^^ ·) 0
  tckExists : q.parser.tckExists = (announced a.rest).any Expects
  first : q.slot.firstProto = (a.protos.headD 0).setWidth 8
  protos : ∀ t : BitVec 4, q.slot.indProtos.getLsbD t.toNat = true ↔
    t ∈ announced a.rest ∧ t ≠ 15 ∧ c.Registered (t.setWidth 8)

theorem atrParseGbyte1_spec (p : AtrParser) (y : Byte) (slot : SlotCtrl) :
    (atrParseGbyte1 p y slot).indProtos = slot.indProtos ∧
      (atrParseGbyte1 p y slot).firstProto = if y &&& tdExists ≠ 0 then tdT p.td else slot.firstProto := by
  simp only [atrParseGbyte1]
  split_ifs <;> exact ⟨rfl, rfl⟩

theorem atrParseGbyte2_spec (p : AtrParser) (y : Byte) (slot : SlotCtrl) :
    (atrParseGbyte2 p y slot).indProtos = slot.indProtos ∧
      (atrParseGbyte2 p y slot).firstProto = slot.firstProto := by
  simp only [atrParseGbyte2]
  split_ifs <;> exact ⟨rfl, rfl⟩

/-- TS has been read. -/
def afterTs (q : Parse) : Parse :=
  { atrStart q with parser := { (atrStart q).parser with len := 1, taken := 1 } }

/-- T0 and the first group have been read. -/
def afterFirst (buf : Nat → Byte) (q : Parse) : Parse :=
  let parser := (atrReadIbyte buf { (atrRead buf (afterTs q).parser).2 with td := buf 1 }).2
  { afterTs q with parser, slot := atrParseGbyte1 parser (tdY (buf 1)) (afterTs q).slot }

/-- The second group has been read. -/
def afterSecond (buf : Nat → Byte) (q : Parse) : Parse :=
  let parser := (atrReadIbyte buf q.parser).2
  { q with parser, slot := atrParseGbyte2 parser (tdY q.parser.td) q.slot }

theorem atrReadIbyte_fst (p : AtrParser) : (atrReadIbyte buf p).1 = tdY p.td := by
  simp only [atrReadIbyte]
  split_ifs <;> rfl

theorem atrParse_eq (hts : buf 0 = ifdConvDirect ∨ buf 0 = ifdConvInverse) (fuel avail : Nat) (q : Parse) :
    atrParse c fuel buf avail q =
      if tdY (buf 1) = 0 then some (atrParseTail buf avail (t0K (buf 1)) (afterFirst buf q))
      else (atrParseIbytes c buf fuel (afterSecond buf (afterFirst buf q)) (tdY (afterFirst buf q).parser.td)).map
        (atrParseTail buf avail (t0K (buf 1))) := by
  simp only [atrParse, if_pos hts, atrReadIbyte_fst]
  rfl

theorem atrParse_mono {avail m n : Nat} {q : Parse} {r : ScsErr × Parse} (hle : m ≤ n)
    (h : atrParse c m buf avail q = some r) : atrParse c n buf avail q = some r := by
  by_cases hts : buf 0 = ifdConvDirect ∨ buf 0 = ifdConvInverse
  · rw [atrParse_eq hts] at h ⊢
    split_ifs at h ⊢
    · exact h
    · obtain ⟨q₁, h1, h2⟩ := Option.map_eq_some_iff.1 h
      exact Option.map_eq_some_iff.2 ⟨q₁, atrParseIbytes_mono hle h1, h2⟩
  · simp only [atrParse, if_neg hts] at h ⊢
    exact h

/-- What has been read and noted after T0 and the first group. -/
structure First (buf : Nat → Byte) (a : Atr) (q : Parse) : Prop where
  reads : Reads buf q.parser (following a.rest ++ (a.hist ++ a.tck.toList))
  taken : q.parser.taken = 2 + (a.first.bytes ++ (tdOf a.rest).toList).length
  csum : q.parser.csum = (a.t0 :: (a.first.bytes ++ (tdOf a.rest).toList)).foldl (· ^^^ ·) 0
  tckExists : q.parser.tckExists = false
  td : a.first.y (!a.rest.isEmpty) ≠ 0 → q.parser.td = (tdOf a.rest).getD 0
  first : q.slot.firstProto = (a.protos.headD 0).setWidth 8
  protos : q.slot.indProtos = 0

theorem bytes_eq (a : Atr) : a.bytes = a.ts :: a.t0 ::
    (a.first.bytes ++ (tdOf a.rest).toList ++ (following a.rest ++ (a.hist ++ a.tck.toList))) := by
  simp [Atr.bytes, Atr.body, chain_eq]

theorem first_afterFirst {a : Atr} (hfits : a.bytes.length ≤ 255) (hbuf : Holds buf a.bytes) (q : Parse) :
    First buf a (afterFirst buf q) := by
  rw [bytes_eq] at hfits hbuf
  have ht0 : buf 1 = a.t0 := hbuf 1 (by simp)
  have h1 : Reads buf (afterTs q).parser
      (a.t0 :: (a.first.bytes ++ (tdOf a.rest).toList ++ (following a.rest ++ (a.hist ++ a.tck.toList)))) := by
    refine ⟨rfl, ?_, fun i hi => ?_⟩
    · change 1 + _ ≤ 255
      rw [List.length_cons] at hfits
      omega
    · change buf (1 + i) = _
      rw [Nat.add_comm]
      exact hbuf (i + 1) (by simpa using hi)
  obtain ⟨-, h2, r2⟩ := atrRead_spec h1
  have htd : ({ (atrRead buf (afterTs q).parser).2 with td := buf 1 } : AtrParser).td =
      a.first.y (tdOf a.rest).isSome ++ BitVec.ofNat 4 a.hist.length := by
    rw [isSome_tdOf]
    exact ht0
  obtain ⟨-, h3, r3, h4⟩ := atrReadIbyte_spec htd ⟨h2.taken, h2.fits, h2.bytes⟩
  obtain ⟨hprotos, hfirst⟩ := atrParseGbyte1_spec (afterFirst buf q).parser (tdY (buf 1)) (afterTs q).slot
  refine ⟨h3, ?_, ?_, ?_, ?_, ?_, hprotos⟩
  · rw [show (afterFirst buf q).parser.taken = _ from r3.taken]
    exact congrArg (· + _) r2.taken
  · rw [show (afterFirst buf q).parser.csum = _ from r3.csum]
    exact congrArg (List.foldl _ · _) r2.csum
  · exact r3.tckExists.trans r2.tckExists
  · rw [← isSome_tdOf]
    exact h4
  · have hexists := (exists_td a.first (!a.rest.isEmpty) (BitVec.ofNat 4 a.hist.length)).2.2.2.1
    rw [show (afterFirst buf q).slot.firstProto = _ from hfirst, ht0, Atr.t0]
    rw [Atr.protos]
    rcases hrest : a.rest with - | ⟨⟨t, g⟩, rest⟩
    · rw [hrest] at hexists
      rw [if_neg (mt hexists.1 (by simp))]
      rfl
    · rw [hrest] at hexists h4
      rw [if_pos (hexists.2 rfl), show (afterFirst buf q).parser.td = _ from h4 (y_true_ne_zero _)]
      exact tdT_td _ _

/-- Without TD1 the interface bytes are done after the first group. -/
theorem First.interface {a : Atr} {q q' : Parse} (h : First buf a q) (hrest : a.rest = [])
    (hreads : Reads buf q'.parser (a.hist ++ a.tck.toList)) (hread : Read q.parser [] { q'.parser with tdLast := q.parser.tdLast })
    (hfirst : q'.slot.firstProto = q.slot.firstProto) (hprotos : q'.slot.indProtos = q.slot.indProtos) :
    Interface c buf a q' := by
  have hlen := congrArg List.length (bytes_eq a)
  have htaken := h.taken
  have hcsum := h.csum
  simp only [hrest, tdOf, following, Option.toList_none, List.append_nil, List.nil_append, List.length_cons,
    List.length_append] at hlen htaken hcsum
  refine ⟨hreads, ?_, ?_, ?_, hfirst.trans h.first, fun t => ?_⟩
  · rw [show q'.parser.taken = _ from hread.taken, List.length_nil]
    omega
  · rw [show q'.parser.csum = _ from hread.csum, List.foldl_nil, hcsum, hrest, chain]
  · rw [show q'.parser.tckExists = _ from hread.tckExists, h.tckExists, hrest]
    rfl
  · rw [hprotos, h.protos, hrest]
    simp [announced]

/-- The parser comes through the interface bytes of an answer. -/
theorem atrParse_interface {a : Atr} (hts : a.ts = ifdConvDirect ∨ a.ts = ifdConvInverse) (hfits : a.bytes.length ≤ 255)
    (hbuf : Holds buf a.bytes) (avail : Nat) (q : Parse) : ∃ q', Interface c buf a q' ∧
      ∀ fuel, a.rest.length ≤ fuel → atrParse c fuel buf avail q = some (atrParseTail buf avail (t0K a.t0) q') := by
  have hts' : buf 0 = a.ts := hbuf 0 (by simp [Atr.bytes])
  have ht0 : buf 1 = a.t0 := hbuf 1 (by simp [Atr.bytes, Atr.body])
  have h1 := first_afterFirst hfits hbuf q
  have hy := (exists_td a.first (!a.rest.isEmpty) (BitVec.ofNat 4 a.hist.length)).2.2.2.2
  simp only [atrParse_eq (hts'.symm ▸ hts), ht0]
  generalize afterFirst buf q = q₁ at h1
  have hreads := h1.reads
  by_cases h0 : a.first.y (!a.rest.isEmpty) = 0
  · have hrest : a.rest = [] := by
      rcases hrest : a.rest with - | ⟨x, rest⟩
      · rfl
      · rw [hrest] at h0
        exact absurd h0 (y_true_ne_zero _)
    rw [hrest] at hreads
    exact ⟨q₁, h1.interface hrest hreads (.refl _) rfl rfl, fun fuel _ => if_pos (hy.2 h0)⟩
  · have htd := h1.td h0
    have hne : tdY a.t0 ≠ 0 := fun h => h0 (hy.1 h)
    obtain ⟨hprotos, hfirst⟩ := atrParseGbyte2_spec (atrReadIbyte buf q₁.parser).2 (tdY q₁.parser.td) q₁.slot
    rcases hrest : a.rest with - | ⟨⟨t, g⟩, rest⟩
    · rw [hrest] at hreads htd
      have hzero : q₁.parser.td = (⟨none, none, none⟩ : Group).y (none : Option Byte).isSome ++ (0 : BitVec 4) := htd
      obtain ⟨-, h2, h3, -⟩ := atrReadIbyte_spec hzero hreads
      refine ⟨afterSecond buf q₁, h1.interface hrest h2 ⟨h3.taken, h3.csum, h3.tckExists, rfl⟩ hfirst hprotos, ?_⟩
      intro fuel _
      rw [if_neg hne, htd]
      exact congrArg _ (atrParseIbytes_end fuel _)
    · have hchain : following a.rest = g.bytes ++ (tdOf rest).toList ++ following rest := by
        rw [hrest]
        exact chain_eq g rest
      rw [hrest] at htd
      have htd' : q₁.parser.td = g.y (tdOf rest).isSome ++ t := by
        rw [isSome_tdOf]
        exact htd
      rw [hchain, List.append_assoc] at hreads
      obtain ⟨-, h2, h3, h4⟩ := atrReadIbyte_spec htd' hreads
      have hlast : (afterSecond buf q₁).parser.tdLast = g.y (!rest.isEmpty) ++ t := by
        rw [← isSome_tdOf, ← htd']
        exact h3.tdLast
      rw [isSome_tdOf] at h4
      obtain ⟨q', e1, e2, e3, e4, e5, e6⟩ := atrParseIbytes_spec (c := c) (Nat.lt_succ_self rest.length) hlast h4 h2
      have hlen := congrArg List.length (bytes_eq a)
      have htaken : (afterSecond buf q₁).parser.taken = q₁.parser.taken + _ := h3.taken
      have hcsum : (afterSecond buf q₁).parser.csum = _ := h3.csum
      rw [hchain] at hlen
      have h1taken := h1.taken
      simp only [List.length_cons, List.length_append] at hlen htaken h1taken
      refine ⟨q', ⟨e2, ?_, ?_, ?_, e6.first.trans (hfirst.trans h1.first), fun u => ?_⟩, fun fuel hle => ?_⟩
      · rw [e3]
        omega
      · rw [e4, hcsum, chain_eq, hchain]
        change List.foldl _ (List.foldl _ q₁.parser.csum _) _ = _
        rw [h1.csum]
        simp only [List.foldl_cons, List.foldl_append]
      · rw [e5, show (afterSecond buf q₁).parser.tckExists = _ from h3.tckExists, hrest]
        exact congrArg (· || _) h1.tckExists
      · rw [e6.protos, show (afterSecond buf q₁).slot.indProtos = _ from hprotos, h1.protos, hrest]
        simp
      · rw [if_neg hne, htd', isSome_tdOf, ← hlast]
        exact congrArg _ (atrParseIbytes_mono hle e1)

theorem mem_protos_of_announced {rest : List (BitVec 4 × Group)} {t : BitVec 4} (h : t ∈ announced rest) :
    t ∈ rest.map Prod.fst := by
  induction rest with
  | nil => exact absurd h (List.not_mem_nil)
  | cons x rest ih =>
    rw [announced] at h
    split_ifs at h
    · exact absurd h (List.not_mem_nil)
    · rw [List.map_cons, List.mem_cons]
      exact (List.mem_cons.1 h).imp id ih

/-- The parser sees a T for which it expects TCK. -/
theorem any_expects (a : Atr) : (announced a.rest).any Expects = true ↔ ∃ t ∈ announced a.rest, t ≠ 0 ∧ t ≠ 15 := by
  simp [Expects]

/-- When the parser expects TCK there is one. -/
theorem exists_tck {a : Atr} (hck : a.Checked) (h : (announced a.rest).any Expects = true) : ∃ b, a.tck = some b := by
  obtain ⟨t, ht, h0, -⟩ := (any_expects a).1 h
  exact Option.isSome_iff_exists.1 (hck.2 ⟨t, mem_protos_of_announced ht, h0⟩)

/-- The historical bytes have been read. -/
theorem Interface.hist {a : Atr} {q : Parse} (hi : Interface c buf a q) :
    Reads buf (atrSkip buf a.hist.length q.parser) a.tck.toList ∧
      (atrSkip buf a.hist.length q.parser).taken + a.tck.toList.length = a.bytes.length ∧
      (atrSkip buf a.hist.length q.parser).csum = a.body.foldl (· ^^^ ·) 0 ∧
      (atrSkip buf a.hist.length q.parser).tckExists = (announced a.rest).any Expects := by
  obtain ⟨h1, r1⟩ := atrSkip_spec hi.reads
  have hbody : a.body = (a.t0 :: chain a.first a.rest) ++ a.hist := rfl
  refine ⟨h1, ?_, ?_, r1.tckExists.trans hi.tckExists⟩
  · rw [r1.taken]
    exact hi.taken
  · rw [r1.csum, hi.csum, hbody, List.foldl_append]

/-- The end of an answer when the parser expects TCK. -/
theorem atrParseTail_tck {a : Atr} {q : Parse} (hi : Interface c buf a q) (hck : a.Checked)
    (h : (announced a.rest).any Expects = true) :
    ∃ q', q'.slot = q.slot ∧ q'.parser.taken = a.bytes.length ∧ atrParseTail buf a.bytes.length (t0K a.t0) q =
      (if (a.body ++ a.tck.toList).foldl (· ^^^ ·) 0 = 0 then .success else .badTck, q') := by
  obtain ⟨h1, h2, h3, h4⟩ := hi.hist
  obtain ⟨b, hb⟩ := exists_tck hck h
  rw [hb] at h1 h2
  rw [h] at h4
  obtain ⟨-, h5, r5⟩ := atrRead_spec h1
  have htaken := r5.taken.trans h2
  have hlen : ¬ a.bytes.length ≠ (atrRead buf (atrSkip buf a.hist.length q.parser)).2.len.toNat :=
    not_not.2 (htaken.symm.trans h5.taken)
  have hcsum : (atrRead buf (atrSkip buf a.hist.length q.parser)).2.csum =
      (a.body ++ a.tck.toList).foldl (· ^^^ ·) 0 := by
    rw [r5.csum, h3, hb, List.foldl_append]
    rfl
  refine ⟨{ q with parser := (atrRead buf (atrSkip buf a.hist.length q.parser)).2 }, rfl, htaken, ?_⟩
  simp only [atrParseTail, t0K_t0, h4, if_true, r5.tckExists, true_and, hcsum, if_neg hlen]
  split_ifs <;> first | rfl | contradiction

/-- The end of an answer when the parser expects no TCK. -/
theorem atrParseTail_none {a : Atr} {q : Parse} (hi : Interface c buf a q)
    (h : (announced a.rest).any Expects = false) :
    ∃ q', q'.slot = q.slot ∧ q'.parser.taken + a.tck.toList.length = a.bytes.length ∧
      atrParseTail buf a.bytes.length (t0K a.t0) q = (if a.tck = none then .success else .overrun, q') := by
  obtain ⟨h1, h2, -, h4⟩ := hi.hist
  rw [h] at h4
  refine ⟨{ q with parser := atrSkip buf a.hist.length q.parser }, rfl, h2, ?_⟩
  have hlen : a.bytes.length ≠ (atrSkip buf a.hist.length q.parser).len.toNat ↔ ¬ a.tck = none := by
    rw [← h1.taken, ← h2]
    cases a.tck <;> simp
  simp only [atrParseTail, t0K_t0, h4, Bool.false_eq_true, if_false, false_and, hlen]
  split_ifs <;> rfl

/-- The parser succeeds only if its length is that of the transfer. -/
theorem avail_of_success {fuel avail : Nat} {q q' : Parse} (h : atrParse c fuel buf avail q = some (.success, q')) :
    avail = q'.parser.len.toNat := by
  have htail : ∀ k q, atrParseTail buf avail k q = (.success, q') → avail = q'.parser.len.toNat := by
    intro k q h
    simp only [atrParseTail] at h
    split_ifs at h with h1 h2 h3 <;> simp only [Prod.mk.injEq, reduceCtorEq, false_and, true_and] at h
    · rw [← h]
      exact not_not.1 ‹_›
    · rw [← h]
      exact not_not.1 ‹_›
  by_cases hts : buf 0 = ifdConvDirect ∨ buf 0 = ifdConvInverse
  · rw [atrParse_eq hts] at h
    split_ifs at h
    · exact htail _ _ (Option.some.inj h)
    · obtain ⟨q₁, -, h2⟩ := Option.map_eq_some_iff.1 h
      exact htail _ _ h2
  · simp [atrParse, if_neg hts] at h

/-! ## The two readings of an answer -/

variable {s s' : Reception} {q q' : Parse} {a : Atr} {conv : Byte}

/-- Whether an answer that has been received is accepted is decided after its interface bytes. -/
theorem accepted_iff (hts : a.ts = ifdConvDirect ∨ a.ts = ifdConvInverse) (hfits : a.bytes.length ≤ 255)
    (hrec : Received c a.ts s a.bytes s') (q : Parse) : ∃ q₁, Interface c s'.buf a q₁ ∧
      ∀ q', Accepted c s' q q' ↔ atrParseTail s'.buf a.bytes.length (t0K a.t0) q₁ = (.success, q') := by
  obtain ⟨hnr, hbuf⟩ := received_spec hrec
  obtain ⟨q₁, hi, hparse⟩ := atrParse_interface (c := c) hts hfits hbuf a.bytes.length q
  refine ⟨q₁, hi, fun q' => ?_⟩
  rw [Accepted, hnr]
  constructor
  · rintro ⟨fuel, h⟩
    have h1 := atrParse_mono (Nat.le_max_left fuel a.rest.length) h
    rw [hparse _ (Nat.le_max_right _ _)] at h1
    exact Option.some.inj h1
  · intro h
    exact ⟨_, (hparse _ le_rfl).trans (congrArg some h)⟩

/-- What is accepted has been taken as a whole, and the parser saw a T for which it expects TCK if
there is TCK. -/
theorem accepted_spec {q₁ : Parse} (hck : a.Checked) (hi : Interface c s'.buf a q₁)
    (h : atrParseTail s'.buf a.bytes.length (t0K a.t0) q₁ = (.success, q')) :
    q'.slot = q₁.slot ∧ q'.parser.taken = a.bytes.length ∧
      ((announced a.rest).any Expects = false → a.tck = none) := by
  cases hany : (announced a.rest).any Expects with
  | true =>
    obtain ⟨q₂, h1, h2, h3⟩ := atrParseTail_tck hi hck hany
    rw [h3] at h
    obtain ⟨-, rfl⟩ := Prod.mk.inj h
    exact ⟨h1, h2, fun h => nomatch h⟩
  | false =>
    obtain ⟨q₂, h1, h2, h3⟩ := atrParseTail_none hi hany
    rw [h3] at h
    obtain ⟨h4, rfl⟩ := Prod.mk.inj h
    have htck : a.tck = none := by
      by_contra hne
      rw [if_neg hne] at h4
      cases h4
    rw [htck] at h2
    exact ⟨h1, h2, fun _ => htck⟩

/-- The number of bytes the parser takes is the number that was received. -/
theorem taken_of_accepted (hrec : Received c conv s L s') (hacc : Accepted c s' q q') : q'.parser.taken = L.length := by
  obtain ⟨⟨a, hck, rfl, rfl⟩, -⟩ := received_iff.1 ⟨s', hrec⟩
  obtain ⟨hnr, hbuf⟩ := received_spec hrec
  obtain ⟨fuel, hparse⟩ := hacc
  have hts : a.ts = ifdConvDirect ∨ a.ts = ifdConvInverse := by
    by_contra hts
    rw [← show s'.buf 0 = a.ts from hbuf 0 (by simp [Atr.bytes])] at hts
    simp [atrParse, if_neg hts] at hparse
  have hfits : a.bytes.length ≤ 255 := by
    rw [← hnr, avail_of_success hparse]
    exact Nat.le_of_lt_succ q'.parser.len.isLt
  obtain ⟨q₁, hi, hiff⟩ := accepted_iff hts hfits hrec q
  exact (accepted_spec hck hi ((hiff q').1 ⟨fuel, hparse⟩)).2.1

theorem recorded_iff (hi : Interface c s'.buf a q) {t : BitVec 4} (ht : t ∈ a.offered) :
    Recorded q.slot t ↔ t = a.protos.headD 0 ∨ t ∈ announced a.rest ∧ c.Registered (t.setWidth 8) := by
  have h15 : t ≠ 15 := by
    rw [Atr.offered] at ht
    split_ifs at ht
    · rw [List.mem_singleton] at ht
      rw [ht]
      decide
    · simpa using (List.mem_filter.1 ht).2
  have hw : ∀ t u : BitVec 4, u.setWidth 8 = (t.setWidth 8 : Byte) ↔ t = u := by decide
  rw [Recorded, hi.first, hi.protos, hw, and_iff_right h15]

/-- The check of TCK and of the length succeeds on a regular answer. -/
theorem success_of_regular (ha : a.Conformant) (hreg : Regular c a) {q₁ : Parse} (hi : Interface c s'.buf a q₁) :
    ∃ q', atrParseTail s'.buf a.bytes.length (t0K a.t0) q₁ = (.success, q') := by
  cases hany : (announced a.rest).any Expects with
  | true =>
    obtain ⟨q', -, -, h⟩ := atrParseTail_tck hi ha.checked hany
    obtain ⟨b, hb⟩ := exists_tck ha.checked hany
    have hzero : (a.body ++ a.tck.toList).foldl (· ^^^ ·) 0 = 0 := by
      rw [List.foldl_append, hb, Option.toList_some, List.foldl_cons, List.foldl_nil, ← ha.tck b hb]
      exact BitVec.xor_self
    rw [if_pos hzero] at h
    exact ⟨q', h⟩
  | false =>
    obtain ⟨q', -, -, h⟩ := atrParseTail_none hi hany
    have hnone : a.tck = none := by
      by_contra hne
      have hex := hreg.check (ha.checked.1 (Option.isSome_iff_ne_none.2 hne))
      rw [← any_expects, hany] at hex
      cases hex
    rw [if_pos hnone] at h
    exact ⟨q', h⟩

/-- A conformant answer is understood when it is regular. -/
theorem understood_iff (ha : a.Conformant) : Understood c a s q ↔ Regular c a := by
  have hcheck := ha.checked
  constructor
  · rintro ⟨s', q', hrec, hnr, ⟨fuel, hparse⟩, htaken, hrecorded⟩
    have hfits : a.bytes.length ≤ 255 := by
      rw [← hnr, avail_of_success hparse]
      exact Nat.le_of_lt_succ q'.parser.len.isLt
    obtain ⟨q₁, hi, hiff⟩ := accepted_iff ha.ts hfits hrec q
    obtain ⟨hslot, -, hnone⟩ := accepted_spec hcheck hi ((hiff q').1 ⟨fuel, hparse⟩)
    refine ⟨hfits, fun hex => ?_, fun t ht => ?_⟩
    · rw [← any_expects]
      by_contra hany
      have hsome := hcheck.2 hex
      rw [hnone (by simpa using hany)] at hsome
      cases hsome
    · have := hrecorded t ht
      rw [Recorded, hslot] at this
      exact (recorded_iff hi ht).1 this
  · intro hreg
    have hroom := c.bufSize_ge
    have hlen : a.bytes.length ≤ c.bufSize := hreg.fits.trans (by omega)
    obtain ⟨s', hrec⟩ : ∃ s', Received c a.ts s a.bytes s' := received_iff.2 ⟨⟨a, hcheck, rfl, rfl⟩, hlen⟩
    obtain ⟨q₁, hi, hiff⟩ := accepted_iff ha.ts hreg.fits hrec q
    obtain ⟨q', hq'⟩ := success_of_regular ha hreg hi
    obtain ⟨hslot, htaken, -⟩ := accepted_spec hcheck hi hq'
    refine ⟨s', q', hrec, (received_spec hrec).1, (hiff q').2 hq', htaken, fun t ht => ?_⟩
    rw [Recorded, hslot]
    exact (recorded_iff hi ht).2 (hreg.record t ht)

/-- The reception and the parser agree on what is accepted, and a conformant answer is received and
parsed as a whole when it is regular. -/
theorem atr_readings_agree_iff (c : Config) (s : Reception) (q : Parse) :
    (∀ a : Atr, a.Conformant → (Understood c a s q ↔ Regular c a)) ∧
      ∀ conv bytes s' q', Received c conv s bytes s' → Accepted c s' q q' → q'.parser.taken = bytes.length :=
  ⟨fun _ ha => understood_iff ha, fun _ _ _ _ hrec hacc => taken_of_accepted hrec hacc⟩

/-- A build with T=0 and T=1, and the slot before its first reset. -/
def twoProtocols : Config := ⟨256, [0, 1], by decide, by decide, by decide⟩

def resting : Reception := ⟨fun _ => 0, 0, 0, 0, ⟨.ts, false, 0, 0, 0, 0⟩, none, 0⟩

def unparsed : Parse :=
  ⟨⟨0, 0, 0, 0, 0, 0, 0, false, 0⟩, ⟨.nego1st, 0, 0, 0, 0, 0, 0, 0, 0, 0⟩, ⟨0, 0, 0, 0⟩⟩

/-- A card that offers T=1 and gives its parameters: `3B 80 81 31 FE 45 8B`. -/
def cardT1 : Atr where
  ts := 0x3B
  first := ⟨none, none, none⟩
  rest := [(1, ⟨none, none, none⟩), (1, ⟨some 0xFE, some 0x45, none⟩)]
  hist := []
  tck := some 0x8B
  hist_lt := by decide

theorem cardT1_conformant : cardT1.Conformant := ⟨by decide, by decide, by decide, by decide⟩

theorem atr_readings_agree_cardT1 : cardT1.bytes = [0x3B, 0x80, 0x81, 0x31, 0xFE, 0x45, 0x8B] ∧ cardT1.Conformant ∧
    Understood twoProtocols cardT1 resting unparsed ∧
    ∃ s' q', Received twoProtocols cardT1.ts resting cardT1.bytes s' ∧ Accepted twoProtocols s' unparsed q' ∧
      q'.parser.taken = 7 := by
  obtain ⟨hiff, htaken⟩ := atr_readings_agree_iff twoProtocols resting unparsed
  have hreg : Regular twoProtocols cardT1 := ⟨by decide, by decide, by decide⟩
  have hund := (hiff cardT1 cardT1_conformant).2 hreg
  obtain ⟨s', q', hrec, -, hacc, -⟩ := hund
  exact ⟨by decide, cardT1_conformant, (hiff cardT1 cardT1_conformant).2 hreg, s', q', hrec, hacc,
    htaken _ _ _ _ hrec hacc⟩

/-- Cards whose answer is refused: one that offers T=1 and gives no parameters, one that offers T=0
and T=1, and one with T=0 and the global bytes of T=15. -/
def refusedCards : List Atr :=
  [⟨0x3B, ⟨none, none, none⟩, [(1, ⟨none, none, none⟩)], [], some 0x81, by decide⟩,
    ⟨0x3B, ⟨none, none, none⟩, [(0, ⟨none, none, none⟩), (1, ⟨none, none, none⟩)], [], some 0x01, by decide⟩,
    ⟨0x3B, ⟨none, none, none⟩, [(0, ⟨none, none, none⟩), (15, ⟨some 0x03, none, none⟩)], [], some 0x1C, by decide⟩]

/-- What `ifd_atr_parse` returns after a reception that is complete. -/
def outcome (a : Atr) : Option (Option XchgEvent × Nat × Option ScsErr) :=
  (receive twoProtocols a.ts resting a.bytes).map fun s =>
    (s.event, s.nr, (atrParse twoProtocols 256 s.buf s.nr unparsed).map Prod.fst)

/-- The answers are conformant and received as a whole, but the parser does not expect their TCK and
returns `SCS_ERR_OVERRUN`. -/
theorem atr_refused :
    refusedCards.map Atr.bytes =
      [[0x3B, 0x80, 0x01, 0x81], [0x3B, 0x80, 0x80, 0x01, 0x01], [0x3B, 0x80, 0x80, 0x1F, 0x03, 0x1C]] ∧
    refusedCards.map outcome =
      [some (some .xfrCmpl, 4, some .overrun), some (some .xfrCmpl, 5, some .overrun),
        some (some .xfrCmpl, 6, some .overrun)] ∧
    ∀ a ∈ refusedCards, a.Conformant ∧ ¬ Understood twoProtocols a resting unparsed := by
  refine ⟨by decide, by decide, fun a ha => ?_⟩
  have hconf : a.Conformant := by
    have hall : ∀ a ∈ refusedCards, (a.ts = ifdConvDirect ∨ a.ts = ifdConvInverse) ∧ a.protos.Pairwise (· ≤ ·) ∧
        a.Checked ∧ ∀ b ∈ a.tck, b = a.body.foldl (· ^^^ ·) 0 := by decide
    obtain ⟨h1, h2, h3, h4⟩ := hall a ha
    exact ⟨h1, h2, h3, h4⟩
  refine ⟨hconf, fun hund => ?_⟩
  have hnot : ∀ a ∈ refusedCards, ¬ ((∃ t ∈ a.protos, t ≠ 0) → ∃ t ∈ announced a.rest, t ≠ 0 ∧ t ≠ 15) := by decide
  exact hnot a ha ((understood_iff hconf).1 hund).check

end Sdfirm.IfdAtr
