import Sdfirm.Spec.IfdAtr
import Sdfirm.Proof.Framework.Runs

/-!
# The reception follows the grammar

`Completes s L` says that the transfer is complete after the bytes `L` and
not before. `completes_block` takes a block off `L`; with it, the strings on
which a reception completes are those that are `Asked` for, and these are
the strings of the grammar with TCK where a T is not 0 (`received_iff`).
`received_spec` says what a reception leaves in the buffer.
-/

namespace Sdfirm.IfdAtr

variable {c : Config} {conv ts t0 : Byte} {s s' s₁ : Reception} {got L block : List Byte}

/-! ## The half bytes of TD -/

theorem Group.length_bytes (g : Group) :
    g.bytes.length = g.ta.isSome.toNat + g.tb.isSome.toNat + g.tc.isSome.toNat := by
  obtain ⟨ta, tb, tc⟩ := g
  cases ta <;> cases tb <;> cases tc <;> rfl

theorem ifdAtrBytes_td (g : Group) (b : Bool) (t : BitVec 4) :
    (ifdAtrBytes (g.y b ++ t)).toNat = g.bytes.length + b.toNat := by
  rw [Group.length_bytes, Group.y]
  generalize g.ta.isSome = x
  generalize g.tb.isSome = y
  generalize g.tc.isSome = z
  revert x y z b t
  decide

theorem tdT_td (y t : BitVec 4) : tdT (y ++ t) = t.setWidth 8 := by
  revert y t
  decide

theorem tdExists_td (g : Group) (b : Bool) (t : BitVec 4) : (g.y b ++ t : Byte) &&& tdExists ≠ 0 ↔ b = true := by
  rw [Group.y]
  generalize g.ta.isSome = x
  generalize g.tb.isSome = y
  generalize g.tc.isSome = z
  revert x y z b t
  decide

/-! ## Blocks -/

/-- A byte of the block comes in. -/
def store (s : Reception) (b : Byte) : Reception :=
  { s with buf := Function.update s.buf (s.rxStart + s.rx) b, rx := s.rx + 1 }

def storeAll (s : Reception) (block : List Byte) : Reception := block.foldl store s

/-- The buffer starts with the bytes. -/
def Holds (buf : Nat → Byte) (bytes : List Byte) : Prop := ∀ i (h : i < bytes.length), buf i = bytes.get ⟨i, h⟩

/-- The transfer goes on after `got`, and `n` bytes of the block are to come. -/
structure Waiting (c : Config) (s : Reception) (got : List Byte) (n : Nat) : Prop where
  running : s.event = none
  pos : s.rxStart + s.rx = got.length
  left : s.rx + n = s.ne
  buf : Holds s.buf got
  room : got.length ≤ c.bufSize
  atrRx : s.atr.rx = s.rxStart + s.ne

theorem Holds.concat {buf : Nat → Byte} (h : Holds buf got) (b : Byte) :
    Holds (Function.update buf got.length b) (got ++ [b]) := by
  intro i hi
  rw [List.length_append, List.length_singleton] at hi
  rcases Nat.lt_succ_iff_lt_or_eq.1 hi with hlt | rfl
  · rw [Function.update_of_ne (by omega), h i hlt]
    simp [List.getElem_append_left hlt]
  · simp

theorem Waiting.store {n : Nat} (h : Waiting c s got (n + 1)) (hroom : got.length < c.bufSize) (b : Byte) :
    Waiting c (store s b) (got ++ [b]) n where
  running := h.running
  pos := by
    have := h.pos
    simp only [IfdAtr.store, List.length_append, List.length_singleton]
    omega
  left := by
    have := h.left
    simp only [IfdAtr.store]
    omega
  buf := by
    simp only [IfdAtr.store, h.pos]
    exact h.buf.concat b
  room := by
    rw [List.length_append, List.length_singleton]
    omega
  atrRx := h.atrRx

theorem Waiting.feed {n : Nat} (h : Waiting c s got (n + 1)) (b : Byte) :
    feed c conv s b = if got.length < c.bufSize then
      some (if n = 0 then atrExpire c conv (IfdAtr.store s b) else IfdAtr.store s b) else none := by
  have hpos := h.pos
  have hleft := h.left
  by_cases hroom : got.length < c.bufSize
  · rw [if_pos hroom, IfdAtr.feed, if_neg (by simp [h.running]; omega)]
    simp only [IfdAtr.store, show s.rx + 1 = s.ne ↔ n = 0 by omega]
  · rw [if_neg hroom, IfdAtr.feed, if_pos (by omega)]

/-- The transfer is complete after the bytes `L` and not before. -/
def Completes (c : Config) (conv : Byte) (s : Reception) (L : List Byte) : Prop :=
  ∃ s', L.foldlM (feed c conv) s = some s' ∧ s'.event = some .xfrCmpl

theorem completes_nil : Completes c conv s [] ↔ s.event = some .xfrCmpl := by
  simp [Completes]

theorem completes_cons {b : Byte} :
    Completes c conv s (b :: L) ↔ ∃ s₁, feed c conv s b = some s₁ ∧ Completes c conv s₁ L := by
  simp only [Completes, List.foldlM_cons, Option.bind_eq_bind, Option.bind_eq_some_iff]
  constructor
  · rintro ⟨s', ⟨s₁, h1, h2⟩, h3⟩
    exact ⟨s₁, h1, s', h2, h3⟩
  · rintro ⟨s₁, h1, s', h2, h3⟩
    exact ⟨s', ⟨s₁, h1, h2⟩, h3⟩

/-- A transfer that has ended takes no more bytes. -/
theorem completes_of_event {e : XchgEvent} (h : s.event = some e) :
    Completes c conv s L ↔ L = [] ∧ e = .xfrCmpl := by
  cases L with
  | nil => simp [completes_nil, h]
  | cons b L => simp [completes_cons, feed, h]

/-- The rest of a block comes in, and `ifd_atr_expire` is called. -/
theorem completes_block {n : Nat} (h : Waiting c s got (n + 1)) :
    Completes c conv s L ↔ n + 1 ≤ L.length ∧ got.length + (n + 1) ≤ c.bufSize ∧
      Completes c conv (atrExpire c conv (storeAll s (L.take (n + 1)))) (L.drop (n + 1)) := by
  induction n generalizing s got L with
  | zero =>
    cases L with
    | nil => simp [completes_nil, h.running]
    | cons b L =>
      rw [completes_cons, h.feed]
      by_cases hroom : got.length < c.bufSize
      · simp [hroom, storeAll, show got.length + 1 ≤ c.bufSize from hroom]
      · simp [hroom, show ¬ got.length + 1 ≤ c.bufSize from hroom]
  | succ n ih =>
    cases L with
    | nil => simp [completes_nil, h.running]
    | cons b L =>
      rw [completes_cons, h.feed]
      by_cases hroom : got.length < c.bufSize
      · have hlen : (got ++ [b]).length = got.length + 1 := by simp
        simp only [hroom, if_true, Nat.add_eq_zero_iff, one_ne_zero, and_false, if_false, Option.some.injEq,
          exists_eq_left', ih (h.store hroom b), hlen, List.length_cons, List.take_succ_cons, List.drop_succ_cons,
          storeAll, List.foldl_cons]
        constructor
        · rintro ⟨h1, h2, h3⟩
          exact ⟨by omega, by omega, h3⟩
        · rintro ⟨h1, h2, h3⟩
          exact ⟨by omega, by omega, h3⟩
      · simp only [hroom, if_false, reduceCtorEq, false_and, exists_false, false_iff, not_and]
        omega

theorem Waiting.storeAll {n : Nat} (h : Waiting c s got (block.length + n))
    (hroom : got.length + block.length ≤ c.bufSize) : Waiting c (storeAll s block) (got ++ block) n := by
  induction block generalizing s got with
  | nil => simpa [IfdAtr.storeAll] using h
  | cons b block ih =>
    rw [List.length_cons] at h hroom
    have h1 : Waiting c s got (block.length + n + 1) := by
      rwa [show block.length + 1 + n = block.length + n + 1 by omega] at h
    have h2 := h1.store (by omega) b
    have h3 := ih h2 (by rw [List.length_append, List.length_singleton]; omega)
    rwa [List.append_assoc] at h3

theorem storeAll_atr (s : Reception) (block : List Byte) :
    (storeAll s block).atr = s.atr ∧ (storeAll s block).rxStart = s.rxStart ∧ (storeAll s block).ne = s.ne := by
  induction block generalizing s with
  | nil => exact ⟨rfl, rfl, rfl⟩
  | cons b block ih => exact ih (store s b)

/-! ## Requests -/

theorem Config.bufSize_lt (c : Config) : c.bufSize + 15 < 2 ^ c.bits := by
  have := c.apduMax_le
  unfold Config.bufSize Config.bits
  split_ifs <;> omega

theorem ifdAtrBytes_le (y : Byte) : (ifdAtrBytes y).toNat ≤ 15 := by
  revert y
  decide

theorem t0K_le (td : Byte) : (t0K td).toNat ≤ 15 := by
  revert td
  decide

theorem toNat_pos {x : Byte} (h : x ≠ 0) : 0 < x.toNat := by
  rcases Nat.eq_zero_or_pos x.toNat with h0 | h0
  · exact absurd (BitVec.eq_of_toNat_eq (by simpa using h0)) h
  · exact h0

/-- The state in which the next `n` bytes are asked for. -/
def asking (s : Reception) (a : XchgAtr) (n : Nat) : Reception := { s with rxStart := s.atr.rx, ne := n, rx := 0, atr := a }

theorem Waiting.asking (h : Waiting c s got 0) {a : XchgAtr} {n : Nat} (hn : n ≤ 15)
    (ha : a.rx = (s.atr.rx + n) % 2 ^ c.bits) : Waiting c (asking s a n) got n := by
  have hpos := h.pos
  have hleft := h.left
  have hrx := h.atrRx
  have hroom := h.room
  have hbits := c.bufSize_lt
  refine ⟨h.running, ?_, ?_, h.buf, hroom, ?_⟩
  · change s.atr.rx + 0 = got.length
    omega
  · exact Nat.zero_add n
  · exact ha.trans (Nat.mod_eq_of_lt (by omega))

theorem Waiting.take {n : Nat} (h : Waiting c s got n) (hn : n ≤ L.length) (hroom : got.length + n ≤ c.bufSize) :
    Waiting c (IfdAtr.storeAll s (L.take n)) (got ++ L.take n) 0 := by
  have hlen : (L.take n).length = n := by simpa using hn
  exact Waiting.storeAll (by rw [hlen]; exact h) (by omega)

/-- `n` bytes are asked for and come in, and the rest depends on what `ifd_atr_expire` makes of them. -/
theorem completes_asking (h : Waiting c s got 0) {a : XchgAtr} {n : Nat} (hpos : 0 < n) (hn : n ≤ 15)
    (ha : a.rx = (s.atr.rx + n) % 2 ^ c.bits) {Q : Prop}
    (hnext : ∀ s₁, n ≤ L.length → Waiting c s₁ (got ++ L.take n) 0 → s₁.atr = a → s₁.rxStart = got.length →
      (Completes c conv (atrExpire c conv s₁) (L.drop n) ↔ Q)) :
    Completes c conv (asking s a n) L ↔ n ≤ L.length ∧ got.length + n ≤ c.bufSize ∧ Q := by
  obtain ⟨m, rfl⟩ := Nat.exists_eq_succ_of_ne_zero hpos.ne'
  have hw : Waiting c (asking s a (m + 1)) got (m + 1) := h.asking hn ha
  have hstart : (asking s a (m + 1)).rxStart = got.length := by
    have := hw.pos
    exact this
  rw [completes_block hw]
  refine and_congr_right fun h1 => and_congr_right fun h2 => ?_
  obtain ⟨hatr, hrx, -⟩ := storeAll_atr (asking s a (m + 1)) (L.take (m + 1))
  exact hnext _ h1 (hw.take h1 h2) hatr (hrx.trans hstart)

theorem Waiting.congr_atr {n : Nat} (h : Waiting c s got n) (a : XchgAtr) (ha : a.rx = s.atr.rx) :
    Waiting c { s with atr := a } got n where
  running := h.running
  pos := h.pos
  left := h.left
  buf := h.buf
  room := h.room
  atrRx := ha.trans h.atrRx

/-! ## The bytes that are asked for -/

/-- The next TD byte, at the end of the block that `td` announces. -/
def nextTd (td : Byte) (block : List Byte) : Byte := if td &&& tdExists ≠ 0 then block.getLastD 0 else 0

/-- The strings that are asked for when the interface bytes announced by `td` come next, with `k`
historical bytes, and TCK so far or not. -/
inductive Asked (k : Nat) : (td : Byte) → (tck : Bool) → List Byte → Prop
  | tail {td : Byte} {tck : Bool} {L : List Byte} : ifdAtrBytes td = 0 → L.length = k + tck.toNat → Asked k td tck L
  | group {td td' : Byte} {tck : Bool} {block L : List Byte} : ifdAtrBytes td ≠ 0 →
      block.length = (ifdAtrBytes td).toNat → nextTd td block = td' →
      Asked k td' (tck || tdT td' ≠ scsProtoT0) L → Asked k td tck (block ++ L)

theorem asked_of_zero {k : Nat} {td : Byte} {tck : Bool} (h : ifdAtrBytes td = 0) :
    Asked k td tck L ↔ L.length = k + tck.toNat := by
  constructor
  · intro hL
    cases hL with
    | tail _ hL => exact hL
    | group hne => exact absurd h hne
  · exact .tail h

theorem asked_of_ne_zero {k : Nat} {td : Byte} {tck : Bool} (h : ifdAtrBytes td ≠ 0) :
    Asked k td tck L ↔ (ifdAtrBytes td).toNat ≤ L.length ∧
      Asked k (nextTd td (L.take (ifdAtrBytes td).toNat))
        (tck || tdT (nextTd td (L.take (ifdAtrBytes td).toNat)) ≠ scsProtoT0) (L.drop (ifdAtrBytes td).toNat) := by
  constructor
  · intro hL
    cases hL with
    | tail h0 => exact absurd h0 h
    | group _ hlen htd hnext =>
      rw [← hlen, List.take_left, List.drop_left, List.length_append, htd]
      exact ⟨Nat.le_add_right _ _, hnext⟩
  · rintro ⟨hlen, hnext⟩
    rw [← List.take_append_drop (ifdAtrBytes td).toNat L]
    exact .group h (by simpa using hlen) rfl hnext

/-- After the last byte. -/
theorem completes_end (h : Waiting c s got 0) (hy : s.atr.y = 0) (hk : s.atr.k = 0) (htck : s.atr.tck = false) :
    Completes c conv (atrRequest c s) L ↔ L = [] := by
  have he : (atrRequest c s).event = some .xfrCmpl := by
    simp [atrRequest, hy, hk, htck, xchgStop, h.running]
  simp [completes_of_event he]

/-- After the historical bytes. -/
theorem completes_tck (h : Waiting c s got 0) (hy : s.atr.y = 0) (hk : s.atr.k = 0) :
    Completes c conv (atrRequest c s) L ↔
      L.length = s.atr.tck.toNat ∧ got.length + L.length ≤ c.bufSize := by
  have hroom := h.room
  cases htck : s.atr.tck with
  | false =>
    rw [completes_end h hy hk htck, Bool.toNat_false, List.length_eq_zero_iff]
    constructor
    · rintro rfl
      exact ⟨rfl, hroom⟩
    · exact And.left
  | true =>
    have hreq : atrRequest c s = asking s
        { s.atr with state := .tck, tck := false, rx := (s.atr.rx + 1) % 2 ^ c.bits } 1 := by
      simp [atrRequest, hy, hk, htck, atrXfrBlock, asking]
    rw [hreq, completes_asking h (Q := L.drop 1 = []) Nat.one_pos (by decide) rfl]
    · rw [List.drop_eq_nil_iff, Bool.toNat_true]
      omega
    · intro s₁ _ hw hatr _
      have hexp : atrExpire c conv s₁ = atrRequest c s₁ := by rw [atrExpire, hatr]
      rw [hexp, completes_end hw (by rw [hatr]; exact hy) (by rw [hatr]; exact hk) (by rw [hatr])]

/-- After the interface bytes. -/
theorem completes_hist (h : Waiting c s got 0) (hy : s.atr.y = 0) (hk : s.atr.k.toNat ≤ 15) :
    Completes c conv (atrRequest c s) L ↔
      L.length = s.atr.k.toNat + s.atr.tck.toNat ∧ got.length + L.length ≤ c.bufSize := by
  by_cases hk0 : s.atr.k = 0
  · rw [completes_tck h hy hk0, hk0]
    simp
  · have hreq : atrRequest c s = asking s
        { s.atr with state := .tk, k := 0, rx := (s.atr.rx + s.atr.k.toNat) % 2 ^ c.bits } s.atr.k.toNat := by
      rw [atrRequest, if_neg (not_not.2 hy), if_pos hk0]
      rfl
    rw [hreq, completes_asking h (toNat_pos hk0) hk rfl
      (Q := (L.drop s.atr.k.toNat).length = s.atr.tck.toNat ∧ got.length + L.length ≤ c.bufSize)]
    · rw [List.length_drop]
      omega
    · intro s₁ hle hw hatr _
      have hexp : atrExpire c conv s₁ = atrRequest c s₁ := by rw [atrExpire, hatr]
      rw [hexp, completes_tck hw (by rw [hatr]; exact hy) (by rw [hatr]), hatr, List.length_append, Nat.add_assoc,
        ← List.length_append, List.take_append_drop]

/-- The last byte of a block, as `ifd_atr_expire` reads it. -/
theorem xfrRead_last (h : Waiting c s (got ++ block) 0) (hstart : s.rxStart = got.length) (hpos : block ≠ []) :
    xfrRead s (block.length - 1) = block.getLastD 0 := by
  have hlen := List.length_pos_of_ne_nil hpos
  have hi : got.length + (block.length - 1) < (got ++ block).length := by
    rw [List.length_append]
    omega
  have hlast : block.length - 1 < block.length := by omega
  rw [xfrRead, hstart, h.buf _ hi, List.get_eq_getElem, List.getElem_append_right (Nat.le_add_right _ _)]
  simp [List.getLastD_eq_getLast?, List.getLast?_eq_getElem?, hlast]

/-- The bytes that complete a reception, from the interface bytes on. -/
theorem completes_iff_asked (h : Waiting c s got 0) (hy : s.atr.y = ifdAtrBytes s.atr.tdLast)
    (hk : s.atr.k.toNat ≤ 15) :
    Completes c conv (atrRequest c s) L ↔
      Asked s.atr.k.toNat s.atr.tdLast s.atr.tck L ∧ got.length + L.length ≤ c.bufSize := by
  induction hn : L.length using Nat.strong_induction_on generalizing s got L with
  | _ n ih =>
    by_cases hy0 : s.atr.y = 0
    · rw [completes_hist h hy0 hk, asked_of_zero (hy ▸ hy0), hn]
    · have hpos := toNat_pos hy0
      have hreq : atrRequest c s = asking s
          { s.atr with state := .td, rx := (s.atr.rx + s.atr.y.toNat) % 2 ^ c.bits } s.atr.y.toNat := by
        rw [atrRequest, if_pos hy0]
        rfl
      obtain ⟨td, htd⟩ : ∃ td, td = nextTd s.atr.tdLast (L.take s.atr.y.toNat) := ⟨_, rfl⟩
      rw [hreq, completes_asking h hpos (hy ▸ ifdAtrBytes_le _) rfl
        (Q := Asked s.atr.k.toNat td (s.atr.tck || tdT td ≠ scsProtoT0) (L.drop s.atr.y.toNat) ∧
          got.length + L.length ≤ c.bufSize)]
      · have hasked : Asked s.atr.k.toNat s.atr.tdLast s.atr.tck L ↔ _ := asked_of_ne_zero (hy ▸ hy0)
        rw [hasked, ← hy, ← htd, hn]
        constructor
        · rintro ⟨h1, -, h2, h3⟩
          exact ⟨⟨h1, h2⟩, h3⟩
        · rintro ⟨⟨h1, h2⟩, h3⟩
          exact ⟨h1, by omega, h2, h3⟩
      · intro s₁ hle hw hatr hstart
        have hblock : (L.take s.atr.y.toNat).length = s.atr.y.toNat := by simpa using hle
        have hread : (if s₁.atr.tdLast &&& tdExists ≠ 0 then xfrRead s₁ (s₁.atr.y.toNat - 1) else 0) = td := by
          have hlast := xfrRead_last hw hstart (List.ne_nil_of_length_pos (hblock.symm ▸ hpos))
          rw [hblock] at hlast
          rw [hatr, htd, nextTd, hlast]
        have hexp : atrExpire c conv s₁ = atrRequest c { s₁ with
            atr := { s₁.atr with tck := s₁.atr.tck || tdT td ≠ scsProtoT0, tdLast := td, y := ifdAtrBytes td } } := by
          rw [atrExpire, hatr]
          simp only [hatr] at hread ⊢
          rw [hread]
        have hnext := ih (L.drop s.atr.y.toNat).length (by rw [List.length_drop]; omega)
          (hw.congr_atr { s₁.atr with tck := s₁.atr.tck || tdT td ≠ scsProtoT0, tdLast := td, y := ifdAtrBytes td } rfl)
          rfl (by rw [hatr]; exact hk) rfl
        rw [hexp, hnext, hatr, List.length_append, Nat.add_assoc, ← List.length_append, List.take_append_drop]

/-! ## The bytes of an answer -/

theorem nextTd_none (g : Group) (t : BitVec 4) : nextTd (g.y false ++ t) block = 0 :=
  if_neg (by rw [tdExists_td]; decide)

theorem nextTd_some (g : Group) (t : BitVec 4) (td : Byte) : nextTd (g.y true ++ t) (block ++ [td]) = td := by
  rw [nextTd, if_pos ((tdExists_td g true t).2 rfl), List.getLastD_concat]

theorem setWidth_eq_scsProtoT0 (t : BitVec 4) : t.setWidth 8 = scsProtoT0 ↔ t = 0 := by
  revert t
  decide

/-- Without TD the interface bytes end with the group. -/
theorem asked_last {k : Nat} {tck : Bool} {g : Group} {t : BitVec 4} (hL : L.length = k + tck.toNat) :
    Asked k (g.y false ++ t) tck (g.bytes ++ L) := by
  have hlen := ifdAtrBytes_td g false t
  by_cases h0 : ifdAtrBytes (g.y false ++ t) = 0
  · have hnil : g.bytes = [] := List.length_eq_zero_iff.1 (by simpa [h0] using hlen.symm)
    rw [hnil]
    exact .tail h0 hL
  · have hzero : Asked k 0 (tck || tdT 0 ≠ scsProtoT0) L := .tail (by decide) (by simpa [tdT, scsProtoT0] using hL)
    exact .group h0 hlen.symm (nextTd_none g t) hzero

/-- The interface bytes of the grammar are asked for. -/
theorem asked_chain {k : Nat} {tck : Bool} {g : Group} {rest : List (BitVec 4 × Group)} {t : BitVec 4}
    (hL : L.length = k + (tck || rest.any fun x => x.1 ≠ 0).toNat) :
    Asked k (g.y (!rest.isEmpty) ++ t) tck (chain g rest ++ L) := by
  induction rest generalizing g t tck with
  | nil => exact asked_last (by simpa using hL)
  | cons x rest ih =>
    obtain ⟨t', g'⟩ := x
    have hlen := ifdAtrBytes_td g true t
    have h0 : ifdAtrBytes (g.y true ++ t) ≠ 0 := by
      intro h0
      rw [h0] at hlen
      simp at hlen
    have hblock : chain g ((t', g') :: rest) ++ L =
        (g.bytes ++ [g'.y (!rest.isEmpty) ++ t']) ++ (chain g' rest ++ L) := by
      simp [chain]
    rw [hblock]
    refine .group h0 (by simpa using hlen.symm) (nextTd_some g t _) (ih (hL.trans ?_))
    simp [tdT_td, setWidth_eq_scsProtoT0, Bool.or_assoc]

/-- An optional byte at the start of a block. -/
theorem exists_option (b : Bool) {n : Nat} (h : block.length = b.toNat + n) :
    ∃ o : Option Byte, o.isSome = b ∧ ∃ tail, block = o.toList ++ tail ∧ tail.length = n := by
  cases b with
  | false => exact ⟨none, rfl, block, rfl, by simpa using h⟩
  | true =>
    cases block with
    | nil =>
      simp at h
      omega
    | cons x tail =>
      rw [List.length_cons, Bool.toNat_true] at h
      exact ⟨some x, rfl, tail, rfl, by omega⟩

theorem td_split (td : Byte) : td =
    (BitVec.ofBool (td.getLsbD 7) ++ BitVec.ofBool (td.getLsbD 6) ++ BitVec.ofBool (td.getLsbD 5) ++
      BitVec.ofBool (td.getLsbD 4) : BitVec 4) ++ td.setWidth 4 := by
  revert td
  decide

theorem ifdAtrBytes_bits (td : Byte) : (ifdAtrBytes td).toNat =
    (td.getLsbD 4).toNat + ((td.getLsbD 5).toNat + ((td.getLsbD 6).toNat + (td.getLsbD 7).toNat)) := by
  revert td
  decide

/-- A block of the length that TD announces is a group, with TD at its end or not. -/
theorem exists_group {td : Byte} (h : block.length = (ifdAtrBytes td).toNat) :
    ∃ (g : Group) (o : Option Byte), td = g.y o.isSome ++ td.setWidth 4 ∧ block = g.bytes ++ o.toList := by
  rw [ifdAtrBytes_bits] at h
  obtain ⟨ta, hta, l₁, rfl, h1⟩ := exists_option _ h
  obtain ⟨tb, htb, l₂, rfl, h2⟩ := exists_option _ h1
  obtain ⟨tc, htc, l₃, rfl, h3⟩ := exists_option _ h2
  obtain ⟨o, ho, l₄, rfl, h4⟩ := exists_option _ (h3.trans (Nat.add_zero _).symm)
  obtain rfl := List.length_eq_zero_iff.1 h4
  refine ⟨⟨ta, tb, tc⟩, o, ?_, ?_⟩
  · rw [Group.y, ho, hta, htb, htc]
    exact td_split td
  · simp [Group.bytes]

/-- What is asked for are the interface bytes of the grammar. -/
theorem exists_chain {k : Nat} {td : Byte} {tck : Bool} (h : Asked k td tck L) :
    ∃ (g : Group) (rest : List (BitVec 4 × Group)) (tail : List Byte),
      td = g.y (!rest.isEmpty) ++ td.setWidth 4 ∧ L = chain g rest ++ tail ∧
      tail.length = k + (tck || rest.any fun x => x.1 ≠ 0).toNat := by
  induction h with
  | @tail td tck L h0 hL =>
    obtain ⟨g, o, htd, hb⟩ := exists_group (by simp [h0] : ([] : List Byte).length = (ifdAtrBytes td).toNat)
    obtain ⟨hg, ho⟩ := List.append_eq_nil_iff.1 hb.symm
    obtain rfl : o = none := Option.toList_eq_nil_iff.1 ho
    exact ⟨g, [], L, htd, by rw [chain, hg, List.nil_append], by simpa using hL⟩
  | @group td td' tck block L h0 hlen hnext _ ih =>
    obtain ⟨g, o, htd, rfl⟩ := exists_group hlen
    obtain ⟨g', rest, tail, htd', rfl, htail⟩ := ih
    rw [htd] at hnext
    cases o with
    | none =>
      have hzero : td' = 0 := by rw [← hnext]; exact nextTd_none g _
      have hlen' := ifdAtrBytes_td g' (!rest.isEmpty) (td'.setWidth 4)
      rw [← htd', hzero, show (ifdAtrBytes 0).toNat = 0 by decide] at hlen'
      obtain rfl : rest = [] := by
        cases rest with
        | nil => rfl
        | cons x rest => simp at hlen'
      have hg' : g'.bytes = [] := List.length_eq_zero_iff.1 (by simpa using hlen'.symm)
      refine ⟨g, [], tail, htd, by simp [chain, hg'], htail.trans ?_⟩
      simp [hzero, tdT, scsProtoT0]
    | some x =>
      obtain rfl : td' = x := by rw [← hnext]; exact nextTd_some g _ x
      refine ⟨g, (td'.setWidth 4, g') :: rest, tail, htd, by simp [chain, ← htd'], htail.trans ?_⟩
      have ht := tdT_td (g'.y (!rest.isEmpty)) (td'.setWidth 4)
      rw [← htd'] at ht
      simp [ht, setWidth_eq_scsProtoT0, Bool.or_assoc]

theorem Config.bufSize_ge (c : Config) : 261 ≤ c.bufSize := by
  have := c.apduMax_ge
  unfold Config.bufSize
  split_ifs <;> omega

theorem reset_waiting (c : Config) (s : Reception) : Waiting c (reset s) [] 2 :=
  ⟨rfl, rfl, rfl, fun i hi => absurd hi (Nat.not_lt_zero i), Nat.zero_le _, rfl⟩

/-- TS and T0 have come in. -/
theorem atrExpire_ts (h : Waiting c s [ts, t0] 0) (hstate : s.atr.state = .ts) (hstart : s.rxStart = 0) :
    atrExpire c conv s = if ts ≠ conv then xchgStop s .convErr else
      atrRequest c { s with
        atr := { s.atr with k := t0K t0, tck := false, tdLast := t0, y := ifdAtrBytes t0 } } := by
  have hts : xfrRead s 0 = ts := by
    rw [xfrRead, hstart]
    exact h.buf 0 (by simp)
  have ht0 : xfrRead s 1 = t0 := by
    rw [xfrRead, hstart]
    exact h.buf 1 (by simp)
  rw [atrExpire, hstate]
  simp only [hts, ht0]

/-- A reception completes on the strings that are asked for after TS and T0. -/
theorem completes_reset : Completes c conv (reset s) L ↔
    ∃ t0 tail, L = conv :: t0 :: tail ∧ Asked (t0K t0).toNat t0 false tail ∧ L.length ≤ c.bufSize := by
  have hroom := c.bufSize_ge
  have hw := reset_waiting c s
  rw [completes_block (n := 1) hw]
  rcases L with - | ⟨ts, - | ⟨t0, tail⟩⟩
  · simp
  · simp
  · have hw2 : Waiting c (storeAll (reset s) [ts, t0]) [ts, t0] 0 :=
      hw.take (L := [ts, t0]) le_rfl (by rw [List.length_nil]; omega)
    obtain ⟨hatr, hstart, -⟩ := storeAll_atr (reset s) [ts, t0]
    simp only [List.take_succ_cons, List.take_zero, List.drop_succ_cons, List.drop_zero]
    generalize storeAll (reset s) [ts, t0] = s₂ at hw2 hatr hstart ⊢
    rw [atrExpire_ts hw2 (by rw [hatr]; rfl) hstart]
    by_cases hts : ts = conv
    · subst hts
      rw [if_neg (not_not.2 rfl), completes_iff_asked
        (hw2.congr_atr { s₂.atr with k := t0K t0, tck := false, tdLast := t0, y := ifdAtrBytes t0 } rfl)
        rfl (t0K_le t0)]
      simp only [List.length_cons, List.length_nil, List.cons.injEq, true_and]
      constructor
      · rintro ⟨-, -, h1, h2⟩
        exact ⟨t0, tail, ⟨rfl, rfl⟩, h1, by omega⟩
      · rintro ⟨t0', tail', ⟨rfl, rfl⟩, h1, h2⟩
        exact ⟨by omega, by omega, h1, by omega⟩
    · have he : (xchgStop s₂ .convErr).event = some .convErr := by
        simp [xchgStop, hw2.running]
      rw [if_pos hts, completes_of_event he]
      simp [hts]

/-! ## What a reception keeps -/

/-- Between two bytes: bytes of a block are to come, or the transfer has ended and `got` is what
has been received. -/
def Inv (c : Config) (s : Reception) (got : List Byte) : Prop :=
  (∃ n, Waiting c s got (n + 1) ∧ (s.atr.state = .ts ∨ s.atr.y.toNat ≤ 15 ∧ s.atr.k.toNat ≤ 15)) ∨
    s.event = some .convErr ∨ s.event = some .xfrCmpl ∧ s.nr = got.length ∧ Holds s.buf got

theorem asking_inv (h : Waiting c s got 0) {a : XchgAtr} {n : Nat} (hpos : 0 < n) (hn : n ≤ 15)
    (ha : a.rx = (s.atr.rx + n) % 2 ^ c.bits) (hy : a.y.toNat ≤ 15) (hk : a.k.toNat ≤ 15) :
    Inv c (asking s a n) got := by
  obtain ⟨m, rfl⟩ := Nat.exists_eq_succ_of_ne_zero hpos.ne'
  exact .inl ⟨m, h.asking hn ha, .inr ⟨hy, hk⟩⟩

theorem atrRequest_inv (h : Waiting c s got 0) (hy : s.atr.y.toNat ≤ 15) (hk : s.atr.k.toNat ≤ 15) :
    Inv c (atrRequest c s) got := by
  unfold atrRequest
  split_ifs with h1 h2 h3
  · exact asking_inv h (toNat_pos h1) hy rfl hy hk
  · exact asking_inv h (toNat_pos h2) hk rfl hy (Nat.zero_le 15)
  · exact asking_inv h Nat.one_pos (by norm_num : 1 ≤ 15) rfl hy hk
  · have hpos := h.pos
    have hleft := h.left
    have hrx := h.atrRx
    refine .inr (.inr ⟨by simp [xchgStop, h.running], ?_, h.buf⟩)
    change s.atr.rx = got.length
    omega

theorem atrExpire_inv (h : Waiting c s got 0)
    (hyk : s.atr.state = .ts ∨ s.atr.y.toNat ≤ 15 ∧ s.atr.k.toNat ≤ 15) : Inv c (atrExpire c conv s) got := by
  unfold atrExpire
  split
  · split_ifs with hts
    · exact .inr (.inl (by simp [xchgStop, h.running]))
    · exact atrRequest_inv (h.congr_atr _ rfl) (ifdAtrBytes_le _) (t0K_le _)
  · rename_i hstate
    have hk := (hyk.resolve_left (by rw [hstate]; decide)).2
    exact atrRequest_inv (h.congr_atr _ rfl) (ifdAtrBytes_le _) hk
  · rename_i hts _
    obtain ⟨hy, hk⟩ := hyk.resolve_left hts
    exact atrRequest_inv h hy hk

theorem feed_inv {b : Byte} (h : Inv c s got) (he : feed c conv s b = some s') : Inv c s' (got ++ [b]) := by
  rcases h with ⟨n, hw, hyk⟩ | h | ⟨h, -⟩
  · rw [hw.feed] at he
    split_ifs at he with hroom hn
    · obtain rfl := Option.some.inj he
      subst hn
      exact atrExpire_inv (hw.store hroom b) hyk
    · obtain rfl := Option.some.inj he
      obtain ⟨m, rfl⟩ := Nat.exists_eq_succ_of_ne_zero hn
      exact .inl ⟨m, hw.store hroom b, hyk⟩
  · simp [feed, h] at he
  · simp [feed, h] at he

theorem foldlM_feed_inv (h : Inv c s got) (he : L.foldlM (feed c conv) s = some s') : Inv c s' (got ++ L) :=
  Framework.foldlM_invariant (I := Inv c) (fun _ _ _ _ h he => feed_inv h he) h he

/-! ## The reception of an answer -/

/-- After a reception the buffer has the bytes, and `ifd_xchg_avail` returns their number. -/
theorem received_spec (h : Received c conv s L s') : s'.nr = L.length ∧ Holds s'.buf L := by
  obtain ⟨he, hcmpl⟩ := h
  rcases foldlM_feed_inv (.inl ⟨1, reset_waiting c s, .inl rfl⟩) he with ⟨n, hw, -⟩ | h | ⟨-, h⟩
  · rw [hw.running] at hcmpl
    cases hcmpl
  · rw [h] at hcmpl
    cases hcmpl
  · exact h

theorem t0K_t0 (a : Atr) : (t0K a.t0).toNat = a.hist.length := by
  have hk : ∀ y k : BitVec 4, t0K (y ++ k) = k.setWidth 8 := by decide
  have := a.hist_lt
  rw [Atr.t0, hk, BitVec.toNat_setWidth, BitVec.toNat_ofNat]
  omega

theorem any_protos (a : Atr) : (a.rest.any fun x => x.1 ≠ 0) = true ↔ ∃ t ∈ a.protos, t ≠ 0 := by
  simp [Atr.protos]

theorem length_tck {a : Atr} (h : a.Checked) : a.tck.toList.length = (a.rest.any fun x => x.1 ≠ 0).toNat := by
  rw [Atr.Checked, ← any_protos] at h
  generalize (a.rest.any fun x => x.1 ≠ 0) = b at h ⊢
  generalize a.tck = o at h ⊢
  cases b <;> cases o <;> simp_all

/-- The bytes after the interface bytes are the historical bytes and TCK. -/
theorem exists_tail {k : Nat} {b : Bool} {tail : List Byte} (h : tail.length = k + b.toNat) :
    ∃ (hist : List Byte) (tck : Option Byte), tail = hist ++ tck.toList ∧ hist.length = k ∧ tck.isSome = b := by
  obtain ⟨tck, htck, rest, hdrop, hrest⟩ := exists_option b
    (by rw [List.length_drop]; omega : (tail.drop k).length = b.toNat + 0)
  obtain rfl := List.length_eq_zero_iff.1 hrest
  refine ⟨tail.take k, tck, ?_, ?_, htck⟩
  · rw [← List.append_nil tck.toList, ← hdrop, List.take_append_drop]
  · rw [List.length_take]
    omega

/-- The strings that are received are those of the grammar that have TCK when a T is not 0, as far
as there is room. -/
theorem received_iff : (∃ s', Received c conv s L s') ↔
    (∃ a : Atr, a.Checked ∧ a.ts = conv ∧ a.bytes = L) ∧ L.length ≤ c.bufSize := by
  change Completes c conv (reset s) L ↔ _
  rw [completes_reset]
  constructor
  · rintro ⟨t0, tail, rfl, hasked, hroom⟩
    obtain ⟨g, rest, tail, htd, rfl, hlen⟩ := exists_chain hasked
    obtain ⟨hist, tck, rfl, hhist, htck⟩ := exists_tail hlen
    have hk := t0K_le t0
    have ht0 : BitVec.ofNat 4 hist.length = t0.setWidth 4 := by
      have : ∀ b : Byte, BitVec.ofNat 4 (t0K b).toNat = b.setWidth 4 := by decide
      rw [hhist, this]
    refine ⟨⟨⟨conv, g, rest, hist, tck, by omega⟩, ?_, rfl, ?_⟩, hroom⟩
    · rw [Atr.Checked, ← any_protos]
      simp [htck]
    · simp only [Atr.bytes, Atr.body, Atr.t0, ht0, ← htd]
      simp
  · rintro ⟨⟨a, hck, rfl, rfl⟩, hroom⟩
    refine ⟨a.t0, chain a.first a.rest ++ (a.hist ++ a.tck.toList), by simp [Atr.bytes, Atr.body], ?_, hroom⟩
    refine asked_chain ?_
    rw [List.length_append, t0K_t0, length_tck hck, Bool.false_or]

end Sdfirm.IfdAtr
