import Sdfirm.Spec.IfdCrc
import Sdfirm.Proof.IfdT1.Blocks

/-!
# The CRC of a block

`crc_ccitt_update` shifts its register to the right under either convention.
With `0x8408` that divides by the generator of CRC-CCITT, lowest bit of each
byte first (`isCrcCcitt_crcCcitt`), and a burst shows (`rejects_burst`). With
`0x1021`, whose highest bit is clear, it divides by a polynomial that is a
multiple of `X ^ 3`: a burst of 14 bits passes (`burst_accepted`).
-/

namespace Sdfirm.IfdT1

open Framework.Buffer Framework.Crc Polynomial

variable {c : Config} {s t : State} {bytes : List Byte} {crc crc' : BitVec 16}

/-! ## The check sequence -/

@[simp] theorem length_wire (inverse : Bool) {w : Nat} (x : BitVec w) : (wire inverse x).length = w := by
  cases inverse <;> simp [wire]

theorem wire_inj {inverse : Bool} {w : Nat} {x y : BitVec w} (h : wire inverse x = wire inverse y) : x = y := by
  apply lsbFirst_inj
  cases inverse
  · exact h
  · exact List.reverse_injective h

theorem IsCrcCcitt.unique {inverse : Bool} (h : IsCrcCcitt inverse bytes crc) (h' : IsCrcCcitt inverse bytes crc') :
    crc = crc' := by
  have hw : wire inverse (~~~ crc) = wire inverse (~~~ crc') := poly_inj (by simp) (h.trans h'.symm)
  simpa using congrArg (~~~ ·) (wire_inj hw)

theorem generator_ccitt : generator (crcCcittPoly false) = ccitt := by
  have hbits : lsbFirst (crcCcittPoly false) =
      [false, false, false, true, false, false, false, false, false, false, true, false, false, false, false, true] := by
    decide
  rw [generator, hbits, ccitt]
  simp [poly, add_assoc]

/-- `crc_ccitt_update` takes the bits of the byte, lowest first. -/
theorem crcCcittUpdate_eq (msb : Bool) (crc : BitVec 16) (byte : Byte) :
    crcCcittUpdate msb crc byte = (lsbFirst byte).foldl (shift (crcCcittPoly msb)) crc := by
  rw [lsbFirst, List.foldl_map]
  rfl

theorem isCrcCcitt_crcCcitt (bytes : List Byte) : IsCrcCcitt false bytes (crcCcitt false bytes) := by
  have hfold : bytes.foldl (crcCcittUpdate false) 0xFFFF =
      (message false bytes).foldl (shift (crcCcittPoly false)) 0xFFFF := by
    rw [message, List.foldl_flatMap]
    exact congrArg (List.foldl · 0xFFFF bytes) (funext₂ (crcCcittUpdate_eq false))
  have hinit : lsbFirst (0xFFFF : BitVec 16) = List.replicate 16 true := by decide
  rw [IsCrcCcitt, crcCcitt, BitVec.not_not, hfold, ← generator_ccitt, ← hinit]
  exact poly_feed (by decide) 0xFFFF (message false bytes)

/-! ## Accepting a block -/

theorem append_eq_iff {v w : Nat} {hi : BitVec v} {lo : BitVec w} {x : BitVec (v + w)} :
    hi ++ lo = x ↔ (x >>> w).setWidth v = hi ∧ lo = x.setWidth w := by
  constructor
  · rintro rfl
    constructor
    · ext i hi
      simp [BitVec.getLsbD_append, BitVec.getLsbD_eq_getElem hi]
    · ext i hi
      simp [BitVec.getLsbD_append, hi]
  · rintro ⟨rfl, rfl⟩
    ext i hi
    rw [BitVec.getElem_append]
    split
    · simp [BitVec.getLsbD_eq_getElem hi]
    · simp [show w + (i - w) = i by omega, BitVec.getLsbD_eq_getElem hi]

theorem verifyCrc_iff : verifyCrc s ↔ lastTwo s = crcCcitt s.inverse (covered s) := by
  rw [lastTwo, append_eq_iff, verifyCrc, covered]
  split
  · rename_i h
    simp [h]
  · rename_i h
    simp [h]

/-- `ifd_t1_verify_checksum` asks `ifd_t1_verify_crc` when the card takes a CRC. -/
theorem verifyChecksum_eq_verifyCrc (hcrc : c.crc) (h : s.conf.tccks &&& 0x01 ≠ 0) :
    verifyChecksum c s = verifyCrc s := by
  have hbit : ∀ b : Byte, b &&& 0x01 ≠ 0 → (b &&& 0x01).toNat = 1 := by decide
  have hchecked : checked c s = true := by rw [checked, if_pos h, hcrc]
  have hsize : epilogueSize s = 2 := by rw [epilogueSize, hbit _ h]
  have htwo : ∀ i, slice s.buf i 2 = [s.buf i, s.buf (i + 1)] := fun i => rfl
  rw [Bool.eq_iff_iff, verifyCrc_iff, lastTwo, append_eq_iff, verifyChecksum, hchecked, hsize, htwo, epilogue, if_pos h]
  simp only [Bool.true_and, decide_eq_true_eq, List.cons.injEq, and_true]
  exact and_congr_left' eq_comm

theorem verifyCrc_iff_isCrcCcitt (hs : s.inverse = false) :
    verifyCrc s ↔ IsCrcCcitt false (covered s) (lastTwo s) := by
  rw [verifyCrc_iff, hs]
  constructor
  · intro h
    rw [h]
    exact isCrcCcitt_crcCcitt _
  · intro h
    exact h.unique (isCrcCcitt_crcCcitt _)

theorem verifyCrc_of_computeChecksum (hcrc : c.crc) (h : Sendable c s) :
    ∃ s', computeChecksum c s = some s' ∧ ∀ t, Received s' t → verifyCrc t := by
  set n := s.ifsc.toNat + ifdT1PrologueSize with hn
  set crc := crcCcitt s.inverse (slice s.buf s.txBlk n) with hc
  have hepilogue : computeChecksum c s = xchgWrite c s (s.txBlk + n) [(crc >>> 8).setWidth 8, crc.setWidth 8] := by
    have hchecked : checked c s = true := by rw [checked, if_pos h.tccks, hcrc]
    simp only [computeChecksum, hchecked, if_true, epilogue, if_pos h.tccks, ← hn, ← hc]
  refine ⟨_, hepilogue.trans (xchgWrite_eq_some.mpr ⟨.inr h.room, rfl⟩), fun t ht => ?_⟩
  have hlen : t.rxLen.toNat + ifdT1PrologueSize = n := by rw [ht.rxLen]
  have hbytes : ∀ k < n + 2, t.buf (t.rxBlk + k) =
      overlay s.buf (s.txBlk + n) [(crc >>> 8).setWidth 8, crc.setWidth 8] (s.txBlk + k) := ht.bytes
  have hcovered : covered t = slice s.buf s.txBlk n := by
    rw [covered, hlen]
    apply List.map_congr_left
    intro k hk
    have hk : k < n := List.mem_range.mp hk
    exact (hbytes k (by omega)).trans (overlay_outside (.inl (by omega)))
  have hlast : ∀ k < 2, t.buf (t.rxBlk + n + k) = [(crc >>> 8).setWidth 8, crc.setWidth 8].getD k 0 := by
    intro k hk
    rw [Nat.add_assoc, hbytes (n + k) (by omega), overlay_inside (by omega) (by simp; omega) 0, show s.txBlk + (n + k) - (s.txBlk + n) = k by omega]
  rw [verifyCrc_iff, lastTwo, hlen, append_eq_iff, hcovered, ht.inverse]
  exact ⟨(hlast 0 (by decide)).symm, hlast 1 (by decide)⟩

/-! ## Bursts -/

theorem degree_ccitt : ccitt.degree = 16 := generator_ccitt ▸ degree_generator _

theorem monic_ccitt : ccitt.Monic := generator_ccitt ▸ monic_generator _

theorem Altered.length_eq (h : Altered s t) :
    (message s.inverse (covered t)).length = (message s.inverse (covered s)).length := by
  obtain ⟨e, -, hlen, hm⟩ := h.burst
  simp [hm, hlen]

/-- A block that a burst has altered does not have the check sequence it had. -/
theorem Altered.not_isCrcCcitt (h : Altered s t) (hs : IsCrcCcitt s.inverse (covered s) crc) :
    ¬ IsCrcCcitt s.inverse (covered t) crc := by
  intro ht
  have hlength := h.length_eq
  obtain ⟨e, ⟨n, w, k, rfl, hw, hone⟩, hlen, hm⟩ := h.burst
  have hpoly : poly (message s.inverse (covered t)) = poly (message s.inverse (covered s)) + poly w * X ^ k := by
    rw [hm, poly_xor hlen.symm, poly_append, poly_append, poly_replicate_false, poly_replicate_false]
    simp
  have hmod := ht.symm.trans hs
  rw [hlength, hpoly, ← sub_eq_zero, ← sub_modByMonic, modByMonic_eq_zero_iff_dvd monic_ccitt] at hmod
  have hdvd : ccitt ∣ X ^ (16 + k) * poly w := by
    refine hmod.trans (dvd_of_eq ?_)
    ring
  have h0 : ccitt.coeff 0 ≠ 0 := by simp [ccitt]
  have hdeg : (w.length : WithBot Nat) ≤ ccitt.degree := by
    rw [degree_ccitt]
    exact_mod_cast hw
  exact absurd (eq_false_of_dvd h0 hdeg hdvd true hone) nofun

theorem rejects_burst (hs : s.inverse = false) (h : verifyCrc s) (hst : Altered s t) : verifyCrc t = false := by
  rw [verifyCrc_iff_isCrcCcitt hs, ← hs] at h
  by_contra ht
  rw [Bool.not_eq_false, verifyCrc_iff_isCrcCcitt (hst.inverse.trans hs), hst.lastTwo, ← hs] at ht
  exact hst.not_isCrcCcitt h ht

/-! ## The inverse convention -/

/-- A slot that uses a CRC, with a block of three information bytes at the start of its buffer. -/
def holding (inverse : Bool) (block : List Byte) : State where
  savedBuf := fun _ => 0
  savedLen := 0
  ns := 0
  nr := 0
  txCmpl := false
  rxCmpl := false
  pcb := 0
  ackType := 0
  ackInfo := 0
  wtx := 0
  resyncLevel := 0
  resyncRetry := 0
  tx := 0
  rx := 0
  nc := 0
  txBlk := 0
  rxBlk := 0
  rxLen := 3
  ifsc := 3
  ifsd := 32
  ackIfsc := 3
  conf := ⟨1, 32, 0, 32⟩
  inverse := inverse
  buf := fun i => block.getD i 0
  error := .success
  ended := 0

theorem burst_accepted : verifyCrc (holding true [0, 0, 3, 0, 0, 0, 0xF0, 0x3F]) = true ∧
    Altered (holding true [0, 0, 3, 0, 0, 0, 0xF0, 0x3F]) (holding true [0, 0, 3, 0x43, 0x20, 0, 0xF0, 0x3F]) ∧
    verifyCrc (holding true [0, 0, 3, 0x43, 0x20, 0, 0xF0, 0x3F]) = true := by
  refine ⟨by decide +kernel, ⟨rfl, rfl, by decide, ?_⟩, by decide +kernel⟩
  exact ⟨_, ⟨24, wire true (0x43 : Byte) ++ wire true (0x20 : Byte), 8, rfl, by decide, by decide⟩, by decide +kernel,
    by decide +kernel⟩

/-- The CRC protects a block under the direct convention, and only there. -/
theorem protects_iff_direct (c : Config) (hcrc : c.crc) (inverse : Bool) : Protects c inverse ↔ inverse = false := by
  constructor
  · intro h
    by_contra hi
    obtain ⟨hs, hst, ht⟩ := burst_accepted
    have hfalse := h.rejects _ _ (Bool.not_eq_false _ ▸ hi).symm hs hst
    exact absurd (ht.symm.trans hfalse) nofun
  · rintro rfl
    exact {
      accepts_iff := fun s hs => verifyCrc_iff_isCrcCcitt hs
      completed := fun s _ h => verifyCrc_of_computeChecksum hcrc h
      rejects := fun s t hs h hst => rejects_burst hs h hst }

/-- A reader of short APDUs with both checks. -/
def bothChecks : Config := ⟨256, 32, 254, false, true, true, apduMax_short_ge, apduMax_short_le⟩

theorem protects_direct : bothChecks.crc ∧ Protects bothChecks false :=
  ⟨rfl, (protects_iff_direct bothChecks rfl false).mpr rfl⟩

theorem burst_passes : ∃ s t, s.inverse = true ∧ verifyCrc s = true ∧ Altered s t ∧ verifyCrc t = true :=
  ⟨_, _, rfl, burst_accepted⟩

end Sdfirm.IfdT1
