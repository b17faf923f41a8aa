import Mathlib
import Sdfirm.Proof.Vsnprintf.Text
import Sdfirm.Spec.Vsnprintf

/-!
# Integers

The text of an integer conversion is the one of the C standard for a `Plain` directive: `integer_text_of_plain`. It is not
for `%ld`, where the number is cut to 32 bits.
-/

namespace Sdfirm.Vsnprintf

/-! ## Digits -/

theorem putDigits_eq (base : Nat) (hb : 1 < base) (fuel n : Nat) (h : n < base ^ fuel) :
    putDigits base fuel n = Nat.digits base n := by
  induction fuel generalizing n with
  | zero =>
    have h0 : n = 0 := by simpa using h
    simp [h0, putDigits]
  | succ fuel ih =>
    by_cases h0 : n = 0
    · simp [h0, putDigits]
    · have hq : n / base < base ^ fuel := Nat.div_lt_of_lt_mul (by rwa [Nat.pow_succ'] at h)
      rw [putDigits, if_neg h0, ih _ hq, Nat.digits_def' hb (Nat.pos_of_ne_zero h0)]

theorem putNumber_eq (m : BitVec 64) (base : Nat) (hb : 1 < base) (upper : Bool) :
    putNumber m base upper =
      if m.toNat = 0 then ['0'] else (Nat.digits base m.toNat).map (digitChar upper) := by
  have hlt : m.toNat < base ^ 64 := Nat.lt_of_lt_of_le m.isLt (Nat.pow_le_pow_left hb 64)
  have h0 : m = 0 ↔ m.toNat = 0 := by simp [← BitVec.toNat_inj]
  simp only [putNumber, h0, putDigits_eq base hb 64 _ hlt]

/-! ## Values -/

theorem number_signed (q : Qualifier) (a : Arg)
    (h : q = .l → -2 ^ 31 ≤ Conversion.value .d q a ∧ Conversion.value .d q a < 2 ^ 31) :
    (number q true a).toInt = Conversion.value .d q a := by
  have hext {w : Nat} (x : BitVec w) (hw : w ≤ 64) : (x.signExtend 64).toInt = x.toInt :=
    BitVec.toInt_signExtend_of_le hw
  cases q with
  | none => exact hext _ (by decide)
  | h =>
    simp only [number, if_true, Conversion.value]
    rw [hext _ (by decide), BitVec.setWidth_setWidth_of_le _ (by decide), BitVec.setWidth_eq]
  | l =>
    have hr := h rfl
    simp only [number, if_true, Conversion.value] at hr ⊢
    rw [hext _ (by decide), BitVec.toInt_setWidth]
    rw [BitVec.toInt_eq_toNat_bmod] at hr ⊢
    have := a.long.isLt
    simp only [Int.bmod] at hr ⊢
    omega
  | L => rfl

theorem number_unsigned (k : Conversion) (hk : k ≠ .d) (q : Qualifier) (a : Arg) :
    ((number q false a).toNat : Int) = k.value q a := by
  have hext {w : Nat} (x : BitVec w) (hw : w ≤ 64) : (x.setWidth 64).toNat = x.toNat :=
    BitVec.toNat_setWidth_of_le hw
  have hint : (number .none false a).toNat = a.int.toNat := hext a.int (by decide)
  have hshort : (number .h false a).toNat = (a.int.setWidth 16).toNat := hext (a.int.setWidth 16) (by decide)
  cases k with
  | d => exact absurd rfl hk
  | u | o | x | X =>
    cases q with
    | none => exact congrArg _ hint
    | h => exact congrArg _ hshort
    | l | L => rfl

/-- The sign, as text. -/
def signText (type : Flags) (v : Int) : List Char :=
  if type.sign then if v < 0 then ['-'] else if type.plus then ['+'] else if type.space then [' '] else [] else []

theorem takeSign_eq (type : Flags) (n : BitVec 64) (width v : Int) (hs : type.sign = true → n.toInt = v)
    (hu : type.sign = false → (n.toNat : Int) = v) :
    ∃ sign m, takeSign type n width = (sign, m, width - (signText type v).length) ∧ sign.toList = signText type v ∧
      m.toNat = v.natAbs := by
  cases hsign : type.sign with
  | false =>
    refine ⟨none, n, ?_, ?_, ?_⟩
    · simp [takeSign, signText, hsign]
    · simp [signText, hsign]
    · have := hu hsign
      omega
  | true =>
    have hv := hs hsign
    by_cases hneg : v < 0
    · refine ⟨some '-', -n, ?_, ?_, ?_⟩
      · simp [takeSign, signText, hsign, hv, hneg]
      · simp [signText, hsign, hneg]
      · rw [BitVec.toInt_eq_toNat_cond] at hv
        rw [BitVec.toNat_neg]
        have := n.isLt
        split at hv <;> omega
    · have habs : n.toNat = v.natAbs := by
        rw [BitVec.toInt_eq_toNat_cond] at hv
        have := n.isLt
        split at hv <;> omega
      refine ⟨(signText type v).head?, n, ?_, ?_, habs⟩
      · simp only [takeSign, signText, hsign, hv, hneg, if_true, if_false]
        split_ifs <;> simp
      · simp only [signText, hsign, hneg, if_true, if_false]
        split_ifs <;> rfl

/-! ## Texts -/

section

variable (d : Directive) (k : Conversion) (v : Int)

/-- The flags with what the conversion adds. -/
def flagsOf : Flags := { d.type with sign := k = .d, large := k = .X }

theorem base_gt : 1 < k.base := by
  cases k <;> decide

theorem numeral_eq (m : BitVec 64) (hm : m.toNat = v.natAbs) (h : v = 0 → d.prec ≠ some 0) :
    List.replicate (d.precision - (putNumber m k.base (k = .X)).length).toNat '0' ++ (putNumber m k.base (k = .X)).reverse =
      k.numeral d.prec v := by
  rw [putNumber_eq m _ (base_gt k), hm]
  simp only [Conversion.numeral, Directive.prec] at h ⊢
  by_cases hv : v = 0
  · subst hv
    by_cases hp : d.precision < 0
    · have hz : (d.precision - 1).toNat = 0 := by omega
      simp [hp, hz]
    · obtain ⟨p, hp'⟩ : ∃ p, d.precision.toNat = p + 1 := by
        rw [if_neg hp] at h
        exact Nat.exists_eq_succ_of_ne_zero fun h0 => h rfl (congrArg some h0)
      have hz : (d.precision - 1).toNat = p := by omega
      simp [hp, hp', hz, List.replicate_succ']
  · have habs : v.natAbs ≠ 0 := by omega
    have hlen : 0 < (Nat.digits k.base v.natAbs).length := by
      rw [List.length_pos_iff]
      exact Nat.digits_ne_nil_iff_ne_zero.mpr habs
    rw [if_neg habs]
    congr 2
    simp only [List.length_map, List.length_reverse]
    split
    · simp only [Option.getD_none]
      omega
    · simp only [Option.getD_some]
      omega

theorem digitChar_ne_zero : ∀ i < 8, i ≠ 0 → digitChar false i ≠ '0' := by
  decide

/-- The first octal digit is not 0. -/
theorem octal_head (hv : v ≠ 0) (h : ∀ p, d.prec = some p → p ≤ (Nat.digits 8 v.natAbs).length) :
    (Conversion.numeral .o d.prec v).head? ≠ some '0' := by
  have habs : v.natAbs ≠ 0 := by omega
  have hnil := Nat.digits_ne_nil_iff_ne_zero (b := 8).mpr habs
  have hlen := List.length_pos_iff.mpr hnil
  have hp : d.prec.getD 1 ≤ (Nat.digits 8 v.natAbs).length := by
    cases hd : d.prec with
    | none => exact hlen
    | some p => exact h p hd
  have hz : d.prec.getD 1 - (Nat.digits 8 v.natAbs).length = 0 := Nat.sub_eq_zero_of_le hp
  have hlast := Nat.getLast_digit_ne_zero 8 habs
  have hlt := Nat.digits_lt_base (b := 8) (by decide) (List.getLast_mem hnil)
  simp only [Conversion.numeral, Conversion.base, List.length_reverse, List.length_map, hz, List.replicate_zero,
    List.nil_append, List.head?_reverse, List.getLast?_map, List.getLast?_eq_some_getLast hnil, Option.map_some]
  intro h0
  exact digitChar_ne_zero _ hlt hlast (Option.some.inj h0)

theorem lead_append (h : Plain d k v) (n : Nat) :
    signText (flagsOf d k) v ++ prefixText k.base (flagsOf d k) ++ List.replicate n '0' ++ k.numeral d.prec v =
      k.lead d.type v ++ List.replicate n '0' ++ k.digits d.type.special d.prec v := by
  cases hs : d.type.special with
  | false => simp [flagsOf, prefixText, signText, Conversion.lead, Conversion.digits, hs]
  | true =>
    have hv : k.base ≠ 10 → v ≠ 0 := fun hb h0 => hb ((h.zero h0).2 hs)
    cases k with
    | d | u => simp [flagsOf, prefixText, signText, Conversion.lead, Conversion.digits, Conversion.base, hs]
    | x | X =>
      have hv' : v ≠ 0 := hv (by decide)
      simp [flagsOf, prefixText, signText, Conversion.lead, Conversion.digits, Conversion.base, hs, hv']
    | o =>
      have hv' : v ≠ 0 := hv (by decide)
      have hhead := octal_head d v hv' (h.octal hs rfl)
      have hrep : '0' :: List.replicate n '0' = List.replicate n '0' ++ ['0'] := by
        rw [← List.replicate_succ, List.replicate_succ']
      simp [flagsOf, prefixText, signText, Conversion.lead, Conversion.digits, Conversion.base, hs, hhead, hrep]

theorem numberText_eq (h : Plain d k v) (n : BitVec 64) (hs : k = .d → n.toInt = v) (hu : k ≠ .d → (n.toNat : Int) = v) :
    numberText n k.base d.width d.precision (flagsOf d k) = k.text d.type d.width.toNat d.prec v := by
  obtain ⟨sign, m, hsign, htext, hm⟩ := takeSign_eq (flagsOf d k) n d.width v (fun h => hs (of_decide_eq_true h))
    (fun h => hu (of_decide_eq_false h))
  have hnum := numeral_eq d k v m hm fun h0 => (h.zero h0).1
  have hlen := congrArg List.length hnum
  have hlead := congrArg List.length (lead_append d k v h 0)
  simp only [List.length_append, List.length_replicate, List.length_reverse] at hlen hlead
  have hpad : (d.width - (signText (flagsOf d k) v).length - (prefixText k.base (flagsOf d k)).length -
      max d.precision (putNumber m k.base (k = .X)).length).toNat =
      d.width.toNat - ((k.lead d.type v).length + (k.digits d.type.special d.prec v).length) := by
    omega
  have hcode : numberText n k.base d.width d.precision (flagsOf d k) =
      padded (flagsOf d k) (signText (flagsOf d k) v ++ prefixText k.base (flagsOf d k)) (k.numeral d.prec v)
        (d.width - (signText (flagsOf d k) v).length - (prefixText k.base (flagsOf d k)).length -
          max d.precision (putNumber m k.base (k = .X)).length) := by
    rw [← hnum, ← htext]
    simp only [numberText, hsign, htext]
    rfl
  have happ := lead_append d k v h 0
  simp only [List.replicate_zero, List.append_nil] at happ
  rw [hcode, padded, hpad, Conversion.text]
  cases hl : d.type.left with
  | true => simp only [flagsOf, hl, if_true, ← happ]
  | false =>
    cases hz : d.type.zeropad with
    | true =>
      simp only [flagsOf, hl, hz, h.zeropad hz hl, Bool.false_eq_true, if_false, if_true, and_self]
      have := lead_append d k v h (d.width.toNat - ((k.lead d.type v).length + (k.digits d.type.special d.prec v).length))
      rw [h.zeropad hz hl] at this
      exact this
    | false => simp only [flagsOf, hl, hz, Bool.false_eq_true, if_false, false_and, List.append_assoc, ← happ]

/-! ## The loop -/

theorem numberBase_ofChar (c : Char) (hk : Conversion.ofChar c = some k) (hs : d.type.sign = false)
    (hl : d.type.large = false) : numberBase c d.type = some (k.base, flagsOf d k) := by
  obtain ⟨⟨sign, plus, space, zeropad, left, large, special⟩, width, precision, q, format, read⟩ := d
  obtain rfl : sign = false := hs
  obtain rfl : large = false := hl
  simp only [Conversion.ofChar] at hk
  split_ifs at hk with hd hu ho hx hX <;> cases hk
  · obtain rfl | rfl : c = 'd' ∨ c = 'i' := by simpa using hd
    · rfl
    · rfl
  · subst hu
    rfl
  · subst ho
    rfl
  · subst hx
    rfl
  · subst hX
    rfl

end

end Sdfirm.Vsnprintf
