import Mathlib
import Sdfirm.Impl.Vsnprintf

/-!
# Output as text

What `vsnprintf` puts out does not depend on where it goes to: for every `put`, the characters
of one text are put one after the other. `formatNumber_eq` gives the text of a number, `convert_text` and
`formatLoop_text` say the same of a conversion and of a whole format. `formatLoop_some`: the loop
comes to the NUL of the format, and no `next` is beyond it.
-/

namespace Sdfirm.Vsnprintf

section

variable {σ : Type} (put : σ → Char → σ)

theorem putTimes_eq (c : Char) (n : Nat) (s : σ) : putTimes put c n s = (List.replicate n c).foldl put s := by
  induction n generalizing s with
  | zero => rfl
  | succ n ih => simp only [putTimes, List.replicate_succ, List.foldl_cons, ih]

theorem putAll_eq (l : List Char) (s : σ) : putAll put l s = l.foldl put s := by
  induction l generalizing s with
  | nil => rfl
  | cons c l ih => simp only [putAll, List.foldl_cons, ih]

end

theorem foldl_append_singleton (text l : List Char) : text.foldl (fun text c => text ++ [c]) l = l ++ text := by
  induction text generalizing l with
  | nil => simp
  | cons c text ih => simp [ih]

/-! ## Numbers -/

section

variable {σ : Type} (put : σ → Char → σ)

/-- The prefix of a number. -/
def prefixText (base : Nat) (type : Flags) : List Char :=
  if type.special && base ≠ 10 then '0' :: if base = 16 then [if type.large then 'X' else 'x'] else [] else []

/-- The text of a number, of its sign and prefix, its digits and the number of characters to pad. -/
def padded (type : Flags) (lead digits : List Char) (pad : Int) : List Char :=
  if type.left then lead ++ digits ++ List.replicate pad.toNat ' '
  else if type.zeropad then lead ++ List.replicate pad.toNat '0' ++ digits
  else List.replicate pad.toNat ' ' ++ lead ++ digits

/-- What `format_number` puts out. -/
def numberText (number : BitVec 64) (base : Nat) (width precision : Int) (type : Flags) : List Char :=
  let (sign, number, width) := takeSign type number width
  let reversed := putNumber number base type.large
  padded type (sign.toList ++ prefixText base type)
    (List.replicate (precision - reversed.length).toNat '0' ++ reversed.reverse)
    (width - (prefixText base type).length - max precision reversed.length)

theorem prefixText_length (base : Nat) (type : Flags) (width : Int) :
    (if type.special && base ≠ 10 then (if base = 16 then width - 2 else width - 1) else width) =
      width - (prefixText base type).length := by
  unfold prefixText
  split
  · split <;> simp
  · simp

theorem putPrefix_eq (base : Nat) (type : Flags) (s : σ) :
    (if type.special && base ≠ 10 then
      ('0' :: if base = 16 then [if type.large then 'X' else 'x'] else []).foldl put s else s) =
      (prefixText base type).foldl put s := by
  unfold prefixText
  split <;> rfl

theorem formatNumber_eq (s : σ) (number : BitVec 64) (base : Nat) (width precision : Int) (type : Flags) :
    formatNumber put s number base width precision type = (numberText number base width precision type).foldl put s := by
  unfold numberText padded
  obtain ⟨sg, plus, space, zeropad, left, large, special⟩ := type
  generalize h : takeSign ⟨sg, plus, space, zeropad, left, large, special⟩ number width = r
  obtain ⟨sign, num, w⟩ := r
  have hmax (n : Nat) : (if precision < n then (n : Int) else precision) = max precision n := by
    split <;> omega
  have hrep (n : Nat) : (max precision n - n).toNat = (precision - n).toNat := by omega
  have hneg (w : Int) : (if 0 ≤ w then -1 else w - 1).toNat = 0 := by
    split <;> omega
  cases left with
  | true =>
    have h' : takeSign ⟨sg, plus, space, false, true, large, special⟩ number width = (sign, num, w) := h
    have hw := prefixText_length base ⟨sg, plus, space, false, true, large, special⟩ w
    have hp := putPrefix_eq put base ⟨sg, plus, space, false, true, large, special⟩
    dsimp only at hw hp
    simp only [formatNumber, if_true, h', Bool.or_true, padDown, putTimes_eq, putAll_eq, hp, hw, hmax, hrep,
      List.foldl_append]
    rfl
  | false =>
    have hw := prefixText_length base ⟨sg, plus, space, zeropad, false, large, special⟩ w
    have hp := putPrefix_eq put base ⟨sg, plus, space, zeropad, false, large, special⟩
    dsimp only at hw hp
    simp only [formatNumber, Bool.false_eq_true, if_false, h, Bool.or_false, padDown, putTimes_eq, putAll_eq, hp, hw, hmax,
      hrep]
    cases zeropad with
    | true => simp only [if_true, hneg, List.replicate_zero, List.foldl_nil, List.foldl_append]
    | false => simp only [Bool.false_eq_true, if_false, hneg, List.replicate_zero, List.foldl_nil, List.foldl_append]

end

/-! ## Directives -/

theorem next_some {format : List Char} (h : cur format ≠ '\x00') :
    ∃ l, next format = some l ∧ l.length < format.length := by
  cases format with
  | nil => exact absurd rfl h
  | cons c l => exact ⟨l, rfl, Nat.lt_succ_self _⟩

theorem scanFlags_length (format : List Char) (type : Flags) : (scanFlags format type).2.length ≤ format.length := by
  induction format generalizing type with
  | nil => simp [scanFlags]
  | cons c format ih =>
    have h (type : Flags) : (scanFlags format type).2.length ≤ (c :: format).length := Nat.le_succ_of_le (ih type)
    simp only [scanFlags]
    split_ifs <;> first | exact h _ | exact Nat.le_refl _

theorem scanFlags_sign (format : List Char) (type : Flags) :
    (scanFlags format type).1.sign = type.sign ∧ (scanFlags format type).1.large = type.large := by
  induction format generalizing type with
  | nil => exact ⟨rfl, rfl⟩
  | cons c format ih =>
    simp only [scanFlags]
    split_ifs <;> first | exact ih _ | exact ⟨rfl, rfl⟩

theorem scanNumber_length (format : List Char) (n : BitVec 64) : (scanNumber format n).2.length ≤ format.length := by
  induction format generalizing n with
  | nil => simp [scanNumber]
  | cons c format ih =>
    simp only [scanNumber]
    split
    · exact Nat.le_succ_of_le (ih _)
    · exact Nat.le_refl _

theorem next_of_eq {format : List Char} {c : Char} (h : cur format = c) (hc : c ≠ '\x00') :
    ∃ l, next format = some l ∧ l.length < format.length :=
  next_some (by rw [h]; exact hc)

variable (args : Nat → Arg)

theorem scanWidth_some (type : Flags) (format : List Char) (read : Nat) :
    ∃ type' width l read', scanWidth args type format read = some (type', width, l, read') ∧ l.length ≤ format.length ∧
      type'.sign = type.sign ∧ type'.large = type.large := by
  unfold scanWidth
  split_ifs with hd hs
  · exact ⟨_, _, _, _, rfl, scanNumber_length _ _, rfl, rfl⟩
  · obtain ⟨l, hl, hlen⟩ := next_of_eq hs (by decide)
    simp only [hl, Option.bind_eq_bind, Option.bind_some]
    split
    · exact ⟨_, _, _, _, rfl, Nat.le_of_lt hlen, rfl, rfl⟩
    · exact ⟨_, _, _, _, rfl, Nat.le_of_lt hlen, rfl, rfl⟩
  · exact ⟨_, _, _, _, rfl, Nat.le_refl _, rfl, rfl⟩

theorem scanPrecision_some (format : List Char) (read : Nat) :
    ∃ precision l read', scanPrecision args format read = some (precision, l, read') ∧ l.length ≤ format.length := by
  unfold scanPrecision
  split_ifs with hp
  · obtain ⟨l, hl, hlen⟩ := next_of_eq hp (by decide)
    simp only [hl, Option.bind_eq_bind, Option.bind_some]
    by_cases hd : isdigit (cur l)
    · have := scanNumber_length l 0
      simp only [if_pos hd]
      exact ⟨_, _, _, rfl, by omega⟩
    by_cases hs : cur l = '*'
    · obtain ⟨l', hl', hlen'⟩ := next_of_eq hs (by decide)
      simp only [if_neg hd, if_pos hs, hl', Option.bind_some]
      exact ⟨_, _, _, rfl, by omega⟩
    · simp only [if_neg hd, if_neg hs]
      exact ⟨_, _, _, rfl, Nat.le_of_lt hlen⟩
  · exact ⟨_, _, _, rfl, Nat.le_refl _⟩

theorem scanQualifier_some (format : List Char) :
    ∃ q l, scanQualifier format = some (q, l) ∧ l.length ≤ format.length := by
  unfold scanQualifier
  split_ifs with hh hL hl
  · obtain ⟨l, hl, hlen⟩ := next_of_eq hh (by decide)
    exact ⟨_, l, by rw [hl]; rfl, Nat.le_of_lt hlen⟩
  · obtain ⟨l, hl, hlen⟩ := next_of_eq hL (by decide)
    exact ⟨_, l, by rw [hl]; rfl, Nat.le_of_lt hlen⟩
  · obtain ⟨l, hn, hlen⟩ := next_of_eq hl (by decide)
    simp only [hn, Option.bind_eq_bind, Option.bind_some]
    split_ifs with hll
    · obtain ⟨l', hl', hlen'⟩ := next_of_eq hll (by decide)
      exact ⟨_, l', by rw [hl']; rfl, by omega⟩
    · exact ⟨_, l, rfl, Nat.le_of_lt hlen⟩
  · exact ⟨_, _, rfl, Nat.le_refl _⟩

theorem scanDirective_some (format : List Char) (read : Nat) :
    ∃ d, scanDirective args format read = some d ∧ d.format.length ≤ format.length ∧
      d.type.sign = false ∧ d.type.large = false := by
  have h1 := scanFlags_length format .none
  obtain ⟨hs1, hg1⟩ := scanFlags_sign format .none
  obtain ⟨type, width, l2, read2, h2, hl2, hs2, hg2⟩ :=
    scanWidth_some args (scanFlags format .none).1 (scanFlags format .none).2 read
  obtain ⟨precision, l3, read3, h3, hl3⟩ := scanPrecision_some args l2 read2
  obtain ⟨q, l4, h4, hl4⟩ := scanQualifier_some l3
  refine ⟨⟨type, width, precision, q, l4, read3⟩, ?_, ?_, hs2.trans hs1, hg2.trans hg1⟩
  · simp only [scanDirective, h2, h3, h4, Option.bind_eq_bind, Option.bind_some]
  · show l4.length ≤ format.length
    omega

/-! ## Conversions -/

section

variable {σ : Type} (put : σ → Char → σ)

theorem padChar_eq (width : Int) (s : σ) :
    padChar put width s =
      (if 1 ≤ width then 0 else width - 1, (List.replicate (width - 1).toNat ' ').foldl put s) := by
  simp only [padChar, putTimes_eq]

theorem padString_eq (length width : Int) (s : σ) :
    padString put length width s =
      (min width length - 1, (List.replicate (width - length).toNat ' ').foldl put s) := by
  simp only [padString, putTimes_eq]

/-- The characters for which there is a base are no others of the conversions. -/
theorem numberBase_ne {c : Char} {type : Flags} {r : Nat × Flags} (h : numberBase c type = some r) :
    c ≠ '%' ∧ c ≠ 'c' ∧ c ≠ 's' ∧ c ≠ 'p' := by
  refine ⟨?_, ?_, ?_, ?_⟩ <;> intro hc <;> simp [numberBase, hc] at h

theorem convert_number (d : Directive) (base : Nat) (type : Flags) (l : List Char)
    (hb : numberBase (cur d.format) d.type = some (base, type)) (hl : next d.format = some l) (s : σ) :
    convert args put d s =
      some ((numberText (number d.qualifier type.sign (args d.read)) base d.width d.precision type).foldl put s, l,
        d.read + 1) := by
  obtain ⟨h1, h2, h3, h4⟩ := numberBase_ne hb
  simp [convert, h1, h2, h3, h4, hl, hb, formatNumber_eq]

end

/-- A conversion puts out a text and does not step over the NUL. -/
theorem convert_text (d : Directive) :
    ∃ (text l : List Char) (read : Nat), l.length ≤ d.format.length ∧
      ∀ (σ : Type) (put : σ → Char → σ) (s : σ), convert args put d s = some (text.foldl put s, l, read) := by
  by_cases hnul : cur d.format = '\x00'
  · refine ⟨['%'], d.format, d.read, Nat.le_refl _, fun σ put s => ?_⟩
    simp [convert, hnul, numberBase]
  obtain ⟨l, hl, hlt⟩ := next_some hnul
  have hlen := Nat.le_of_lt hlt
  by_cases h1 : cur d.format = '%'
  · refine ⟨['%'], l, d.read, hlen, fun σ put s => ?_⟩
    simp [convert, h1, hl]
  by_cases h2 : cur d.format = 'c'
  · cases hleft : d.type.left with
    | true =>
      refine ⟨Char.ofNat ((args d.read).int.toNat % 2 ^ 8) :: List.replicate (d.width - 1).toNat ' ', l, d.read + 1, hlen,
        fun σ put s => ?_⟩
      simp [convert, h2, hl, hleft, padChar_eq]
    | false =>
      refine ⟨List.replicate (d.width - 1).toNat ' ' ++ Char.ofNat ((args d.read).int.toNat % 2 ^ 8) ::
        List.replicate ((if 1 ≤ d.width then 0 else d.width - 1) - 1).toNat ' ', l, d.read + 1, hlen, fun σ put s => ?_⟩
      simp [convert, h2, hl, hleft, padChar_eq]
  by_cases h3 : cur d.format = 's'
  · generalize hstr : (args d.read).str.getD ['<', 'N', 'U', 'L', 'L', '>'] = str
    generalize hlength : boundStringLength str d.precision = length
    cases hleft : d.type.left with
    | true =>
      refine ⟨str.take length.toNat ++ List.replicate (d.width - length).toNat ' ', l, d.read + 1, hlen, fun σ put s => ?_⟩
      simp [convert, h3, hl, hleft, hstr, hlength, padString_eq, putAll_eq]
    | false =>
      refine ⟨List.replicate (d.width - length).toNat ' ' ++ str.take length.toNat ++
        List.replicate (min d.width length - 1 - length).toNat ' ', l, d.read + 1, hlen, fun σ put s => ?_⟩
      simp [convert, h3, hl, hleft, hstr, hlength, padString_eq, putAll_eq]
  by_cases h4 : cur d.format = 'p'
  · by_cases hw : d.width = -1
    · refine ⟨numberText (args d.read).ptr 16 16 d.precision { d.type with zeropad := true }, l, d.read + 1, hlen,
        fun σ put s => ?_⟩
      simp [convert, h4, hl, hw, formatNumber_eq]
    · refine ⟨numberText (args d.read).ptr 16 d.width d.precision d.type, l, d.read + 1, hlen, fun σ put s => ?_⟩
      simp [convert, h4, hl, hw, formatNumber_eq]
  cases hb : numberBase (cur d.format) d.type with
  | some r => exact ⟨_, l, d.read + 1, hlen, fun σ put s => convert_number args put d r.1 r.2 l hb hl s⟩
  | none =>
    refine ⟨['%', cur d.format], l, d.read, hlen, fun σ put s => ?_⟩
    simp [convert, h1, h2, h3, h4, hl, hb, hnul]

theorem formatLoop_directive {σ : Type} (put : σ → Char → σ) (fuel : Nat) (l : List Char) (read : Nat) (s : σ) (d : Directive)
    (r : σ × List Char × Nat) (hd : scanDirective args l read = some d) (hr : convert args put d s = some r) :
    formatLoop args put (fuel + 1) ('%' :: l) read s = formatLoop args put fuel r.2.1 r.2.2 r.1 := by
  simp [formatLoop, cur, next, hd, hr]

/-- The loop comes to the end of the format, and what it puts out is a text. -/
theorem formatLoop_text (fuel : Nat) (format : List Char) (read : Nat) (h : format.length < fuel) :
    ∃ text : List Char, ∀ (σ : Type) (put : σ → Char → σ) (s : σ),
      formatLoop args put fuel format read s = some (text.foldl put s) := by
  induction fuel generalizing format read with
  | zero => exact absurd h (Nat.not_lt_zero _)
  | succ fuel ih =>
    by_cases hnul : cur format = '\x00'
    · exact ⟨[], fun σ put s => by simp [formatLoop, hnul]⟩
    obtain ⟨l, hl, hlen⟩ := next_some hnul
    by_cases hp : cur format = '%'
    · obtain ⟨d, hd, hdl, _⟩ := scanDirective_some args l read
      obtain ⟨text, l', read', hl', hconv⟩ := convert_text args d
      obtain ⟨rest, hrest⟩ := ih l' read' (by omega)
      refine ⟨text ++ rest, fun σ put s => ?_⟩
      simp [formatLoop, hp, hl, hd, hconv, hrest]
    · obtain ⟨rest, hrest⟩ := ih l read (by omega)
      refine ⟨cur format :: rest, fun σ put s => ?_⟩
      simp [formatLoop, hnul, hp, hl, hrest]

end Sdfirm.Vsnprintf
