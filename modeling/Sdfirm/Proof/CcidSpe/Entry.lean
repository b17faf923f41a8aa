import Sdfirm.Proof.CcidSpe.Digits
import Sdfirm.Proof.Framework.Runs

/-!
# The entry of a PIN, key by key

An event of the keyboard is a digit, an ESC, the end of an entry, an abort, or
nothing, or it is a digit and the end of the entry at once: `operate_invariant`
is the rule that follows, with one case for each. `keyEnd_cases` says where
the end of an entry leads. `Typing` is what holds as long as an operation goes
on.
-/

namespace Sdfirm.CcidSpe

open Framework.Bits

variable {slot : Slot} {p : PinParam} {s s' : Spe} {buf buf' template : Buf} {keycode : Byte} {events : List KbdEvent}

/-! ## Events -/

/-- The entry can end here without an abort. -/
def CanEnd (p : PinParam) (s : Spe) : Prop :=
  ccidSpeValidation p validKeypress = true ∨ ccidSpeValidation p validTimeout = true ∨ s.nrNext = ccidSpeMaxDigits p

/-- What the steps of an entry keep holds in the whole operation. -/
theorem operate_invariant {I : Spe → Prop} (hinit : I (ccidSpeOperateInit slot p template))
    (hnumber : ∀ s s' keycode, I s → s.ended = false → s.stage ≠ .confirm → 0x30 ≤ keycode ∧ keycode ≤ 0x39 →
      ccidSpeKeyNumber slot p s keycode = some s' → I s' ∧ s'.ended = false)
    (hconfirm : ∀ s s' keycode, I s → s.ended = false → s.stage = .confirm →
      ccidSpeKeyConfirm slot p s keycode = some s' → I s' ∧ s'.ended = false)
    (hescape : ∀ s, I s → s.ended = false →
      I { s with nrNext := 0, typed := [], log := ⟨s.stage, s.typed, false⟩ :: s.log })
    (hend : ∀ s s', I s → s.ended = false → CanEnd p s → ccidSpeKeyEnd slot p s = some s' → I s')
    (habort : ∀ s s', I s → s.ended = false → ccidSecureAbort slot p s = some s' → I s')
    (h : operate slot p template events = some s) : I s := by
  -- a digit may be the last one of its entry
  have hmaxsize : ∀ s₁ s', I s₁ ∧ s₁.ended = false →
      (if ccidSpeValidation p validMaxsize && s₁.nrNext == ccidSpeMaxDigits p then ccidSpeKeyEnd slot p s₁
        else pure s₁) = some s' → I s' := by
    intro s₁ s' hs₁ h2
    split_ifs at h2 with hmax
    · rw [Bool.and_eq_true, beq_iff_eq] at hmax
      exact hend s₁ s' hs₁.1 hs₁.2 (.inr (.inr hmax.2)) h2
    · rw [← Option.some.inj h2]
      exact hs₁.1
  have hstep : ∀ s s' (read : List KbdEvent) event, I s → ccidSpeCapture slot p s event = some s' → I s' := by
    intro s s' _ event hs he
    unfold ccidSpeCapture at he
    by_cases hended : s.ended = true
    · rw [if_pos hended] at he
      rwa [← Option.some.inj he]
    rw [if_neg hended] at he
    replace hended : s.ended = false := Bool.eq_false_iff.mpr hended
    cases event with
    | keyTout scancode =>
      simp only [ccidSpeKeyWait] at he
      split_ifs at he with h0 hvalid
      · rwa [← Option.some.inj he]
      · exact hend s s' hs hended (.inr (.inl hvalid)) he
      · exact habort s s' hs hended he
    | keyDown keycode =>
      simp only [ccidSpeKeyDown] at he
      split_ifs at he with hcr hvalid hesc hdigit hst
      · exact hend s s' hs hended (.inl hvalid) he
      · rwa [← Option.some.inj he]
      · unfold ccidSpeKeyEscape at he
        split_ifs at he with h0
        · rw [← Option.some.inj he]
          exact hescape s hs hended
        · exact habort s s' hs hended he
      · obtain ⟨s₁, h1, h2⟩ := Option.bind_eq_some_iff.1 he
        exact hmaxsize s₁ s' (hconfirm s s₁ keycode hs hended hst h1) h2
      · obtain ⟨s₁, h1, h2⟩ := Option.bind_eq_some_iff.1 he
        exact hmaxsize s₁ s' (hnumber s s₁ keycode hs hended hst hdigit h1) h2
      · rwa [← Option.some.inj he]
  exact @Framework.foldlM_invariant _ _ _ _ _ (fun s _ => I s) hstep [] events hinit h

/-- What `ccid_spe_key_number` does to the state. -/
theorem keyNumber_cases (h : ccidSpeKeyNumber slot p s keycode = some s') :
    s' = s ∨ s.nrNext < ccidSpeMaxDigits p ∧ ∃ buf,
      (if ccidSpeIsJustifyL p then
          ccidSpeWriteDigit slot p s.pinOffset s.buf s.nrNext (ccidSpeKey2digit p keycode) = some buf
        else ∃ buf₁, ccidSpeShiftLeft slot p s.pinOffset s.nrNext s.buf = some buf₁ ∧
          ccidSpeWriteDigit slot p s.pinOffset buf₁ (((ccidSpePinDigits p : Int) - 1) % 256).toNat
            (ccidSpeKey2digit p keycode) = some buf) ∧
      s' = { s with buf := buf, nrNext := s.nrNext + 1, typed := s.typed ++ [ccidSpeKey2digit p keycode] } := by
  unfold ccidSpeKeyNumber at h
  split_ifs at h with hlt hl
  · obtain ⟨buf, h1, h2⟩ := Option.bind_eq_some_iff.1 h
    exact .inr ⟨hlt, buf, by rw [if_pos hl]; exact h1, (Option.some.inj h2).symm⟩
  · obtain ⟨buf₁, h1, h⟩ := Option.bind_eq_some_iff.1 h
    obtain ⟨buf, h2, h3⟩ := Option.bind_eq_some_iff.1 h
    exact .inr ⟨hlt, buf, by rw [if_neg hl]; exact ⟨buf₁, h1, h2⟩, (Option.some.inj h3).symm⟩
  · exact .inl (Option.some.inj h).symm

/-- The digit of the block that a digit of the confirmation is compared with. -/
def comparedDigit (p : PinParam) (s : Spe) : Nat :=
  if ccidSpeIsJustifyL p then s.nrNext else (((ccidSpePinDigits p : Int) - s.nrLast + s.nrNext) % 256).toNat

/-- What `ccid_spe_key_confirm` does to the state. -/
theorem keyConfirm_cases (h : ccidSpeKeyConfirm slot p s keycode = some s') :
    s' = s ∨ s.nrNext < ccidSpeMaxDigits p ∧ ∃ stored,
      ccidSpeReadDigit slot p s.pinOffset s.buf (comparedDigit p s) = some stored ∧
      s' = { s with
        badConfirm := s.badConfirm || ccidSpeKey2digit p keycode != stored
        nrNext := s.nrNext + 1
        typed := s.typed ++ [ccidSpeKey2digit p keycode] } := by
  unfold ccidSpeKeyConfirm at h
  by_cases hlt : s.nrNext < ccidSpeMaxDigits p
  · rw [if_pos hlt] at h
    obtain ⟨stored, h1, h2⟩ := Option.bind_eq_some_iff.1 h
    exact .inr ⟨hlt, stored, h1, (Option.some.inj h2).symm⟩
  · rw [if_neg hlt] at h
    exact .inl (Option.some.inj h).symm

/-- The state in which the end of an entry is handled. -/
def logged (s : Spe) (buf : Buf) : Spe := { s with buf := buf, log := ⟨s.stage, s.typed, !s.aborted⟩ :: s.log }

/-- The next entry begins. -/
def nextEntry (s : Spe) (stage : Stage) : Spe := { s with stage := stage, nrLast := s.nrNext, nrNext := 0, typed := [] }

/-- Where the end of an entry leads. -/
theorem keyEnd_cases (hab : s.aborted = false) (h : ccidSpeKeyEnd slot p s = some s') :
    ∃ buf, ccidSpeWriteLength slot p s.pinOffset s.buf s.nrNext = some buf ∧
      match p.bPINOperation, s.stage with
      | .verify, _ => s' = ccidSpeVerifyStep slot p (logged s buf)
      | .modify, .oldpin => s' = { nextEntry (logged s buf) .newpin with pinOffset := p.bInsertionOffsetNew }
      | .modify, .newpin =>
        if p.bConfirmPIN = 0 then s' = ccidSpeOperateExit slot (logged s buf)
        else s' = { nextEntry (logged s buf) .confirm with badConfirm := false }
      | .modify, .confirm =>
        if s.nrNext = s.nrLast ∧ s.badConfirm = false then s' = ccidSpeOperateExit slot (logged s buf)
        else s' = { nextEntry (logged s buf) .newpin with badConfirm := true } := by
  obtain ⟨buf, h1, h2⟩ := Option.bind_eq_some_iff.1 h
  refine ⟨buf, h1, ?_⟩
  have h3 := (Option.some.inj h2).symm
  simp only [hab, Bool.false_eq_true, if_false] at h3
  cases hop : p.bPINOperation with
  | verify =>
    simp only [hop] at h3
    simpa only [logged, hab] using h3
  | modify =>
    have he : s' = ccidSpeModifyStep slot p (logged s buf) := by
      simp only [hop] at h3
      simpa only [logged, hab] using h3
    cases hst : s.stage with
    | oldpin =>
      rw [he, ccidSpeModifyStep]
      simp only [logged, hst]
      rfl
    | newpin =>
      simp only
      rw [he, ccidSpeModifyStep]
      simp only [logged, hst]
      split_ifs
      · rfl
      · rfl
    | confirm =>
      simp only
      rw [he, ccidSpeModifyStep]
      simp only [logged, hst]
      by_cases hn : s.nrNext = s.nrLast
      · cases hb : s.badConfirm
        · rw [if_pos ⟨hn, rfl⟩]
          simp [hn]
        · rw [if_neg (by simp)]
          simp only [hn, ne_eq, not_true, if_false, if_true]
          rfl
      · rw [if_neg (fun hc => hn hc.1)]
        simp only [hn, ne_eq, not_false_eq_true, if_true]
        rfl

/-! ## What holds during an entry -/

theorem stageOffset_new (hop : p.bPINOperation = .modify) {stage : Stage} (hst : stage ≠ .oldpin) :
    stageOffset p stage = p.bInsertionOffsetNew := by
  unfold stageOffset
  rw [hop]
  cases stage with
  | oldpin => exact absurd rfl hst
  | newpin => rfl
  | confirm => rfl

/-- The counters agree with what was typed, and nothing went wrong so far. -/
structure Typing (p : PinParam) (s : Spe) : Prop where
  aborted : s.aborted = false
  err : s.err = .success
  nrNext : s.nrNext = s.typed.length
  le_max : s.nrNext ≤ ccidSpeMaxDigits p
  offset : s.pinOffset = stageOffset p s.stage
  verify : p.bPINOperation = .verify → s.stage = .oldpin
  log_le : ∀ e ∈ s.log, e.digits.length ≤ ccidSpeMaxDigits p

theorem Typing.init (slot : Slot) (p : PinParam) (template : Buf) : Typing p (ccidSpeOperateInit slot p template) where
  aborted := rfl
  err := rfl
  nrNext := rfl
  le_max := Nat.zero_le _
  offset := by
    unfold stageOffset ccidSpeOperateInit
    cases p.bPINOperation <;> rfl
  verify := fun _ => rfl
  log_le := fun e he => absurd he List.not_mem_nil

theorem Typing.number (h : Typing p s) (he : ccidSpeKeyNumber slot p s keycode = some s') : Typing p s' := by
  obtain rfl | ⟨hlt, buf, -, rfl⟩ := keyNumber_cases he
  · exact h
  · refine ⟨h.aborted, h.err, ?_, hlt, h.offset, h.verify, h.log_le⟩
    show s.nrNext + 1 = (s.typed ++ [_]).length
    rw [List.length_append, h.nrNext]
    rfl

theorem Typing.confirm (h : Typing p s) (he : ccidSpeKeyConfirm slot p s keycode = some s') : Typing p s' := by
  obtain rfl | ⟨hlt, stored, -, rfl⟩ := keyConfirm_cases he
  · exact h
  · refine ⟨h.aborted, h.err, ?_, hlt, h.offset, h.verify, h.log_le⟩
    show s.nrNext + 1 = (s.typed ++ [_]).length
    rw [List.length_append, h.nrNext]
    rfl

/-- The log has the entry that ends. -/
theorem Typing.log_cons (h : Typing p s) (b : Bool) :
    ∀ e ∈ (⟨s.stage, s.typed, b⟩ : Entry) :: s.log, e.digits.length ≤ ccidSpeMaxDigits p := by
  intro e he
  rcases List.mem_cons.mp he with rfl | hmem
  · exact h.nrNext ▸ h.le_max
  · exact h.log_le e hmem

theorem Typing.escape (h : Typing p s) :
    Typing p { s with nrNext := 0, typed := [], log := ⟨s.stage, s.typed, false⟩ :: s.log } :=
  ⟨h.aborted, h.err, rfl, Nat.zero_le _, h.offset, h.verify, h.log_cons false⟩

theorem Typing.next (h : Typing p s) (hop : p.bPINOperation = .modify) {stage : Stage} {off : Byte} {bad : Bool}
    (hoff : off = stageOffset p stage) :
    Typing p { nextEntry (logged s buf) stage with pinOffset := off, badConfirm := bad } :=
  ⟨h.aborted, h.err, rfl, Nat.zero_le _, hoff, fun hv => absurd (hop.symm.trans hv) (by decide), h.log_cons _⟩

end Sdfirm.CcidSpe
