import Sdfirm.Proof.IfdT1.Blocks

/-!
# Error handling

`ifd_t1_error_handling` asks for S(RESYNC request) by its protocol control
byte, but `ifd_t1_xchg_aval` takes every S-block for a response: it sends the
response to the last request of the card (`NextPcb.of_level`). When the card
stays silent the level goes down by one after a number of R-blocks, so it
comes to that unless the last level has been reached (`silent_spec`).
-/

namespace Sdfirm.IfdT1

variable {c : Config} {s s' : State}

/-- What a block leaves of the error handling, and of the exchange. -/
structure SameLevel (s s' : State) : Prop where
  level : s'.resyncLevel = s.resyncLevel
  rxCmpl : s'.rxCmpl = s.rxCmpl

theorem SameLevel.of_core {t : State} (h : core s' = core t) (hlevel : t.resyncLevel = s.resyncLevel)
    (hrx : t.rxCmpl = s.rxCmpl) : SameLevel s s' := by
  constructor
  · show (core s').resyncLevel = _
    rw [h]
    exact hlevel
  · show (core s').rxCmpl = _
    rw [h]
    exact hrx

/-! ## Nothing valid -/

theorem errorHandling_wreset (h : s.resyncLevel = ifdT1RetryWreset) :
    errorHandling c s = some { s with error := .hwError } := by
  rw [errorHandling, if_pos h]

/-- The protocol control byte that the level asks for. -/
def levelPcb (level : Byte) : Byte :=
  if level = ifdT1RetryRetrns then ifdT1RBlock
  else if level = ifdT1RetryResync then ifdT1SBlock ||| ifdT1SResync
  else 0

/-- What is sent for a level. -/
theorem NextPcb.of_level {level pcb : Byte} (h : NextPcb c s pcb) (hpcb : s.pcb = levelPcb level) :
    (level = ifdT1RetryRetrns → blockType pcb = .r) ∧ (level = ifdT1RetryResync → blockType pcb = .s) ∧
      pcb ≠ ifdT1SBlock ||| ifdT1SResync := by
  have hother : ∀ {b : Byte}, blockType b ≠ .s → b ≠ ifdT1SBlock ||| ifdT1SResync := by
    intro b hb heq
    exact hb (heq ▸ by decide)
  rw [NextPcb, hpcb] at h
  by_cases h3 : level = ifdT1RetryRetrns
  · have hr : blockType pcb = .r := by
      rw [h3] at h
      exact h
    exact ⟨fun _ => hr, fun h2 => absurd (h3.symm.trans h2) (by decide), hother (by rw [hr]; decide)⟩
  · by_cases h2 : level = ifdT1RetryResync
    · have hresp : pcb = sPcb s.ackType true := by
        rw [h2] at h
        exact h
      obtain ⟨htype, hne⟩ := sPcb_resp s.ackType
      rw [hresp]
      exact ⟨fun h3' => absurd h3' h3, fun _ => htype, hne⟩
    · refine ⟨fun h3' => absurd h3' h3, fun h2' => absurd h2' h2, ?_⟩
      rw [levelPcb, if_neg h3, if_neg h2] at h
      rcases h with hifs | hr | ⟨hi, -⟩
      · rw [hifs]
        decide
      · exact hother (by rw [hr]; decide)
      · exact hother (by rw [hi]; decide)

/-- Another block is sent, and the level is the same or the next one. -/
theorem errorHandling_spec (h : s.resyncLevel ≠ ifdT1RetryWreset) (hrx : s.rxCmpl = false)
    (he : errorHandling c s = some s') : s'.error = .progress ∧ s'.pcb = levelPcb s.resyncLevel ∧ s'.rxCmpl = false ∧
      (s'.resyncLevel = s.resyncLevel ∨ s'.resyncLevel = s.resyncLevel - 1) := by
  rw [errorHandling, if_neg h] at he
  obtain ⟨t, ht, rfl⟩ := Option.map_eq_some_iff.mp he
  have hsame := SameLevel.of_core (restoreBuffer_core ht) rfl rfl
  have hlevel : t.resyncLevel = s.resyncLevel ∨ t.resyncLevel = s.resyncLevel - 1 := by
    rw [hsame.level]
    split
    · exact .inr rfl
    · exact .inl rfl
  have hcmpl : t.rxCmpl = false := by
    rw [hsame.rxCmpl, ← hrx]
    split <;> rfl
  refine ⟨?_, rfl, hcmpl, hlevel⟩
  show (if t.rxCmpl then ScsErr.success else .progress) = .progress
  rw [hcmpl]
  rfl

/-- The card stays silent. -/
def silent : Input := ⟨[], none⟩

theorem receive_silent (c : Config) (s : State) : receive c s silent = some { s with error := .timeout } := rfl

theorem invalid_silent (c : Config) (s : State) : Invalid c s silent := ⟨_, receive_silent c s, .inl nofun⟩

/-- A round in which the card stays silent: before the last level something is sent that is no
request to resynchronise, and after an R-block the last level is not reached yet. -/
theorem silent_spec {o : Outcome} (h : s.resyncLevel ≠ ifdT1RetryWreset) (hrx : s.rxCmpl = false)
    (he : exchange c s silent = some o) : ∃ t, o = .sent t ∧ sentPcb t ≠ ifdT1SBlock ||| ifdT1SResync ∧
      t.rxCmpl = false ∧ (blockType (sentPcb t) = .r → t.resyncLevel ≠ ifdT1RetryWreset) := by
  rw [exchange, receive_silent, Option.bind_some] at he
  obtain ⟨u, hu, he⟩ := Option.bind_eq_some_iff.mp he
  have hcmpl : errorHandling c { s with error := .timeout } = some u := by
    rw [xchgCmpl, if_neg (by show ¬ s.rxCmpl = true; rw [hrx]; decide), if_pos (.inl nofun)] at hu
    exact hu
  obtain ⟨herr, hpcb, hrx', hlevel⟩ := errorHandling_spec (s := { s with error := .timeout }) h hrx hcmpl
  rw [if_pos herr] at he
  obtain ⟨t, ht, rfl⟩ := Option.map_eq_some_iff.mp he
  have hnext := xchgAval_spec ht
  obtain ⟨-, hresync, hne⟩ := hnext.pcb.of_level hpcb
  refine ⟨t, rfl, hnext.sent ▸ hne, hnext.rxCmpl.trans hrx', fun hr => ?_⟩
  rw [hnext.sent] at hr
  have h2 : s.resyncLevel ≠ ifdT1RetryResync := fun h2 => absurd (hr.symm.trans (hresync h2)) (by decide)
  have hdown : ∀ l : Byte, l ≠ ifdT1RetryWreset → l ≠ ifdT1RetryResync → l - 1 ≠ ifdT1RetryWreset := by
    decide
  rw [hnext.level]
  cases hlevel with
  | inl heq => exact fun hw => h (heq.symm.trans hw)
  | inr heq => exact fun hw => hdown _ h h2 (heq.symm.trans hw)

theorem not_resyncs (h : s.resyncLevel ≠ ifdT1RetryWreset) (hrx : s.rxCmpl = false) (m : Nat) : ¬ Resyncs c m s := by
  have hup : ¬ GivesUp c s silent := by
    intro ⟨t, ht, _⟩
    obtain ⟨t', heq, -⟩ := silent_spec h hrx ht
    nomatch heq
  cases m with
  | zero => exact fun hm => hup (hm silent (invalid_silent c s))
  | succ m =>
    intro hm
    cases hm silent (invalid_silent c s) with
    | inl hg => exact hup hg
    | inr hsent =>
      obtain ⟨t, ht, hpcb, -⟩ := hsent
      obtain ⟨t', heq, hne, -⟩ := silent_spec h hrx ht
      obtain rfl := Outcome.sent.inj heq
      exact hne hpcb

/-- The induction is on the number of R-blocks that may be sent: after each of them the last level
has still to be reached. -/
theorem not_retransmits (n m : Nat) (h : s.resyncLevel ≠ ifdT1RetryWreset) (hrx : s.rxCmpl = false) :
    ¬ Retransmits c n m s := by
  induction n generalizing s with
  | zero => exact not_resyncs h hrx m
  | succ n ih =>
    intro hn
    cases hn with
    | inl hm => exact not_resyncs h hrx m hm
    | inr hstep =>
      obtain ⟨t, ht, hr, hrest⟩ := hstep silent (invalid_silent c s)
      obtain ⟨t', heq, -, hrx', hlevel⟩ := silent_spec h hrx ht
      obtain rfl := Outcome.sent.inj heq
      exact ih (hlevel hr) hrx' hrest

/-- A reception only changes the buffer, the length and the error. -/
theorem receive_core {i : Input} {t : State} (h : receive c s i = some t) :
    core t = core { s with rxLen := t.rxLen, error := t.error } := by
  rw [receive] at h
  obtain ⟨u, hu, h⟩ := Option.bind_eq_some_iff.mp h
  obtain ⟨-, rfl⟩ := xchgWrite_eq_some.mp hu
  split at h
  · rw [← Option.some.inj h]
    rfl
  · simp only at h
    split at h
    · rw [← Option.some.inj h]
      rfl
    · rw [receiveRest] at h
      obtain ⟨v, hv, rfl⟩ := Option.map_eq_some_iff.mp h
      obtain ⟨-, rfl⟩ := xchgWrite_eq_some.mp hv
      split <;> rfl

/-- An exchange that is going on escalates as it should only if the last level has been reached. -/
theorem escalates_iff (c : Config) (s : State) (hrx : s.rxCmpl = false) :
    Escalates c s ↔ s.resyncLevel = ifdT1RetryWreset := by
  constructor
  · intro ⟨n, m, h⟩
    by_contra hlevel
    exact not_retransmits n m hlevel hrx h
  · intro hlevel
    refine ⟨0, 0, fun i ⟨t, ht, hbad⟩ => ?_⟩
    have hsame : SameLevel s t := .of_core (receive_core ht) rfl rfl
    have hcmpl : xchgCmpl c t = some { t with error := .hwError } := by
      rw [xchgCmpl, if_neg (by rw [hsame.rxCmpl, hrx]; decide), if_pos (by simpa using hbad)]
      exact errorHandling_wreset (hsame.level.trans hlevel)
    refine ⟨{ t with error := .hwError }, ?_, rfl⟩
    rw [exchange, ht, Option.bind_some, hcmpl, Option.bind_some, if_neg nofun]

/-- Short APDUs, LRC only. -/
def short : Config := ⟨256, 32, 254, false, true, false, apduMax_short_ge, apduMax_short_le⟩

/-- A slot between exchanges, with a command of five bytes in its buffer. -/
def idle : State where
  toXchgT1 := ⟨fun _ => 0, 0, 0, 0, true, true, 0, 0, 0, 0, 3, 3, 0, 0, 0, 0, 0, 0, 0, 0, 0⟩
  conf := ⟨0, 0x20, 0, 0x20⟩
  inverse := false
  buf := fun i => [0x00, 0xA4, 0x00, 0x00, 0x02].getD i 0
  error := .success
  ended := 0

/-- The last level has been reached. -/
def lastLevel : State := { idle with rxCmpl := false, resyncLevel := ifdT1RetryWreset }

theorem escalates_lastLevel : lastLevel.rxCmpl = false ∧ Escalates short lastLevel :=
  ⟨rfl, (escalates_iff short lastLevel rfl).mpr rfl⟩

/-- The card stays silent for `n` rounds. -/
def silentRounds (c : Config) : (n : Nat) → State → Option State
  | 0, s => some s
  | n + 1, s =>
    match exchange c s silent with
    | some (.sent t) => silentRounds c n t
    | _ => none

/-- From the first block on, a card that stays silent gets four R-blocks and then a response to
S(RESYNC), which it has not asked for. -/
theorem not_escalates : ∃ s, xchgBlock short idle 5 = some s ∧ ¬ Escalates short s ∧
    ((List.range 5).map fun n => (silentRounds short (n + 1) s).map sentPcb) =
      [some 0x80, some 0x80, some 0x80, some 0x80, some 0xE0] := by
  have hrun : ((xchgBlock short idle 5).any fun s : State => s.resyncLevel ≠ ifdT1RetryWreset ∧ s.rxCmpl = false ∧
      ((List.range 5).map fun n => (silentRounds short (n + 1) s).map sentPcb) =
        [some 0x80, some 0x80, some 0x80, some 0x80, some 0xE0]) = true := by
    decide
  obtain ⟨s, hs, hx⟩ := (Option.any_eq_true _ _).mp hrun
  obtain ⟨hlevel, hrx, hblocks⟩ := of_decide_eq_true hx
  exact ⟨s, hs, fun ⟨n, m, h⟩ => not_retransmits n m hlevel hrx h, hblocks⟩

end Sdfirm.IfdT1
