import Sdfirm.Proof.CcidSpe.Entry

/-!
# The policy of a PIN entry

`readDigit_eq`: with aligned digits `ccid_spe_read_digit` reads what stands in
the block. While a PIN is confirmed the digits typed so far are those of the
block unless the confirmation is already bad (`Confirming`), and writing the
length of the PIN once more changes nothing (`writeLength_again`).
`policy_of_checks` is the result.
-/

namespace Sdfirm.CcidSpe

open Framework.Bits

variable {slot : Slot} {p : PinParam} {s s' : Spe} {buf buf' template : Buf} {pinOffset keycode stored : Byte} {nr n i : Nat}
  {events : List KbdEvent}

/-! ## The buffer -/

theorem bitrev8_bitrev8 (x : Byte) : bitrev8 (bitrev8 x) = x := by
  apply BitVec.eq_of_getLsbD_eq
  intro k hk
  rw [getLsbD_bitrev8 _ hk, getLsbD_bitrev8 _ (by omega)]
  congr 1
  omega

theorem scdWriteByte_apply (hn : n < slot.bufSize) (x : Byte) :
    scdWriteByte slot buf n x i = if slot.active ∧ i = n then x else buf i := by
  unfold scdWriteByte
  by_cases hact : slot.active = true
  · rw [if_pos ⟨hact, hn⟩]
    by_cases hi : i = n
    · rw [if_pos ⟨hact, hi⟩, hi, Function.update_self]
    · rw [if_neg (fun h => hi h.2), Function.update_of_ne hi]
  · rw [if_neg (fun h => hact h.1), if_neg (fun h => hact h.1)]

theorem invs_foldl (hn : apduFixed + n ≤ slot.bufSize) (i : Nat) :
    (List.range' apduFixed n).foldl (fun buf i => scdWriteByte slot buf i (bitrev8 (buf i))) buf i =
      if slot.active ∧ apduFixed ≤ i ∧ i < apduFixed + n then bitrev8 (buf i) else buf i := by
  induction n generalizing i with
  | zero => rw [if_neg (by omega)]; rfl
  | succ n ih =>
    rw [List.range'_1_concat, List.foldl_append]
    show scdWriteByte slot (List.foldl _ buf _) (apduFixed + n) (bitrev8 (List.foldl _ buf _ (apduFixed + n))) i = _
    rw [scdWriteByte_apply (by omega), ih (by omega), ih (by omega), if_neg (by omega : ¬ (_ ∧ _ ∧ _ < apduFixed + n))]
    by_cases hi : i = apduFixed + n
    · subst hi
      by_cases hact : slot.active = true
      · rw [if_pos ⟨hact, rfl⟩, if_pos ⟨hact, by omega, by omega⟩]
      · rw [if_neg (fun h => hact h.1), if_neg (fun h => hact h.1), if_neg (fun h => hact h.1)]
    · rw [if_neg (fun h => hi h.2)]
      congr 1
      exact propext ⟨fun h => ⟨h.1, h.2.1, by omega⟩, fun h => ⟨h.1, h.2.1, by omega⟩⟩

/-- `ccid_spe_invs`, byte by byte. -/
theorem invs_apply (slot : Slot) (buf : Buf) (i : Nat) :
    ccidSpeInvs slot buf i =
      if slot.direct = false ∧ slot.active ∧ apduFixed ≤ i ∧ i < slot.nc then bitrev8 (buf i) else buf i := by
  unfold ccidSpeInvs
  cases hd : slot.direct
  · rw [if_neg (by decide)]
    by_cases hnc : apduFixed ≤ slot.nc
    · have hle := slot.nc_le
      rw [invs_foldl (by omega), show apduFixed + (slot.nc - apduFixed) = slot.nc by omega]
      simp only [true_and]
    · rw [show slot.nc - apduFixed = 0 by omega, if_neg (by omega)]
      rfl
  · rw [if_pos rfl, if_neg (fun h => absurd h.1 (by decide))]

/-- The second time `ccid_spe_invs` undoes the first. -/
theorem invs_invs (slot : Slot) (buf : Buf) : ccidSpeInvs slot (ccidSpeInvs slot buf) = buf := by
  funext i
  rw [invs_apply, invs_apply]
  split_ifs
  · exact bitrev8_bitrev8 _
  · rfl

/-- The value that `ccid_spe_write_length` writes. -/
def lenValue (slot : Slot) (p : PinParam) (n : Nat) : Byte := inv slot (ccidSpeLenBits p) (BitVec.ofNat 8 n)

theorem writeLength_spec (h : ccidSpeWriteLength slot p pinOffset buf n = some buf') (j : Nat) :
    bitAt buf' j =
      if Written slot (ccidSpeFirstByte p true + ccidSpeOffsetFixed pinOffset) (ccidSpeFirstBit p true) (ccidSpeLenBits p) j
      then (lenValue slot p n).getLsbD (j - lenStart p pinOffset) else bitAt buf j := by
  unfold ccidSpeWriteLength at h
  by_cases h0 : ccidSpeLenBits p = 0
  · rw [if_pos h0] at h
    rw [h0, if_neg (fun hw : Written _ _ _ 0 _ => by have h1 := hw.1; have h2 := hw.2.1; omega), Option.some.inj h]
  · rw [if_neg h0] at h
    obtain ⟨cont, hcont, hw⟩ := Option.bind_eq_some_iff.1 h
    have hv : cont = lenValue slot p n := by
      unfold ccidSpeInvb at hcont
      unfold lenValue inv
      split_ifs at hcont ⊢
      · exact (Option.some.inj hcont).symm
      · exact (Option.some.inj hcont).symm
    rw [writeBits_spec hw, hv]
    rfl

/-- A length that stands in its place can be written again. -/
theorem writeLength_again (h : ccidSpeWriteLength slot p pinOffset buf n = some buf')
    {buf₂ : Buf} (h₂ : ccidSpeWriteLength slot p pinOffset buf' n = some buf₂) : buf₂ = buf' := by
  apply ext_bitAt
  intro j
  rw [writeLength_spec h₂]
  split_ifs with hw
  · rw [writeLength_spec h, if_pos hw]
  · rfl

/-! ## Aligned digits -/

theorem firstBit_eq (p : PinParam) : ccidSpeFirstBit p false = pinStart p % 8 := by
  have h := pinStart_eq p
  have hlt := firstBit_lt p
  omega

theorem Aligned.digitBit (h : Aligned p) (nr : Nat) : digitBit p nr = 0 ∨ digitBit p nr = 4 := by
  unfold CcidSpe.digitBit
  rw [firstBit_eq]
  unfold Aligned at h
  rcases pinBits_cases p with hw | hw <;> rw [hw] at h ⊢ <;> omega

/-- An aligned digit that can be read is the one in the block. -/
theorem readDigit_eq (h : Aligned p) (hlt : ccidSpePinBits p * nr < 256)
    (hr : ccidSpeReadDigit slot p pinOffset buf nr = some stored) :
    stored = inv slot (ccidSpePinBits p) (field buf (digitStart p pinOffset nr) (ccidSpePinBits p)) := by
  have hread : Readable slot (digitByte p pinOffset nr) (digitBit p nr) := by
    by_contra hn
    rw [readDigit_spec, if_neg hn] at hr
    exact absurd hr (by simp)
  obtain ⟨-, hb, hb'⟩ := hread
  have hplace : digitBit p nr = 0 ∧ digitByte p pinOffset nr < slot.bufSize ∨
      digitBit p nr = 4 ∧ digitByte p pinOffset nr + 1 < slot.bufSize := by
    rcases h.digitBit nr with h0 | h4
    · exact .inl ⟨h0, hb⟩
    · exact .inr ⟨h4, hb' (by omega)⟩
  rw [readDigit_aligned hplace, place_of_lt pinOffset hlt] at hr
  exact (Option.some.inj hr).symm

theorem pinBits_mul_pinDigits (p : PinParam) : ccidSpePinBits p * ccidSpePinDigits p ≤ 120 := by
  have hb : ccidSpePinBytes p ≤ 15 := by
    unfold ccidSpePinBytes
    have : ∀ b : Byte, (b &&& 0x0F).toNat ≤ 15 := by decide
    exact this _
  unfold ccidSpePinBits ccidSpePinDigits
  split_ifs <;> omega

/-! ## Confirmation -/

theorem accepted_cons (stage : Stage) (e : Entry) (log : List Entry) :
    accepted stage (e :: log) = if e.stage = stage ∧ e.completed then some e.digits else accepted stage log := by
  unfold accepted
  rw [List.find?_cons]
  by_cases h : e.stage = stage ∧ e.completed = true
  · rw [if_pos h, decide_eq_true h]
    rfl
  · rw [if_neg h, decide_eq_false h]

theorem mem_of_accepted {stage : Stage} {log : List Entry} {digits : List Byte} (h : accepted stage log = some digits) :
    ∃ e ∈ log, e.digits = digits := by
  obtain ⟨e, he, rfl⟩ := Option.map_eq_some_iff.mp h
  exact ⟨e, List.mem_of_find?_eq_some he, rfl⟩

/-- The digits typed so far are those of the new PIN in the block, unless the confirmation is bad. -/
structure Confirming (slot : Slot) (p : PinParam) (s : Spe) : Prop where
  asked : p.bConfirmPIN ≠ 0
  new : ∃ new, accepted .newpin s.log = some new ∧ new.length = s.nrLast
  written : ∃ buf, ccidSpeWriteLength slot p s.pinOffset buf s.nrLast = some s.buf
  same : s.badConfirm = false → ∀ i, i < s.nrNext → i < s.nrLast →
    s.typed[i]? = some (inv slot (ccidSpePinBits p)
      (field s.buf (digitStart p s.pinOffset (firstDigit p s.nrLast + i)) (ccidSpePinBits p)))

/-- What holds while the operation goes on. -/
structure Live (slot : Slot) (p : PinParam) (s : Spe) : Prop where
  typing : Typing p s
  counts : ∀ e ∈ s.log, e.completed → ccidSpeMinDigits p ≤ e.digits.length
  confirming : s.stage = .confirm → Confirming slot p s

/-- The digit compared with is the one that belongs there. -/
theorem comparedDigit_eq (hmax : if ccidSpeIsJustifyL p then ccidSpePinBits p * ccidSpeMaxDigits p ≤ 256
      else ccidSpeMaxDigits p ≤ ccidSpePinDigits p) (hlast : s.nrLast ≤ ccidSpeMaxDigits p)
    (hlt : s.nrNext < s.nrLast) :
    comparedDigit p s = firstDigit p s.nrLast + s.nrNext ∧ ccidSpePinBits p * comparedDigit p s < 256 := by
  have hmul := pinBits_mul_pinDigits p
  have hpos : 0 < ccidSpePinBits p := by rcases pinBits_cases p with h | h <;> omega
  unfold comparedDigit firstDigit
  split_ifs at hmax ⊢ with hl
  · refine ⟨(Nat.zero_add _).symm, ?_⟩
    have : ccidSpePinBits p * s.nrNext < ccidSpePinBits p * ccidSpeMaxDigits p :=
      Nat.mul_lt_mul_of_pos_left (by omega) hpos
    omega
  · have hdig : ccidSpePinDigits p ≤ 120 := (Nat.le_mul_of_pos_left _ hpos).trans hmul
    have he : (((ccidSpePinDigits p : Int) - s.nrLast + s.nrNext) % 256).toNat =
        ccidSpePinDigits p - s.nrLast + s.nrNext := by omega
    have : ccidSpePinBits p * (ccidSpePinDigits p - s.nrLast + s.nrNext) ≤ ccidSpePinBits p * ccidSpePinDigits p :=
      Nat.mul_le_mul_left _ (by omega)
    rw [he]
    exact ⟨rfl, by omega⟩

theorem Live.confirm (hc : ChecksConfirm p) (h : Live slot p s) (hst : s.stage = .confirm)
    (he : ccidSpeKeyConfirm slot p s keycode = some s') : Live slot p s' := by
  have htyping := h.typing.confirm he
  obtain rfl | ⟨hlt, stored, hread, rfl⟩ := keyConfirm_cases he
  · exact h
  have hconf := h.confirming hst
  refine ⟨htyping, h.counts, fun _ => ⟨hconf.asked, hconf.new, hconf.written, fun hbad i hi hlast => ?_⟩⟩
  obtain ⟨hbad0, hdigit⟩ : s.badConfirm = false ∧ ccidSpeKey2digit p keycode = stored := by
    simpa using hbad
  have hop : p.bPINOperation ≠ .verify := fun hv => absurd (hst.symm.trans (h.typing.verify hv)) (by decide)
  obtain ⟨haligned, hmax⟩ : Aligned p ∧ if ccidSpeIsJustifyL p then ccidSpePinBits p * ccidSpeMaxDigits p ≤ 256
      else ccidSpeMaxDigits p ≤ ccidSpePinDigits p :=
    (hc.resolve_left hop).resolve_left hconf.asked
  show (s.typed ++ [ccidSpeKey2digit p keycode])[i]? = _
  rcases Nat.lt_succ_iff_lt_or_eq.mp hi with hold | rfl
  · rw [List.getElem?_append_left (h.typing.nrNext ▸ hold)]
    exact hconf.same hbad0 i hold hlast
  · obtain ⟨new, hnew, hlen⟩ := hconf.new
    obtain ⟨e, hmem, rfl⟩ := mem_of_accepted hnew
    obtain ⟨hcmp, hlt256⟩ := comparedDigit_eq hmax (hlen ▸ h.typing.log_le e hmem) hlast
    rw [h.typing.nrNext, List.getElem?_concat_length, hdigit, readDigit_eq haligned hlt256 hread, hcmp, h.typing.nrNext]

/-- The PIN in the block is the one that was typed for confirmation. -/
theorem Confirming.storedPin_eq (h : Confirming slot p s) (ht : Typing p s) (hn : s.nrNext = s.nrLast)
    (hb : s.badConfirm = false) : s.typed = storedPin slot p s.pinOffset s.buf s.nrLast := by
  apply List.ext_getElem?
  intro i
  rw [storedPin, List.getElem?_map]
  by_cases hi : i < s.nrLast
  · rw [List.getElem?_range hi, h.same hb i (hn ▸ hi) hi]
    rfl
  · rw [List.getElem?_eq_none (ht.nrNext ▸ hn ▸ Nat.not_lt.mp hi), List.getElem?_eq_none (by simpa using hi)]
    rfl

/-! ## The operation -/

/-- What holds after every event: the operation goes on, or has ended well, or with an error. -/
def Kept (slot : Slot) (p : PinParam) (s : Spe) : Prop :=
  s.ended = false ∧ Live slot p s ∨ s.ended = true ∧ (s.err = .success → Policy slot p s)

theorem Kept.live (h : Kept slot p s) (hend : s.ended = false) : Live slot p s := by
  rcases h with ⟨-, h⟩ | ⟨he, -⟩
  · exact h
  · exact absurd (he.symm.trans hend) (by decide)

/-- An entry of a modification that ends has enough digits. -/
theorem ChecksLength.enough (h : ChecksLength p) (hop : p.bPINOperation = .modify) (hcan : CanEnd p s) :
    ccidSpeMinDigits p ≤ s.nrNext := by
  rcases h with hv | h0 | ⟨hkey, htout, hle⟩
  · exact absurd (hop.symm.trans hv) (by decide)
  · omega
  · rcases hcan with hc | hc | hc
    · exact absurd (hkey.symm.trans hc) (by decide)
    · exact absurd (htout.symm.trans hc) (by decide)
    · omega

theorem Live.counts_cons (h : Live slot p s) (hmin : ccidSpeMinDigits p ≤ s.nrNext) (b : Bool) :
    ∀ e ∈ (⟨s.stage, s.typed, b⟩ : Entry) :: s.log, e.completed → ccidSpeMinDigits p ≤ e.digits.length := by
  intro e he hcomp
  rcases List.mem_cons.mp he with rfl | hmem
  · exact h.typing.nrNext ▸ hmin
  · exact h.counts e hmem hcomp

/-- The entries of an operation that ends here are as long as they should be. -/
theorem Live.both_counts (h : Live slot p s) (hmin : ccidSpeMinDigits p ≤ s.nrNext) (buf : Buf) :
    ∀ e ∈ (logged s buf).log, e.completed →
      ccidSpeMinDigits p ≤ e.digits.length ∧ e.digits.length ≤ ccidSpeMaxDigits p := by
  intro e he hcomp
  exact ⟨h.counts_cons hmin _ e he hcomp, h.typing.log_cons _ e he⟩

theorem Live.keyEnd (hl : ChecksLength p) (h : Live slot p s) (hended : s.ended = false) (hcan : CanEnd p s)
    (he : ccidSpeKeyEnd slot p s = some s') : Kept slot p s' := by
  obtain ⟨buf, hwrite, hcase⟩ := keyEnd_cases h.typing.aborted he
  cases hop : p.bPINOperation with
  | verify =>
    simp only [hop] at hcase
    subst hcase
    right
    unfold ccidSpeVerifyStep ccidSpeOperateExit
    by_cases hmin : s.nrNext < ccidSpeMinDigits p
    · rw [if_pos (show (logged s buf).nrNext < _ from hmin)]
      exact ⟨rfl, fun herr => ScsErr.noConfusion herr⟩
    · rw [if_neg (show ¬ (logged s buf).nrNext < _ from hmin)]
      exact ⟨rfl, fun _ => ⟨h.both_counts (by omega) buf, fun hm => absurd (hop.symm.trans hm) (by decide)⟩⟩
  | modify =>
    have hmin := hl.enough hop hcan
    cases hst : s.stage with
    | oldpin =>
      simp only [hop, hst] at hcase
      subst hcase
      exact .inl ⟨hended, h.typing.next hop (stageOffset_new hop (by decide)).symm, h.counts_cons hmin _,
        fun hc => Stage.noConfusion hc⟩
    | newpin =>
      simp only [hop, hst] at hcase
      split_ifs at hcase with hconf
      · subst hcase
        exact .inr ⟨rfl, fun _ => ⟨h.both_counts hmin buf, fun _ hne => absurd hconf hne⟩⟩
      · subst hcase
        have hoff : s.pinOffset = stageOffset p .confirm := by
          rw [h.typing.offset, hst, stageOffset_new hop (by decide), stageOffset_new hop (by decide)]
        refine .inl ⟨hended, h.typing.next hop hoff, h.counts_cons hmin _, fun _ => ⟨hconf, ⟨s.typed, ?_, ?_⟩, ⟨s.buf, hwrite⟩, ?_⟩⟩
        · show accepted .newpin (⟨s.stage, s.typed, !s.aborted⟩ :: s.log) = _
          rw [accepted_cons, if_pos ⟨hst, by rw [h.typing.aborted]; rfl⟩]
        · exact h.typing.nrNext.symm
        · exact fun _ i hi _ => absurd hi (Nat.not_lt_zero i)
    | confirm =>
      simp only [hop, hst] at hcase
      have hc := h.confirming hst
      split_ifs at hcase with hok
      · subst hcase
        obtain ⟨new, hnew, hlen⟩ := hc.new
        obtain ⟨buf₀, hbuf₀⟩ := hc.written
        have hsame : buf = s.buf := writeLength_again hbuf₀ (hok.1 ▸ hwrite)
        refine .inr ⟨rfl, fun _ => ⟨h.both_counts hmin buf, fun _ _ => ⟨s.typed, new, ?_, ?_, ?_, ?_⟩⟩⟩
        · show accepted .confirm (⟨s.stage, s.typed, !s.aborted⟩ :: s.log) = _
          rw [accepted_cons, if_pos ⟨hst, by rw [h.typing.aborted]; rfl⟩]
        · show accepted .newpin (⟨s.stage, s.typed, !s.aborted⟩ :: s.log) = _
          rw [accepted_cons, if_neg (fun hn => absurd (hst.symm.trans hn.1) (by decide)), hnew]
        · rw [hlen, ← hok.1, h.typing.nrNext]
        · show s.typed = storedPin slot p _ (ccidSpeInvs slot (ccidSpeInvs slot buf)) new.length
          have hoff : s.pinOffset = p.bInsertionOffsetNew := by
            rw [h.typing.offset, hst, stageOffset_new hop (by decide)]
          rw [invs_invs, hsame, hlen, ← hoff]
          exact hc.storedPin_eq h.typing hok.1 hok.2
      · subst hcase
        have hoff : s.pinOffset = stageOffset p .newpin := by
          rw [h.typing.offset, hst, stageOffset_new hop (by decide), stageOffset_new hop (by decide)]
        exact .inl ⟨hended, h.typing.next hop hoff, h.counts_cons hmin _, fun hc => Stage.noConfusion hc⟩

/-- In every operation that ends without an error the PINs have as many digits as the host asked
for and a confirmation is the new PIN in the block, if a PIN is only verified or the end of an
entry and the place of the digits leave no way around the checks. -/
theorem policy_of_checks (slot : Slot) (p : PinParam) (template : Buf) (events : List KbdEvent) (s : Spe)
    (hl : ChecksLength p) (hc : ChecksConfirm p) (h : operate slot p template events = some s)
    (hended : s.ended = true) (herr : s.err = .success) : Policy slot p s := by
  have hkept : Kept slot p s := by
    apply operate_invariant (I := Kept slot p) _ _ _ _ _ _ h
    · exact .inl ⟨rfl, Typing.init slot p template, fun e he => absurd he List.not_mem_nil,
        fun hst => Stage.noConfusion hst⟩
    · intro s s' keycode hs hend hst _ he
      have hlive := hs.live hend
      have htyping := hlive.typing.number he
      obtain rfl | ⟨hlt, buf, -, rfl⟩ := keyNumber_cases he
      · exact ⟨hs, hend⟩
      · exact ⟨.inl ⟨hend, htyping, hlive.counts, fun hc => absurd hc hst⟩, hend⟩
    · intro s s' keycode hs hend hst he
      have hlive := (hs.live hend).confirm hc hst he
      have hend' : s'.ended = false := by
        obtain rfl | ⟨hlt, stored, -, rfl⟩ := keyConfirm_cases he <;> exact hend
      exact ⟨.inl ⟨hend', hlive⟩, hend'⟩
    · intro s hs hend
      have hlive := hs.live hend
      refine .inl ⟨hend, hlive.typing.escape, fun e he hcomp => ?_, fun hst => ?_⟩
      · rcases List.mem_cons.mp he with rfl | hmem
        · exact Bool.noConfusion hcomp
        · exact hlive.counts e hmem hcomp
      · have hconf := hlive.confirming hst
        obtain ⟨new, hnew, hlen⟩ := hconf.new
        refine ⟨hconf.asked, ⟨new, ?_, hlen⟩, hconf.written, fun _ i hi _ => absurd hi (Nat.not_lt_zero i)⟩
        show accepted .newpin (⟨s.stage, s.typed, false⟩ :: s.log) = _
        rw [accepted_cons, if_neg (fun hn => Bool.noConfusion hn.2), hnew]
    · intro s s' hs hend hcan he
      exact (hs.live hend).keyEnd hl hend hcan he
    · intro s s' hs hend he
      obtain ⟨buf, h1, h2⟩ := Option.bind_eq_some_iff.1 he
      have hs' := (Option.some.inj h2).symm
      subst hs'
      exact .inr ⟨rfl, fun herr => ScsErr.noConfusion herr⟩
  rcases hkept with ⟨hgo, -⟩ | ⟨-, hpol⟩
  · exact absurd (hgo.symm.trans hended) (by decide)
  · exact hpol herr

/-- A modification of a PIN of four BCD digits, the old one and the new one in two bytes each. -/
def modifyBcd (validation confirm : Byte) : PinParam := ⟨.modify, 0x81, 0x02, 0, 0x0404, validation, 0, 2, confirm⟩

/-- The keys of a string. -/
def keys (l : List Nat) : List KbdEvent := l.map fun k => .keyDown (BitVec.ofNat 8 k)

/-- 1234 is to become 5678, and each entry ends with its fourth digit. -/
theorem policy_modify_confirmed :
    ∃ s, operate slot256 (modifyBcd validMaxsize 1) (fun _ => 0xFF)
        (keys [0x31, 0x32, 0x33, 0x34, 0x35, 0x36, 0x37, 0x38, 0x35, 0x36, 0x37, 0x38]) = some s ∧
      s.ended = true ∧ s.err = .success ∧ Policy slot256 (modifyBcd validMaxsize 1) s := by
  have hrun : (operate slot256 (modifyBcd validMaxsize 1) (fun _ => 0xFF)
      (keys [0x31, 0x32, 0x33, 0x34, 0x35, 0x36, 0x37, 0x38, 0x35, 0x36, 0x37, 0x38])).any
        (fun s => decide (s.ended = true ∧ s.err = .success)) = true := by decide
  obtain ⟨s, hs, hres⟩ := (Option.any_eq_true _ _).mp hrun
  obtain ⟨hended, herr⟩ := of_decide_eq_true hres
  exact ⟨s, hs, hended, herr, policy_of_checks _ _ _ _ s (by decide) (by decide) hs hended herr⟩

/-- Enter is pressed twice, and an APDU without any digit is handed over although four are asked for. -/
theorem not_policy_empty_pin :
    ∃ s, operate slot256 (modifyBcd validKeypress 0) (fun _ => 0xFF) (keys [0x0D, 0x0D]) = some s ∧
      s.ended = true ∧ s.err = .success ∧ ¬ Policy slot256 (modifyBcd validKeypress 0) s := by
  have hrun : (operate slot256 (modifyBcd validKeypress 0) (fun _ => 0xFF) (keys [0x0D, 0x0D])).any
      (fun s => decide (s.ended = true ∧ s.err = .success ∧ (⟨.newpin, [], true⟩ : Entry) ∈ s.log)) = true := by
    decide
  obtain ⟨s, hs, hres⟩ := (Option.any_eq_true _ _).mp hrun
  obtain ⟨hended, herr, hmem⟩ := of_decide_eq_true hres
  refine ⟨s, hs, hended, herr, fun hpol => ?_⟩
  have hmin := (hpol.counts _ hmem rfl).1
  exact absurd hmin (by decide)

end Sdfirm.CcidSpe
