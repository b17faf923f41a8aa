import Sdfirm.Spec.Ccid
import Sdfirm.Proof.Bitops.Bits

/-!
# The message of a slot change

`scdPresentFillAll_spec`: the bits of all slots are packed where they belong,
whatever the number of slots. What they are packed from is not: the presence
of a slot is read from the slot that is selected, and kept at the bit
`1 << sid` of a bitmap with one bit for each slot; `status` is cleared and sent
word by word as often as it has bytes. `notifies_iff` says where this does no
harm.
-/

namespace Sdfirm.ScdNotify

open Bitops IfdSlot

variable {c : Config} {s s' : ScdState} {y y' : Sys} {addr addr' : Bitmap} {bits nr sid usbsid n i : Nat} {b : Bool}

theorem Config.unit_ge (c : Config) : 8 ≤ c.unit := by
  rcases c.unitBits with h | h | h | h <;> omega

theorem toBits_eq (h : nr < 256) : toBits c nr = nr := by
  have hpow : 2 ^ 8 ≤ 2 ^ c.unit := Nat.pow_le_pow_right (by decide) c.unit_ge
  exact Nat.mod_eq_of_lt (by omega)

/-! ## Filling -/

theorem within_some {α : Type} {x z : α} (h : within c bits nr x = some z) : z = x := by
  unfold within at h
  split_ifs at h
  exact (Option.some.inj h).symm

theorem writeBit_spec (h : writeBit c bits nr b addr = some addr') (hnr : nr < 256) (i : Nat) :
    testBit c.unit i addr' = if i = nr then b else testBit c.unit i addr := by
  have hunit : 0 < c.unit := Nat.lt_of_lt_of_le (by decide) c.unit_ge
  rw [within_some h, toBits_eq hnr]
  cases b
  · rw [if_neg (by decide), testBit_clearBit hunit]
    by_cases hi : i = nr <;> simp [hi]
  · rw [if_pos rfl, testBit_setBit]
    by_cases hi : i = nr <;> simp [hi]

/-- The bit of the slot in one of the two bitmaps. -/
def kept (c : Config) (presents : Bitmap) (sid : Nat) : Bool := testBit c.unit (toBits c (scdIrqPresent sid)) presents

theorem scdPresentFillSid_spec (h : scdPresentFillSid c s addr sid usbsid = some addr') (hlt : usbsid < 128) (i : Nat) :
    testBit c.unit i addr' =
      if i = 2 * usbsid + 1 then kept c s.submitted sid != kept c s.discarded sid
      else if i = 2 * usbsid then kept c s.submitted sid else testBit c.unit i addr := by
  have hpresent : scdIrqPresentBit usbsid = 2 * usbsid := by
    rw [scdIrqPresentBit, Nat.shiftLeft_eq]
    omega
  have hchanged : scdIrqChangedBit usbsid = 2 * usbsid + 1 := by
    rw [scdIrqChangedBit, Nat.shiftLeft_eq]
    omega
  obtain ⟨sub, hsub, h⟩ := Option.bind_eq_some_iff.1 h
  obtain ⟨addr₁, h₁, h⟩ := Option.bind_eq_some_iff.1 h
  obtain ⟨dis, hdis, h₂⟩ := Option.bind_eq_some_iff.1 h
  rw [hpresent] at h₁
  rw [hchanged] at h₂
  rw [writeBit_spec h₂ (by omega), writeBit_spec h₁ (by omega), within_some hsub, within_some hdis]
  rfl

/-- The bits of every slot are where the message has them. -/
theorem scdPresentFillAll_spec (hn : n < 128)
    (h : (List.range n).foldlM (fun addr sid => scdPresentFillSid c s addr sid sid) addr = some addr') (hsid : sid < n) :
    testBit c.unit (2 * sid) addr' = kept c s.submitted sid ∧
      testBit c.unit (2 * sid + 1) addr' = (kept c s.submitted sid != kept c s.discarded sid) := by
  induction n generalizing addr' with
  | zero => exact absurd hsid (Nat.not_lt_zero _)
  | succ n ih =>
    rw [List.range_succ, List.foldlM_append] at h
    obtain ⟨addr₁, h₁, h₂⟩ := Option.bind_eq_some_iff.1 h
    have h₂ : scdPresentFillSid c s addr₁ n n = some addr' := by simpa using h₂
    have hbit := scdPresentFillSid_spec h₂ (by omega)
    rw [hbit, hbit]
    by_cases heq : sid = n
    · subst heq
      rw [if_neg (by omega), if_pos rfl, if_pos rfl]
      exact ⟨rfl, rfl⟩
    · rw [if_neg (by omega), if_neg (by omega), if_neg (by omega), if_neg (by omega)]
      exact ih (by omega) h₁ (by omega)

/-! ## One slot, and words of one byte -/

section OneSlot

variable (h1 : c.slots = 1) (h8 : c.unit = 8)

include h8 in
theorem within_eq {α : Type} {x : α} (hpos : 0 < bits) (hle : bits ≤ 8) (hnr : nr < 8) : within c bits nr x = some x := by
  rw [within, toBits_eq (by omega), bitopWord, bitsToUnits, h8, if_pos]
  omega

include h1 h8

theorem scdPresentTest_eq (presents : Bitmap) : scdPresentTest c presents 0 = some (kept c presents 0) :=
  within_eq h8 (by omega) (by omega) (by decide)

theorem scdPresentWrite_eq (b : Bool) (presents : Bitmap) :
    ∃ presents', scdPresentWrite c 0 b presents = some presents' ∧ kept c presents' 0 = b := by
  have h : scdPresentWrite c 0 b presents = some _ := within_eq h8 (by omega) (by omega) (by decide)
  refine ⟨_, h, ?_⟩
  rw [kept, writeBit_spec h (by decide), toBits_eq (by decide), if_pos rfl]

/-- The presence of the card is put into the request, if it is news and the endpoint takes one. -/
theorem scdSubmitInterrupt_eq (ready : Bool) (s : ScdState) :
    ∃ s', scdSubmitInterrupt c ready s = some s' ∧ s'.slid = s.slid ∧ s'.discarded = s.discarded ∧
      (s' = s ∨ ready = true ∧ s'.request = some (scdPresentLength c) ∧
        kept c s'.submitted 0 = scdPresentTestSlot s 0) := by
  have hchanged : scdPresentChangedAll c s = some (kept c s.submitted 0 != scdPresentTestSlot s 0) := by
    rw [scdPresentChangedAll, h1]
    show (scdPresentChangedSid c s 0).bind _ = _
    rw [scdPresentChangedSid, scdPresentTest_eq h1 h8, Option.map_some, Option.bind_some]
    cases kept c s.submitted 0 != scdPresentTestSlot s 0 <;> rfl
  rw [scdSubmitInterrupt, hchanged, Option.bind_eq_bind, Option.bind_some]
  by_cases hnews : (kept c s.submitted 0 != scdPresentTestSlot s 0) = true
  · rw [if_pos hnews]
    cases ready with
    | false => exact ⟨s, rfl, rfl, rfl, .inl rfl⟩
    | true =>
      obtain ⟨presents', hwrite, hkept⟩ := scdPresentWrite_eq h1 h8 (scdPresentTestSlot s 0) s.submitted
      refine ⟨{ s with request := some (scdPresentLength c), submitted := presents' }, ?_, rfl, rfl, .inr ⟨rfl, rfl, hkept⟩⟩
      rw [if_pos rfl, h1]
      show (scdSubmitPresentSid c { s with request := some (scdPresentLength c) } 0).bind _ = _
      rw [scdSubmitPresentSid]
      show ((scdPresentWrite c 0 (scdPresentTestSlot s 0) s.submitted).bind _).bind _ = _
      rw [hwrite]
      rfl
  · rw [if_neg hnews]
    exact ⟨s, rfl, rfl, rfl, .inl rfl⟩

theorem scdDiscardInterrupt_eq (s : ScdState) :
    ∃ s', scdDiscardInterrupt c s = some s' ∧ s'.slid = s.slid ∧ s'.request = none ∧
      kept c s'.discarded 0 = kept c s.submitted 0 := by
  obtain ⟨presents', hwrite, hkept⟩ := scdPresentWrite_eq h1 h8 (kept c s.submitted 0) s.discarded
  refine ⟨{ s with discarded := presents', request := none }, ?_, rfl, rfl, hkept⟩
  rw [scdDiscardInterrupt, h1]
  show ((scdDiscardPresentSid c s 0).bind _).map _ = _
  rw [scdDiscardPresentSid, scdPresentTest_eq h1 h8]
  show (((scdPresentWrite c 0 (kept c s.submitted 0) s.discarded).bind _).bind _).map _ = _
  rw [hwrite]
  rfl

theorem scdHandleInterrupt_eq (s : ScdState) :
    ∃ msg, scdHandleInterrupt c s = some msg ∧ msg.length = scdPresentLength c ∧
      messageBit msg 0 = kept c s.submitted 0 ∧
      messageBit msg 1 = (kept c s.submitted 0 != kept c s.discarded 0) := by
  have hunits : bitsToUnits c (c.slots + c.slots) = 1 := by
    rw [bitsToUnits, h1, h8]
    rfl
  have hsize : statusSize c = 1 := by
    rw [statusSize, hunits, h8]
  have hfill : ∃ status, scdPresentFillAll c s (fun _ => 0) = some status := by
    rw [scdPresentFillAll, h1]
    show ∃ status, (scdPresentFillSid c s (fun _ => 0) 0 0).bind _ = some status
    rw [scdPresentFillSid, scdPresentTest_eq h1 h8, scdPresentTest_eq h1 h8]
    have hwrite : ∀ nr < 8, ∀ b addr, ∃ addr', writeBit c (c.slots + c.slots) nr b addr = some addr' :=
      fun nr hnr b addr => ⟨_, within_eq h8 (by omega) (by omega) hnr⟩
    obtain ⟨addr₁, haddr₁⟩ := hwrite (scdIrqPresentBit 0) (by decide) (kept c s.submitted 0) fun _ => 0
    obtain ⟨addr₂, haddr₂⟩ := hwrite (scdIrqChangedBit 0) (by decide) (kept c s.submitted 0 != kept c s.discarded 0) addr₁
    refine ⟨addr₂, ?_⟩
    show ((writeBit c _ _ _ _).bind fun addr => writeBit c _ _ _ addr).bind _ = _
    rw [haddr₁]
    show (writeBit c _ _ _ _).bind _ = _
    rw [haddr₂]
    rfl
  obtain ⟨status, hstatus⟩ := hfill
  obtain ⟨hpresent, hchanged⟩ := scdPresentFillAll_spec (by omega) hstatus (show 0 < _ by omega)
  have hbits : ∀ i < 8, testBit c.unit i status = (status 0).testBit i := fun i hi => by
    rw [testBit, bitopWord, h8, Nat.div_eq_of_lt hi, Nat.mod_eq_of_lt hi]
  refine ⟨[0x50, BitVec.ofNat 8 (status 0)], ?_, ?_, ?_, ?_⟩
  · rw [scdHandleInterrupt, scdHandlePresentAll, if_neg (by omega), hstatus, hsize]
    rfl
  · rw [scdPresentLength, h1]
    rfl
  · rw [← hpresent, hbits _ (by decide)]
    show (BitVec.ofNat 8 (status 0)).getLsbD 0 = _
    rw [BitVec.getLsbD_ofNat]
    rfl
  · rw [← hchanged, hbits _ (by decide)]
    show (BitVec.ofNat 8 (status 0)).getLsbD 1 = _
    rw [BitVec.getLsbD_ofNat]
    rfl

end OneSlot

/-! ## Runs with one slot -/

/-- The bit submitted is the presence announced, and the bit discarded the presence reported. -/
structure Inv (c : Config) (y : Sys) : Prop where
  slid : y.state.slid = 0
  request : ∀ length, y.state.request = some length →
    length = scdPresentLength c ∧ kept c y.state.submitted 0 = y.announced 0
  discarded : kept c y.state.discarded 0 = y.reported 0

theorem Inv.tells (h1 : c.slots = 1) (h8 : c.unit = 8) (h : Inv c y) {length : Nat} (hr : y.state.request = some length) :
    ∃ msg, scdHandleInterrupt c y.state = some msg ∧ Tells c y length msg := by
  obtain ⟨rfl, hsub⟩ := h.request length hr
  obtain ⟨msg, hmsg, hlen, hpresent, hchanged⟩ := scdHandleInterrupt_eq h1 h8 y.state
  rw [hsub] at hpresent hchanged
  rw [h.discarded] at hchanged
  refine ⟨msg, hmsg, hlen, fun sid hsid => ?_, fun sid hsid => ?_⟩
  · obtain rfl : sid = 0 := by omega
    exact hpresent
  · obtain rfl : sid = 0 := by omega
    exact hchanged

/-- Each step that can come returns and keeps the invariant. -/
theorem Inv.step (h1 : c.slots = 1) (h8 : c.unit = 8) (h : Inv c y) {op : Op} (hop : Enabled c y op) :
    ∃ y', ScdNotify.step c y op = some y' ∧ Inv c y' := by
  cases op with
  | card sid status => exact ⟨_, rfl, h.slid, h.request, h.discarded⟩
  | select sid =>
    have hsid : sid < c.slots := hop
    exact ⟨_, rfl, show sid = 0 by omega, h.request, h.discarded⟩
  | poll ready =>
    obtain ⟨s', hs', hslid, hdis, hcase⟩ := scdSubmitInterrupt_eq h1 h8 ready y.state
    refine ⟨_, congrArg (Option.map _) hs', hslid.trans h.slid, fun length hr => ?_, ?_⟩
    · show length = _ ∧ kept c s'.submitted 0 = (if s'.request = y.state.request then y.announced else cardIn y.state) 0
      rcases hcase with rfl | ⟨hready, hreq, hsub⟩
      · rw [if_pos rfl]
        exact h.request length hr
      · have hnone : y.state.request = none := hop hready
        obtain rfl := Option.some.inj (hreq.symm.trans hr)
        refine ⟨rfl, ?_⟩
        rw [if_neg (by rw [hreq, hnone]; exact nofun), hsub]
        -- the slot that is selected is the only one
        show decide (scdStatus (y.state.status y.state.slid) ≠ .notPresent) = cardIn y.state 0
        rw [h.slid]
        rfl
    · rw [← h.discarded]
      exact congrArg (kept c · 0) hdis
  | sent =>
    obtain ⟨s', hs', hslid, hnone, hdis⟩ := scdDiscardInterrupt_eq h1 h8 y.state
    obtain ⟨length, hr⟩ := Option.ne_none_iff_exists'.1 hop
    refine ⟨_, congrArg (Option.map _) hs', hslid.trans h.slid, fun length hr' => ?_, ?_⟩
    · rw [show s'.request = some length from hr'] at hnone
      cases hnone
    · exact hdis.trans (h.request length hr).2
  | reset => exact ⟨_, rfl, h.slid, nofun, h.discarded⟩

theorem Run.inv (h1 : c.slots = 1) (h8 : c.unit = 8) (h : Run c y) : Inv c y := by
  refine Framework.Run.invariant (fun y hy => ?_) (fun y op y' hinv hop hstep => ?_) h
  · obtain ⟨status, slid, hslid, rfl⟩ := hy
    refine ⟨show slid = 0 by omega, nofun, ?_⟩
    show Nat.testBit 0 _ = false
    exact Nat.zero_testBit _
  · obtain ⟨y'', hy'', hinv'⟩ := hinv.step h1 h8 hop
    obtain rfl := Option.some.inj (hy''.symm.trans hstep)
    exact hinv'

/-! ## More slots, or wider words -/

/-- All slots are empty but the first, which is selected. -/
def oneCard : ScdState :=
  ⟨fun sid => if sid = 0 then .present else .notPresent, 0, fun _ => 0, fun _ => 0, none⟩

/-- The request that the first poll submits, and its message. -/
def firstMessage (c : Config) : Option (Option Nat × Option (List Byte)) :=
  (scdSubmitInterrupt c true oneCard).map fun s => (s.request, scdHandleInterrupt c s)

/-- No message is sent, or it says that a card is in the second slot. -/
def Wrong (slots : Nat) : Option (Option Nat × Option (List Byte)) → Prop
  | none => True
  | some (none, _) => False
  | some (some _, none) => True
  | some (some _, some msg) => 1 < slots ∧ messageBit msg 2 = true

instance (slots : Nat) : DecidablePred (Wrong slots)
  | none => .isTrue trivial
  | some (none, _) => .isFalse nofun
  | some (some _, none) => .isTrue trivial
  | some (some _, some _) => inferInstanceAs (Decidable (_ ∧ _))

theorem wrong_firstMessage (h : ¬ (c.slots = 1 ∧ c.unit = 8)) : Wrong c.slots (firstMessage c) := by
  obtain ⟨slots, unit, hpos, hle, hunit⟩ := c
  rcases hunit with rfl | rfl | rfl | rfl <;> interval_cases slots <;> first | exact absurd ⟨rfl, rfl⟩ h | decide +revert

def oneCardSys : Sys := ⟨oneCard, fun _ => false, fun _ => false⟩

theorem run_oneCard (c : Config) : Run c oneCardSys := .start ⟨oneCard.status, 0, c.slots_pos, rfl⟩

/-- The state after the first poll, with its request and its message. -/
theorem run_firstMessage {r : Option Nat} {m : Option (List Byte)} (h : firstMessage c = some (r, m)) (hr : r ≠ none) :
    ∃ y, Run c y ∧ y.state.request = r ∧ scdHandleInterrupt c y.state = m ∧ y.announced = cardIn oneCard := by
  obtain ⟨s, hs, heq⟩ := Option.map_eq_some_iff.1 h
  obtain ⟨rfl, rfl⟩ := Prod.mk.inj heq
  refine ⟨_, (run_oneCard c).next (.poll true) (fun _ => rfl) (congrArg (Option.map _) hs), rfl, rfl, ?_⟩
  exact if_neg hr

/-- The notification is right in every run exactly if there is one slot and `bits_t` has 8 bits. -/
theorem notifies_iff (c : Config) : Notifies c ↔ c.slots = 1 ∧ c.unit = 8 := by
  constructor
  · intro hn
    by_contra hne
    have hwrong := wrong_firstMessage hne
    obtain ⟨y', hy'⟩ := (hn _ (run_oneCard c)).1 (.poll true) fun _ => rfl
    obtain ⟨s, hs, -⟩ := Option.map_eq_some_iff.1 hy'
    have hfirst : firstMessage c = some (s.request, scdHandleInterrupt c s) := congrArg (Option.map _) hs
    rw [hfirst] at hwrong
    cases hr : s.request with
    | none =>
      rw [hr] at hwrong
      exact hwrong
    | some length =>
      obtain ⟨y, hrun, hreq, hhandle, hann⟩ := run_firstMessage hfirst (by rw [hr]; exact nofun)
      obtain ⟨msg, hmsg, htells⟩ := (hn y hrun).2 length (hreq.trans hr)
      rw [hr, ← hhandle, hmsg] at hwrong
      have hsecond := htells.present 1 hwrong.1
      rw [hann, hwrong.2] at hsecond
      exact absurd hsecond (by decide)
  · rintro ⟨h1, h8⟩ y hrun
    have hinv := Run.inv h1 h8 hrun
    refine ⟨fun op hop => ?_, fun length hr => hinv.tells h1 h8 hr⟩
    obtain ⟨y', hy', -⟩ := hinv.step h1 h8 hop
    exact ⟨y', hy'⟩

def twoSlots : Config := ⟨2, 8, by decide, by decide, Bitops.unitBits_eight⟩

/-- A card comes into the first of two slots, and the message says that both have one. -/
theorem not_notifies_two : ∃ y, Run twoSlots y ∧ y.announced 0 = true ∧ y.announced 1 = false ∧
    y.state.request = some 2 ∧ scdHandleInterrupt twoSlots y.state = some [0x50, 0x0F] ∧ ¬ Notifies twoSlots := by
  obtain ⟨y, hrun, hreq, hmsg, hann⟩ :=
    run_firstMessage (c := twoSlots) (by decide : firstMessage twoSlots = some (some 2, some [0x50, 0x0F])) nofun
  refine ⟨y, hrun, by rw [hann]; decide, by rw [hann]; decide, hreq, hmsg, fun hn => ?_⟩
  obtain ⟨msg, hmsg', htells⟩ := (hn y hrun).2 2 hreq
  obtain rfl := Option.some.inj (hmsg.symm.trans hmsg')
  have hsecond := htells.present 1 (by decide)
  rw [hann] at hsecond
  exact absurd hsecond (by decide)

end Sdfirm.ScdNotify
