import Sdfirm.Proof.IfdAtr.Parse
import Sdfirm.Proof.IfdPps.Response

/-!
# The selection of parameters

Every way through `ifd_info_xchg` leads to `ifd_conf_param`, which stops
unless F and D are good and the protocol is registered (`ifdConfParam_iff`).
A PPS exchange keeps what was negotiated and there is a response it takes
(`ends_request`). The loop over the TD bytes ends exactly if `Walk` does
(`ppsNegoT_iff`).
-/

namespace Sdfirm.IfdPps

open IfdAtr

variable {c : Config} {s : State}

/-! ## Applying the parameters -/

theorem ifdConfParam_iff (slot : Slot) :
    (∃ slot', ifdConfParam c slot = some slot') ↔ c.Registered slot.negoProto ∧ GoodFd slot.negoFd := by
  rw [ifdConfParam, ifdConfigFd_eq]
  by_cases hfd : GoodFd slot.negoFd
  · rw [if_pos hfd]
    show (∃ slot', (if c.Registered slot.negoProto then some _ else none) = some slot') ↔ _
    by_cases hT : c.Registered slot.negoProto
    · simp [hT, hfd]
    · simp [hT]
  · rw [if_neg hfd]
    simp [hfd]

/-- There is a response without parameters that is taken. -/
theorem exists_taken (s : State) : ∃ resp s', ppsXchg s resp = .ok s' := by
  have hnone : ∀ b : Byte, fields (b &&& 0x0F) = [] ∧ run (b &&& 0x0F) = 0 ∧ b &&& 0x0F &&& 0x0F = b &&& 0x0F := by
    decide
  obtain ⟨hf, hrun, hand⟩ := hnone (s.ppsReq 0)
  refine ⟨[ifdPpsPpss, s.ppsReq 0 &&& 0x0F, ifdPpsPpss ^^^ (s.ppsReq 0 &&& 0x0F)], ppsXchg_ok_iff.mpr ?_⟩
  have hpps0 : ∀ x y z : Byte, pps0 [x, y, z] = y := fun _ _ _ => rfl
  simp only [announcedLength, hpps0, hf, hrun, ifdPpsProto, hand]
  refine ⟨le_rfl, rfl, trivial, fun i hi => absurd hi (Nat.not_lt_zero i), ?_⟩
  simp

theorem ends_request : Ends c (.request s) ↔ c.Registered s.slot.negoProto ∧ GoodFd s.slot.negoFd := by
  constructor
  · intro h
    obtain ⟨resp, s', hs'⟩ := exists_taken s
    obtain ⟨hfd, hT⟩ := negoFd_of_ppsXchg hs'
    have hconf := (ifdConfParam_iff s'.slot).mp (h resp s' hs')
    rwa [hfd, hT] at hconf
  · intro h resp s' hs'
    obtain ⟨hfd, hT⟩ := negoFd_of_ppsXchg hs'
    rw [ifdConfParam_iff, hfd, hT]
    exact h

theorem ends_ppsOk : Ends c (.ppsOk s) ↔ c.Registered s.slot.negoProto ∧ GoodFd s.slot.negoFd := ifdConfParam_iff s.slot

/-! ## The request made from the answer -/

theorem getElem?_eq {l : List Nat} {i : Nat} (h : i < l.length) : l[i]? = some (l.getD i 0) := by
  rw [List.getElem?_eq_getElem h, List.getD_eq_getElem _ _ h]

theorem div32u_dataRate (c : Config) (fd : Byte) :
    div32u c (ifdFmaxSupps.getD (hihalf fd) 0 * ifdDiSupps.getD (lohalf fd) 0) (ifdFiSupps.getD (hihalf fd) 0) =
      if c.haveDiv32u → ifdFiSupps.getD (hihalf fd) 0 ≠ 0 then some (dataRate fd) else none := by
  rw [div32u, dataRate]
  by_cases hF : ifdFiSupps.getD (hihalf fd) 0 = 0
  · rw [if_pos hF, if_pos hF, hF]
    cases c.haveDiv32u <;> rfl
  · rw [if_neg hF, if_neg hF, if_pos fun _ => hF]

/-- The tables have what TA1 refers to, and F is divided by only if it is not 0. -/
theorem ppsNegoFd_eq (c : Config) (fd : Byte) :
    ppsNegoFd c fd =
      if hihalf fd < nrIfdFis then
        if ifdFmaxSupps.getD (hihalf fd) 0 > c.freqMax then some ifdFdImplicit
        else if lohalf fd < nrIfdDis then
          if c.haveDiv32u → ifdFiSupps.getD (hihalf fd) 0 ≠ 0 then
            some (if dataRate fd > c.dataMax then ifdFdImplicit else fd)
          else none
        else none
      else none := by
  rw [ppsNegoFd]
  by_cases hhi : hihalf fd < nrIfdFis
  · have hfmax : ifdFmaxSupps[hihalf fd]? = some (ifdFmaxSupps.getD (hihalf fd) 0) := getElem?_eq hhi
    have hfi : ifdFiSupps[hihalf fd]? = some (ifdFiSupps.getD (hihalf fd) 0) := getElem?_eq hhi
    rw [if_pos hhi, hfmax, hfi]
    show (if ifdFmaxSupps.getD (hihalf fd) 0 > c.freqMax then _ else _) = _
    split
    · rfl
    · by_cases hlo : lohalf fd < nrIfdDis
      · have hdi : ifdDiSupps[lohalf fd]? = some (ifdDiSupps.getD (lohalf fd) 0) := getElem?_eq hlo
        rw [if_pos hlo, hdi, Option.bind_some, Option.bind_some, div32u_dataRate]
        split <;> rfl
      · have hdi : ifdDiSupps[lohalf fd]? = none := List.getElem?_eq_none (Nat.le_of_not_lt hlo)
        rw [if_neg hlo, hdi, Option.bind_none]
  · have hfmax : ifdFmaxSupps[hihalf fd]? = none := List.getElem?_eq_none (Nat.le_of_not_lt hhi)
    rw [if_neg hhi, hfmax, Option.bind_none]

theorem fdOk_iff (fd : Byte) : FdOk c fd ↔ ∃ fd', ppsNegoFd c fd = some fd' ∧ GoodFd fd' := by
  have himplicit : GoodFd ifdFdImplicit := by decide
  rw [ppsNegoFd_eq]
  constructor
  · intro ⟨hhi, h⟩
    rw [if_pos hhi]
    split
    · exact ⟨_, rfl, himplicit⟩
    · next hfreq =>
      obtain ⟨hlo, hdiv, hrate⟩ := h.resolve_left hfreq
      rw [if_pos hlo, if_pos hdiv]
      refine ⟨_, rfl, ?_⟩
      split
      · exact himplicit
      · next hslow => exact hrate.resolve_left hslow
  · intro ⟨fd', h, hgood⟩
    split_ifs at h with hhi hfreq hlo hdiv hrate
    · exact ⟨hhi, .inl hfreq⟩
    · exact ⟨hhi, .inr ⟨hlo, hdiv, .inl hrate⟩⟩
    · rw [← Option.some.inj h] at hgood
      exact ⟨hhi, .inr ⟨hlo, hdiv, .inr hgood⟩⟩

/-- One round of the loop. -/
theorem ppsNegoT_succ (fuel : Nat) (curr : BitVec 8) (td : Byte) : ppsNegoT c s (fuel + 1) curr td =
    let n := ifdAtrBytes (tdFrom s curr td)
    let td' := s.buf (s.rxStart + ((curr + n).toNat + 1))
    if n = 0 then some scsProtoT0
    else if c.Registered (tdT td') then some (tdT td') else ppsNegoT c s fuel (curr + n) td' := by
  have htd : (if curr = 0 then s.buf (s.rxStart + (curr.toNat + 1)) else td) = tdFrom s curr td := by
    rw [tdFrom]
    split
    · next h => rw [h]; rfl
    · rfl
  rw [ppsNegoT]
  simp only [ifdPpsIterT, htd]
  by_cases hn : ifdAtrBytes (tdFrom s curr td) = 0
  · simp [hn]
  · have hne : ¬ curr = curr + ifdAtrBytes (tdFrom s curr td) := by simpa using hn
    simp only [if_pos hn, if_neg hn, if_neg hne]

theorem ppsNegoT_iff {curr : BitVec 8} {td t : Byte} :
    (∃ fuel, ppsNegoT c s fuel curr td = some t) ↔ Walk c s curr td t := by
  constructor
  · intro ⟨fuel, h⟩
    induction fuel generalizing curr td with
    | zero => nomatch h
    | succ fuel ih =>
      rw [ppsNegoT_succ] at h
      by_cases hn : ifdAtrBytes (tdFrom s curr td) = 0
      · simp only [if_pos hn] at h
        rw [← Option.some.inj h]
        exact .last hn
      · simp only [if_neg hn] at h
        split at h
        · next hr =>
          rw [← Option.some.inj h]
          exact .found rfl hn hr
        · next hr => exact .skip rfl hn hr (ih h)
  · intro h
    induction h with
    | last hn => exact ⟨1, by rw [ppsNegoT_succ]; exact if_pos hn⟩
    | found hn hpos hr =>
      subst hn
      refine ⟨1, ?_⟩
      rw [ppsNegoT_succ]
      simp only [if_neg hpos, if_pos hr]
    | skip hn hpos hr _ ih =>
      subst hn
      obtain ⟨fuel, ih⟩ := ih
      refine ⟨fuel + 1, ?_⟩
      rw [ppsNegoT_succ]
      simp only [if_neg hpos, if_neg hr, ih]

theorem ppsNegoT_slot (s : State) (slot : Slot) (fuel : Nat) (curr : BitVec 8) (td : Byte) :
    ppsNegoT c { s with slot } fuel curr td = ppsNegoT c s fuel curr td := by
  induction fuel generalizing curr td with
  | zero => rfl
  | succ fuel ih =>
    rw [ppsNegoT_succ, ppsNegoT_succ]
    simp only [ih]
    rfl

/-! ## The exchange -/

theorem ifdNegoProto_iff {s' : State} : ifdNegoProto c s = some s' ↔ c.Registered s.slot.negoProto ∧ s' = s := by
  rw [ifdNegoProto]
  split
  · next h => exact ⟨fun e => ⟨h, (Option.some.inj e).symm⟩, fun e => congrArg some e.2.symm⟩
  · next h => exact ⟨nofun, fun e => absurd e.1 h⟩

/-- Specific mode. -/
theorem ifdSpecMode_iff :
    (∃ next, ifdSpecMode c s = some next ∧ Ends c next) ↔ (c.Registered s.slot.specProto → GoodFd s.slot.specFd) := by
  rw [ifdSpecMode]
  by_cases hr : c.Registered s.slot.specProto
  · rw [if_neg (not_not.mpr hr), ifdNegoProto, if_pos hr]
    refine ⟨fun ⟨next, h, hends⟩ _ => ?_, fun h => ⟨_, rfl, ends_ppsOk.mpr ⟨hr, h hr⟩⟩⟩
    rw [← Option.some.inj h] at hends
    exact (ends_ppsOk.mp hends).2
  · rw [if_pos hr]
    exact ⟨fun _ h => absurd h hr, fun _ => ⟨_, rfl, trivial⟩⟩

/-- The first protocol offered. -/
theorem ifdNego1st_iff : (∃ next, ifdNego1st c s = some next ∧ Ends c next) ↔
    c.Registered s.slot.firstProto ∧ GoodFd s.slot.negoFd := by
  rw [ifdNego1st, ifdNegoProto]
  by_cases hr : c.Registered s.slot.firstProto
  · rw [if_pos hr]
    refine ⟨fun ⟨next, h, hends⟩ => ?_, fun h => ⟨_, rfl, ends_ppsOk.mpr h⟩⟩
    rw [← Option.some.inj h] at hends
    exact ends_ppsOk.mp hends
  · rw [if_neg hr]
    exact ⟨nofun, fun h => absurd h.1 hr⟩

/-- A PPS exchange. -/
theorem ifdNegoPps_iff (slot : Slot) :
    (∃ fuel next, ifdNegoPps c fuel { s with slot } = some next ∧ Ends c next) ↔
      if c.prop then FdOk c slot.indFd ∧ ∃ t, Walk c s 0 0 t ∧ c.Registered t
      else c.Registered slot.negoProto ∧ GoodFd slot.negoFd := by
  simp only [ifdNegoPps, ifdPpsBuild]
  by_cases hprop : c.prop
  · simp only [if_pos hprop, ppsNegoT_slot]
    constructor
    · intro ⟨fuel, next, h, hends⟩
      obtain ⟨s₁, hbuild, rfl⟩ := Option.map_eq_some_iff.mp h
      obtain ⟨fd, hfd, hbuild⟩ := Option.bind_eq_some_iff.mp hbuild
      obtain ⟨t, ht, hbuild⟩ := Option.bind_eq_some_iff.mp hbuild
      obtain ⟨s₂, hnego, rfl⟩ := Option.map_eq_some_iff.mp hbuild
      obtain ⟨hr, rfl⟩ := ifdNegoProto_iff.mp hnego
      have hgood : GoodFd fd := (ends_request.mp hends).2
      exact ⟨(fdOk_iff _).mpr ⟨fd, hfd, hgood⟩, t, ppsNegoT_iff.mp ⟨fuel, ht⟩, hr⟩
    · intro ⟨hok, t, hwalk, hr⟩
      obtain ⟨fd, hfd, hgood⟩ := (fdOk_iff _).mp hok
      obtain ⟨fuel, ht⟩ := ppsNegoT_iff.mpr hwalk
      refine ⟨fuel, .request (ppsBuild { s with slot := { slot with negoFd := fd, negoProto := t } }), ?_, ?_⟩
      · rw [hfd, ht, Option.bind_some, Option.bind_some, ifdNegoProto, if_pos hr]
        rfl
      · exact ends_request.mpr ⟨hr, hgood⟩
  · simp only [if_neg hprop]
    constructor
    · intro ⟨fuel, next, h, hends⟩
      rw [← Option.some.inj h] at hends
      exact ends_request.mp hends
    · intro h
      exact ⟨0, _, rfl, ends_request.mpr h⟩

theorem survives_iff (c : Config) (s : State) : Survives c s ↔ Sound c s := by
  rw [Survives, Sound]
  by_cases hspec : s.slot.infoXchg = .specific
  · simp only [ifdInfoXchg, if_pos hspec, exists_const]
    exact ifdSpecMode_iff
  · by_cases hpps : (hweight16 s.slot.indProtos).toNat > 1 ∨ s.slot.indFd ≠ ifdFdImplicit
    · simp only [ifdInfoXchg, if_neg hspec, if_pos hpps]
      exact ifdNegoPps_iff _
    · simp only [ifdInfoXchg, if_neg hspec, if_neg hpps, exists_const]
      exact ifdNego1st_iff

/-- The selection after an accepted answer ends in an error or in parameters that are applied,
exactly if `Sound` holds of the slot. -/
theorem safe_iff (c : Config) (r : Reception) (p : Parse) (s : State) :
    Safe c r p s ↔ (AfterAtr c r p s → Sound c s) := by
  rw [Safe]
  exact imp_congr_right fun _ => survives_iff c s

/-- T=0 and T=1, with the parameters set before. -/
def base : Config where
  toConfig := twoProtocols
  prop := false
  freqMax := 5000
  dataMax := 500000
  haveDiv32u := true

/-- T=14 is the only protocol offered. -/
def atrT14 : List Byte := [0x3B, 0x80, 0x2E, 0x00, 0xAE]

/-- Specific mode with T=0 and a TA1 whose F and D are reserved. -/
def atrReserved : List Byte := [0x3B, 0x90, 0x77, 0x10, 0x00]

/-- The slot at the defaults that has received and accepted an answer. -/
def slotAfter (atr : List Byte) : Option (Reception × State) :=
  (receive twoProtocols ifdConvDirect resting atr).bind fun r =>
    (atrParse twoProtocols 8 r.buf r.nr unparsed).bind fun p =>
      if r.event = some .xfrCmpl ∧ p.1 = .success then
        some (r, ⟨⟨p.2.slot, 0x11, 0, 0x11, 0⟩, r.buf, r.rxStart, fun _ => 0⟩)
      else none

theorem slotAfter_spec {atr : List Byte} {r : Reception} (h : slotAfter atr = some (r, s)) :
    Received twoProtocols ifdConvDirect resting atr r ∧ AfterAtr base r unparsed s := by
  obtain ⟨r', hr, h⟩ := Option.bind_eq_some_iff.mp h
  obtain ⟨⟨err, p⟩, hp, h⟩ := Option.bind_eq_some_iff.mp h
  split at h
  · next hok =>
    obtain ⟨rfl, rfl⟩ := Prod.mk.inj (Option.some.inj h)
    obtain ⟨hevent, rfl⟩ := hok
    exact ⟨⟨hr, hevent⟩, ⟨p, ⟨8, hp⟩, rfl⟩, rfl, rfl⟩
  · nomatch h

theorem not_safe_of_not_sound {r : Reception} {atr : List Byte} (h : slotAfter atr = some (r, s)) (hs : ¬ Sound base s) :
    ∃ r s, Received twoProtocols ifdConvDirect resting atr r ∧ ¬ Safe base r unparsed s := by
  obtain ⟨hrec, hafter⟩ := slotAfter_spec h
  exact ⟨r, s, hrec, fun hsafe => hs ((survives_iff base s).mp (hsafe hafter))⟩

/-- Two answers that stop the selection: the protocol is not there, F is reserved. -/
theorem not_safe : (∃ r s, Received twoProtocols ifdConvDirect resting atrT14 r ∧ ¬ Safe base r unparsed s) ∧
    ∃ r s, Received twoProtocols ifdConvDirect resting atrReserved r ∧ ¬ Safe base r unparsed s := by
  have h14 : ((slotAfter atrT14).any fun x => x.2.slot.infoXchg ≠ .specific ∧
      ¬ ((hweight16 x.2.slot.indProtos).toNat > 1 ∨ x.2.slot.indFd ≠ ifdFdImplicit) ∧
      ¬ base.Registered x.2.slot.firstProto) = true := by
    decide
  have hreserved : ((slotAfter atrReserved).any fun x => x.2.slot.infoXchg = .specific ∧
      base.Registered x.2.slot.specProto ∧ ¬ GoodFd x.2.slot.specFd) = true := by
    decide
  constructor
  · obtain ⟨⟨r, s⟩, h, hx⟩ := (Option.any_eq_true _ _).mp h14
    obtain ⟨hspec, hpps, hproto⟩ := of_decide_eq_true hx
    apply not_safe_of_not_sound h
    rw [Sound, if_neg hspec, if_neg hpps]
    exact fun hs => hproto hs.1
  · obtain ⟨⟨r, s⟩, h, hx⟩ := (Option.any_eq_true _ _).mp hreserved
    obtain ⟨hspec, hproto, hfd⟩ := of_decide_eq_true hx
    apply not_safe_of_not_sound h
    rw [Sound, if_pos hspec]
    exact fun hs => hfd (hs hproto)

end Sdfirm.IfdPps
