import Sdfirm.Proof.Pci.Tree

/-!
# The scan of a tree of buses

`scan_spec`: the loop over the functions of a device ends, whatever lies behind
them, and does to the configuration space what `Effect` says: by induction on the
functions, with the loop's variables `sec_bus = sub_bus + 1` at every function.
`enum_scanned` is that for a whole bus.
-/

namespace Sdfirm.Pci

variable {multi : Bool} {n fuel bus sub : Nat} {s s' s₁ : PciState}

/-- The bus numbers of the bridge are those of the buses below it. -/
def Window.Written (w : Window) (s : PciState) : Prop :=
  ∃ sec k, w.below = List.range' sec (k + 1) ∧ sec + k ≤ 255 ∧ w.bus ≤ 255 ∧
    w.reg s % 2 ^ 24 = (sec + k) * 2 ^ 16 + sec * 2 ^ 8 + w.bus

theorem Window.Written.congr {w : Window} (h : w.Written s) (heq : s'.conf ⟨w.bus, 0, w.fn⟩ = s.conf ⟨w.bus, 0, w.fn⟩) :
    w.Written s' := by
  have hreg : w.reg s' = w.reg s := by rw [reg, reg, pciGetConfReg, pciGetConfReg, heq]
  rw [Written, hreg]
  exact h

/-- What the scan of the functions `t` does. -/
structure Effect (t : Funs multi n) (bus next : Nat) (s s' : PciState) : Prop where
  frame : ∀ b, ¬Region bus (8 - n) next t.count b → s'.conf b = s.conf b
  written : ∀ w ∈ t.bridges bus next, w.Written s'
  enabled : s'.enabled = s.enabled ++ t.visits bus next
  bdf : s'.bdf = (s.bdf ++ t.visits bus next).take 32

theorem take_take_append {α : Type} (l m : List α) (k : Nat) : (l.take k ++ m).take k = (l ++ m).take k := by
  rw [List.take_append, List.take_append, List.take_take, min_self, List.length_take]
  congr 2
  omega

theorem Effect.length_bdf {t : Funs multi n} {next : Nat} (h : Effect t bus next s s') : s'.bdf.length ≤ 32 := by
  rw [h.bdf, List.length_take]
  omega

theorem Configured.length_bdf {f : Present} {b : Bdf} {g : Space} (h : Configured f b g s s') : s'.bdf.length ≤ 32 := by
  rw [h.bdf, List.length_take]
  omega

/-! ## One iteration -/

section

variable {enum : Nat → PciState → Option (Nat × PciState)} {fn sec : Nat} {f : Present} {g : Space}

theorem scanFuns_absent (h : s.conf ⟨bus, 0, fn⟩ = none) :
    scanFuns enum bus 0 (n + 1) fn sec sub s =
      if pciIsMultiFun s bus 0 then scanFuns enum bus 0 n (fn + 1) sec sub s else some (sub, s) := by
  have hids : pciGetIds s ⟨bus, 0, fn⟩ = 0xFFFFFFFF := by rw [pciGetIds, pciGetConfReg, h]
  simp only [scanFuns, hids]
  rfl

theorem getIds_ne (h : s.conf ⟨bus, 0, fn⟩ = some g) (hs : Same f.toSpace g) : pciGetIds s ⟨bus, 0, fn⟩ ≠ 0xFFFFFFFF := by
  rw [pciGetIds, getConfReg_of_some h, hs.ids]
  exact f.ids_ne

theorem scanFuns_endpoint (h : s.conf ⟨bus, 0, fn⟩ = some g) (hs : Same f.toSpace g) (hl : f.layout ≠ 1)
    (hs₁ : pciConfigure ⟨bus, 0, fn⟩ s = s₁) :
    scanFuns enum bus 0 (n + 1) fn (sub + 1) sub s =
      if pciIsMultiFun s₁ bus 0 then scanFuns enum bus 0 n (fn + 1) (sub + 1) sub s₁ else some (sub, s₁) := by
  subst hs₁
  rw [scanFuns]
  simp only [if_pos (getIds_ne h hs), getHeadertype_eq h hs, if_neg hl]
  rfl

theorem scanFuns_bridge {sub' : Nat} (h : s.conf ⟨bus, 0, fn⟩ = some g) (hs : Same f.toSpace g) (hl : f.layout = 1)
    (he : enum sec s = some (sub', s'))
    (hs₁ : pciConfigure ⟨bus, 0, fn⟩ (pciUpdateBridgeBusResource ⟨bus, 0, fn⟩ sec sub' s') = s₁) :
    scanFuns enum bus 0 (n + 1) fn sec sub s =
      if pciIsMultiFun s₁ bus 0 then scanFuns enum bus 0 n (fn + 1) (sub' + 1) sub' s₁ else some (sub', s₁) := by
  subst hs₁
  rw [scanFuns]
  simp only [if_pos (getIds_ne h hs), getHeadertype_eq h hs, if_pos hl, he]
  rfl

end

/-! ## All functions of a device -/

/-- The functions that are left are scanned, or the first one says that there are none. -/
theorem scan_rest (rest : Funs multi n) (enum : Nat → PciState → Option (Nat × PciState)) (hn : n ≤ 7)
    (hmulti : pciIsMultiFun s₁ bus 0 = true ∨ multi = false) (hbdf : s₁.bdf.length ≤ 32)
    (ih : pciIsMultiFun s₁ bus 0 = true →
      ∃ s', scanFuns enum bus 0 n (8 - n) (sub + 1) sub s₁ = some (sub + rest.count, s') ∧ Effect rest bus (sub + 1) s₁ s') :
    ∃ s', (if pciIsMultiFun s₁ bus 0 then scanFuns enum bus 0 n (8 - n) (sub + 1) sub s₁ else some (sub, s₁)) =
      some (sub + rest.count, s') ∧ Effect rest bus (sub + 1) s₁ s' := by
  by_cases hm : pciIsMultiFun s₁ bus 0 = true
  · rw [if_pos hm]
    exact ih hm
  · rw [if_neg hm]
    obtain rfl : multi = false := hmulti.resolve_left hm
    obtain ⟨hcount, hvisits, hbridges⟩ := rest.eq_of_single hn bus (sub + 1)
    refine ⟨s₁, by rw [hcount, Nat.add_zero], fun _ _ => rfl, ?_, ?_, ?_⟩
    · rw [hbridges]
      exact fun w hw => absurd hw (List.not_mem_nil)
    · rw [hvisits, List.append_nil]
    · rw [hvisits, List.append_nil, List.take_of_length_le hbdf]

/-- What `pci_is_multi_fun` says after a function has been configured: what the first one says, which is not
touched if it is another one. -/
theorem multi_of_configured {f : Present} {g : Space} (hd : Declared f multi n) (hn : n ≤ 7)
    (hmulti : n < 7 → pciIsMultiFun s bus 0 = true) (hc : Configured f ⟨bus, 0, 7 - n⟩ g s s₁) :
    pciIsMultiFun s₁ bus 0 = true ∨ multi = false := by
  by_cases h7 : n = 7
  · subst h7
    obtain ⟨g', hg', hs', -⟩ := hc.self
    rw [isMultiFun_eq hg' hs']
    simp only [Declared, ↓reduceIte] at hd
    rw [hd]
    cases multi <;> simp
  · left
    rw [isMultiFun_congr (hc.others _ ?_)]
    · exact hmulti (by omega)
    · simp only [ne_eq, Bdf.mk.injEq, not_and]
      omega

theorem scan_spec {multi : Bool} {n : Nat} (t : Funs multi n) (fuel bus sub : Nat) (s : PciState) (hn : n ≤ 8)
    (hfuel : t.count ≤ fuel) (hlt : bus ≤ sub) (hmax : sub + t.count ≤ 255) (ha : t.Answers bus (sub + 1) s.conf)
    (hmulti : n < 8 → pciIsMultiFun s bus 0 = true) (hbdf : s.bdf.length ≤ 32) :
    ∃ s', scanFuns (pciEnum fuel) bus 0 n (8 - n) (sub + 1) sub s = some (sub + t.count, s') ∧
      Effect t bus (sub + 1) s s' := by
  induction t generalizing fuel bus sub s with
  | nil =>
    refine ⟨s, rfl, fun _ _ => rfl, ?_, ?_, ?_⟩
    · exact fun w hw => absurd hw List.not_mem_nil
    · exact (List.append_nil _).symm
    · rw [Funs.visits, List.append_nil, List.take_of_length_le hbdf]
  | @absent multi n rest ih =>
    obtain ⟨hnone, ha⟩ := ha
    have hfn : 8 - (n + 1) = 7 - n := by omega
    have hfn' : 7 - n + 1 = 8 - n := by omega
    rw [hfn, scanFuns_absent hnone, hfn']
    have hm : pciIsMultiFun s bus 0 = true := by
      by_cases h7 : n = 7
      · subst h7
        exact isMultiFun_of_none hnone
      · exact hmulti (by omega)
    obtain ⟨s', hscan, he⟩ := scan_rest rest (pciEnum fuel) (by omega) (.inl hm) hbdf
      fun hm => ih _ _ _ _ (by omega) hfuel hlt hmax ha (fun _ => hm) hbdf
    refine ⟨s', hscan, fun b hb => he.frame b fun hr => hb ⟨hr.1, ?_⟩, he.written, he.enabled, he.bdf⟩
    have := hr.2
    rw [Funs.count]
    omega
  | @endpoint multi n f hd rest ih =>
    obtain ⟨hself, ha⟩ := ha
    rw [Funs.count] at hfuel hmax ⊢
    have hfn : 8 - (n + 1) = 7 - n := by omega
    have hfn' : 7 - n + 1 = 8 - n := by omega
    obtain ⟨s₁, hs₁⟩ : ∃ s₁, pciConfigure ⟨bus, 0, 7 - n⟩ s = s₁ := ⟨_, rfl⟩
    have hc := configure_spec hself (Same.refl f.toSpace) hbdf ⟨show bus ≤ 255 by omega, rfl, show 7 - n < 8 by omega⟩
    rw [hs₁] at hc
    rw [hfn, scanFuns_endpoint hself (Same.refl f.toSpace) f.layout_ne hs₁, hfn']
    have ha₁ : rest.Answers bus (sub + 1) s₁.conf := by
      refine ha.congr (by omega) fun b hb => hc.others b ?_
      rintro rfl
      have := hb.2
      simp only at this
      omega
    obtain ⟨s', hscan, he⟩ := scan_rest rest (pciEnum fuel) (by omega)
      (multi_of_configured hd (by omega) (fun h => hmulti (by omega)) hc) hc.length_bdf
      fun hm => ih _ _ _ _ (by omega) hfuel hlt hmax ha₁ (fun _ => hm) hc.length_bdf
    refine ⟨s', hscan, fun b hb => ?_, he.written, ?_, ?_⟩
    · rw [he.frame b, hc.others b]
      · rintro rfl
        exact hb ⟨rfl, .inl ⟨rfl, by simp only; omega⟩⟩
      · intro hr
        refine hb ⟨hr.1, ?_⟩
        have := hr.2
        rw [Funs.count]
        omega
    · rw [he.enabled, hc.enabled, List.append_assoc]
      rfl
    · rw [he.bdf, hc.bdf, take_take_append, List.append_assoc]
      rfl
  | @bridge multi _ n f hd below rest ihb ihr =>
    obtain ⟨hself, hab, har⟩ := ha
    rw [Funs.count] at hfuel hmax ⊢
    have hfn : 8 - (n + 1) = 7 - n := by omega
    have hfn' : 7 - n + 1 = 8 - n := by omega
    -- the buses behind the bridge
    obtain ⟨fuel, rfl⟩ : ∃ m, fuel = m + 1 := ⟨fuel - 1, by omega⟩
    obtain ⟨sB, hscanB, heB⟩ := ihb fuel (sub + 1) (sub + 1) s le_rfl (by omega) le_rfl (by omega)
      hab (by omega) hbdf
    have hselfB : sB.conf ⟨bus, 0, 7 - n⟩ = some f.toSpace := by
      rw [heB.frame _ fun hr => ?_, hself]
      have := hr.2
      simp only at this
      omega
    -- the bridge itself
    obtain ⟨x, hx⟩ : ∃ x, pciGetConfReg sB ⟨bus, 0, 7 - n⟩ 0x4 = x := ⟨_, rfl⟩
    obtain ⟨sU, hsU⟩ : ∃ sU, pciUpdateBridgeBusResource ⟨bus, 0, 7 - n⟩ (sub + 1) (sub + 1 + below.count) sB = sU := ⟨_, rfl⟩
    obtain ⟨s₁, hs₁⟩ : ∃ s₁, pciConfigure ⟨bus, 0, 7 - n⟩ sU = s₁ := ⟨_, rfl⟩
    have hselfU : sU.conf ⟨bus, 0, 7 - n⟩ =
        some (f.toSpace.write pciBusNumbers ((x &&& 0xFF000000) ||| busReg bus (sub + 1) (sub + 1 + below.count))) := by
      rw [← hsU, pciUpdateBridgeBusResource, setConfReg_conf_self _ _ hselfB, hx]
    have hotherU : ∀ b ≠ ⟨bus, 0, 7 - n⟩, sU.conf b = sB.conf b := by
      intro b hb
      rw [← hsU]
      exact setConfReg_conf_of_ne _ _ hb
    have henabledU : sU.enabled = sB.enabled := by
      rw [← hsU, pciUpdateBridgeBusResource, setConfReg_enabled, if_neg (by decide), List.append_nil]
    have hbdfU : sU.bdf = sB.bdf := by rw [← hsU]; rfl
    have hc := configure_spec hselfU ((Same.refl f.toSpace).write _ _) (hbdfU ▸ heB.length_bdf)
      ⟨show bus ≤ 255 by omega, rfl, show 7 - n < 8 by omega⟩
    rw [hs₁] at hc
    rw [← hsU] at hs₁
    have henum : pciEnum (fuel + 1) (sub + 1) s = some (sub + 1 + below.count, sB) := hscanB
    rw [hfn, scanFuns_bridge hself (Same.refl f.toSpace) f.layout_eq henum hs₁, hfn']
    have hmultiU : n < 7 → pciIsMultiFun sU bus 0 = true := by
      intro h7
      rw [isMultiFun_congr (s := s)]
      · exact hmulti (by omega)
      · rw [hotherU, heB.frame _ fun hr => ?_]
        · have := hr.2
          simp only at this
          omega
        · simp only [ne_eq, Bdf.mk.injEq, not_and]
          omega
    -- the functions after it
    have har₁ : rest.Answers bus (sub + 1 + below.count + 1) s₁.conf := by
      rw [show sub + 1 + below.count + 1 = sub + 1 + 1 + below.count by omega]
      refine har.congr (by omega) fun b hb => ?_
      have := hb.2
      rw [hc.others b, hotherU b, heB.frame b fun hr => ?_]
      · have := hr.2
        omega
      · rintro rfl
        simp only at this
        omega
      · rintro rfl
        simp only at this
        omega
    obtain ⟨s', hscan, he⟩ := scan_rest rest (pciEnum (fuel + 1)) (by omega)
      (multi_of_configured hd (by omega) hmultiU hc) hc.length_bdf
      fun hm => ihr _ _ _ _ (by omega) (by omega) (by omega) (by omega) har₁ (fun _ => hm) hc.length_bdf
    have hnext : sub + 1 + below.count + 1 = sub + 1 + 1 + below.count := by omega
    refine ⟨s', ?_, fun b hb => ?_, fun w hw => ?_, ?_, ?_⟩
    · rw [hscan]
      congr 2
      omega
    · rw [he.frame b fun hr => ?_, hc.others b, hotherU b, heB.frame b fun hr => ?_]
      · refine hb ⟨hr.1, ?_⟩
        have := hr.2
        rw [Funs.count]
        omega
      · rintro rfl
        exact hb ⟨rfl, .inl ⟨rfl, by simp only; omega⟩⟩
      · rintro rfl
        exact hb ⟨rfl, .inl ⟨rfl, by simp only; omega⟩⟩
      · refine hb ⟨hr.1, ?_⟩
        have := hr.2
        rw [Funs.count]
        omega
    · simp only [Funs.bridges, List.cons_append, List.mem_cons, List.mem_append] at hw
      obtain rfl | hw | hw := hw
      · -- the bridge, which the functions after it do not touch
        obtain ⟨g', hg', -, hkeep⟩ := hc.self
        have hfin : s'.conf ⟨bus, 0, 7 - n⟩ = some g' := by
          rw [he.frame _ fun hr => ?_, hg']
          have := hr.2
          simp only at this
          omega
        refine ⟨sub + 1, below.count, Funs.cons_buses below (sub + 1), by omega, show bus ≤ 255 by omega, ?_⟩
        rw [Window.reg, getConfReg_of_some hfin, hkeep f.layout_eq]
        exact toNat_busNumbers (Same.refl f.toSpace) x (by omega) (by omega) (by omega)
      · refine (heB.written w hw).congr ?_
        obtain ⟨⟨-, hr⟩, -⟩ := Funs.mem_bridges le_rfl (by omega) hw
        simp only at hr
        rw [he.frame _ fun hr' => ?_, hc.others, hotherU]
        · simp only [ne_eq, Bdf.mk.injEq, not_and]
          omega
        · simp only [ne_eq, Bdf.mk.injEq, not_and]
          omega
        · have := hr'.2
          simp only at this
          omega
      · rw [hnext] at he
        exact he.written w hw
    · rw [he.enabled, hc.enabled, henabledU, heB.enabled, hnext, Funs.visits]
      simp only [List.append_assoc, List.cons_append, List.nil_append]
    · rw [he.bdf, hc.bdf, hbdfU, heB.bdf, hnext, Funs.visits, take_take_append, List.append_assoc, take_take_append]
      simp only [List.append_assoc, List.cons_append, List.nil_append]

/-! ## A whole bus -/

theorem Window.Written.primary_eq {w : Window} (h : w.Written s) : w.primary s = w.bus := by
  obtain ⟨sec, k, -, hk, hbus, hreg⟩ := h
  rw [primary]
  omega

theorem Window.Written.interval_eq {w : Window} (h : w.Written s) : w.interval s = {x | x ∈ w.below} := by
  obtain ⟨sec, k, hbelow, hk, hbus, hreg⟩ := h
  have hsec : w.reg s / 2 ^ 8 % 2 ^ 8 = sec := by omega
  have hsub : w.reg s / 2 ^ 16 % 2 ^ 8 = sec + k := by omega
  ext x
  rw [interval, hsec, hsub, hbelow, Set.mem_Icc, Set.mem_ofPred_eq, List.mem_range'_1]
  omega

/-- A function with this header, whose bus numbers can be written if it has them. -/
def plainSpace (header : BitVec 32) : Space where
  regs reg := if reg = 0xC then header else 0x00011234
  mask reg := if reg = pciBusNumbers then 0x00FFFFFF else 0

def plainEndpoint : Endpoint := ⟨⟨plainSpace 0, by decide, by decide, by decide⟩, by decide⟩

/-- A bridge that is the first of several functions, or one of the others. -/
def plainBridge : Bridge := ⟨⟨plainSpace 0x00810000, by decide, by decide, by decide⟩, by decide, by decide⟩

/-- A bus with nothing on it. -/
def emptyBus : Bus true := .absent (.absent (.absent (.absent (.absent (.absent (.absent (.absent .nil)))))))

/-- A bus with one function. -/
def endpointBus : Bus false :=
  .endpoint plainEndpoint (by decide) (.absent (.absent (.absent (.absent (.absent (.absent (.absent .nil)))))))

/-- A bridge, an endpoint and a bridge with nothing behind it. -/
def twoBridges : Bus true :=
  .bridge plainBridge (by decide) endpointBus (.endpoint plainEndpoint (by decide) (.bridge plainBridge (by decide) emptyBus
    (.absent (.absent (.absent (.absent (.absent .nil)))))))

def twoBridgesConf (b : Bdf) : Option Space :=
  if b = ⟨1, 0, 0⟩ ∨ b = ⟨1, 0, 2⟩ then some plainBridge.toSpace
  else if b = ⟨1, 0, 1⟩ ∨ b = ⟨2, 0, 0⟩ then some plainEndpoint.toSpace
  else none

end Sdfirm.Pci
