import Sdfirm.Proof.Pci.Scan

/-!
# The scan of hardware that routes the cycles

`pciEnumOn_static`: on hardware that answers whatever the bridges say, this is the scan
as before. With routing, `pci_enum` comes to a bus before the bridge above
it has been given an interval, so no cycle gets there: the bus appears empty
(`enum_silent`), and the functions found are those of the first bus (`scan_routed`).
-/

namespace Sdfirm.Pci

/-! ## The same scan -/

/-- Hardware in which the bus numbers change nothing. -/
def Access.static : Access PciState where
  view s := s
  work _ op s := op s

theorem scanFunsOn_static (enum : Nat → PciState → Option (Nat × PciState)) (bus dev n fn sec sub : Nat) (s : PciState) :
    scanFunsOn .static enum bus dev n fn sec sub s = scanFuns enum bus dev n fn sec sub s := by
  induction n generalizing fn sec sub s with
  | zero => rfl
  | succ n ih =>
    rw [scanFunsOn, scanFuns]
    simp only [ih]
    rfl

theorem pciEnumOn_static (fuel bus : Nat) (s : PciState) : pciEnumOn .static fuel bus s = pciEnum fuel bus s := by
  induction fuel generalizing bus s with
  | zero => rfl
  | succ fuel ih =>
    rw [pciEnumOn, pciEnum, scanFunsOn_static]
    congr 1
    funext bus s
    exact ih bus s

/-! ## One iteration -/

section

variable {σ : Type} {hw : Access σ} {enum : Nat → σ → Option (Nat × σ)} {s s' s₁ : σ} {bus n fn sec sub : Nat} {f : Present}
  {g : Space}

theorem scanFunsOn_absent (h : (hw.view s).conf ⟨bus, 0, fn⟩ = none) :
    scanFunsOn hw enum bus 0 (n + 1) fn sec sub s =
      if pciIsMultiFun (hw.view s) bus 0 then scanFunsOn hw enum bus 0 n (fn + 1) sec sub s else some (sub, s) := by
  have hids : pciGetIds (hw.view s) ⟨bus, 0, fn⟩ = 0xFFFFFFFF := by rw [pciGetIds, pciGetConfReg, h]
  simp only [scanFunsOn, hids]
  rfl

theorem scanFunsOn_endpoint (h : (hw.view s).conf ⟨bus, 0, fn⟩ = some g) (hs : Same f.toSpace g) (hl : f.layout ≠ 1)
    (hs₁ : hw.work ⟨bus, 0, fn⟩ (pciConfigure ⟨bus, 0, fn⟩) s = s₁) :
    scanFunsOn hw enum bus 0 (n + 1) fn sec sub s =
      if pciIsMultiFun (hw.view s₁) bus 0 then scanFunsOn hw enum bus 0 n (fn + 1) (sub + 1) sub s₁ else some (sub, s₁) := by
  subst hs₁
  rw [scanFunsOn]
  simp only [if_pos (getIds_ne h hs), getHeadertype_eq h hs, if_neg hl]
  rfl

theorem scanFunsOn_bridge {sub' : Nat} (h : (hw.view s).conf ⟨bus, 0, fn⟩ = some g) (hs : Same f.toSpace g) (hl : f.layout = 1)
    (he : enum sec s = some (sub', s'))
    (hs₁ : hw.work ⟨bus, 0, fn⟩ (pciConfigure ⟨bus, 0, fn⟩)
      (hw.work ⟨bus, 0, fn⟩ (pciUpdateBridgeBusResource ⟨bus, 0, fn⟩ sec sub') s') = s₁) :
    scanFunsOn hw enum bus 0 (n + 1) fn sec sub s =
      if pciIsMultiFun (hw.view s₁) bus 0 then scanFunsOn hw enum bus 0 n (fn + 1) (sub' + 1) sub' s₁ else some (sub', s₁) := by
  subst hs₁
  rw [scanFunsOn]
  simp only [if_pos (getIds_ne h hs), getHeadertype_eq h hs, if_pos hl, he]
  rfl

/-- The scan of a bus where nothing answers. -/
theorem scanFunsOn_silent (h : ∀ fn, (hw.view s).conf ⟨bus, 0, fn⟩ = none) (n fn sec sub : Nat) :
    scanFunsOn hw enum bus 0 n fn sec sub s = some (sub, s) := by
  induction n generalizing fn with
  | zero => rfl
  | succ n ih =>
    rw [scanFunsOn_absent (h fn), ih]
    split <;> rfl

theorem enum_silent (h : ∀ fn, (hw.view s).conf ⟨bus, 0, fn⟩ = none) (fuel : Nat) :
    pciEnumOn hw (fuel + 1) bus s = some (bus, s) := scanFunsOn_silent h 8 0 (bus + 1) bus

end

/-! ## Functions of the first bus -/

namespace Funs

/-- The functions that are there, without those behind the bridges. -/
def top {multi : Bool} {n : Nat} : Funs multi n → (bus : Nat) → List Bdf
  | .nil, _ => []
  | .absent rest, bus => rest.top bus
  | .endpoint (n := n) _ _ rest, bus => ⟨bus, 0, 7 - n⟩ :: rest.top bus
  | .bridge (n := n) _ _ _ rest, bus => ⟨bus, 0, 7 - n⟩ :: rest.top bus

theorem bus_of_mem_top {multi : Bool} {n : Nat} {t : Funs multi n} {bus : Nat} {b : Bdf} (h : b ∈ t.top bus) : b.bus = bus := by
  induction t with
  | nil => exact absurd h List.not_mem_nil
  | absent rest ih => exact ih h
  | endpoint f hd rest ih =>
    obtain rfl | h := List.mem_cons.mp h
    · rfl
    · exact ih h
  | bridge f hd below rest _ ih =>
    obtain rfl | h := List.mem_cons.mp h
    · rfl
    · exact ih h

theorem visits_eq_nil_iff {multi : Bool} {n : Nat} (t : Funs multi n) (bus next : Nat) : t.visits bus next = [] ↔ t.Empty := by
  induction t generalizing bus next with
  | nil => exact iff_of_true rfl trivial
  | absent rest ih => exact ih bus next
  | endpoint f hd rest ih => exact iff_of_false (List.cons_ne_nil _ _) id
  | bridge f hd below rest _ _ =>
    exact iff_of_false (List.append_ne_nil_of_right_ne_nil _ (List.cons_ne_nil _ _)) id

/-- The functions of the first bus are all the functions if there is none behind its bridges. -/
theorem visits_subset_top_iff {multi : Bool} {n : Nat} (t : Funs multi n) {bus next : Nat} (hn : n ≤ 8) (hlt : bus < next) :
    (∀ b ∈ t.visits bus next, b.bus = bus) ↔ t.Flat := by
  induction t generalizing next with
  | nil => exact iff_of_true (fun b hb => absurd hb List.not_mem_nil) trivial
  | absent rest ih => exact ih (by omega) hlt
  | endpoint f hd rest ih =>
    rw [visits, List.forall_mem_cons, Flat, ← ih (by omega) hlt]
    exact and_iff_right rfl
  | bridge f hd below rest _ ih =>
    rw [visits, List.forall_mem_append, List.forall_mem_cons, Flat, ← ih (by omega) (by omega : bus < next + 1 + below.count),
      ← below.visits_eq_nil_iff next (next + 1)]
    constructor
    · rintro ⟨hbelow, -, hrest⟩
      refine ⟨List.eq_nil_iff_forall_not_mem.mpr fun b hb => ?_, hrest⟩
      -- The buses behind the bridge have higher numbers.
      obtain ⟨⟨-, hr⟩, -⟩ := mem_visits le_rfl (Nat.lt_succ_self next) hb
      have := hbelow b hb
      omega
    · rintro ⟨hbelow, hrest⟩
      rw [hbelow]
      exact ⟨fun b hb => absurd hb List.not_mem_nil, rfl, hrest⟩

theorem Empty.top_eq_nil {multi : Bool} {n : Nat} {t : Funs multi n} (h : t.Empty) (bus : Nat) : t.top bus = [] := by
  induction t with
  | nil => rfl
  | absent rest ih => exact ih h
  | endpoint f hd rest _ => exact h.elim
  | bridge f hd below rest _ _ => exact h.elim

theorem visits_eq_top {multi : Bool} {n : Nat} {t : Funs multi n} {bus next : Nat} (h : t.Flat) :
    t.visits bus next = t.top bus := by
  induction t generalizing next with
  | nil => rfl
  | absent rest ih => exact ih h
  | endpoint f hd rest ih => rw [visits, top, ih h]
  | bridge f hd below rest _ ih => rw [visits, top, (below.visits_eq_nil_iff _ _).mpr h.1, ih h.2, List.nil_append]

theorem lookup_of_lt {multi : Bool} {n fn : Nat} (t : Funs multi n) (hn : n ≤ 8) (h : fn < 8 - n) : t.lookup fn = none := by
  induction t with
  | nil => rfl
  | absent rest ih => exact ih (by omega) (by omega)
  | endpoint f hd rest ih => rw [lookup, if_neg (by omega), ih (by omega) (by omega)]
  | bridge f hd below rest _ ih => rw [lookup, if_neg (by omega), ih (by omega) (by omega)]

/-- A cycle for a bus that is above all subordinate numbers goes nowhere. -/
theorem reach_eq_none {multi : Bool} {n bus fn : Nat} {window : List Nat → Nat × Nat} (t : Funs multi n) (path : List Nat)
    (hn : n ≤ 8) (h : ∀ k f, t.lookup k = some f → f.layout = 1 → (window (path ++ [k])).2 < bus) :
    t.reach window bus fn path = none := by
  induction t with
  | nil => rfl
  | absent rest ih => exact ih (by omega) h
  | endpoint f hd rest ih =>
    refine ih (by omega) fun k f' hk => h k f' ?_
    rw [lookup, if_neg, hk]
    rintro rfl
    rw [rest.lookup_of_lt (by omega) (by omega)] at hk
    cases hk
  | bridge f hd below rest _ ih =>
    have hfirst := h _ f.toPresent (if_pos rfl) f.layout_eq
    refine (if_neg fun hin => absurd hin.2 (not_le.mpr hfirst)).trans ?_
    refine ih (by omega) fun k f' hk => h k f' ?_
    rw [lookup, if_neg, hk]
    rintro rfl
    rw [rest.lookup_of_lt (by omega) (by omega)] at hk
    cases hk

end Funs

/-! ## What the scan does to the hardware -/

section

variable {multi : Bool} {t : Bus multi} {root fn bus sub : Nat} {s : Routed} {f : Present}

theorem view_conf_root (fn : Nat) :
    ((routed t root).view s).conf ⟨root, 0, fn⟩ = (t.lookup fn).map fun f => ⟨s.regs [fn], f.mask⟩ := by
  show (s.reach t root ⟨root, 0, fn⟩).map _ = _
  rw [Routed.reach, if_neg (not_not.mpr rfl), if_pos rfl, Option.map_map]
  rfl

/-- How the hardware is while the scan is at the first bus: the functions can be told apart as before, and no interval of a
bridge goes beyond `sub_bus`. -/
structure Inv (t : Bus multi) (sub : Nat) (s : Routed) : Prop where
  same : ∀ fn f, t.lookup fn = some f → Same f.toSpace ⟨s.regs [fn], f.mask⟩
  window : ∀ fn f, t.lookup fn = some f → f.layout = 1 → (secSub (s.regs [fn])).2 ≤ sub
  bdf : s.bdf.length ≤ 32

theorem Inv.silent (h : Inv t sub s) (hroot : root ≤ sub) (hbus : sub < bus) (fn : Nat) :
    ((routed t root).view s).conf ⟨bus, 0, fn⟩ = none := by
  have hnone : s.reach t root ⟨bus, 0, fn⟩ = none := by
    rw [Routed.reach, if_neg (not_not.mpr rfl), if_neg (show bus ≠ root by omega)]
    exact t.reach_eq_none [] le_rfl fun k f hk hl => lt_of_le_of_lt (h.window k f hk hl) hbus
  show (s.reach t root ⟨bus, 0, fn⟩).map _ = none
  rw [hnone]
  rfl

/-- What `pci_is_multi_fun` says. -/
theorem Inv.isMultiFun (h : Inv t sub s) : pciIsMultiFun ((routed t root).view s) root 0 = true ∨ multi = false := by
  have hpresent : ∀ f, t.lookup 0 = some f → Declared f multi 7 →
      pciIsMultiFun ((routed t root).view s) root 0 = true ∨ multi = false := by
    intro f hf hd
    rw [isMultiFun_eq (by rw [view_conf_root, hf]; rfl) (h.same 0 f hf), show f.multi = multi from hd]
    exact (Bool.eq_false_or_eq_true multi).imp id id
  cases t with
  | absent rest =>
    refine .inl ?_
    have hnone : ((routed (Funs.absent rest) root).view s).conf ⟨root, 0, 0⟩ = none := by
      rw [view_conf_root, show (Funs.absent rest).lookup 0 = none from rest.lookup_of_lt (by omega) (by omega)]
      rfl
    rw [pciIsMultiFun, pciGetConfReg, hnone]
    rfl
  | endpoint f hd rest => exact hpresent f.toPresent rfl hd
  | bridge f hd below rest => exact hpresent f.toPresent rfl hd

/-- A function is worked on. -/
theorem work_root {g : Space} {op : PciState → PciState} (hf : t.lookup fn = some f)
    (hg : (op ((routed t root).view s)).conf ⟨root, 0, fn⟩ = some g) :
    (routed t root).work ⟨root, 0, fn⟩ op s =
      ⟨Function.update s.regs [fn] g.regs, (op ((routed t root).view s)).cycles, (op ((routed t root).view s)).bdf⟩ := by
  have hreach : s.reach t root ⟨root, 0, fn⟩ = some ([fn], f) := by
    rw [Routed.reach, if_neg (not_not.mpr rfl), if_pos rfl, hf]
    rfl
  simp only [routed] at hg ⊢
  simp only [hreach, hg]

/-- The invariant after a change of one function that does not take its interval beyond `sub'`. -/
theorem Inv.update {g : Space} {sub' : Nat} {cycles : List Cycle} {bdf : List Bdf} (h : Inv t sub s)
    (hf : t.lookup fn = some f) (hs : Same f.toSpace g) (hsub : sub ≤ sub') (hwindow : f.layout = 1 → (secSub g.regs).2 ≤ sub')
    (hbdf : bdf.length ≤ 32) : Inv t sub' ⟨Function.update s.regs [fn] g.regs, cycles, bdf⟩ := by
  have hother (k : Nat) (hne : k ≠ fn) : Function.update s.regs [fn] g.regs [k] = s.regs [k] :=
    Function.update_of_ne (fun heq => hne (List.singleton_inj.mp heq)) _ _
  refine ⟨fun k f' hk => ?_, fun k f' hk hl => ?_, hbdf⟩
  · by_cases hne : k = fn
    · subst hne
      obtain rfl := Option.some.inj (hf.symm.trans hk)
      show Same _ ⟨Function.update s.regs [k] g.regs [k], _⟩
      rw [Function.update_self]
      exact ⟨rfl, hs.ids, hs.header⟩
    · show Same _ ⟨Function.update s.regs [fn] g.regs [k], _⟩
      rw [hother k hne]
      exact h.same k f' hk
  · by_cases hne : k = fn
    · subst hne
      obtain rfl := Option.some.inj (hf.symm.trans hk)
      show (secSub (Function.update s.regs [k] g.regs [k])).2 ≤ sub'
      rw [Function.update_self]
      exact hwindow hl
    · show (secSub (Function.update s.regs [fn] g.regs [k])).2 ≤ sub'
      rw [hother k hne]
      exact (h.window k f' hk hl).trans hsub

theorem Inv.configure (root : Nat) (h : Inv t sub s) (hf : t.lookup fn = some f) (hroot : root ≤ 255) (hfn : fn < 8) :
    ∃ s₁, (routed t root).work ⟨root, 0, fn⟩ (pciConfigure ⟨root, 0, fn⟩) s = s₁ ∧ Inv t sub s₁ ∧
      ((routed t root).view s₁).enabled = ((routed t root).view s).enabled ++ [⟨root, 0, fn⟩] := by
  have hb : ((routed t root).view s).conf ⟨root, 0, fn⟩ = some ⟨s.regs [fn], f.mask⟩ := by
    rw [view_conf_root, hf]
    rfl
  have hc := configure_spec hb (h.same fn f hf) h.bdf ⟨hroot, rfl, hfn⟩
  obtain ⟨g, hg, hs, hnum⟩ := hc.self
  refine ⟨_, work_root hf hg, h.update hf hs le_rfl (fun hl => ?_) hc.length_bdf, hc.enabled⟩
  rw [secSub, hnum hl]
  exact h.window fn f hf hl

theorem Inv.updateBridge (root : Nat) {p : Bridge} {sec sub' : Nat} (h : Inv t sub s) (hf : t.lookup fn = some p.toPresent) (hsub : sub ≤ sub')
    (hroot : root ≤ 255) (hsec : sec ≤ 255) (hsub' : sub' ≤ 255) :
    ∃ s₁, (routed t root).work ⟨root, 0, fn⟩ (pciUpdateBridgeBusResource ⟨root, 0, fn⟩ sec sub') s = s₁ ∧ Inv t sub' s₁ ∧
      ((routed t root).view s₁).enabled = ((routed t root).view s).enabled := by
  have hb : ((routed t root).view s).conf ⟨root, 0, fn⟩ = some ⟨s.regs [fn], p.mask⟩ := by
    rw [view_conf_root, hf]
    rfl
  have hs := h.same fn _ hf
  have hnum := toNat_busNumbers hs (pciGetConfReg ((routed t root).view s) ⟨root, 0, fn⟩ 0x4) hroot hsec hsub'
  have henabled := setConfReg_enabled (b := ⟨root, 0, fn⟩) (s := (routed t root).view s) pciBusNumbers
    ((pciGetConfReg ((routed t root).view s) ⟨root, 0, fn⟩ 0x4 &&& 0xFF000000) ||| busReg root sec sub')
  rw [if_neg (by decide), List.append_nil] at henabled
  refine ⟨_, work_root hf (setConfReg_conf_self pciBusNumbers _ hb), h.update hf (hs.write _ _) hsub (fun _ => ?_) h.bdf, henabled⟩
  have hsubordinate : ∀ x, x % 2 ^ 24 = sub' * 2 ^ 16 + sec * 2 ^ 8 + root → x / 2 ^ 16 % 2 ^ 8 ≤ sub' := by omega
  exact hsubordinate _ hnum

end

/-! ## The scan of the first bus -/

section

variable {multi : Bool} {t : Bus multi} {root fuel sub : Nat} {s s₁ : Routed}

/-- What the scan of the functions `t'`, the last ones of the first bus, finds. -/
def Finds (t : Bus multi) {n : Nat} (t' : Funs multi n) (root : Nat) (s : Routed) (r : Option (Nat × Routed)) : Prop :=
  ∃ last s', r = some (last, s') ∧
    ((routed t root).view s').enabled = ((routed t root).view s).enabled ++ t'.top root

/-- The functions that are left are scanned, or the first one says that there are none. -/
theorem Inv.finds_rest {n : Nat} {rest : Funs multi n} {r : Option (Nat × Routed)} (h : Inv t sub s₁) (hn : n ≤ 7)
    (ih : Finds t rest root s₁ r) :
    Finds t rest root s₁ (if pciIsMultiFun ((routed t root).view s₁) root 0 then r else some (sub, s₁)) := by
  by_cases hm : pciIsMultiFun ((routed t root).view s₁) root 0 = true
  · rw [if_pos hm]
    exact ih
  · obtain rfl : multi = false := h.isMultiFun.resolve_left hm
    have hempty : rest.Empty := (rest.visits_eq_nil_iff 0 0).mp (rest.eq_of_single hn 0 0).2.1
    rw [if_neg hm]
    refine ⟨sub, s₁, rfl, ?_⟩
    rw [hempty.top_eq_nil, List.append_nil]

theorem scan_routed (fuel : Nat) {n : Nat} (t' : Funs multi n) (hn : n ≤ 8) (hlookup : ∀ fn, 8 - n ≤ fn → t.lookup fn = t'.lookup fn)
    (h : Inv t sub s) (hroot : root ≤ sub) (hmax : sub + t'.count ≤ 255) :
    Finds t t' root s (scanFunsOn (routed t root) (pciEnumOn (routed t root) (fuel + 1)) root 0 n (8 - n) (sub + 1) sub s) := by
  induction n generalizing sub s with
  | zero =>
    cases t' with
    | nil => exact ⟨sub, s, rfl, (List.append_nil _).symm⟩
  | succ n ih =>
    have hfn : 8 - (n + 1) = 7 - n := by omega
    have hnext : 7 - n + 1 = 8 - n := by omega
    rw [hfn] at hlookup ⊢
    cases t' with
    | absent rest =>
      have hrest : ∀ fn, 8 - n ≤ fn → t.lookup fn = rest.lookup fn := fun fn hle => hlookup fn (by omega)
      have hnone : ((routed t root).view s).conf ⟨root, 0, 7 - n⟩ = none := by
        rw [view_conf_root, hlookup _ le_rfl, show (Funs.absent rest).lookup (7 - n) = none from
          rest.lookup_of_lt (by omega) (by omega)]
        rfl
      rw [scanFunsOn_absent hnone, hnext]
      show Finds t rest root s _
      exact h.finds_rest (Nat.le_of_lt_succ hn) (ih rest (by omega) hrest h hroot hmax)
    | endpoint f hd rest =>
      have hrest : ∀ fn, 8 - n ≤ fn → t.lookup fn = rest.lookup fn := fun fn hle =>
        (hlookup fn (by omega)).trans (if_neg (by omega))
      have hf : t.lookup (7 - n) = some f.toPresent := (hlookup _ le_rfl).trans (if_pos rfl)
      have hconf : ((routed t root).view s).conf ⟨root, 0, 7 - n⟩ = some ⟨s.regs [7 - n], f.mask⟩ := by
        rw [view_conf_root, hf]
        rfl
      obtain ⟨s₁, hs₁, h₁, henabled⟩ := h.configure root hf (by omega) (by omega)
      rw [scanFunsOn_endpoint hconf (h.same _ _ hf) f.layout_ne hs₁, hnext]
      obtain ⟨last, s', hscan, hfinds⟩ := h₁.finds_rest (Nat.le_of_lt_succ hn) (ih rest (by omega) hrest h₁ hroot hmax)
      refine ⟨last, s', hscan, ?_⟩
      rw [hfinds, henabled, List.append_assoc]
      rfl
    | bridge f hd below rest =>
      have hrest : ∀ fn, 8 - n ≤ fn → t.lookup fn = rest.lookup fn := fun fn hle =>
        (hlookup fn (by omega)).trans (if_neg (by omega))
      have hf : t.lookup (7 - n) = some f.toPresent := (hlookup _ le_rfl).trans (if_pos rfl)
      have hconf : ((routed t root).view s).conf ⟨root, 0, 7 - n⟩ = some ⟨s.regs [7 - n], f.mask⟩ := by
        rw [view_conf_root, hf]
        rfl
      rw [Funs.count] at hmax
      -- Nothing answers on the bus behind the bridge, whose interval has not been written yet.
      have hsilent := enum_silent (h.silent hroot (Nat.lt_succ_self sub)) fuel
      obtain ⟨s₁, hs₁, h₁, henabled₁⟩ := h.updateBridge root hf (Nat.le_succ sub) (by omega)
        (show sub + 1 ≤ 255 by omega) (by omega)
      obtain ⟨s₂, hs₂, h₂, henabled₂⟩ := h₁.configure root hf (by omega) (by omega)
      rw [scanFunsOn_bridge hconf (h.same _ _ hf) f.layout_eq hsilent (by rw [hs₁, hs₂]), hnext]
      obtain ⟨last, s', hscan, hfinds⟩ := h₂.finds_rest (Nat.le_of_lt_succ hn) (ih rest (by omega) hrest h₂ (by omega) (by omega))
      refine ⟨last, s', hscan, ?_⟩
      rw [hfinds, henabled₂, henabled₁, List.append_assoc]
      rfl

/-- The scan finds the functions of the first bus. -/
theorem enum_routed (t : Bus multi) (root fuel : Nat) (s : Routed) (hfresh : Fresh t s) (hmax : root + t.count ≤ 255) :
    ∃ last s', pciEnumOn (routed t root) (fuel + 2) root s = some (last, s') ∧
      ((routed t root).view s').enabled = t.top root := by
  have hinv : Inv t root s := by
    refine ⟨fun fn f hf => ?_, fun fn f hf hl => ?_, by rw [hfresh.bdf]; decide⟩
    · rw [hfresh.regs fn f hf]
      exact Same.refl f.toSpace
    · rw [hfresh.window fn f hf hl]
      exact Nat.zero_le root
  obtain ⟨last, s', hscan, hfinds⟩ := scan_routed fuel t le_rfl (fun fn _ => rfl) hinv le_rfl hmax
  refine ⟨last, s', hscan, hfinds.trans ?_⟩
  show ((s.cycles.filter _).map _) ++ _ = _
  rw [hfresh.cycles]
  rfl

end

/-- A bridge after a reset. -/
def resetBridge : Bridge where
  regs reg := if reg = 0xC then 0x00810000 else if reg = pciBusNumbers then 0 else 0x00011234
  mask reg := if reg = pciBusNumbers then 0x00FFFFFF else 0
  ids_ne := by decide
  ids_mask := by decide
  header_mask := by decide
  layout_eq := by decide
  busNumbers_mask := by decide

/-- A bus with this bridge. -/
def bridgeBus {multi : Bool} (below : Bus multi) : Bus true :=
  .bridge resetBridge (by decide) below (.absent (.absent (.absent (.absent (.absent (.absent (.absent .nil)))))))

/-- The bridge, and endpoints everywhere else. -/
def resetState : Routed := ⟨fun path => if path = [0] then resetBridge.regs else plainEndpoint.regs, [], []⟩

theorem fresh_resetState {multi : Bool} (below : Bus multi) : Fresh (bridgeBus below) resetState := by
  have hlookup (fn : Nat) (f : Present) (hf : (bridgeBus below).lookup fn = some f) : fn = 0 ∧ f = resetBridge.toPresent := by
    have hite : (if fn = 0 then some resetBridge.toPresent else none) = some f := hf
    obtain ⟨rfl, heq⟩ := Option.ite_none_right_eq_some.mp hite
    exact ⟨rfl, (Option.some.inj heq).symm⟩
  refine ⟨fun fn f hf => ?_, fun fn f hf _ => ?_, rfl, rfl⟩
  · obtain ⟨rfl, rfl⟩ := hlookup fn f hf
    rfl
  · obtain ⟨rfl, rfl⟩ := hlookup fn f hf
    rfl

end Sdfirm.Pci
