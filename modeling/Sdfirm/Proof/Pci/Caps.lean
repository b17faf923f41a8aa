import Sdfirm.Proof.Pci.Conf

/-!
# Searches for capabilities

The two searches and the two lists are walks along a chain of pointers, whatever
the chain: `findLoop` and `listLoop` are the loops for any way to read a capability
from a pointer. `findLoop_firstPos` and `listLoop_iff` say what they return, by
induction on the repetitions that are left, of which the first takes the walk to
the rest of the chain (`nthCap_succ`).
-/

namespace Sdfirm.Pci

variable {s : PciState} {b : Bdf} {capOf : Nat → Option Cap} {ptr ttl cap max : Nat} {c : Cap}

/-! ## Walks along a chain -/

/-- The search for `cap`. -/
def findLoop (capOf : Nat → Option Cap) (cap : Nat) : (ttl ptr : Nat) → Nat
  | 0, _ => 0
  | ttl + 1, ptr =>
    match capOf ptr with
    | none => 0
    | some c => if c.id = cap then c.pos else findLoop capOf cap ttl c.next

/-- The list of names. -/
def listLoop (capOf : Nat → Option Cap) (max : Nat) : (ttl ptr : Nat) → Option (List (Nat × Nat))
  | 0, _ => some []
  | ttl + 1, ptr =>
    match capOf ptr with
    | none => some []
    | some c => do
      let name ← capListIndex max c.id
      return (name, c.pos) :: (← listLoop capOf max ttl c.next)

theorem nthCap_none (h : capOf ptr = none) (k : Nat) : nthCap capOf ptr k = none := by
  induction k with
  | zero => exact h
  | succ k ih => rw [nthCap, ih, Option.bind_none]

theorem nthCap_succ (h : capOf ptr = some c) (k : Nat) : nthCap capOf ptr (k + 1) = nthCap capOf c.next k := by
  induction k with
  | zero =>
    show (capOf ptr).bind _ = capOf c.next
    rw [h, Option.bind_some]
  | succ k ih => rw [nthCap, ih, nthCap]

theorem findLoop_firstPos (capOf : Nat → Option Cap) (cap ttl ptr : Nat) :
    FirstPos capOf ptr ttl cap (findLoop capOf cap ttl ptr) := by
  induction ttl generalizing ptr with
  | zero => exact .inr ⟨rfl, fun k hk => absurd hk (Nat.not_lt_zero k)⟩
  | succ ttl ih =>
    rw [findLoop]
    cases h : capOf ptr with
    | none =>
      refine .inr ⟨rfl, fun k _ c hc => ?_⟩
      rw [nthCap_none h] at hc
      exact absurd hc nofun
    | some c =>
      show FirstPos capOf ptr (ttl + 1) cap (if c.id = cap then c.pos else _)
      by_cases hid : c.id = cap
      · rw [if_pos hid]
        exact .inl ⟨0, Nat.succ_pos ttl, c, h, hid, rfl, fun j hj => absurd hj (Nat.not_lt_zero j)⟩
      · rw [if_neg hid]
        -- The first capability is not the wanted one, so the first of the rest is the first of all.
        have hother : ∀ j, ∀ c', nthCap capOf ptr j = some c' → c'.id = cap →
            ∃ i, j = i + 1 ∧ nthCap capOf c.next i = some c' := by
          intro j c' hc' hcap
          cases j with
          | zero =>
            obtain rfl := Option.some.inj (h.symm.trans hc')
            exact absurd hcap hid
          | succ i => exact ⟨i, rfl, (nthCap_succ h i).symm.trans hc'⟩
        obtain ⟨k, hk, c', hc', hcap, hpos, hfirst⟩ | ⟨hpos, hnone⟩ := ih c.next
        · refine .inl ⟨k + 1, Nat.succ_lt_succ hk, c', (nthCap_succ h k).trans hc', hcap, hpos, fun j hj d hd hdcap => ?_⟩
          obtain ⟨i, rfl, hi⟩ := hother j d hd hdcap
          exact hfirst i (by omega) d hi hdcap
        · refine .inr ⟨hpos, fun j hj d hd hdcap => ?_⟩
          obtain ⟨i, rfl, hi⟩ := hother j d hd hdcap
          exact hnone i (by omega) d hi hdcap

theorem capListIndex_eq_some {id name : Nat} : capListIndex max id = some name ↔ (1 ≤ id ∧ id ≤ max) ∧ name = id - 1 := by
  rw [capListIndex]
  split
  · rw [Option.some.injEq]
    omega
  · simp only [reduceCtorEq, false_iff]
    omega

theorem named_succ_iff (h : capOf ptr = some c) :
    Named capOf ptr (ttl + 1) max ↔ (1 ≤ c.id ∧ c.id ≤ max) ∧ Named capOf c.next ttl max := by
  constructor
  · intro hn
    refine ⟨hn 0 (Nat.succ_pos ttl) c h, fun k hk d hd => hn (k + 1) (Nat.succ_lt_succ hk) d ?_⟩
    rw [nthCap_succ h, hd]
  · rintro ⟨hfirst, hrest⟩ k hk d hd
    cases k with
    | zero =>
      obtain rfl := Option.some.inj (h.symm.trans hd)
      exact hfirst
    | succ k => exact hrest k (Nat.lt_of_succ_lt_succ hk) d ((nthCap_succ h k).symm.trans hd)

theorem lists_cons_iff (h : capOf ptr = some c) {x : Nat × Nat} {l : List (Nat × Nat)} :
    Lists capOf ptr (ttl + 1) (x :: l) ↔ x = (c.id - 1, c.pos) ∧ Lists capOf c.next ttl l := by
  constructor
  · intro hl
    constructor
    · have hzero := hl 0
      rw [if_pos (Nat.succ_pos ttl), nthCap, h] at hzero
      exact Option.some.inj hzero
    · intro k
      have hk := hl (k + 1)
      rw [nthCap_succ h, List.getElem?_cons_succ] at hk
      simpa only [Nat.add_lt_add_iff_right] using hk
  · rintro ⟨rfl, hl⟩ k
    cases k with
    | zero => rw [if_pos (Nat.succ_pos ttl), nthCap, h]; rfl
    | succ k =>
      rw [List.getElem?_cons_succ, hl k, nthCap_succ h]
      simp only [Nat.add_lt_add_iff_right]

/-- The list has the capabilities of the chain if each of them has a name. -/
theorem listLoop_iff (capOf : Nat → Option Cap) (max ttl ptr : Nat) :
    (∃ l, listLoop capOf max ttl ptr = some l ∧ Lists capOf ptr ttl l) ↔ Named capOf ptr ttl max := by
  induction ttl generalizing ptr with
  | zero =>
    refine iff_of_true ⟨[], rfl, fun k => ?_⟩ fun k hk => absurd hk (Nat.not_lt_zero k)
    rw [if_neg (Nat.not_lt_zero k)]
    rfl
  | succ ttl ih =>
    cases h : capOf ptr with
    | none =>
      refine iff_of_true ⟨[], by rw [listLoop, h], fun k => ?_⟩ fun k _ c hc => ?_
      · rw [nthCap_none h]
        simp
      · rw [nthCap_none h] at hc
        exact absurd hc nofun
    | some c =>
      rw [named_succ_iff h, ← ih, listLoop, h]
      simp only [Option.bind_eq_bind, Option.pure_def, Option.bind_eq_some_iff, capListIndex_eq_some, Option.some.injEq]
      constructor
      · rintro ⟨l, ⟨name, ⟨hid, rfl⟩, l', hl', rfl⟩, hlists⟩
        exact ⟨hid, l', hl', ((lists_cons_iff h).mp hlists).2⟩
      · rintro ⟨hid, l', hl', hlists⟩
        exact ⟨_, ⟨_, ⟨hid, rfl⟩, l', hl', rfl⟩, (lists_cons_iff h).mpr ⟨rfl, hlists⟩⟩

/-! ## Capabilities of the first 256 bytes -/

theorem getConfRegWord_dwordReg (ptr : Nat) :
    (pciGetConfRegWord s b (dwordReg ptr)).toNat = (pciGetConfReg s b (ptr / 4 * 4)).toNat % 2 ^ 16 := by
  rw [pciGetConfRegWord, show dwordReg (dwordReg ptr) = ptr / 4 * 4 by rw [dwordReg, dwordReg]; omega,
    show dwordReg ptr % 4 / 2 * 2 = 0 by rw [dwordReg]; omega, Nat.mul_zero, BitVec.ushiftRight_zero, BitVec.toNat_setWidth]

/-- A pointer that the loops follow, and what they read there. -/
theorem capAt_eq (hptr : ¬ptr < 0x40) {ent : Nat} (hent : (pciGetConfRegWord s b (dwordReg ptr)).toNat = ent) :
    capAt s b ptr = if ent % 2 ^ 8 = 0xFF then none else some ⟨dwordReg ptr, ent % 2 ^ 8, ent >>> 8⟩ := by
  rw [getConfRegWord_dwordReg] at hent
  have hid : (pciGetConfReg s b (ptr / 4 * 4)).toNat % 2 ^ 8 = ent % 2 ^ 8 := by omega
  have hnext : (pciGetConfReg s b (ptr / 4 * 4)).toNat / 2 ^ 8 % 2 ^ 8 = ent >>> 8 := by
    rw [Nat.shiftRight_eq_div_pow]
    omega
  simp only [capAt, hid, hnext, not_lt.mp hptr, true_and, ne_eq, ite_not]
  rfl

theorem capAt_of_lt (hptr : ptr < 0x40) : capAt s b ptr = none := if_neg fun h => absurd hptr (not_lt.mpr h.1)

theorem findCapability_eq (cap ttl ptr : Nat) : findCapability s b cap ttl ptr = findLoop (capAt s b) cap ttl ptr := by
  induction ttl generalizing ptr with
  | zero => rfl
  | succ ttl ih =>
    rw [findCapability, findLoop]
    by_cases hptr : ptr < 0x40
    · rw [if_pos hptr, capAt_of_lt hptr]
    · rw [if_neg hptr, capAt_eq hptr rfl]
      by_cases hid : (pciGetConfRegWord s b (dwordReg ptr)).toNat % 2 ^ 8 = 0xFF
      · simp only [if_pos hid]
      · simp only [if_neg hid, ih]

theorem findCapabilityList_eq (ttl ptr : Nat) : findCapabilityList s b ttl ptr = listLoop (capAt s b) 20 ttl ptr := by
  induction ttl generalizing ptr with
  | zero => rfl
  | succ ttl ih =>
    rw [findCapabilityList, listLoop]
    by_cases hptr : ptr < 0x40
    · rw [if_pos hptr, capAt_of_lt hptr]
    · rw [if_neg hptr, capAt_eq hptr rfl]
      by_cases hid : (pciGetConfRegWord s b (dwordReg ptr)).toNat % 2 ^ 8 = 0xFF
      · simp only [if_pos hid]
      · simp only [if_neg hid, ih]

/-! ## Extended capabilities -/

theorem extCapAt_of_lt (hptr : ptr < 0x100) : extCapAt s b ptr = none := if_neg fun h => absurd hptr (not_lt.mpr h.1)

theorem extCapAt_of_zero (h : pciGetConfReg s b ptr = 0) : extCapAt s b ptr = none := if_neg fun hc => hc.2 h

theorem extCapAt_of_ne (hptr : ¬ptr < 0x100) (h : pciGetConfReg s b ptr ≠ 0) :
    extCapAt s b ptr = some ⟨ptr, pciExtCapId (pciGetConfReg s b ptr), pciExtCapNext (pciGetConfReg s b ptr)⟩ :=
  if_pos ⟨not_lt.mp hptr, h⟩

theorem findLoop_of_none (h : capOf ptr = none) : findLoop capOf cap ttl ptr = 0 := by
  cases ttl with
  | zero => rfl
  | succ ttl => rw [findLoop, h]

theorem listLoop_of_none (h : capOf ptr = none) : listLoop capOf max ttl ptr = some [] := by
  cases ttl with
  | zero => rfl
  | succ ttl => rw [listLoop, h]

theorem findExtCapabilityList_eq (ttl : Nat) (hptr : ¬ptr < 0x100) :
    findExtCapabilityList s b ttl ptr = listLoop (extCapAt s b) 46 ttl ptr := by
  induction ttl generalizing ptr with
  | zero => rfl
  | succ ttl ih =>
    rw [findExtCapabilityList, listLoop]
    by_cases hz : pciGetConfReg s b ptr = 0
    · rw [extCapAt_of_zero hz]
      exact if_pos hz
    · rw [extCapAt_of_ne hptr hz]
      by_cases hnext : pciExtCapNext (pciGetConfReg s b ptr) < 0x100
      · simp only [if_neg hz, if_pos hnext, listLoop_of_none (extCapAt_of_lt hnext)]
      · simp only [if_neg hz, if_neg hnext, ih hnext]

/-- A header that is 0 is not the end of the chain for the search, but it has the identifier 0 and no next capability. -/
theorem findExtCapability_of_zero (hcap : cap ≠ 0) : findExtCapability s b cap ttl ptr 0 = 0 := by
  cases ttl with
  | zero => rfl
  | succ ttl =>
    rw [findExtCapability, if_neg fun h => hcap h.symm]
    rfl

/-- The search along the chain from a header that is not 0. -/
theorem findExtCapability_eq (ttl : Nat) (hptr : ¬ptr < 0x100) (hz : pciGetConfReg s b ptr ≠ 0)
    (hend : cap = 0 → ∀ k, k + 1 < ttl → ∀ c, nthCap (extCapAt s b) ptr k = some c → 0x100 ≤ c.next →
      pciGetConfReg s b c.next ≠ 0) :
    findExtCapability s b cap ttl ptr (pciGetConfReg s b ptr) = findLoop (extCapAt s b) cap ttl ptr := by
  induction ttl generalizing ptr with
  | zero => rfl
  | succ ttl ih =>
    have hfirst := extCapAt_of_ne hptr hz
    rw [findExtCapability, findLoop, hfirst]
    show _ = if pciExtCapId (pciGetConfReg s b ptr) = cap then ptr else _
    by_cases hid : pciExtCapId (pciGetConfReg s b ptr) = cap
    · rw [if_pos hid, if_pos hid]
    rw [if_neg hid, if_neg hid]
    by_cases hnext : pciExtCapNext (pciGetConfReg s b ptr) < 0x100
    · rw [findLoop_of_none (extCapAt_of_lt hnext)]
      exact if_pos hnext
    · refine (if_neg hnext).trans ?_
      by_cases hz' : pciGetConfReg s b (pciExtCapNext (pciGetConfReg s b ptr)) = 0
      · rw [findLoop_of_none (extCapAt_of_zero hz'), hz']
        by_cases hcap : cap = 0
        · -- The limit is reached before the header that is 0.
          cases ttl with
          | zero => rfl
          | succ ttl => exact absurd hz' (hend hcap 0 (by omega) _ hfirst (not_lt.mp hnext))
        · exact findExtCapability_of_zero hcap
      · refine ih hnext hz' fun hcap k hk c hc => hend hcap (k + 1) (Nat.succ_lt_succ hk) c ?_
        rw [nthCap_succ hfirst, hc]

/-- A search for the identifier 0 that comes to a header that is 0 returns its position. -/
theorem findExtCapability_zero (hptr : ¬ptr < 0x100) (hz : pciGetConfReg s b ptr ≠ 0)
    (hnamed : Named (extCapAt s b) ptr ttl max) {k : Nat} (hk : k + 1 < ttl) (hc : nthCap (extCapAt s b) ptr k = some c)
    (hnext : 0x100 ≤ c.next) (hend : pciGetConfReg s b c.next = 0) :
    findExtCapability s b 0 ttl ptr (pciGetConfReg s b ptr) = c.next := by
  induction k generalizing ptr ttl with
  | zero =>
    obtain ⟨ttl, rfl⟩ : ∃ n, ttl = n + 2 := ⟨ttl - 2, by omega⟩
    have hfirst := extCapAt_of_ne hptr hz
    obtain rfl := Option.some.inj (hfirst.symm.trans hc)
    have hid : 1 ≤ pciExtCapId (pciGetConfReg s b ptr) := (hnamed 0 (by omega) _ hfirst).1
    rw [findExtCapability, if_neg (Nat.pos_iff_ne_zero.mp hid)]
    refine (if_neg (not_lt.mpr hnext)).trans ?_
    rw [hend]
    rfl
  | succ k ih =>
    obtain ⟨ttl, rfl⟩ : ∃ n, ttl = n + 1 := ⟨ttl - 1, by omega⟩
    have hfirst := extCapAt_of_ne hptr hz
    obtain ⟨hid, hrest⟩ := (named_succ_iff hfirst).mp hnamed
    rw [nthCap_succ hfirst] at hc
    -- The chain goes on after its first capability.
    obtain ⟨c', hc'⟩ : ∃ c', extCapAt s b (pciExtCapNext (pciGetConfReg s b ptr)) = some c' := by
      refine Option.ne_none_iff_exists'.mp fun hnone => ?_
      rw [nthCap_none hnone] at hc
      exact absurd hc nofun
    obtain ⟨hptr', hz'⟩ : 0x100 ≤ pciExtCapNext (pciGetConfReg s b ptr) ∧ _ := (Option.ite_none_right_eq_some.mp hc').1
    have hpos : 1 ≤ pciExtCapId (pciGetConfReg s b ptr) := hid.1
    rw [findExtCapability, if_neg (Nat.pos_iff_ne_zero.mp hpos)]
    refine (if_neg (not_lt.mpr hptr')).trans ?_
    exact ih (not_lt.mpr hptr') hz' hrest (by omega) hc

/-! ## The two searches and the two lists -/

theorem pciFindExtCapability_firstPos (hend : cap = 0 → ¬EndsInZero s b 480) :
    FirstPos (extCapAt s b) 0x100 480 cap (pciFindExtCapability s b cap) := by
  have heq : pciFindExtCapability s b cap = findLoop (extCapAt s b) cap 480 0x100 := by
    rw [pciFindExtCapability]
    by_cases hz : pciGetConfReg s b 0x100 = 0
    · rw [findLoop_of_none (extCapAt_of_zero hz)]
      exact if_pos hz
    · refine (if_neg hz).trans (findExtCapability_eq 480 (by decide) hz fun hcap k hk c hc hnext hzero => ?_)
      exact hend hcap ⟨k, hk, c, hc, hnext, hzero⟩
  rw [heq]
  exact findLoop_firstPos (extCapAt s b) cap 480 0x100

theorem not_firstPos_zero (hnamed : Named (extCapAt s b) 0x100 480 max) (hend : EndsInZero s b 480) :
    ¬FirstPos (extCapAt s b) 0x100 480 0 (pciFindExtCapability s b 0) := by
  obtain ⟨k, hk, c, hc, hnext, hzero⟩ := hend
  have hz : pciGetConfReg s b 0x100 ≠ 0 := by
    intro hz
    rw [nthCap_none (extCapAt_of_zero hz)] at hc
    exact absurd hc nofun
  have hfound : pciFindExtCapability s b 0 = c.next :=
    (if_neg hz).trans (findExtCapability_zero (by decide) hz hnamed hk hc hnext hzero)
  rw [hfound]
  rintro (⟨j, hj, d, hd, hid, -⟩ | ⟨hpos, -⟩)
  · exact absurd (hnamed j hj d hd).1 (by omega)
  · omega

/-- The searches return the first position and the lists are complete and within the names if each capability of the two
chains has a name and the identifier 0 is not searched in a chain that ends in a header that is 0. -/
theorem capability_walks_iff (s : PciState) (b : Bdf) (cap : Nat) :
    (FirstPos (capAt s b) (pciGetConfRegByte s b 0x34).toNat 48 cap (pciFindCapability s b cap) ∧
      FirstPos (extCapAt s b) 0x100 480 cap (pciFindExtCapability s b cap) ∧
      (∃ l, pciFindCapabilityList s b = some l ∧ Lists (capAt s b) (pciGetConfRegByte s b 0x34).toNat 48 l) ∧
      ∃ l, pciFindExtCapabilityList s b = some l ∧ Lists (extCapAt s b) 0x100 480 l) ↔
    Named (capAt s b) (pciGetConfRegByte s b 0x34).toNat 48 20 ∧ Named (extCapAt s b) 0x100 480 46 ∧
      (cap = 0 → ¬EndsInZero s b 480) := by
  have hfind : FirstPos (capAt s b) (pciGetConfRegByte s b 0x34).toNat 48 cap (pciFindCapability s b cap) := by
    rw [pciFindCapability, findCapability_eq]
    exact findLoop_firstPos (capAt s b) cap 48 _
  rw [show pciFindCapabilityList s b = _ from findCapabilityList_eq 48 _, listLoop_iff,
    show pciFindExtCapabilityList s b = _ from findExtCapabilityList_eq 480 (by decide), listLoop_iff]
  constructor
  · rintro ⟨-, hext, hnamed, hnamedExt⟩
    refine ⟨hnamed, hnamedExt, fun hcap hend => ?_⟩
    subst hcap
    exact not_firstPos_zero hnamedExt hend hext
  · rintro ⟨hnamed, hnamedExt, hend⟩
    exact ⟨hfind, pciFindExtCapability_firstPos hend, hnamed, hnamedExt⟩

/-- A device with one capability, which a misaligned pointer leads to, and no extended one. -/
def oneCap : PciState := plain fun reg => if reg = 0x34 then 0x43 else if reg = 0x40 then 1 else 0

theorem capability_walks_one :
    pciFindCapability oneCap ⟨1, 0, 0⟩ 1 = 0x40 ∧
    ∃ l, pciFindCapabilityList oneCap ⟨1, 0, 0⟩ = some l ∧ Lists (capAt oneCap ⟨1, 0, 0⟩) 0x43 48 l := by
  refine ⟨by decide, ((capability_walks_iff oneCap ⟨1, 0, 0⟩ 1).mpr ⟨?_, ?_, nofun⟩).2.2.1⟩
  · have hfirst : capAt oneCap ⟨1, 0, 0⟩ 0x43 = some ⟨0x40, 1, 0⟩ := by rfl
    refine (named_succ_iff hfirst).mpr ⟨by decide, fun k _ c hc => ?_⟩
    rw [nthCap_none (capAt_of_lt (by decide))] at hc
    exact absurd hc nofun
  · intro k _ c hc
    rw [nthCap_none (extCapAt_of_zero rfl)] at hc
    exact absurd hc nofun

/-- A device with the capability 0x15, whose name would be the entry after the last, and with one extended capability
that is followed by a header that is 0. -/
def unnamed : PciState :=
  plain fun reg => if reg = 0x34 then 0x40 else if reg = 0x40 then 0x15 else if reg = 0x100 then 0x11010001 else 0

/-- The index of the name is out of bounds, and the header that is 0 is found as a capability. -/
theorem capability_walks_out_of_bounds :
    capListIndex 20 0x15 = none ∧ pciFindCapability unnamed ⟨1, 0, 0⟩ 0x15 = 0x40 ∧
    pciFindCapabilityList unnamed ⟨1, 0, 0⟩ = none ∧ pciFindExtCapability unnamed ⟨1, 0, 0⟩ 0 = 0x110 ∧
    pciFindExtCapabilityList unnamed ⟨1, 0, 0⟩ = some [(0, 0x100)] := by
  decide

end Sdfirm.Pci
