import Sdfirm.Proof.Mem.Isolate
import Sdfirm.Proof.Mem.Add

/-!
# `mem_remove_range`

`removeLoop_spec`: the entries the isolation marked are the ones taken out.
`memRemoveRange_spec`: on a well-formed array with two free slots
`mem_remove_range` succeeds, keeps the array well formed and takes the range
out of the set it covers.
-/

namespace Sdfirm.Mem

open Framework

/-- What is left of an array: the dummy entry when nothing is. -/
def orDummy : List MemRegion → List MemRegion
  | [] => [⟨0, 0⟩]
  | r :: rs => r :: rs

theorem orDummy_of_ne_nil {rs : List MemRegion} (h : rs ≠ []) : orDummy rs = rs := by
  cases rs with
  | nil => exact absurd rfl h
  | cons r rs => rfl

theorem cover_orDummy (rs : List MemRegion) :
    Range.cover (ranges (orDummy rs)) = Range.cover (ranges rs) := by
  cases rs with
  | nil => simp [orDummy]
  | cons r rs => rfl

theorem sum_orDummy (rs : List MemRegion) :
    ((orDummy rs).map MemRegion.size).sum = (rs.map MemRegion.size).sum := by
  cases rs with
  | nil => rfl
  | cons r rs => rfl

theorem wf_orDummy {rs : List MemRegion} (h : Canonical rs) :
    orDummy rs = [⟨0, 0⟩] ∨ orDummy rs ≠ [] ∧ Canonical (orDummy rs) := by
  cases rs with
  | nil => exact .inl rfl
  | cons r rs => exact .inr ⟨by simp [orDummy], h⟩

theorem memRemoveRegion_spec {t : MemType} (pre suf : List MemRegion) (r : MemRegion)
    (h : t.regions = pre ++ r :: suf) (ht : t.totalSize = (t.regions.map MemRegion.size).sum) :
    memRemoveRegion t pre.length =
      some ⟨orDummy (pre ++ suf), t.max, ((pre ++ suf).map MemRegion.size).sum⟩ := by
  have hsum : t.totalSize - r.size = ((pre ++ suf).map MemRegion.size).sum := by
    rw [ht, h]
    simp only [List.map_append, List.map_cons, List.sum_append, List.sum_cons]
    omega
  rw [memRemoveRegion, h, getElem?_append_cons]
  simp only [eraseIdx_append_cons, hsum]
  cases hps : pre ++ suf with
  | nil => simp [orDummy]
  | cons a as => simp [orDummy]

theorem removeLoop_spec (lows rest : List MemRegion) :
    ∀ (mids : List MemRegion) (t : MemType), mids ≠ [] → t.regions = lows ++ mids ++ rest →
      t.totalSize = (t.regions.map MemRegion.size).sum →
      removeLoop lows.length mids.length t =
        some ⟨orDummy (lows ++ rest), t.max, ((lows ++ rest).map MemRegion.size).sum⟩ := by
  intro mids
  induction mids using List.reverseRecOn with
  | nil => intro t h; exact absurd rfl h
  | append_singleton mids r ih =>
    intro t _ h ht
    have hlen : lows.length + mids.length = (lows ++ mids).length := by simp
    have hstep := memRemoveRegion_spec (t := t) (lows ++ mids) rest r (by simp [h]) ht
    rw [List.length_append, List.length_singleton, removeLoop, hlen, hstep, Option.bind_some]
    by_cases hm : mids = []
    · subst hm
      simp [removeLoop]
    · have hne : lows ++ mids ++ rest ≠ [] := by simp [hm]
      rw [ih ⟨orDummy _, t.max, _⟩ hm (orDummy_of_ne_nil hne) (by rw [sum_orDummy])]

/-- The isolation of a range that starts from a canonical array. -/
theorem memIsolateRange_spec {t : MemType} (base : Nat) {size : Nat} (hc : Canonical t.regions)
    (ht : t.totalSize = (t.regions.map MemRegion.size).sum) (hs : 0 < size)
    (hmax : t.regions.length + 2 ≤ t.max) :
    ∃ s lows mids rest, memIsolateRange t base size = some s ∧
      IsolateInv t base (base + size) s lows mids rest ∧ (∀ q ∈ rest, base + size ≤ q.base) ∧
      s.type.regions.length ≤ t.max + 1 := by
  have hinv : IsolateInv t base (base + size) ⟨t, 0, 0⟩ [] [] t.regions :=
    ⟨by simp, by simp, canonical_nil, hc, by simp, by simp, by simp, rfl, ht, rfl⟩
  have hfuel : isolateFuel base (base + size) t.regions ≤ t.regions.length + 4 := by
    unfold isolateFuel
    split_ifs <;> omega
  obtain ⟨s, lows, mids, rest, h1, h2, h3, h4⟩ :=
    isolateLoop_spec (by omega) (t.regions.length + 4) _ _ _ _ hinv hfuel
  simp only [List.append_nil, List.length_nil] at h4
  refine ⟨s, lows, mids, rest, ?_, h2, h3, by omega⟩
  rw [memIsolateRange, if_neg (by omega), if_neg (by omega)]
  simpa using h1

/-- `lows` and what lies above the range are separated by the range. -/
theorem IsolateInv.outer_canonical {old : MemType} {base end_ : Nat} {s : Isolated}
    {lows mids rest : List MemRegion} (h : IsolateInv old base end_ s lows mids rest)
    (hbe : base < end_) (hr : ∀ q ∈ rest, end_ ≤ q.base) : Canonical (lows ++ rest) := by
  refine canonical_append.2 ⟨h.lows_canonical, h.rest_canonical, fun a ha q hq => ?_⟩
  have := h.below a ha
  have := hr q hq
  omega

/-- The dummy entry lies below every range. -/
theorem memIsolateRange_dummy {t : MemType} {base size : Nat} (h : t.regions = [⟨0, 0⟩])
    (hmax : size = 0 ∨ t.regions.length + 2 ≤ t.max) :
    memIsolateRange t base size = some ⟨t, 0, 0⟩ := by
  unfold memIsolateRange
  split_ifs with h1 h2
  · rfl
  · omega
  · have h3 : ¬ base + size ≤ 0 := by omega
    simp [h, isolateLoop, h1]

theorem Canonical.cover_ne_empty {rs : List MemRegion} (h : Canonical rs) (hne : rs ≠ []) :
    Range.cover (ranges rs) ≠ ∅ := by
  obtain ⟨r, rs, rfl⟩ := List.exists_cons_of_ne_nil hne
  have hr := (canonical_cons.1 h).2.1
  refine Set.nonempty_iff_ne_empty.1 ⟨r.base, Range.mem_cover.2 ⟨r.range, by simp, le_rfl, ?_⟩⟩
  simpa using hr

theorem length_orDummy (rs : List MemRegion) : (orDummy rs).length ≤ rs.length + 1 := by
  cases rs with
  | nil => exact le_rfl
  | cons r rs => exact Nat.le_succ _

/-- A range is removed when there are slots for the cuts. -/
theorem memRemoveRange_cut {t : MemType} (base : Nat) {size : Nat} (hwf : t.WF) (hd : t.regions ≠ [⟨0, 0⟩])
    (hpos : 0 < size) (hs : t.regions.length + 2 ≤ t.max) :
    ∃ t', memRemoveRange t base size = some t' ∧ t'.WF ∧
      t'.cover = t.cover \ Set.Ico base (base + size) ∧ t'.max = t.max ∧ t'.regions.length ≤ t.max + 1 := by
  obtain ⟨hne, hc⟩ := hwf.regions.resolve_left hd
  obtain ⟨s, lows, mids, rest, h1, h2, h3, h4⟩ := memIsolateRange_spec base hc hwf.total hpos hs
  have hout := h2.outer_canonical (by omega) h3
  have hcov : Range.cover (ranges (lows ++ rest)) = t.cover \ Set.Ico base (base + size) := by
    rw [← h2.cover, MemType.cover, h2.regions]
    simp only [ranges_append]
    exact Range.cover_outside (by simpa using h2.below) (by simpa using h2.within) (by simpa using h3)
  rw [memRemoveRange, h1, Option.bind_some]
  rcases h2.marks with ⟨rfl, hs0, he0⟩ | ⟨hm, hs0, he0⟩
  · have hreg : s.type.regions = lows ++ rest := by simpa using h2.regions
    refine ⟨s.type, by simp [hs0, he0, removeLoop], ⟨?_, h2.total⟩, ?_, h2.max, h4⟩
    · refine .inr ⟨fun hnil => hc.cover_ne_empty hne ?_, hreg ▸ hout⟩
      have hcov' := h2.cover
      simp only [MemType.cover, hnil, ranges_nil, Range.cover_nil] at hcov'
      exact hcov'.symm
    · rw [MemType.cover, hreg, hcov]
  · rw [hs0, he0, Nat.add_sub_cancel_left, removeLoop_spec lows rest mids s.type hm h2.regions h2.total]
    refine ⟨_, rfl, ⟨wf_orDummy hout, ?_⟩, ?_, h2.max, ?_⟩
    · simp only [sum_orDummy]
    · rw [MemType.cover, cover_orDummy, hcov]
    · have hmids := List.length_pos_iff.2 hm
      have := length_orDummy (lows ++ rest)
      rw [h2.regions] at h4
      simp only [List.length_append] at h4 this ⊢
      omega

theorem memRemoveRange_dummy {t : MemType} {base size : Nat} (hd : t.regions = [⟨0, 0⟩]) (hs : IsolateSlots t size) :
    memRemoveRange t base size = some t := by
  simp [memRemoveRange, memIsolateRange_dummy hd hs, removeLoop]

theorem memRemoveRange_spec {t : MemType} (base : Nat) {size : Nat} (hwf : t.WF)
    (hs : IsolateSlots t size) :
    ∃ t', memRemoveRange t base size = some t' ∧ t'.WF ∧
      t'.cover = t.cover \ Set.Ico base (base + size) ∧ t'.max = t.max ∧
      (t'.regions.length ≤ t.regions.length ∨ t'.regions.length ≤ t.max + 1) := by
  rcases Nat.eq_zero_or_pos size with rfl | hpos
  · refine ⟨t, ?_, hwf, by simp, rfl, .inl le_rfl⟩
    simp [memRemoveRange, memIsolateRange, removeLoop]
  by_cases hd : t.regions = [⟨0, 0⟩]
  · refine ⟨t, memRemoveRange_dummy hd hs, hwf, ?_, rfl, .inl le_rfl⟩
    simp [MemType.cover, hd, MemRegion.range]
  · obtain ⟨t', h1, h2, h3, h4, h5⟩ := memRemoveRange_cut base hwf hd hpos (hs.resolve_left hpos.ne')
    exact ⟨t', h1, h2, h3, h4, .inr h5⟩

/-- `mem_free` returns only when it has the slots. -/
theorem isolateSlots_of_some {t t' : MemType} {base size : Nat} (h : memRemoveRange t base size = some t') :
    IsolateSlots t size := by
  by_contra hs
  rw [IsolateSlots, not_or, not_le] at hs
  rw [memRemoveRange, memIsolateRange, if_neg hs.1, if_pos hs.2] at h
  cases h

end Sdfirm.Mem

/-!
## Runs of the early memory map

`Call.exec_spec`: one call on well-formed arrays does to their sets what
`Call.onSets` says. `memory_map_is_set_algebra`: so does every sequence of
calls that finds enough array slots. `run_bounded`: no end of a region and no
total passes a bound that the calls' ranges keep, so that the addresses may
be taken as natural numbers.
-/

namespace Sdfirm.Mem

open Framework

/-- Both arrays are well formed. -/
structure MemState.WF (s : MemState) : Prop where
  memory : s.memory.WF
  reserved : s.reserved.WF

theorem MemType.init_wf (nr : Nat) : (MemType.init nr).WF := ⟨.inl rfl, rfl⟩

theorem MemState.init_wf (nr : Nat) : (MemState.init nr).WF := 
  ⟨MemType.init_wf nr, MemType.init_wf nr⟩

theorem MemState.init_sets (nr : Nat) : (MemState.init nr).sets = ⟨∅, ∅⟩ := by
  simp [MemState.sets, MemState.init, MemType.init, MemType.cover, MemRegion.range]

/-- One call: the step of the refinement. -/
theorem Call.exec_spec {s : MemState} (h : s.WF) (c : Call) (hc : c.HasSlots s) :
    ∃ s', c.exec s = some s' ∧ s'.WF ∧ s'.sets = c.onSets s.sets := by
  cases c with
  | add base size =>
    obtain ⟨t, h1, h2, h3, -⟩ := memAddRange_spec h.memory hc
    refine ⟨{ s with memory := t }, ?_, ⟨h2, h.reserved⟩, ?_⟩
    · simp only [Call.exec, memAdd, h1, Option.map_some]
    · simp only [MemState.sets, Call.onSets, h3]
  | reserve base size =>
    obtain ⟨t, h1, h2, h3, -⟩ := memAddRange_spec h.reserved hc
    refine ⟨{ s with reserved := t }, ?_, ⟨h.memory, h2⟩, ?_⟩
    · simp only [Call.exec, memReserve, h1, Option.map_some]
    · simp only [MemState.sets, Call.onSets, h3]
  | free base size =>
    obtain ⟨t, h1, h2, h3, -⟩ := memRemoveRange_spec base h.reserved hc
    refine ⟨{ s with reserved := t }, ?_, ⟨h.memory, h2⟩, ?_⟩
    · simp only [Call.exec, memFree, h1, Option.map_some]
    · simp only [MemState.sets, Call.onSets, h3]

/-- A sequence of calls: the run of the refinement. -/
theorem run_spec : ∀ (cs : List Call) (s : MemState), s.WF → EnoughSlots s cs →
    ∃ s', run s cs = some s' ∧ s'.WF ∧ s'.sets = cs.foldl Call.onSets s.sets
  | [], s, h, _ => ⟨s, rfl, h, rfl⟩
  | c :: cs, s, h, hs => by
    obtain ⟨s1, h1, h2, h3⟩ := c.exec_spec h hs.1
    obtain ⟨s2, e1, e2, e3⟩ := run_spec cs s1 h2 (hs.2 s1 h1)
    refine ⟨s2, ?_, e2, ?_⟩
    · rw [run, h1, Option.bind_some, e1]
    · rw [e3, h3, List.foldl_cons]

theorem addSlots_of_count {t t' : MemType} {base size : Nat} (nrNew : Nat)
    (h : addRound false t base (base + size) = some (t', nrNew))
    (hle : t.regions.length + nrNew ≤ t.max) : AddSlots t base size := by
  intro t'' n h'
  cases h.symm.trans h'
  exact hle

theorem enoughSlots_cons {s s' : MemState} {c : Call} {cs : List Call} (hc : c.HasSlots s)
    (h : c.exec s = some s') (hs : EnoughSlots s' cs) : EnoughSlots s (c :: cs) := by
  refine ⟨hc, fun s'' h' => ?_⟩
  cases h.symm.trans h'
  exact hs

/-- From the static arrays on, every sequence of calls with slots enough runs without
`BUG`, keeps both arrays canonical or dummy with the right total, and makes them cover
the sets that the calls describe. -/
theorem memory_map_is_set_algebra (nr : Nat) (cs : List Call) (hs : EnoughSlots (.init nr) cs) :
    ∃ s, run (.init nr) cs = some s ∧ s.memory.WF ∧ s.reserved.WF ∧
      s.sets = cs.foldl Call.onSets ⟨∅, ∅⟩ := by
  obtain ⟨s, h1, h2, h3⟩ := run_spec cs _ (MemState.init_wf nr) hs
  exact ⟨s, h1, h2.memory, h2.reserved, by rw [h3, MemState.init_sets]⟩

/-- Two ranges that touch are merged, and the middle of the result is freed again. -/
theorem memory_map_reserve_reserve_free :
    ∃ s, run (.init 3) [.reserve 0x1000 0x1000, .reserve 0x2000 0x800, .free 0x1800 0x400] = some s ∧
      s.memory.WF ∧ s.reserved.WF ∧
      s.sets = [Call.reserve 0x1000 0x1000, .reserve 0x2000 0x800, .free 0x1800 0x400].foldl
        Call.onSets ⟨∅, ∅⟩ := by
  refine memory_map_is_set_algebra 3 _ ?_
  refine enoughSlots_cons (addSlots_of_count 1 rfl (by decide)) rfl ?_
  refine enoughSlots_cons (addSlots_of_count 1 rfl (by decide)) rfl ?_
  exact enoughSlots_cons (.inr (by decide)) rfl trivial

/-! ### Bounds -/

theorem Canonical.sum_le {bound : Nat} : ∀ {rs : List MemRegion} (low : Nat), Canonical rs →
    (∀ r ∈ rs, low ≤ r.base ∧ r.base + r.size ≤ bound) → low ≤ bound →
    low + (rs.map MemRegion.size).sum ≤ bound
  | [], _, _, _, hl => by simpa using hl
  | r :: rs, low, h, hb, hl => by
    obtain ⟨h1, h2, h3⟩ := canonical_cons.1 h
    have hr := hb r (by simp)
    have := h3.sum_le (r.base + r.size)
      (fun q hq => ⟨(h1 q hq).le, (hb q (by simp [hq])).2⟩) hr.2
    simp only [List.map_cons, List.sum_cons]
    omega

/-- An array that covers only addresses below `bound` has no region and no total past it. -/
theorem MemType.WF.bounded {t : MemType} {bound : Nat} (h : t.WF) (hc : ∀ x ∈ t.cover, x < bound) :
    (∀ r ∈ t.regions, r.base + r.size ≤ bound) ∧ t.totalSize ≤ bound := by
  rcases h.regions with hd | ⟨-, hcan⟩
  · refine ⟨?_, ?_⟩
    · simp [hd]
    · rw [h.total, hd]
      simp
  · have hr : ∀ r ∈ t.regions, r.base + r.size ≤ bound := by
      intro r hr
      have hpos := hcan.proper r.range (List.mem_map_of_mem hr)
      simp only [range_lo, range_hi] at hpos
      have := hc (r.base + r.size - 1)
        (Range.mem_cover.2 ⟨r.range, List.mem_map_of_mem hr, by simp only [range_lo]; omega,
          by simp only [range_hi]; omega⟩)
      omega
    refine ⟨hr, ?_⟩
    rw [h.total]
    simpa using hcan.sum_le 0 (fun r h => ⟨Nat.zero_le _, hr r h⟩) (Nat.zero_le _)

/-- Both sets lie below `bound`. -/
def MemSets.Below (bound : Nat) (m : MemSets) : Prop :=
  (∀ x ∈ m.memory, x < bound) ∧ ∀ x ∈ m.reserved, x < bound

theorem Call.onSets_below {bound : Nat} {m : MemSets} (hm : m.Below bound) {c : Call}
    (hc : c.Below bound) : (c.onSets m).Below bound := by
  cases c with
  | add base size => exact ⟨fun x hx => hx.elim (hm.1 x) fun h => h.2.trans_le hc, hm.2⟩
  | reserve base size => exact ⟨hm.1, fun x hx => hx.elim (hm.2 x) fun h => h.2.trans_le hc⟩
  | free base size => exact ⟨hm.1, fun x hx => hm.2 x hx.1⟩

theorem foldl_onSets_below {bound : Nat} : ∀ (cs : List Call) (m : MemSets), m.Below bound →
    (∀ c ∈ cs, c.Below bound) → (cs.foldl Call.onSets m).Below bound
  | [], _, hm, _ => hm
  | c :: cs, m, hm, hc =>
    foldl_onSets_below cs _ (c.onSets_below hm (hc c (by simp))) fun d hd => hc d (by simp [hd])

/-- When no call's `base + size` passes `bound`, no sum of the code does. -/
theorem run_bounded {nr bound : Nat} {cs : List Call} (hs : EnoughSlots (.init nr) cs)
    (hb : ∀ c ∈ cs, c.Below bound) :
    ∃ s, run (.init nr) cs = some s ∧
      ((∀ r ∈ s.memory.regions, r.base + r.size ≤ bound) ∧ s.memory.totalSize ≤ bound) ∧
      (∀ r ∈ s.reserved.regions, r.base + r.size ≤ bound) ∧ s.reserved.totalSize ≤ bound := by
  obtain ⟨s, h1, h2, h3⟩ := run_spec cs _ (MemState.init_wf nr) hs
  have hbelow : s.sets.Below bound := by
    rw [h3, MemState.init_sets]
    exact foldl_onSets_below cs _ ⟨by simp, by simp⟩ hb
  exact ⟨s, h1, h2.memory.bounded hbelow.1, h2.reserved.bounded hbelow.2⟩

end Sdfirm.Mem
