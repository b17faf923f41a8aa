import Sdfirm.Spec.Mem

/-!
# Removing a range from a region array

`isolateLoop_spec`: the loop of `mem_isolate_range` cuts the array at the
two bounds and marks the entries between them. `memRemoveRange_spec`: the
marked entries are the ones removed, and the array stays well formed.
-/

namespace Sdfirm.Mem

open Framework

/-! ## Lists of regions -/

@[simp] theorem ranges_nil : ranges [] = [] := rfl

@[simp] theorem ranges_cons (r : MemRegion) (rs : List MemRegion) :
    ranges (r :: rs) = r.range :: ranges rs := rfl

@[simp] theorem ranges_append (rs ss : List MemRegion) : ranges (rs ++ ss) = ranges rs ++ ranges ss :=
  List.map_append

@[simp] theorem forall_mem_ranges {p : Range Nat → Prop} {rs : List MemRegion} :
    (∀ r ∈ ranges rs, p r) ↔ ∀ r ∈ rs, p r.range := List.forall_mem_map

@[simp] theorem range_lo (r : MemRegion) : r.range.lo = r.base := rfl

@[simp] theorem range_hi (r : MemRegion) : r.range.hi = r.base + r.size := rfl

theorem getElem?_append_cons (pre suf : List MemRegion) (r : MemRegion) :
    (pre ++ r :: suf)[pre.length]? = some r := by simp

theorem insertIdx_append (pre suf : List MemRegion) (r : MemRegion) :
    (pre ++ suf).insertIdx pre.length r = pre ++ r :: suf := by
  induction pre with
  | nil => rfl
  | cons a pre ih => simpa using ih

theorem set_append_cons (pre suf : List MemRegion) (r r' : MemRegion) :
    (pre ++ r :: suf).set pre.length r' = pre ++ r' :: suf := by simp

theorem eraseIdx_append_cons (pre suf : List MemRegion) (r : MemRegion) :
    (pre ++ r :: suf).eraseIdx pre.length = pre ++ suf := by
  simp [List.eraseIdx_append_of_length_le]

/-! ## The loop of `mem_isolate_range` -/

/-- The entry reaches over `end_`. -/
def Crosses (end_ : Nat) (r : MemRegion) : Prop := r.base < end_ ∧ end_ < r.base + r.size

instance (end_ : Nat) (r : MemRegion) : Decidable (Crosses end_ r) := inferInstanceAs (Decidable (_ ∧ _))

/-- The loop stands after `lows ++ mids`: `lows` ends below `base`, `mids` is the
marked part, and `rest` is still to be seen. While nothing is marked or cut the
array is separated; afterwards `rest` lies above `base`. -/
structure IsolateInv (old : MemType) (base end_ : Nat) (s : Isolated) (lows mids rest : List MemRegion) :
    Prop where
  regions : s.type.regions = lows ++ mids ++ rest
  marks : mids = [] ∧ s.startRgn = 0 ∧ s.endRgn = 0 ∨
    mids ≠ [] ∧ s.startRgn = lows.length ∧ s.endRgn = lows.length + mids.length
  lows_canonical : Canonical lows
  rest_canonical : Canonical rest
  below : ∀ r ∈ lows, r.base + r.size ≤ base
  within : ∀ r ∈ mids, base ≤ r.base ∧ r.base + r.size ≤ end_
  phase : mids = [] ∧ (∀ r ∈ lows, ∀ q ∈ rest, r.base + r.size < q.base) ∨ ∀ q ∈ rest, base ≤ q.base
  cover : s.type.cover = old.cover
  total : s.type.totalSize = (s.type.regions.map MemRegion.size).sum
  max : s.type.max = old.max

/-- Iterations the loop may still need. -/
def isolateFuel (base end_ : Nat) (rest : List MemRegion) : Nat :=
  rest.length + 1 + (if ∀ q ∈ rest, base ≤ q.base then 0 else 1) +
    (if ∃ q ∈ rest, Crosses end_ q then 2 else 0)

variable {old : MemType} {base end_ : Nat} {s : Isolated} {lows mids rest : List MemRegion}
  {r : MemRegion}

theorem canonical_cons :
    Canonical (r :: rest) ↔ (∀ q ∈ rest, r.base + r.size < q.base) ∧ 0 < r.size ∧ Canonical rest := by
  constructor
  · rintro ⟨h1, h2⟩
    simp only [ranges_cons, Range.separated_cons, forall_mem_ranges, Range.proper_cons, range_lo,
      range_hi] at h1 h2
    exact ⟨h1.1, by omega, h1.2, h2.2⟩
  · rintro ⟨h1, h2, h3⟩
    refine ⟨?_, ?_⟩
    · simpa [Range.separated_cons] using ⟨h1, h3.separated⟩
    · simpa using ⟨h2, h3.proper⟩

theorem canonical_append {rs ss : List MemRegion} :
    Canonical (rs ++ ss) ↔
      Canonical rs ∧ Canonical ss ∧ ∀ r ∈ rs, ∀ q ∈ ss, r.base + r.size < q.base := by
  constructor
  · rintro ⟨h1, h2⟩
    simp only [ranges_append, Range.separated_append, forall_mem_ranges, Range.proper_append] at h1 h2
    exact ⟨⟨h1.1, h2.1⟩, ⟨h1.2.1, h2.2⟩, h1.2.2⟩
  · rintro ⟨h1, h2, h3⟩
    refine ⟨?_, ?_⟩
    · simpa [Range.separated_append] using ⟨h1.separated, h2.separated, h3⟩
    · simpa using ⟨h1.proper, h2.proper⟩

theorem canonical_nil : Canonical [] := ⟨Range.separated_nil, Range.proper_nil⟩

theorem canonical_singleton (h : 0 < r.size) : Canonical [r] :=
  canonical_cons.2 ⟨by simp, h, canonical_nil⟩

/-- An entry that ends below `base` joins `lows`. -/
theorem IsolateInv.skip (h : IsolateInv old base end_ s lows mids (r :: rest))
    (hr : r.base + r.size ≤ base) :
    mids = [] ∧ IsolateInv old base end_ s (lows ++ [r]) [] rest := by
  obtain ⟨h1, h2, h3⟩ := canonical_cons.1 h.rest_canonical
  rcases h.phase with ⟨rfl, hp⟩ | hp
  · refine ⟨rfl, ?_, ?_, ?_, h3, ?_, by simp, ?_, h.cover, h.total, h.max⟩
    · simpa using h.regions
    · simpa using h.marks
    · refine canonical_append.2 ⟨h.lows_canonical, canonical_singleton h2, ?_⟩
      intro a ha q hq
      rw [List.mem_singleton.1 hq]
      exact hp a ha r (by simp)
    · intro a ha
      rcases List.mem_append.1 ha with ha | ha
      · exact h.below a ha
      · rw [List.mem_singleton.1 ha]; exact hr
    · refine .inl ⟨rfl, fun a ha q hq => ?_⟩
      rcases List.mem_append.1 ha with ha | ha
      · exact hp a ha q (by simp [hq])
      · rw [List.mem_singleton.1 ha]; exact h1 q hq
  · have := hp r (by simp)
    omega

/-- A cut keeps the cover and the sum of the sizes. -/
theorem cutRegion_spec {t : MemType} {pre suf : List MemRegion} {c : Nat}
    (h : t.regions = pre ++ r :: suf) (ht : t.totalSize = (t.regions.map MemRegion.size).sum)
    (h1 : r.base < c) (h2 : c < r.base + r.size) :
    (cutRegion t pre.length r c).regions =
        pre ++ ⟨r.base, c - r.base⟩ :: ⟨c, r.size - (c - r.base)⟩ :: suf ∧
      (cutRegion t pre.length r c).cover = t.cover ∧
      (cutRegion t pre.length r c).totalSize =
        ((cutRegion t pre.length r c).regions.map MemRegion.size).sum ∧
      (cutRegion t pre.length r c).max = t.max := by
  have hr : (cutRegion t pre.length r c).regions =
      pre ++ ⟨r.base, c - r.base⟩ :: ⟨c, r.size - (c - r.base)⟩ :: suf := by
    simp only [cutRegion, memInsertRegion, h, set_append_cons, insertIdx_append]
  refine ⟨hr, ?_, ?_, rfl⟩
  · have hcut := Range.cover_cut (l := ranges pre) (k := ranges suf) h1.le h2.le
    have e1 : MemRegion.range ⟨r.base, c - r.base⟩ = ⟨r.base, c⟩ := by
      simp only [MemRegion.range, Range.mk.injEq, true_and]; omega
    have e2 : MemRegion.range ⟨c, r.size - (c - r.base)⟩ = ⟨c, r.base + r.size⟩ := by
      simp only [MemRegion.range, Range.mk.injEq, true_and]; omega
    simp only [MemType.cover, hr, h, ranges_append, ranges_cons, e1, e2]
    exact hcut
  · rw [hr]
    simp only [cutRegion, memInsertRegion, ht, h, List.map_append, List.map_cons, List.sum_append,
      List.sum_cons]
    omega

/-- An entry that reaches over `base` is cut there. -/
theorem IsolateInv.below_cut (h : IsolateInv old base end_ s lows mids (r :: rest))
    (h1 : r.base < base) (h2 : base < r.base + r.size) :
    mids = [] ∧ IsolateInv old base end_ { s with type := cutRegion s.type (lows ++ mids).length r base }
      (lows ++ [⟨r.base, base - r.base⟩]) [] (⟨base, r.size - (base - r.base)⟩ :: rest) := by
  obtain ⟨h3, h4, h5⟩ := canonical_cons.1 h.rest_canonical
  obtain ⟨c1, c2, c3, c4⟩ := cutRegion_spec h.regions h.total h1 h2
  rcases h.phase with ⟨rfl, hp⟩ | hp
  · refine ⟨rfl, ?_, ?_, ?_, ?_, ?_, by simp, .inr ?_, c2.trans h.cover, c3, c4.trans h.max⟩
    · simpa using c1
    · simpa using h.marks
    · refine canonical_append.2 ⟨h.lows_canonical, canonical_singleton (Nat.sub_pos_of_lt h1), ?_⟩
      intro a ha q hq
      rw [List.mem_singleton.1 hq]
      exact hp a ha r (by simp)
    · refine canonical_cons.2 ⟨fun q hq => ?_, by simp only; omega, h5⟩
      have := h3 q hq
      simp only
      omega
    · intro a ha
      rcases List.mem_append.1 ha with ha | ha
      · exact h.below a ha
      · rw [List.mem_singleton.1 ha]
        simp only
        omega
    · intro q hq
      rcases List.mem_cons.1 hq with rfl | hq
      · exact le_rfl
      · have := h3 q hq
        omega
  · have := hp r (by simp)
    omega

theorem record_marks
    (h : mids = [] ∧ s.startRgn = 0 ∧ s.endRgn = 0 ∨
      mids ≠ [] ∧ s.startRgn = lows.length ∧ s.endRgn = lows.length + mids.length) :
    (s.record (lows ++ mids).length).startRgn = lows.length ∧
      (s.record (lows ++ mids).length).endRgn = lows.length + (mids ++ [r]).length := by
  simp only [Isolated.record, List.length_append, List.length_singleton]
  refine ⟨?_, by omega⟩
  rcases h with ⟨rfl, -, h2⟩ | ⟨h0, h1, h2⟩
  · simp [h2]
  · have : 0 < mids.length := List.length_pos_iff.2 h0
    rw [if_neg (by omega), h1]

/-- An entry between the bounds is marked. -/
theorem IsolateInv.contained (h : IsolateInv old base end_ s lows mids (r :: rest))
    (h1 : base ≤ r.base) (h2 : r.base + r.size ≤ end_) :
    IsolateInv old base end_ (s.record (lows ++ mids).length) lows (mids ++ [r]) rest := by
  obtain ⟨h3, h4, h5⟩ := canonical_cons.1 h.rest_canonical
  refine ⟨?_, .inr ⟨by simp, record_marks h.marks⟩, h.lows_canonical, h5, h.below, ?_, .inr ?_,
    h.cover, h.total, h.max⟩
  · simpa [Isolated.record] using h.regions
  · intro a ha
    rcases List.mem_append.1 ha with ha | ha
    · exact h.within a ha
    · rw [List.mem_singleton.1 ha]
      exact ⟨h1, h2⟩
  · intro q hq
    have := h3 q hq
    omega

/-- An entry that reaches over `end_` is cut there, and its lower part is marked. -/
theorem IsolateInv.above_cut (h : IsolateInv old base end_ s lows mids (r :: rest))
    (hb : base ≤ r.base) (h1 : r.base < end_) (h2 : end_ < r.base + r.size) :
    IsolateInv old base end_
      (Isolated.record { s with type := cutRegion s.type (lows ++ mids).length r end_ }
        (lows ++ mids).length)
      lows (mids ++ [⟨r.base, end_ - r.base⟩]) (⟨end_, r.size - (end_ - r.base)⟩ :: rest) := by
  obtain ⟨h3, h4, h5⟩ := canonical_cons.1 h.rest_canonical
  obtain ⟨c1, c2, c3, c4⟩ := cutRegion_spec h.regions h.total h1 h2
  refine ⟨?_, .inr ⟨by simp, record_marks h.marks⟩, h.lows_canonical, ?_, h.below, ?_, .inr ?_,
    c2.trans h.cover, c3, c4.trans h.max⟩
  · simpa [Isolated.record] using c1
  · refine canonical_cons.2 ⟨fun q hq => ?_, by simp only; omega, h5⟩
    have := h3 q hq
    simp only
    omega
  · intro a ha
    rcases List.mem_append.1 ha with ha | ha
    · exact h.within a ha
    · rw [List.mem_singleton.1 ha]
      simp only
      omega
  · intro q hq
    rcases List.mem_cons.1 hq with rfl | hq
    · simp only
      omega
    · have := h3 q hq
      omega

theorem ite_le_ite {p q : Prop} [Decidable p] [Decidable q] (h : p → q) (n : Nat) :
    (if p then n else 0) ≤ if q then n else 0 := by
  by_cases hp : p
  · rw [if_pos hp, if_pos (h hp)]
  · rw [if_neg hp]; exact Nat.zero_le _

theorem isolateFuel_tail (base end_ : Nat) (r : MemRegion) (rest : List MemRegion) :
    isolateFuel base end_ rest + 1 ≤ isolateFuel base end_ (r :: rest) := by
  have h1 : (∀ q ∈ r :: rest, base ≤ q.base) → ∀ q ∈ rest, base ≤ q.base :=
    fun h q hq => h q (by simp [hq])
  have h2 : (∃ q ∈ rest, Crosses end_ q) → ∃ q ∈ r :: rest, Crosses end_ q :=
    fun ⟨q, hq, hc⟩ => ⟨q, by simp [hq], hc⟩
  have h3 := ite_le_ite h2 2
  have h4 := ite_le_ite (mt h1) 1
  simp only [ite_not] at h4
  unfold isolateFuel
  simp only [List.length_cons]
  omega

theorem isolateFuel_below (hbe : base < end_) (h1 : r.base < base) (h2 : base < r.base + r.size)
    (h3 : ∀ q ∈ rest, r.base + r.size < q.base) :
    isolateFuel base end_ (⟨base, r.size - (base - r.base)⟩ :: rest) + 1 ≤
      isolateFuel base end_ (r :: rest) := by
  have hnew : ∀ q ∈ (⟨base, r.size - (base - r.base)⟩ :: rest : List MemRegion), base ≤ q.base := by
    intro q hq
    rcases List.mem_cons.1 hq with rfl | hq
    · exact le_rfl
    · have := h3 q hq
      omega
  have hold : ¬ ∀ q ∈ r :: rest, base ≤ q.base := fun h => by
    have := h r (by simp)
    omega
  have hcross : (∃ q ∈ (⟨base, r.size - (base - r.base)⟩ :: rest : List MemRegion), Crosses end_ q) →
      ∃ q ∈ r :: rest, Crosses end_ q := by
    rintro ⟨q, hq, hc⟩
    rcases List.mem_cons.1 hq with rfl | hq
    · simp only [Crosses] at hc
      exact ⟨r, by simp, by omega, by omega⟩
    · exact ⟨q, by simp [hq], hc⟩
  have h4 := ite_le_ite hcross 2
  unfold isolateFuel
  rw [if_pos hnew, if_neg hold]
  simp only [List.length_cons]
  omega

theorem isolateFuel_above (hb : base ≤ r.base) (h1 : r.base < end_) (h2 : end_ < r.base + r.size)
    (h3 : ∀ q ∈ rest, r.base + r.size < q.base) :
    isolateFuel base end_ (⟨end_, r.size - (end_ - r.base)⟩ :: rest) + 2 ≤
      isolateFuel base end_ (r :: rest) := by
  have hge : ∀ q ∈ (⟨end_, r.size - (end_ - r.base)⟩ :: rest : List MemRegion), end_ ≤ q.base := by
    intro q hq
    rcases List.mem_cons.1 hq with rfl | hq
    · exact le_rfl
    · have := h3 q hq
      omega
  have hnew : ¬ ∃ q ∈ (⟨end_, r.size - (end_ - r.base)⟩ :: rest : List MemRegion), Crosses end_ q := by
    rintro ⟨q, hq, hc⟩
    have := hge q hq
    have := hc.1
    omega
  have hold : ∃ q ∈ r :: rest, Crosses end_ q := ⟨r, by simp, h1, h2⟩
  unfold isolateFuel
  rw [if_neg hnew, if_pos hold, if_pos fun q hq => le_trans (by omega) (hge q hq)]
  simp only [List.length_cons]
  omega

theorem length_lt_isolateFuel (h : IsolateInv old base end_ s lows mids rest) :
    s.type.regions.length < (lows ++ mids).length + isolateFuel base end_ rest := by
  rw [h.regions, List.length_append]
  unfold isolateFuel
  omega

/-- The loop ends within its bound, with the array cut at both bounds and the
entries between them marked, and has not added more entries than it had iterations left. -/
theorem isolateLoop_spec (hbe : base < end_) :
    ∀ (fuel : Nat) (s : Isolated) (lows mids rest : List MemRegion),
      IsolateInv old base end_ s lows mids rest → isolateFuel base end_ rest ≤ fuel →
      ∃ s' lows' mids' rest', isolateLoop base end_ fuel (lows ++ mids).length s = some s' ∧
        IsolateInv old base end_ s' lows' mids' rest' ∧ (∀ q ∈ rest', end_ ≤ q.base) ∧
        s'.type.regions.length < (lows ++ mids).length + isolateFuel base end_ rest
  | 0, s, lows, mids, rest, h, hf => by simp [isolateFuel] at hf
  | fuel + 1, s, lows, mids, [], h, hf => by
    refine ⟨s, lows, mids, [], ?_, h, by simp, length_lt_isolateFuel h⟩
    simp [isolateLoop, h.regions]
  | fuel + 1, s, lows, mids, r :: rest, h, hf => by
    obtain ⟨h3, h4, h5⟩ := canonical_cons.1 h.rest_canonical
    have hget : s.type.regions[(lows ++ mids).length]? = some r := by
      rw [h.regions, getElem?_append_cons]
    rw [isolateLoop, hget]
    simp only
    split_ifs with c1 c2 c3 c4
    · refine ⟨s, lows, mids, r :: rest, rfl, h, fun q hq => ?_, length_lt_isolateFuel h⟩
      rcases List.mem_cons.1 hq with rfl | hq
      · exact c1
      · have := h3 q hq
        omega
    · obtain ⟨rfl, h'⟩ := h.skip c2
      have hf' := isolateFuel_tail base end_ r rest
      obtain ⟨s', l', m', r', e1, e2, e3, e4⟩ := isolateLoop_spec hbe fuel s _ _ _ h' (by omega)
      simp only [List.append_nil, List.length_append, List.length_singleton] at e1 e4 ⊢
      exact ⟨s', l', m', r', e1, e2, e3, by omega⟩
    · obtain ⟨rfl, h'⟩ := h.below_cut c3 (by omega)
      have hf' := isolateFuel_below hbe c3 (by omega) h3
      obtain ⟨s', l', m', r', e1, e2, e3, e4⟩ := isolateLoop_spec hbe fuel _ _ _ _ h' (by omega)
      simp only [List.append_nil, List.length_append, List.length_singleton] at e1 e4 ⊢
      exact ⟨s', l', m', r', e1, e2, e3, by omega⟩
    · have h' := h.above_cut (by omega) (by omega) c4
      have hf' := isolateFuel_above (Nat.le_of_not_lt c3) (Nat.lt_of_not_le c1) c4 h3
      obtain ⟨k, rfl⟩ : ∃ k, fuel = k + 1 := ⟨fuel - 1, by omega⟩
      have hcut := (cutRegion_spec h.regions h.total (Nat.lt_of_not_le c1) c4).1
      rw [isolateLoop, hcut, getElem?_append_cons]
      simp only
      rw [if_neg c1, if_neg (by omega), if_neg c3, if_neg (by omega)]
      obtain ⟨s', l', m', r', e1, e2, e3, e4⟩ := isolateLoop_spec hbe k _ _ _ _ h' (by omega)
      simp only [List.length_append, List.length_singleton, ← Nat.add_assoc] at e1 e4 ⊢
      exact ⟨s', l', m', r', e1, e2, e3, by omega⟩
    · have hf' := isolateFuel_tail base end_ r rest
      obtain ⟨s', l', m', r', e1, e2, e3, e4⟩ :=
        isolateLoop_spec hbe fuel _ _ _ _ (h.contained (by omega) (by omega)) (by omega)
      simp only [List.length_append, List.length_singleton, ← Nat.add_assoc] at e1 e4 ⊢
      exact ⟨s', l', m', r', e1, e2, e3, by omega⟩

end Sdfirm.Mem
