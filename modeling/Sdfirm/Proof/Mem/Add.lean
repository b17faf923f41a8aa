import Sdfirm.Proof.Mem.Isolate

/-!
# `mem_add_range`

`addRound_spec`: the inserting round fills the gaps of the new range, with
as many entries as the counting round has counted. `mergeFrom_spec`: the
merge of ordered disjoint regions is canonical and covers the same set.
`memAddRange_spec`: on a well-formed array with slots enough `mem_add_range`
succeeds, keeps the array well formed and unites its set with the range.
-/

namespace Sdfirm.Mem

open Framework

/-- Ordered, disjoint and without empty regions; regions may touch. -/
structure Ordered (rs : List MemRegion) : Prop where
  apart : Range.Apart (ranges rs)
  proper : Range.Proper (ranges rs)

theorem Canonical.ordered {rs : List MemRegion} (h : Canonical rs) : Ordered rs :=
  ⟨h.separated.apart, h.proper⟩

theorem ordered_cons {r : MemRegion} {rs : List MemRegion} :
    Ordered (r :: rs) ↔ (∀ q ∈ rs, r.base + r.size ≤ q.base) ∧ 0 < r.size ∧ Ordered rs := by
  constructor
  · rintro ⟨h1, h2⟩
    simp only [ranges_cons, Range.apart_cons, forall_mem_ranges, Range.proper_cons, range_lo,
      range_hi] at h1 h2
    exact ⟨h1.1, by omega, h1.2, h2.2⟩
  · rintro ⟨h1, h2, h3⟩
    refine ⟨?_, ?_⟩
    · simpa [Range.apart_cons] using ⟨h1, h3.apart⟩
    · simpa using ⟨h2, h3.proper⟩

theorem Ordered.tail {pre suf : List MemRegion} (h : Ordered (pre ++ suf)) : Ordered suf := by
  obtain ⟨h1, h2⟩ := h
  simp only [ranges_append, Range.apart_append, Range.proper_append] at h1 h2
  exact ⟨h1.2.1, h2.2⟩

theorem Ordered.insert {pre suf : List MemRegion} {r : MemRegion} (h : Ordered (pre ++ suf))
    (hr : 0 < r.size) (hpre : ∀ q ∈ pre, q.base + q.size ≤ r.base)
    (hsuf : ∀ q ∈ suf, r.base + r.size ≤ q.base) : Ordered (pre ++ r :: suf) := by
  obtain ⟨h1, h2⟩ := h
  simp only [ranges_append] at h1 h2
  refine ⟨?_, ?_⟩
  · simpa using h1.insert (r := r.range) (by simpa using hpre) (by simpa using hsuf)
  · simpa using ⟨(Range.proper_append.1 h2).1, hr, (Range.proper_append.1 h2).2⟩

/-! ## The merge -/

theorem mergeFrom_spec : ∀ (rest : List MemRegion) (this : MemRegion), Ordered (this :: rest) →
    ∃ rs, mergeFrom this rest = some rs ∧ rs ≠ [] ∧ Canonical rs ∧ (∀ r ∈ rs, this.base ≤ r.base) ∧
      Range.cover (ranges rs) = Range.cover (ranges (this :: rest)) ∧
      (rs.map MemRegion.size).sum = ((this :: rest).map MemRegion.size).sum
  | [], this, h => by
    refine ⟨[this], rfl, by simp, canonical_singleton (ordered_cons.1 h).2.1, by simp, rfl, rfl⟩
  | next :: rest, this, h => by
    obtain ⟨h1, h2, h3⟩ := ordered_cons.1 h
    obtain ⟨h4, h5, h6⟩ := ordered_cons.1 h3
    have hle := h1 next (by simp)
    by_cases heq : this.base + this.size = next.base
    · have h' : Ordered (⟨this.base, this.size + next.size⟩ :: rest) := by
        refine ordered_cons.2 ⟨fun q hq => ?_, by simp only; omega, h6⟩
        have := h4 q hq
        simp only
        omega
      obtain ⟨rs, e1, e2, e3, e4, e5, e6⟩ := mergeFrom_spec rest _ h'
      refine ⟨rs, ?_, e2, e3, e4, ?_, ?_⟩
      · rw [mergeFrom, if_neg (by simpa using heq), e1]
      · have hr : MemRegion.range ⟨this.base, this.size + next.size⟩ =
            ⟨this.base, next.base + next.size⟩ := by
          simp only [MemRegion.range, Range.mk.injEq, true_and]; omega
        rw [e5, ranges_cons, ranges_cons, ranges_cons, hr,
          Range.cover_join next.base (by omega) (by omega), MemRegion.range, heq,
          MemRegion.range]
      · rw [e6]
        simp only [List.map_cons, List.sum_cons]
        omega
    · obtain ⟨rs, e1, e2, e3, e4, e5, e6⟩ := mergeFrom_spec rest next h3
      refine ⟨this :: rs, ?_, by simp, ?_, ?_, ?_, ?_⟩
      · rw [mergeFrom, if_pos heq, if_neg (by omega), e1, Option.map_some]
      · refine canonical_cons.2 ⟨fun q hq => ?_, h2, e3⟩
        have := e4 q hq
        omega
      · intro q hq
        rcases List.mem_cons.1 hq with rfl | hq
        · exact le_rfl
        · have := e4 q hq
          omega
      · rw [ranges_cons, Range.cover_cons, e5, ← Range.cover_cons, ← ranges_cons]
      · rw [List.map_cons, List.sum_cons, e6, ← List.sum_cons, ← List.map_cons]

/-! ## The two rounds -/

/-- The inserting loop stands after `pre`: the part of the new range below `s.base`
is covered, and the rest of it is `[s.base, end_)`. -/
structure AddInv (old : MemType) (obase end_ : Nat) (s : Adding) (pre suf : List MemRegion) : Prop where
  regions : s.type.regions = pre ++ suf
  idx : s.idx = pre.length
  ordered : Ordered (pre ++ suf)
  reached : (∀ r ∈ pre, r.base + r.size ≤ s.base) ∨ s.base = end_
  le : s.base ≤ end_
  cover : s.type.cover ∪ Set.Ico s.base end_ = old.cover ∪ Set.Ico obase end_
  total : s.type.totalSize = (s.type.regions.map MemRegion.size).sum
  max : s.type.max = old.max
  count : s.type.regions.length = old.regions.length + s.nrNew

theorem memInsertRegion_spec {t : MemType} {pre suf : List MemRegion} (base size : Nat)
    (h : t.regions = pre ++ suf) (ht : t.totalSize = (t.regions.map MemRegion.size).sum) :
    (memInsertRegion t pre.length base size).regions = pre ++ ⟨base, size⟩ :: suf ∧
      (memInsertRegion t pre.length base size).cover = t.cover ∪ Set.Ico base (base + size) ∧
      (memInsertRegion t pre.length base size).totalSize =
        ((memInsertRegion t pre.length base size).regions.map MemRegion.size).sum := by
  have hr : (memInsertRegion t pre.length base size).regions = pre ++ ⟨base, size⟩ :: suf := by
    simp only [memInsertRegion, h, insertIdx_append]
  refine ⟨hr, ?_, ?_⟩
  · simp only [MemType.cover, hr, h, ranges_append, ranges_cons, Range.cover_insert]
    rfl
  · rw [hr]
    simp only [memInsertRegion, ht, h, List.map_append, List.map_cons, List.sum_append, List.sum_cons]
    omega

variable {old : MemType} {obase end_ : Nat} {s : Adding} {pre suf : List MemRegion} {r : MemRegion}

/-- An entry below what is left of the range is passed. -/
theorem AddInv.skip (h : AddInv old obase end_ s pre (r :: suf)) (hr : r.base + r.size ≤ s.base) :
    AddInv old obase end_ { s with idx := s.idx + 1 } (pre ++ [r]) suf := by
  refine ⟨?_, ?_, ?_, ?_, h.le, h.cover, h.total, h.max, h.count⟩
  · simpa using h.regions
  · simpa using h.idx
  · simpa using h.ordered
  · refine h.reached.imp_left fun hp q hq => ?_
    rcases List.mem_append.1 hq with hq | hq
    · exact hp q hq
    · rw [List.mem_singleton.1 hq]; exact hr

theorem reached_min {base : Nat} (h : ∀ q ∈ pre, q.base + q.size ≤ base) (hr : base < r.base + r.size) :
    (∀ q ∈ pre ++ [r], q.base + q.size ≤ min (r.base + r.size) end_) ∨
      min (r.base + r.size) end_ = end_ := by
  by_cases he : r.base + r.size ≤ end_
  · refine .inl fun q hq => ?_
    rw [min_eq_left he]
    rcases List.mem_append.1 hq with hq | hq
    · exact (h q hq).trans hr.le
    · rw [List.mem_singleton.1 hq]
  · exact .inr (min_eq_right (by omega))

/-- Entries overlapped by the rest of the range have none of it left below them. -/
theorem AddInv.pre_below (h : AddInv old obase end_ s pre (r :: suf)) (hr : r.base < end_) :
    ∀ q ∈ pre, q.base + q.size ≤ s.base := by
  rcases h.reached with hp | he
  · exact hp
  · intro q hq
    have hap := h.ordered.apart
    simp only [ranges_append, ranges_cons, Range.apart_append, forall_mem_ranges] at hap
    have := hap.2.2 q hq r.range (by simp)
    simp only [range_lo, range_hi] at this
    omega

theorem AddInv.entry_covered (h : AddInv old obase end_ s pre (r :: suf)) :
    Set.Ico r.base (r.base + r.size) ⊆ s.type.cover := by
  intro x hx
  rw [MemType.cover, h.regions]
  refine Range.mem_cover.2 ⟨r.range, by simp, hx.1, hx.2⟩

/-- An entry over the lower bound of what is left of the range. -/
theorem AddInv.overlap (h : AddInv old obase end_ s pre (r :: suf)) (hr : r.base < end_)
    (hrb : s.base < r.base + r.size) (hb : r.base ≤ s.base) :
    AddInv old obase end_ { s with idx := s.idx + 1, base := min (r.base + r.size) end_ } (pre ++ [r])
      suf := by
  have hle := h.le
  refine ⟨?_, ?_, ?_, reached_min (h.pre_below hr) hrb, min_le_right _ _, ?_, h.total, h.max,
    h.count⟩
  · simpa using h.regions
  · simpa using h.idx
  · simpa using h.ordered
  · rw [← h.cover]
    refine Range.union_Ico_advance (by simp only; omega) (min_le_right _ _) fun x hx => ?_
    obtain ⟨h1, h2⟩ := hx
    exact h.entry_covered ⟨hb.trans h1, h2.trans_le (min_le_left _ _)⟩

/-- A gap of the range before an entry is filled. -/
theorem AddInv.gap (h : AddInv old obase end_ s pre (r :: suf)) (hr : r.base < end_)
    (hb : s.base < r.base) :
    AddInv old obase end_
      ⟨memInsertRegion s.type s.idx s.base (r.base - s.base), s.idx + 2, min (r.base + r.size) end_,
        s.nrNew + 1⟩ (pre ++ [⟨s.base, r.base - s.base⟩, r]) suf := by
  obtain ⟨i1, i2, i3⟩ := memInsertRegion_spec s.base (r.base - s.base) h.regions h.total
  rw [← h.idx, Nat.add_sub_of_le hb.le] at i2
  rw [← h.idx] at i1 i3
  have hpre := h.pre_below hr
  have hsize := (ordered_cons.1 h.ordered.tail).2.1
  refine ⟨?_, ?_, ?_, ?_, min_le_right _ _, ?_, i3, h.max, ?_⟩
  · simpa using i1
  · simpa using h.idx
  · have := h.ordered.insert (r := ⟨s.base, r.base - s.base⟩) (Nat.sub_pos_of_lt hb) hpre ?_
    · simpa using this
    · intro q hq
      have := (ordered_cons.1 h.ordered.tail).1
      simp only
      rcases List.mem_cons.1 hq with rfl | hq
      · omega
      · have := this q hq
        omega
  · have hle : ∀ q ∈ pre ++ [⟨s.base, r.base - s.base⟩], q.base + q.size ≤ r.base := by
      intro q hq
      rcases List.mem_append.1 hq with hq | hq
      · exact (hpre q hq).trans hb.le
      · rw [List.mem_singleton.1 hq]
        simp only
        omega
    simpa using reached_min (r := r) hle (by omega)
  · have hadv : Set.Ico s.base (min (r.base + r.size) end_) ⊆
        (memInsertRegion s.type s.idx s.base (r.base - s.base)).cover := by
      rintro x ⟨h1, h2⟩
      rw [i2]
      by_cases hx : x < r.base
      · exact .inr ⟨h1, hx⟩
      · exact .inl (h.entry_covered ⟨Nat.le_of_not_lt hx, h2.trans_le (min_le_left _ _)⟩)
    rw [← h.cover]
    simp only
    rw [Range.union_Ico_advance (by omega) (min_le_right _ _) hadv, i2, Set.union_assoc,
      Set.union_eq_self_of_subset_left (Set.Ico_subset_Ico_right hr.le)]
  · simp only [i1, List.length_append, List.length_cons]
    have := h.count
    rw [h.regions, List.length_append, List.length_cons] at this
    omega

/-- The inserting loop ends within its bound, before the entries above the range. -/
theorem addLoop_spec :
    ∀ (fuel : Nat) (s : Adding) (pre suf : List MemRegion), AddInv old obase end_ s pre suf →
      suf.length < fuel →
      ∃ s' pre' suf', addLoop true end_ fuel s = some s' ∧ AddInv old obase end_ s' pre' suf' ∧
        ∀ q ∈ suf', end_ ≤ q.base
  | 0, _, _, _, _, hf => absurd hf (Nat.not_lt_zero _)
  | fuel + 1, s, pre, [], h, hf => by
    refine ⟨s, pre, [], ?_, h, by simp⟩
    simp [addLoop, h.regions, h.idx]
  | fuel + 1, s, pre, r :: suf, h, hf => by
    have hord := ordered_cons.1 h.ordered.tail
    have hget : s.type.regions[s.idx]? = some r := by
      rw [h.regions, h.idx, getElem?_append_cons]
    have hf' : suf.length < fuel := by simpa using hf
    rw [addLoop, hget]
    simp only [if_true]
    split_ifs with c1 c2 c3
    · refine ⟨s, pre, r :: suf, rfl, h, fun q hq => ?_⟩
      rcases List.mem_cons.1 hq with rfl | hq
      · exact c1
      · have := hord.1 q hq
        omega
    · exact addLoop_spec fuel _ _ _ (h.skip c2) hf'
    · exact addLoop_spec fuel _ _ _ (h.gap (by omega) c3) hf'
    · exact addLoop_spec fuel _ _ _ (h.overlap (by omega) (by omega) (by omega)) hf'

/-- The counting loop takes the inserting loop's decisions: both depend only on the
entries still to be seen and on what is left of the range. -/
theorem addLoop_count :
    ∀ (fuel : Nat) (s c : Adding) (pre pre' suf : List MemRegion),
      s.type.regions = pre ++ suf → s.idx = pre.length →
      c.type.regions = pre' ++ suf → c.idx = pre'.length → c.base = s.base → c.nrNew = s.nrNew →
      ∀ s', addLoop true end_ fuel s = some s' →
        ∃ c', addLoop false end_ fuel c = some c' ∧ c'.base = s'.base ∧ c'.nrNew = s'.nrNew
  | 0, _, _, _, _, _, _, _, _, _, _, _, s', h => by simp [addLoop] at h
  | fuel + 1, s, c, pre, pre', [], h1, h2, h3, h4, h5, h6, s', h => by
    have hs : s = s' := by simpa [addLoop, h1, h2] using h
    refine ⟨c, ?_, hs ▸ h5, hs ▸ h6⟩
    simp [addLoop, h3, h4]
  | fuel + 1, s, c, pre, pre', r :: suf, h1, h2, h3, h4, h5, h6, s', h => by
    rw [addLoop, h1, h2, getElem?_append_cons] at h
    rw [addLoop, h3, h4, getElem?_append_cons]
    simp only [if_true, Bool.false_eq_true, if_false, h5] at h ⊢
    have hi : memInsertRegion s.type pre.length s.base (r.base - s.base) =
        { s.type with
          regions := pre ++ ⟨s.base, r.base - s.base⟩ :: r :: suf
          totalSize := s.type.totalSize + (r.base - s.base) } := by
      simp only [memInsertRegion, h1, insertIdx_append]
    split_ifs at h ⊢ with c1 c2 c3
    · refine ⟨c, rfl, ?_, ?_⟩
      · rw [h5, Option.some.inj h]
      · rw [h6, Option.some.inj h]
    · exact addLoop_count fuel _ _ (pre ++ [r]) (pre' ++ [r]) suf (by simp [h1]) (by simp) (by simp [h3])
        (by simp) (by simp) (by simp [h6]) s' h
    · exact addLoop_count fuel _ _ (pre ++ [⟨s.base, r.base - s.base⟩, r]) (pre' ++ [r]) suf
        (by simp [hi]) (by simp) (by simp [h3]) (by simp) (by rfl) (by simp [h6]) s' h
    · exact addLoop_count fuel _ _ (pre ++ [r]) (pre' ++ [r]) suf (by simp [h1]) (by simp) (by simp [h3])
        (by simp) (by rfl) (by simp [h6]) s' h

/-- Both rounds end; the inserting one fills the gaps of the range, and uses as many
slots as the counting one has found to be needed. -/
theorem addRound_spec {t : MemType} {base : Nat} (hord : Ordered t.regions)
    (ht : t.totalSize = (t.regions.map MemRegion.size).sum) (hbe : base < end_) :
    ∃ t0 t' nrNew, addRound false t base end_ = some (t0, nrNew) ∧
      addRound true t base end_ = some (t', nrNew) ∧ Ordered t'.regions ∧
      t'.regions.length = t.regions.length + nrNew ∧ t'.cover = t.cover ∪ Set.Ico base end_ ∧
      t'.totalSize = (t'.regions.map MemRegion.size).sum ∧ t'.max = t.max := by
  have hinv : AddInv t base end_ ⟨t, 0, base, 0⟩ [] t.regions :=
    ⟨rfl, rfl, hord, .inl (by simp), hbe.le, rfl, ht, rfl, rfl⟩
  obtain ⟨s, pre, suf, hs, h, hsuf⟩ := addLoop_spec (t.regions.length + 1) _ _ _ hinv (by omega)
  obtain ⟨c, hc, hcb, hcn⟩ := addLoop_count (t.regions.length + 1) _ ⟨t, 0, base, 0⟩ [] [] t.regions
    rfl rfl rfl rfl rfl rfl s hs
  simp only [addRound, hs, hc, Option.map_some, hcb, hcn]
  by_cases hb : s.base < end_
  · obtain ⟨i1, i2, i3⟩ :=
      memInsertRegion_spec s.base (end_ - s.base) h.regions h.total
    rw [← h.idx] at i1 i2 i3
    rw [Nat.add_sub_of_le hb.le] at i2
    simp only [if_pos hb, if_true]
    refine ⟨_, _, _, rfl, rfl, ?_, ?_, ?_, i3, h.max⟩
    · rw [i1]
      refine h.ordered.insert (Nat.sub_pos_of_lt hb) (h.reached.resolve_right hb.ne) fun q hq => ?_
      have := hsuf q hq
      simp only
      omega
    · have := h.count
      rw [i1, List.length_append, List.length_cons]
      rw [h.regions, List.length_append] at this
      omega
    · rw [i2, h.cover]
  · simp only [if_neg hb]
    refine ⟨_, _, _, rfl, rfl, h.regions ▸ h.ordered, h.count, ?_, h.total, h.max⟩
    have := h.cover
    rwa [Set.Ico_eq_empty hb, Set.union_empty] at this

theorem length_mergeFrom : ∀ {rest : List MemRegion} {this : MemRegion} {rs : List MemRegion},
    mergeFrom this rest = some rs → rs.length ≤ rest.length + 1
  | [], this, rs, h => by
    rw [← Option.some.inj h]
    exact le_refl 1
  | next :: rest, this, rs, h => by
    rw [mergeFrom] at h
    split_ifs at h
    · obtain ⟨rs', h', rfl⟩ := Option.map_eq_some_iff.1 h
      exact Nat.succ_le_succ (length_mergeFrom h')
    · exact (length_mergeFrom h).trans (Nat.le_succ _)

theorem memMergeRegions_spec {t : MemType} (hord : Ordered t.regions) (hne : t.regions ≠ [])
    (ht : t.totalSize = (t.regions.map MemRegion.size).sum) :
    ∃ t', memMergeRegions t = some t' ∧ t'.WF ∧ t'.cover = t.cover ∧ t'.max = t.max ∧
      t'.regions.length ≤ t.regions.length := by
  obtain ⟨this, rest, hreg⟩ := List.exists_cons_of_ne_nil hne
  rw [hreg] at hord ht
  obtain ⟨rs, h1, h2, h3, -, h5, h6⟩ := mergeFrom_spec rest this hord
  refine ⟨{ t with regions := rs }, ?_, ⟨.inr ⟨h2, h3⟩, ?_⟩, ?_, rfl, ?_⟩
  · simp only [memMergeRegions, hreg, h1, Option.map_some]
  · simp only [ht, h6]
  · simp only [MemType.cover, hreg, h5]
  · rw [hreg]
    exact length_mergeFrom h1

/-- The first range replaces the dummy entry. -/
theorem memAddRange_dummy {t : MemType} (base : Nat) {size : Nat} (hd : t.regions = [⟨0, 0⟩]) (hpos : 0 < size) :
    memAddRange t base size = some { t with regions := [⟨base, size⟩], totalSize := size } := by
  simp [memAddRange, hd, hpos.ne']

/-- On an array with regions there is a slot for each region the first round counts, or else `BUG`. -/
theorem memAddRange_eq {t : MemType} (base : Nat) {size : Nat} (hwf : t.WF) (hd : t.regions ≠ [⟨0, 0⟩]) (hpos : 0 < size) :
    ∃ t0 t' nrNew, addRound false t base (base + size) = some (t0, nrNew) ∧ t'.WF ∧
      t'.cover = t.cover ∪ Set.Ico base (base + size) ∧ t'.max = t.max ∧
      t'.regions.length ≤ t.regions.length + nrNew ∧
      memAddRange t base size = if t.max < t.regions.length + nrNew then none else some t' := by
  obtain ⟨hne, hc⟩ := hwf.regions.resolve_left hd
  obtain ⟨r, rest, hreg⟩ := List.exists_cons_of_ne_nil hne
  obtain ⟨t0, t1, nrNew, h1, h2, h3, h4, h5, h6, h7⟩ :=
    addRound_spec hc.ordered hwf.total (Nat.lt_add_of_pos_right hpos : base < base + size)
  have hrs : r.size ≠ 0 := by
    rw [hreg] at hc
    exact (canonical_cons.1 hc).2.1.ne'
  have hne1 : t1.regions ≠ [] := by
    rw [← List.length_pos_iff, h4, hreg, List.length_cons]
    omega
  obtain ⟨t2, e1, e2, e3, e4, e5⟩ := memMergeRegions_spec h3 hne1 h6
  refine ⟨t0, t2, nrNew, h1, e2, e3.trans h5, e4.trans h7, e5.trans h4.le, ?_⟩
  unfold memAddRange
  rw [if_neg hpos.ne', hreg]
  simp only [if_neg hrs, h1, h2, Option.bind_some, ← hreg, e1]

theorem wf_singleton {t : MemType} (base : Nat) {size : Nat} (hd : t.regions = [⟨0, 0⟩]) (hpos : 0 < size) :
    MemType.WF { t with regions := [⟨base, size⟩], totalSize := size } ∧
      MemType.cover { t with regions := [⟨base, size⟩], totalSize := size } = t.cover ∪ Set.Ico base (base + size) := by
  refine ⟨⟨.inr ⟨by simp, canonical_singleton hpos⟩, by simp⟩, ?_⟩
  simp [MemType.cover, hd, MemRegion.range]

theorem memAddRange_spec {t : MemType} {base size : Nat} (hwf : t.WF) (hs : AddSlots t base size) :
    ∃ t', memAddRange t base size = some t' ∧ t'.WF ∧
      t'.cover = t.cover ∪ Set.Ico base (base + size) ∧ t'.max = t.max := by
  rcases Nat.eq_zero_or_pos size with rfl | hpos
  · exact ⟨t, by simp [memAddRange], hwf, by simp, rfl⟩
  by_cases hd : t.regions = [⟨0, 0⟩]
  · obtain ⟨h1, h2⟩ := wf_singleton base hd hpos
    exact ⟨_, memAddRange_dummy base hd hpos, h1, h2, rfl⟩
  · obtain ⟨t0, t', nrNew, h1, h2, h3, h4, -, h6⟩ := memAddRange_eq base hwf hd hpos
    refine ⟨t', ?_, h2, h3, h4⟩
    rw [h6, if_neg (not_lt.2 (hs t0 nrNew h1))]

/-- What is true of an array after `mem_add_range` has returned. -/
theorem memAddRange_some {t t' : MemType} {base size : Nat} (hwf : t.WF) (h : memAddRange t base size = some t') :
    t'.WF ∧ t'.cover = t.cover ∪ Set.Ico base (base + size) ∧ t'.max = t.max ∧
      (t'.regions.length ≤ t.regions.length ∨ t'.regions.length ≤ t.max) := by
  rcases Nat.eq_zero_or_pos size with rfl | hpos
  · obtain rfl : t = t' := by simpa [memAddRange] using h
    exact ⟨hwf, by simp, rfl, .inl le_rfl⟩
  by_cases hd : t.regions = [⟨0, 0⟩]
  · rw [memAddRange_dummy base hd hpos] at h
    obtain ⟨h1, h2⟩ := wf_singleton base hd hpos
    rw [← Option.some.inj h]
    exact ⟨h1, h2, rfl, .inl (by simp [hd])⟩
  · obtain ⟨t0, t1, nrNew, -, h2, h3, h4, h5, h6⟩ := memAddRange_eq base hwf hd hpos
    rw [h6] at h
    split_ifs at h with hslots
    rw [← Option.some.inj h]
    exact ⟨h2, h3, h4, .inr (h5.trans (not_lt.1 hslots))⟩

end Sdfirm.Mem
