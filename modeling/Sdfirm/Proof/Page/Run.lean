import Sdfirm.Proof.Page.Insert

/-!
# Runs of the page allocator

`Step.inv`: a step that meets `Regular` keeps the list coalesced and
conserves the pages. `pages_conserved_of_regular`: so do runs of such steps.
`pages_not_conserved`: without `Regular` they need not, because a page at
address 0 is `NULL` to the list walks, and because `page_nr` is cut to an
`int`.
-/

namespace Sdfirm.Page

open Framework

/-- Conservation, and the alignment of the nodes and of their ends. -/
structure Inv (pageShift : Nat) (y : Sys) : Prop extends Conserved y where
  aligned : ∀ q ∈ y.state.free, 2 ^ pageShift ∣ q ∧ 2 ^ pageShift ∣ y.state.endOf q

theorem Conserved.coalesced {y : Sys} (h : Conserved y) : Coalesced y.state.endOf y.state.free :=
  ⟨h.separated, h.proper⟩

theorem mem_free_of_mem {s : PageState} {q x : Nat} (hq : q ∈ s.free) (h1 : q ≤ x) (h2 : x < s.endOf q) :
    x ∈ Range.cover s.ranges :=
  Range.mem_cover.2 ⟨⟨q, s.endOf q⟩,
    List.mem_map_of_mem (f := fun p => (⟨p, s.endOf p⟩ : Range Nat)) hq, h1, h2⟩

/-! ## Putting a range back -/

/-- A range that is put into the list: what `page_alloc_init`, `page_free_pages` and the
split of `page_alloc_pages` share. -/
theorem insert_range {s : PageState} {p e d : Nat} (hc : Coalesced s.endOf s.free)
    (ha : ∀ q ∈ s.free, d ∣ q ∧ d ∣ s.endOf q) (hpe : p < e) (hp : d ∣ p) (he : d ∣ e)
    (hd : Disjoint (Range.cover s.ranges) (Set.Ico p e)) (hi : CanInsert s p) :
    ∃ s', pageInsert ⟨s.free, Function.update s.endOf p e⟩ p = some s' ∧ Coalesced s'.endOf s'.free ∧
      (∀ q ∈ s'.free, d ∣ q ∧ d ∣ s'.endOf q) ∧
      Range.cover s'.ranges = Range.cover s.ranges ∪ Set.Ico p e := by
  have hpf : p ∉ s.free := fun h =>
    Set.disjoint_left.1 hd (mem_free_of_mem h le_rfl (hc.lt h)) ⟨le_rfl, hpe⟩
  have hupd : ∀ q ∈ s.free, Function.update s.endOf p e q = s.endOf q := by
    intro q hq
    have hne : q ≠ p := fun h => hpf (h ▸ hq)
    exact Function.update_of_ne hne _ _
  have hfresh : Fresh ⟨s.free, Function.update s.endOf p e⟩ p := by
    refine ⟨by simpa using hpe, fun q hq => ?_⟩
    have hsub : Set.Ico q (s.endOf q) ⊆ Range.cover s.ranges := fun x hx =>
      mem_free_of_mem hq hx.1 hx.2
    have hlt := hc.lt hq
    have := Set.Ico_disjoint_Ico.1 (hd.mono_left hsub)
    simp only [hupd q hq, Function.update_self]
    omega
  obtain ⟨s', h1, h2⟩ := pageInsert_spec (hc.update hpf) hfresh
    (fun h q hq => by simpa only [hupd q hq] using hi h q hq)
  have hranges : PageState.ranges ⟨s.free, Function.update s.endOf p e⟩ = s.ranges := rangesOf_update hpf
  refine ⟨s', h1, h2.coalesced, fun q hq => ⟨?_, ?_⟩, ?_⟩
  · rcases h2.nodes q hq with h | rfl
    · exact (ha q h).1
    · exact hp
  · obtain ⟨r, hr, heq⟩ := h2.ends q hq
    rw [heq]
    by_cases hrp : r = p
    · simpa [hrp] using he
    · simpa only [Function.update_of_ne hrp] using (ha r (hr.resolve_right hrp)).2
  · simpa only [hranges, Function.update_self] using h2.cover

/-! ## What `page_alloc_pages` takes -/

variable {pageShift : Nat}

theorem allocLoop_eq (s : PageState) (n : Nat) : ∀ l : List Nat, allocLoop pageShift s n l =
    match firstFit pageShift s n l with
    | none => some (0, s)
    | some p =>
      if pageNr pageShift s p = n then some (p, { s with free := s.free.erase p })
      else (pageInsert ⟨s.free.erase p,
        Function.update s.endOf (pageOffset pageShift p n) (s.endOf p)⟩ (pageOffset pageShift p n)).map (p, ·)
  | [] => rfl
  | p :: l => by
    rw [allocLoop]
    by_cases h0 : p = 0
    · simp [h0, firstFit]
    · rw [if_neg h0, firstFit, List.takeWhile_cons_of_pos (by simpa using h0)]
      by_cases hle : (n : Int) ≤ pageNr pageShift s p
      · rw [List.find?_cons_of_pos (by simpa using hle)]
        by_cases h1 : pageNr pageShift s p = n
        · simp only [if_pos h1]
        · simp only [if_neg h1, if_pos (lt_of_le_of_ne hle (Ne.symm h1))]
      · rw [List.find?_cons_of_neg (by simpa using hle), ← firstFit, ← allocLoop_eq s n l]
        simp only [if_neg fun h : pageNr pageShift s p = n => hle h.ge,
          if_neg fun h : (n : Int) < pageNr pageShift s p => hle h.le]

theorem picked_mem {s : PageState} {n p : Nat} (h : picked pageShift s n = some p) :
    p ∈ s.free ∧ p ≠ 0 ∧ (n : Int) ≤ pageNr pageShift s p := by
  have hmem := List.mem_of_find?_eq_some h
  refine ⟨(List.takeWhile_sublist _).subset hmem, ?_, by simpa using List.find?_some h⟩
  simpa using List.mem_takeWhile_imp hmem

/-- A node at address 0 is the first of the list, and then no range is seen. -/
theorem zero_not_mem_of_picked {s : PageState} {n p : Nat} (hc : Coalesced s.endOf s.free)
    (h : picked pageShift s n = some p) : 0 ∉ s.free := by
  intro h0
  cases hfree : s.free with
  | nil => simp [hfree] at h0
  | cons a l =>
    rw [hfree] at hc h0
    have ha : a = 0 := by
      obtain ⟨h1, h2, -⟩ := coalesced_cons.1 hc
      rcases List.mem_cons.1 h0 with h | h
      · exact h.symm
      · exact absurd (h2 0 h) (Nat.not_lt_zero _)
    simp [picked, firstFit, hfree, ha] at h

theorem pageOffset_eq (p n : Nat) : pageOffset pageShift p n = p + n * 2 ^ pageShift := by
  rw [pageOffset, Nat.shiftLeft_eq]

/-- The pages of an aligned range, and what `page_nr` makes of their number. -/
theorem endOf_eq_of_aligned {s : PageState} {p : Nat} (hp : 2 ^ pageShift ∣ p)
    (he : 2 ^ pageShift ∣ s.endOf p) (hlt : p ≤ s.endOf p) :
    s.endOf p = pageOffset pageShift p ((s.endOf p - p) >>> pageShift) := by
  rw [pageOffset_eq, Nat.shiftRight_eq_div_pow, Nat.div_mul_cancel (Nat.dvd_sub he hp)]
  omega

theorem pageNr_le (pageShift : Nat) (s : PageState) (p : Nat) :
    pageNr pageShift s p ≤ ((s.endOf p - p) >>> pageShift : Nat) := by
  unfold pageNr
  generalize (s.endOf p - p) >>> pageShift = k
  unfold Int.bmod
  simp only
  split <;> omega

theorem aligned_pageOffset {p n : Nat} (hp : 2 ^ pageShift ∣ p) :
    2 ^ pageShift ∣ pageOffset pageShift p n := by
  rw [pageOffset_eq]
  exact (Nat.dvd_add_right hp).2 (Nat.dvd_mul_left _ _)

/-- Unlinking a node takes its range out. -/
theorem erase_range {s : PageState} {p : Nat} (hc : Coalesced s.endOf s.free) (hp : p ∈ s.free) :
    Coalesced s.endOf (s.free.erase p) ∧
      Range.cover s.ranges = Range.cover (rangesOf s.endOf (s.free.erase p)) ∪ Set.Ico p (s.endOf p) ∧
      Disjoint (Range.cover (rangesOf s.endOf (s.free.erase p))) (Set.Ico p (s.endOf p)) := by
  obtain ⟨l, k, hfree⟩ := List.append_of_mem hp
  rw [hfree] at hc
  obtain ⟨h1, h2, h3, h4, h5, h6, h7⟩ := coalesced_split hc
  have herase : s.free.erase p = l ++ k := by rw [hfree, erase_append_cons k h4]
  rw [herase, PageState.ranges, hfree]
  refine ⟨coalesced_append.2 ⟨h6, h7, fun a ha b hb => ?_⟩, ?_, ?_⟩
  · exact (coalesced_append.1 hc).2.2 a ha b (by simp [hb])
  · simp only [rangesOf_append, rangesOf_cons, Range.cover_insert]
  · refine Set.disjoint_left.2 fun x hx hxp => ?_
    obtain ⟨r, hr, hx1, hx2⟩ := Range.mem_cover.1 hx
    obtain ⟨q, hq, rfl⟩ := List.mem_map.1 hr
    simp only at hx1 hx2
    have hxp1 := hxp.1
    have hxp2 := hxp.2
    rcases List.mem_append.1 hq with hq | hq
    · have := h2 q hq
      omega
    · have := h3 q hq
      omega

/-- What an allocation gives: nothing, or `n` pages taken out of the free ones. -/
theorem pageAllocPages_spec {s : PageState} {n : Nat} (hn : 1 ≤ n) (hc : Coalesced s.endOf s.free)
    (ha : ∀ q ∈ s.free, 2 ^ pageShift ∣ q ∧ 2 ^ pageShift ∣ s.endOf q)
    (hreg : ∀ p, picked pageShift s n = some p → pageNr pageShift s p = n →
      s.endOf p = pageOffset pageShift p n) :
    pageAllocPages pageShift s n = some (0, s) ∨
      ∃ p s', pageAllocPages pageShift s n = some (p, s') ∧ p ≠ 0 ∧ Coalesced s'.endOf s'.free ∧
        (∀ q ∈ s'.free, 2 ^ pageShift ∣ q ∧ 2 ^ pageShift ∣ s'.endOf q) ∧
        Range.cover s.ranges = Range.cover s'.ranges ∪ pages pageShift p n ∧
        Disjoint (Range.cover s'.ranges) (pages pageShift p n) := by
  rw [pageAllocPages, if_neg (by omega), allocLoop_eq s n s.free, ← picked]
  cases hpick : picked pageShift s n with
  | none => exact .inl rfl
  | some p =>
    right
    obtain ⟨hp, hp0, hle⟩ := picked_mem hpick
    obtain ⟨e1, e2, e3⟩ := erase_range hc hp
    have hlt := hc.lt hp
    have hae : ∀ q ∈ s.free.erase p, 2 ^ pageShift ∣ q ∧ 2 ^ pageShift ∣ s.endOf q :=
      fun q hq => ha q (List.mem_of_mem_erase hq)
    by_cases hnr : pageNr pageShift s p = n
    · simp only [if_pos hnr]
      have hend := hreg p hpick hnr
      refine ⟨p, _, rfl, hp0, e1, hae, ?_, ?_⟩
      · rw [pages, ← hend]; exact e2
      · rw [pages, ← hend]; exact e3
    · simp only [if_neg hnr]
      -- the range has more than `n` pages, whatever the cut to an `int` has made of their number
      have hk : n < (s.endOf p - p) >>> pageShift := by
        have := pageNr_le pageShift s p
        omega
      have hend := endOf_eq_of_aligned (ha p hp).1 (ha p hp).2 hlt.le
      have hmid : pageOffset pageShift p n < s.endOf p := by
        rw [hend, pageOffset_eq, pageOffset_eq]
        have := Nat.mul_lt_mul_of_pos_right hk (Nat.two_pow_pos pageShift)
        omega
      have hlow : p ≤ pageOffset pageShift p n := by
        rw [pageOffset_eq]
        omega
      have hcan : CanInsert ⟨s.free.erase p, s.endOf⟩ (pageOffset pageShift p n) := fun h =>
        absurd (List.mem_of_mem_erase h) (zero_not_mem_of_picked hc hpick)
      obtain ⟨s', h1, h2, h3, h4⟩ := insert_range (s := ⟨s.free.erase p, s.endOf⟩) e1 hae hmid
        (aligned_pageOffset (ha p hp).1) (ha p hp).2
        (e3.mono_right (Set.Ico_subset_Ico_left hlow)) hcan
      refine ⟨p, s', by rw [h1]; rfl, hp0, h2, h3, ?_, ?_⟩
      · rw [h4, e2, ← Set.Ico_union_Ico_eq_Ico hlow hmid.le, pages]
        change _ = Range.cover (rangesOf s.endOf (s.free.erase p)) ∪ _ ∪ _
        ac_rfl
      · rw [h4, pages, Set.disjoint_union_left]
        refine ⟨e3.mono_right (Set.Ico_subset_Ico_right hmid.le), ?_⟩
        exact Set.disjoint_left.2 fun x h1 h2 => absurd h2.2 (not_lt.2 h1.1)

/-! ## Steps and runs -/

variable {y y' : Sys} {op : Op}

theorem Conserved.free_subset (h : Conserved y) : y.free ⊆ y.total := h.all ▸ Set.subset_union_left

theorem Conserved.held_subset (h : Conserved y) : y.held ⊆ y.total := h.all ▸ Set.subset_union_right

theorem aligned_alignUp (x : Nat) : 2 ^ pageShift ∣ alignUp x (2 ^ pageShift) := Nat.dvd_mul_left _ _

theorem aligned_alignDown (x : Nat) : 2 ^ pageShift ∣ alignDown x (2 ^ pageShift) := Nat.dvd_mul_left _ _

theorem lt_pageOffset (p : Nat) {n : Nat} (hn : n ≠ 0) : p < pageOffset pageShift p n := by
  rw [pageOffset_eq]
  have := Nat.mul_pos (Nat.pos_of_ne_zero hn) (Nat.two_pow_pos pageShift)
  omega

/-- A range handed over joins the free ones. -/
theorem init_inv (h : Inv pageShift y) {base size : Nat}
    (hne : (wholePages pageShift base size).Nonempty)
    (hd : Disjoint (wholePages pageShift base size) y.total)
    (hr : Regular pageShift y (.init base size)) :
    ∃ s, pageAllocInit pageShift y.state base size = some s ∧
      Inv pageShift ⟨s, y.total ∪ wholePages pageShift base size, y.held⟩ := by
  obtain ⟨s, h1, h2, h3, h4⟩ := insert_range h.coalesced h.aligned (Set.nonempty_Ico.1 hne)
    (aligned_alignUp base) (aligned_alignDown _) (hd.symm.mono_left h.free_subset) hr
  refine ⟨s, h1, ⟨h2.separated, h2.proper, ?_, ?_⟩, h3⟩
  · rw [Sys.free, h4, Set.disjoint_union_left]
    exact ⟨h.disjoint, hd.mono_right h.held_subset⟩
  · rw [Sys.free, h4, ← h.all, wholePages, Sys.free]
    ac_rfl

/-- Held pages that are freed join the free ones. -/
theorem free_inv (h : Inv pageShift y) {p n : Nat} (hp : 2 ^ pageShift ∣ p)
    (hh : pages pageShift p n ⊆ y.held) (hr : Regular pageShift y (.free p n)) :
    ∃ s, pageFreePages pageShift y.state p n = some s ∧
      Inv pageShift ⟨s, y.total, y.held \ pages pageShift p n⟩ := by
  by_cases hn : n = 0
  · have hempty : pages pageShift p n = ∅ := by simp [pages, hn, pageOffset_eq]
    refine ⟨y.state, by rw [pageFreePages, if_pos hn], ?_⟩
    rw [hempty, Set.sdiff_empty]
    exact h
  · obtain ⟨s, h1, h2, h3, h4⟩ := insert_range h.coalesced h.aligned (lt_pageOffset p hn) hp
      (aligned_pageOffset hp) (h.disjoint.mono_right hh) (hr hn)
    refine ⟨s, by rw [pageFreePages, if_neg hn, h1], ⟨h2.separated, h2.proper, ?_, ?_⟩, h3⟩
    · rw [Sys.free, h4, Set.disjoint_union_left]
      exact ⟨h.disjoint.mono_right Set.sdiff_subset, Set.disjoint_sdiff_right⟩
    · rw [Sys.free, h4, Set.union_assoc]
      change y.free ∪ (pages pageShift p n ∪ y.held \ pages pageShift p n) = y.total
      rw [Set.union_sdiff_cancel hh, h.all]

/-- A store to a held page does not reach the nodes of the list. -/
theorem store_inv (h : Inv pageShift y) {p v : Nat} (hp : p ∈ y.held) :
    Inv pageShift ⟨⟨y.state.free, Function.update y.state.endOf p v⟩, y.total, y.held⟩ := by
  have hpf : p ∉ y.state.free := fun hm =>
    Set.disjoint_left.1 h.disjoint (mem_free_of_mem hm le_rfl (h.coalesced.lt hm)) hp
  have hranges : PageState.ranges ⟨y.state.free, Function.update y.state.endOf p v⟩ = y.state.ranges :=
    rangesOf_update hpf
  refine ⟨⟨?_, ?_, ?_, ?_⟩, fun q hq => ?_⟩
  · rw [hranges]; exact h.separated
  · rw [hranges]; exact h.proper
  · rw [Sys.free, hranges]; exact h.disjoint
  · rw [Sys.free, hranges]; exact h.all
  · have hne : q ≠ p := fun e => hpf (e ▸ hq)
    simpa only [Function.update_of_ne hne] using h.aligned q hq

theorem alloc_inv (h : Inv pageShift y) {n p : Nat} {s : PageState} (hn : 1 ≤ n)
    (hr : Regular pageShift y (.alloc n)) (ha : pageAllocPages pageShift y.state n = some (p, s)) :
    (p = 0 → Inv pageShift ⟨s, y.total, y.held⟩) ∧
      (p ≠ 0 → Inv pageShift ⟨s, y.total, y.held ∪ pages pageShift p n⟩) := by
  rcases pageAllocPages_spec hn h.coalesced h.aligned hr with h0 | ⟨p', s', h1, h2, h3, h4, h5, h6⟩
  · cases h0.symm.trans ha
    exact ⟨fun _ => h, fun hne => absurd rfl hne⟩
  · cases h1.symm.trans ha
    refine ⟨fun e => absurd e h2, fun _ => ⟨⟨h3.separated, h3.proper, ?_, ?_⟩, h4⟩⟩
    · rw [Set.disjoint_union_right]
      refine ⟨h.disjoint.mono_left ?_, h6⟩
      rw [Sys.free, Sys.free, h5]
      exact Set.subset_union_left
    · change Range.cover s.ranges ∪ (y.held ∪ pages pageShift p n) = y.total
      rw [← h.all, Sys.free, h5]
      ac_rfl

/-- One step. -/
theorem Step.inv (h : Inv pageShift y) (hr : Regular pageShift y op) (hs : Step pageShift y op y') :
    Inv pageShift y' := by
  cases hs with
  | init h1 h2 h3 =>
    obtain ⟨s, e, hi⟩ := init_inv h h2 h3 hr
    cases e.symm.trans h1
    exact hi
  | alloc h1 h2 h3 h4 => exact (alloc_inv h h1 hr h3).2 h4
  | allocFails h1 h2 h3 => exact (alloc_inv h h1 hr h3).1 rfl
  | free h1 h2 h3 =>
    obtain ⟨s, e, hi⟩ := free_inv h h1 h2 hr
    cases e.symm.trans h3
    exact hi
  | store h1 => exact store_inv h h1

theorem start_inv (endOf : Nat → Nat) : Inv pageShift ⟨⟨[], endOf⟩, ∅, ∅⟩ := by
  refine ⟨⟨Range.separated_nil, Range.proper_nil, ?_, ?_⟩, by simp⟩
  · exact Set.disjoint_empty _
  · simp [Sys.free, PageState.ranges]

theorem Run.inv (h : Run pageShift (Regular pageShift) y) : Inv pageShift y := by
  induction h with
  | start endOf => exact start_inv endOf
  | step op _ hr hs ih => exact hs.inv ih hr

/-- In such runs every regular call returns: the body that `goto again` repeats ends within
its bound. -/
theorem Run.returns (h : Run pageShift (Regular pageShift) y) :
    (∀ base size, (wholePages pageShift base size).Nonempty →
      Disjoint (wholePages pageShift base size) y.total → Regular pageShift y (.init base size) →
      ∃ s, pageAllocInit pageShift y.state base size = some s) ∧
    (∀ n, 1 ≤ n → Regular pageShift y (.alloc n) →
      ∃ r, pageAllocPages pageShift y.state n = some r) ∧
    ∀ p n, 2 ^ pageShift ∣ p → pages pageShift p n ⊆ y.held → Regular pageShift y (.free p n) →
      ∃ s, pageFreePages pageShift y.state p n = some s := by
  refine ⟨fun base size h1 h2 hr => ?_, fun n hn hr => ?_, fun p n h1 h2 hr => ?_⟩
  · obtain ⟨s, hs, -⟩ := init_inv h.inv h1 h2 hr
    exact ⟨s, hs⟩
  · rcases pageAllocPages_spec hn h.inv.coalesced h.inv.aligned hr with h0 | ⟨p, s, h1, -⟩
    · exact ⟨_, h0⟩
    · exact ⟨_, h1⟩
  · obtain ⟨s, hs, -⟩ := free_inv h.inv h1 h2 hr
    exact ⟨s, hs⟩

/-- The first range that is handed over. -/
theorem returns_first : ∃ s, pageAllocInit 12 ⟨[], fun _ => 0⟩ 0x1000 0x3000 = some s :=
  (Run.returns (.start fun _ => 0)).1 0x1000 0x3000 (Set.nonempty_Ico.2 (by decide)) (by simp)
    (by simp [Regular, CanInsert])

/-- In runs whose steps are regular the list stays sorted and coalesced, and the pages
are conserved. -/
theorem pages_conserved_of_regular (h : Run pageShift (Regular pageShift) y) : Conserved y :=
  h.inv.toConserved

/-- A range of three pages is handed over and its first page is allocated. -/
theorem pages_conserved_alloc_one :
    ∃ y, Run 12 (Regular 12) y ∧ y.state.free = [0x2000] ∧ Conserved y := by
  have r0 : Run 12 (Regular 12) ⟨⟨[], fun _ => 0⟩, ∅, ∅⟩ := .start _
  have r1 := r0.step (.init 0x1000 0x3000) (by simp [Regular, CanInsert])
    (.init rfl (Set.nonempty_Ico.2 (by decide)) (by simp))
  have r2 := r1.step (.alloc 1) (fun p hp hn => ?_) (.alloc (by decide) (by decide) rfl (by decide))
  · exact ⟨_, r2, rfl, pages_conserved_of_regular r2⟩
  · cases hp
    exact absurd hn (by decide)

/-- What becomes of the pages when steps need not be regular. A page at address 0 hides the
list from the walk, so that a range touching it is not coalesced; and of a range of
`2 ^ 32 + 1` pages, which `page_nr` takes for 1 page, the caller gets 1 and the others are lost. -/
theorem pages_not_conserved :
    (∃ y, Run 12 (fun _ _ => True) y ∧ y.state.free = [0, 0x1000] ∧ y.state.endOf 0 = 0x1000 ∧
      ¬ Conserved y) ∧
    ∃ y, Run 12 (fun _ _ => True) y ∧ y.state.free = [] ∧ 0x1000 ∈ y.held ∧ 0x2000 ∈ y.total ∧
      0x2000 ∉ y.held ∧ ¬ Conserved y := by
  have r0 : Run 12 (fun _ _ => True) ⟨⟨[], fun _ => 0⟩, ∅, ∅⟩ := .start _
  refine ⟨?_, ?_⟩
  · have r1 := r0.step (.init 0 0x1000) trivial
      (.init rfl (Set.nonempty_Ico.2 (by decide)) (by simp))
    have r2 := r1.step (.init 0x1000 0x1000) trivial
      (.init rfl (Set.nonempty_Ico.2 (by decide)) (by simp [wholePages, alignUp, alignDown]))
    refine ⟨_, r2, rfl, rfl, fun h => ?_⟩
    have hsep := (Range.separated_cons.1 h.separated).1 ⟨0x1000, 0x2000⟩ (List.mem_singleton.2 rfl)
    exact absurd hsep (by decide)
  · have r1 := r0.step (.init 0x1000 ((2 ^ 32 + 1) * 0x1000)) trivial
      (.init rfl (Set.nonempty_Ico.2 (by decide)) (by simp))
    have r2 := r1.step (.alloc 1) trivial (.alloc (by decide) (by decide) rfl (by decide))
    have htotal : 0x2000 ∈ (∅ ∪ wholePages 12 0x1000 ((2 ^ 32 + 1) * 0x1000) : Set Nat) :=
      .inr ⟨by decide, by decide⟩
    have hheld : 0x2000 ∉ (∅ ∪ pages 12 0x1000 1 : Set Nat) := fun h =>
      h.elim id fun h => absurd h.2 (by decide)
    refine ⟨_, r2, rfl, .inr ⟨by decide, by decide⟩, htotal, hheld, fun h => ?_⟩
    have hall := h.all
    rw [Set.ext_iff] at hall
    rcases (hall 0x2000).2 htotal with hf | hf
    · exact absurd hf (by simp [Sys.free, PageState.ranges])
    · exact hheld hf

end Sdfirm.Page
