import Sdfirm.Spec.Mem

/-!
# `page_insert`

`pageInsert_spec`: a range put into a sorted and coalesced list, apart from
the list's ranges, leaves a sorted and coalesced list that covers it too. The
walk is followed node by node (`insertLoop_spec`), with one lemma for each
way it can end: joined to the node before it (`join_before`), to that node
and the next (`join_both`), to the node after it (`join_after`), or to none
(`link_before`).
-/

namespace Sdfirm.Page

open Framework

/-! ## Sorted and coalesced lists -/

/-- The ranges of the nodes `l` are sorted, not empty and do not touch. -/
structure Coalesced (f : Nat → Nat) (l : List Nat) : Prop where
  separated : Range.Separated (rangesOf f l)
  proper : Range.Proper (rangesOf f l)

@[simp] theorem rangesOf_nil (f : Nat → Nat) : rangesOf f [] = [] := rfl

@[simp] theorem rangesOf_cons (f : Nat → Nat) (a : Nat) (l : List Nat) :
    rangesOf f (a :: l) = ⟨a, f a⟩ :: rangesOf f l := rfl

@[simp] theorem rangesOf_append (f : Nat → Nat) (l k : List Nat) :
    rangesOf f (l ++ k) = rangesOf f l ++ rangesOf f k := List.map_append

@[simp] theorem forall_mem_rangesOf {f : Nat → Nat} {l : List Nat} {p : Range Nat → Prop} :
    (∀ r ∈ rangesOf f l, p r) ↔ ∀ a ∈ l, p ⟨a, f a⟩ := List.forall_mem_map

theorem rangesOf_update {f : Nat → Nat} {l : List Nat} {a v : Nat} (h : a ∉ l) :
    rangesOf (Function.update f a v) l = rangesOf f l := by
  refine List.map_congr_left fun b hb => ?_
  have hne : b ≠ a := fun e => h (e ▸ hb)
  rw [Function.update_of_ne hne]

variable {f : Nat → Nat} {a v : Nat} {l k : List Nat}

theorem coalesced_cons :
    Coalesced f (a :: l) ↔ a < f a ∧ (∀ b ∈ l, f a < b) ∧ Coalesced f l := by
  constructor
  · rintro ⟨h1, h2⟩
    simp only [rangesOf_cons, Range.separated_cons, forall_mem_rangesOf, Range.proper_cons] at h1 h2
    exact ⟨h2.1, h1.1, h1.2, h2.2⟩
  · rintro ⟨h1, h2, h3⟩
    refine ⟨?_, ?_⟩
    · simpa [Range.separated_cons] using ⟨h2, h3.separated⟩
    · simpa using ⟨h1, h3.proper⟩

theorem coalesced_append :
    Coalesced f (l ++ k) ↔ Coalesced f l ∧ Coalesced f k ∧ ∀ a ∈ l, ∀ b ∈ k, f a < b := by
  constructor
  · rintro ⟨h1, h2⟩
    simp only [rangesOf_append, Range.separated_append, forall_mem_rangesOf, Range.proper_append] at h1 h2
    exact ⟨⟨h1.1, h2.1⟩, ⟨h1.2.1, h2.2⟩, h1.2.2⟩
  · rintro ⟨h1, h2, h3⟩
    refine ⟨?_, ?_⟩
    · simpa [Range.separated_append] using ⟨h1.separated, h2.separated, h3⟩
    · simpa using ⟨h1.proper, h2.proper⟩

theorem Coalesced.update (h : Coalesced f l) (ha : a ∉ l) : Coalesced (Function.update f a v) l := by
  refine ⟨?_, ?_⟩
  · rw [rangesOf_update ha]; exact h.separated
  · rw [rangesOf_update ha]; exact h.proper

theorem Coalesced.lt (h : Coalesced f l) (ha : a ∈ l) : a < f a :=
  h.proper ⟨a, f a⟩ (List.mem_map_of_mem (f := fun p => (⟨p, f p⟩ : Range Nat)) ha)

/-- The node `a` and what stands before and after it. -/
theorem coalesced_split (h : Coalesced f (l ++ a :: k)) :
    a < f a ∧ (∀ b ∈ l, f b < a) ∧ (∀ b ∈ k, f a < b) ∧ a ∉ l ∧ a ∉ k ∧ Coalesced f l ∧ Coalesced f k := by
  obtain ⟨h1, h2, h3⟩ := coalesced_append.1 h
  obtain ⟨h4, h5, h6⟩ := coalesced_cons.1 h2
  have hl : ∀ b ∈ l, f b < a := fun b hb => h3 b hb a (by simp)
  refine ⟨h4, hl, h5, fun ha => ?_, fun ha => ?_, h1, h6⟩
  · have := hl a ha
    omega
  · have := h5 a ha
    omega

/-- Replacing the end of one node. -/
theorem Coalesced.update_split (h : Coalesced f (l ++ a :: k)) (hv : a < v) (hk : ∀ b ∈ k, v < b) :
    Coalesced (Function.update f a v) (l ++ a :: k) := by
  obtain ⟨-, h2, -, h4, h5, h6, h7⟩ := coalesced_split h
  have hself : Function.update f a v a = v := Function.update_self a v f
  refine coalesced_append.2 ⟨h6.update h4, coalesced_cons.2 ⟨?_, ?_, h7.update h5⟩, ?_⟩
  · rw [hself]; exact hv
  · rw [hself]; exact hk
  · intro b hb c hc
    have hne : b ≠ a := fun e => h4 (e ▸ hb)
    rw [Function.update_of_ne hne]
    exact (coalesced_append.1 h).2.2 b hb c hc

/-! ## The ways an insertion ends -/

/-- `s'` is the coalesced list `s` with the range of the node `p` put in. -/
structure Inserted (s s' : PageState) (p : Nat) : Prop where
  coalesced : Coalesced s'.endOf s'.free
  cover : Range.cover s'.ranges = Range.cover s.ranges ∪ Set.Ico p (s.endOf p)
  nodes : ∀ q ∈ s'.free, q ∈ s.free ∨ q = p
  ends : ∀ q ∈ s'.free, ∃ r, (r ∈ s.free ∨ r = p) ∧ s'.endOf q = s.endOf r

/-- What is known of a range about to be put in: it is not empty and apart from the
ranges of the list. -/
structure Fresh (s : PageState) (p : Nat) : Prop where
  proper : p < s.endOf p
  apart : ∀ q ∈ s.free, s.endOf q ≤ p ∨ s.endOf p ≤ q

variable {s : PageState} {p curr nx : Nat} {pre rest : List Nat}

theorem ends_update {v r : Nat} (hr : r ∈ s.free ∨ r = p)
    (hv : v = s.endOf r) {k : List Nat} (hk : ∀ q ∈ k, q ∈ s.free ∨ q = p) :
    ∀ q ∈ k, ∃ r, (r ∈ s.free ∨ r = p) ∧ Function.update s.endOf curr v q = s.endOf r := by
  intro q hq
  by_cases hqc : q = curr
  · exact ⟨r, hr, by rw [hqc, Function.update_self, hv]⟩
  · exact ⟨q, hk q hq, by rw [Function.update_of_ne hqc]⟩

/-- The range continues the node before it, and the next node is not reached. -/
theorem join_before (hfree : s.free = pre ++ curr :: rest) (hc : Coalesced s.endOf s.free)
    (hp : Fresh s p) (hcp : p = s.endOf curr) (hrest : ∀ b ∈ rest, s.endOf p < b) :
    Inserted s ⟨s.free, Function.update s.endOf curr (s.endOf p)⟩ p := by
  rw [hfree] at hc
  obtain ⟨h1, h2, h3, h4, h5, h6, h7⟩ := coalesced_split hc
  have hpe := hp.proper
  refine ⟨?_, ?_, fun q hq => .inl hq, ?_⟩
  · rw [hfree]
    exact hc.update_split (by omega) hrest
  · simp only [PageState.ranges, hfree, rangesOf_append, rangesOf_cons, rangesOf_update h4,
      rangesOf_update h5, Function.update_self]
    simp only [Range.cover_append, Range.cover_cons, ← hcp]
    rw [← Set.Ico_union_Ico_eq_Ico (show curr ≤ p by omega) hpe.le]
    ac_rfl
  · exact ends_update (.inr rfl) rfl fun q hq => .inl hq

/-- The range fills the gap between two nodes, and the second is unlinked. -/
theorem join_both (hfree : s.free = pre ++ curr :: nx :: rest) (hc : Coalesced s.endOf s.free)
    (hp : Fresh s p) (hcp : p = s.endOf curr) (hpn : s.endOf p = nx) :
    Inserted s ⟨pre ++ curr :: rest, Function.update s.endOf curr (s.endOf nx)⟩ p := by
  rw [hfree] at hc
  obtain ⟨h1, h2, h3, h4, h5, h6, h7⟩ := coalesced_split hc
  obtain ⟨h8, h9, h10⟩ := coalesced_cons.1 h7
  have hpe := hp.proper
  have hnr : curr ∉ rest := fun h => h5 (by simp [h])
  have hc' : Coalesced s.endOf (pre ++ curr :: rest) := by
    refine coalesced_append.2 ⟨h6, coalesced_cons.2 ⟨h1, fun b hb => h3 b (by simp [hb]), h10⟩, ?_⟩
    intro a ha b hb
    refine (coalesced_append.1 hc).2.2 a ha b ?_
    rcases List.mem_cons.1 hb with rfl | hb
    · simp
    · simp [hb]
  have hmem : ∀ q ∈ pre ++ curr :: rest, q ∈ s.free ∨ q = p := by
    intro q hq
    rw [hfree]
    simp only [List.mem_append, List.mem_cons] at hq ⊢
    tauto
  refine ⟨?_, ?_, hmem, ?_⟩
  · exact hc'.update_split (by omega) h9
  · simp only [PageState.ranges, hfree, rangesOf_append, rangesOf_cons, rangesOf_update h4,
      rangesOf_update hnr, Function.update_self]
    simp only [Range.cover_append, Range.cover_cons, ← hcp, hpn]
    rw [← Set.Ico_union_Ico_eq_Ico (show curr ≤ p by omega) (show p ≤ s.endOf nx by omega),
      ← Set.Ico_union_Ico_eq_Ico (show p ≤ nx by omega) h8.le]
    ac_rfl
  · exact ends_update (.inl (by simp [hfree])) rfl hmem

/-- The range lies before the node and reaches up to it; the node is unlinked. -/
theorem join_after (hfree : s.free = pre ++ curr :: rest) (hc : Coalesced s.endOf s.free)
    (hp : Fresh s p) (hpre : ∀ q ∈ pre, s.endOf q < p) (hpc : curr = s.endOf p) :
    Inserted s ⟨pre ++ p :: rest, Function.update s.endOf p (s.endOf curr)⟩ p := by
  rw [hfree] at hc
  obtain ⟨h1, h2, h3, h4, h5, h6, h7⟩ := coalesced_split hc
  have hpe := hp.proper
  have hnp : p ∉ pre := fun h => by
    have := hpre p h
    omega
  have hnr : p ∉ rest := fun h => by
    have := h3 p h
    omega
  have hc' : Coalesced s.endOf (pre ++ p :: rest) := by
    refine coalesced_append.2 ⟨h6, coalesced_cons.2 ⟨hpe, fun b hb => ?_, h7⟩, ?_⟩
    · have := h3 b hb
      omega
    · intro a ha b hb
      rcases List.mem_cons.1 hb with rfl | hb
      · exact hpre a ha
      · exact (coalesced_append.1 hc).2.2 a ha b (by simp [hb])
  have hmem : ∀ q ∈ pre ++ p :: rest, q ∈ s.free ∨ q = p := by
    intro q hq
    rw [hfree]
    simp only [List.mem_append, List.mem_cons] at hq ⊢
    tauto
  refine ⟨?_, ?_, hmem, ?_⟩
  · exact hc'.update_split (by omega) h3
  · simp only [PageState.ranges, hfree, rangesOf_append, rangesOf_cons, rangesOf_update hnp,
      rangesOf_update hnr, Function.update_self]
    simp only [Range.cover_append, Range.cover_cons, ← hpc]
    rw [← Set.Ico_union_Ico_eq_Ico (show p ≤ curr by omega) h1.le]
    ac_rfl
  · exact ends_update (.inl (by simp [hfree])) rfl hmem

/-- The range touches neither neighbour. -/
theorem link_between (pre rest : List Nat) (hfree : s.free = pre ++ rest) (hc : Coalesced s.endOf s.free) (hp : Fresh s p)
    (hpre : ∀ q ∈ pre, s.endOf q < p) (hrest : ∀ b ∈ rest, s.endOf p < b) :
    Inserted s ⟨pre ++ p :: rest, s.endOf⟩ p := by
  rw [hfree] at hc
  obtain ⟨h1, h2, h3⟩ := coalesced_append.1 hc
  have hmem : ∀ q ∈ pre ++ p :: rest, q ∈ s.free ∨ q = p := by
    intro q hq
    rw [hfree]
    simp only [List.mem_append, List.mem_cons] at hq ⊢
    tauto
  refine ⟨?_, ?_, hmem, fun q hq => ⟨q, hmem q hq, rfl⟩⟩
  · refine coalesced_append.2 ⟨h1, coalesced_cons.2 ⟨hp.proper, hrest, h2⟩, ?_⟩
    intro a ha b hb
    rcases List.mem_cons.1 hb with rfl | hb
    · exact hpre a ha
    · exact h3 a ha b hb
  · simp only [PageState.ranges, hfree, rangesOf_append, rangesOf_cons, Range.cover_insert]

/-! ## The walk -/

theorem addBefore_append (h : curr ∉ pre) :
    addBefore curr p (pre ++ curr :: rest) = pre ++ p :: curr :: rest := by
  induction pre with
  | nil => simp [addBefore]
  | cons a pre ih =>
    have hne : a ≠ curr := fun e => h (by simp [e])
    simp only [List.cons_append, addBefore, if_neg hne, ih fun hm => h (by simp [hm])]

theorem erase_append_cons (rest : List Nat) (h : curr ∉ pre) : (pre ++ curr :: rest).erase curr = pre ++ rest := by
  rw [List.erase_append_right _ h, List.erase_cons_head]

theorem again_join {n next : Nat} (h : p = s.endOf curr) (hp : p ≤ s.endOf p) :
    again (n + 1) s curr next p =
      if s.endOf p = next then
        again n ⟨s.free.erase next, Function.update s.endOf curr (s.endOf p)⟩ curr next next
      else some (.exit ⟨s.free, Function.update s.endOf curr (s.endOf p)⟩) := by
  have hsum : s.endOf curr + (s.endOf p - p) = s.endOf p := by omega
  simp only [again, if_pos h, hsum, Function.update_self]

theorem again_before {n next : Nat} (h : p ≠ s.endOf curr) (hp : p < curr) :
    again (n + 1) s curr next p =
      if curr = s.endOf p then again n ⟨(addBefore curr p s.free).erase curr, s.endOf⟩ p next curr
      else some (.exit ⟨addBefore curr p s.free, s.endOf⟩) := by
  simp only [again, if_neg h, if_pos hp]

theorem again_next {n next : Nat} (h : p ≠ s.endOf curr) (hp : ¬ p < curr) :
    again (n + 1) s curr next p = some .next := by
  simp only [again, if_neg h, if_neg hp]

/-- The visit of a node whose range ends where the new one starts. -/
theorem again_of_touching (hfree : s.free = pre ++ curr :: rest) (hc : Coalesced s.endOf s.free)
    (hp : Fresh s p) (hcp : p = s.endOf curr) :
    ∃ s', again 4 s curr (rest.headD 0) p = some (.exit s') ∧ Inserted s s' p := by
  have hpe := hp.proper
  obtain ⟨h1, h2, h3, h4, h5, h6, h7⟩ := coalesced_split (hfree ▸ hc)
  rw [again_join hcp hpe.le]
  cases rest with
  | nil =>
    have hne : s.endOf p ≠ 0 := by omega
    exact ⟨_, if_neg hne, join_before hfree hc hp hcp (by simp)⟩
  | cons nx rest =>
    obtain ⟨h8, h9, h10⟩ := coalesced_cons.1 h7
    have hnx : s.endOf p ≤ nx := by
      have := hp.apart nx (by simp [hfree])
      have := h3 nx (by simp)
      omega
    by_cases he : s.endOf p = nx
    · have hnc : nx ≠ curr := fun e => h5 (by simp [e])
      have hnpre : nx ∉ pre ++ [curr] := by
        rw [List.mem_append, List.mem_singleton, not_or]
        refine ⟨fun h => ?_, hnc⟩
        have := h2 nx h
        have := h3 nx (by simp)
        omega
      have herase : s.free.erase nx = pre ++ curr :: rest := by
        have := erase_append_cons rest hnpre
        simpa [hfree] using this
      have hupd : Function.update s.endOf curr (s.endOf p) nx = s.endOf nx :=
        Function.update_of_ne hnc _ _
      refine ⟨⟨pre ++ curr :: rest, Function.update s.endOf curr (s.endOf nx)⟩, ?_,
        join_both hfree hc hp hcp he⟩
      rw [List.headD_cons, if_pos he, again_join (by simp [he]) (by simp only [hupd]; omega)]
      simp only [hupd, if_neg h8.ne', Function.update_idem, herase]
    · refine ⟨_, if_neg he, join_before hfree hc hp hcp fun b hb => ?_⟩
      rcases List.mem_cons.1 hb with rfl | hb
      · omega
      · have := h9 b hb
        omega

/-- The visit of the first node above the new range. -/
theorem again_of_above (hfree : s.free = pre ++ curr :: rest) (hc : Coalesced s.endOf s.free)
    (hp : Fresh s p) (hpre : ∀ q ∈ pre, s.endOf q < p) (hpc : p < curr) :
    ∃ s', again 4 s curr (rest.headD 0) p = some (.exit s') ∧ Inserted s s' p := by
  have hpe := hp.proper
  obtain ⟨h1, h2, h3, h4, h5, h6, h7⟩ := coalesced_split (hfree ▸ hc)
  have hadd : addBefore curr p s.free = pre ++ p :: curr :: rest := by
    rw [hfree, addBefore_append h4]
  rw [again_before (by omega) hpc, hadd]
  by_cases he : curr = s.endOf p
  · have hnpre : curr ∉ pre ++ [p] := by
      rw [List.mem_append, List.mem_singleton, not_or]
      exact ⟨h4, hpc.ne'⟩
    have herase : (pre ++ p :: curr :: rest).erase curr = pre ++ p :: rest := by
      simpa using erase_append_cons rest hnpre
    have hnext : s.endOf curr ≠ rest.headD 0 := by
      cases rest with
      | nil => rw [List.headD_nil]; omega
      | cons nx rest =>
        have := h3 nx (by simp)
        rw [List.headD_cons]
        omega
    refine ⟨_, ?_, join_after hfree hc hp hpre he⟩
    rw [if_pos he, herase, again_join (s := ⟨pre ++ p :: rest, s.endOf⟩) he h1.le, if_neg hnext]
  · have hlt : s.endOf p < curr := by
      have := hp.apart curr (by simp [hfree])
      omega
    refine ⟨_, if_neg he, link_between _ _ hfree hc hp hpre fun b hb => ?_⟩
    rcases List.mem_cons.1 hb with rfl | hb
    · exact hlt
    · have := h3 b hb
      omega

theorem insertLoop_spec (hc : Coalesced s.endOf s.free) (hp : Fresh s p) (h0 : 0 ∉ s.free) :
    ∀ (rest pre : List Nat), s.free = pre ++ rest → (∀ q ∈ pre, s.endOf q < p) →
      ∃ s', insertLoop s p rest = some s' ∧ Inserted s s' p
  | [], pre, hfree, hpre => by
    refine ⟨_, rfl, ?_⟩
    have hpre' : pre = s.free := by simp [hfree]
    exact link_between s.free [] (by simp) hc hp (hpre' ▸ hpre) (by simp)
  | curr :: rest, pre, hfree, hpre => by
    have hcurr : curr ≠ 0 := fun e => h0 (by simp [hfree, e])
    rw [insertLoop, if_neg hcurr]
    by_cases hcp : p = s.endOf curr
    · obtain ⟨s', h1, h2⟩ := again_of_touching hfree hc hp hcp
      exact ⟨s', by rw [h1]; rfl, h2⟩
    by_cases hpc : p < curr
    · obtain ⟨s', h1, h2⟩ := again_of_above hfree hc hp hpre hpc
      exact ⟨s', by rw [h1]; rfl, h2⟩
    · rw [again_next hcp hpc]
      refine insertLoop_spec hc hp h0 rest (pre ++ [curr]) (by simp [hfree]) fun q hq => ?_
      rcases List.mem_append.1 hq with hq | hq
      · exact hpre q hq
      · have := hp.apart curr (by simp [hfree])
        have := hp.proper
        rw [List.mem_singleton.1 hq]
        omega

theorem Fresh.not_mem (h : Fresh s p) : p ∉ s.free := by
  intro hp
  have hlt := h.proper
  have hap := h.apart p hp
  omega

theorem pageInsert_spec (hc : Coalesced s.endOf s.free) (hp : Fresh s p) (hi : CanInsert s p) :
    ∃ s', pageInsert s p = some s' ∧ Inserted s s' p := by
  rw [pageInsert, if_neg hp.not_mem]
  by_cases h0 : 0 ∈ s.free
  · refine ⟨⟨s.free ++ [p], s.endOf⟩, ?_, ?_⟩
    · -- a sorted list has the node at address 0 in front
      cases hfree : s.free with
      | nil => simp [hfree] at h0
      | cons a l =>
        have ha : a = 0 := by
          rw [hfree] at hc h0
          obtain ⟨h1, h2, -⟩ := coalesced_cons.1 hc
          rcases List.mem_cons.1 h0 with h | h
          · exact h.symm
          · exact absurd (h2 0 h) (Nat.not_lt_zero _)
        rw [insertLoop, if_pos ha, hfree]
    · exact link_between s.free [] (by simp) hc hp (hi h0) (by simp)
  · exact insertLoop_spec hc hp h0 s.free [] rfl (by simp)

end Sdfirm.Page
