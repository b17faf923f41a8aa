import Sdfirm.Proof.Framework.Ranges

/-!
# Intersections of lists of ranges

`inter A G` are the common parts of the ranges of two ordered lists, in order.
One more range at the front of both lists (`inter_skip_left`, `inter_skip_right`,
`inter_emit_left`, `inter_emit_right`) or at the end of both (`inter_concat_*`)
either adds nothing or one common part, and one of the two ranges is done with:
these are the steps of a loop with a cursor into each list, forward and backward.
The common parts cover the intersection (`cover_inter`), and if neither list has
ranges that touch they are its maximal ranges (`mem_iff_maximal`). `gaps` are the
ranges between those of a list.
-/

namespace Framework.Range

variable {α : Type*} [LinearOrder α] {A G l : List (Range α)} {m g r : Range α} {x : α}

instance (l : List (Range α)) : Decidable (Separated l) := inferInstanceAs (Decidable (l.Pairwise _))

/-- Each range starts before the other one ends. -/
def Meets (m g : Range α) : Prop := m.lo < g.hi ∧ g.lo < m.hi

instance (m g : Range α) : Decidable (Meets m g) := inferInstanceAs (Decidable (_ ∧ _))

/-- The common part. -/
def meet (m g : Range α) : Range α := ⟨max m.lo g.lo, min m.hi g.hi⟩

/-- The common parts of one range with those of a list. -/
def row (m : Range α) (G : List (Range α)) : List (Range α) := (G.filter fun g => m.Meets g).map m.meet

def inter (A G : List (Range α)) : List (Range α) := A.flatMap fun m => row m G

/-- In order, and no range ends before it starts. -/
structure InOrder (l : List (Range α)) : Prop where
  apart : Apart l
  le : ∀ r ∈ l, r.lo ≤ r.hi

theorem InOrder.sublist {l' : List (Range α)} (h : InOrder l) (hs : l'.Sublist l) : InOrder l' :=
  ⟨List.Pairwise.sublist hs h.apart, fun r hr => h.le r (hs.subset hr)⟩

theorem inOrder_cons : InOrder (r :: l) ↔ r.lo ≤ r.hi ∧ (∀ s ∈ l, r.hi ≤ s.lo) ∧ InOrder l := by
  constructor
  · intro h
    obtain ⟨h1, h2⟩ := apart_cons.1 h.apart
    exact ⟨h.le r List.mem_cons_self, h1, h2, fun s hs => h.le s (List.mem_cons_of_mem _ hs)⟩
  · intro ⟨hr, h1, h2⟩
    exact ⟨apart_cons.2 ⟨h1, h2.apart⟩, List.forall_mem_cons.2 ⟨hr, h2.le⟩⟩

theorem inOrder_concat : InOrder (l ++ [r]) ↔ InOrder l ∧ (∀ s ∈ l, s.hi ≤ r.lo) ∧ r.lo ≤ r.hi := by
  constructor
  · intro h
    obtain ⟨h1, -, h3⟩ := apart_append.1 h.apart
    exact ⟨⟨h1, fun s hs => h.le s (List.mem_append_left _ hs)⟩, fun s hs => h3 s hs r (List.mem_singleton.2 rfl),
      h.le r (List.mem_append_right _ (List.mem_singleton.2 rfl))⟩
  · intro ⟨h1, h2, hr⟩
    refine ⟨apart_append.2 ⟨h1.apart, List.pairwise_singleton _ _, fun s hs t ht => ?_⟩, fun s hs => ?_⟩
    · rw [List.mem_singleton.1 ht]
      exact h2 s hs
    · obtain hs | hs := List.mem_append.1 hs
      · exact h1.le s hs
      · rw [List.mem_singleton.1 hs]
        exact hr

/-! ## Rows -/

theorem row_eq_nil (h : ∀ g ∈ G, ¬m.Meets g) : row m G = [] := by
  rw [row, List.filter_eq_nil_iff.2 (by simpa using h), List.map_nil]

theorem row_cons_of_meets (h : m.Meets g) : row m (g :: G) = m.meet g :: row m G := by
  rw [row, List.filter_cons_of_pos (by simpa using h), List.map_cons, row]

theorem row_cons_of_not (h : ¬m.Meets g) : row m (g :: G) = row m G := by
  rw [row, List.filter_cons_of_neg (by simpa using h), row]

theorem row_append (G G' : List (Range α)) : row m (G ++ G') = row m G ++ row m G' := by
  rw [row, List.filter_append, List.map_append, row, row]

theorem not_meets_of_le (h : m.hi ≤ g.lo) : ¬m.Meets g := fun hm => absurd hm.2 (not_lt.2 h)

theorem not_meets_of_ge (h : g.hi ≤ m.lo) : ¬m.Meets g := fun hm => absurd hm.1 (not_lt.2 h)

theorem inter_cons (m : Range α) (A G : List (Range α)) : inter (m :: A) G = row m G ++ inter A G := List.flatMap_cons

theorem inter_nil_right (A : List (Range α)) : inter A [] = [] := List.flatMap_eq_nil_iff.2 fun _ _ => rfl

theorem inter_congr {G' : List (Range α)} (h : ∀ m ∈ A, row m G = row m G') : inter A G = inter A G' := by
  rw [inter, inter, List.flatMap, List.flatMap, List.map_congr_left h]

/-! ## One more range at the front of both -/

theorem inter_skip_left (hG : InOrder (g :: G)) (h : m.hi ≤ g.lo) : inter (m :: A) (g :: G) = inter A (g :: G) := by
  obtain ⟨hg, hlt, -⟩ := inOrder_cons.1 hG
  rw [inter_cons, row_eq_nil, List.nil_append]
  intro g' hg'
  apply not_meets_of_le
  obtain rfl | hg' := List.mem_cons.1 hg'
  · exact h
  · exact h.trans (hg.trans (hlt g' hg'))

theorem inter_skip_right (hA : InOrder (m :: A)) (h : g.hi ≤ m.lo) : inter (m :: A) (g :: G) = inter (m :: A) G := by
  obtain ⟨hm, hlt, -⟩ := inOrder_cons.1 hA
  apply inter_congr
  intro m' hm'
  apply row_cons_of_not
  apply not_meets_of_ge
  obtain rfl | hm' := List.mem_cons.1 hm'
  · exact h
  · exact h.trans (hm.trans (hlt m' hm'))

theorem inter_emit_left (hG : InOrder (g :: G)) (hmeet : m.Meets g) (h : m.hi ≤ g.hi) :
    inter (m :: A) (g :: G) = m.meet g :: inter A (g :: G) := by
  obtain ⟨-, hlt, -⟩ := inOrder_cons.1 hG
  rw [inter_cons, row_cons_of_meets hmeet, row_eq_nil]
  · rfl
  · intro g' hg'
    exact not_meets_of_le (h.trans (hlt g' hg'))

theorem inter_emit_right (hA : InOrder (m :: A)) (hmeet : m.Meets g) (h : g.hi ≤ m.hi) :
    inter (m :: A) (g :: G) = m.meet g :: inter (m :: A) G := by
  obtain ⟨-, hlt, -⟩ := inOrder_cons.1 hA
  rw [inter_cons, inter_cons, row_cons_of_meets hmeet, List.cons_append]
  congr 2
  apply inter_congr
  intro m' hm'
  exact row_cons_of_not (not_meets_of_ge (h.trans (hlt m' hm')))

/-! ## One more range at the end of both -/

theorem inter_concat (A : List (Range α)) (m : Range α) (G : List (Range α)) :
    inter (A ++ [m]) G = inter A G ++ row m G := by
  rw [inter, List.flatMap_append, List.flatMap_singleton, inter]

theorem inter_concat_skip_left (hG : InOrder (G ++ [g])) (h : g.hi ≤ m.lo) : inter (A ++ [m]) (G ++ [g]) = inter A (G ++ [g]) := by
  obtain ⟨-, hlt, hg⟩ := inOrder_concat.1 hG
  rw [inter_concat, row_eq_nil, List.append_nil]
  intro g' hg'
  apply not_meets_of_ge
  obtain hg' | hg' := List.mem_append.1 hg'
  · exact (hlt g' hg').trans (hg.trans h)
  · rw [List.mem_singleton.1 hg']
    exact h

theorem row_concat_of_not {m' : Range α} (h : ¬m'.Meets g) : row m' (G ++ [g]) = row m' G := by
  rw [row_append, row_cons_of_not h]
  exact List.append_nil _

theorem inter_concat_skip_right (hA : InOrder (A ++ [m])) (h : m.hi ≤ g.lo) : inter (A ++ [m]) (G ++ [g]) = inter (A ++ [m]) G := by
  obtain ⟨-, hlt, hm⟩ := inOrder_concat.1 hA
  apply inter_congr
  intro m' hm'
  apply row_concat_of_not
  apply not_meets_of_le
  obtain hm' | hm' := List.mem_append.1 hm'
  · exact (hlt m' hm').trans (hm.trans h)
  · rw [List.mem_singleton.1 hm']
    exact h

theorem inter_concat_emit_left (hG : InOrder (G ++ [g])) (hmeet : m.Meets g) (h : g.lo ≤ m.lo) :
    inter (A ++ [m]) (G ++ [g]) = inter A (G ++ [g]) ++ [m.meet g] := by
  obtain ⟨-, hlt, -⟩ := inOrder_concat.1 hG
  rw [inter_concat, row_append, row_eq_nil, row_cons_of_meets hmeet]
  · rfl
  · intro g' hg'
    exact not_meets_of_ge ((hlt g' hg').trans h)

theorem inter_concat_emit_right (hA : InOrder (A ++ [m])) (hmeet : m.Meets g) (h : m.lo ≤ g.lo) :
    inter (A ++ [m]) (G ++ [g]) = inter (A ++ [m]) G ++ [m.meet g] := by
  obtain ⟨-, hlt, -⟩ := inOrder_concat.1 hA
  have hrows : inter A (G ++ [g]) = inter A G := by
    apply inter_congr
    intro m' hm'
    exact row_concat_of_not (not_meets_of_le ((hlt m' hm').trans h))
  rw [inter_concat, inter_concat, row_append, row_cons_of_meets hmeet, hrows, List.append_assoc]
  rfl

/-! ## What the common parts are -/

theorem mem_inter : r ∈ inter A G ↔ ∃ m ∈ A, ∃ g ∈ G, m.Meets g ∧ m.meet g = r := by
  simp [inter, row, and_assoc]

theorem mem_meet : x ∈ Set.Ico (m.meet g).lo (m.meet g).hi ↔ x ∈ Set.Ico m.lo m.hi ∧ x ∈ Set.Ico g.lo g.hi := by
  simp only [meet, Set.mem_Ico, max_le_iff, lt_min_iff]
  exact ⟨fun h => ⟨⟨h.1.1, h.2.1⟩, h.1.2, h.2.2⟩, fun h => ⟨⟨h.1.1, h.2.1⟩, h.1.2, h.2.2⟩⟩

theorem cover_inter (A G : List (Range α)) : cover (inter A G) = cover A ∩ cover G := by
  ext x
  constructor
  · intro ⟨r, hr, hx⟩
    obtain ⟨m, hm, g, hg, -, rfl⟩ := mem_inter.1 hr
    obtain ⟨hxm, hxg⟩ := mem_meet.1 hx
    exact ⟨⟨m, hm, hxm⟩, g, hg, hxg⟩
  · intro ⟨⟨m, hm, hxm⟩, g, hg, hxg⟩
    exact ⟨m.meet g, mem_inter.2 ⟨m, hm, g, hg, ⟨hxm.1.trans_lt hxg.2, hxg.1.trans_lt hxm.2⟩, rfl⟩, mem_meet.2 ⟨hxm, hxg⟩⟩

theorem meet_proper (hm : m.lo < m.hi) (hg : g.lo < g.hi) (h : m.Meets g) : (m.meet g).lo < (m.meet g).hi :=
  lt_min (max_lt hm h.2) (max_lt h.1 hg)

/-- Common parts do not touch if the ranges that meet others do not. -/
theorem separated_inter (hA : Separated A) (hG : G.Pairwise fun g g' => g.hi < g'.lo ∨ ∀ m ∈ A, ¬m.Meets g) :
    Separated (inter A G) := by
  refine List.pairwise_flatMap.2 ⟨fun m hm => ?_, hA.imp fun {m m'} hlt r hr s hs => ?_⟩
  · -- of one range of `A`
    rw [row, List.pairwise_map, List.pairwise_filter]
    refine hG.imp fun {g g'} hlt hmeet _ => ?_
    obtain hlt | hnone := hlt
    · exact (min_le_right _ _).trans_lt (hlt.trans_le (le_max_right _ _))
    · exact absurd (of_decide_eq_true hmeet) (hnone m hm)
  · -- of two
    obtain ⟨g, -, rfl⟩ := List.mem_map.1 hr
    obtain ⟨g', -, rfl⟩ := List.mem_map.1 hs
    exact (min_le_left _ _).trans_lt (hlt.trans_le (le_max_left _ _))

/-! ## Gaps -/

/-- What the ranges of a list leave of `[lo, hi)`, each gap a range of its own even if it is empty. -/
def gaps (lo hi : α) : List (Range α) → List (Range α)
  | [] => [⟨lo, hi⟩]
  | r :: l => ⟨lo, r.lo⟩ :: gaps r.hi hi l

omit [LinearOrder α] in
theorem length_gaps (lo hi : α) (l : List (Range α)) : (gaps lo hi l).length = l.length + 1 := by
  induction l generalizing lo with
  | nil => rfl
  | cons r l ih => rw [gaps, List.length_cons, ih, List.length_cons]

omit [LinearOrder α] in
/-- A gap reaches from the range before it to the one after it. -/
theorem getElem?_gaps (lo hi : α) (l : List (Range α)) (d : Range α) (i : Nat) (hi' : i ≤ l.length) :
    (gaps lo hi l)[i]? =
      some ⟨if i ≠ 0 then (l.getD (i - 1) d).hi else lo, if i < l.length then (l.getD i d).lo else hi⟩ := by
  induction l generalizing lo i with
  | nil =>
    obtain rfl : i = 0 := Nat.le_zero.1 hi'
    rfl
  | cons r l ih =>
    cases i with
    | zero => rfl
    | succ i =>
      rw [gaps, List.getElem?_cons_succ, ih r.hi i (Nat.le_of_succ_le_succ hi')]
      cases i with
      | zero => simp
      | succ i => simp

section Gaps

variable {lo hi : α}

theorem le_lo_of_mem_gaps (hl : InOrder l) (hlo : ∀ r ∈ l, lo ≤ r.lo) (hg : g ∈ gaps lo hi l) : lo ≤ g.lo := by
  induction l generalizing lo with
  | nil =>
    rw [List.mem_singleton.1 hg]
  | cons r l ih =>
    obtain ⟨hr, hlt, hl⟩ := inOrder_cons.1 hl
    obtain rfl | hg := List.mem_cons.1 hg
    · exact le_refl lo
    · exact (hlo r List.mem_cons_self).trans (hr.trans (ih hl hlt hg))

theorem inOrder_gaps (hl : InOrder l) (hlo : ∀ r ∈ l, lo ≤ r.lo) (hhi : ∀ r ∈ l, r.hi ≤ hi) (hle : lo ≤ hi) :
    InOrder (gaps lo hi l) := by
  induction l generalizing lo with
  | nil => exact inOrder_cons.2 ⟨hle, by simp, ⟨apart_nil, by simp⟩⟩
  | cons r l ih =>
    obtain ⟨hr, hlt, hl⟩ := inOrder_cons.1 hl
    refine inOrder_cons.2 ⟨hlo r List.mem_cons_self, fun g hg => hr.trans (le_lo_of_mem_gaps hl hlt hg),
      ih hl hlt (fun s hs => hhi s (List.mem_cons_of_mem _ hs)) (hhi r List.mem_cons_self)⟩

/-- Gaps between ranges that are not empty do not touch. -/
theorem separated_gaps (hl : InOrder l) (hp : Proper l) (hlo : ∀ r ∈ l, lo ≤ r.lo) : Separated (gaps lo hi l) := by
  induction l generalizing lo with
  | nil => exact separated_singleton
  | cons r l ih =>
    obtain ⟨hr, hlt, hl⟩ := inOrder_cons.1 hl
    obtain ⟨hp, hpl⟩ := proper_cons.1 hp
    exact separated_cons.2 ⟨fun g hg => hp.trans_le (le_lo_of_mem_gaps hl hlt hg), ih hl hpl hlt⟩

/-- A gap between ranges that do not touch is not empty. -/
theorem gap_proper (hl : Separated l) (hlo : ∀ r ∈ l, lo < r.lo) (hg : g ∈ gaps lo hi l) :
    g.lo < g.hi ∨ hi ≤ g.lo := by
  induction l generalizing lo with
  | nil =>
    rw [List.mem_singleton.1 hg]
    exact lt_or_ge lo hi
  | cons r l ih =>
    obtain ⟨hlt, hl⟩ := separated_cons.1 hl
    obtain rfl | hg := List.mem_cons.1 hg
    · exact .inl (hlo r List.mem_cons_self)
    · exact ih hl hlt hg

theorem cover_gaps (hl : InOrder l) (hlo : ∀ r ∈ l, lo ≤ r.lo) (hhi : ∀ r ∈ l, r.hi ≤ hi) :
    cover (gaps lo hi l) = Set.Ico lo hi \ cover l := by
  induction l generalizing lo with
  | nil => simp [gaps]
  | cons r l ih =>
    obtain ⟨hr, hlt, hl⟩ := inOrder_cons.1 hl
    have hlo := hlo r List.mem_cons_self
    have hhi' := hhi r List.mem_cons_self
    rw [gaps, cover_cons, ih hl hlt fun s hs => hhi s (List.mem_cons_of_mem _ hs)]
    ext x
    simp only [Set.mem_union, Set.mem_sdiff, Set.mem_Ico, cover_cons, not_or, not_and, not_lt]
    constructor
    · intro hx
      obtain ⟨h1, h2⟩ | ⟨⟨h1, h2⟩, h3⟩ := hx
      · refine ⟨⟨h1, h2.trans_le (hr.trans hhi')⟩, fun h => absurd h (not_le.2 h2), fun hc => ?_⟩
        obtain ⟨s, hs, hsx⟩ := hc
        exact absurd (hsx.1.trans_lt h2) (not_lt.2 (hr.trans (hlt s hs)))
      · exact ⟨⟨hlo.trans (hr.trans h1), h2⟩, fun _ => h1, h3⟩
    · intro ⟨⟨h1, h2⟩, h3, h4⟩
      obtain hx | hx := lt_or_ge x r.lo
      · exact .inl ⟨h1, hx⟩
      · exact .inr ⟨⟨h3 hx, h2⟩, h4⟩

end Gaps

/-! ## Maximal ranges -/

/-- `r` is not empty, lies in `S` and in no larger range that does. -/
structure Maximal (S : Set α) (r : Range α) : Prop where
  lt : r.lo < r.hi
  subset : Set.Ico r.lo r.hi ⊆ S
  eq_of_le : ∀ s : Range α, s.lo ≤ r.lo → r.hi ≤ s.hi → Set.Ico s.lo s.hi ⊆ S → s = r

theorem Separated.eq_or_lt (h : Separated l) {s : Range α} (hr : r ∈ l) (hs : s ∈ l) :
    r = s ∨ r.hi < s.lo ∨ s.hi < r.lo := by
  induction l with
  | nil => exact absurd hr List.not_mem_nil
  | cons a l ih =>
    obtain ⟨hlt, h⟩ := separated_cons.1 h
    obtain rfl | hr' := List.mem_cons.1 hr
    · obtain rfl | hs' := List.mem_cons.1 hs
      · exact .inl rfl
      · exact .inr (.inl (hlt s hs'))
    · obtain rfl | hs' := List.mem_cons.1 hs
      · exact .inr (.inr (hlt r hr'))
      · exact ih h hr' hs'

/-- A range in the cover of ranges that do not touch lies in one of them. -/
theorem exists_of_subset_cover (h : Separated l) (hp : Proper l) (hr : r.lo < r.hi)
    (hsub : Set.Ico r.lo r.hi ⊆ cover l) : ∃ s ∈ l, s.lo ≤ r.lo ∧ r.hi ≤ s.hi := by
  obtain ⟨s, hs, hlo, hhi⟩ := hsub ⟨le_refl _, hr⟩
  refine ⟨s, hs, hlo, ?_⟩
  by_contra hlt
  rw [not_le] at hlt
  -- the end of `s` is in no range of the list
  obtain ⟨t, ht, htlo, hthi⟩ := hsub ⟨hhi.le, hlt⟩
  obtain rfl | hst | hts := h.eq_or_lt hs ht
  · exact absurd hthi (lt_irrefl _)
  · exact absurd htlo (not_le.2 hst)
  · exact absurd (hts.trans (hp s hs)) (not_lt.2 hthi.le)

/-- Ranges that do not touch are the maximal ones of what they cover. -/
theorem mem_iff_maximal (h : Separated l) (hp : Proper l) : r ∈ l ↔ Maximal (cover l) r := by
  constructor
  · intro hr
    refine ⟨hp r hr, fun x hx => ⟨r, hr, hx⟩, fun s hlo hhi hsub => ?_⟩
    obtain ⟨t, ht, htlo, hthi⟩ := exists_of_subset_cover h hp (hlo.trans_lt ((hp r hr).trans_le hhi)) hsub
    obtain rfl | hlt | hlt := h.eq_or_lt hr ht
    rotate_left
    · exact absurd (htlo.trans (hlo.trans (hp r hr).le)) (not_le.2 hlt)
    · exact absurd ((hp r hr).le.trans (hhi.trans hthi)) (not_le.2 hlt)
    exact Range.ext (le_antisymm hlo htlo) (le_antisymm hthi hhi)
  · intro hr
    obtain ⟨s, hs, hlo, hhi⟩ := exists_of_subset_cover h hp hr.lt hr.subset
    rw [← hr.eq_of_le s hlo hhi fun x hx => ⟨s, hs, hx⟩]
    exact hs

end Framework.Range
