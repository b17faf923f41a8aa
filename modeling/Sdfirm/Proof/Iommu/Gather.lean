import Sdfirm.Spec.Iommu

/-!
# Pending invalidations

A gather is empty or holds pages of one size (`Pending`). `gatherAddPage_cases` says what
adding a page does: the page begins a new range, after a sync or in an empty gather,
or it extends the range it touches. Every page is then invalidated (`sync_of_pending`),
and a range has only the addresses of its pages, unless its `end` is 0.
-/

namespace Sdfirm.Iommu

variable {g : Gather} {p : Page} {ps : List Page} {a : Nat}

theorem pageEnd_eq (p : Page) : pageEnd p.iova p.size = p.iova + p.size - 1 := by
  have := p.size_pos
  have := p.fits
  rw [pageEnd]
  omega

/-- The range of a page. -/
def Page.range (p : Page) : Gather := ⟨p.iova, p.iova + p.size - 1, p.size⟩

/-- The range and what it is extended by. -/
def Gather.extend (g : Gather) (p : Page) : Gather := ⟨min g.start p.iova, max g.stop (p.iova + p.size - 1), p.size⟩

/-- A gather that is not empty: it has a page of its size. -/
structure Pending (g : Gather) : Prop where
  size_pos : 0 < g.pgsize
  size_le : g.start + g.pgsize ≤ g.stop + 1
  stop_lt : g.stop < 2 ^ 64

theorem Page.pending_range (p : Page) : Pending p.range := by
  have := p.size_pos
  have := p.fits
  exact ⟨p.size_pos, show p.iova + p.size ≤ p.iova + p.size - 1 + 1 by omega, show p.iova + p.size - 1 < 2 ^ 64 by omega⟩

theorem Page.has_range (h : p.Has a) : p.range.Has a := by
  obtain ⟨hlo, hhi⟩ := h
  exact ⟨hlo, show a ≤ p.iova + p.size - 1 by omega⟩

theorem Page.has_of_range (h : p.range.Has a) : p.Has a := by
  obtain ⟨hlo, hhi⟩ : p.iova ≤ a ∧ a ≤ p.iova + p.size - 1 := h
  have := p.size_pos
  exact ⟨hlo, by omega⟩

theorem Pending.extend (h : Pending g) (p : Page) (hsize : g.pgsize = p.size) : Pending (g.extend p) := by
  obtain ⟨hpos, hle, hlt⟩ := h
  have := p.fits
  refine ⟨p.size_pos, ?_, ?_⟩
  · show min g.start p.iova + p.size ≤ max g.stop (p.iova + p.size - 1) + 1
    omega
  · show max g.stop (p.iova + p.size - 1) < 2 ^ 64
    omega

theorem gatherAddRange_eq (g : Gather) (p : Page) : gatherAddRange { g with pgsize := p.size } p.iova p.size = g.extend p := by
  obtain ⟨start, stop, pgsize⟩ := g
  rw [gatherAddRange, pageEnd_eq, Gather.extend]
  by_cases hstart : p.iova < start
  · by_cases hstop : stop < p.iova + p.size - 1 <;> simp [hstart, hstop] <;> omega
  · by_cases hstop : stop < p.iova + p.size - 1 <;> simp [hstart, hstop] <;> omega

theorem extend_gatherInit (p : Page) : gatherInit.extend p = p.range := by
  have := p.size_pos
  have := p.fits
  rw [Gather.extend, Page.range, Gather.mk.injEq, show gatherInit.start = 2 ^ 64 - 1 from rfl,
    show gatherInit.stop = 0 from rfl]
  omega

/-- What is not disjoint touches the range, unless `end` is 0. -/
theorem Pending.touches (h : Pending g) (hd : gatherIsDisjoint g p.iova p.size = false) (hsize : g.pgsize = p.size) :
    g = ⟨0, 0, 1⟩ ∨ p.iova ≤ g.stop + 1 ∧ g.start ≤ p.iova + p.size := by
  obtain ⟨hpos, hle, hlt⟩ := h
  have := p.fits
  rw [gatherIsDisjoint, pageEnd_eq] at hd
  simp only [decide_eq_false_iff_not, not_and, not_or, not_lt] at hd
  by_cases hstop : g.stop = 0
  · left
    obtain ⟨start, stop, pgsize⟩ := g
    simp only at hstop hpos hle
    rw [Gather.mk.injEq]
    omega
  · right
    obtain ⟨hbefore, hafter⟩ := hd hstop
    omega

/-- The page begins a range, after a sync or as the first one, or extends the range that it touches. -/
theorem gatherAddPage_cases (h : g = gatherInit ∨ Pending g) (p : Page) :
    Pending g ∧ gatherAddPage g p.iova p.size = ([g], p.range) ∨
    g = gatherInit ∧ gatherAddPage g p.iova p.size = ([], p.range) ∨
    Pending g ∧ g.pgsize = p.size ∧ gatherAddPage g p.iova p.size = ([], g.extend p) ∧
      (g = ⟨0, 0, 1⟩ ∨ p.iova ≤ g.stop + 1 ∧ g.start ≤ p.iova + p.size) := by
  obtain rfl | h := h
  · refine .inr (.inl ⟨rfl, ?_⟩)
    have hsync : ¬((gatherInit.pgsize ≠ 0 ∧ gatherInit.pgsize ≠ p.size) ∨ gatherIsDisjoint gatherInit p.iova p.size) := by
      simp [gatherIsDisjoint, gatherInit]
    simp only [gatherAddPage, if_neg hsync, gatherAddRange_eq, extend_gatherInit]
  · by_cases hsync : (g.pgsize ≠ 0 ∧ g.pgsize ≠ p.size) ∨ gatherIsDisjoint g p.iova p.size
    · refine .inl ⟨h, ?_⟩
      simp only [gatherAddPage, if_pos hsync, iotlbSync, gatherAddRange_eq, extend_gatherInit]
    · obtain ⟨hsize, hd⟩ := not_or.mp hsync
      have hsize : g.pgsize = p.size := by_contra fun hne => hsize ⟨Nat.pos_iff_ne_zero.mp h.size_pos, hne⟩
      refine .inr (.inr ⟨h, hsize, ?_, h.touches (Bool.not_eq_true _ ▸ hd) hsize⟩)
      simp only [gatherAddPage, if_neg hsync, gatherAddRange_eq]

/-- A sync that is issued when a page is added is for the gather as it was. -/
theorem eq_of_mem_gatherAddPage (h : g = gatherInit ∨ Pending g) {g' : Gather} (hg : g' ∈ (gatherAddPage g p.iova p.size).1) :
    g' = g := by
  obtain ⟨-, heq⟩ | ⟨-, heq⟩ | ⟨-, -, heq, -⟩ := gatherAddPage_cases h p
  · rw [heq] at hg
    exact List.mem_singleton.mp hg
  · rw [heq] at hg
    exact absurd hg List.not_mem_nil
  · rw [heq] at hg
    exact absurd hg List.not_mem_nil

/-- The gather after a page has been added. -/
theorem pending_gatherAddPage (h : g = gatherInit ∨ Pending g) (p : Page) : Pending (gatherAddPage g p.iova p.size).2 := by
  obtain ⟨-, heq⟩ | ⟨-, heq⟩ | ⟨hg, hsize, heq, -⟩ := gatherAddPage_cases h p
  · rw [heq]
    exact p.pending_range
  · rw [heq]
    exact p.pending_range
  · rw [heq]
    exact hg.extend p hsize

theorem has_gatherAddPage (h : g = gatherInit ∨ Pending g) (p : Page) :
    (gatherAddPage g p.iova p.size).2.pgsize = p.size ∧ ∀ a, p.Has a → (gatherAddPage g p.iova p.size).2.Has a := by
  obtain ⟨-, heq⟩ | ⟨-, heq⟩ | ⟨-, -, heq, -⟩ := gatherAddPage_cases h p
  · rw [heq]
    exact ⟨rfl, fun a ha => Page.has_range ha⟩
  · rw [heq]
    exact ⟨rfl, fun a ha => Page.has_range ha⟩
  · rw [heq]
    refine ⟨rfl, fun a ⟨hlo, hhi⟩ => ⟨?_, ?_⟩⟩
    · show min g.start p.iova ≤ a
      omega
    · show a ≤ max g.stop (p.iova + p.size - 1)
      omega

/-- The range of a gather is part of that of a later sync with the same page size. -/
theorem sync_of_pending (h : Pending g) (ps : List Page) :
    ∃ g', .sync g' ∈ gatherEvents g ps ∧ g'.pgsize = g.pgsize ∧ ∀ a, g.Has a → g'.Has a := by
  induction ps generalizing g with
  | nil => exact ⟨g, List.mem_singleton_self _, rfl, fun a ha => ha⟩
  | cons p ps ih =>
    obtain ⟨-, heq⟩ | ⟨rfl, -⟩ | ⟨-, hsize, heq, -⟩ := gatherAddPage_cases (.inr h) p
    · refine ⟨g, ?_, rfl, fun a ha => ha⟩
      rw [gatherEvents, heq]
      exact List.mem_cons_self
    · exact absurd h.size_pos (Nat.lt_irrefl 0)
    · obtain ⟨g', hmem, hpg, hhas⟩ := ih (h.extend p hsize)
      refine ⟨g', ?_, hpg.trans hsize.symm, fun a ⟨hlo, hhi⟩ => hhas a ⟨?_, ?_⟩⟩
      · rw [gatherEvents, heq]
        exact List.mem_cons_of_mem _ hmem
      · show min g.start p.iova ≤ a
        omega
      · show a ≤ max g.stop (p.iova + p.size - 1)
        omega

/-- Where an element of the events of one page and of the rest stands. -/
theorem append_cons_cases {α : Type} {xs ys before after : List α} {e x : α} (h : xs ++ e :: ys = before ++ x :: after) :
    (∃ l, xs = before ++ x :: l) ∨ (before = xs ∧ x = e ∧ after = ys) ∨ ∃ l, before = xs ++ e :: l ∧ ys = l ++ x :: after := by
  obtain ⟨mid, rfl, hmid⟩ | ⟨mid, rfl, hmid⟩ := List.append_eq_append_iff.mp h
  · cases mid with
    | nil =>
      obtain ⟨rfl, rfl⟩ := List.cons.inj hmid
      exact .inr (.inl ⟨List.append_nil xs, rfl, rfl⟩)
    | cons y mid =>
      obtain ⟨rfl, rfl⟩ := List.cons.inj hmid
      exact .inr (.inr ⟨mid, rfl, rfl⟩)
  · cases mid with
    | nil =>
      obtain ⟨rfl, rfl⟩ := List.cons.inj hmid
      exact .inr (.inl ⟨(List.append_nil before).symm, rfl, rfl⟩)
    | cons y mid =>
      obtain ⟨rfl, -⟩ := List.cons.inj hmid
      exact .inl ⟨mid, rfl⟩

theorem noneMissed_gatherEvents (h : g = gatherInit ∨ Pending g) (ps : List Page) : NoneMissed (gatherEvents g ps) := by
  induction ps generalizing g with
  | nil =>
    intro before p after heq
    have hmem : GatherEvent.page p ∈ gatherEvents g [] := heq ▸ List.mem_append_right _ List.mem_cons_self
    exact absurd (List.mem_singleton.mp hmem) nofun
  | cons q ps ih =>
    intro before p after heq
    have hpending := pending_gatherAddPage h q
    obtain ⟨l, hsyncs⟩ | ⟨-, hpage, rfl⟩ | ⟨l, -, hrest⟩ := append_cons_cases heq
    · have hmem : GatherEvent.page p ∈ (gatherAddPage g q.iova q.size).1.map GatherEvent.sync :=
        hsyncs ▸ List.mem_append_right _ List.mem_cons_self
      obtain ⟨g', -, hsync⟩ := List.mem_map.mp hmem
      exact absurd hsync nofun
    · obtain rfl := GatherEvent.page.inj hpage
      obtain ⟨g', hmem, hpg, hhas⟩ := sync_of_pending hpending ps
      obtain ⟨hsize, hadd⟩ := has_gatherAddPage h p
      exact ⟨g', hmem, hpg.trans hsize, fun a ha => hhas a (hadd a ha)⟩
    · exact ih (.inr hpending) l p after hrest

/-! ## Nothing else is invalidated -/

/-- The range has only addresses of the pages added. -/
def Filled (g : Gather) (added : List GatherEvent) : Prop := ∀ a, g.Has a → ∃ p, .page p ∈ added ∧ p.Has a

theorem Filled.mono {added : List GatherEvent} (h : Filled g added) (more : List GatherEvent) : Filled g (added ++ more) := by
  intro a ha
  obtain ⟨p, hp, hpa⟩ := h a ha
  exact ⟨p, List.mem_append_left more hp, hpa⟩

theorem filled_gatherInit (added : List GatherEvent) : Filled gatherInit added := by
  rintro a ⟨hlo, hhi⟩
  have : 2 ^ 64 - 1 ≤ 0 := hlo.trans hhi
  omega

theorem Page.filled_range {added : List GatherEvent} (hp : .page p ∈ added) : Filled p.range added :=
  fun _ ha => ⟨p, hp, Page.has_of_range ha⟩

/-- A range and a page that touches it leave no gap. -/
theorem Filled.extend {added : List GatherEvent} (h : Filled g added) (hp : .page p ∈ added)
    (htouch : p.iova ≤ g.stop + 1 ∧ g.start ≤ p.iova + p.size) : Filled (g.extend p) added := by
  intro a ha
  obtain ⟨hlo, hhi⟩ : min g.start p.iova ≤ a ∧ a ≤ max g.stop (p.iova + p.size - 1) := ha
  by_cases hpa : p.Has a
  · exact ⟨p, hp, hpa⟩
  · refine h a ⟨?_, ?_⟩
    all_goals
      rw [Page.Has] at hpa
      omega

theorem filled_gatherAddPage {added : List GatherEvent} (h : g = gatherInit ∨ Pending g) (hfilled : Filled g added)
    (hp : .page p ∈ added) (hmark : g = ⟨0, 0, 1⟩ → p.size = 1 → p.iova ≤ 1) :
    Filled (gatherAddPage g p.iova p.size).2 added := by
  obtain ⟨-, heq⟩ | ⟨-, heq⟩ | ⟨hg, hsize, heq, htouch⟩ := gatherAddPage_cases h p
  · rw [heq]
    exact Page.filled_range hp
  · rw [heq]
    exact Page.filled_range hp
  · rw [heq]
    obtain rfl | htouch := htouch
    · exact hfilled.extend hp ⟨hmark rfl hsize.symm, Nat.zero_le _⟩
    · exact hfilled.extend hp htouch

theorem onlyAdded_gatherEvents {added : List GatherEvent} (h : g = gatherInit ∨ Pending g) (hfilled : Filled g added)
    (hmark : Unmarked g ps) {before after : List GatherEvent} {g' : Gather}
    (heq : gatherEvents g ps = before ++ .sync g' :: after) : Filled g' (added ++ before) := by
  induction ps generalizing g added before with
  | nil =>
    have hmem : GatherEvent.sync g' ∈ gatherEvents g [] := heq ▸ List.mem_append_right _ List.mem_cons_self
    obtain rfl := GatherEvent.sync.inj (List.mem_singleton.mp hmem)
    exact hfilled.mono _
  | cons p ps ih =>
    obtain ⟨hfirst, hrest⟩ := hmark
    have hpending := pending_gatherAddPage h p
    obtain ⟨l, hsyncs⟩ | ⟨-, hpage, -⟩ | ⟨l, rfl, hlater⟩ := append_cons_cases heq
    · have hmem : GatherEvent.sync g' ∈ (gatherAddPage g p.iova p.size).1.map GatherEvent.sync :=
        hsyncs ▸ List.mem_append_right _ List.mem_cons_self
      obtain ⟨g'', hg, hsync⟩ := List.mem_map.mp hmem
      obtain rfl := GatherEvent.sync.inj hsync
      rw [eq_of_mem_gatherAddPage h hg]
      exact hfilled.mono _
    · exact absurd hpage nofun
    · have hadd := filled_gatherAddPage h (hfilled.mono ((gatherAddPage g p.iova p.size).1.map .sync ++ [.page p]))
        (by simp) hfirst
      have := ih (.inr hpending) hadd hrest hlater
      simpa only [List.append_assoc, List.singleton_append] using this

/-- Every page is invalidated, and nothing but the pages if none of them is mistaken for the mark of an empty gather. -/
theorem invalidations_of_unmarked (ps : List Page) :
    NoneMissed (gatherEvents gatherInit ps) ∧ (Unmarked gatherInit ps → OnlyAdded (gatherEvents gatherInit ps)) := by
  refine ⟨noneMissed_gatherEvents (.inl rfl) ps, fun hmark before g after heq => ?_⟩
  exact onlyAdded_gatherEvents (.inl rfl) (filled_gatherInit []) hmark heq

/-- Page 0, the page after it and the last page of the address space, all of 4096 bytes. -/
theorem invalidations_of_last_page :
    OnlyAdded (gatherEvents gatherInit [⟨0, 4096, by decide, by decide, by decide⟩, ⟨4096, 4096, by decide, by decide, by decide⟩,
      ⟨2 ^ 64 - 4096, 4096, by decide, by decide, by decide⟩]) :=
  (invalidations_of_unmarked _).2 ⟨by decide, by decide, by decide, trivial⟩

/-- The pages 0 and 2, of size 1, are invalidated together with address 1, which has not been added. -/
theorem invalidations_not_added :
    ¬OnlyAdded (gatherEvents gatherInit [⟨0, 1, by decide, by decide, by decide⟩, ⟨2, 1, by decide, by decide, by decide⟩]) := by
  intro h
  obtain ⟨p, hp, hlo, hhi⟩ := h [.page ⟨0, 1, by decide, by decide, by decide⟩, .page ⟨2, 1, by decide, by decide, by decide⟩]
    ⟨0, 2, 1⟩ [] rfl 1 ⟨by decide, by decide⟩
  simp only [List.mem_cons, GatherEvent.page.injEq, List.not_mem_nil, or_false] at hp
  obtain rfl | rfl := hp
  · exact absurd hhi (by decide)
  · exact absurd hlo (by decide)

end Sdfirm.Iommu
