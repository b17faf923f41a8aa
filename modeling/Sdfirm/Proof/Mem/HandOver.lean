import Sdfirm.Spec.Mem
import Sdfirm.Proof.Mem.Alloc
import Sdfirm.Proof.Page.Insert

/-!
# `mem_free_all`

The free ranges come in increasing order, so that `page_insert` puts each at
the end of the list (`pageAllocInit_spec`), and what the list holds are the
ranges with their starts rounded up and their ends rounded down
(`Handed.ranges_eq`). A range without a whole page becomes an empty or a
reversed one. `mem_free_all_whole_pages`: the list holds the whole pages of
free memory when every maximal free range has one, and, short of the last page
of the address space, only then.
-/

namespace Sdfirm.Mem

open Framework
open Page (PageState pageInsert insertLoop alignUp alignDown rangesOf)

/-! ## Rounding to pages -/

section Align

variable {x y a : Nat} (ha : 0 < a)

include ha

theorem le_alignUp : x ≤ alignUp x a := by
  have h := Nat.div_add_mod (x + (a - 1)) a
  have hlt := Nat.mod_lt (x + (a - 1)) ha
  rw [alignUp, Nat.mul_comm]
  omega

theorem alignUp_le_of_dvd (h : a ∣ y) (hle : x ≤ y) : alignUp x a ≤ y := by
  obtain ⟨q, rfl⟩ := h
  rw [alignUp, Nat.mul_comm]
  apply Nat.mul_le_mul_left
  apply Nat.le_of_lt_succ
  rw [Nat.div_lt_iff_lt_mul ha, Nat.succ_mul, Nat.mul_comm q]
  omega

theorem alignUp_mono (h : x ≤ y) : alignUp x a ≤ alignUp y a :=
  alignUp_le_of_dvd ha (Nat.dvd_mul_left _ _) (h.trans (le_alignUp ha))

omit ha in
theorem alignDown_le : alignDown x a ≤ x := Nat.div_mul_le_self x a

theorem lt_alignDown_add : x < alignDown x a + a := by
  have h := Nat.div_add_mod x a
  have hlt := Nat.mod_lt x ha
  rw [alignDown, Nat.mul_comm]
  omega

theorem le_alignDown_of_dvd (h : a ∣ y) (hle : y ≤ x) : y ≤ alignDown x a := by
  obtain ⟨q, rfl⟩ := h
  rw [alignDown, Nat.mul_comm]
  apply Nat.mul_le_mul_right
  rw [Nat.le_div_iff_mul_le ha, Nat.mul_comm]
  exact hle

end Align

/-- Two multiples are that far apart at least. -/
theorem add_le_of_dvd {a x y : Nat} (hx : a ∣ x) (hy : a ∣ y) (h : x < y) : x + a ≤ y := by
  have hle := Nat.le_of_dvd (Nat.sub_pos_of_lt h) (Nat.dvd_sub hy hx)
  omega

section HandOver

variable {c : MemConfig} {endOf : Nat → Nat} {pre l : List (Range Nat)} {r : Range Nat} {ps ps' : PageState}

theorem hasPage_iff : HasPage c r ↔ alignUp r.lo c.pageSize < alignDown r.hi c.pageSize := by
  have hpos := c.pageSize_pos
  constructor
  · intro ⟨p, hp, hlo, hhi⟩
    have h1 := alignUp_le_of_dvd hpos hp hlo
    have h2 := le_alignDown_of_dvd hpos (hp.add (dvd_refl _)) hhi
    omega
  · intro h
    refine ⟨alignUp r.lo c.pageSize, Nat.dvd_mul_left _ _, le_alignUp hpos, ?_⟩
    exact (add_le_of_dvd (Nat.dvd_mul_left _ _) (Nat.dvd_mul_left _ _) h).trans alignDown_le

/-- The list holds the ranges of `pre`, rounded, and nothing else has been written. -/
structure Handed (c : MemConfig) (endOf : Nat → Nat) (pre : List (Range Nat)) (ps : PageState) : Prop where
  free : ps.free = pre.map fun r => alignUp r.lo c.pageSize
  ends : ∀ r ∈ pre, ps.endOf (alignUp r.lo c.pageSize) = alignDown r.hi c.pageSize
  others : ∀ a, (∀ r ∈ pre, alignUp r.lo c.pageSize ≠ a) → ps.endOf a = endOf a

theorem Handed.ranges_eq (h : Handed c endOf pre ps) :
    ps.ranges = pre.map fun r => ⟨alignUp r.lo c.pageSize, alignDown r.hi c.pageSize⟩ := by
  rw [PageState.ranges, rangesOf, h.free, List.map_map]
  apply List.map_congr_left
  intro r hr
  rw [Function.comp_apply, h.ends r hr]

/-- A page above all nodes, which ends none of their ranges, is put at the end of the list. -/
theorem insertLoop_tail {p : Nat} (rest : List Nat) (h : ∀ q ∈ rest, p ≠ ps.endOf q ∧ ¬ p < q) :
    insertLoop ps p rest = some { ps with free := ps.free ++ [p] } := by
  induction rest with
  | nil => rfl
  | cons q rest ih =>
    rw [insertLoop]
    split_ifs with hz
    · rfl
    · obtain ⟨hne, hlt⟩ := h q List.mem_cons_self
      rw [Page.again_next hne hlt]
      exact ih fun q' hq' => h q' (List.mem_cons_of_mem _ hq')

/-- One iteration of `mem_free_all`, on a range above the ones before it. -/
theorem pageAllocInit_spec (h : Handed c endOf pre ps) (hr : r.lo < r.hi) (hpre : ∀ q ∈ pre, q.lo < q.hi ∧ q.hi < r.lo)
    (hw : alignUp r.lo c.pageSize < 2 ^ c.bits) :
    (alignUp r.lo c.pageSize ∈ ps.free → pageAllocInit c ps r.lo (r.hi - r.lo) = none) ∧
      (alignUp r.lo c.pageSize ∉ ps.free →
        ∃ ps', pageAllocInit c ps r.lo (r.hi - r.lo) = some ps' ∧ Handed c endOf (pre ++ [r]) ps') := by
  have hpos := c.pageSize_pos
  have hpage : firstPage c r.lo = alignUp r.lo c.pageSize := Nat.mod_eq_of_lt hw
  have hend : r.lo + (r.hi - r.lo) = r.hi := by omega
  rw [pageAllocInit, hpage, hend, pageInsert]
  refine ⟨fun hmem => if_pos hmem, fun hmem => ?_⟩
  have hne : ∀ q ∈ pre, alignUp q.lo c.pageSize ≠ alignUp r.lo c.pageSize := by
    intro q hq heq
    apply hmem
    rw [h.free, ← heq]
    exact List.mem_map_of_mem (f := fun r : Range Nat => alignUp r.lo c.pageSize) hq
  refine ⟨_, (if_neg hmem).trans (insertLoop_tail _ ?_), ?_, ?_, ?_⟩
  · intro p hp
    rw [h.free] at hp
    obtain ⟨q, hq, rfl⟩ := List.mem_map.1 hp
    obtain ⟨h1, h2⟩ := hpre q hq
    simp only
    rw [Function.update_of_ne (hne q hq), h.ends q hq]
    have h3 := alignDown_le (x := q.hi) (a := c.pageSize)
    have h4 := le_alignUp (x := r.lo) hpos
    have h5 := alignUp_mono hpos (h1.le.trans h2.le)
    omega
  · simp only [h.free, List.map_append, List.map_cons, List.map_nil]
  · intro q hq
    obtain hq | hq := List.mem_append.1 hq
    · simp only
      rw [Function.update_of_ne (hne q hq), h.ends q hq]
    · rw [List.mem_singleton.1 hq]
      exact Function.update_self ..
  · intro a ha
    have hself : a ≠ alignUp r.lo c.pageSize := fun e => ha r (List.mem_append_right _ List.mem_cons_self) e.symm
    simp only
    rw [Function.update_of_ne hself]
    exact h.others a fun q hq => ha q (List.mem_append_left _ hq)

/-- What is known of the ranges before one of a list. -/
theorem Separated.before (hsep : Range.Separated (pre ++ r :: l)) (hp : Range.Proper (pre ++ r :: l)) :
    r.lo < r.hi ∧ ∀ q ∈ pre, q.lo < q.hi ∧ q.hi < r.lo := by
  obtain ⟨-, -, hlt⟩ := Range.separated_append.1 hsep
  refine ⟨hp r (List.mem_append_right _ List.mem_cons_self), fun q hq => ?_⟩
  exact ⟨hp q (List.mem_append_left _ hq), hlt q hq r List.mem_cons_self⟩

theorem handOver_some (h : Handed c endOf pre ps) (hsep : Range.Separated (pre ++ l)) (hp : Range.Proper (pre ++ l))
    (hw : ∀ r ∈ l, alignUp r.lo c.pageSize < 2 ^ c.bits)
    (hs : handOver c ps l = some ps') : Handed c endOf (pre ++ l) ps' := by
  induction l generalizing pre ps with
  | nil =>
    rw [List.append_nil, ← Option.some.inj hs]
    exact h
  | cons r l ih =>
    obtain ⟨hr, hpre⟩ := Separated.before hsep hp
    obtain ⟨hin, hout⟩ := pageAllocInit_spec h hr hpre (hw r List.mem_cons_self)
    obtain ⟨ps1, hps1, hs⟩ := Option.bind_eq_some_iff.1 hs
    by_cases hmem : alignUp r.lo c.pageSize ∈ ps.free
    · rw [hin hmem] at hps1
      cases hps1
    · obtain ⟨ps2, hps2, h2⟩ := hout hmem
      obtain rfl : ps1 = ps2 := Option.some.inj (hps1.symm.trans hps2)
      rw [List.append_cons] at hsep hp ⊢
      exact ih h2 hsep hp (fun q hq => hw q (List.mem_cons_of_mem _ hq)) hs

theorem handOver_total (h : Handed c endOf pre ps) (hsep : Range.Separated (pre ++ l)) (hp : Range.Proper (pre ++ l))
    (hw : ∀ r ∈ l, alignUp r.lo c.pageSize < 2 ^ c.bits)
    (hnew : ((pre ++ l).map fun r => alignUp r.lo c.pageSize).Nodup) : ∃ ps', handOver c ps l = some ps' := by
  induction l generalizing pre ps with
  | nil => exact ⟨ps, rfl⟩
  | cons r l ih =>
    obtain ⟨hr, hpre⟩ := Separated.before hsep hp
    have hmem : alignUp r.lo c.pageSize ∉ ps.free := by
      intro hmem
      rw [h.free] at hmem
      rw [List.map_append, List.nodup_append] at hnew
      exact hnew.2.2 _ hmem _ (List.mem_map_of_mem (f := fun r : Range Nat => alignUp r.lo c.pageSize) List.mem_cons_self) rfl
    obtain ⟨ps1, hps1, h1⟩ := (pageAllocInit_spec h hr hpre (hw r List.mem_cons_self)).2 hmem
    rw [List.append_cons] at hsep hp hnew
    obtain ⟨ps', hps'⟩ := ih h1 hsep hp (fun q hq => hw q (List.mem_cons_of_mem _ hq)) hnew
    refine ⟨ps', ?_⟩
    rw [handOver, hps1, Option.bind_some, hps']

end HandOver

section WholePages

variable {c : MemConfig} {s : MemState} {endOf : Nat → Nat} {l : List (Range Nat)} {ps : PageState}

/-- The rounded ranges cover the whole pages. -/
theorem cover_rounded (hsep : Range.Separated l) (hp : Range.Proper l) :
    Range.cover (l.map fun r => ⟨alignUp r.lo c.pageSize, alignDown r.hi c.pageSize⟩) = pagesIn c (Range.cover l) := by
  have hpos := c.pageSize_pos
  ext x
  have hx1 := alignDown_le (x := x) (a := c.pageSize)
  have hx2 := lt_alignDown_add (x := x) hpos
  have hdvd : c.pageSize ∣ alignDown x c.pageSize := Nat.dvd_mul_left _ _
  constructor
  · intro ⟨r', hr', hlo, hhi⟩
    obtain ⟨r, hr, rfl⟩ := List.mem_map.1 hr'
    -- the page of `x` lies between the rounded bounds
    have h1 : alignUp r.lo c.pageSize ≤ alignDown x c.pageSize := le_alignDown_of_dvd hpos (Nat.dvd_mul_left _ _) hlo
    have h2 : alignDown x c.pageSize + c.pageSize ≤ alignDown r.hi c.pageSize :=
      add_le_of_dvd hdvd (Nat.dvd_mul_left _ _) (hx1.trans_lt hhi)
    have h3 := le_alignUp (x := r.lo) hpos
    have h4 := alignDown_le (x := r.hi) (a := c.pageSize)
    intro y hy
    obtain ⟨hylo, hyhi⟩ := hy
    exact ⟨r, hr, by omega, by omega⟩
  · intro hx
    obtain ⟨r, hr, hlo, hhi⟩ := Range.exists_of_subset_cover (r := ⟨alignDown x c.pageSize, alignDown x c.pageSize + c.pageSize⟩)
      hsep hp (Nat.lt_add_of_pos_right hpos) hx
    refine ⟨_, List.mem_map_of_mem hr, ?_, ?_⟩
    · exact (alignUp_le_of_dvd hpos hdvd hlo).trans hx1
    · exact hx2.trans_le (le_alignDown_of_dvd hpos (hdvd.add (dvd_refl _)) hhi)

/-- Ranges with a page each round to starts in increasing order. -/
theorem nodup_starts (hsep : Range.Separated l) (hpage : ∀ r ∈ l, HasPage c r) :
    (l.map fun r => alignUp r.lo c.pageSize).Nodup := by
  have hpos := c.pageSize_pos
  rw [List.Nodup, List.pairwise_map]
  refine List.Pairwise.imp_of_mem ?_ hsep
  intro r r' hr _ hlt
  have h1 := hasPage_iff.1 (hpage r hr)
  have h2 := alignDown_le (x := r.hi) (a := c.pageSize)
  have h3 := le_alignUp (x := r'.lo) hpos
  omega

/-- Where each free range has a page the list is as it should be. -/
theorem Handed.handedOver {hdr : Nat} (hhdr : hdr ≤ c.pageSize) (hsep : Range.Separated l) (hp : Range.Proper l)
    (hcover : Range.cover l = s.free) (hmax : ∀ r ∈ l, r.hi ≤ c.physMax) (hpage : ∀ r ∈ l, HasPage c r)
    (h : Handed c endOf l ps) : HandedOver c hdr s endOf ps := by
  have hpos := c.pageSize_pos
  have hstart : ∀ r ∈ l, Set.Ico (alignUp r.lo c.pageSize) (alignUp r.lo c.pageSize + c.pageSize) ⊆ s.free := by
    intro r hr x hx
    have h1 : alignUp r.lo c.pageSize + c.pageSize ≤ alignDown r.hi c.pageSize :=
      add_le_of_dvd (Nat.dvd_mul_left _ _) (Nat.dvd_mul_left _ _) (hasPage_iff.1 (hpage r hr))
    have h2 := le_alignUp (x := r.lo) hpos
    have h3 := alignDown_le (x := r.hi) (a := c.pageSize)
    obtain ⟨hlo, hhi⟩ := hx
    rw [← hcover]
    exact ⟨r, hr, by omega, by omega⟩
  refine ⟨?_, ?_, ?_, ?_, ?_⟩
  · intro r' hr'
    rw [h.ranges_eq] at hr'
    obtain ⟨r, hr, rfl⟩ := List.mem_map.1 hr'
    exact hasPage_iff.1 (hpage r hr)
  · intro r' hr'
    rw [h.ranges_eq] at hr'
    obtain ⟨r, hr, rfl⟩ := List.mem_map.1 hr'
    refine ⟨r, ?_, le_alignUp hpos, alignDown_le⟩
    rw [← hcover]
    exact (Range.mem_iff_maximal hsep hp).1 hr
  · rw [h.ranges_eq, cover_rounded hsep hp, hcover]
  · intro m hm
    rw [← hcover] at hm
    have hml := (Range.mem_iff_maximal hsep hp).2 hm
    have hw : alignUp m.lo c.pageSize < 2 ^ c.bits :=
      (hasPage_iff.1 (hpage m hml)).trans_le (alignDown_le.trans ((hmax m hml).trans c.physMax_lt.le))
    rw [firstPage, Nat.mod_eq_of_lt hw]
    exact (Set.Ico_subset_Ico_right (Nat.add_le_add_left hhdr _)).trans (hstart m hml)
  · intro a ha
    apply h.others
    intro r hr heq
    apply ha
    rw [← heq]
    exact hstart r hr ⟨le_refl _, Nat.lt_add_of_pos_right hpos⟩

/-- After `mem_free_all` the list holds the whole pages of free memory, with nothing written outside of it, if every
maximal free range has a page. Where rounding up does not wrap it does so only then. -/
theorem mem_free_all_whole_pages (c : MemConfig) (hdr : Nat) (hhdr : hdr ≤ c.pageSize) (b : Boot) (hb : b.Reach c)
    (endOf : Nat → Nat) :
    ((∀ m, Range.Maximal b.state.free m → HasPage c m) →
        ∃ ps, memFreeAll c b.state ⟨[], endOf⟩ = some ps ∧ HandedOver c hdr b.state endOf ps) ∧
      ((∀ x ∈ b.state.free, x + c.pageSize ≤ 2 ^ c.bits) →
        (∃ ps, memFreeAll c b.state ⟨[], endOf⟩ = some ps ∧ HandedOver c hdr b.state endOf ps) →
        ∀ m, Range.Maximal b.state.free m → HasPage c m) := by
  have hok := hb.ok
  obtain ⟨l, hl, -, hsep, hp, hcover⟩ := free_ranges hok.kept.memory.listed hok.kept.reserved.listed
  have heq : memFreeAll c b.state ⟨[], endOf⟩ = handOver c ⟨[], endOf⟩ l := by
    rw [memFreeAll, hl, Option.bind_some]
  have hinit : Handed c endOf [] ⟨[], endOf⟩ := ⟨rfl, fun r hr => absurd hr List.not_mem_nil, fun _ _ => rfl⟩
  rw [heq, ← hcover]
  refine ⟨fun hpage => ?_, fun hlow hgood m hm => ?_⟩
  · have hpage' : ∀ r ∈ l, HasPage c r := fun r hr => hpage r ((Range.mem_iff_maximal hsep hp).1 hr)
    have hmax : ∀ r ∈ l, r.hi ≤ c.physMax := by
      intro r hr
      have hlt := hp r hr
      have hlast : r.hi - 1 ∈ b.state.free := hcover ▸ ⟨r, hr, by omega, by omega⟩
      have := hok.kept.memory.below _ hlast.1
      omega
    have hw : ∀ r ∈ l, alignUp r.lo c.pageSize < 2 ^ c.bits := fun r hr =>
      (hasPage_iff.1 (hpage' r hr)).trans_le (alignDown_le.trans ((hmax r hr).trans c.physMax_lt.le))
    obtain ⟨ps, hps⟩ := handOver_total hinit hsep hp hw (nodup_starts hsep hpage')
    have hhanded : Handed c endOf l ps := handOver_some hinit hsep hp hw hps
    exact ⟨ps, hps, hhanded.handedOver hhdr hsep hp hcover hmax hpage'⟩
  · obtain ⟨ps, hps, hover⟩ := hgood
    have hw : ∀ r ∈ l, alignUp r.lo c.pageSize < 2 ^ c.bits := by
      intro r hr
      have hx := hlow r.lo ⟨r, hr, le_refl _, hp r hr⟩
      have hlt : alignUp r.lo c.pageSize < r.lo + c.pageSize := by
        have := Nat.div_mul_le_self (r.lo + (c.pageSize - 1)) c.pageSize
        have := c.pageSize_pos
        rw [alignUp]
        omega
      omega
    have hhanded : Handed c endOf l ps := handOver_some hinit hsep hp hw hps
    have hml := (Range.mem_iff_maximal hsep hp).2 hm
    have hproper := hover.proper
    rw [hhanded.ranges_eq] at hproper
    exact hasPage_iff.2 (hproper _ (List.mem_map_of_mem hml))

end WholePages

/-! ## Two states -/

/-- A free range of half a page is put into the list as an empty range. -/
theorem not_mem_free_all_whole_pages : ∃ b : Boot, b.Reach config64 ∧
    ∀ endOf, ¬ ∃ ps, memFreeAll config64 b.state ⟨[], endOf⟩ = some ps ∧ HandedOver config64 24 b.state endOf ps := by
  refine ⟨_, Boot.Reach.init.call (.add 0x1000 0x800) (by decide) rfl, fun endOf ⟨ps, hps, hover⟩ => ?_⟩
  have heq : memFreeAll config64 ⟨⟨[⟨0x1000, 0x800⟩], 3, 0x800⟩, .init 3⟩ ⟨[], endOf⟩ =
      some ⟨[0x1000], Function.update endOf 0x1000 0x1000⟩ := rfl
  obtain rfl := Option.some.inj (hps.symm.trans heq)
  have hlt : 0x1000 < Function.update endOf 0x1000 0x1000 0x1000 := hover.proper _ List.mem_cons_self
  rw [Function.update_self] at hlt
  exact absurd hlt (lt_irrefl _)

/-- The memory above the kernel is one range of pages. -/
theorem mem_free_all_whole_pages_one : ∃ ps, memFreeAll config64 oneReserved ⟨[], fun _ => 0⟩ = some ps ∧
    HandedOver config64 24 oneReserved (fun _ => 0) ps := by
  have h1 := Boot.Reach.init (c := config64) |>.call (.add 0 0x100000) (by decide) rfl
  have h2 : Boot.Reach config64 ⟨oneReserved, []⟩ := h1.call (.reserve 0 0x2000) (by decide) rfl
  refine (mem_free_all_whole_pages config64 24 (by decide) _ h2 _).1 fun m hm => ?_
  obtain ⟨l, hl, -, -, hmem⟩ := free_ranges_agree config64.physMax oneReserved h2.ok.kept.memory.listed
    h2.ok.kept.reserved.listed
  have hone : forEachFreeMemRange config64.physMax oneReserved = some [⟨0x2000, 0x100000⟩] := rfl
  obtain rfl := Option.some.inj (hl.symm.trans hone)
  rw [List.mem_singleton.1 ((hmem m).2 hm)]
  exact ⟨0x2000, by decide, by decide, by decide⟩

end Sdfirm.Mem
