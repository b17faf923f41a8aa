import Sdfirm.Spec.Mem

/-!
# Iterators over free memory

`__next_mem_range` and `__next_mem_range_rev` keep a cursor into each array, both
in one word. From any cursors the calls of a loop give what is left of the
common parts of the memory regions and the gaps between the reservations
(`nextLoop_spec`, `nextRevLoop_spec`), one at a time, so that the loops end
with the same ranges (`free_ranges_agree`).
-/

namespace Sdfirm.Mem

open Framework Range

/-! ## Cursors -/

theorem idxA_packIdx {a b : Int} (ha : -2 ^ 31 ≤ a) (ha' : a < 2 ^ 31) : idxA (packIdx a b) = a := by
  have hlow : (packIdx a b &&& 0xffffffff).setWidth 32 = BitVec.ofInt 32 a := by
    apply BitVec.eq_of_getLsbD_eq
    intro i hi
    have hmask : (0xffffffff : BitVec 64).getLsbD i = true := by
      revert i
      decide
    rw [BitVec.getLsbD_setWidth, BitVec.getLsbD_and, hmask, packIdx, BitVec.getLsbD_or, BitVec.getLsbD_setWidth,
      BitVec.getLsbD_shiftLeft]
    simp [hi, show i < 64 by omega]
  rw [idxA, hlow, BitVec.toInt_ofInt, Int.bmod_eq_of_le (by omega) (by omega)]

theorem setWidth_ofInt (b : Int) : (BitVec.ofInt 64 b).setWidth 32 = BitVec.ofInt 32 b := by
  apply BitVec.eq_of_toNat_eq
  rw [BitVec.toNat_setWidth, BitVec.toNat_ofInt, BitVec.toNat_ofInt]
  omega

theorem idxB_packIdx {a b : Int} (hb : -2 ^ 31 ≤ b) (hb' : b < 2 ^ 31) : idxB (packIdx a b) = b := by
  have hhigh : (packIdx a b >>> 32).setWidth 32 = BitVec.ofInt 32 b := by
    apply BitVec.eq_of_getLsbD_eq
    intro i hi
    rw [BitVec.getLsbD_setWidth, BitVec.getLsbD_ushiftRight, packIdx, BitVec.getLsbD_or, BitVec.getLsbD_setWidth,
      BitVec.getLsbD_shiftLeft, BitVec.getLsbD_of_ge (BitVec.ofInt 32 a) _ (by omega)]
    have hbit : (BitVec.ofInt 64 b).getLsbD i = (BitVec.ofInt 32 b).getLsbD i := by
      rw [← setWidth_ofInt, BitVec.getLsbD_setWidth]
      simp [hi]
    simp [hi, show 32 + i < 64 by omega, hbit]
  rw [idxB, hhigh, BitVec.toInt_ofInt, Int.bmod_eq_of_le (by omega) (by omega)]

/-- Only when both cursors are `-1` is their word the one for the end. -/
theorem packIdx_ne {a b : Int} (ha : -1 ≤ a) (ha' : a < 2 ^ 31) (hb : -1 ≤ b) (hb' : b < 2 ^ 31) (h : 0 ≤ a ∨ 0 ≤ b) :
    packIdx a b ≠ ullongMax := by
  intro heq
  have h1 := idxA_packIdx (b := b) (by omega) ha'
  have h2 := idxB_packIdx (a := a) (by omega) hb'
  have hA : idxA ullongMax = -1 := by decide
  have hB : idxB ullongMax = -1 := by decide
  rw [heq] at h1 h2
  omega

section ForEach

variable {next : BitVec 64 → Option (BitVec 64 × Range Nat)} {idx idx' : BitVec 64} {r : Range Nat}

theorem forEach_end (fuel : Nat) (h : next idx = some (ullongMax, r)) : forEach next (fuel + 1) idx = some [] := by
  rw [forEach, h, Option.bind_some]
  exact if_pos rfl

theorem forEach_more (fuel : Nat) (h : next idx = some (idx', r)) (hne : idx' ≠ ullongMax) :
    forEach next (fuel + 1) idx = (forEach next fuel idx').map (r :: ·) := by
  rw [forEach, h, Option.bind_some]
  exact if_neg hne

end ForEach

/-! ## What is left -/

section Left

variable {physMax : Nat} {s : MemState} {a b : Nat}

/-- The memory regions. -/
abbrev MemState.regions (s : MemState) : List (Range Nat) := ranges s.memory.regions

/-- The gaps between the reservations. -/
abbrev MemState.gaps (physMax : Nat) (s : MemState) : List (Range Nat) := Range.gaps 0 physMax (ranges s.reserved.regions)

theorem length_ranges (rs : List MemRegion) : (ranges rs).length = rs.length := List.length_map ..

theorem regionAt_eq (t : MemType) (i : Nat) : regionAt t i = (ranges t.regions).getD i ⟨0, 0⟩ := by
  rw [ranges, show (⟨0, 0⟩ : Range Nat) = MemRegion.range ⟨0, 0⟩ from rfl, List.getD_map]
  rfl

theorem drop_regions (h : a < s.memory.regions.length) :
    s.regions.drop a = regionAt s.memory a :: s.regions.drop (a + 1) := by
  rw [List.drop_eq_getElem_cons (by rwa [length_ranges]), regionAt_eq, List.getD_eq_getElem]

theorem take_regions (h : a < s.memory.regions.length) :
    s.regions.take (a + 1) = s.regions.take a ++ [regionAt s.memory a] := by
  rw [List.take_succ_eq_append_getElem (by rwa [length_ranges]), regionAt_eq, List.getD_eq_getElem]

theorem getElem?_gaps_eq (physMax : Nat) (h : b ≤ s.reserved.regions.length) :
    (s.gaps physMax)[b]? = some (areaAt physMax s.reserved b) := by
  rw [MemState.gaps, getElem?_gaps _ _ _ ⟨0, 0⟩ _ (by rwa [length_ranges]), areaAt, length_ranges]
  congr 2
  · by_cases hb : b = 0
    · rw [if_neg (by omega), if_neg (by omega)]
    · rw [if_pos hb, if_pos (by omega), show (b : Int) - 1 = (b - 1 : Nat) by omega, regionAt_eq]
  · rw [regionAt_eq]
    simp [idxLt]

theorem drop_gaps (h : b ≤ s.reserved.regions.length) :
    (s.gaps physMax).drop b = areaAt physMax s.reserved b :: (s.gaps physMax).drop (b + 1) := by
  obtain ⟨hlt, heq⟩ := List.getElem?_eq_some_iff.1 (getElem?_gaps_eq physMax h)
  rw [List.drop_eq_getElem_cons hlt, heq]

theorem take_gaps (h : b ≤ s.reserved.regions.length) :
    (s.gaps physMax).take (b + 1) = (s.gaps physMax).take b ++ [areaAt physMax s.reserved b] := by
  obtain ⟨hlt, heq⟩ := List.getElem?_eq_some_iff.1 (getElem?_gaps_eq physMax h)
  rw [List.take_succ_eq_append_getElem hlt, heq]

theorem idxLt_natCast (i n : Nat) : idxLt i n = true ↔ i < n := by
  simp [idxLt]

end Left

/-! ## Forward -/

section Loops

variable {physMax : Nat} {s : MemState} (hA : InOrder s.regions) (hG : InOrder (s.gaps physMax))

include hA hG

/-- A call from the cursors `a` and `b` comes to the end, or gives the first of the ranges that are left and goes
on. -/
theorem nextLoop_spec (fuel a b : Nat)
    (hfuel : s.memory.regions.length + (s.reserved.regions.length + 1) < a + b + fuel) (ha : a ≤ s.memory.regions.length)
    (hb : b ≤ s.reserved.regions.length + 1) :
    (inter (s.regions.drop a) ((s.gaps physMax).drop b) = [] ∧
      nextLoop physMax s.memory s.reserved fuel a b = some (ullongMax, ⟨0, 0⟩)) ∨
    ∃ (r : Range Nat) (a' b' : Nat), nextLoop physMax s.memory s.reserved fuel a b = some (packIdx a' b', r) ∧
      inter (s.regions.drop a) ((s.gaps physMax).drop b) = r :: inter (s.regions.drop a') ((s.gaps physMax).drop b') ∧
      a' ≤ s.memory.regions.length ∧ b' ≤ s.reserved.regions.length + 1 ∧ a + b < a' + b' := by
  induction fuel generalizing a b with
  | zero => omega
  | succ fuel ih =>
    rw [nextLoop]
    by_cases hma : a < s.memory.regions.length
    · rw [if_pos ((idxLt_natCast _ _).2 hma)]
      have hAd : InOrder (s.regions.drop a) := hA.sublist (List.drop_sublist _ _)
      have hGd : InOrder ((s.gaps physMax).drop b) := hG.sublist (List.drop_sublist _ _)
      by_cases hmb : b < s.reserved.regions.length + 1
      · rw [if_pos ((idxLt_natCast _ _).2 hmb)]
        rw [drop_regions hma] at hAd ⊢
        rw [drop_gaps (Nat.le_of_lt_succ hmb)] at hGd ⊢
        by_cases hskip : (regionAt s.memory a).hi ≤ (areaAt physMax s.reserved b).lo
        · rw [if_pos hskip, inter_skip_left hGd hskip, ← drop_gaps (Nat.le_of_lt_succ hmb)]
          have hnext := ih (a + 1) b (by omega) (by omega) hb
          push_cast at hnext
          refine hnext.imp_right fun ⟨r, a', b', h1, h2, h3, h4, h5⟩ => ⟨r, a', b', h1, h2, h3, h4, by omega⟩
        · rw [if_neg hskip]
          by_cases hlt : (regionAt s.memory a).lo < (areaAt physMax s.reserved b).hi
          · rw [if_pos hlt]
            have hmeet : (regionAt s.memory a).Meets (areaAt physMax s.reserved b) := ⟨hlt, not_le.1 hskip⟩
            -- the range that ends first is done with
            by_cases hend : (regionAt s.memory a).hi ≤ (areaAt physMax s.reserved b).hi
            · rw [if_pos hend, inter_emit_left hGd hmeet hend, ← drop_gaps (Nat.le_of_lt_succ hmb)]
              exact .inr ⟨_, a + 1, b, by push_cast; rfl, rfl, by omega, hb, by omega⟩
            · rw [if_neg hend, inter_emit_right hAd hmeet (by omega), ← drop_regions hma]
              exact .inr ⟨_, a, b + 1, by push_cast; rfl, rfl, ha, by omega, by omega⟩
          · rw [if_neg hlt, inter_skip_right hAd (by omega), ← drop_regions hma]
            have hnext := ih a (b + 1) (by omega) ha (by omega)
            push_cast at hnext
            refine hnext.imp_right fun ⟨r, a', b', h1, h2, h3, h4, h5⟩ => ⟨r, a', b', h1, h2, h3, h4, by omega⟩
      · -- no gap is left
        rw [if_neg (by rwa [idxLt_natCast])]
        have hnil : (s.gaps physMax).drop b = [] := by
          apply List.drop_eq_nil_of_le
          rw [length_gaps, length_ranges]
          omega
        have hnext := ih (a + 1) b (by omega) (by omega) hb
        push_cast at hnext
        rw [hnil, inter_nil_right] at hnext ⊢
        refine hnext.imp_right fun ⟨r, a', b', h1, h2, h3, h4, h5⟩ => absurd h2 (by simp)
    · -- no region is left
      rw [if_neg (by rwa [idxLt_natCast])]
      have hnil : s.regions.drop a = [] := by
        apply List.drop_eq_nil_of_le
        rw [length_ranges]
        omega
      rw [hnil]
      exact .inl ⟨rfl, rfl⟩

/-- The loop from the cursors `a` and `b` runs for the ranges that are left. -/
theorem forEach_spec (hcntA : s.memory.regions.length < 2 ^ 31) (hcntB : s.reserved.regions.length + 1 < 2 ^ 31)
    (fuel a b : Nat) (hfuel : s.memory.regions.length + (s.reserved.regions.length + 1) < a + b + fuel)
    (ha : a ≤ s.memory.regions.length) (hb : b ≤ s.reserved.regions.length + 1) :
    forEach (nextMemRange physMax s.memory s.reserved) fuel (packIdx a b) =
      some (inter (s.regions.drop a) ((s.gaps physMax).drop b)) := by
  induction fuel generalizing a b with
  | zero => omega
  | succ fuel ih =>
    have hcall : nextMemRange physMax s.memory s.reserved (packIdx a b) = nextLoop physMax s.memory s.reserved
        (s.memory.regions.length + s.reserved.regions.length + 2) a b := by
      rw [nextMemRange, idxA_packIdx (by omega) (by omega), idxB_packIdx (by omega) (by omega)]
    obtain ⟨hnil, hend⟩ | ⟨r, a', b', hnext, heq, ha', hb', hlt⟩ :=
      nextLoop_spec hA hG (s.memory.regions.length + s.reserved.regions.length + 2) a b (by omega) ha hb
    · rw [forEach_end fuel (hcall.trans hend), hnil]
    · have hne : packIdx a' b' ≠ ullongMax := packIdx_ne (by omega) (by omega) (by omega) (by omega) (by omega)
      rw [forEach_more fuel (hcall.trans hnext) hne, ih a' b' (by omega) ha' hb', heq, Option.map_some]

/-! ## Backward -/

/-- A call from the cursors `a - 1` and `b - 1` comes to the end, or gives the last of the ranges that are left and
goes on. -/
theorem nextRevLoop_spec (fuel a b : Nat) (hfuel : a + b < fuel) (ha : a ≤ s.memory.regions.length)
    (hb : b ≤ s.reserved.regions.length + 1) :
    (inter (s.regions.take a) ((s.gaps physMax).take b) = [] ∧
      nextRevLoop physMax s.memory s.reserved fuel (a - 1) (b - 1) = some (ullongMax, ⟨0, 0⟩)) ∨
    ∃ (r : Range Nat) (a' b' : Nat),
      nextRevLoop physMax s.memory s.reserved fuel (a - 1) (b - 1) = some (packIdx (a' - 1) (b' - 1), r) ∧
      inter (s.regions.take a) ((s.gaps physMax).take b) = inter (s.regions.take a') ((s.gaps physMax).take b') ++ [r] ∧
      a' + b' < a + b ∧ a' ≤ a ∧ b' ≤ b ∧ 0 < a' + b' := by
  induction fuel generalizing a b with
  | zero => omega
  | succ fuel ih =>
    rw [nextRevLoop]
    cases a with
    | zero =>
      rw [if_neg (by omega), List.take_zero]
      exact .inl ⟨rfl, rfl⟩
    | succ a =>
      rw [if_pos (by omega)]
      have hAt : InOrder (s.regions.take (a + 1)) := hA.sublist (List.take_sublist _ _)
      have hGt : InOrder ((s.gaps physMax).take b) := hG.sublist (List.take_sublist _ _)
      have hcast : ((a + 1 : Nat) : Int) - 1 = a := by omega
      rw [hcast]
      cases b with
      | zero =>
        rw [if_neg (by omega), List.take_zero, inter_nil_right]
        have hnext := ih a 0 (by omega) (by omega) (by omega)
        rw [List.take_zero, inter_nil_right] at hnext
        exact hnext.imp_right fun ⟨r, a', b', h1, h2, h3⟩ => absurd h2 (by simp)
      | succ b =>
        have hcast' : ((b + 1 : Nat) : Int) - 1 = b := by omega
        rw [if_pos (by omega), hcast']
        rw [take_regions (by omega)] at hAt ⊢
        rw [take_gaps (by omega)] at hGt ⊢
        by_cases hskip : (areaAt physMax s.reserved b).hi ≤ (regionAt s.memory a).lo
        · rw [if_pos hskip, inter_concat_skip_left hGt hskip, ← take_gaps (by omega)]
          have hnext := ih a (b + 1) (by omega) (by omega) (by omega)
          rw [hcast'] at hnext
          exact hnext.imp_right fun ⟨r, a', b', h1, h2, h3, h4, h5, h6⟩ =>
            ⟨r, a', b', h1, h2, by omega, by omega, h5, h6⟩
        · rw [if_neg hskip]
          by_cases hlt : (areaAt physMax s.reserved b).lo < (regionAt s.memory a).hi
          · rw [if_pos hlt]
            have hmeet : (regionAt s.memory a).Meets (areaAt physMax s.reserved b) := ⟨not_le.1 hskip, hlt⟩
            -- the range that starts last is done with
            by_cases hstart : (areaAt physMax s.reserved b).lo ≤ (regionAt s.memory a).lo
            · rw [if_pos hstart, inter_concat_emit_left hGt hmeet hstart, ← take_gaps (by omega)]
              exact .inr ⟨_, a, b + 1, by rw [hcast']; rfl, rfl, by omega, by omega, le_refl _, by omega⟩
            · rw [if_neg hstart, inter_concat_emit_right hAt hmeet (by omega), ← take_regions (by omega)]
              exact .inr ⟨_, a + 1, b, by rw [hcast]; rfl, rfl, by omega, le_refl _, by omega, by omega⟩
          · rw [if_neg hlt, inter_concat_skip_right hAt (by omega), ← take_regions (by omega)]
            have hnext := ih (a + 1) b (by omega) (by omega) (by omega)
            rw [hcast] at hnext
            exact hnext.imp_right fun ⟨r, a', b', h1, h2, h3, h4, h5, h6⟩ =>
              ⟨r, a', b', h1, h2, by omega, h4, by omega, h6⟩

/-- The loop from cursors that are in use runs for the ranges that are left, the last one first. -/
theorem forEach_rev_spec (hcntA : s.memory.regions.length < 2 ^ 31) (hcntB : s.reserved.regions.length + 1 < 2 ^ 31)
    (fuel a b : Nat) (hfuel : a + b < fuel) (ha : a ≤ s.memory.regions.length) (hb : b ≤ s.reserved.regions.length + 1)
    (idx : BitVec 64) (hidx : idx = packIdx (a - 1) (b - 1) ∧ 0 < a + b ∨
      idx = ullongMax ∧ a = s.memory.regions.length ∧ b = s.reserved.regions.length + 1) :
    forEach (nextMemRangeRev physMax s.memory s.reserved) fuel idx =
      some (inter (s.regions.take a) ((s.gaps physMax).take b)).reverse := by
  induction fuel generalizing a b idx with
  | zero => omega
  | succ fuel ih =>
    have hcall : nextMemRangeRev physMax s.memory s.reserved idx = nextRevLoop physMax s.memory s.reserved
        (s.memory.regions.length + s.reserved.regions.length + 3) (a - 1) (b - 1) := by
      rw [nextMemRangeRev]
      obtain ⟨rfl, hpos⟩ | ⟨rfl, rfl, rfl⟩ := hidx
      · rw [if_neg (packIdx_ne (by omega) (by omega) (by omega) (by omega) (by omega)), idxA_packIdx (by omega) (by omega),
          idxB_packIdx (by omega) (by omega)]
      · rw [if_pos rfl, BitVec.toInt_ofInt, BitVec.toInt_ofInt, Int.bmod_eq_of_le (by omega) (by omega),
          Int.bmod_eq_of_le (by omega) (by omega), show ((s.reserved.regions.length + 1 : Nat) : Int) - 1 =
            s.reserved.regions.length by omega]
    obtain ⟨hnil, hend⟩ | ⟨r, a', b', hnext, heq, hlt, ha', hb', hpos⟩ :=
      nextRevLoop_spec hA hG (s.memory.regions.length + s.reserved.regions.length + 3) a b (by omega) ha hb
    · rw [forEach_end fuel (hcall.trans hend), hnil, List.reverse_nil]
    · have hne : packIdx ((a' : Int) - 1) ((b' : Int) - 1) ≠ ullongMax :=
        packIdx_ne (by omega) (by omega) (by omega) (by omega) (by omega)
      rw [forEach_more fuel (hcall.trans hnext) hne, ih a' b' (by omega) (by omega) (by omega) _ (.inl ⟨rfl, hpos⟩), heq,
        List.reverse_concat, Option.map_some]

end Loops

/-! ## Both directions -/

section Listed

variable {physMax : Nat} {t : MemType}

namespace MemType.Listed

theorem inOrder (h : t.Listed physMax) : InOrder (ranges t.regions) := by
  refine ⟨h.separated.apart, fun r hr => ?_⟩
  obtain ⟨q, -, rfl⟩ := List.mem_map.1 hr
  exact Nat.le_add_right _ _

theorem hi_le (h : t.Listed physMax) {r : Range Nat} (hr : r ∈ ranges t.regions) : r.hi ≤ physMax := by
  obtain ⟨q, hq, rfl⟩ := List.mem_map.1 hr
  exact h.fits q hq

/-- A region that is empty starts and ends at 0. -/
theorem proper_or_zero (h : t.Listed physMax) {r : Range Nat} (hr : r ∈ ranges t.regions) : r.lo < r.hi ∨ r.hi = 0 := by
  obtain ⟨q, hq, rfl⟩ := List.mem_map.1 hr
  have hdummy := h.dummy q hq
  simp only [MemRegion.range]
  omega

/-- Only the first region can be empty. -/
theorem tail_proper (h : t.Listed physMax) {r : Range Nat} {l : List (Range Nat)} (hl : ranges t.regions = r :: l) :
    Proper l := by
  intro q hq
  have hsep := h.separated
  rw [hl] at hsep
  have hlt := (separated_cons.1 hsep).1 q hq
  obtain hp | hz := h.proper_or_zero (hl ▸ List.mem_cons_of_mem _ hq)
  · exact hp
  · have hle := h.inOrder.le q (hl ▸ List.mem_cons_of_mem _ hq)
    omega

theorem inOrder_gaps (h : t.Listed physMax) : InOrder (Range.gaps 0 physMax (ranges t.regions)) :=
  Range.inOrder_gaps h.inOrder (fun _ _ => Nat.zero_le _) (fun _ hr => h.hi_le hr) (Nat.zero_le _)

theorem cover_gaps (h : t.Listed physMax) :
    Range.cover (Range.gaps 0 physMax (ranges t.regions)) = Set.Ico 0 physMax \ t.cover :=
  Range.cover_gaps h.inOrder (fun _ _ => Nat.zero_le _) fun _ hr => h.hi_le hr

/-- Only an empty gap at 0 touches the next one. -/
theorem gaps_separated (h : t.Listed physMax) :
    (Range.gaps 0 physMax (ranges t.regions)).Pairwise fun g g' => g.hi < g'.lo ∨ g.hi = 0 := by
  cases hl : ranges t.regions with
  | nil => exact List.pairwise_singleton _ _
  | cons r l =>
    have hord := h.inOrder
    rw [hl] at hord
    obtain ⟨hr, hlt, hord⟩ := inOrder_cons.1 hord
    refine List.pairwise_cons.2 ⟨fun g hg => ?_, ?_⟩
    · have hle := le_lo_of_mem_gaps hord hlt hg
      obtain hp | hz := h.proper_or_zero (hl ▸ List.mem_cons_self)
      · exact .inl (hp.trans_le hle)
      · exact .inr (Nat.le_zero.1 (hr.trans hz.le))
    · exact (separated_gaps hord (h.tail_proper hl) hlt).imp .inl

/-- An empty gap is at 0 or at the end. -/
theorem gap_proper (h : t.Listed physMax) {g : Range Nat} (hg : g ∈ Range.gaps 0 physMax (ranges t.regions)) :
    g.lo < g.hi ∨ g.hi = 0 ∨ physMax ≤ g.lo := by
  cases hl : ranges t.regions with
  | nil =>
    rw [hl] at hg
    rw [List.mem_singleton.1 hg]
    simp only
    omega
  | cons r l =>
    rw [hl] at hg
    have hsep := h.separated
    rw [hl] at hsep
    obtain ⟨hlt, hsep⟩ := separated_cons.1 hsep
    obtain rfl | hg := List.mem_cons.1 hg
    · simp only
      omega
    · obtain hp | hend := Range.gap_proper hsep hlt hg
      · exact .inl hp
      · exact .inr (.inr hend)

end MemType.Listed

end Listed

section Agree

variable {physMax : Nat} {s : MemState} (hm : s.memory.Listed physMax) (hr : s.reserved.Listed physMax)

include hm hr

theorem meets_proper {m g : Range Nat} (hmm : m ∈ s.regions) (hg : g ∈ s.gaps physMax) (hmeet : m.Meets g) :
    m.lo < m.hi ∧ g.lo < g.hi := by
  have hhi := hm.hi_le hmm
  obtain ⟨h1, h2⟩ := hmeet
  obtain hp | hz := hm.proper_or_zero hmm
  · refine ⟨hp, ?_⟩
    obtain hp' | hz' | hend := hr.gap_proper hg
    · exact hp'
    · omega
    · omega
  · omega

/-- The free ranges as the iterators give them. -/
theorem free_ranges : ∃ l, forEachFreeMemRange physMax s = some l ∧ forEachFreeMemRangeReverse physMax s = some l.reverse ∧
    Separated l ∧ Proper l ∧ cover l = s.free := by
  refine ⟨inter s.regions (s.gaps physMax), ?_, ?_, ?_, ?_, ?_⟩
  · have hfwd := forEach_spec hm.inOrder hr.inOrder_gaps (by have := hm.cnt_lt; omega) hr.cnt_lt
      (s.memory.regions.length + s.reserved.regions.length + 2) 0 0 (by omega) (Nat.zero_le _) (Nat.zero_le _)
    rw [List.drop_zero, List.drop_zero] at hfwd
    exact hfwd
  · have hrev := forEach_rev_spec hm.inOrder hr.inOrder_gaps (by have := hm.cnt_lt; omega) hr.cnt_lt
      (s.memory.regions.length + s.reserved.regions.length + 2) _ _ (by omega) (le_refl _) (le_refl _) ullongMax
      (.inr ⟨rfl, rfl, rfl⟩)
    rw [List.take_of_length_le (by rw [length_ranges]), List.take_of_length_le (by rw [length_gaps, length_ranges])] at hrev
    exact hrev
  · refine separated_inter hm.separated (hr.gaps_separated.imp fun {g g'} h => h.imp_right fun hz m _ hmeet => ?_)
    have hlt := hmeet.1
    omega
  · intro r hrr
    obtain ⟨m, hmm, g, hg, hmeet, rfl⟩ := mem_inter.1 hrr
    obtain ⟨h1, h2⟩ := meets_proper hm hr hmm hg hmeet
    exact meet_proper h1 h2 hmeet
  · rw [cover_inter, hr.cover_gaps, MemState.free]
    ext x
    constructor
    · intro ⟨h1, _, h2⟩
      exact ⟨h1, h2⟩
    · intro ⟨h1, h2⟩
      obtain ⟨r, hrr, hx⟩ := h1
      exact ⟨⟨r, hrr, hx⟩, ⟨Nat.zero_le _, hx.2.trans_le (hm.hi_le hrr)⟩, h2⟩

end Agree

/-- The loops over free memory end. They run for the maximal ranges that are memory and not reserved, in increasing
order and in decreasing order. -/
theorem free_ranges_agree (physMax : Nat) (s : MemState) (hm : s.memory.Listed physMax) (hr : s.reserved.Listed physMax) :
    ∃ l, forEachFreeMemRange physMax s = some l ∧ forEachFreeMemRangeReverse physMax s = some l.reverse ∧
      (l.Pairwise fun r r' => r.hi < r'.lo) ∧ ∀ r, r ∈ l ↔ Range.Maximal s.free r := by
  obtain ⟨l, hfwd, hrev, hsep, hprop, hcover⟩ := free_ranges hm hr
  refine ⟨l, hfwd, hrev, hsep, fun r => ?_⟩
  rw [← hcover]
  exact mem_iff_maximal hsep hprop

/-- Two regions of memory, one of which begins and one of which ends within a reservation. -/
def twoRegions : MemState :=
  ⟨⟨[⟨0x1000, 0x3000⟩, ⟨0x8000, 0x2000⟩], 3, 0x5000⟩, ⟨[⟨0, 0x2000⟩, ⟨0x3000, 0x800⟩, ⟨0x9000, 0x4000⟩], 3, 0x6800⟩⟩

theorem free_ranges_agree_twoRegions :
    ∃ l, forEachFreeMemRange (2 ^ 64 - 1) twoRegions = some l ∧
      forEachFreeMemRangeReverse (2 ^ 64 - 1) twoRegions = some l.reverse ∧
      (l.Pairwise fun r r' => r.hi < r'.lo) ∧ ∀ r, r ∈ l ↔ Range.Maximal twoRegions.free r :=
  free_ranges_agree (2 ^ 64 - 1) twoRegions ⟨by decide, by decide, by decide, by decide⟩
    ⟨by decide, by decide, by decide, by decide⟩

end Sdfirm.Mem
