import Sdfirm.Proof.Mem.Iter
import Sdfirm.Proof.Mem.Run

/-!
# `mem_alloc`

`memFindInRange_cases`: `mem_find_in_range` is a search through the list of
the free ranges. What it finds lies in one of them and in the window
(`memFindInRange_sound`), and for a power of two as alignment it finds an
aligned place when there is one (`memFindInRange_complete`). A range outside
all reservations takes one slot (`memAddRange_apart`), so `mem_alloc` stops
in `BUG()` just when something fits and no slot is left
(`mem_alloc_first_fit`).
-/

namespace Sdfirm.Mem

open Framework

/-! ## Rounding -/

namespace MemConfig

variable {c : MemConfig} {x y k : Nat}

theorem physMax_lt (c : MemConfig) : c.physMax < 2 ^ c.bits := Nat.sub_lt (Nat.two_pow_pos _) Nat.one_pos

theorem pageSize_pos (c : MemConfig) : 0 < c.pageSize := Nat.two_pow_pos _

theorem pageSize_le (c : MemConfig) : c.pageSize ≤ c.physMax := 
  Nat.le_sub_one_of_lt (Nat.pow_lt_pow_right Nat.one_lt_two c.pageShift_lt)

theorem pred_mod (hx : 0 < x) (hx' : x ≤ c.physMax) : (x + c.physMax) % 2 ^ c.bits = x - 1 := by
  have hlt := c.physMax_lt
  have hmax : c.physMax = 2 ^ c.bits - 1 := rfl
  rw [show x + c.physMax = x - 1 + 2 ^ c.bits by omega, Nat.add_mod_right, Nat.mod_eq_of_lt (by omega)]

theorem two_pow_le_physMax (hk : k < c.bits) : 2 ^ k ≤ c.physMax :=
  Nat.le_sub_one_of_lt (Nat.pow_lt_pow_right Nat.one_lt_two hk)

theorem roundMask_two_pow (hk : k < c.bits) : c.roundMask (2 ^ k) = 2 ^ k - 1 :=
  pred_mod (Nat.two_pow_pos k) (two_pow_le_physMax hk)

theorem roundDown_le : c.roundDown x y ≤ x := Nat.and_le_left

theorem roundDown_two_pow (hk : k < c.bits) (hx : x ≤ c.physMax) : c.roundDown x (2 ^ k) = x / 2 ^ k * 2 ^ k := by
  rw [roundDown, roundMask_two_pow hk]
  apply Nat.eq_of_testBit_eq
  intro i
  rw [Nat.testBit_and, Nat.testBit_xor, physMax, Nat.testBit_two_pow_sub_one, Nat.testBit_two_pow_sub_one,
    Nat.testBit_mul_two_pow, Nat.testBit_div_two_pow]
  by_cases hik : i < k
  · simp [hik, hik.trans hk]
  · rw [not_lt] at hik
    by_cases hib : i < c.bits
    · simp [hib, hik]
    · -- the bits of `x` end below
      rw [not_lt] at hib
      have hlt : x < 2 ^ i := (hx.trans_lt c.physMax_lt).trans_le (Nat.pow_le_pow_right Nat.two_pos hib)
      simp [hik, Nat.testBit_lt_two_pow hlt]

theorem dvd_roundDown (hk : k < c.bits) (hx : x ≤ c.physMax) : 2 ^ k ∣ c.roundDown x (2 ^ k) := by
  rw [roundDown_two_pow hk hx]
  exact Nat.dvd_mul_left _ _

/-- No multiple lies between. -/
theorem le_roundDown (hk : k < c.bits) (hx : x ≤ c.physMax) (hy : 2 ^ k ∣ y) (hyx : y ≤ x) :
    y ≤ c.roundDown x (2 ^ k) := by
  obtain ⟨q, rfl⟩ := hy
  rw [roundDown_two_pow hk hx, Nat.mul_comm]
  apply Nat.mul_le_mul_right
  rw [Nat.le_div_iff_mul_le (Nat.two_pow_pos k), Nat.mul_comm]
  exact hyx

theorem roundMask_lt : c.roundMask y < 2 ^ c.bits := Nat.mod_lt _ (Nat.two_pow_pos _)

/-- `round_up` wraps to 0 or does not go below its argument. -/
theorem roundUp_ge (hx : 0 < x) (hx' : x ≤ c.physMax) (h : c.roundUp x y ≠ 0) : x ≤ c.roundUp x y := by
  have hlt : x - 1 < 2 ^ c.bits := lt_of_le_of_lt (Nat.sub_le _ _) (hx'.trans_lt c.physMax_lt)
  have hor : x - 1 ||| c.roundMask y < 2 ^ c.bits := Nat.or_lt_two_pow hlt roundMask_lt
  rw [roundUp, pred_mod hx hx'] at h ⊢
  obtain heq | hne := eq_or_ne ((x - 1 ||| c.roundMask y) + 1) (2 ^ c.bits)
  · rw [heq, Nat.mod_self] at h
    exact absurd rfl h
  · rw [Nat.mod_eq_of_lt (lt_of_le_of_ne hor hne)]
    have hle : x - 1 ≤ x - 1 ||| c.roundMask y := Nat.left_le_or
    omega

theorem dvd_roundUp (hk : k < c.bits) (hx : 0 < x) (hx' : x ≤ c.physMax) : 2 ^ k ∣ c.roundUp x (2 ^ k) := by
  rw [roundUp, pred_mod hx hx', roundMask_two_pow hk]
  apply (Nat.dvd_mod_iff (pow_dvd_pow 2 hk.le)).2
  apply Nat.dvd_of_mod_eq_zero
  -- the lower bits of the sum's first part are all set
  have hones : (x - 1 ||| 2 ^ k - 1) % 2 ^ k = 2 ^ k - 1 := by
    apply Nat.eq_of_testBit_eq
    intro i
    simp only [Nat.testBit_mod_two_pow, Nat.testBit_or, Nat.testBit_two_pow_sub_one]
    by_cases hik : i < k <;> simp [hik]
  have hpos := Nat.two_pow_pos k
  rw [← Nat.mod_add_mod, hones, show 2 ^ k - 1 + 1 = 2 ^ k by omega, Nat.mod_self]

end MemConfig

/-! ## The search -/

section Search

variable {c : MemConfig} {start end_ size align : Nat} {l : List (Range Nat)} {lo hi a : Nat}

theorem clamp_ge (hse : start ≤ end_) : start ≤ clamp lo start end_ := le_min (le_max_right _ _) hse

theorem clamp_le : clamp lo start end_ ≤ end_ := min_le_right _ _

/-- A range within the clamped bounds, and not empty, lies within the bounds and in the window. -/
theorem within_clamp (hpos : 0 < size) (hse : start ≤ end_) (h1 : clamp lo start end_ ≤ a)
    (h2 : a + size ≤ clamp hi start end_) : lo ≤ a ∧ a + size ≤ hi ∧ start ≤ a ∧ a + size ≤ end_ := by
  unfold clamp at h1 h2
  omega

theorem clamp_le_of_le (h : lo ≤ a) (hs : start ≤ a) : clamp lo start end_ ≤ a := (min_le_left _ _).trans (max_le h hs)

theorem le_clamp_of_le (h : a ≤ hi) (he : a ≤ end_) : a ≤ clamp hi start end_ := le_min (h.trans (le_max_left _ _)) he

theorem topDownLoop_found (h : topDownLoop c start end_ size align l ≠ 0) :
    ∃ r ∈ l, size ≤ clamp r.hi start end_ ∧
      topDownLoop c start end_ size align l = c.roundDown (clamp r.hi start end_ - size) align ∧
      clamp r.lo start end_ ≤ topDownLoop c start end_ size align l := by
  induction l with
  | nil => exact absurd rfl h
  | cons r l ih =>
    by_cases hfound : size ≤ clamp r.hi start end_ ∧
        clamp r.lo start end_ ≤ c.roundDown (clamp r.hi start end_ - size) align
    · have heq : topDownLoop c start end_ size align (r :: l) = c.roundDown (clamp r.hi start end_ - size) align := by
        simp only [topDownLoop]
        rw [if_neg (not_lt.2 hfound.1), if_pos hfound.2]
      refine ⟨r, List.mem_cons_self, hfound.1, heq, ?_⟩
      rw [heq]
      exact hfound.2
    · have heq : topDownLoop c start end_ size align (r :: l) = topDownLoop c start end_ size align l := by
        simp only [topDownLoop]
        split_ifs with h1 h2
        · rfl
        · exact absurd ⟨not_lt.1 h1, h2⟩ hfound
        · rfl
      rw [heq] at h ⊢
      obtain ⟨r', hr', h'⟩ := ih h
      exact ⟨r', List.mem_cons_of_mem _ hr', h'⟩

theorem topDownLoop_none (hstart : 0 < start) (hse : start ≤ end_) (h : topDownLoop c start end_ size align l = 0) :
    ∀ r ∈ l, size ≤ clamp r.hi start end_ →
      c.roundDown (clamp r.hi start end_ - size) align < clamp r.lo start end_ := by
  induction l with
  | nil => intro r hr; exact absurd hr List.not_mem_nil
  | cons r l ih =>
    simp only [topDownLoop] at h
    have hge : start ≤ clamp r.lo start end_ := clamp_ge hse
    split_ifs at h with h1 h2
    · intro r' hr' hle
      obtain rfl | hr' := List.mem_cons.1 hr'
      · omega
      · exact ih h r' hr' hle
    · omega
    · intro r' hr' hle
      obtain rfl | hr' := List.mem_cons.1 hr'
      · omega
      · exact ih h r' hr' hle

theorem bottomUpLoop_found (h : bottomUpLoop c start end_ size align l ≠ 0) :
    ∃ r ∈ l, bottomUpLoop c start end_ size align l = c.roundUp (clamp r.lo start end_) align ∧
      bottomUpLoop c start end_ size align l + size ≤ clamp r.hi start end_ := by
  induction l with
  | nil => exact absurd rfl h
  | cons r l ih =>
    simp only [bottomUpLoop] at h ⊢
    split_ifs at h ⊢ with h1
    · exact ⟨r, List.mem_cons_self, rfl, by omega⟩
    · obtain ⟨r', hr', h'⟩ := ih h
      exact ⟨r', List.mem_cons_of_mem _ hr', h'⟩

end Search

section Find

/-- The window of `mem_find_in_range`. -/
def MemConfig.lowest (c : MemConfig) (start : Nat) : Nat := max start c.pageSize

def MemConfig.highest (c : MemConfig) (start end_ : Nat) : Nat :=
  max (c.lowest start) (if end_ = 0 then c.physMax else end_)

variable {c : MemConfig} {s : MemState} (hm : s.memory.Listed c.physMax) (hr : s.reserved.Listed c.physMax)
  {size align start end_ a : Nat}

theorem MemConfig.lowest_pos (c : MemConfig) (start : Nat) : 0 < c.lowest start :=
  c.pageSize_pos.trans_le (le_max_right _ _)

theorem MemConfig.lowest_le_highest (c : MemConfig) (start end_ : Nat) : c.lowest start ≤ c.highest start end_ :=
  le_max_left _ _

theorem MemConfig.highest_le (hs : start ≤ c.physMax) (he : end_ ≤ c.physMax) : c.highest start end_ ≤ c.physMax := by
  apply max_le (max_le hs c.pageSize_le)
  split_ifs
  · exact le_refl _
  · exact he

include hm hr in
/-- The search is one through the free ranges, upwards from the end of the kernel or downwards. -/
theorem memFindInRange_cases (size align start end_ : Nat) : ∃ l a, Range.Separated l ∧ Range.Proper l ∧
    Range.cover l = s.free ∧ memFindInRange c s size align start end_ = some a ∧
      (a ≠ 0 ∧ c.kernelEnd < c.highest start end_ ∧
          a = bottomUpLoop c (max (c.lowest start) c.kernelEnd) (c.highest start end_) size align l ∨
        a = topDownLoop c (c.lowest start) (c.highest start end_) size align l.reverse) := by
  obtain ⟨l, hfwd, hrev, hsep, hprop, hcover⟩ := free_ranges hm hr
  have htop : memFindRangeTopDown c (c.lowest start) (c.highest start end_) size align s =
      some (topDownLoop c (c.lowest start) (c.highest start end_) size align l.reverse) := by
    rw [memFindRangeTopDown, hrev, Option.map_some]
  by_cases hup : c.bottomUp ∧ c.kernelEnd < c.highest start end_
  · have hbot : memFindRangeBottomUp c (max (c.lowest start) c.kernelEnd) (c.highest start end_) size align s =
        some (bottomUpLoop c (max (c.lowest start) c.kernelEnd) (c.highest start end_) size align l) := by
      rw [memFindRangeBottomUp, hfwd, Option.map_some]
    have heq : memFindInRange c s size align start end_ =
        if bottomUpLoop c (max (c.lowest start) c.kernelEnd) (c.highest start end_) size align l ≠ 0 then
          some (bottomUpLoop c (max (c.lowest start) c.kernelEnd) (c.highest start end_) size align l)
        else some (topDownLoop c (c.lowest start) (c.highest start end_) size align l.reverse) := by
      rw [← htop]
      exact (if_pos hup).trans (congrArg (Option.bind · _) hbot)
    split_ifs at heq with hfound
    · exact ⟨l, _, hsep, hprop, hcover, heq, .inl ⟨hfound, hup.2, rfl⟩⟩
    · exact ⟨l, _, hsep, hprop, hcover, heq, .inr rfl⟩
  · refine ⟨l, _, hsep, hprop, hcover, ?_, .inr rfl⟩
    rw [← htop]
    exact if_neg hup

section Window

variable (hs : start ≤ c.physMax) (he : end_ ≤ c.physMax)

include hm hr hs he

/-- What is found is free and in the window. -/
theorem memFindInRange_sound (hpos : 0 < size) (h : memFindInRange c s size align start end_ = some a) (ha : a ≠ 0) :
    c.lowest start ≤ a ∧ a + size ≤ c.highest start end_ ∧ Set.Ico a (a + size) ⊆ s.free := by
  obtain ⟨l, a', hsep, hprop, hcover, heq, hcase⟩ := memFindInRange_cases hm hr size align start end_
  obtain rfl : a' = a := Option.some.inj (heq.symm.trans h)
  have hin : ∀ r ∈ l, r.lo ≤ a' → a' + size ≤ r.hi → Set.Ico a' (a' + size) ⊆ s.free := by
    intro r hr h1 h2 x hx
    rw [← hcover]
    exact ⟨r, hr, h1.trans hx.1, hx.2.trans_le h2⟩
  obtain ⟨-, hend, hbot⟩ | htop := hcase
  · have hse : max (c.lowest start) c.kernelEnd ≤ c.highest start end_ := max_le (c.lowest_le_highest _ _) hend.le
    obtain ⟨r, hr, h1, h2⟩ := bottomUpLoop_found (hbot ▸ ha)
    rw [← hbot] at h1 h2
    -- what is rounded up is in the window, and so not 0
    have hge : max (c.lowest start) c.kernelEnd ≤ clamp r.lo (max (c.lowest start) c.kernelEnd) (c.highest start end_) :=
      clamp_ge hse
    have hle : clamp r.lo (max (c.lowest start) c.kernelEnd) (c.highest start end_) ≤ a' := by
      rw [h1]
      refine MemConfig.roundUp_ge ?_ (clamp_le.trans (MemConfig.highest_le hs he)) (h1 ▸ ha)
      exact (c.lowest_pos start).trans_le ((le_max_left _ _).trans hge)
    obtain ⟨e1, e2, e3, e4⟩ := within_clamp hpos hse hle h2
    exact ⟨(le_max_left _ _).trans e3, e4, hin r hr e1 e2⟩
  · obtain ⟨r, hr, h1, h2, h3⟩ := topDownLoop_found (htop ▸ ha)
    rw [← htop] at h2 h3
    have hle : a' ≤ clamp r.hi (c.lowest start) (c.highest start end_) - size := by
      rw [h2]
      exact MemConfig.roundDown_le
    obtain ⟨e1, e2, e3, e4⟩ := within_clamp hpos (c.lowest_le_highest _ _) h3 (Nat.add_le_of_le_sub h1 hle)
    exact ⟨e3, e4, hin r (List.mem_reverse.1 hr) e1 e2⟩

theorem memFindInRange_aligned {k : Nat} (hk : k < c.bits) (h : memFindInRange c s size (2 ^ k) start end_ = some a) :
    2 ^ k ∣ a := by
  obtain ⟨l, a', hsep, hprop, hcover, heq, hcase⟩ := memFindInRange_cases hm hr size (2 ^ k) start end_
  obtain rfl : a' = a := Option.some.inj (heq.symm.trans h)
  have hmax : c.highest start end_ ≤ c.physMax := MemConfig.highest_le hs he
  obtain ⟨ha, hend, hbot⟩ | htop := hcase
  · obtain ⟨r, hr, h1, -⟩ := bottomUpLoop_found (hbot ▸ ha)
    have hge : max (c.lowest start) c.kernelEnd ≤ clamp r.lo (max (c.lowest start) c.kernelEnd) (c.highest start end_) :=
      clamp_ge (max_le (c.lowest_le_highest _ _) hend.le)
    rw [hbot, h1]
    exact MemConfig.dvd_roundUp hk ((c.lowest_pos start).trans_le ((le_max_left _ _).trans hge)) (clamp_le.trans hmax)
  · obtain rfl | ha := eq_or_ne a' 0
    · exact dvd_zero _
    · obtain ⟨r, hr, -, h2, -⟩ := topDownLoop_found (htop ▸ ha)
      rw [htop, h2]
      exact MemConfig.dvd_roundDown hk ((Nat.sub_le _ _).trans (clamp_le.trans hmax))

/-- Nothing in the window is free and aligned when nothing is found. -/
theorem memFindInRange_complete {k : Nat} (hk : k < c.bits) (hpos : 0 < size)
    (h : memFindInRange c s size (2 ^ k) start end_ = some 0) (hdvd : 2 ^ k ∣ a) (hlow : c.lowest start ≤ a)
    (hhigh : a + size ≤ c.highest start end_) : ¬ Set.Ico a (a + size) ⊆ s.free := by
  intro hfree
  obtain ⟨l, a', hsep, hprop, hcover, heq, hcase⟩ := memFindInRange_cases hm hr size (2 ^ k) start end_
  obtain rfl : a' = 0 := Option.some.inj (heq.symm.trans h)
  obtain ⟨ha, -, -⟩ | htop := hcase
  · exact absurd rfl ha
  rw [← hcover] at hfree
  obtain ⟨r, hr, h1, h2⟩ := Range.exists_of_subset_cover (r := ⟨a, a + size⟩) hsep hprop (Nat.lt_add_of_pos_right hpos) hfree
  -- the whole place lies in the clamped range, so the search would have stopped there
  have hlo : clamp r.lo (c.lowest start) (c.highest start end_) ≤ a := clamp_le_of_le h1 hlow
  have hhi : a + size ≤ clamp r.hi (c.lowest start) (c.highest start end_) := le_clamp_of_le h2 hhigh
  have hnone := topDownLoop_none (c.lowest_pos start) (c.lowest_le_highest _ _) htop.symm r (List.mem_reverse.2 hr)
    ((Nat.le_add_left _ _).trans hhi)
  have hle : a ≤ c.roundDown (clamp r.hi (c.lowest start) (c.highest start end_) - size) (2 ^ k) := by
    refine MemConfig.le_roundDown hk ?_ hdvd (Nat.le_sub_of_add_le hhi)
    exact (Nat.sub_le _ _).trans (clamp_le.trans (MemConfig.highest_le hs he))
  omega

end Window

end Find

/-! ## The reservation -/

section Apart

variable {t : MemType} {base size : Nat}

/-- The counting loop passes the regions below a range that meets none, and stops at the first one above it. -/
theorem addLoop_apart {end_ : Nat} (hbe : base < end_) : ∀ (fuel : Nat) (pre suf : List MemRegion),
    t.regions = pre ++ suf → suf.length < fuel → (∀ r ∈ suf, 0 < r.size ∧ (r.base + r.size ≤ base ∨ end_ ≤ r.base)) →
    ∃ idx, addLoop false end_ fuel ⟨t, pre.length, base, 0⟩ = some ⟨t, idx, base, 0⟩
  | 0, _, _, _, hf, _ => absurd hf (Nat.not_lt_zero _)
  | fuel + 1, pre, [], ht, _, _ => by
    refine ⟨pre.length, ?_⟩
    simp [addLoop, ht]
  | fuel + 1, pre, r :: suf, ht, hf, h => by
    rw [addLoop, ht, getElem?_append_cons]
    obtain ⟨hpos, hlow | hhigh⟩ := h r List.mem_cons_self
    · obtain ⟨idx, hidx⟩ := addLoop_apart hbe fuel (pre ++ [r]) suf (by simp [ht]) (by simpa using hf)
        fun q hq => h q (List.mem_cons_of_mem _ hq)
      refine ⟨idx, ?_⟩
      simp only
      rw [if_neg (by omega), if_pos hlow, ← hidx]
      simp only [List.length_append, List.length_singleton]
    · exact ⟨pre.length, if_pos hhigh⟩

/-- A range outside all regions needs one slot. -/
theorem memAddRange_apart (hwf : t.WF) (hd : t.regions ≠ [⟨0, 0⟩]) (hpos : 0 < size)
    (hapart : Disjoint (Set.Ico base (base + size)) t.cover) :
    ∃ t', t'.WF ∧ t'.cover = t.cover ∪ Set.Ico base (base + size) ∧
      memAddRange t base size = if t.max ≤ t.regions.length then none else some t' := by
  obtain ⟨t0, t', nrNew, h1, h2, h3, -, -, h6⟩ := memAddRange_eq base hwf hd hpos
  obtain ⟨-, hc⟩ := hwf.regions.resolve_left hd
  have hout : ∀ r ∈ t.regions, 0 < r.size ∧ (r.base + r.size ≤ base ∨ base + size ≤ r.base) := by
    intro r hr
    have hlt := hc.proper r.range (List.mem_map_of_mem hr)
    have hcov : ∀ x, r.base ≤ x → x < r.base + r.size → x ∈ t.cover := fun x hlo hhi =>
      Range.mem_cover.2 ⟨r.range, List.mem_map_of_mem hr, hlo, hhi⟩
    simp only [range_lo, range_hi] at hlt
    refine ⟨by omega, ?_⟩
    by_contra hmeet
    -- then the higher of the two bases is in both
    have hx : max base r.base ∈ Set.Ico base (base + size) := ⟨le_max_left _ _, by omega⟩
    exact Set.disjoint_left.1 hapart hx (hcov _ (le_max_right _ _) (by omega))
  obtain ⟨idx, hidx⟩ := addLoop_apart (Nat.lt_add_of_pos_right hpos : base < base + size) (t.regions.length + 1) []
    t.regions rfl (Nat.lt_succ_self _) hout
  have hone : addRound false t base (base + size) = some (t, 1) := by
    rw [addRound]
    rw [List.length_nil] at hidx
    rw [hidx, Option.map_some, if_pos (Nat.lt_add_of_pos_right hpos)]
    rfl
  obtain ⟨-, rfl⟩ := Prod.mk.inj (Option.some.inj (h1.symm.trans hone))
  simp only [Nat.lt_succ_iff] at h6
  exact ⟨t', h2, h3, h6⟩

end Apart

/-! ## Reachable states -/

/-- What the calls keep of an array. -/
structure MemType.Kept (c : MemConfig) (t : MemType) : Prop where
  wf : t.WF
  below : ∀ x ∈ t.cover, x < c.physMax
  max : t.max = c.nr
  cnt : t.regions.length ≤ c.nr + 1

structure MemState.Kept (c : MemConfig) (s : MemState) : Prop where
  memory : s.memory.Kept c
  reserved : s.reserved.Kept c

section Kept

variable {c : MemConfig} {t t' : MemType} {s s' : MemState} {base size align addr : Nat}

theorem MemType.Kept.listed (h : t.Kept c) : t.Listed c.physMax := by
  have hcnt := h.cnt
  have hnr := c.nr_lt
  refine ⟨?_, ?_, (h.wf.bounded h.below).1, by omega⟩
  · obtain hd | ⟨-, hc⟩ := h.wf.regions
    · rw [hd]
      exact List.pairwise_singleton ..
    · exact hc.separated
  · intro r hr hz
    obtain hd | ⟨-, hc⟩ := h.wf.regions
    · rw [hd] at hr
      rw [List.mem_singleton.1 hr]
    · have hlt := hc.proper r.range (List.mem_map_of_mem hr)
      simp only [range_lo, range_hi] at hlt
      omega

theorem MemType.Kept.init (c : MemConfig) : (MemType.init c.nr).Kept c := by
  refine ⟨MemType.init_wf _, ?_, rfl, Nat.le_add_left _ _⟩
  intro x hx
  obtain ⟨r, hr, hx⟩ := hx
  rw [List.mem_singleton.1 hr] at hx
  exact absurd hx.2 (Nat.not_lt_zero _)

theorem MemType.Kept.add (h : t.Kept c) (hle : base + size ≤ c.physMax) (ht : memAddRange t base size = some t') :
    t'.Kept c := by
  obtain ⟨h1, h2, h3, h4⟩ := memAddRange_some h.wf ht
  have hcnt := h.cnt
  have hmax := h.max
  refine ⟨h1, ?_, h3.trans h.max, by omega⟩
  intro x hx
  rw [h2] at hx
  exact hx.elim (h.below x) fun hx => hx.2.trans_le hle

theorem MemType.Kept.remove (h : t.Kept c) (ht : memRemoveRange t base size = some t') : t'.Kept c := by
  obtain ⟨t1, h1, h2, h3, h4, h5⟩ := memRemoveRange_spec base h.wf (isolateSlots_of_some ht)
  obtain rfl : t1 = t' := Option.some.inj (h1.symm.trans ht)
  have hcnt := h.cnt
  have hmax := h.max
  refine ⟨h2, ?_, h4.trans h.max, by omega⟩
  intro x hx
  rw [h3] at hx
  exact h.below x hx.1

theorem MemState.Kept.call (h : s.Kept c) {call : Call} (hle : call.Below c.physMax) (hs : call.exec s = some s') :
    s'.Kept c := by
  cases call with
  | add base size =>
    obtain ⟨t, ht, rfl⟩ := Option.map_eq_some_iff.1 hs
    exact ⟨h.memory.add hle ht, h.reserved⟩
  | reserve base size =>
    obtain ⟨t, ht, rfl⟩ := Option.map_eq_some_iff.1 hs
    exact ⟨h.memory, h.reserved.add hle ht⟩
  | free base size =>
    obtain ⟨t, ht, rfl⟩ := Option.map_eq_some_iff.1 hs
    exact ⟨h.memory, h.reserved.remove ht⟩

/-- `mem_alloc` when it returns: nothing has happened, or a range that was free is reserved. -/
theorem memAlloc_some (h : s.Kept c) (hs : memAlloc c s size align = some (s', addr)) :
    addr = 0 ∧ s' = s ∨ addr ≠ 0 ∧ memReserve s addr size = some s' ∧ Set.Ico addr (addr + size) ⊆ s.free := by
  obtain ⟨found, hfound, hs⟩ := Option.bind_eq_some_iff.1 hs
  split_ifs at hs with hz
  · obtain ⟨s1, hs1, heq⟩ := Option.map_eq_some_iff.1 hs
    obtain ⟨rfl, rfl⟩ := Prod.mk.inj heq
    refine .inr ⟨hz, hs1, ?_⟩
    obtain rfl | hpos := Nat.eq_zero_or_pos size
    · rw [Nat.add_zero, Set.Ico_self]
      exact Set.empty_subset _
    · exact (memFindInRange_sound h.memory.listed h.reserved.listed (Nat.zero_le _) (Nat.zero_le _) hpos hfound hz).2.2
  · obtain ⟨rfl, rfl⟩ := Prod.mk.inj (Option.some.inj hs)
    exact .inl ⟨rfl, rfl⟩

/-- A reservation of free memory leaves the arrays kept. -/
theorem MemState.Kept.reserve_free (h : s.Kept c) (hfree : Set.Ico addr (addr + size) ⊆ s.free)
    (hs : memReserve s addr size = some s') : s'.Kept c := by
  obtain rfl | hpos := Nat.eq_zero_or_pos size
  · obtain rfl : s = s' := by simpa [memReserve, memAddRange] using hs
    exact h
  · obtain ⟨t, ht, rfl⟩ := Option.map_eq_some_iff.1 hs
    have hlast : addr + size - 1 ∈ Set.Ico addr (addr + size) := ⟨by omega, by omega⟩
    have hlt := h.memory.below _ (hfree hlast).1
    exact ⟨h.memory, h.reserved.add (by omega) ht⟩

theorem cover_memReserve (h : s.reserved.WF) (hs : memReserve s addr size = some s') :
    s'.memory = s.memory ∧ s'.reserved.cover = s.reserved.cover ∪ Set.Ico addr (addr + size) := by
  obtain ⟨t, ht, rfl⟩ := Option.map_eq_some_iff.1 hs
  exact ⟨rfl, (memAddRange_some h ht).2.1⟩

end Kept

/-- The invariant of the runs: the ranges given are reserved and disjoint. -/
structure Boot.Ok (c : MemConfig) (b : Boot) : Prop where
  kept : b.state.Kept c
  reserved : ∀ r ∈ b.given, Set.Ico r.lo r.hi ⊆ b.state.reserved.cover
  disjoint : b.given.Pairwise fun r r' => Disjoint (Set.Ico r.lo r.hi) (Set.Ico r'.lo r'.hi)

section Runs

variable {c : MemConfig} {b : Boot} {s' : MemState} {size align addr : Nat}

theorem Boot.Ok.call (h : b.Ok c) {call : Call} (hle : call.Below c.physMax) (hs : call.exec b.state = some s') :
    Boot.Ok c ⟨s', call.keep b.given⟩ := by
  have hkept := h.kept.call hle hs
  cases call with
  | add base size =>
    obtain ⟨t, ht, rfl⟩ := Option.map_eq_some_iff.1 hs
    exact ⟨hkept, h.reserved, h.disjoint⟩
  | reserve base size =>
    have hcover := (cover_memReserve h.kept.reserved.wf hs).2
    refine ⟨hkept, fun r hr => ?_, h.disjoint⟩
    rw [hcover]
    exact (h.reserved r hr).trans Set.subset_union_left
  | free base size => exact ⟨hkept, fun r hr => absurd hr List.not_mem_nil, List.Pairwise.nil⟩

theorem Boot.Ok.alloc (h : b.Ok c) (hs : memAlloc c b.state size align = some (s', addr)) :
    Boot.Ok c ⟨s', if addr = 0 then b.given else ⟨addr, addr + size⟩ :: b.given⟩ := by
  obtain ⟨rfl, rfl⟩ | ⟨hne, hres, hfree⟩ := memAlloc_some h.kept hs
  · exact h
  · have hcover := (cover_memReserve h.kept.reserved.wf hres).2
    rw [if_neg hne]
    refine ⟨h.kept.reserve_free hfree hres, fun r hr => ?_, List.pairwise_cons.2 ⟨fun r hr => ?_, h.disjoint⟩⟩
    · rw [hcover]
      obtain rfl | hr := List.mem_cons.1 hr
      · exact Set.subset_union_right
      · exact (h.reserved r hr).trans Set.subset_union_left
    · -- what was given before is reserved, and what is given now was free
      exact Set.disjoint_left.2 fun x hx hx' => (hfree hx).2 (h.reserved r hr hx')

theorem Boot.Reach.ok (h : b.Reach c) : b.Ok c := by
  induction h with
  | init =>
    exact ⟨⟨MemType.Kept.init c, MemType.Kept.init c⟩, fun r hr => absurd hr List.not_mem_nil, List.Pairwise.nil⟩
  | call call _ hle hs ih => exact ih.call hle hs
  | alloc size align _ _ _ hs ih => exact ih.alloc hs

/-- Free memory can be reserved when there is a slot, and only then. -/
theorem memReserve_free {s : MemState} (h : s.Kept c) (hpos : 0 < size) (hfree : Set.Ico addr (addr + size) ⊆ s.free) :
    memReserve s addr size = none ↔ ¬ s.CanReserve := by
  rw [memReserve, Option.map_eq_none_iff, MemState.CanReserve, not_or, not_lt]
  by_cases hd : s.reserved.regions = [⟨0, 0⟩]
  · rw [memAddRange_dummy addr hd hpos]
    simp [hd]
  · obtain ⟨t', -, -, heq⟩ := memAddRange_apart h.reserved.wf hd hpos
      (Set.disjoint_left.2 fun x hx hx' => (hfree hx).2 hx')
    rw [heq]
    simp [hd]

/-- In every state that the calls lead to the ranges `mem_alloc` has given since the last `mem_free` are disjoint. It
gives a free range with the alignment asked for and reserves it, or 0 when there is none; and it stops in `BUG` when
there is one and no region can be added. -/
theorem mem_alloc_sound_complete (c : MemConfig) (b : Boot) (hb : b.Reach c) :
    (b.given.Pairwise fun r r' => Disjoint (Set.Ico r.lo r.hi) (Set.Ico r'.lo r'.hi)) ∧
      ∀ size k, 0 < size → k < c.bits →
        (memAlloc c b.state size (2 ^ k) = none ↔ (∃ a, Fits c b.state size (2 ^ k) a) ∧ ¬ b.state.CanReserve) ∧
        ∀ s' addr, memAlloc c b.state size (2 ^ k) = some (s', addr) → Allocated c b.state size (2 ^ k) s' addr := by
  have hok := hb.ok
  refine ⟨hok.disjoint, fun size k hpos hk => ?_⟩
  have hm := hok.kept.memory.listed
  have hr := hok.kept.reserved.listed
  obtain ⟨l, found, -, -, -, hfound, -⟩ := memFindInRange_cases hm hr size (2 ^ k) 0 0
  have hsound := memFindInRange_sound hm hr (Nat.zero_le _) (Nat.zero_le _) hpos hfound
  have hlow : c.lowest 0 = c.pageSize := Nat.zero_max _
  have hfits : found ≠ 0 → Fits c b.state size (2 ^ k) found := by
    intro hne
    obtain ⟨h1, -, h3⟩ := hsound hne
    exact ⟨memFindInRange_aligned hm hr (Nat.zero_le _) (Nat.zero_le _) hk hfound, hlow ▸ h1, h3⟩
  have hnone : found = 0 → ∀ a, ¬ Fits c b.state size (2 ^ k) a := by
    intro hz a ha
    subst hz
    have hlast : a + size - 1 ∈ Set.Ico a (a + size) := ⟨by omega, by omega⟩
    have hlt := hok.kept.memory.below _ (ha.free hlast).1
    have hhigh : c.physMax ≤ c.highest 0 0 := le_max_right _ _
    exact memFindInRange_complete hm hr (Nat.zero_le _) (Nat.zero_le _) hk hpos hfound ha.aligned (hlow ▸ ha.page)
      (by omega) ha.free
  have heq : memAlloc c b.state size (2 ^ k) =
      if found ≠ 0 then (memReserve b.state found size).map fun s => (s, found) else some (b.state, 0) := by
    rw [memAlloc, memAllocRange, if_neg (Nat.two_pow_pos k).ne', hfound, Option.bind_some]
  rw [heq]
  obtain hz | hne := eq_or_ne found 0
  · rw [if_neg (not_not.2 hz)]
    refine ⟨⟨nofun, fun h => absurd h.1.choose_spec (hnone hz _)⟩, fun s' addr h => ?_⟩
    obtain ⟨rfl, rfl⟩ := Prod.mk.inj (Option.some.inj h)
    refine ⟨fun _ => hnone hz, fun h => absurd rfl h, rfl, ?_⟩
    rw [if_pos rfl, Set.union_empty]
  · rw [if_pos hne, Option.map_eq_none_iff, memReserve_free hok.kept hpos (hfits hne).free]
    refine ⟨⟨fun h => ⟨⟨found, hfits hne⟩, h⟩, fun h => h.2⟩, fun s' addr h => ?_⟩
    obtain ⟨s1, hs1, heq⟩ := Option.map_eq_some_iff.1 h
    obtain ⟨rfl, rfl⟩ := Prod.mk.inj heq
    obtain ⟨h1, h2⟩ := cover_memReserve hok.kept.reserved.wf hs1
    refine ⟨fun h => absurd h hne, fun _ => hfits hne, h1, ?_⟩
    rw [if_neg hne, h2]

end Runs

/-! ## Two states -/

/-- 64-bit addresses, 4 KiB pages and the default of `NR_MEM_REGIONS`. -/
def config64 : MemConfig where
  bits := 64
  nr := 3
  pageShift := 12
  smpCacheBytes := 64
  kernelEnd := 0x2000
  bottomUp := false
  nr_lt := by decide
  pageShift_lt := by decide

/-- 1 MiB of memory with three reservations in it. -/
def threeReserved : MemState :=
  ⟨⟨[⟨0, 0x100000⟩], 3, 0x100000⟩, ⟨[⟨0, 0x2000⟩, ⟨0x4000, 0x1000⟩, ⟨0x8000, 0x1000⟩], 3, 0x4000⟩⟩

theorem threeReserved_reach : Boot.Reach config64 ⟨threeReserved, []⟩ := by
  have h1 := Boot.Reach.init (c := config64) |>.call (.add 0 0x100000) (by decide) rfl
  have h2 := h1.call (.reserve 0 0x2000) (by decide) rfl
  have h3 := h2.call (.reserve 0x4000 0x1000) (by decide) rfl
  exact h3.call (.reserve 0x8000 0x1000) (by decide) rfl

/-- With the reserved array full a page that is free is not given. -/
theorem not_mem_alloc_total :
    ∃ b : Boot, b.Reach config64 ∧ Fits config64 b.state 0x1000 0x1000 0x10000 ∧ memAlloc config64 b.state 0x1000 0x1000 = none := by
  refine ⟨_, threeReserved_reach, ⟨by decide, by decide, ?_⟩, by decide⟩
  intro x hx
  simp only [Set.mem_Ico] at hx
  simp only [MemState.free, MemType.cover, threeReserved, ranges, List.map_cons, List.map_nil, MemRegion.range,
    Set.mem_sdiff, Range.mem_cover, List.mem_cons, List.not_mem_nil, or_false, exists_eq_or_imp, exists_eq_left]
  omega

/-- The same memory while only the kernel is reserved. -/
def oneReserved : MemState := ⟨⟨[⟨0, 0x100000⟩], 3, 0x100000⟩, ⟨[⟨0, 0x2000⟩], 3, 0x2000⟩⟩

/-- The page is taken from the top. -/
theorem mem_alloc_sound_complete_one :
    Allocated config64 oneReserved 0x1000 (2 ^ 12)
      ⟨⟨[⟨0, 0x100000⟩], 3, 0x100000⟩, ⟨[⟨0, 0x2000⟩, ⟨0xff000, 0x1000⟩], 3, 0x3000⟩⟩ 0xff000 := by
  have h1 := Boot.Reach.init (c := config64) |>.call (.add 0 0x100000) (by decide) rfl
  have h2 : Boot.Reach config64 ⟨oneReserved, []⟩ := h1.call (.reserve 0 0x2000) (by decide) rfl
  exact ((mem_alloc_sound_complete config64 _ h2).2 0x1000 12 (by decide) (by decide)).2 _ _ (by rfl)

end Sdfirm.Mem
