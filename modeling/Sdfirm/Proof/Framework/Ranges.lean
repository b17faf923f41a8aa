import Mathlib

/-!
# Ranges and blocks

Sets that lists of ranges cover, and ranges that lists of blocks tile.
-/

/-!
## Lists of half-open ranges

A list of ranges `[lo, hi)` of a linear order and the set it covers
(`cover`). `Apart` lists are ordered and disjoint, `Separated` ones leave a
gap between any two neighbours, `Proper` ones have no empty range. The
lemmas say what the edits of an allocator's free list do to the cover: one
range put in (`cover_insert`), one range cut in two (`cover_cut`), all
ranges within bounds taken out (`cover_outside`), neighbours joined
(`cover_join`).
-/

namespace Framework

/-- The range `[lo, hi)`. -/
@[ext] structure Range (α : Type*) where
  lo : α
  hi : α

namespace Range

variable {α : Type*} [LinearOrder α]

/-- The elements of the ranges of `l`. -/
def cover (l : List (Range α)) : Set α := {x | ∃ r ∈ l, x ∈ Set.Ico r.lo r.hi}

/-- Ordered and disjoint. -/
def Apart (l : List (Range α)) : Prop := l.Pairwise fun r s => r.hi ≤ s.lo

/-- Ordered, disjoint and not touching. -/
def Separated (l : List (Range α)) : Prop := l.Pairwise fun r s => r.hi < s.lo

/-- No range is empty. -/
def Proper (l : List (Range α)) : Prop := ∀ r ∈ l, r.lo < r.hi

variable {l k m : List (Range α)} {r s : Range α} {x b e : α}

theorem mem_cover : x ∈ cover l ↔ ∃ r ∈ l, r.lo ≤ x ∧ x < r.hi := by
  simp [cover]

@[simp] theorem cover_nil : cover ([] : List (Range α)) = ∅ := by
  simp [cover]

@[simp] theorem cover_cons : cover (r :: l) = Set.Ico r.lo r.hi ∪ cover l := by
  ext x
  simp [cover]

@[simp] theorem cover_append : cover (l ++ k) = cover l ∪ cover k := by
  ext x
  simp only [mem_cover, List.mem_append, Set.mem_union, or_and_right, exists_or]

theorem Separated.apart (h : Separated l) : Apart l := List.Pairwise.imp (fun h => le_of_lt h) h

@[simp] theorem proper_nil : Proper ([] : List (Range α)) := by simp [Proper]

@[simp] theorem proper_cons : Proper (r :: l) ↔ r.lo < r.hi ∧ Proper l := by simp [Proper]

@[simp] theorem proper_append : Proper (l ++ k) ↔ Proper l ∧ Proper k := by
  simp only [Proper, List.mem_append]
  exact ⟨fun h => ⟨fun r hr => h r (.inl hr), fun r hr => h r (.inr hr)⟩,
    fun h r hr => hr.elim (h.1 r) (h.2 r)⟩

theorem apart_append :
    Apart (l ++ k) ↔ Apart l ∧ Apart k ∧ ∀ r ∈ l, ∀ s ∈ k, r.hi ≤ s.lo := List.pairwise_append

@[simp] theorem apart_nil : Apart ([] : List (Range α)) := List.Pairwise.nil

theorem apart_cons : Apart (r :: l) ↔ (∀ s ∈ l, r.hi ≤ s.lo) ∧ Apart l := List.pairwise_cons

theorem separated_append :
    Separated (l ++ k) ↔ Separated l ∧ Separated k ∧ ∀ r ∈ l, ∀ s ∈ k, r.hi < s.lo :=
  List.pairwise_append

@[simp] theorem separated_nil : Separated ([] : List (Range α)) := List.Pairwise.nil

theorem separated_cons : Separated (r :: l) ↔ (∀ s ∈ l, r.hi < s.lo) ∧ Separated l :=
  List.pairwise_cons

@[simp] theorem separated_singleton : Separated [r] := List.pairwise_singleton _ _

/-! ### One range put in -/

theorem Apart.insert (h : Apart (l ++ k)) (hl : ∀ s ∈ l, s.hi ≤ r.lo) (hk : ∀ s ∈ k, r.hi ≤ s.lo) :
    Apart (l ++ r :: k) := by
  obtain ⟨h1, h2, h3⟩ := apart_append.1 h
  refine apart_append.2 ⟨h1, apart_cons.2 ⟨hk, h2⟩, ?_⟩
  intro a ha c hc
  rcases List.mem_cons.1 hc with rfl | hc
  · exact hl a ha
  · exact h3 a ha c hc

theorem cover_insert : cover (l ++ r :: k) = cover (l ++ k) ∪ Set.Ico r.lo r.hi := by
  simp only [cover_append, cover_cons]
  ac_rfl

/-! ### One range cut in two -/

theorem cover_cut {lo mid hi : α} (h1 : lo ≤ mid) (h2 : mid ≤ hi) :
    cover (l ++ ⟨lo, mid⟩ :: ⟨mid, hi⟩ :: k) = cover (l ++ ⟨lo, hi⟩ :: k) := by
  simp only [cover_append, cover_cons]
  rw [← Set.union_assoc (Set.Ico lo mid), Set.Ico_union_Ico_eq_Ico h1 h2]

/-! ### The ranges within bounds taken out -/

theorem cover_outside (hl : ∀ r ∈ l, r.hi ≤ b) (hk : ∀ r ∈ k, b ≤ r.lo ∧ r.hi ≤ e)
    (hm : ∀ r ∈ m, e ≤ r.lo) : cover (l ++ m) = cover (l ++ k ++ m) \ Set.Ico b e := by
  ext x
  simp only [cover_append, Set.mem_sdiff, Set.mem_union, Set.mem_Ico, mem_cover]
  constructor
  · rintro (⟨r, hr, h1, h2⟩ | ⟨r, hr, h1, h2⟩)
    · exact ⟨.inl (.inl ⟨r, hr, h1, h2⟩), fun h => absurd (h2.trans_le (hl r hr)) (not_lt.2 h.1)⟩
    · exact ⟨.inr ⟨r, hr, h1, h2⟩, fun h => absurd ((hm r hr).trans h1) (not_le.2 h.2)⟩
  · rintro ⟨(h | ⟨r, hr, h1, h2⟩) | h, hx⟩
    · exact .inl h
    · exact absurd ⟨(hk r hr).1.trans h1, h2.trans_le (hk r hr).2⟩ hx
    · exact .inr h

/-! ### A bound moved over covered elements -/

theorem union_Ico_advance {c : Set α} {mid : α} (h1 : b ≤ mid) (h2 : mid ≤ e) (h : Set.Ico b mid ⊆ c) :
    c ∪ Set.Ico mid e = c ∪ Set.Ico b e := by
  rw [← Set.Ico_union_Ico_eq_Ico h1 h2, ← Set.union_assoc, Set.union_eq_self_of_subset_right h]

/-! ### Neighbours joined -/

theorem cover_join {lo hi : α} (mid : α) (h1 : lo ≤ mid) (h2 : mid ≤ hi) :
    cover (⟨lo, hi⟩ :: k) = cover (⟨lo, mid⟩ :: ⟨mid, hi⟩ :: k) :=
  (cover_cut (l := []) h1 h2).symm

end Range

end Framework

/-!
## Tilings by blocks

`Tiles pos len x n l`: the blocks of `l`, with position `pos` and length `len`,
lie end to end from `x` on and are `n` long together. `tiles_append`: the
prefixes of a tiling are tilings. `Tiles.split_dyadic`: where every block is a
power of two long and aligned to its length, and the first one not longer than
`2 ^ k`, the tiling has a cut `2 ^ k` after an aligned start.
-/

namespace Framework

variable {α : Type*} {pos len : α → Nat}

/-- The blocks `l` lie end to end and fill the `n` addresses from `x` on. -/
def Tiles (pos len : α → Nat) : Nat → Nat → List α → Prop
  | _, n, [] => n = 0
  | x, n, a :: l => pos a = x ∧ 0 < len a ∧ len a ≤ n ∧ Tiles pos len (x + len a) (n - len a) l

/-- A power of two long, and aligned to it. -/
def Dyadic (pos len : α → Nat) (a : α) : Prop := ∃ k, len a = 2 ^ k ∧ 2 ^ k ∣ pos a

/-- The length of the blocks together. -/
def total (len : α → Nat) (l : List α) : Nat := (l.map len).sum

@[simp] theorem total_nil : total len [] = 0 := rfl

@[simp] theorem total_cons {a : α} {l : List α} : total len (a :: l) = len a + total len l := List.sum_cons

theorem Tiles.total_eq : ∀ {x n : Nat} {l : List α}, Tiles pos len x n l → total len l = n
  | _, _, [], h => h.symm
  | _, _, a :: l, h => by
    obtain ⟨-, -, hle, h⟩ := h
    rw [total_cons, h.total_eq]
    omega

theorem tiles_append : ∀ {x n : Nat} {l l' : List α},
    Tiles pos len x n (l ++ l') ↔
      total len l ≤ n ∧ Tiles pos len x (total len l) l ∧ Tiles pos len (x + total len l) (n - total len l) l'
  | _, _, [], l' => ⟨fun h => ⟨Nat.zero_le _, rfl, h⟩, fun h => h.2.2⟩
  | x, n, a :: l, l' => by
    simp only [List.cons_append, Tiles, total_cons, tiles_append (l := l)]
    have e1 : len a + total len l - len a = total len l := by omega
    have e2 : x + len a + total len l = x + (len a + total len l) := by omega
    have e3 : n - len a - total len l = n - (len a + total len l) := by omega
    rw [e1, e2, e3]
    constructor
    · intro ⟨h1, h2, h3, h4, h5, h6⟩
      exact ⟨by omega, ⟨h1, h2, by omega, h5⟩, h6⟩
    · intro ⟨h1, ⟨h2, h3, _, h5⟩, h6⟩
      exact ⟨h2, h3, by omega, by omega, h5, h6⟩

/-- Where the blocks of a tiling lie. -/
theorem Tiles.bounds {x n : Nat} {l : List α} (h : Tiles pos len x n l) {a : α} (ha : a ∈ l) :
    x ≤ pos a ∧ pos a + len a ≤ x + n ∧ 0 < len a := by
  obtain ⟨l1, l2, rfl⟩ := List.append_of_mem ha
  obtain ⟨h1, -, h2⟩ := tiles_append.1 h
  obtain ⟨h3, h4, h5, -⟩ := h2
  omega

/-- A block that is aligned and not the first does not reach over an aligned bound. -/
theorem add_le_of_aligned {x o j k : Nat} (hx : 2 ^ k ∣ x) (ho : o < 2 ^ k) (hj : 2 ^ j ∣ x + o)
    (hfirst : o = 0 → 2 ^ j ≤ 2 ^ k) : o + 2 ^ j ≤ 2 ^ k := by
  obtain hjk | hkj := le_or_gt j k
  · have hdvd : 2 ^ j ∣ 2 ^ k := Nat.pow_dvd_pow 2 hjk
    have hjo : 2 ^ j ∣ o := (Nat.dvd_add_right (Nat.dvd_trans hdvd hx)).1 hj
    have hle := Nat.le_of_dvd (Nat.sub_pos_of_lt ho) (Nat.dvd_sub hdvd hjo)
    omega
  · -- a longer one would start at a multiple of the bound
    have hko : 2 ^ k ∣ o := (Nat.dvd_add_right hx).1 (Nat.dvd_trans (Nat.pow_dvd_pow 2 hkj.le) hj)
    have hz : o = 0 := Nat.eq_zero_of_dvd_of_lt hko ho
    have hle := hfirst hz
    omega

/-- The cut, seen from `o` after the aligned start. -/
theorem Tiles.cut {x k : Nat} (hx : 2 ^ k ∣ x) : ∀ {o n : Nat} {l : List α}, Tiles pos len (x + o) n l →
    (∀ a ∈ l, Dyadic pos len a) → o ≤ 2 ^ k → 2 ^ k ≤ o + n → (∀ a ∈ l.head?, o = 0 → len a ≤ 2 ^ k) →
    ∃ l1 l2, l = l1 ++ l2 ∧ Tiles pos len (x + o) (2 ^ k - o) l1
  | o, n, [], h, _, ho, hn, _ => by
    refine ⟨[], [], rfl, ?_⟩
    have hz : n = 0 := h
    show 2 ^ k - o = 0
    omega
  | o, n, a :: l, h, hd, ho, hn, hfirst => by
    obtain heq | hlt := Nat.eq_or_lt_of_le ho
    · exact ⟨[], a :: l, rfl, show 2 ^ k - o = 0 by omega⟩
    · obtain ⟨h1, h2, h3, h4⟩ := h
      obtain ⟨j, hj1, hj2⟩ := hd a List.mem_cons_self
      have hle : o + len a ≤ 2 ^ k := by
        rw [hj1]
        refine add_le_of_aligned hx hlt (h1 ▸ hj2) fun hz => ?_
        rw [← hj1]
        exact hfirst a rfl hz
      rw [Nat.add_assoc] at h4
      obtain ⟨l1, l2, rfl, hl1⟩ := h4.cut hx (fun b hb => hd b (List.mem_cons_of_mem _ hb)) hle (by omega)
        fun _ _ hz => absurd hz (by omega)
      refine ⟨a :: l1, l2, rfl, h1, h2, by omega, ?_⟩
      rw [Nat.add_assoc, Nat.sub_sub]
      exact hl1

/-- The tiling has a cut at `2 ^ k` after an aligned start, unless its first block is longer. -/
theorem Tiles.split_dyadic {x n k : Nat} {l : List α} (h : Tiles pos len x n l) (hd : ∀ a ∈ l, Dyadic pos len a)
    (hx : 2 ^ k ∣ x) (hk : 2 ^ k ≤ n) (hfirst : ∀ a ∈ l.head?, len a ≤ 2 ^ k) :
    ∃ l1 l2, l = l1 ++ l2 ∧ Tiles pos len x (2 ^ k) l1 := by
  rw [← Nat.add_zero x] at h
  obtain ⟨l1, l2, hl, h1⟩ := h.cut hx hd (Nat.zero_le _) (by omega) fun a ha _ => hfirst a ha
  exact ⟨l1, l2, hl, h1⟩

end Framework
