import Sdfirm.Impl.Bitops

/-!
# Bits of a bitmap

`testBit_setBit` and `testBit_clearBit` say what setting and clearing a bit
does to every bit. `le_findNextSetBit`: the search for a set bit does not go
back; `findNextSetBit_first` and `findNextClearBit_first` say which bit the
searches return.
-/

namespace Sdfirm.Bitops

variable {unit : Nat} {addr : Bitmap} {nr i : Nat}

theorem testBit_update {v : Nat} : testBit unit i (Function.update addr (bitopWord unit nr) v) =
    if i / unit = nr / unit then v.testBit (i % unit) else testBit unit i addr := by
  unfold testBit bitopWord
  by_cases h : i / unit = nr / unit
  · rw [if_pos h, h, Function.update_self]
  · rw [if_neg h, Function.update_of_ne h]

theorem testBit_bitopMask (h : i / unit = nr / unit) :
    (bitopMask unit nr).testBit (i % unit) = decide (i = nr) := by
  have heq : nr % unit = i % unit ↔ i = nr := by
    constructor
    · intro hm
      rw [← Nat.div_add_mod i unit, ← Nat.div_add_mod nr unit, h, hm]
    · rintro rfl
      rfl
  rw [bitopMask, Nat.one_shiftLeft, Nat.testBit_two_pow]
  exact decide_eq_decide.2 heq

theorem testBit_setBit : testBit unit i (setBit unit nr addr) = (decide (i = nr) || testBit unit i addr) := by
  rw [setBit, testBit_update]
  by_cases h : i / unit = nr / unit
  · rw [if_pos h, Nat.testBit_or, testBit_bitopMask h, Bool.or_comm]
    simp only [testBit, bitopWord, h]
  · have hne : i ≠ nr := fun e => h (by rw [e])
    rw [if_neg h, decide_eq_false hne, Bool.false_or]

theorem testBit_clearBit (hu : 0 < unit) :
    testBit unit i (clearBit unit nr addr) = (!decide (i = nr) && testBit unit i addr) := by
  rw [clearBit, testBit_update]
  by_cases h : i / unit = nr / unit
  · have hi : i % unit < unit := Nat.mod_lt _ hu
    rw [if_pos h, Nat.testBit_and, Nat.testBit_xor, testBit_bitopMask h, allOnes, Nat.testBit_two_pow_sub_one,
      decide_eq_true hi, Bool.true_xor, Bool.and_comm]
    simp only [testBit, bitopWord, h]
  · have hne : i ≠ nr := fun e => h (by rw [e])
    rw [if_neg h, decide_eq_false hne, Bool.not_false, Bool.true_and]

theorem UnitBits.pos (hu : UnitBits unit) : 0 < unit := by
  unfold UnitBits at hu
  omega

theorem setBit_lt (hu : UnitBits unit) (h : ∀ i, addr i < 2 ^ unit) (i : Nat) : setBit unit nr addr i < 2 ^ unit := by
  have hmask : bitopMask unit nr < 2 ^ unit := by
    rw [bitopMask, Nat.one_shiftLeft]
    exact Nat.pow_lt_pow_right Nat.one_lt_two (Nat.mod_lt nr hu.pos)
  rw [setBit, Function.update_apply]
  split
  · exact Nat.or_lt_two_pow (h _) hmask
  · exact h i

theorem clearBit_lt (h : ∀ i, addr i < 2 ^ unit) (i : Nat) : clearBit unit nr addr i < 2 ^ unit := by
  rw [clearBit, Function.update_apply]
  split
  · exact lt_of_le_of_lt Nat.and_le_left (h _)
  · exact h i

/-! ## The first set bit -/

/-- The widths a word of `2 ^ j` bits is searched with. -/
def halves : Nat → List Nat
  | 0 => []
  | j + 1 => 2 ^ j :: halves j

theorem testBit_ffsBy : ∀ {j word : Nat}, word % 2 ^ 2 ^ j ≠ 0 → word.testBit (ffsBy (halves j) word) = true
  | 0, word, h => by
    simp only [pow_zero, pow_one] at h
    simp only [halves, ffsBy, Nat.testBit_zero, decide_eq_true_eq]
    omega
  | j + 1, word, h => by
    rw [halves, ffsBy]
    split
    · rename_i h0
      have hs : (word >>> 2 ^ j) % 2 ^ 2 ^ j ≠ 0 := by
        intro h1
        apply h
        rw [pow_succ 2 j, Nat.mul_comm, Nat.two_mul, pow_add, Nat.mod_mul, h0, ← Nat.shiftRight_eq_div_pow, h1,
          Nat.mul_zero]
      have := testBit_ffsBy hs
      rwa [Nat.testBit_shiftRight] at this
    · rename_i h0
      exact testBit_ffsBy h0

theorem testBit_ffsUnit (hu : UnitBits unit) {word : Nat} (h0 : word ≠ 0) (hlt : word < 2 ^ unit) :
    word.testBit (ffsUnit unit word) = true := by
  have key : ∀ j, unit = 2 ^ j → word.testBit (ffsBy (halves j) word) = true := by
    rintro j rfl
    exact testBit_ffsBy (by rwa [Nat.mod_eq_of_lt hlt])
  rcases hu with rfl | rfl | rfl | rfl
  · simpa [ffsUnit, ffs8, h0, halves] using key 3 rfl
  · simpa [ffsUnit, ffs16, h0, halves] using key 4 rfl
  · simpa [ffsUnit, ffs32, h0, halves] using key 5 rfl
  · simpa [ffsUnit, ffs64, h0, halves] using key 6 rfl

/-- The first set bit of a word whose low bits are clear. -/
theorem le_ffsUnit (hu : UnitBits unit) {word : Nat} (off : Nat) (h0 : word ≠ 0) (hlt : word < 2 ^ unit)
    (hlow : ∀ j < off, word.testBit j = false) : off ≤ ffsUnit unit word := by
  by_contra hc
  have h1 := testBit_ffsUnit hu h0 hlt
  rw [hlow _ (by omega)] at h1
  exact absurd h1 (by decide)

theorem le_foundFirst (hu : UnitBits unit) {tmp off : Nat} (size result : Nat) (hs : off ≤ size)
    (hlow : ∀ j < off, tmp.testBit j = false) : result + off ≤ foundFirst unit size result tmp := by
  simp only [foundFirst]
  have hlt : tmp &&& allOnes unit >>> (unit - size) < 2 ^ unit := by
    refine lt_of_le_of_lt Nat.and_le_right (lt_of_le_of_lt (Nat.shiftRight_le _ _) ?_)
    exact Nat.sub_lt (Nat.two_pow_pos unit) Nat.one_pos
  split
  · omega
  · rename_i h0
    have := le_ffsUnit hu off h0 hlt fun j hj => by rw [Nat.testBit_and, hlow j hj, Bool.false_and]
    omega

theorem le_findLoop (hu : UnitBits unit) (addr : Bitmap) :
    ∀ fuel p size result : Nat, result ≤ findLoop unit addr fuel p size result
  | 0, _, _, _ => le_rfl
  | fuel + 1, p, size, result => by
    rw [findLoop]
    split
    · split
      · omega
      · have := le_findLoop hu addr fuel (p + 1) (size - unit) (result + unit)
        omega
    · split
      · exact le_rfl
      · have := le_foundFirst hu size result (Nat.zero_le size) (fun j hj => absurd hj (Nat.not_lt_zero j) :
          ∀ j < 0, (addr p).testBit j = false)
        omega

/-- The search starts at `offset`. -/
theorem le_findNextSetBit (hu : UnitBits unit) {size offset : Nat} (h : offset < size) :
    offset ≤ findNextSetBit unit addr size offset := by
  have hpos := hu.pos
  have hdm := Nat.div_add_mod' offset unit
  have hlow : ∀ j < offset % unit,
      (addr (bitopWord unit offset) &&& ((allOnes unit <<< (offset % unit)) % 2 ^ unit)).testBit j = false := by
    intro j hj
    rw [Nat.testBit_and, Nat.testBit_mod_two_pow, Nat.testBit_shiftLeft,
      decide_eq_false (by omega : ¬ j ≥ offset % unit), Bool.false_and, Bool.and_false, Bool.and_false]
  simp only [findNextSetBit]
  rw [if_neg (by omega)]
  split
  · split
    · have := le_foundFirst hu (size - offset / unit * unit) (offset / unit * unit) (by omega) hlow
      omega
    · split
      · rename_i h0
        have := le_ffsUnit hu (offset % unit) h0 (lt_of_le_of_lt Nat.and_le_right (Nat.mod_lt _ (Nat.two_pow_pos unit))) hlow
        omega
      · have := le_findLoop hu addr (size - offset / unit * unit) (bitopWord unit offset + 1)
          (size - offset / unit * unit - unit) (offset / unit * unit + unit)
        have := Nat.mod_lt offset hpos
        omega
  · have := le_findLoop hu addr (size - offset / unit * unit + 1) (bitopWord unit offset)
      (size - offset / unit * unit) (offset / unit * unit)
    omega

end Sdfirm.Bitops

/-!
## `__ffs64` and `__fls64`

`dvd_iff_le_ffs64`: the powers of two that divide a word are those up to its
first set bit. `fls64_spec`: the last set bit is the logarithm.
-/

namespace Sdfirm.Bitops

theorem dvd_ffsBy : ∀ (ks : List Nat) (word : Nat), 2 ^ ffsBy ks word ∣ word
  | [], word => one_dvd word
  | k :: ks, word => by
    rw [ffsBy]
    split_ifs with h
    · obtain ⟨q, rfl⟩ := Nat.dvd_of_mod_eq_zero h
      rw [Nat.shiftRight_eq_div_pow, Nat.mul_div_cancel_left _ (Nat.two_pow_pos k), pow_add]
      exact Nat.mul_dvd_mul_left _ (dvd_ffsBy ks q)
    · exact dvd_ffsBy ks word

theorem dvd_iff_le_ffs64 {x j : Nat} (h0 : x ≠ 0) (hx : x < 2 ^ 64) : 2 ^ j ∣ x ↔ j ≤ ffs64 x := by
  have hunit : UnitBits 64 := .inr (.inr (.inr rfl))
  have heq : ffsUnit 64 x = ffs64 x := rfl
  constructor
  · intro ⟨q, hq⟩
    rw [← heq]
    refine le_ffsUnit hunit j h0 hx fun i hi => ?_
    rw [hq, Nat.testBit_two_pow_mul, decide_eq_false (not_le.2 hi), Bool.false_and]
  · intro hj
    refine (Nat.pow_dvd_pow 2 hj).trans ?_
    rw [ffs64, if_neg h0]
    exact dvd_ffsBy _ x

/-- With the top `2 ^ j` bits not all zero the widths below `2 ^ j` find the last set bit `r`. -/
theorem flsBy_spec : ∀ (j : Nat) (quad num r : Nat), j ≤ 6 → 2 ^ (64 - 2 ^ j) ≤ quad → quad < 2 ^ 64 → 2 ^ r ≤ quad →
    quad < 2 ^ (r + 1) → 63 ≤ num + r → flsBy (halves j) quad num = num + r - 63
  | 0, quad, num, r, _, hge, hlt, hr, hr', _ => by
    have h1 : 63 < r + 1 := (Nat.pow_lt_pow_iff_right Nat.one_lt_two).1 (lt_of_le_of_lt hge hr')
    have h2 : r < 64 := (Nat.pow_lt_pow_iff_right Nat.one_lt_two).1 (lt_of_le_of_lt hr hlt)
    show num = num + r - 63
    omega
  | j + 1, quad, num, r, hj, hge, hlt, hr, hr', hnum => by
    have hpow : 2 ^ (j + 1) ≤ 2 ^ 6 := Nat.pow_le_pow_right Nat.two_pos hj
    have hdouble : 2 ^ (j + 1) = 2 ^ j + 2 ^ j := by rw [pow_succ, Nat.mul_two]
    have hsplit : 2 ^ (64 - 2 ^ j) * 2 ^ 2 ^ j = 2 ^ 64 := by
      rw [← pow_add]
      congr 1
      omega
    have hzero : quad >>> (64 - 2 ^ j) = 0 ↔ quad < 2 ^ (64 - 2 ^ j) := by
      rw [Nat.shiftRight_eq_div_pow, Nat.div_eq_zero_iff_lt (Nat.two_pow_pos _)]
    rw [halves, flsBy]
    simp only [hzero]
    split_ifs with htop
    · -- the top bits are shifted out, and none is lost
      have hshift : quad <<< 2 ^ j % 2 ^ 64 = quad * 2 ^ 2 ^ j := by
        rw [Nat.shiftLeft_eq, Nat.mod_eq_of_lt]
        rw [← hsplit]
        exact Nat.mul_lt_mul_of_pos_right htop (Nat.two_pow_pos _)
      have hrlt : r < 64 - 2 ^ j := (Nat.pow_lt_pow_iff_right Nat.one_lt_two).1 (lt_of_le_of_lt hr htop)
      rw [hshift, flsBy_spec j _ _ (r + 2 ^ j) (by omega) ?_ ?_ ?_ ?_ (by omega)]
      · omega
      · rw [show 64 - 2 ^ j = 64 - 2 ^ (j + 1) + 2 ^ j by omega, pow_add]
        exact Nat.mul_le_mul_right _ hge
      · rw [← hsplit]
        exact Nat.mul_lt_mul_of_pos_right htop (Nat.two_pow_pos _)
      · rw [pow_add]
        exact Nat.mul_le_mul_right _ hr
      · rw [show r + 2 ^ j + 1 = r + 1 + 2 ^ j by omega, pow_add]
        exact Nat.mul_lt_mul_of_pos_right hr' (Nat.two_pow_pos _)
    · exact flsBy_spec j quad num r (by omega) (not_lt.1 htop) hlt hr hr' hnum

theorem fls64_eq {x : Nat} (h0 : x ≠ 0) (hx : x < 2 ^ 64) : fls64 x = Nat.log2 x := by
  have hlow := Nat.log2_self_le h0
  have hhigh := Nat.lt_log2_self (n := x)
  rw [fls64, if_neg h0]
  exact (flsBy_spec 6 x 63 _ le_rfl (Nat.one_le_iff_ne_zero.2 h0) hx hlow hhigh (by omega)).trans (by omega)

/-- The powers of two that are not larger are those up to the last set bit. -/
theorem le_iff_le_fls64 {x j : Nat} (h0 : x ≠ 0) (hx : x < 2 ^ 64) : 2 ^ j ≤ x ↔ j ≤ fls64 x := by
  rw [fls64_eq h0 hx, Nat.le_log2 h0]

end Sdfirm.Bitops

/-!
## The next set bit

`findNextSetBit_isNext`: the search returns the first set bit from `offset` on,
and `size` if there is none.
-/

namespace Sdfirm.Bitops

variable {unit : Nat} {addr : Bitmap}

theorem testBit_lowMask {k : Nat} (hk : k ≤ unit) (j : Nat) :
    (allOnes unit >>> (unit - k)).testBit j = decide (j < k) := by
  rw [Nat.testBit_shiftRight, allOnes, Nat.testBit_two_pow_sub_one]
  exact decide_eq_decide.2 (by omega)

theorem testBit_highMask (k j : Nat) :
    ((allOnes unit <<< k) % 2 ^ unit).testBit j = (decide (j < unit) && decide (k ≤ j)) := by
  rw [Nat.testBit_mod_two_pow, Nat.testBit_shiftLeft, allOnes, Nat.testBit_two_pow_sub_one]
  by_cases hj : j < unit
  · rw [decide_eq_true hj, decide_eq_true (by omega : j - k < unit), Bool.and_true]
  · rw [decide_eq_false hj, Bool.false_and, Bool.false_and]

/-- `r` is the first set bit from `offset` on, or `size` if there is none before it. -/
structure IsNext (unit : Nat) (addr : Bitmap) (offset size r : Nat) : Prop where
  le : offset ≤ r
  le_size : r ≤ size
  clear : ∀ i, offset ≤ i → i < r → testBit unit i addr = false
  set : r < size → testBit unit r addr = true

theorem testBit_ffsUnit_lt {word j : Nat} (hj : j < ffsUnit unit word) : word.testBit j = false := by
  have hdvd : 2 ^ ffsUnit unit word ∣ word := by
    unfold ffsUnit ffs64 ffs32 ffs16 ffs8
    split_ifs <;> first | exact dvd_ffsBy _ _ | exact one_dvd _
  obtain ⟨q, hq⟩ := hdvd
  rw [hq, Nat.testBit_two_pow_mul, decide_eq_false (by omega), Bool.false_and]

theorem ffsUnit_lt (hu : UnitBits unit) {word : Nat} (h0 : word ≠ 0) (hlt : word < 2 ^ unit) : ffsUnit unit word < unit := by
  by_contra hge
  have hset := testBit_ffsUnit hu h0 hlt
  rw [Nat.testBit_lt_two_pow (lt_of_lt_of_le hlt (Nat.pow_le_pow_right Nat.two_pos (by omega)))] at hset
  exact Bool.noConfusion hset

/-- The bits of the word `p`. -/
theorem testBit_word (hu : 0 < unit) {p j : Nat} (hj : j < unit) : testBit unit (p * unit + j) addr = (addr p).testBit j := by
  rw [testBit, bitopWord, Nat.add_comm, Nat.add_mul_div_right _ _ hu, Nat.div_eq_of_lt hj, Nat.zero_add,
    Nat.add_mul_mod_self_right, Nat.mod_eq_of_lt hj]

/-- A word none of whose bits is set between two of them. -/
theorem testBit_between (hu : 0 < unit) {p m n : Nat} (hn : n ≤ unit) (hclear : ∀ j, m ≤ j → j < n → (addr p).testBit j = false)
    {i : Nat} (hle : p * unit + m ≤ i) (hlt : i < p * unit + n) : testBit unit i addr = false := by
  obtain ⟨j, rfl⟩ := Nat.exists_eq_add_of_le (Nat.le_of_add_right_le hle)
  rw [testBit_word hu (by omega)]
  exact hclear j (by omega) (by omega)

/-- A word in which the search finds a bit. -/
theorem isNext_word (hu : UnitBits unit) {p m size tmp : Nat} (h0 : tmp ≠ 0) (hlt : tmp < 2 ^ unit)
    (htmp : ∀ j < unit, tmp.testBit j = true → m ≤ j ∧ p * unit + j < size ∧ (addr p).testBit j = true)
    (hkeep : ∀ j < unit, m ≤ j → p * unit + j < size → tmp.testBit j = (addr p).testBit j) :
    IsNext unit addr (p * unit + m) size (p * unit + ffsUnit unit tmp) := by
  have hpos := hu.pos
  have hffs := ffsUnit_lt hu h0 hlt
  obtain ⟨hm, hsize, hset⟩ := htmp _ hffs (testBit_ffsUnit hu h0 hlt)
  refine ⟨by omega, hsize.le, ?_, ?_⟩
  · intro i hle hi
    refine testBit_between hpos hffs.le ?_ hle hi
    intro j hmj hj
    rw [← hkeep j (by omega) hmj (by omega)]
    exact testBit_ffsUnit_lt hj
  · intro _
    rw [testBit_word hpos hffs]
    exact hset

/-- The search in the last word, of which `size` bits are left. -/
theorem isNext_foundFirst (hu : UnitBits unit) {p m size tmp : Nat} (hsize : size ≤ unit) (hm : m ≤ size)
    (hlt : tmp < 2 ^ unit) (hlow : ∀ j < m, tmp.testBit j = false)
    (hkeep : ∀ j < unit, m ≤ j → tmp.testBit j = (addr p).testBit j) :
    IsNext unit addr (p * unit + m) (p * unit + size) (foundFirst unit size (p * unit) tmp) := by
  have hpos := hu.pos
  have hmask (j : Nat) : (tmp &&& allOnes unit >>> (unit - size)).testBit j = (tmp.testBit j && decide (j < size)) := by
    rw [Nat.testBit_and, testBit_lowMask hsize]
  rw [foundFirst]
  by_cases h0 : tmp &&& allOnes unit >>> (unit - size) = 0
  · rw [if_pos h0]
    refine ⟨by omega, le_rfl, ?_, fun h => absurd h (lt_irrefl _)⟩
    intro i hle hi
    refine testBit_between hpos hsize ?_ hle hi
    intro j hmj hj
    have hbit := hmask j
    rwa [h0, Nat.zero_testBit, decide_eq_true hj, Bool.and_true, hkeep j (by omega) hmj, eq_comm] at hbit
  · rw [if_neg h0]
    refine isNext_word hu h0 (lt_of_le_of_lt Nat.and_le_left hlt) ?_ ?_
    · intro j hj hset
      rw [hmask, Bool.and_eq_true, decide_eq_true_eq] at hset
      have hmj : m ≤ j := by
        by_contra hc
        rw [hlow j (by omega)] at hset
        exact Bool.noConfusion hset.1
      exact ⟨hmj, by omega, (hkeep j hj hmj).symm.trans hset.1⟩
    · intro j hj hmj hlt'
      rw [hmask, decide_eq_true (by omega : j < size), Bool.and_true, hkeep j hj hmj]

/-- A word without set bits is skipped. -/
theorem IsNext.skip (hu : 0 < unit) {p m size r : Nat} (hm : m ≤ unit)
    (hclear : ∀ j, m ≤ j → j < unit → (addr p).testBit j = false) (h : IsNext unit addr ((p + 1) * unit) size r) :
    IsNext unit addr (p * unit + m) size r := by
  have hsucc : (p + 1) * unit = p * unit + unit := Nat.succ_mul p unit
  refine ⟨by have := h.le; omega, h.le_size, ?_, h.set⟩
  intro i hle hi
  by_cases hword : i < p * unit + unit
  · exact testBit_between hu le_rfl hclear hle hword
  · exact h.clear i (by omega) hi

theorem isNext_findLoop (hu : UnitBits unit) (hlt : ∀ i, addr i < 2 ^ unit) (fuel p size : Nat) (hfuel : size < fuel) :
    IsNext unit addr (p * unit) (p * unit + size) (findLoop unit addr fuel p size (p * unit)) := by
  have hpos := hu.pos
  induction fuel generalizing p size with
  | zero => exact absurd hfuel (Nat.not_lt_zero _)
  | succ fuel ih =>
    rw [findLoop]
    split
    · rename_i hge
      split
      · rename_i h0
        refine isNext_word (m := 0) hu h0 (hlt p) ?_ ?_
        · intro j hj hset
          exact ⟨Nat.zero_le j, by omega, hset⟩
        · intro j _ _ _
          rfl
      · rename_i h0
        have hsucc : p * unit + unit = (p + 1) * unit := (Nat.succ_mul p unit).symm
        have hrest := ih (p + 1) (size - unit) (by omega)
        rw [← hsucc, Nat.add_assoc, Nat.add_sub_cancel' hge, hsucc] at hrest
        rw [hsucc]
        refine hrest.skip (m := 0) hpos (Nat.zero_le _) ?_
        intro j _ _
        rw [not_not.1 h0, Nat.zero_testBit]
    · rename_i hge
      split
      · rename_i h0
        rw [h0]
        exact ⟨le_rfl, le_rfl, fun i hle hi => absurd hle (by omega), fun h => absurd h (lt_irrefl _)⟩
      · exact isNext_foundFirst (m := 0) hu (by omega) (Nat.zero_le _) (hlt p) (fun j hj => absurd hj (Nat.not_lt_zero j))
          fun _ _ _ => rfl

theorem findNextSetBit_isNext (hu : UnitBits unit) (hlt : ∀ i, addr i < 2 ^ unit) {size offset : Nat} (hle : offset ≤ size) :
    IsNext unit addr offset size (findNextSetBit unit addr size offset) := by
  have hpos := hu.pos
  obtain heq | hoff := hle.eq_or_lt
  · rw [findNextSetBit, if_pos heq.ge]
    exact ⟨hle, le_rfl, fun i hi hi' => absurd hi (by omega), fun h => absurd h (lt_irrefl _)⟩
  have hdm : offset / unit * unit + offset % unit = offset := Nat.div_add_mod' offset unit
  have hmod := Nat.mod_lt offset hpos
  have hsize : offset / unit * unit + (size - offset / unit * unit) = size := by omega
  have hloop := isNext_findLoop hu hlt
  rw [findNextSetBit, if_neg (by omega), bitopWord]
  generalize offset / unit = p at *
  generalize size - p * unit = left at *
  generalize offset % unit = m at *
  rw [← hdm, ← hsize]
  have hbit (j : Nat) : (addr p &&& (allOnes unit <<< m) % 2 ^ unit).testBit j =
      ((addr p).testBit j && (decide (j < unit) && decide (m ≤ j))) := by
    rw [Nat.testBit_and, testBit_highMask]
  have hword : addr p &&& (allOnes unit <<< m) % 2 ^ unit < 2 ^ unit := lt_of_le_of_lt Nat.and_le_left (hlt p)
  have hkeep : ∀ j < unit, m ≤ j → (addr p &&& (allOnes unit <<< m) % 2 ^ unit).testBit j = (addr p).testBit j := by
    intro j hj hmj
    rw [hbit, decide_eq_true hj, decide_eq_true hmj, Bool.and_true, Bool.and_true]
  by_cases hm : m = 0
  · rw [if_neg (not_not.2 hm), hm, Nat.add_zero]
    exact hloop (left + 1) p left (Nat.lt_succ_self _)
  · rw [if_pos hm]
    split
    · rename_i hlast
      refine isNext_foundFirst hu hlast.le (by omega) hword ?_ hkeep
      intro j hj
      rw [hbit, decide_eq_false (by omega : ¬m ≤ j), Bool.and_false, Bool.and_false]
    · rename_i hlast
      dsimp only
      split
      · rename_i h0
        refine isNext_word hu h0 hword ?_ fun j hj hmj _ => hkeep j hj hmj
        intro j hj hset
        rw [hbit, Bool.and_eq_true, Bool.and_eq_true, decide_eq_true_eq, decide_eq_true_eq] at hset
        exact ⟨hset.2.2, by omega, hset.1⟩
      · rename_i h0
        have hsucc : p * unit + unit = (p + 1) * unit := (Nat.succ_mul p unit).symm
        have hrest := hloop left (p + 1) (left - unit) (by omega)
        rw [← hsucc, Nat.add_assoc, Nat.add_sub_cancel' (not_lt.1 hlast), hsucc] at hrest
        rw [hsucc]
        refine hrest.skip hpos hmod.le ?_
        intro j hmj hj
        rw [← hkeep j hj hmj, not_not.1 h0, Nat.zero_testBit]

/-! ## The first clear bit

The search for a clear bit is the search for a set bit in the bitmap of the
complements.
-/

theorem testBit_complement (word j : Nat) : (complement unit word).testBit j = (decide (j < unit) ^^ word.testBit j) := by
  rw [complement, Nat.testBit_xor, allOnes, Nat.testBit_two_pow_sub_one]

theorem complement_lt {word : Nat} (hlt : word < 2 ^ unit) : complement unit word < 2 ^ unit :=
  Nat.xor_lt_two_pow (Nat.sub_lt (Nat.two_pow_pos unit) Nat.one_pos) hlt

theorem testBit_eq_false_of_le {word j : Nat} (hlt : word < 2 ^ unit) (hj : unit ≤ j) : word.testBit j = false :=
  Nat.testBit_lt_two_pow (lt_of_lt_of_le hlt (Nat.pow_le_pow_right two_pos hj))

theorem complement_eq_zero_iff {word : Nat} : complement unit word = 0 ↔ word = allOnes unit :=
  Nat.xor_eq_zero_iff.trans eq_comm

/-- With the bits outside of a mask set, the complement has the bits of the mask. -/
theorem complement_or {word mask mask' : Nat} (hlt : word < 2 ^ unit)
    (h : ∀ j, mask.testBit j = (decide (j < unit) && !mask'.testBit j)) :
    complement unit (word ||| mask) = complement unit word &&& mask' := by
  apply Nat.eq_of_testBit_eq
  intro j
  rw [testBit_complement, Nat.testBit_or, Nat.testBit_and, testBit_complement, h]
  by_cases hj : j < unit
  · simp only [hj, decide_true, Bool.true_and, Bool.true_xor, Bool.not_or, Bool.not_not]
  · simp [hj, testBit_eq_false_of_le hlt (not_lt.1 hj)]

/-- The masks of the bits below and from `k` on are complements. -/
theorem testBit_masks {k : Nat} (hk : k ≤ unit) (j : Nat) :
    (allOnes unit >>> (unit - k)).testBit j =
      (decide (j < unit) && !((allOnes unit <<< k) % 2 ^ unit).testBit j) := by
  rw [testBit_lowMask hk, testBit_highMask]
  by_cases hj : j < unit
  · simp only [hj, decide_true, Bool.true_and, ← decide_not, not_le]
  · simp [hj, show ¬j < k by omega]

theorem foundFirstClear_eq {size tmp : Nat} (result : Nat) (hlt : tmp < 2 ^ unit) (hsize : size ≤ unit) :
    foundFirstClear unit size result tmp = foundFirst unit size result (complement unit tmp) := by
  have hmask : ∀ j, ((allOnes unit <<< size) % 2 ^ unit).testBit j =
      (decide (j < unit) && !(allOnes unit >>> (unit - size)).testBit j) := by
    intro j
    rw [testBit_masks hsize, testBit_highMask]
    cases decide (j < unit) <;> simp
  simp only [foundFirstClear, foundFirst, ffzUnit, ← complement_eq_zero_iff, complement_or hlt hmask]

theorem findLoopClear_eq (hlt : ∀ i, addr i < 2 ^ unit) (fuel p size result : Nat) :
    findLoopClear unit addr fuel p size result = findLoop unit (fun i => complement unit (addr i)) fuel p size result := by
  induction fuel generalizing p size result with
  | zero => rfl
  | succ fuel ih =>
    rw [findLoopClear, findLoop, ih]
    by_cases hge : unit ≤ size
    · rw [if_pos hge, if_pos hge]
      rfl
    · rw [if_neg hge, if_neg hge, foundFirstClear_eq result (hlt p) (by omega)]

theorem findNextClearBit_eq (hu : 0 < unit) (hlt : ∀ i, addr i < 2 ^ unit) (size offset : Nat) :
    findNextClearBit unit addr size offset = findNextSetBit unit (fun i => complement unit (addr i)) size offset := by
  have hmod := Nat.mod_lt offset hu
  have hword : addr (bitopWord unit offset) ||| allOnes unit >>> (unit - offset % unit) < 2 ^ unit :=
    Nat.or_lt_two_pow (hlt _) (lt_of_le_of_lt (Nat.shiftRight_le _ _) (Nat.sub_lt (Nat.two_pow_pos unit) Nat.one_pos))
  simp only [findNextClearBit, findNextSetBit, findLoopClear_eq hlt, ffzUnit]
  by_cases hlast : size - offset / unit * unit < unit
  · simp only [if_pos hlast, foundFirstClear_eq _ hword hlast.le, complement_or (hlt _) (testBit_masks hmod.le)]
  · simp only [if_neg hlast, complement_or (hlt _) (testBit_masks hmod.le)]

/-! ## What the searches return -/

/-- `r` is the least index from `offset` on and below `size` with `P`, or `size` if there is none. -/
def FirstIndex (P : Nat → Prop) (offset size r : Nat) : Prop :=
  IsLeast {i | offset ≤ i ∧ i < size ∧ P i} r ∨ (∀ i, offset ≤ i → i < size → ¬P i) ∧ r = size

theorem FirstIndex.congr {P Q : Nat → Prop} {offset size r r' : Nat} (hPQ : ∀ i < size, P i ↔ Q i)
    (h : FirstIndex P offset size r) (h' : FirstIndex Q offset size r') : r = r' := by
  have hset : {i | offset ≤ i ∧ i < size ∧ P i} = {i | offset ≤ i ∧ i < size ∧ Q i} :=
    Set.ext fun i => and_congr_right fun _ => and_congr_right fun hi => hPQ i hi
  obtain hl | ⟨hn, rfl⟩ := h
  · rw [hset] at hl
    obtain hl' | ⟨hn', -⟩ := h'
    · exact hl.unique hl'
    · exact absurd hl.1.2.2 (hn' r hl.1.1 hl.1.2.1)
  · obtain hl' | ⟨-, rfl⟩ := h'
    · exact absurd ((hPQ r' hl'.1.2.1).2 hl'.1.2.2) (hn r' hl'.1.1 hl'.1.2.1)
    · rfl

theorem findNextSetBit_first (hu : UnitBits unit) (hlt : ∀ i, addr i < 2 ^ unit) (size offset : Nat) :
    FirstIndex (fun i => testBit unit i addr = true) offset size (findNextSetBit unit addr size offset) := by
  by_cases hle : offset ≤ size
  · have h := findNextSetBit_isNext hu hlt hle
    obtain heq | hr := h.le_size.eq_or_lt
    · refine Or.inr ⟨fun i hoff hi hset => ?_, heq⟩
      exact Bool.false_ne_true ((h.clear i hoff (by omega)).symm.trans hset)
    · refine Or.inl ⟨⟨h.le, hr, h.set hr⟩, fun i hi => ?_⟩
      by_contra hc
      exact Bool.false_ne_true ((h.clear i hi.1 (by omega)).symm.trans hi.2.2)
  · rw [findNextSetBit, if_pos (by omega)]
    exact Or.inr ⟨fun i hoff hi => absurd hi (by omega), rfl⟩

theorem findNextClearBit_first (hu : UnitBits unit) (hlt : ∀ i, addr i < 2 ^ unit) (size offset : Nat) :
    FirstIndex (fun i => testBit unit i addr = false) offset size (findNextClearBit unit addr size offset) := by
  have hpos := hu.pos
  rw [findNextClearBit_eq hpos hlt]
  have h := findNextSetBit_first hu (fun i => complement_lt (hlt i)) size offset
  have hflip (i : Nat) : (testBit unit i (fun p => complement unit (addr p)) = true) = (testBit unit i addr = false) := by
    simp [testBit, testBit_complement, Nat.mod_lt i hpos]
  simpa only [hflip] using h

/-- Both searches, for every width of a word, every size and every offset, and for any other bitmap
that agrees below `size`. -/
theorem search_first (hu : UnitBits unit) (hlt : ∀ i, addr i < 2 ^ unit) (size offset : Nat) :
    FirstIndex (fun i => testBit unit i addr = true) offset size (findNextSetBit unit addr size offset) ∧
    FirstIndex (fun i => testBit unit i addr = false) offset size (findNextClearBit unit addr size offset) ∧
    ∀ addr' : Bitmap, (∀ i, addr' i < 2 ^ unit) → (∀ i < size, testBit unit i addr' = testBit unit i addr) →
      findNextSetBit unit addr' size offset = findNextSetBit unit addr size offset ∧
      findNextClearBit unit addr' size offset = findNextClearBit unit addr size offset := by
  have hset := findNextSetBit_first hu hlt size offset
  have hclear := findNextClearBit_first hu hlt size offset
  refine ⟨hset, hclear, fun addr' hlt' hagree => ⟨?_, ?_⟩⟩
  · exact (findNextSetBit_first hu hlt' size offset).congr (fun i hi => by rw [hagree i hi]) hset
  · exact (findNextClearBit_first hu hlt' size offset).congr (fun i hi => by rw [hagree i hi]) hclear

/-- Words of 8 bits, `0x00` and `0xF5`: of the 13 bits from 3 on, the first set one is 8, and the
first clear one from 8 on is 9. -/
theorem search_first_two_words :
    findNextSetBit 8 (fun i => if i = 0 then 0 else 0xF5) 13 3 = 8 ∧
    findNextClearBit 8 (fun i => if i = 0 then 0 else 0xF5) 13 8 = 9 ∧
    FirstIndex (fun i => testBit 8 i (fun i => if i = 0 then 0 else 0xF5) = true) 3 13 8 := by
  have hlt : ∀ i, (if i = 0 then 0 else 0xF5) < 2 ^ 8 := fun i => by split <;> decide
  have h := (search_first (Or.inl rfl) hlt 13 3).1
  have h8 : findNextSetBit 8 (fun i => if i = 0 then 0 else 0xF5) 13 3 = 8 := by decide
  rw [h8] at h
  exact ⟨h8, by decide, h⟩

end Sdfirm.Bitops
