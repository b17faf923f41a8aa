import Sdfirm.Spec.Heap

/-!
# Sizes, addresses and bins of the heap

The heap has at most `0x7FFFFFFF` bytes here, so that `heap_size_t` has 16
or 32 bits and every size of the arena is a `heap_offset_t`. `geometry` gives
the four layouts of `struct heap_chunk`. For sizes of the arena the C
arithmetic is that of the integers (`remainder_eq`, `chunkAt_add`), except for
the unsigned comparison (`geHeadSize_iff`). `heapBinHash` is monotone and
stays within `heap_bins`.
-/

namespace Sdfirm.Heap

open Framework

namespace Config

variable {c : Config}

theorem ptr_cases (c : Config) : c.ptr = 4 ∨ c.ptr = 8 := by
  unfold ptr
  cases c.model
  · exact .inl rfl
  · exact .inr rfl

theorem ptr_pos (c : Config) : 0 < c.ptr := by
  rcases c.ptr_cases with h | h <;> omega

theorem space_ge (c : Config) : 2 ^ 32 ≤ 256 ^ c.ptr := by
  rcases c.ptr_cases with h | h <;> rw [h] <;> norm_num

theorem stop_lt_space (c : Config) : c.stop + 1 < 256 ^ c.ptr := c.stop_lt

theorem start_le_stop (c : Config) : c.start ≤ c.stop := Nat.le_add_right _ _

theorem sizeBits_cases (hs : c.heapSize ≤ 0x7FFFFFFF) :
    c.sizeBits = 16 ∧ c.heapSize ≤ 0xFFFF ∨ c.sizeBits = 32 ∧ 0xFFFF < c.heapSize := by
  unfold sizeBits
  rw [if_neg (by omega)]
  split <;> omega

theorem offsetBits_cases (hs : c.heapSize ≤ 0x7FFFFFFF) :
    c.offsetBits = 16 ∧ c.heapSize ≤ 0x7FFF ∨ c.offsetBits = 32 ∧ 0x7FFF < c.heapSize := by
  unfold offsetBits
  rw [if_neg (by omega)]
  split <;> omega

/-- `struct heap_chunk` with sizes of 2 or 4 and pointers of 4 or 8 bytes. -/
theorem geometry (hs : c.heapSize ≤ 0x7FFFFFFF) :
    c.sizeSize = 2 ∧ c.ptr = 4 ∧ c.nodeOff = 4 ∧ c.headSize = 12 ∨
    c.sizeSize = 2 ∧ c.ptr = 8 ∧ c.nodeOff = 8 ∧ c.headSize = 24 ∨
    c.sizeSize = 4 ∧ c.ptr = 4 ∧ c.nodeOff = 8 ∧ c.headSize = 16 ∨
    c.sizeSize = 4 ∧ c.ptr = 8 ∧ c.nodeOff = 8 ∧ c.headSize = 24 := by
  unfold headSize nodeOff sizeSize
  rcases sizeBits_cases hs with ⟨h, -⟩ | ⟨h, -⟩ <;> rcases c.ptr_cases with h' | h' <;> rw [h, h'] <;> omega

theorem pow_sizeSize (hs : c.heapSize ≤ 0x7FFFFFFF) : 256 ^ c.sizeSize = 2 ^ c.sizeBits := by
  unfold sizeSize
  rcases sizeBits_cases hs with ⟨h, -⟩ | ⟨h, -⟩ <;> rw [h] <;> norm_num

theorem heapSize_lt (hs : c.heapSize ≤ 0x7FFFFFFF) : c.heapSize < 2 ^ c.sizeBits := by
  rcases sizeBits_cases hs with ⟨h, h'⟩ | ⟨h, -⟩ <;> rw [h] <;> omega

/-- A size of the arena fits its field together with the bit. -/
theorem word_lt (hs : c.heapSize ≤ 0x7FFFFFFF) {sz : Nat} (h : sz ≤ c.heapSize) (h2 : 2 ∣ sz) :
    sz + 1 < 256 ^ c.sizeSize := by
  have h3 := heapSize_lt hs
  rw [pow_sizeSize hs]
  rcases sizeBits_cases hs with ⟨hb, -⟩ | ⟨hb, -⟩ <;> rw [hb] at h3 ⊢ <;> omega

/-! ## Addresses -/

theorem chunkAt_add {p s : Nat} (h : p + s < 256 ^ c.ptr) : c.chunkAt p s = p + s := by
  have : ((p : Int) + s) % (256 ^ c.ptr : Nat) = p + s := Int.emod_eq_of_lt (by omega) (by exact_mod_cast h)
  rw [chunkAt, this]
  omega

theorem chunkAt_sub {p s : Nat} (h : s ≤ p) (hp : p < 256 ^ c.ptr) : c.chunkAt p (-(s : Int)) = p - s := by
  have : ((p : Int) + -(s : Int)) % (256 ^ c.ptr : Nat) = p - s := by
    rw [← Int.sub_eq_add_neg]
    refine Int.emod_eq_of_lt (by omega) ?_
    have : (p : Int) < (256 ^ c.ptr : Nat) := by exact_mod_cast hp
    omega
  rw [chunkAt, this]
  omega

/-! ## Sizes -/

theorem toSize_natCast {a : Nat} (h : a < 2 ^ c.sizeBits) : c.toSize a = a := by
  have : (a : Int) % 2 ^ c.sizeBits = a := Int.emod_eq_of_lt (by omega) (by exact_mod_cast h)
  rw [toSize, this]
  omega

theorem toOffset_eq (hs : c.heapSize ≤ 0x7FFFFFFF) {x : Int} (h1 : -(c.heapSize : Int) ≤ x) (h2 : x ≤ c.heapSize) :
    c.toOffset x = x := by
  unfold toOffset
  rcases offsetBits_cases hs with ⟨h, h'⟩ | ⟨h, -⟩ <;> rw [h] <;> simp only [Int.bmod] <;> split <;> omega

theorem remainder_eq (hs : c.heapSize ≤ 0x7FFFFFFF) {a b : Nat} (ha : a ≤ c.heapSize) (hb : b ≤ c.heapSize) :
    c.remainder a b = (a : Int) - b := by
  unfold remainder subSize
  split
  · exact toOffset_eq hs (by omega) (by omega)
  · rename_i h32
    have hsb : c.sizeBits = 32 := by
      rcases sizeBits_cases hs with h | h <;> omega
    have hob : c.offsetBits = 32 := by
      rcases sizeBits_cases hs with h | h <;> rcases offsetBits_cases hs with h' | h' <;> omega
    have hmod : c.toOffset (((a : Int) - b) % 2 ^ c.sizeBits) = c.toOffset ((a : Int) - b) := by
      rw [toOffset, toOffset, hob, hsb]
      exact Int.emod_bmod ((a : Int) - b) (2 ^ 32)
    rw [hmod]
    exact toOffset_eq hs (by omega) (by omega)

/-- The comparison of a remainder, when it is made signed or the remainder is not negative. -/
theorem geHeadSize_iff (hs : c.heapSize ≤ 0x7FFFFFFF) {a b : Nat} (ha : a ≤ c.heapSize) (hb : b ≤ c.heapSize)
    (hcmp : c.UnsignedCompare → b ≤ a) : c.geHeadSize (c.remainder a b) ↔ b + c.headSize ≤ a := by
  rw [remainder_eq hs ha hb]
  unfold geHeadSize
  split
  · rename_i hu
    have hba := hcmp hu
    have hmod : ((a : Int) - b) % 2 ^ c.sizeBits = (a : Int) - b := by
      refine Int.emod_eq_of_lt (by omega) ?_
      have : (c.heapSize : Int) < 2 ^ c.sizeBits := by exact_mod_cast heapSize_lt hs
      omega
    rw [hmod]
    omega
  · omega

/-- The sizes `heap_size_t` holds are multiples of eight and stay so when cut. -/
theorem dvd_heapAlign (hs : c.heapSize ≤ 0x7FFFFFFF) (sz : Nat) : 8 ∣ c.heapAlign sz := by
  unfold heapAlign
  rcases sizeBits_cases hs with ⟨h, -⟩ | ⟨h, -⟩ <;> rw [h] <;> omega

theorem dvd_heapRequestPad (hs : c.heapSize ≤ 0x7FFFFFFF) (n : Nat) : 8 ∣ c.heapRequestPad n := by
  unfold heapRequestPad
  split <;> exact dvd_heapAlign hs _

/-- `heap_align(HEAP_HEAD_SIZE)` is the least multiple of eight not below it. -/
theorem heapAlign_headSize (hs : c.heapSize ≤ 0x7FFFFFFF) : c.heapAlign c.headSize = (c.headSize + 7) / 8 * 8 := by
  have hsp := c.space_ge
  have hg := geometry hs
  have h1 : (c.headSize + 7) % 256 ^ c.ptr = c.headSize + 7 := Nat.mod_eq_of_lt (by omega)
  rw [heapAlign, h1, Nat.mod_eq_of_lt]
  rcases sizeBits_cases hs with ⟨h, -⟩ | ⟨h, -⟩ <;> rw [h] <;> omega

/-! ## Bins -/

theorem heapBinHash_eq {sz : Nat} (h : sz < 2 ^ c.sizeBits) : c.heapBinHash sz =
    if sz < 512 then sz / 8
    else if sz < 2560 then sz / 64 + 56
    else if sz < 10752 then sz / 512 + 91
    else if sz < 43520 then sz / 4096 + 110
    else if sz < 174592 then sz / 32768 + 119
    else if sz < 698880 then sz / 262144 + 124
    else 126 := by
  unfold heapBinHash
  simp only [Nat.mod_eq_of_lt h, Nat.shiftRight_eq_div_pow]
  norm_num
  split_ifs <;> omega

theorem heapBinHash_mono {a b : Nat} (hab : a ≤ b) (hb : b < 2 ^ c.sizeBits) :
    c.heapBinHash a ≤ c.heapBinHash b := by
  rw [heapBinHash_eq (lt_of_le_of_lt hab hb), heapBinHash_eq hb]
  split_ifs <;> omega

theorem heapBinHash_heapSize (hs : c.heapSize ≤ 0x7FFFFFFF) : c.heapBinHash c.heapSize + 1 = c.nrBins := by
  rw [heapBinHash_eq (heapSize_lt hs)]
  unfold nrBins nrHeapBins
  simp only [Nat.shiftRight_eq_div_pow]
  norm_num
  split_ifs <;> omega

theorem heapBinHash_lt (hs : c.heapSize ≤ 0x7FFFFFFF) {sz : Nat} (h : sz ≤ c.heapSize) :
    c.heapBinHash sz < c.nrBins := by
  have := heapBinHash_mono h (heapSize_lt hs)
  have := heapBinHash_heapSize hs
  omega

theorem heapExactIndex_eq (hs : c.heapSize ≤ 0x7FFFFFFF) {sz : Nat} (h : sz < 512) :
    c.heapExactIndex sz = c.heapBinHash sz := by
  have hlt : sz < 2 ^ c.sizeBits := by
    rcases sizeBits_cases hs with ⟨h', -⟩ | ⟨h', -⟩ <;> rw [h'] <;> omega
  rw [heapBinHash_eq hlt, if_pos h, heapExactIndex, Nat.mod_eq_of_lt hlt, Nat.shiftRight_eq_div_pow]
  omega

theorem heapBinHash_exact (hs : c.heapSize ≤ 0x7FFFFFFF) {sz : Nat} (h : sz < 512) : c.heapBinHash sz = sz / 8 := by
  have hlt : sz < 2 ^ c.sizeBits := by
    rcases sizeBits_cases hs with ⟨h', -⟩ | ⟨h', -⟩ <;> rw [h'] <;> omega
  rw [heapBinHash_eq hlt, if_pos h]

end Config

end Sdfirm.Heap

/-!
## Padding of heap requests

`heap_request_pad` finds the larger of two sizes by comparing what a mask leaves
of them. `heapRequestPad_eq` is the padding without the C arithmetic, and
`padded_iff` says for which sizes of the heap and of the request it is right.
-/

namespace Sdfirm.Heap

variable {c : Config} {n : Nat}

theorem and_mask_lt (x : Nat) : x &&& (c.heapSize - 1) < c.heapSize := by
  have hle : x &&& (c.heapSize - 1) ≤ c.heapSize - 1 := Nat.and_le_right
  have hge := c.heapSize_ge
  omega

/-- A masked size is a `heap_offset_t`. -/
theorem heapOffset_eq (hs : c.heapSize ≤ 0x7FFFFFFF) (x : Nat) : c.heapOffset x = (x &&& (c.heapSize - 1) : Nat) := by
  have hlt := and_mask_lt (c := c) x
  exact Config.toOffset_eq hs (by omega) (by omega)

theorem heapAlign_eq (hs : c.heapSize ≤ 0x7FFFFFFF) {sz : Nat} (h : sz + 7 ≤ c.heapSize) :
    c.heapAlign sz = (sz + 7) / 8 * 8 := by
  have hsp := c.space_ge
  have hlt := Config.heapSize_lt hs
  rw [Config.heapAlign, Nat.mod_eq_of_lt (by omega : sz + 7 < 256 ^ c.ptr), Nat.mod_eq_of_lt (by omega)]

/-- The padding of a request that fits in the heap. -/
theorem heapRequestPad_eq (hs : c.heapSize ≤ 0x7FFFFFFF) (hn : n + c.sizeSize + 7 ≤ c.heapSize - c.sizeSize) :
    c.heapRequestPad n =
      if (n + c.sizeSize + 7) &&& (c.heapSize - 1) < (c.headSize + 7) &&& (c.heapSize - 1) then
        (c.headSize + 7) / 8 * 8
      else (n + c.sizeSize + 7) / 8 * 8 := by
  have hsp := c.space_ge
  have hmod : (n + c.sizeSize + 7) % 256 ^ c.ptr = n + c.sizeSize + 7 := Nat.mod_eq_of_lt (by omega)
  have hmod' : (n + c.sizeSize) % 256 ^ c.ptr = n + c.sizeSize := Nat.mod_eq_of_lt (by omega)
  rw [Config.heapRequestPad, hmod, hmod', heapOffset_eq hs, heapOffset_eq hs, Config.heapAlign_headSize hs,
    heapAlign_eq hs (by omega)]
  simp only [Nat.cast_lt]

/-- The least multiple of eight with room for two sizes. -/
theorem isLeast_align (a b : Nat) :
    IsLeast {nb | 8 ∣ nb ∧ a ≤ nb ∧ b ≤ nb} (max ((a + 7) / 8) ((b + 7) / 8) * 8) := by
  refine ⟨⟨Nat.dvd_mul_left _ _, by omega, by omega⟩, ?_⟩
  rintro nb ⟨hdvd, ha, hb⟩
  omega

/-- The padding is right exactly if the mask keeps the order of the sizes that are compared. -/
theorem padded_iff (c : Config) (n : Nat) (hs : c.heapSize ≤ 0x20000000)
    (hn : n + c.sizeSize + 7 ≤ c.heapSize - c.sizeSize) : Padded c n ↔ MaskOk c n := by
  have hs : c.heapSize ≤ 0x7FFFFFFF := by omega
  have hg := Config.geometry hs
  have hge := c.heapSize_ge
  have hpad := heapRequestPad_eq hs hn
  have hleast := isLeast_align (n + c.sizeSize) c.headSize
  constructor
  · -- the least size is the larger of the two, so the branch taken is the right one
    intro h
    have heq := h.least.unique hleast
    rw [hpad] at heq
    refine ⟨fun hlt => ?_, fun hlt => ?_⟩
    · by_contra hmask
      rw [if_neg hmask] at heq
      omega
    · by_contra hmask
      rw [if_pos (by omega)] at heq
      omega
  · intro h
    have heq : c.heapRequestPad n = max ((n + c.sizeSize + 7) / 8) ((c.headSize + 7) / 8) * 8 := by
      rw [hpad]
      split
      · rename_i hmask
        have hle : ¬(c.headSize + 7) / 8 < (n + c.sizeSize + 7) / 8 := fun hlt => absurd (h.le hlt) (by omega)
        omega
      · rename_i hmask
        have hle : ¬(n + c.sizeSize + 7) / 8 < (c.headSize + 7) / 8 := fun hlt => hmask (h.lt hlt)
        omega
    refine ⟨heq ▸ hleast, ?_⟩
    rw [heq]
    omega

/-- A heap at `0x2000` is not at the null pointer. -/
theorem start_pos_2000 : 0 < 0x2000 := by decide

/-- The configuration of a 32-bit target with a heap of this size, and `heap_bins` above it. -/
def padConfig (heapSize : Nat) (hge : 256 ≤ heapSize) (hle : heapSize ≤ 0x20000000) : Config where
  heapSize
  model := .ilp32
  unit := 8
  start := 0x2000
  bins := 0x30000000
  heapSize_ge := hge
  unitBits := Bitops.unitBits_eight
  start_pos := start_pos_2000
  stop_lt := by
    have hspace : 256 ^ DataModel.ilp32.ptr = 2 ^ 32 := by decide
    omega
  bins_apart := .inr (by omega)
  bins_le := by
    have hspace : 256 ^ DataModel.ilp32.ptr = 2 ^ 32 := by decide
    have hbins : nrHeapBins heapSize ≤ 127 := by
      unfold nrHeapBins
      simp only [Nat.shiftRight_eq_div_pow]
      split_ifs <;> omega
    have hptr : DataModel.ilp32.ptr = 4 := rfl
    rw [hptr] at hspace ⊢
    omega

/-- A heap whose size is not a power of two, and a request for which its mask is right. -/
theorem padded_300 : Padded (padConfig 300 (by decide) (by decide)) 100 :=
  (padded_iff _ 100 (by decide) (by decide)).2 ⟨by decide, by decide⟩

/-- With `CONFIG_HEAP_SIZE` 321 the mask leaves nothing of either size, and a byte is padded to 8, which has no room
for a free chunk. With 544 it leaves nothing of a request for 247 bytes, which is padded to 16, and the `BUG_ON`
fires. -/
theorem not_padded :
    ¬Padded (padConfig 321 (by decide) (by decide)) 1 ∧ ¬Padded (padConfig 544 (by decide) (by decide)) 247 := by
  constructor
  · intro h
    exact absurd h.least.1.2.2 (by decide)
  · intro h
    exact absurd h.no_bug (by decide)

end Sdfirm.Heap
