import Mathlib
import Sdfirm.Spec.Mtd

/-!
# The bytes of a block

`mtd_block_open` takes blocks for pages, so a block has to be as large as a page,
and the blocks together smaller than the range of an `mtd_addr_t`
(`presents_iff_size`).
-/

namespace Sdfirm.MtdBlock

variable {info : MtdInfo} {dev : SbcDevice}

theorem window_eq (info : MtdInfo) (lba blks : Nat) :
    window info lba blks =
      some (lba % 2 ^ 32 * 2 ^ info.pageorder % 2 ^ 32, blks % 2 ^ 32 * 2 ^ info.pageorder % 2 ^ 32) := by
  show some ((lba % 2 ^ 32) <<< info.pageorder % 2 ^ 32, (blks % 2 ^ 32) <<< info.pageorder % 2 ^ 32) = _
  rw [Nat.shiftLeft_eq, Nat.shiftLeft_eq]

/-- Nothing is cut off if the bytes have an `mtd_addr_t`. -/
theorem window_of_lt {lba blks : Nat} (hlba : lba * 2 ^ info.pageorder < 2 ^ 32) (hblks : blks * 2 ^ info.pageorder < 2 ^ 32) :
    window info lba blks = some (lba * 2 ^ info.pageorder, blks * 2 ^ info.pageorder) := by
  have hpos := Nat.two_pow_pos info.pageorder
  have hle : ∀ n, n * 2 ^ info.pageorder < 2 ^ 32 → n < 2 ^ 32 := fun n hn => lt_of_le_of_lt (Nat.le_mul_of_pos_right n hpos) hn
  rw [window_eq, Nat.mod_eq_of_lt (hle lba hlba), Nat.mod_eq_of_lt (hle blks hblks), Nat.mod_eq_of_lt hlba,
    Nat.mod_eq_of_lt hblks]

theorem window_one (info : MtdInfo) : window info 0 1 = some (0, 2 ^ info.pageorder) := by
  have hzero : 0 * 2 ^ info.pageorder < 2 ^ 32 := by
    rw [Nat.zero_mul]
    decide
  have hone : 1 * 2 ^ info.pageorder < 2 ^ 32 := by
    rw [Nat.one_mul]
    exact Nat.pow_lt_pow_right (by decide) info.pageorder_lt
  rw [window_of_lt hzero hone, Nat.zero_mul, Nat.one_mul]

/-- Blocks are presented if there are none, or if they are pages of the device that have an `mtd_addr_t` together. -/
theorem presents_iff_size (hblocks : dev.nrBlocks < 2 ^ 32) :
    Presents info dev ↔ dev.nrBlocks = 0 ∨
      dev.blockSize = 2 ^ info.pageorder ∧ dev.nrBlocks ≤ info.nrPages ∧ dev.nrBlocks * 2 ^ info.pageorder < 2 ^ 32 := by
  have hpos := Nat.two_pow_pos info.pageorder
  constructor
  · intro h
    rcases Nat.eq_zero_or_pos dev.nrBlocks with h0 | hn
    · exact Or.inl h0
    -- the first block is as large as a page
    · have hone := (h.opens 0 1 (by omega)).1
      rw [window_one, Option.some.injEq, Prod.mk.injEq, Nat.one_mul] at hone
      obtain ⟨hall, hin⟩ := h.opens 0 dev.nrBlocks (by omega)
      rw [window_eq, Option.some.injEq, Prod.mk.injEq, Nat.mod_eq_of_lt hblocks, ← hone.2] at hall
      rw [Nat.zero_add, ← hone.2] at hin
      refine Or.inr ⟨hone.2.symm, Nat.le_of_mul_le_mul_right hin hpos, ?_⟩
      rw [← hall.2]
      exact Nat.mod_lt _ (by decide)
  · intro h
    have hwindow : ∀ lba blks, lba + blks ≤ dev.nrBlocks → window info lba blks = some (lba * dev.blockSize, blks * dev.blockSize) := by
      intro lba blks hle
      rcases h with h0 | ⟨hsize, -, hlt⟩
      · obtain ⟨rfl, rfl⟩ : lba = 0 ∧ blks = 0 := by omega
        rw [window_eq]
        simp only [Nat.zero_mod, Nat.zero_mul]
      · rw [hsize]
        apply window_of_lt
        · exact lt_of_le_of_lt (Nat.mul_le_mul_right _ (by omega)) hlt
        · exact lt_of_le_of_lt (Nat.mul_le_mul_right _ (by omega)) hlt
    refine ⟨fun lba blks hle => ⟨hwindow lba blks hle, ?_⟩, fun j k hj hk hne x y hx hy => ?_⟩
    · rcases h with h0 | ⟨hsize, hle', -⟩
      · rw [show lba + blks = 0 by omega, Nat.zero_mul]
        exact Nat.zero_le _
      · rw [hsize]
        exact Nat.mul_le_mul_right _ (by omega)
    · rw [hwindow j 1 (by omega), Option.some.injEq] at hx
      rw [hwindow k 1 (by omega), Option.some.injEq] at hy
      subst hx hy
      show j * dev.blockSize + 1 * dev.blockSize ≤ k * dev.blockSize ∨ k * dev.blockSize + 1 * dev.blockSize ≤ j * dev.blockSize
      rw [← Nat.add_mul, ← Nat.add_mul]
      rcases Nat.lt_or_gt_of_ne hne with hlt | hgt
      · exact Or.inl (Nat.mul_le_mul_right _ hlt)
      · exact Or.inr (Nat.mul_le_mul_right _ hgt)

/-! ## The two configurations -/

theorem pageSize_eq (info : MtdInfo) : mtdPageSize info.pageorder = 2 ^ info.pageorder := by
  rw [mtdPageSize, Nat.one_shiftLeft]
  exact Nat.mod_eq_of_lt (Nat.pow_lt_pow_right (by decide) info.pageorder_lt)

/-- A page size is a `bulk_size_t` up to order 15. -/
theorem two_pow_mod_eq_iff (n : Nat) : 2 ^ n % 2 ^ 16 = 2 ^ n ↔ n < 16 := by
  constructor
  · intro h
    have hlt : 2 ^ n < 2 ^ 16 := by
      rw [← h]
      exact Nat.mod_lt _ (by decide)
    exact (Nat.pow_lt_pow_iff_right (by decide)).mp hlt
  · intro h
    exact Nat.mod_eq_of_lt (Nat.pow_lt_pow_right (by decide) h)

end Sdfirm.MtdBlock
