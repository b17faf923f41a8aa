import Sdfirm.Spec.Iommu
import Sdfirm.Proof.Bitops.Bits

/-!
# `iommu_pgsize` and `iommu_unmap`

`iommuPgsize_spec`: the page size chosen is the largest one of the bitmap that
fits the size and the alignment. A piece was chosen under the alignment of
both addresses and `iommu_unmap` looks at one, so it asks for the piece at
hand or for a larger range, which pieces tile (`Tiles.split_dyadic`); whatever
part of it the driver takes out, pieces tile the rest (`unmapLoop_spec`).
-/

namespace Sdfirm.Iommu

open Framework
open Bitops (ffs64 fls64)

/-! ## The page size -/

/-- The smallest page size divides every other. -/
theorem ffs64_le_of_testBit {bitmap k : Nat} (h0 : bitmap ≠ 0) (hlt : bitmap < 2 ^ 64) (hk : bitmap.testBit k) :
    ffs64 bitmap ≤ k := by
  have hdvd : 2 ^ ffs64 bitmap ∣ bitmap := (Bitops.dvd_iff_le_ffs64 h0 hlt).2 le_rfl
  obtain ⟨q, hq⟩ := hdvd
  by_contra hlow
  rw [hq, Nat.testBit_two_pow_mul, decide_eq_false (by omega), Bool.false_and] at hk
  cases hk

theorem testBit_ffs64 {bitmap : Nat} (h0 : bitmap ≠ 0) (hlt : bitmap < 2 ^ 64) : bitmap.testBit (ffs64 bitmap) :=
  Bitops.testBit_ffsUnit (.inr (.inr (.inr rfl)) : Bitops.UnitBits 64) h0 hlt

/-- `pgsize_idx` is the largest exponent that fits the size and the alignment. -/
theorem le_pgsizeIdx {addrMerge size j : Nat} (h0 : size ≠ 0) (hsize : size < 2 ^ 64) (hmerge : addrMerge < 2 ^ 64) :
    j ≤ (if addrMerge ≠ 0 then min (fls64 size) (ffs64 addrMerge) else fls64 size) ↔
      2 ^ j ≤ size ∧ 2 ^ j ∣ addrMerge := by
  split_ifs with hne
  · rw [le_min_iff, Bitops.le_iff_le_fls64 h0 hsize, Bitops.dvd_iff_le_ffs64 hne hmerge]
  · rw [Bitops.le_iff_le_fls64 h0 hsize, not_not.1 hne]
    exact (and_iff_left (dvd_zero _)).symm

/-- The exponents of a page size chosen by `iommu_pgsize`. -/
structure Chosen (bitmap addrMerge size k : Nat) : Prop where
  bit : bitmap.testBit k
  le : 2 ^ k ≤ size
  dvd : 2 ^ k ∣ addrMerge
  largest : ∀ j, bitmap.testBit j → 2 ^ j ≤ size → 2 ^ j ∣ addrMerge → j ≤ k

/-- The largest page size is chosen, where the mask can be built and there is one. -/
theorem iommuPgsize_spec {bitmap addrMerge size j : Nat} (hb : bitmap < 2 ^ 64) (h0 : size ≠ 0) (hsize : size < 2 ^ 64)
    (hmerge : addrMerge < 2 ^ 64) (hwide : ¬ (2 ^ 63 ≤ size ∧ 2 ^ 63 ∣ addrMerge)) (hj : bitmap.testBit j)
    (hj1 : 2 ^ j ≤ size) (hj2 : 2 ^ j ∣ addrMerge) :
    ∃ k, iommuPgsize bitmap addrMerge size = some (2 ^ k) ∧ Chosen bitmap addrMerge size k := by
  obtain ⟨idx, hidx⟩ : ∃ idx, (if addrMerge ≠ 0 then min (fls64 size) (ffs64 addrMerge) else fls64 size) = idx :=
    ⟨_, rfl⟩
  have hle : ∀ i, i ≤ idx ↔ 2 ^ i ≤ size ∧ 2 ^ i ∣ addrMerge := by
    intro i
    rw [← hidx]
    exact le_pgsizeIdx h0 hsize hmerge
  have hlt : ¬ 64 ≤ idx + 1 := fun h => hwide ((hle 63).1 (by omega))
  -- the sizes of the bitmap that fit
  have hmask : (1 <<< (idx + 1) - 1) &&& bitmap = bitmap % 2 ^ (idx + 1) := by
    rw [Nat.one_shiftLeft, Nat.and_comm, Nat.and_two_pow_sub_one_eq_mod]
  have hbit : ∀ i, (bitmap % 2 ^ (idx + 1)).testBit i ↔ i ≤ idx ∧ bitmap.testBit i := by
    intro i
    rw [Nat.testBit_mod_two_pow, Bool.and_eq_true, decide_eq_true_eq, Nat.lt_succ_iff]
  have hne : bitmap % 2 ^ (idx + 1) ≠ 0 := by
    intro hz
    have hset := (hbit j).2 ⟨(hle j).2 ⟨hj1, hj2⟩, hj⟩
    rw [hz, Nat.zero_testBit] at hset
    cases hset
  have hmod : bitmap % 2 ^ (idx + 1) < 2 ^ 64 := (Nat.mod_le _ _).trans_lt hb
  have heq : iommuPgsize bitmap addrMerge size = some (2 ^ fls64 (bitmap % 2 ^ (idx + 1))) := by
    simp only [iommuPgsize, hidx]
    rw [if_neg hlt, hmask, if_neg hne, Nat.one_shiftLeft]
  have hlast : (bitmap % 2 ^ (idx + 1)).testBit (fls64 (bitmap % 2 ^ (idx + 1))) := by
    rw [Bitops.fls64_eq hne hmod]
    exact Nat.testBit_log2 hne
  obtain ⟨h1, h2⟩ := (hbit _).1 hlast
  refine ⟨_, heq, h2, ((hle _).1 h1).1, ((hle _).1 h1).2, fun i hi hi1 hi2 => ?_⟩
  rw [← Bitops.le_iff_le_fls64 hne hmod]
  exact Nat.ge_two_pow_of_testBit ((hbit i).2 ⟨(hle i).2 ⟨hi1, hi2⟩, hi⟩)

/-- The shift is too far on an address of 0 and half of the address space. -/
theorem iommuPgsize_wide {bitmap size : Nat} (hsize : 2 ^ 63 ≤ size) (hlt : size < 2 ^ 64) :
    iommuPgsize bitmap 0 size = none := by
  have h0 : size ≠ 0 := by omega
  have hfls : 63 ≤ fls64 size := (Bitops.le_iff_le_fls64 h0 hlt).1 hsize
  simp only [iommuPgsize]
  rw [if_neg (not_not.2 rfl), if_pos (by omega)]

/-! ## The loop -/

section Unmap

variable {σ : Type} {hw : Hw σ} {bitmap : Nat} {blocks : σ → Set Piece}

theorem Piece.Legal.dyadic {p : Piece} (h : p.Legal bitmap) : Dyadic Piece.iova Piece.pgsize p := by
  obtain ⟨k, -, hk, hdvd, -⟩ := h
  exact ⟨k, hk, hdvd⟩

theorem unmapLoop_done {size fuel iova unmapped : Nat} {s : σ} (h : size ≤ unmapped) :
    unmapLoop hw bitmap size (fuel + 1) iova unmapped s = some (unmapped, s) := by
  rw [unmapLoop, if_neg (not_lt.2 h)]

theorem unmapLoop_more {size fuel iova unmapped pgsize : Nat} {s : σ} (h : unmapped < size)
    (hpg : iommuPgsize bitmap iova (size - unmapped) = some pgsize) :
    unmapLoop hw bitmap size (fuel + 1) iova unmapped s =
      if (hw.unmap s iova pgsize).1 = 0 then some (unmapped, (hw.unmap s iova pgsize).2)
      else unmapLoop hw bitmap size fuel (iova + (hw.unmap s iova pgsize).1) (unmapped + (hw.unmap s iova pgsize).1)
        (hw.unmap s iova pgsize).2 := by
  rw [unmapLoop, if_pos h, hpg, Option.bind_some]

/-- With the driver unmapping whole pages the loop comes to an end. -/
theorem unmapLoop_total (hd : Driver hw bitmap blocks) (h0 : bitmap ≠ 0) (hb : bitmap < 2 ^ 64) {size : Nat}
    (hsize : 2 ^ ffs64 bitmap ∣ size) : ∀ (fuel iova unmapped : Nat) (s : σ), size - unmapped < fuel →
      2 ^ ffs64 bitmap ∣ iova → 2 ^ ffs64 bitmap ∣ unmapped → (unmapped < size → iova + (size - unmapped) < 2 ^ 64) →
      ¬ (iova = 0 ∧ 2 ^ 63 ≤ size - unmapped) → ∃ r, unmapLoop hw bitmap size fuel iova unmapped s = some r
  | 0, _, _, _, hf, _, _, _, _ => absurd hf (Nat.not_lt_zero _)
  | fuel + 1, iova, unmapped, s, hf, hiova, hunm, hlt, hwide => by
    obtain hdone | hmore := le_or_gt size unmapped
    · exact ⟨_, unmapLoop_done hdone⟩
    · have hend := hlt hmore
      have hleft : 2 ^ ffs64 bitmap ∣ size - unmapped := Nat.dvd_sub hsize hunm
      have hle := Nat.le_of_dvd (by omega) hleft
      obtain ⟨k, hk, -⟩ := iommuPgsize_spec hb (by omega) (by omega) (by omega)
        (fun h => hwide ⟨Nat.eq_zero_of_dvd_of_lt h.2 (by omega), h.1⟩) (testBit_ffs64 h0 hb) hle hiova
      rw [unmapLoop_more hmore hk]
      have hpages := hd.unmap_pages s iova (2 ^ k)
      split_ifs with hz
      · exact ⟨_, rfl⟩
      · exact unmapLoop_total hd h0 hb hsize fuel _ _ _ (by omega) (hiova.add hpages) (hunm.add hpages)
          (fun _ => by omega) (by omega)

theorem Tiles.meets {x n : Nat} {l : List Piece} (h : Tiles Piece.iova Piece.pgsize x n l) {p : Piece} (hp : p ∈ l) :
    p.Meets x n := by
  obtain ⟨h1, h2, h3⟩ := h.bounds hp
  exact ⟨by omega, by omega⟩

theorem Unmapped.mono {others : Set Piece} {x n y m : Nat} (h : Unmapped others x n) (hlo : x ≤ y) (hhi : y + m ≤ x + n) :
    Unmapped others y m := fun p hp hmeet => h p hp ⟨by have := hmeet.1; omega, by have := hmeet.2; omega⟩

/-- The blocks left when the first ones of a tiling are taken out. -/
theorem blocks_diff {others : Set Piece} {x n : Nat} {l l' : List Piece} (h : Tiles Piece.iova Piece.pgsize x n (l ++ l'))
    (ho : Unmapped others x n) : (others ∪ {p | p ∈ l ++ l'}) \ {p | p ∈ l} = others ∪ {p | p ∈ l'} := by
  obtain ⟨hle, h1, h2⟩ := tiles_append.1 h
  ext p
  constructor
  · intro ⟨hp, hnot⟩
    exact hp.imp_right fun hp => (List.mem_append.1 hp).resolve_left hnot
  · intro hp
    refine ⟨hp.imp_right fun hp => List.mem_append_right _ hp, fun hl => ?_⟩
    obtain hp | hp := hp
    · exact ho p hp (Tiles.meets h (List.mem_append_left _ hl))
    · -- the others come after the end of `l`
      have hb1 := h1.bounds hl
      have hb2 := h2.bounds hp
      omega

/-- What the loop does on a range that legal pieces tile. -/
theorem unmapLoop_spec (hd : Driver hw bitmap blocks) (hb : bitmap < 2 ^ 64) {size : Nat} {others : Set Piece} :
    ∀ (fuel iova unmapped : Nat) (s : σ) (l : List Piece), size - unmapped < fuel → unmapped ≤ size →
      Tiles Piece.iova Piece.pgsize iova (size - unmapped) l → (∀ p ∈ l, p.Legal bitmap) →
      blocks s = others ∪ {p | p ∈ l} → Unmapped others iova (size - unmapped) → iova + (size - unmapped) < 2 ^ 64 →
      ¬ (iova = 0 ∧ 2 ^ 63 ≤ size - unmapped) →
      ∃ s', unmapLoop hw bitmap size fuel iova unmapped s = some (size, s') ∧ blocks s' = others
  | 0, _, _, _, _, hf, _, _, _, _, _, _, _ => absurd hf (Nat.not_lt_zero _)
  | fuel + 1, iova, unmapped, s, [], hf, hle, ht, _, hs, _, _, _ => by
    have hz : size - unmapped = 0 := ht
    obtain rfl : unmapped = size := by omega
    refine ⟨s, unmapLoop_done le_rfl, ?_⟩
    rw [hs]
    simp
  | fuel + 1, iova, unmapped, s, p :: l, hf, hle, ht, hl, hs, ho, hlt, hwide => by
    obtain ⟨hpos, hplen, hple, -⟩ := id ht
    have hmore : unmapped < size := by omega
    obtain ⟨j, hj, hpj, hjiova, -⟩ := hl p List.mem_cons_self
    obtain ⟨k, hpg, hk⟩ := iommuPgsize_spec hb (by omega) (by omega) (by omega)
      (fun h => hwide ⟨Nat.eq_zero_of_dvd_of_lt h.2 (by omega), h.1⟩) hj (hpj ▸ hple) (hpos ▸ hjiova)
    have hfirst : p.pgsize ≤ 2 ^ k := by
      rw [hpj]
      exact Nat.pow_le_pow_right Nat.two_pos (hk.largest j hj (hpj ▸ hple) (hpos ▸ hjiova))
    -- the range asked for is tiled by the first of the pieces
    obtain ⟨l1, l2, hsplit, ht1⟩ := ht.split_dyadic (fun a ha => (hl a ha).dyadic) hk.dvd hk.le fun a ha => by
      rw [List.head?_cons, Option.mem_some_iff] at ha
      rw [← ha]
      exact hfirst
    rw [hsplit] at ht hl hs
    have hne : l1 ≠ [] := by
      intro hnil
      rw [hnil] at ht1
      exact absurd ht1 (Nat.two_pow_pos k).ne'
    obtain ⟨hle1, -, ht2⟩ := tiles_append.1 ht
    rw [ht1.total_eq] at ht2 hle1
    obtain ⟨a, b, hab, ha, hn, hs'⟩ := hd.unmap s iova (2 ^ k) l1 ht1 hne (fun q hq => hl q (List.mem_append_left _ hq))
      (fun q hq => hs ▸ .inr (List.mem_append_left _ hq)) fun q hq hmeet => by
        rw [hs] at hq
        obtain hq | hq := hq
        · exact absurd hmeet (ho.mono le_rfl (by omega) q hq)
        · refine (List.mem_append.1 hq).resolve_right fun hq2 => ?_
          have hb2 := ht2.bounds hq2
          have hlow := hmeet.1
          omega
    rw [hab, List.append_assoc] at ht hl hs
    obtain ⟨htot, hta, htb⟩ := tiles_append.1 ht
    have hpos' : 0 < total Piece.pgsize a := by
      obtain ⟨q, a', rfl⟩ := List.exists_cons_of_ne_nil ha
      have hq := hta.bounds List.mem_cons_self
      rw [total_cons]
      omega
    rw [unmapLoop_more hmore hpg, hn, if_neg hpos'.ne']
    rw [Nat.sub_sub] at htb
    refine unmapLoop_spec hd hb fuel _ _ _ (b ++ l2) (by omega) (by omega) htb
      (fun q hq => hl q (List.mem_append_right _ hq)) ?_ (ho.mono (by omega) (by omega)) (by omega) (by omega)
    rw [hs', hs]
    exact blocks_diff ht ho

/-! ## The call -/

theorem two_pow_dvd_or {k x y : Nat} : 2 ^ k ∣ x ||| y ↔ 2 ^ k ∣ x ∧ 2 ^ k ∣ y := by
  simp only [Nat.dvd_iff_mod_eq_zero, Nat.or_mod_two_pow, Nat.or_eq_zero_iff]

theorem isAligned_two_pow {k x : Nat} : isAligned x (2 ^ k) = true ↔ 2 ^ k ∣ x := by
  rw [isAligned, decide_eq_true_eq, Nat.and_two_pow_sub_one_eq_mod, Nat.dvd_iff_mod_eq_zero]

theorem minPagesz_eq (h : ffs64 bitmap < 32) : minPagesz bitmap = some (2 ^ ffs64 bitmap) := by
  rw [minPagesz, if_neg (not_le.2 h), Nat.one_shiftLeft]

theorem iommuUnmap_eq {iova size : Nat} {s : σ} (h : ffs64 bitmap < 32) (hiova : 2 ^ ffs64 bitmap ∣ iova)
    (hsize : 2 ^ ffs64 bitmap ∣ size) :
    iommuUnmap hw bitmap s iova size =
      (unmapLoop hw bitmap size (size + 1) iova 0 s).map fun r => (r.1, hw.iotlbSync r.2) := by
  rw [iommuUnmap, minPagesz_eq h, Option.bind_some, if_pos (isAligned_two_pow.2 (two_pow_dvd_or.2 ⟨hiova, hsize⟩))]

/-- `iommu_unmap` on a range that legal pieces tile. -/
theorem iommuUnmap_spec (hd : Driver hw bitmap blocks) (hb : bitmap < 2 ^ 64) (h32 : ffs64 bitmap < 32)
    {iova size : Nat} {s : σ} {l : List Piece} {others : Set Piece} (hiova : 2 ^ ffs64 bitmap ∣ iova)
    (hsize : 2 ^ ffs64 bitmap ∣ size) (ht : Tiles Piece.iova Piece.pgsize iova size l)
    (hl : ∀ p ∈ l, p.Legal bitmap) (hs : blocks s = others ∪ {p | p ∈ l}) (ho : Unmapped others iova size)
    (hlt : iova + size < 2 ^ 64) (hwide : ¬ (iova = 0 ∧ 2 ^ 63 ≤ size)) :
    ∃ s', iommuUnmap hw bitmap s iova size = some (size, s') ∧ blocks s' = others := by
  obtain ⟨s', h1, h2⟩ := unmapLoop_spec hd hb (size + 1) iova 0 s l (by omega) (Nat.zero_le _) ht hl hs ho hlt hwide
  refine ⟨hw.iotlbSync s', ?_, (hd.iotlbSync s').trans h2⟩
  rw [iommuUnmap_eq h32 hiova hsize, h1, Option.map_some]

theorem iommuUnmap_total (hd : Driver hw bitmap blocks) (h0 : bitmap ≠ 0) (hb : bitmap < 2 ^ 64) (h32 : ffs64 bitmap < 32)
    {iova size : Nat} (s : σ) (hiova : 2 ^ ffs64 bitmap ∣ iova) (hsize : 2 ^ ffs64 bitmap ∣ size)
    (hlt : iova + size < 2 ^ 64) (hwide : ¬ (iova = 0 ∧ 2 ^ 63 ≤ size)) :
    ∃ r, iommuUnmap hw bitmap s iova size = some r := by
  obtain ⟨r, hr⟩ := unmapLoop_total hd h0 hb hsize (size + 1) iova 0 s (by omega) hiova (dvd_zero _) (fun _ => hlt) hwide
  refine ⟨(r.1, hw.iotlbSync r.2), ?_⟩
  rw [iommuUnmap_eq h32 hiova hsize, hr, Option.map_some]

end Unmap

end Sdfirm.Iommu

/-!
## `iommu_map`

`mapLoop_spec`: the pieces handed over tile the range from its start on, to its
end or to the first piece refused. What has been mapped by then is again a
range that legal pieces tile, which `iommu_unmap` takes back. With a size of 0
the loop does not run, and `ret` is returned as it was found.
`iommu_exact_iff`: apart from that, and from two shifts that are too far, the
calls do what they should over every driver.
-/

namespace Sdfirm.Iommu

open Framework
open Bitops (ffs64 fls64)

variable {σ : Type} {hw : Hw σ} {bitmap : Nat} {blocks : σ → Set Piece} {prot : Int}

/-! ### The loop -/

theorem mapLoop_done {fuel iova paddr : Nat} {ret : Int} {s : σ} :
    mapLoop hw bitmap prot (fuel + 1) iova paddr 0 ret s = some ⟨ret, 0, s, []⟩ := rfl

theorem mapLoop_more {fuel iova paddr size pgsize : Nat} {ret : Int} {s : σ} (h : size ≠ 0)
    (hpg : iommuPgsize bitmap (iova ||| paddr) size = some pgsize) :
    mapLoop hw bitmap prot (fuel + 1) iova paddr size ret s =
      if (hw.map s ⟨iova, paddr, pgsize⟩ prot).1 ≠ 0 then
        some ⟨(hw.map s ⟨iova, paddr, pgsize⟩ prot).1, size, (hw.map s ⟨iova, paddr, pgsize⟩ prot).2,
          [⟨iova, paddr, pgsize⟩]⟩
      else (mapLoop hw bitmap prot fuel (iova + pgsize) (paddr + pgsize) (size - pgsize)
        (hw.map s ⟨iova, paddr, pgsize⟩ prot).1 (hw.map s ⟨iova, paddr, pgsize⟩ prot).2).map fun e =>
          { e with pieces := ⟨iova, paddr, pgsize⟩ :: e.pieces } := by
  rw [mapLoop, if_pos h, hpg, Option.bind_some]

theorem TilesBoth.cons {iova paddr pgsize n : Nat} {l : List Piece} (hpos : 0 < pgsize)
    (h : TilesBoth (iova + pgsize) (paddr + pgsize) n l) :
    TilesBoth iova paddr (pgsize + n) (⟨iova, paddr, pgsize⟩ :: l) := by
  refine ⟨⟨rfl, hpos, Nat.le_add_right _ _, ?_⟩, ⟨rfl, hpos, Nat.le_add_right _ _, ?_⟩⟩
  · rw [Nat.add_sub_cancel_left]
    exact h.iova
  · rw [Nat.add_sub_cancel_left]
    exact h.paddr

/-- How the loop can end: all pieces accepted, or the last one refused. -/
structure Handed (hw : Hw σ) (bitmap : Nat) (prot : Int) (iova paddr size : Nat) (s : σ) (e : MapEnd σ) : Prop where
  legal : ∀ p ∈ e.pieces, p.Legal bitmap
  tiles : TilesBoth iova paddr (total Piece.pgsize e.pieces) e.pieces
  le : total Piece.pgsize e.pieces ≤ size
  outcome : e.ret = 0 ∧ e.size = 0 ∧ total Piece.pgsize e.pieces = size ∧ Accepts hw prot s e.pieces e.state ∨
    e.ret ≠ 0 ∧ ∃ l p s1, e.pieces = l ++ [p] ∧ Accepts hw prot s l s1 ∧ hw.map s1 p prot = (e.ret, e.state) ∧
      e.size + total Piece.pgsize l = size

/-- One more piece in front. -/
theorem Handed.cons {iova paddr size pgsize : Nat} {s : σ} {e : MapEnd σ} (hlegal : Piece.Legal bitmap ⟨iova, paddr, pgsize⟩)
    (hpos : 0 < pgsize) (hle : pgsize ≤ size) (hok : (hw.map s ⟨iova, paddr, pgsize⟩ prot).1 = 0)
    (h : Handed hw bitmap prot (iova + pgsize) (paddr + pgsize) (size - pgsize) (hw.map s ⟨iova, paddr, pgsize⟩ prot).2 e) :
    Handed hw bitmap prot iova paddr size s { e with pieces := ⟨iova, paddr, pgsize⟩ :: e.pieces } := by
  have htot := h.le
  refine ⟨?_, h.tiles.cons hpos, ?_, ?_⟩
  · intro p hp
    obtain rfl | hp := List.mem_cons.1 hp
    · exact hlegal
    · exact h.legal p hp
  · rw [total_cons]
    show pgsize + _ ≤ size
    omega
  · obtain ⟨h1, h2, h3, h4⟩ | ⟨h1, l, p, s1, h2, h3, h4, h5⟩ := h.outcome
    · refine .inl ⟨h1, h2, ?_, .cons hok h4⟩
      rw [total_cons, h3]
      show pgsize + _ = size
      omega
    · refine .inr ⟨h1, ⟨iova, paddr, pgsize⟩ :: l, p, s1, ?_, .cons hok h3, h4, ?_⟩
      · rw [h2, List.cons_append]
      · rw [total_cons]
        show e.size + (pgsize + _) = size
        omega

theorem mapLoop_spec (hw : Hw σ) (prot : Int) (h0 : bitmap ≠ 0) (hb : bitmap < 2 ^ 64) : ∀ (fuel iova paddr size : Nat) (ret : Int) (s : σ),
    size < fuel → 2 ^ ffs64 bitmap ∣ iova → 2 ^ ffs64 bitmap ∣ paddr → 2 ^ ffs64 bitmap ∣ size →
    iova + size < 2 ^ 64 → paddr + size < 2 ^ 64 → ¬ (iova = 0 ∧ paddr = 0 ∧ 2 ^ 63 ≤ size) → (size = 0 → ret = 0) →
    ∃ e, mapLoop hw bitmap prot fuel iova paddr size ret s = some e ∧ Handed hw bitmap prot iova paddr size s e
  | 0, _, _, _, _, _, hf, _, _, _, _, _, _, _ => absurd hf (Nat.not_lt_zero _)
  | fuel + 1, iova, paddr, size, ret, s, hf, hiova, hpaddr, hsize, hlt, hlt', hwide, hret => by
    obtain rfl | hne := eq_or_ne size 0
    · refine ⟨_, mapLoop_done, fun p hp => absurd hp List.not_mem_nil, ⟨rfl, rfl⟩, le_rfl, .inl ?_⟩
      exact ⟨hret rfl, rfl, rfl, .nil s⟩
    · have hmerge : iova ||| paddr < 2 ^ 64 := Nat.or_lt_two_pow (by omega) (by omega)
      have hmask : ¬ (2 ^ 63 ≤ size ∧ 2 ^ 63 ∣ iova ||| paddr) := by
        intro ⟨hbig, hdvd⟩
        obtain ⟨h1, h2⟩ := two_pow_dvd_or.1 hdvd
        exact hwide ⟨Nat.eq_zero_of_dvd_of_lt h1 (by omega), Nat.eq_zero_of_dvd_of_lt h2 (by omega), hbig⟩
      obtain ⟨k, hpg, hk⟩ := iommuPgsize_spec hb hne (by omega) hmerge hmask (testBit_ffs64 h0 hb)
        (Nat.le_of_dvd (by omega) hsize) (two_pow_dvd_or.2 ⟨hiova, hpaddr⟩)
      obtain ⟨hki, hkp⟩ := two_pow_dvd_or.1 hk.dvd
      have hlegal : Piece.Legal bitmap ⟨iova, paddr, 2 ^ k⟩ := ⟨k, hk.bit, rfl, hki, hkp⟩
      have hpos := Nat.two_pow_pos k
      have hle := hk.le
      have hmin : 2 ^ ffs64 bitmap ∣ 2 ^ k := Nat.pow_dvd_pow 2 (ffs64_le_of_testBit h0 hb hk.bit)
      rw [mapLoop_more hne hpg]
      split_ifs with hok
      · refine ⟨_, rfl, ?_, ?_, ?_, .inr ⟨hok, [], ⟨iova, paddr, 2 ^ k⟩, s, rfl, .nil s, rfl, rfl⟩⟩
        · intro p hp
          rw [List.mem_singleton.1 hp]
          exact hlegal
        · exact TilesBoth.cons hpos ⟨rfl, rfl⟩
        · exact hle
      · rw [not_not] at hok
        obtain ⟨e, he, hhanded⟩ := mapLoop_spec hw prot h0 hb fuel (iova + 2 ^ k) (paddr + 2 ^ k) (size - 2 ^ k)
          (hw.map s ⟨iova, paddr, 2 ^ k⟩ prot).1 (hw.map s ⟨iova, paddr, 2 ^ k⟩ prot).2 (by omega) (hiova.add hmin)
          (hpaddr.add hmin) (Nat.dvd_sub hsize hmin) (by omega) (by omega) (by omega) (fun _ => hok)
        refine ⟨_, ?_, hhanded.cons hlegal hpos hle hok⟩
        rw [he, Option.map_some]

/-! ### The call -/

theorem Accepts.blocks_eq (hd : Driver hw bitmap blocks) {s s' : σ} {l : List Piece} (h : Accepts hw prot s l s') :
    blocks s' = blocks s ∪ {p | p ∈ l} := by
  induction h with
  | nil s => simp
  | @cons s p l s' hok _ ih =>
    rw [ih, hd.map_ok s p prot hok]
    ext q
    simp only [Set.mem_union, Set.mem_insert_iff, Set.mem_ofPred_eq, List.mem_cons]
    tauto

theorem total_dvd (h0 : bitmap ≠ 0) (hb : bitmap < 2 ^ 64) {l : List Piece} (hl : ∀ p ∈ l, p.Legal bitmap) :
    2 ^ ffs64 bitmap ∣ total Piece.pgsize l := by
  induction l with
  | nil => exact dvd_zero _
  | cons p l ih =>
    obtain ⟨k, hk, hpk, -⟩ := hl p List.mem_cons_self
    rw [total_cons, hpk]
    exact (Nat.pow_dvd_pow 2 (ffs64_le_of_testBit h0 hb hk)).add (ih fun q hq => hl q (List.mem_cons_of_mem _ hq))

theorem iommuMap_eq (hw : Hw σ) (prot ret₀ : Int) (s : σ) {iova paddr size : Nat} (h32 : ffs64 bitmap < 32)
    (h : Aligned bitmap iova paddr size) : iommuMap hw bitmap ret₀ s iova paddr size prot =
      (mapLoop hw bitmap prot (size + 1) iova paddr size ret₀ s).bind fun e =>
        if e.ret ≠ 0 then (iommuUnmap hw bitmap e.state iova (size - e.size)).map fun r => (e.ret, r.2, e.pieces)
        else some (e.ret, e.state, e.pieces) := by
  have hall : 2 ^ ffs64 bitmap ∣ iova ||| paddr ||| size :=
    two_pow_dvd_or.2 ⟨two_pow_dvd_or.2 ⟨h.iova_dvd, h.paddr_dvd⟩, h.size_dvd⟩
  rw [iommuMap, minPagesz_eq h32, Option.bind_some, if_pos (isAligned_two_pow.2 hall)]

/-- Where the calls go right. -/
structure Regular (bitmap iova size : Nat) : Prop where
  size_ne : size ≠ 0
  min_lt : ffs64 bitmap < 32
  narrow : ¬ (iova = 0 ∧ 2 ^ 63 ≤ size)

theorem mapExact (hd : Driver hw bitmap blocks) {iova paddr size : Nat} (h : Aligned bitmap iova paddr size)
    (hreg : Regular bitmap iova size) (ret₀ : Int) (s : σ) (prot : Int) :
    MapExact hw blocks bitmap ret₀ s iova paddr size prot := by
  obtain ⟨e, he, hh⟩ := mapLoop_spec hw prot h.nonempty h.bitmap_lt (size + 1) iova paddr size ret₀ s
    (Nat.lt_succ_self _) h.iova_dvd h.paddr_dvd h.size_dvd h.iova_lt h.paddr_lt
    (fun hw => hreg.narrow ⟨hw.1, hw.2.2⟩) (fun hz => absurd hz hreg.size_ne)
  have heq := iommuMap_eq hw prot ret₀ s hreg.min_lt h
  rw [he, Option.bind_some] at heq
  obtain ⟨h1, -, h3, h4⟩ | ⟨h1, l, p, s1, h2, h3, h4, h5⟩ := hh.outcome
  · rw [if_neg (not_not.2 h1)] at heq
    refine ⟨_, _, _, heq, hh.legal, .inl ⟨h1, ?_, h4⟩⟩
    have ht := hh.tiles
    rwa [h3] at ht
  · rw [if_pos h1, show size - e.size = total Piece.pgsize l by omega] at heq
    have hl : ∀ q ∈ l, q.Legal bitmap := fun q hq => hh.legal q (h2 ▸ List.mem_append_left _ hq)
    have hdvd := total_dvd h.nonempty h.bitmap_lt hl
    have hlt := h.iova_lt
    have hnarrow := hreg.narrow
    obtain ⟨⟨n, s2⟩, hr⟩ := iommuUnmap_total hd h.nonempty h.bitmap_lt hreg.min_lt e.state h.iova_dvd hdvd (by omega)
      (by omega)
    rw [hr, Option.map_some] at heq
    refine ⟨_, _, _, heq, hh.legal, .inr ⟨h1, l, p, s1, h2, h3, by rw [h4], hh.tiles, hh.le, fun hun => ?_⟩⟩
    -- what was accepted is unmapped again
    have hblocks : blocks e.state = blocks s ∪ {q | q ∈ l} := by
      have hrefused := hd.map_refused s1 p prot (by rw [h4]; exact h1)
      rw [h4] at hrefused
      rw [hrefused, h3.blocks_eq hd]
    have htiles := hh.tiles.iova
    rw [h2] at htiles
    obtain ⟨s3, hs3, hb3⟩ := iommuUnmap_spec hd h.bitmap_lt hreg.min_lt h.iova_dvd hdvd (tiles_append.1 htiles).2.1 hl
      hblocks (hun.mono le_rfl (by omega)) (by omega) (by omega)
    obtain ⟨-, rfl⟩ := Prod.mk.inj (Option.some.inj (hr.symm.trans hs3))
    exact hb3

theorem unmapExact (hd : Driver hw bitmap blocks) {iova paddr size : Nat} (h : Aligned bitmap iova paddr size)
    (hreg : Regular bitmap iova size) (ret₀ : Int) (s : σ) (prot : Int) :
    UnmapExact hw blocks bitmap ret₀ s iova paddr size prot := by
  intro s' pieces hmap s1 others hs1 ho
  obtain ⟨ret, s2, pieces', heq, hlegal, hcase⟩ := mapExact hd h hreg ret₀ s prot
  obtain ⟨rfl, h2⟩ := Prod.mk.inj (Option.some.inj (hmap.symm.trans heq))
  obtain ⟨rfl, rfl⟩ := Prod.mk.inj h2
  obtain ⟨-, ht, -⟩ | ⟨hne, -⟩ := hcase
  · exact iommuUnmap_spec hd h.bitmap_lt hreg.min_lt h.iova_dvd h.size_dvd ht.iova hlegal hs1 ho h.iova_lt hreg.narrow
  · exact absurd rfl hne

/-! ### A driver -/

/-- A table of blocks, which accepts every piece and unmaps one block at a time. -/
def table (bitmap : Nat) : Hw (List Piece) where
  map s p _ := (0, p :: s)
  unmap s iova size :=
    match s.find? fun p => p.iova = iova ∧ 0 < p.pgsize ∧ p.pgsize ≤ size ∧ 2 ^ ffs64 bitmap ∣ p.pgsize with
    | none => (0, s)
    | some p => (p.pgsize, s.filter (· ≠ p))
  iotlbSync s := s

theorem table_unmap {bitmap iova size : Nat} {s : List Piece} {p : Piece}
    (h : s.find? (fun p => p.iova = iova ∧ 0 < p.pgsize ∧ p.pgsize ≤ size ∧ 2 ^ ffs64 bitmap ∣ p.pgsize) = some p) :
    (table bitmap).unmap s iova size = (p.pgsize, s.filter (· ≠ p)) := by
  simp only [table, h]

theorem table_driver {bitmap : Nat} (h0 : bitmap ≠ 0) (hb : bitmap < 2 ^ 64) :
    Driver (table bitmap) bitmap fun s => {p | p ∈ s} where
  map_ok s p _ _ := by
    ext q
    exact List.mem_cons
  map_refused _ _ _ h := absurd rfl h
  unmap_pages s iova size := by
    cases hfind : s.find? fun p => p.iova = iova ∧ 0 < p.pgsize ∧ p.pgsize ≤ size ∧ 2 ^ ffs64 bitmap ∣ p.pgsize with
    | none =>
      simp only [table, hfind]
      exact dvd_zero _
    | some p =>
      have hp := List.find?_some hfind
      rw [decide_eq_true_eq] at hp
      rw [table_unmap hfind]
      exact hp.2.2.2
  unmap s iova size l ht hne hlegal hin hmeet := by
    obtain ⟨p, l, rfl⟩ := List.exists_cons_of_ne_nil hne
    obtain ⟨hpos, hlen, hle, hrest⟩ := id ht
    obtain ⟨k, hk, hpk, -⟩ := hlegal p List.mem_cons_self
    have hdvd : 2 ^ ffs64 bitmap ∣ p.pgsize := hpk ▸ Nat.pow_dvd_pow 2 (ffs64_le_of_testBit h0 hb hk)
    obtain ⟨q, hfind⟩ : ∃ q, s.find? (fun p => p.iova = iova ∧ 0 < p.pgsize ∧ p.pgsize ≤ size ∧
        2 ^ ffs64 bitmap ∣ p.pgsize) = some q := by
      rw [← Option.isSome_iff_exists, List.find?_isSome]
      exact ⟨p, hin p List.mem_cons_self, decide_eq_true ⟨hpos, hlen, hle, hdvd⟩⟩
    have hq := List.find?_some hfind
    rw [decide_eq_true_eq] at hq
    -- the only block at the start of the range is the first of the tiling
    obtain rfl : q = p := by
      have hql := hmeet q (List.mem_of_find?_eq_some hfind) ⟨by omega, by omega⟩
      obtain hqp | hql := List.mem_cons.1 hql
      · exact hqp
      · have hbound := hrest.bounds hql
        omega
    refine ⟨[q], l, rfl, List.cons_ne_nil _ _, ?_, ?_⟩
    · rw [table_unmap hfind, total_cons, total_nil, Nat.add_zero]
    · rw [table_unmap hfind]
      ext r
      simp
  iotlbSync _ := rfl

/-! ### When the calls are exact -/

theorem iommuMap_zero (hw : Hw σ) (bitmap : Nat) (prot : Int) (s s' : σ) {iova paddr : Nat} {ret : Int}
    {pieces : List Piece} (h : iommuMap hw bitmap 1 s iova paddr 0 prot = some (ret, s', pieces)) :
    ret = 1 ∧ pieces = [] := by
  obtain ⟨min, -, h⟩ := Option.bind_eq_some_iff.1 h
  split_ifs at h with hal
  rw [mapLoop_done, Option.bind_some, if_pos one_ne_zero] at h
  obtain ⟨r, -, hr⟩ := Option.map_eq_some_iff.1 h
  obtain ⟨h1, h2⟩ := Prod.mk.inj hr
  exact ⟨h1.symm, (Prod.mk.inj h2).2.symm⟩

end Sdfirm.Iommu
