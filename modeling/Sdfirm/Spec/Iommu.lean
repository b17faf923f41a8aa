import Sdfirm.Impl.Iommu
import Sdfirm.Proof.Framework.Ranges

/-!
# What IOMMU mappings are for

`Driver` is what `iommu_map` and `iommu_unmap` rely on: the driver keeps a set
of mapped blocks, adds the piece it is handed or refuses it, and takes whole
blocks out from the front of a range that blocks tile, one or more at a time.
`MapExact` and `UnmapExact` say what the two calls have to do over every such
driver.
-/

namespace Sdfirm.Iommu

open Framework

/-- The piece meets `[iova, iova + size)`. -/
def Piece.Meets (p : Piece) (iova size : Nat) : Prop := p.iova < iova + size ∧ iova < p.iova + p.pgsize

/-- A page size of the bitmap, with both addresses aligned to it. -/
def Piece.Legal (bitmap : Nat) (p : Piece) : Prop :=
  ∃ k, bitmap.testBit k ∧ p.pgsize = 2 ^ k ∧ 2 ^ k ∣ p.iova ∧ 2 ^ k ∣ p.paddr

/-- The pieces lie end to end in both address spaces, from `iova` and `paddr` on, and are `size` long together. -/
structure TilesBoth (iova paddr size : Nat) (l : List Piece) : Prop where
  iova : Tiles Piece.iova Piece.pgsize iova size l
  paddr : Tiles Piece.paddr Piece.pgsize paddr size l

variable {σ : Type}

/-- What the driver does, where `blocks` are the blocks that a state maps. It unmaps whole pages. -/
structure Driver (hw : Hw σ) (bitmap : Nat) (blocks : σ → Set Piece) : Prop where
  map_ok : ∀ s p prot, (hw.map s p prot).1 = 0 → blocks (hw.map s p prot).2 = insert p (blocks s)
  map_refused : ∀ s p prot, (hw.map s p prot).1 ≠ 0 → blocks (hw.map s p prot).2 = blocks s
  unmap_pages : ∀ s iova size, 2 ^ Bitops.ffs64 bitmap ∣ (hw.unmap s iova size).1
  unmap : ∀ s iova size l, Tiles Piece.iova Piece.pgsize iova size l → l ≠ [] → (∀ p ∈ l, p.Legal bitmap) →
    (∀ p ∈ l, p ∈ blocks s) → (∀ p ∈ blocks s, p.Meets iova size → p ∈ l) →
    ∃ l1 l2, l = l1 ++ l2 ∧ l1 ≠ [] ∧ (hw.unmap s iova size).1 = total Piece.pgsize l1 ∧
      blocks (hw.unmap s iova size).2 = blocks s \ {p | p ∈ l1}
  iotlbSync : ∀ s, blocks (hw.iotlbSync s) = blocks s

/-- The driver accepts the pieces one after the other and comes to the state `s'`. -/
inductive Accepts (hw : Hw σ) (prot : Int) : σ → List Piece → σ → Prop
  | nil (s) : Accepts hw prot s [] s
  | cons {s p l s'} : (hw.map s p prot).1 = 0 → Accepts hw prot (hw.map s p prot).2 l s' → Accepts hw prot s (p :: l) s'

/-- The range is not mapped in any part. -/
def Unmapped (blocks : Set Piece) (iova size : Nat) : Prop := ∀ p ∈ blocks, ¬ p.Meets iova size

/-- `iommu_map` hands over pieces that tile the range and returns 0, or returns the error of the first piece refused and
leaves nothing of an unmapped range mapped. -/
def MapExact (hw : Hw σ) (blocks : σ → Set Piece) (bitmap : Nat) (ret₀ : Int) (s : σ) (iova paddr size : Nat)
    (prot : Int) : Prop :=
  ∃ ret s' pieces, iommuMap hw bitmap ret₀ s iova paddr size prot = some (ret, s', pieces) ∧
    (∀ p ∈ pieces, p.Legal bitmap) ∧
    (ret = 0 ∧ TilesBoth iova paddr size pieces ∧ Accepts hw prot s pieces s' ∨
      ret ≠ 0 ∧ ∃ l p s1, pieces = l ++ [p] ∧ Accepts hw prot s l s1 ∧ (hw.map s1 p prot).1 = ret ∧
        TilesBoth iova paddr (total Piece.pgsize pieces) pieces ∧ total Piece.pgsize pieces ≤ size ∧
        (Unmapped (blocks s) iova size → blocks s' = blocks s))

/-- `iommu_unmap` returns `size` on a range that `iommu_map` has mapped, and removes exactly it, whatever else is
mapped by then. -/
def UnmapExact (hw : Hw σ) (blocks : σ → Set Piece) (bitmap : Nat) (ret₀ : Int) (s : σ) (iova paddr size : Nat)
    (prot : Int) : Prop :=
  ∀ s' pieces, iommuMap hw bitmap ret₀ s iova paddr size prot = some (0, s', pieces) →
    ∀ s1 others, blocks s1 = others ∪ {p | p ∈ pieces} → Unmapped others iova size →
      ∃ s2, iommuUnmap hw bitmap s1 iova size = some (size, s2) ∧ blocks s2 = others

/-- The range is aligned to the smallest page size and does not wrap. -/
structure Aligned (bitmap iova paddr size : Nat) : Prop where
  nonempty : bitmap ≠ 0
  bitmap_lt : bitmap < 2 ^ 64
  iova_dvd : 2 ^ Bitops.ffs64 bitmap ∣ iova
  paddr_dvd : 2 ^ Bitops.ffs64 bitmap ∣ paddr
  size_dvd : 2 ^ Bitops.ffs64 bitmap ∣ size
  iova_lt : iova + size < 2 ^ 64
  paddr_lt : paddr + size < 2 ^ 64

/-! ## Pending invalidations -/

/-- A page of the address space. -/
structure Page where
  iova : Nat
  size : Nat
  size_pos : 0 < size
  fits : iova + size ≤ 2 ^ 64
  size_lt : size < 2 ^ 64
deriving DecidableEq

/-- The addresses of a page. -/
def Page.Has (p : Page) (a : Nat) : Prop := p.iova ≤ a ∧ a < p.iova + p.size

/-- The addresses that a sync invalidates. -/
def Gather.Has (g : Gather) (a : Nat) : Prop := g.start ≤ a ∧ a ≤ g.stop

/-- What happens to a gather: a page has been added, or a sync is issued. -/
inductive GatherEvent
  | page (p : Page)
  | sync (g : Gather)

/-- The events when the pages are added one after the other to a gather and it is synced at last. -/
def gatherEvents : Gather → List Page → List GatherEvent
  | g, [] => (iotlbSync g).1.map .sync
  | g, p :: ps =>
    (gatherAddPage g p.iova p.size).1.map .sync ++ .page p :: gatherEvents (gatherAddPage g p.iova p.size).2 ps

/-- Each page that has been added is invalidated later, with its page size. -/
def NoneMissed (events : List GatherEvent) : Prop :=
  ∀ before p after, events = before ++ .page p :: after →
    ∃ g, .sync g ∈ after ∧ g.pgsize = p.size ∧ ∀ a, p.Has a → g.Has a

/-- Each sync is for pages that have been added before. -/
def OnlyAdded (events : List GatherEvent) : Prop :=
  ∀ before g after, events = before ++ .sync g :: after → ∀ a, g.Has a → ∃ p, .page p ∈ before ∧ p.Has a

/-- Only a page that begins at 0 or at 1 is added, of the same size, to a gather that has the page of size 1 at 0 and
nothing else: its `end` is 0, as that of an empty one. -/
def Unmarked : Gather → List Page → Prop
  | _, [] => True
  | g, p :: ps => (g = ⟨0, 0, 1⟩ → p.size = 1 → p.iova ≤ 1) ∧ Unmarked (gatherAddPage g p.iova p.size).2 ps

end Sdfirm.Iommu
