import Sdfirm.Impl.Bitops

/-!
# IOMMU mappings (`kernel/iommu/iommu.c`)

`iommu_map` and `iommu_unmap` for one domain, on a build with 64-bit `long`.
The driver's part (`iommu_hw_map`, `iommu_hw_unmap`, `iommu_hw_iotlb_sync`) is a parameter; the
gather that the last two are given is part of the driver's state. Addresses
are natural numbers: the ranges do not wrap. `none` is a `BUG_ON`, or a shift
by the width of its operand or more; the loops of the source carry an
iteration bound, with `none` past it.

The pending invalidations are the gather by itself, as the drivers fill it, with
the wrapping arithmetic of `unsigned long`.
-/

namespace Sdfirm.Iommu

open Bitops (ffs64 fls64)

/-- What `iommu_hw_map` is handed. -/
structure Piece where
  iova : Nat
  paddr : Nat
  pgsize : Nat
deriving DecidableEq, Repr

/-- The operations of the driver on its state: the return value and the state after it. -/
structure Hw (σ : Type) where
  map : σ → Piece → (prot : Int) → Int × σ
  unmap : σ → (iova pgsize : Nat) → Nat × σ
  iotlbSync : σ → σ

/-- `iommu_pgsize`. -/
def iommuPgsize (bitmap addrMerge size : Nat) : Option Nat :=
  let pgsizeIdx := fls64 size
  let pgsizeIdx := if addrMerge ≠ 0 then min pgsizeIdx (ffs64 addrMerge) else pgsizeIdx
  if 64 ≤ pgsizeIdx + 1 then none
  else
    let pgsize := (1 <<< (pgsizeIdx + 1) - 1) &&& bitmap
    if pgsize = 0 then none else some (1 <<< fls64 pgsize)

/-- `1 << __ffs64(pgsize_bitmap)`, a shift of an `int`. -/
def minPagesz (bitmap : Nat) : Option Nat := if 32 ≤ ffs64 bitmap then none else some (1 <<< ffs64 bitmap)

/-- `IS_ALIGNED`. -/
def isAligned (x a : Nat) : Bool := x &&& (a - 1) = 0

section Domain

-- the driver and `pgsize_bitmap`
variable {σ : Type} (hw : Hw σ) (bitmap : Nat)

/-- The loop of `iommu_unmap`: the bytes unmapped and the state. -/
def unmapLoop (size : Nat) : Nat → (iova unmapped : Nat) → σ → Option (Nat × σ)
  | 0, _, _, _ => none
  | fuel + 1, iova, unmapped, s =>
    if unmapped < size then
      (iommuPgsize bitmap iova (size - unmapped)).bind fun pgsize =>
        let (unmappedPage, s) := hw.unmap s iova pgsize
        if unmappedPage = 0 then some (unmapped, s)
        else unmapLoop size fuel (iova + unmappedPage) (unmapped + unmappedPage) s
    else some (unmapped, s)

def iommuUnmap (s : σ) (iova size : Nat) : Option (Nat × σ) :=
  (minPagesz bitmap).bind fun min =>
    if isAligned (iova ||| size) min then
      (unmapLoop hw bitmap size (size + 1) iova 0 s).map fun (unmapped, s) => (unmapped, hw.iotlbSync s)
    else none

/-- How the loop of `iommu_map` ends: `ret`, what is left of `size`, the state, and the pieces handed to the driver. -/
structure MapEnd (σ : Type) where
  ret : Int
  size : Nat
  state : σ
  pieces : List Piece

/-- The loop of `iommu_map`. -/
def mapLoop (prot : Int) : Nat → (iova paddr size : Nat) → (ret : Int) → σ → Option (MapEnd σ)
  | 0, _, _, _, _, _ => none
  | fuel + 1, iova, paddr, size, ret, s =>
    if size ≠ 0 then
      (iommuPgsize bitmap (iova ||| paddr) size).bind fun pgsize =>
        let (ret, s) := hw.map s ⟨iova, paddr, pgsize⟩ prot
        if ret ≠ 0 then some ⟨ret, size, s, [⟨iova, paddr, pgsize⟩]⟩
        else (mapLoop prot fuel (iova + pgsize) (paddr + pgsize) (size - pgsize) ret s).map fun e =>
          { e with pieces := ⟨iova, paddr, pgsize⟩ :: e.pieces }
    else some ⟨ret, size, s, []⟩

/-- `iommu_map`, where `ret₀` is what the local `ret` holds before anything is assigned to it: the return value, the
state and the pieces handed to the driver. -/
def iommuMap (ret₀ : Int) (s : σ) (iova paddr size : Nat) (prot : Int) : Option (Int × σ × List Piece) :=
  (minPagesz bitmap).bind fun min =>
    if isAligned (iova ||| paddr ||| size) min then
      (mapLoop hw bitmap prot (size + 1) iova paddr size ret₀ s).bind fun e =>
        if e.ret ≠ 0 then
          (iommuUnmap hw bitmap e.state iova (size - e.size)).map fun (_, s) => (e.ret, s, e.pieces)
        else some (e.ret, e.state, e.pieces)
    else none

end Domain

/-! ## Pending invalidations -/

/-- `struct iommu_iotlb_gather`; `stop` is `end`, the last address of the range. -/
structure Gather where
  start : Nat
  stop : Nat
  pgsize : Nat
deriving DecidableEq, Repr

/-- `iommu_iotlb_gather_init`, with `ULONG_MAX`. -/
def gatherInit : Gather := ⟨2 ^ 64 - 1, 0, 0⟩

/-- The last address of a page, an `unsigned long`. -/
def pageEnd (iova size : Nat) : Nat := (iova + size + (2 ^ 64 - 1)) % 2 ^ 64

/-- `iommu_iotlb_gather_is_disjoint`. -/
def gatherIsDisjoint (g : Gather) (iova size : Nat) : Bool :=
  g.stop ≠ 0 ∧ ((pageEnd iova size + 1) % 2 ^ 64 < g.start ∨ (g.stop + 1) % 2 ^ 64 < iova)

/-- `iommu_iotlb_gather_add_range`. -/
def gatherAddRange (g : Gather) (iova size : Nat) : Gather :=
  let g := if iova < g.start then { g with start := iova } else g
  if g.stop < pageEnd iova size then { g with stop := pageEnd iova size } else g

/-- `iommu_iotlb_sync`: what the driver is handed, and the gather after it. -/
def iotlbSync (g : Gather) : List Gather × Gather := ([g], gatherInit)

/-- `iommu_iotlb_gather_add_page`, with the syncs that it issues. -/
def gatherAddPage (g : Gather) (iova size : Nat) : List Gather × Gather :=
  let (syncs, g) := if (g.pgsize ≠ 0 ∧ g.pgsize ≠ size) ∨ gatherIsDisjoint g iova size then iotlbSync g else ([], g)
  (syncs, gatherAddRange { g with pgsize := size } iova size)

end Sdfirm.Iommu
