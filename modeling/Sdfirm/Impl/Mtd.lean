import Mathlib

/-!
# Concatenated memory devices (`kernel/mtd/mtd_core.c`)

The devices concatenated by `mtd_concat_devices` under `CONFIG_MTD_CONCAT_PAGE`:
the pages of one address range lie on several devices in turn. `none` is a
failed `BUG_ON`, and `mtd_id` is an argument.
-/

namespace Sdfirm.Mtd

/-- `struct mtd_info`, as far as it is used. -/
structure MtdInfo where
  pageorder : Nat
  nrPages : Nat
  deriving DecidableEq, Repr

/-- `mtd_devs`, up to what the devices hold. -/
structure MtdDevs where
  info : Nat → Option MtdInfo
  /-- `MTD_FLAG_SUBDEV` -/
  subdev : Nat → Bool

/-- `struct mtd_concat` and the `struct mtd_info` that goes with it. -/
structure Concat where
  devs : List Nat
  pageorder : Nat
  nrPages : Nat
  /-- `CONFIG_MTD_BLOCK_RW` -/
  blockRw : Bool
  deriving DecidableEq, Repr

/-- The loop of `mtd_concat_devices` over the devices that are left; the result has `nr_pages`. -/
def concatLoop (first : MtdInfo) : List Nat → MtdDevs → (nrPages : Nat) → Option (Nat × MtdDevs)
  | [], t, nrPages => some (nrPages, t)
  | d :: ds, t, nrPages => do
    let info ← t.info d
    if t.subdev d ∨ info.pageorder ≠ first.pageorder ∨ info.nrPages ≠ first.nrPages then none
    else concatLoop first ds { t with subdev := Function.update t.subdev d true } ((nrPages + info.nrPages) % 2 ^ 32)

/-- `mtd_concat_devices`. -/
def mtdConcatDevices (blockRw : Bool) (t : MtdDevs) (devs : List Nat) : Option (Concat × MtdDevs) := do
  let first ← t.info (← devs.head?)
  let (nrPages, t) ← concatLoop first devs t 0
  return ({ devs, pageorder := first.pageorder, nrPages, blockRw }, t)

/-! ## Addresses -/

/-- `mtd_page_size`. -/
def mtdPageSize (pageorder : Nat) : Nat := 1 <<< pageorder

/-- `mtd_page_offset`. -/
def mtdPageOffset (addr pageorder : Nat) : Nat := addr &&& (1 <<< pageorder - 1)

namespace Concat

variable (c : Concat)

/-- `nr_devs`. -/
def nrDevs : Nat := c.devs.length

/-- `mtd_concat_chip_id`, with `none` for `INVALID_MTD_ID`. -/
def chipId (addr : Nat) : Option Nat :=
  let i := (addr >>> c.pageorder &&& (c.nrDevs - 1)) % 2 ^ 8
  if c.nrDevs ≤ i then none else c.devs[i]?

/-- `mtd_concat_chip_addr`. The bits from `pageorder + __fls16(nr_devs)` on are shifted by `nr_devs - 1`. -/
def chipAddr (addr : Nat) : Nat :=
  let order := c.pageorder + Nat.log2 c.nrDevs
  mtdPageOffset addr c.pageorder ||| (addr >>> order <<< order) >>> (c.nrDevs - 1)

end Concat

/-! ## Erasing -/

variable (c : Concat)

/-- A call of `mtd_erase` for a device below -/
structure Erase where
  mtd : Nat
  addr : Nat
  size : Nat
  deriving DecidableEq, Repr

/-- The body of the loop of `mtd_concat_erase`. The device is that of `addr`, not of `addr + offset`. -/
def eraseStep (t : MtdDevs) (eraseorder : Nat → Nat) (lastCid addr offset length : Nat) : Option Erase := do
  let mtd ← c.chipId addr
  if lastCid ≤ mtd then none
  else
    let _ ← t.info mtd
    let eraseAddr := c.chipAddr ((addr + offset) % 2 ^ 32)
    let eraseSize := mtdPageSize (eraseorder mtd) - mtdPageOffset eraseAddr (eraseorder mtd)
    return { mtd, addr := eraseAddr, size := min length eraseSize }

/-- `mtd_concat_erase`, with at most `steps` rounds of its loop: the calls of `mtd_erase`, for devices with the erase orders
`eraseorder`. `lastCid` is `mtd_last_cid`. -/
def concatErase (t : MtdDevs) (eraseorder : Nat → Nat) (lastCid addr : Nat) : (steps offset length : Nat) → Option (List Erase)
  | 0, _, _ => none
  | steps + 1, offset, length =>
    if length = 0 then some []
    else do
      let e ← eraseStep c t eraseorder lastCid addr offset length
      let es ← concatErase t eraseorder lastCid addr steps ((offset + e.size) % 2 ^ 32) (length - e.size)
      return e :: es

end Sdfirm.Mtd

/-!
## SCSI block devices on memory devices (`kernel/mtd/mtd_block.c`)

`mtd_block_create` makes a block device of a memory device, and `mtd_block_open`
opens the memory device for a range of its blocks. Shifts of an `mtd_addr_t` are
modulo `2 ^ 32`.
-/

namespace Sdfirm.MtdBlock

/-- `struct mtd_info`, as far as it is used -/
structure MtdInfo where
  pageorder : Nat
  nrPages : Nat
  pageorder_lt : pageorder < 32
  nrPages_lt : nrPages < 2 ^ 32
  deriving DecidableEq, Repr

/-- The device of a `struct mtd_block`. `opened` is the address and the size it is opened for, without
`MTD_FLAG_OPENED` it is `none`. -/
structure Mtd where
  info : MtdInfo
  opened : Option (Nat × Nat)
  deriving DecidableEq, Repr

/-- `block_size` and `nr_blocks` of a `struct sbc_device` -/
structure SbcDevice where
  blockSize : Nat
  nrBlocks : Nat
  deriving DecidableEq, Repr

/-- `mtd_page_size`. -/
def mtdPageSize (pageorder : Nat) : Nat := 1 <<< pageorder % 2 ^ 32

/-- `MTD_BLOCK_SIZE` -/
def mtdBlockSize : Nat := 512

/-- `mtd_block_create`, with `CONFIG_MTD_BLOCK` or without. `bulk_size_t` has 16 bits. -/
def mtdBlockCreate (configMtdBlock : Bool) (info : MtdInfo) : SbcDevice :=
  if configMtdBlock then { blockSize := mtdPageSize info.pageorder % 2 ^ 16, nrBlocks := info.nrPages }
  else { blockSize := mtdBlockSize, nrBlocks := info.nrPages <<< 1 % 2 ^ 32 }

/-- `mtd_open`. -/
def mtdOpen (addr size : Nat) (m : Mtd) : Mtd :=
  match m.opened with
  | some _ => m
  | none => { m with opened := some (addr, size) }

/-- `mtd_block_open`. -/
def mtdBlockOpen (lba blks : Nat) (m : Mtd) : Mtd :=
  mtdOpen ((lba % 2 ^ 32) <<< m.info.pageorder % 2 ^ 32) ((blks % 2 ^ 32) <<< m.info.pageorder % 2 ^ 32) m

end Sdfirm.MtdBlock
