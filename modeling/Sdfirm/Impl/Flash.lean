import Mathlib

/-!
# Erasing flash memories (`kernel/mtd/mtd_dataflash.c`, `mtd_spiflash.c`)

`dataflash_erase` goes over the pages of a range and sends a block erase where a
whole block of 8 pages begins, and a page erase otherwise. `spiflash_erase` sends
a block erase for each block. The waits for the memory to be ready are left out.
-/

namespace Sdfirm.Flash

/-- `__roundup16`. -/
def roundup16 (n : Nat) : Nat := 1 <<< (Nat.log2 (n - 1) + 1)

/-! ## Dataflash -/

/-- A bank: `dataflash_hw_page_size` and `DATAFLASH_HW_MAX_PAGES` -/
structure Dataflash where
  hwPageSize : Nat
  nrPages : Nat
  one_lt : 1 < hwPageSize
  lt : hwPageSize < 2 ^ 16
  deriving DecidableEq, Repr

/-- `DATAFLASH_ANY_PAGE_ERASE` and `DATAFLASH_ANY_BLOCK_ERASE` -/
inductive Kind where
  | page
  | block
  deriving DecidableEq, Repr

/-- An erase command and the address that is sent with it -/
structure Command where
  kind : Kind
  addr : Nat
  deriving DecidableEq, Repr

/-- `DATAFLASH_PAGES_PER_BLOCK` -/
def dataflashPagesPerBlock : Nat := 8

namespace Dataflash

variable (f : Dataflash)

/-- `dataflash_infos[bid].pageorder` -/
def pageorder : Nat := Nat.log2 f.hwPageSize

/-- The order of the pages in addresses of the memory -/
def hwOrder : Nat := Nat.log2 (roundup16 f.hwPageSize)

/-- `dataflash_page2addr`. -/
def page2addr (page : Nat) : Nat := page <<< f.hwOrder % 2 ^ 32

/-- `dataflash_page_number`. -/
def pageNumber (addr : Nat) : Nat := addr >>> f.pageorder

/-- `dataflash_sanity_page`. -/
def sanityPage (page : Nat) : Bool := page < f.nrPages

/-- `blocksize` of `dataflash_erase` -/
def blocksize : Nat := 1 <<< (f.pageorder + Nat.log2 dataflashPagesPerBlock)

/-- The body of the loop of `dataflash_erase` for the page at `addr`: the command, and the bytes that it is for.
`dataflash_spi_exchange` sends the low 24 bits of an address. -/
def eraseStep (page size : Nat) : Command × Nat :=
  if page &&& (dataflashPagesPerBlock - 1) = 0 ∧ f.blocksize ≤ size then
    (⟨.block, f.page2addr (page &&& (dataflashPagesPerBlock - 1)) % 2 ^ 24⟩, f.blocksize)
  else (⟨.page, f.page2addr page % 2 ^ 24⟩, min size (1 <<< f.pageorder))

/-- `dataflash_erase`, with at most `steps` rounds of its loop. -/
def erase : (steps addr size : Nat) → Option (List Command)
  | 0, _, _ => none
  | steps + 1, addr, size =>
    if size = 0 then some []
    else
      let page := f.pageNumber addr
      if !f.sanityPage page then some []
      else
        let (command, eraselen) := f.eraseStep page size
        (erase steps ((addr + eraselen) % 2 ^ 32) (size - eraselen)).map (command :: ·)

end Dataflash

/-! ## SPI flash -/

/-- `SPIFLASH_PAGE_SIZE` -/
def spiflashPageSize : Nat := 256

/-- `SPIFLASH_ERASE_SIZE`, by `CONFIG_SPIFLASH_ERASE_4K`, `_32K` or `_64K` -/
inductive EraseSize where
  | erase4k
  | erase32k
  | erase64k
  deriving DecidableEq, Repr

def EraseSize.bytes : EraseSize → Nat
  | .erase4k => 4096
  | .erase32k => 32768
  | .erase64k => 65536

/-- `SPIFLASH_PAGES_PER_BLOCK` -/
def EraseSize.pagesPerBlock (e : EraseSize) : Nat := e.bytes / spiflashPageSize

/-- `spiflash_page2addr`. -/
def spiflashPage2addr (page : Nat) : Nat := page <<< Nat.log2 (roundup16 spiflashPageSize) % 2 ^ 32

/-- `spiflash_page_number`. -/
def spiflashPageNumber (addr : Nat) : Nat := addr >>> Nat.log2 spiflashPageSize

/-- `blocksize` of `spiflash_erase` -/
def EraseSize.blocksize (e : EraseSize) : Nat := 1 <<< (Nat.log2 spiflashPageSize + Nat.log2 e.pagesPerBlock)

/-- `spiflash_erase`, with at most `steps` rounds of its loop: the addresses of the block erases. `ads` says that addresses
have four bytes. `none` is also a failed `BUG_ON`. -/
def spiflashErase (e : EraseSize) (ads : Bool) : (steps addr size : Nat) → Option (List Nat)
  | 0, _, _ => none
  | steps + 1, addr, size =>
    if size = 0 then some []
    else
      let page := spiflashPageNumber addr
      if page &&& (e.pagesPerBlock - 1) = 0 ∧ e.blocksize ≤ size then
        let sent := spiflashPage2addr (page &&& (e.pagesPerBlock - 1)) % 2 ^ if ads then 32 else 24
        (spiflashErase e ads steps ((addr + e.blocksize) % 2 ^ 32) (size - e.blocksize)).map (sent :: ·)
      else none

end Sdfirm.Flash
