import Mathlib
import Sdfirm.Impl.Flash
import Sdfirm.Impl.Mtd
import Sdfirm.Impl.BulkDio

/-!
# What memory devices have to be

A flash memory that is erased, devices that are concatenated from several, the
block devices on top of them, and the bulk transfers of their blocks.
-/

/-!
## What erasing a range of a flash memory has to do
-/

namespace Sdfirm.Flash

/-- The pages that the memory erases on a command: it takes the page from the address, and a block begins at a multiple of
8 pages. -/
def Dataflash.erased (f : Dataflash) (c : Command) : List Nat :=
  match c.kind with
  | .page => [c.addr >>> f.hwOrder]
  | .block => List.range' (c.addr >>> f.hwOrder / 8 * 8) 8

/-- Exactly the pages of the range are erased, each once. -/
def Dataflash.ErasesPages (f : Dataflash) (cs : List Command) (addr size : Nat) : Prop :=
  ∀ p, (cs.flatMap f.erased).count p = if addr ≤ p * 2 ^ f.pageorder ∧ p * 2 ^ f.pageorder < addr + size then 1 else 0

/-- Each block of the range is erased once, at its own address, and nothing else. -/
def ErasesBlocks (e : EraseSize) (sent : List Nat) (addr size : Nat) : Prop :=
  ∀ a, sent.count a = if addr ≤ a ∧ a < addr + size ∧ e.bytes ∣ a then 1 else 0

/-- No whole block but the first is in the range, and the pages have an address that can be sent. -/
def Dataflash.Erasable (f : Dataflash) (addr size : Nat) : Prop :=
  (∀ b, 1 ≤ b → ¬(addr ≤ 8 * b * 2 ^ f.pageorder ∧ (8 * b + 8) * 2 ^ f.pageorder ≤ addr + size)) ∧
    ∀ p, addr ≤ p * 2 ^ f.pageorder → p * 2 ^ f.pageorder < addr + size → p < 2 ^ (24 - f.hwOrder)

end Sdfirm.Flash

/-!
## What erasing a concatenated device has to do

The addresses of the device are mapped to bytes of the devices below
(`Concat.place`), and those of a range are to be erased once each
(`ErasesOnce`).
-/

namespace Sdfirm.Mtd

/-- Bytes of device `d`. -/
def MtdDevs.size (t : MtdDevs) (d : Nat) : Nat := ((t.info d).map fun i => i.nrPages <<< i.pageorder).getD 0

namespace Concat

variable (c : Concat)

/-- Where the byte at `addr` lies. -/
def place (addr : Nat) : Option Nat × Nat := (c.chipId addr, c.chipAddr addr)

end Concat

/-- The bytes that a call erases -/
def Erase.bytes (e : Erase) : List (Nat × Nat) := (List.range' e.addr e.size).map fun x => (e.mtd, x)

/-- Exactly the bytes that the addresses of the range are mapped to are erased, each once. -/
structure ErasesOnce (c : Concat) (es : List Erase) (addr length : Nat) : Prop where
  once : (es.flatMap Erase.bytes).Nodup
  exact : ∀ d x, (d, x) ∈ es.flatMap Erase.bytes ↔ ∃ a, addr ≤ a ∧ a < addr + length ∧ c.place a = (some d, x)

/-- The addresses that are erased together if erase units of `2 ^ order` bytes are on each device: where a unit has several
pages, the pages of the other devices lie between them. -/
def Concat.eraseGroup (c : Concat) (order : Nat) : Nat := if c.pageorder ≤ order then c.nrDevs * 2 ^ order else 2 ^ order

/-- The range is in the device, and is a union of whole erase groups of each device below. -/
structure EraseRange (t : MtdDevs) (c : Concat) (eraseorder : Nat → Nat) (addr length : Nat) : Prop where
  inside : addr + length ≤ (c.devs.map t.size).sum
  addressed : addr + length ≤ 2 ^ 32
  first : ∀ d ∈ c.devs, c.eraseGroup (eraseorder d) ∣ addr
  last : ∀ d ∈ c.devs, c.eraseGroup (eraseorder d) ∣ length

/-- All of the range is on one device, with an identifier below `mtd_last_cid`, and no byte of it is there for two
addresses. -/
structure OnOneDevice (c : Concat) (lastCid addr length : Nat) : Prop where
  device : ∃ d < lastCid, ∀ a, addr ≤ a → a < addr + length → c.chipId a = some d
  injective : ∀ a b, addr ≤ a → a < addr + length → addr ≤ b → b < addr + length → c.chipAddr a = c.chipAddr b → a = b

end Sdfirm.Mtd

/-!
## What a block device on a memory device has to present
-/

namespace Sdfirm.MtdBlock

/-- The range that the device is opened for, from a closed device -/
def window (info : MtdInfo) (lba blks : Nat) : Option (Nat × Nat) := (mtdBlockOpen lba blks ⟨info, none⟩).opened

/-- The blocks are the bytes of the device in turn: the blocks of a range are opened as their bytes, which are in the
device, and two blocks have no byte in common. -/
structure Presents (info : MtdInfo) (dev : SbcDevice) : Prop where
  opens : ∀ lba blks, lba + blks ≤ dev.nrBlocks →
    window info lba blks = some (lba * dev.blockSize, blks * dev.blockSize) ∧
      (lba + blks) * dev.blockSize ≤ info.nrPages * 2 ^ info.pageorder
  disjoint : ∀ j k, j < dev.nrBlocks → k < dev.nrBlocks → j ≠ k → ∀ x y, window info j 1 = some x → window info k 1 = some y →
    x.1 + x.2 ≤ y.1 ∨ y.1 + y.2 ≤ x.1

/-- With `CONFIG_MTD_BLOCK` the size of a page is a `bulk_size_t`, and that of the device an `mtd_size_t`. Without it there
are no blocks, or they are pages of 512 bytes and their number overflows to one that fits. -/
def Presentable (configMtdBlock : Bool) (info : MtdInfo) : Prop :=
  if configMtdBlock then info.nrPages = 0 ∨ info.pageorder < 16 ∧ info.nrPages * 2 ^ info.pageorder < 2 ^ 32
  else info.nrPages = 0 ∨ info.nrPages = 2 ^ 31 ∨
    info.pageorder = 9 ∧ 2 ^ 31 < info.nrPages ∧ info.nrPages < 2 ^ 31 + 2 ^ 22

end Sdfirm.MtdBlock

/-!
## What a bulk transfer has to do
-/

namespace Sdfirm.BulkDio

/-- The calls of one side from one offset of the stream to another are windows: `open` with the offset, a number of bytes
from 1 to `flush`, and `close` with that number. -/
inductive Windows (flush : Nat) : Nat → List Call → Nat → Prop where
  | done (offset : Nat) : Windows flush offset [] offset
  | window {offset n stop : Nat} {rest : List Call} (pos : 0 < n) (le : n ≤ flush) (windows : Windows flush (offset + n) rest stop) :
    Windows flush offset (.opened offset :: (List.replicate n .byte ++ .closed n :: rest)) stop

/-- The bytes of the reader are written in order, in windows of both sides. -/
structure Transferred (input : Nat → Byte) (rflush wflush size : Nat) (c : Chan) : Prop where
  written : c.written = (List.range size).map input
  reader : Windows rflush 0 (c.log .reader) size
  writer : Windows wflush 0 (c.log .writer) size

end Sdfirm.BulkDio
