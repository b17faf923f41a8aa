import Sdfirm.Impl.Bitops
import Sdfirm.Impl.Page
import Sdfirm.Proof.Framework.Ring

/-!
# The heap allocator (`kernel/heap_dlmalloc.c`, `kernel/heap.c`)

A `Config` is what is fixed when the firmware is built and booted: the size
of the heap, the width of a pointer (of `size_t` and of `caddr_t` with it;
`int` has 32 bits), the unit of bitmaps, and where the heap and `heap_bins`
lie. The memory is an array of bytes: chunk headers, feet and the nodes of
the bin lists are words in it, so what one write does to another structure is
not assumed. `heap_size_t` values are natural numbers and `heap_offset_t`
values integers, cut to their widths where the source does. Addresses are
natural numbers, sums of them are taken modulo the address space. The
allocator without its checks, `heap_trim` and `heap_realloc` is modelled; a
`BUG_ON` that fires is `none`. `memAlloc` and `memFree` are what `kernel/mem.c`
builds over it with `CONFIG_MEM_HEAP`.
-/

namespace Sdfirm.Heap

open Framework Bitops

/-! ## Configurations and the widths they fix -/

/-- The size of `caddr_t`, `size_t` and data pointers. -/
inductive DataModel where
  | ilp32
  | lp64
  deriving DecidableEq, Repr

def DataModel.ptr : DataModel → Nat
  | .ilp32 => 4
  | .lp64 => 8

/-- `NR_HEAP_BINS`. -/
def nrHeapBins (heapSize : Nat) : Nat :=
  (if heapSize < 512 then heapSize >>> 3
   else if heapSize < 64 * 40 then (heapSize >>> 6) + 56
   else if heapSize < 512 * 21 then (heapSize >>> 9) + 91
   else if heapSize < 4096 * 10 then (heapSize >>> 12) + 110
   else if heapSize < 32768 * 5 then (heapSize >>> 15) + 119
   else if heapSize < 262144 * 2 then (heapSize >>> 18) + 124
   else 126) + 1

structure Config where
  /-- `CONFIG_HEAP_SIZE` -/
  heapSize : Nat
  model : DataModel
  /-- `BITS_PER_UNIT` -/
  unit : Nat
  /-- `__heap_start` -/
  start : Nat
  /-- The address of `heap_bins`. -/
  bins : Nat
  heapSize_ge : 256 ≤ heapSize
  unitBits : UnitBits unit
  start_pos : 0 < start
  stop_lt : start + heapSize + 1 < 256 ^ model.ptr
  bins_apart : bins + nrHeapBins heapSize * (2 * model.ptr) ≤ start ∨ start + heapSize ≤ bins
  bins_le : bins + nrHeapBins heapSize * (2 * model.ptr) ≤ 256 ^ model.ptr

namespace Config

variable (c : Config)

/-- `sizeof (caddr_t)`. -/
def ptr : Nat := c.model.ptr

/-- `__heap_stop`. -/
def stop : Nat := c.start + c.heapSize

def nrBins : Nat := nrHeapBins c.heapSize

/-- The width of `heap_size_t`. -/
def sizeBits : Nat :=
  if c.heapSize > 0xFFFFFFFF then 64 else if c.heapSize > 0xFFFF then 32 else 16

/-- The width of `heap_offset_t`. -/
def offsetBits : Nat :=
  if c.heapSize > 0x7FFFFFFF then 64 else if c.heapSize > 0x7FFF then 32 else 16

/-- `HEAP_SIZE_SIZE`. -/
def sizeSize : Nat := c.sizeBits / 8

/-- The offset of `node` in `struct heap_chunk`, after the two sizes. -/
def nodeOff : Nat := (2 * c.sizeSize + c.ptr - 1) / c.ptr * c.ptr

/-- `HEAP_HEAD_SIZE`. -/
def headSize : Nat := c.nodeOff + 2 * c.ptr

/-- `INVALID_HEAP_ADDR`. -/
def invalidAddr : Nat := 256 ^ c.ptr - 1

/-- `heap_init_top`. -/
def initTop : Nat := c.invalidAddr

/-! ## C arithmetic -/

/-- The conversion to `heap_size_t`. -/
def toSize (x : Int) : Nat := (x % 2 ^ c.sizeBits).toNat

/-- The conversion to `heap_offset_t`. -/
def toOffset (x : Int) : Int := x.bmod (2 ^ c.offsetBits)

/-- The difference of two `heap_size_t` values: of two `int`s when the type is promoted to
`int`, unsigned otherwise. -/
def subSize (a b : Nat) : Int :=
  if c.sizeBits < 32 then (a : Int) - b else ((a : Int) - b) % 2 ^ c.sizeBits

/-- `remainder_size = a - b`. -/
def remainder (a b : Nat) : Int := c.toOffset (c.subSize a b)

/-- Whether a comparison of a `heap_offset_t` with a `heap_size_t` is made unsigned. -/
def UnsignedCompare : Prop := 32 ≤ c.sizeBits ∧ c.offsetBits ≤ c.sizeBits

instance : Decidable c.UnsignedCompare := inferInstanceAs (Decidable (_ ∧ _))

/-- `remainder_size >= (heap_size_t)HEAP_HEAD_SIZE`. -/
def geHeadSize (r : Int) : Prop :=
  if c.UnsignedCompare then (c.headSize : Int) ≤ r % 2 ^ c.sizeBits else (c.headSize : Int) ≤ r

instance (r : Int) : Decidable (c.geHeadSize r) := inferInstanceAs (Decidable (ite _ _ _))

/-- `heap_get_chunk_at`. -/
def chunkAt (p : Nat) (s : Int) : Nat := (((p : Int) + s) % (256 ^ c.ptr : Nat)).toNat

/-- `heap_chunk2mem`. -/
def chunk2mem (p : Nat) : Nat := c.chunkAt p (2 * c.sizeSize : Nat)

/-- `heap_mem2chunk`. -/
def mem2chunk (mem : Nat) : Nat := c.chunkAt mem (-(2 * c.sizeSize : Nat))

/-- `&(P->node)`. -/
def node (p : Nat) : Nat := c.chunkAt p c.nodeOff

/-- `heap_node2chunk`. -/
def node2chunk (n : Nat) : Nat := c.chunkAt n (-c.nodeOff)

/-- `heap_offset`. -/
def heapOffset (sz : Nat) : Int := c.toOffset (sz &&& (c.heapSize - 1) : Nat)

/-- `heap_align`, of a `size_t`. -/
def heapAlign (sz : Nat) : Nat := (sz + 7) % 256 ^ c.ptr / 8 * 8 % 2 ^ c.sizeBits

def heapRequestPad (req : Nat) : Nat :=
  if c.heapOffset ((req + c.sizeSize + 7) % 256 ^ c.ptr) < c.heapOffset (c.headSize + 7) then
    c.heapAlign c.headSize
  else c.heapAlign ((req + c.sizeSize) % 256 ^ c.ptr)

/-! ## Bins -/

def heapBinHash (sz : Nat) : Nat :=
  let sz := sz % 2 ^ c.sizeBits
  (if sz >>> 9 = 0 then sz >>> 3
   else if sz >>> 9 ≤ 4 then (sz >>> 6) + 56
   else if sz >>> 9 ≤ 20 then (sz >>> 9) + 91
   else if sz >>> 9 ≤ 84 then (sz >>> 12) + 110
   else if sz >>> 9 ≤ 340 then (sz >>> 15) + 119
   else if sz >>> 9 ≤ 1364 then (sz >>> 18) + 124
   else 126) % 256

def heapExactIndex (sz : Nat) : Nat := ((sz % 2 ^ c.sizeBits) >>> 3) % 256

/-- `heap_bin`. -/
def heapBin (i : Nat) : Nat := c.bins + i * (2 * c.ptr)

end Config

variable (c : Config)

/-! ## Fields of chunks -/

/-- `p->curr_size`. -/
def currWord (m : Mem) (p : Nat) : Nat := m.load (c.chunkAt p c.sizeSize) c.sizeSize

def setCurrWord (m : Mem) (p v : Nat) : Mem := m.store (c.chunkAt p c.sizeSize) c.sizeSize v

/-- `heap_curr_size`. -/
def heapCurrSize (m : Mem) (p : Nat) : Nat := currWord c m p / 2 * 2

/-- `heap_prev_size`. -/
def heapPrevSize (m : Mem) (p : Nat) : Nat := m.load p c.sizeSize

/-- `heap_prev_inuse`. -/
def heapPrevInuse (m : Mem) (p : Nat) : Bool := currWord c m p % 2 = 1

/-- `heap_set_head`. -/
def heapSetHead (m : Mem) (p s : Nat) : Mem := setCurrWord c m p (s ||| 1)

/-- `heap_set_foot`. -/
def heapSetFoot (m : Mem) (p : Nat) (s : Int) : Mem := m.store (c.chunkAt p s) c.sizeSize (c.toSize s)

/-- `heap_set_inuse_at`. -/
def heapSetInuseAt (m : Mem) (p s : Nat) : Mem :=
  setCurrWord c m (c.chunkAt p s) (currWord c m (c.chunkAt p s) ||| 1)

/-! ## The state -/

structure HeapState where
  mem : Mem
  /-- `__heap_brk` -/
  brk : Nat
  /-- `heap_base` -/
  base : Nat
  /-- `heap_size` -/
  size : Nat
  /-- `heap_first_chunk` -/
  first : Nat
  /-- `heap_last_chunk` -/
  last : Nat
  /-- `heap_blocks` -/
  blocks : Bitmap

/-- A memory with `heap_bins` as it is initialised: each bin an empty list. -/
def initBins (m : Mem) : Mem := fun x =>
  if c.bins ≤ x ∧ x < c.bins + c.nrBins * (2 * c.ptr) then
    BitVec.ofNat 8 (c.heapBin ((x - c.bins) / (2 * c.ptr)) / 256 ^ ((x - c.bins) % c.ptr))
  else m x

/-- The state after `heap_init`, whatever the rest of the memory holds. -/
def heapInit (m : Mem) : HeapState where
  mem := initBins c m
  brk := c.start
  base := c.invalidAddr
  size := 0
  first := c.initTop
  last := 0
  blocks := fun _ => 0

/-- `heap_sbrk`: the old break and the new state, or `INVALID_HEAP_ADDR`. -/
def heapSbrk (s : HeapState) (increment : Int) : Nat × HeapState :=
  let new := c.chunkAt s.brk increment
  if new < c.start ∨ new > c.stop then (c.invalidAddr, s) else (s.brk, { s with brk := new })

/-! ## Bin lists -/

/-- `list_empty`. -/
def listEmpty (m : Mem) (q : Nat) : Bool := Ring.next c.ptr m q = q

/-- `heap_chunk_for_each_safe`: what `f` gives at the first chunk of the bin at `q` where it
gives something. No list has more nodes than the heap has bytes. -/
def forEachChunk {β : Type} (m : Mem) (q : Nat) (f : Nat → Option β) : Option β :=
  Ring.findSome c.ptr m q (fun n => f (c.node2chunk n)) (c.heapSize + 1) (Ring.next c.ptr m q)

/-- The node before which `heap_chunk_link` puts a chunk of size `sz >= HEAP_EXACT_MAX` into
the bin at `q`. -/
def linkBefore (m : Mem) (q sz : Nat) : Nat :=
  (forEachChunk c m q fun bc => if sz < heapCurrSize c m bc then some (c.node bc) else none).getD q

def heapChunkLink (s : HeapState) (p sz : Nat) : HeapState :=
  let add (m : Mem) (before : Nat) := Ring.addTail c.ptr (Ring.initHead c.ptr m (c.node p)) (c.node p) before
  if sz < 512 then
    let idx := c.heapExactIndex sz
    { s with blocks := setBit c.unit idx s.blocks, mem := add s.mem (c.heapBin idx) }
  else
    let idx := c.heapBinHash sz
    if listEmpty c s.mem (c.heapBin idx) then
      { s with blocks := setBit c.unit idx s.blocks, mem := add s.mem (c.heapBin idx) }
    else { s with mem := add s.mem (linkBefore c s.mem (c.heapBin idx) sz) }

def heapChunkUnlink (s : HeapState) (p idx : Nat) : HeapState :=
  let m := Ring.delInit c.ptr s.mem (c.node p)
  { s with mem := m,
           blocks := if listEmpty c m (c.heapBin idx) then clearBit c.unit idx s.blocks else s.blocks }

/-! ## The top chunk -/

/-- The bytes that bring the first chunk of the arena to its alignment. -/
def alignCorrection (brk : Nat) : Nat :=
  let frontMisalign := c.chunk2mem brk % 8
  if frontMisalign > 0 then 8 - frontMisalign else 0

/-- `sbrk_size` in `heap_extend_top`. -/
def sbrkSize (nb : Nat) : Nat := (nb + c.headSize) % 2 ^ c.sizeBits

/-- The part of `heap_extend_top` that makes the first top chunk, in the space obtained at
`brk`: the chunk is aligned, and the break moved once more to make up for it. -/
def placeTop (s : HeapState) (brk : Nat) : HeapState :=
  let s := { s with base := if s.base = c.invalidAddr then brk else s.base }
  let correction := alignCorrection c brk
  let brk := c.chunkAt brk correction
  let (newBrk, s) := heapSbrk c s (c.toOffset correction)
  if newBrk = c.invalidAddr then s
  else
    let topSize := c.toSize ((newBrk : Int) + correction - brk)
    { s with size := (s.size + correction) % 2 ^ c.sizeBits, first := brk,
             mem := heapSetHead c s.mem brk topSize }

def heapExtendTop (s : HeapState) (nb : Nat) : Option HeapState :=
  let oldTopSize := if s.first = c.initTop then 0 else heapCurrSize c s.mem s.first
  let oldEnd := if s.first = c.initTop then 0 else c.chunkAt s.first oldTopSize
  let (brk, s) := heapSbrk c s (c.toOffset (sbrkSize c nb))
  if brk = c.invalidAddr then some s
  else if brk ≠ oldEnd ∧ s.first ≠ c.initTop then none
  else
    let s := { s with size := (s.size + sbrkSize c nb) % 2 ^ c.sizeBits }
    if brk = oldEnd then
      let topSize := (sbrkSize c nb + oldTopSize) % 2 ^ c.sizeBits
      some { s with mem := heapSetHead c s.mem s.first topSize }
    else some (placeTop c s brk)

/-! ## Allocation -/

/-- How the search of the bin of the request itself ends: a chunk to be taken whole and its
bin, or the index from which the other bins are searched, less one. -/
inductive OwnBin where
  | take (victim idx : Nat)
  | miss (idx : Nat)

/-- The bin of an exact request, and the one after it. -/
def exactBin (m : Mem) (nb : Nat) : OwnBin :=
  let idx := c.heapExactIndex nb
  let idx := if listEmpty c m (c.heapBin idx) then idx + 1 else idx
  if listEmpty c m (c.heapBin idx) then .miss idx
  else .take (c.node2chunk (Ring.next c.ptr m (c.heapBin idx))) idx

/-- The bin of a larger request: a chunk too big by `HEAP_HEAD_SIZE` or more ends the search,
and leaves the bin to be searched again. -/
def sortedBin (m : Mem) (nb : Nat) : OwnBin :=
  let idx := c.heapBinHash nb
  let scan (victim : Nat) : Option OwnBin :=
    let r := c.remainder (heapCurrSize c m victim) nb
    if (c.headSize : Int) ≤ r then some (.miss (idx - 1))
    else if 0 ≤ r then some (.take victim idx)
    else none
  (forEachChunk c m (c.heapBin idx) scan).getD (.miss idx)

def ownBin (m : Mem) (nb : Nat) : OwnBin :=
  if nb < 512 - 8 then exactBin c m nb else sortedBin c m nb

/-- A chunk of bin `idx` taken whole. -/
def takeChunk (s : HeapState) (victim idx : Nat) : HeapState :=
  let victimSize := heapCurrSize c s.mem victim
  let s := heapChunkUnlink c s victim idx
  { s with mem := heapSetInuseAt c s.mem victim victimSize }

/-- A free chunk split: `nb` bytes are taken, the rest is the new last remainder. -/
def splitChunk (s : HeapState) (victim nb : Nat) (r : Int) : HeapState :=
  let remainder := c.chunkAt victim nb
  let m := heapSetHead c s.mem victim nb
  let m := heapSetHead c m remainder (c.toSize r)
  let m := heapSetFoot c m remainder r
  { s with mem := m, last := remainder }

/-- The step that tries `heap_last_chunk`. When it does not serve the request the chunk goes
into its bin. -/
def fromLast (s : HeapState) (nb : Nat) : HeapState × Option Nat :=
  let victim := s.last
  if victim = 0 then (s, none)
  else
    let victimSize := heapCurrSize c s.mem victim
    let r := c.remainder victimSize nb
    if c.geHeadSize r then (splitChunk c s victim nb r, some (c.chunk2mem victim))
    else
      let s := { s with last := 0 }
      if 0 ≤ r then
        ({ s with mem := heapSetInuseAt c s.mem victim victimSize }, some (c.chunk2mem victim))
      else (heapChunkLink c s victim victimSize, none)

/-- The first chunk that fits in the bins from `idx` on, with its bin. Each round goes at
least one bin on. -/
def searchBins (s : HeapState) (nb : Nat) : (fuel idx : Nat) → Option (Nat × Nat)
  | 0, _ => none
  | fuel + 1, idx =>
    let idx := findNextSetBit c.unit s.blocks c.nrBins idx
    if c.nrBins ≤ idx then none
    else
      let fits (victim : Nat) : Option (Nat × Nat) :=
        let r := c.remainder (heapCurrSize c s.mem victim) nb
        if c.geHeadSize r ∨ 0 ≤ r then some (victim, idx) else none
      (forEachChunk c s.mem (c.heapBin idx) fits).or (searchBins s nb fuel (idx + 1))

/-- The step that searches the bins from `idx` on. -/
def fromBins (s : HeapState) (nb idx : Nat) : Option (HeapState × Nat) :=
  (searchBins c s nb (c.nrBins + 1) idx).map fun (victim, idx) =>
    let r := c.remainder (heapCurrSize c s.mem victim) nb
    if c.geHeadSize r then (splitChunk c (heapChunkUnlink c s victim idx) victim nb r, c.chunk2mem victim)
    else (takeChunk c s victim idx, c.chunk2mem victim)

/-- Whether `heap_first_chunk` has to be extended for `nb` bytes. -/
def TopShort (s : HeapState) (nb : Nat) : Prop :=
  s.first = c.initTop ∨ c.remainder (heapCurrSize c s.mem s.first) nb < c.headSize

instance (s : HeapState) (nb : Nat) : Decidable (TopShort c s nb) := inferInstanceAs (Decidable (_ ∨ _))

/-- `nb` bytes split from `heap_first_chunk`, if it has them. -/
def splitTop (s : HeapState) (nb : Nat) : HeapState × Nat :=
  let victim := s.first
  let r := c.remainder (heapCurrSize c s.mem victim) nb
  if r < c.headSize then (s, 0)
  else
    let m := heapSetHead c s.mem victim nb
    let first := c.chunkAt victim nb
    ({ s with first := first, mem := heapSetHead c m first (c.toSize r) }, c.chunk2mem victim)

/-- The step that splits `heap_first_chunk`. -/
def fromTop (s : HeapState) (nb : Nat) : Option (HeapState × Nat) :=
  if TopShort c s nb then (heapExtendTop c s nb).map fun s => splitTop c s nb
  else some (splitTop c s nb)

/-- What `heap_alloc` does once the bin of the request has not served it: the last remainder,
the bins from `idx` on, the top. -/
def allocRest (s : HeapState) (nb idx : Nat) : Option (HeapState × Nat) :=
  match fromLast c s nb with
  | (s, some mem) => some (s, mem)
  | (s, none) =>
    if s.last ≠ 0 then none
    else
      match fromBins c s nb idx with
      | some r => some r
      | none => fromTop c s nb

def heapAlloc (s : HeapState) (bytes : Nat) : Option (HeapState × Nat) :=
  let nb := c.heapRequestPad bytes
  if nb < bytes ∨ nb > c.heapSize - c.sizeSize then none
  else
    match ownBin c s.mem nb with
    | .take victim idx => some (takeChunk c s victim idx, c.chunk2mem victim)
    | .miss idx => allocRest c s nb (idx + 1)

def heapCalloc (s : HeapState) (bytes : Nat) : Option (HeapState × Nat) :=
  (heapAlloc c s bytes).map fun (s, mem) =>
    if mem = 0 then (s, 0)
    else
      let csz := heapCurrSize c s.mem (c.mem2chunk mem)
      ({ s with mem := s.mem.fill mem (csz - c.sizeSize) 0 }, mem)

/-! ## Free -/

/-- A chunk that is being freed, as it grows by its free neighbours. -/
structure Freeing where
  state : HeapState
  p : Nat
  sz : Nat
  /-- The chunk is or becomes `heap_last_chunk`. -/
  islr : Bool

/-- `prev_size` before the chunk `p`, and the chunk there. -/
def prevChunk (m : Mem) (p : Nat) : Nat := c.chunkAt p (-c.toOffset (heapPrevSize c m p))

/-- The freed chunk and the one before it join the top chunk. -/
def freeToTop (s : HeapState) (p hd sz : Nat) : HeapState :=
  if hd % 2 = 0 then
    let prevsz := heapPrevSize c s.mem p
    let p := prevChunk c s.mem p
    let s := if p = s.last then { s with last := 0 } else heapChunkUnlink c s p (c.heapBinHash prevsz)
    { s with mem := heapSetHead c s.mem p ((sz + prevsz) % 2 ^ c.sizeBits), first := p }
  else { s with mem := heapSetHead c s.mem p sz, first := p }

/-- Consolidate backward. -/
def backward (f : Freeing) (hd : Nat) : Freeing :=
  if hd % 2 = 0 then
    let prevsz := heapPrevSize c f.state.mem f.p
    let p := prevChunk c f.state.mem f.p
    let sz := (f.sz + prevsz) % 2 ^ c.sizeBits
    if p = f.state.last then { f with p := p, sz := sz, islr := true }
    else { f with state := heapChunkUnlink c f.state p (c.heapBinHash prevsz), p := p, sz := sz }
  else f

/-- Consolidate forward. -/
def forward (f : Freeing) (next nextsz : Nat) : Freeing :=
  if heapPrevInuse c f.state.mem (c.chunkAt next nextsz) then f
  else
    let sz := (f.sz + nextsz) % 2 ^ c.sizeBits
    if !f.islr && next = f.state.last then
      { state := { f.state with last := f.p }, p := f.p, sz := sz, islr := true }
    else { f with state := heapChunkUnlink c f.state next (c.heapBinHash nextsz), sz := sz }

/-- The end of `heap_free`: the header and the foot of the whole, and its bin. -/
def freeEnd (f : Freeing) : HeapState :=
  let m := heapSetHead c f.state.mem f.p f.sz
  let m := heapSetFoot c m f.p f.sz
  let s := { f.state with mem := m }
  if f.islr then s else heapChunkLink c s f.p f.sz

def heapFree (s : HeapState) (mem : Nat) : Option HeapState :=
  if mem = 0 ∨ mem < s.base then none
  else
    let p := c.mem2chunk mem
    let hd := currWord c s.mem p
    let sz := hd / 2 * 2
    let next := c.chunkAt p sz
    let nextsz := heapCurrSize c s.mem next
    if next = s.first then some (freeToTop c s p hd ((sz + nextsz) % 2 ^ c.sizeBits))
    else
      let s := { s with mem := setCurrWord c s.mem next nextsz }
      some (freeEnd c (forward c (backward c ⟨s, p, sz, false⟩ hd) next nextsz))

/-! ## `mem_alloc` with `CONFIG_MEM_HEAP` -/

/-- A build with the width of `phys_addr_t`, which has room for a `caddr_t`. -/
structure MemConfig extends Config where
  physBits : Nat
  physBits_ge : 8 * model.ptr ≤ physBits

/-- The argument of `heap_alloc`: a sum of `phys_addr_t` values, converted to `heap_size_t`. -/
def MemConfig.request (c : MemConfig) (size align : Nat) : Nat :=
  (size + (align - 1)) % 2 ^ c.physBits % 2 ^ c.sizeBits

def memAlloc (c : MemConfig) (s : HeapState) (size align : Nat) : Option (HeapState × Nat) :=
  (heapAlloc c.toConfig s (c.request size align)).map fun (s, addr) =>
    (s, if addr = 0 then 0 else Page.alignUp addr align % 2 ^ c.physBits)

/-- `mem_free`, which does not read its second argument. -/
def memFree (c : MemConfig) (s : HeapState) (base _size : Nat) : Option HeapState :=
  heapFree c.toConfig s (base % 256 ^ c.ptr)

end Sdfirm.Heap
