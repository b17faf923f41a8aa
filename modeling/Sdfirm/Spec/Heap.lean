import Sdfirm.Impl.Heap
import Sdfirm.Proof.Framework.Ranges

/-!
# What the heap allocator is for

`Sys` is the allocator with the blocks its users hold beside it, and `Step`
one call by a user that keeps to the rules: it frees only blocks it holds, and
writes only to the bytes it asked for. A run has to keep three things: no
block overlaps another block or a header (`NonOverlap`), the chunks tile the
arena with right boundary tags (`BoundaryTags`), and the bins index the free
chunks (`BinsIndex`).

`Regular` is the part of the inputs on which the code does that. It leaves
out four defects, each in a definition of its own: a request whose padded
size is too small (`PadOk`), an exact request whose next bin is past the end
of `heap_bins` (`NextBinOk`), a remainder that is compared unsigned when it is
negative (`CompareOk`), and an extension of the top by a negative increment
(`IncrementOk`) or of no top at all (`SentinelOk`).

`GivesBack` is what `mem_free` should do to a block of `mem_alloc`, which hands
out an aligned address inside the block that `heap_alloc` returned.
-/

namespace Sdfirm.Heap

open Framework

variable (c : Config)

/-! ## Tiling -/

/-- A chunk of the arena before the top chunk. -/
structure Chunk where
  addr : Nat
  size : Nat
  used : Bool
  deriving DecidableEq

/-- The boundary tags of a chunk: its size with the bit that says whether the chunk before it
is in use, and at the end of a free chunk its size again. A free chunk follows a used one. -/
structure Tagged (m : Mem) (prevUsed : Bool) (k : Chunk) : Prop where
  size_dvd : 8 ∣ k.size
  size_ge : c.heapAlign c.headSize ≤ k.size
  head : m.load (k.addr + c.sizeSize) c.sizeSize = k.size + prevUsed.toNat
  foot : k.used = false → m.load (k.addr + k.size) c.sizeSize = k.size
  coalesced : k.used = false → prevUsed = true

/-- The chunks `cs` lie one after the other from `a` to `b`. `pu` and `pv` say whether the
chunks that end at `a` and at `b` are in use. -/
def Seg (m : Mem) : (pu : Bool) → (a : Nat) → List Chunk → (b : Nat) → (pv : Bool) → Prop
  | pu, a, [], b, pv => a = b ∧ pu = pv
  | pu, a, k :: cs, b, pv => k.addr = a ∧ Tagged c m pu k ∧ Seg m k.used (a + k.size) cs b pv

/-- The arena: the chunks `cs` from `a` to the top chunk, which reaches to the break and
follows a used chunk. -/
structure Arena (s : HeapState) (a : Nat) (cs : List Chunk) (topSize : Nat) : Prop where
  tiled : Seg c s.mem true a cs s.first true
  top : s.mem.load (s.first + c.sizeSize) c.sizeSize = topSize + 1
  top_end : s.first + topSize = s.brk
  start_le : c.start ≤ a
  brk_le : s.brk ≤ c.stop

/-- The headers of the chunks `cs` and of the top chunk. The first field of a header belongs
to the chunk before as long as that is in use. -/
def headers (top : Nat) : Bool → List Chunk → List (Range Nat)
  | pu, [] => [⟨if pu then top + c.sizeSize else top, top + 2 * c.sizeSize⟩]
  | pu, k :: cs => ⟨if pu then k.addr + c.sizeSize else k.addr, k.addr + 2 * c.sizeSize⟩ :: headers top k.used cs

/-! ## Users and runs -/

/-- A block held by a user: a pointer and the size asked for. -/
structure Block where
  ptr : Nat
  len : Nat
  deriving DecidableEq

/-- The allocator and the live blocks. -/
structure Sys where
  state : HeapState
  live : List Block

inductive Op where
  | alloc (n : Nat)
  | calloc (n : Nat)
  | free (p : Nat)
  | store (a : Nat) (v : BitVec 8)

/-- One call, or one write of a user. A size is a `heap_size_t`. -/
inductive Step : Sys → Op → Sys → Prop
  | alloc {y s n p} : n < 2 ^ c.sizeBits → heapAlloc c y.state n = some (s, p) → p ≠ 0 →
      Step y (.alloc n) ⟨s, ⟨p, n⟩ :: y.live⟩
  | allocFails {y s n} : n < 2 ^ c.sizeBits → heapAlloc c y.state n = some (s, 0) →
      Step y (.alloc n) ⟨s, y.live⟩
  | calloc {y s n p} : n < 2 ^ c.sizeBits → heapCalloc c y.state n = some (s, p) → p ≠ 0 →
      Step y (.calloc n) ⟨s, ⟨p, n⟩ :: y.live⟩
  | callocFails {y s n} : n < 2 ^ c.sizeBits → heapCalloc c y.state n = some (s, 0) →
      Step y (.calloc n) ⟨s, y.live⟩
  | free {y s b} : b ∈ y.live → heapFree c y.state b.ptr = some s →
      Step y (.free b.ptr) ⟨s, y.live.erase b⟩
  | store {y b a v} : b ∈ y.live → b.ptr ≤ a → a < b.ptr + b.len →
      Step y (.store a v) ⟨{ y.state with mem := Function.update y.state.mem a v }, y.live⟩

/-- Runs from `heap_init`, whatever the memory holds, whose steps all meet `ok`. -/
inductive Run (ok : Sys → Op → Prop) : Sys → Prop
  | init (m : Mem) : Run ok ⟨heapInit c m, []⟩
  | step {y y'} (op : Op) : Run ok y → ok y op → Step c y op y' → Run ok y'

/-- One step as a computation, of the calls and writes that are allowed. -/
def exec (y : Sys) : Op → Option Sys
  | .alloc n =>
    if n < 2 ^ c.sizeBits then
      (heapAlloc c y.state n).map fun r => ⟨r.1, if r.2 = 0 then y.live else ⟨r.2, n⟩ :: y.live⟩
    else none
  | .calloc n =>
    if n < 2 ^ c.sizeBits then
      (heapCalloc c y.state n).map fun r => ⟨r.1, if r.2 = 0 then y.live else ⟨r.2, n⟩ :: y.live⟩
    else none
  | .free p =>
    (y.live.find? fun b => b.ptr = p).bind fun b =>
      (heapFree c y.state p).map fun s => ⟨s, y.live.erase b⟩
  | .store a v =>
    if ∃ b ∈ y.live, b.ptr ≤ a ∧ a < b.ptr + b.len then
      some ⟨{ y.state with mem := Function.update y.state.mem a v }, y.live⟩
    else none

/-- Steps from `heap_init` over the memory `m`. -/
def execAll (m : Mem) (ops : List Op) : Option Sys := ops.foldlM (exec c) ⟨heapInit c m, []⟩

/-! ## What a run keeps -/

def Block.Apart (b b' : Block) : Prop := b.ptr + b.len ≤ b'.ptr ∨ b'.ptr + b'.len ≤ b.ptr

/-- The live blocks lie below the break, apart from each other and from the headers. -/
structure NonOverlap (y : Sys) : Prop where
  inside : ∀ b ∈ y.live, c.start ≤ b.ptr ∧ b.ptr + b.len ≤ y.state.brk
  apart : y.live.Pairwise Block.Apart
  headers : y.live ≠ [] → ∃ a cs topSize, Arena c y.state a cs topSize ∧
    ∀ b ∈ y.live, ∀ h ∈ headers c y.state.first true cs, b.ptr + b.len ≤ h.lo ∨ h.hi ≤ b.ptr

/-- There is no arena yet, or it is tiled by chunks with right tags, of which the used ones are
the live blocks. With no live block the top chunk is all there is and every bin is empty. -/
def BoundaryTags (y : Sys) : Prop :=
  (y.state.first = c.initTop ∧ y.live = [] ∧ ∀ i < c.nrBins, listEmpty c y.state.mem (c.heapBin i)) ∨
  ∃ a cs topSize, Arena c y.state a cs topSize ∧
    (∀ p, (∃ b ∈ y.live, b.ptr = p + 2 * c.sizeSize) ↔ ∃ k ∈ cs, k.used = true ∧ k.addr = p) ∧
    (y.live = [] → cs = [] ∧ ∀ i < c.nrBins, listEmpty c y.state.mem (c.heapBin i))

/-- The lists `B` of the bins hold the free chunks but the last remainder, each in the bin of
its size, in order of size, and the bitmap shows which of them are not empty. -/
structure BinsHold (s : HeapState) (cs : List Chunk) (B : Nat → List Chunk) : Prop where
  lists : ∀ i < c.nrBins, Ring c.ptr s.mem (c.heapBin i) ((B i).map fun k => c.node k.addr)
  hash_lt : ∀ k ∈ cs, c.heapBinHash k.size < c.nrBins
  mem_iff : ∀ i < c.nrBins, ∀ k, k ∈ B i ↔
    k ∈ cs ∧ k.used = false ∧ k.addr ≠ s.last ∧ c.heapBinHash k.size = i
  nodup : ∀ i < c.nrBins, (B i).Nodup
  first_not_mem : ∀ i < c.nrBins, ∀ k ∈ B i, k.addr ≠ s.first
  sorted : ∀ i < c.nrBins, (B i).Pairwise fun j k => j.size ≤ k.size
  blocks : ∀ i < c.nrBins, Bitops.testBit c.unit i s.blocks = true ↔ B i ≠ []

/-- There is no arena yet and the bins are empty, or the bins hold its free chunks. -/
def BinsIndex (y : Sys) : Prop :=
  (y.state.first = c.initTop ∧ BinsHold c y.state [] fun _ => []) ∨
  ∃ a cs topSize B, Arena c y.state a cs topSize ∧ BinsHold c y.state cs B

/-! ## The inputs on which it does -/

/-- The padded size has room for a node, and for the request with its header. -/
def PadOk (n : Nat) : Prop :=
  c.headSize ≤ c.heapRequestPad n ∧ n + c.sizeSize ≤ c.heapRequestPad n

/-- The bin after an empty bin of an exact request is one of `heap_bins`. -/
def NextBinOk (m : Mem) (nb : Nat) : Prop :=
  nb < 512 - 8 → listEmpty c m (c.heapBin (c.heapExactIndex nb)) → c.heapExactIndex nb + 1 < c.nrBins

/-- Where remainders are compared unsigned, the first chunk they are computed for, the last
remainder or else the first chunk of the first bin searched, is not smaller than the request. -/
def CompareOk (s : HeapState) (nb : Nat) : Prop :=
  c.UnsignedCompare → ∀ idx, ownBin c s.mem nb = .miss idx →
    if s.last = 0 then
      idx + 1 < c.nrBins → listEmpty c s.mem (c.heapBin (idx + 1)) = false →
        nb ≤ heapCurrSize c s.mem (c.node2chunk (Ring.next c.ptr s.mem (c.heapBin (idx + 1))))
    else nb ≤ heapCurrSize c s.mem s.last

/-- `s'` is the state in which a request of `nb` bytes comes to the top chunk. -/
def ReachesTop (s : HeapState) (nb : Nat) (s' : HeapState) : Prop :=
  ∃ idx, ownBin c s.mem nb = .miss idx ∧ fromLast c s nb = (s', none) ∧ fromBins c s' nb (idx + 1) = none

/-- The increment of the break is not negative, or is refused. -/
def IncrementOk (s : HeapState) (nb : Nat) : Prop :=
  0 ≤ c.toOffset (sbrkSize c nb) ∨ (heapSbrk c s (c.toOffset (sbrkSize c nb))).1 = c.invalidAddr

/-- When the heap still has no top chunk after the attempt to extend it, the header read at
`heap_init_top` leaves no room for the request. -/
def SentinelOk (s : HeapState) (nb : Nat) : Prop :=
  ∀ s', heapExtendTop c s nb = some s' → s'.first = c.initTop →
    c.remainder (heapCurrSize c s'.mem c.initTop) nb < c.headSize

/-- A request for `n` bytes that meets none of the defects. -/
structure RegularRequest (s : HeapState) (n : Nat) : Prop where
  pad : PadOk c n
  nextBin : NextBinOk c s.mem (c.heapRequestPad n)
  compare : CompareOk c s (c.heapRequestPad n)
  increment : ∀ s', ReachesTop c s (c.heapRequestPad n) s' → TopShort c s' (c.heapRequestPad n) →
    IncrementOk c s' (c.heapRequestPad n)
  sentinel : ∀ s', ReachesTop c s (c.heapRequestPad n) s' → SentinelOk c s' (c.heapRequestPad n)

/-- The size a call asks for. -/
def Op.request : Op → Option Nat
  | .alloc n => some n
  | .calloc n => some n
  | _ => none

def Regular (y : Sys) (op : Op) : Prop := ∀ n, op.request = some n → RegularRequest c y.state n

/-- A step that does not take the header read at `heap_init_top` for a top chunk. -/
def SentinelUnused (y : Sys) (op : Op) : Prop := ∀ n, op.request = some n →
  ∀ s', ReachesTop c y.state (c.heapRequestPad n) s' → SentinelOk c s' (c.heapRequestPad n)

/-! ## Padding -/

/-- The padded size is the least multiple of `HEAP_ALIGN_SIZE` with room for the request and its header and for a
free chunk, and the `BUG_ON` of `__heap_alloc` lets it pass. -/
structure Padded (n : Nat) : Prop where
  least : IsLeast {nb | 8 ∣ nb ∧ n + c.sizeSize ≤ nb ∧ c.headSize ≤ nb} (c.heapRequestPad n)
  no_bug : ¬(c.heapRequestPad n < n ∨ c.heapRequestPad n > c.heapSize - c.sizeSize)

/-- What `CONFIG_HEAP_SIZE - 1` leaves of the request and of the smallest chunk is in their order, when one of them
takes more units of `HEAP_ALIGN_SIZE` than the other. -/
structure MaskOk (n : Nat) : Prop where
  lt : (n + c.sizeSize + 7) / 8 < (c.headSize + 7) / 8 →
    (n + c.sizeSize + 7) &&& (c.heapSize - 1) < (c.headSize + 7) &&& (c.heapSize - 1)
  le : (c.headSize + 7) / 8 < (n + c.sizeSize + 7) / 8 →
    (c.headSize + 7) &&& (c.heapSize - 1) ≤ (n + c.sizeSize + 7) &&& (c.heapSize - 1)

/-! ## `mem_alloc` -/

/-- Where the top chunk lies, or will lie once the heap has one. -/
def topAddr (s : HeapState) : Nat :=
  if s.first = c.initTop then c.chunkAt s.brk (alignCorrection c s.brk) else s.first

/-- The chunk that serves a request of `nb` bytes: one of the bin of its size, the last remainder,
one of the other bins, or the top chunk. -/
inductive Serves (s : HeapState) (nb : Nat) : Nat → Prop
  | own {p idx} : ownBin c s.mem nb = .take p idx → Serves s nb p
  | last {idx mem s'} : ownBin c s.mem nb = .miss idx → fromLast c s nb = (s', some mem) → Serves s nb s.last
  | bins {idx s' p i} : ownBin c s.mem nb = .miss idx → fromLast c s nb = (s', none) →
      searchBins c s' nb (c.nrBins + 1) (idx + 1) = some (p, i) → Serves s nb p
  | top {s'} : ReachesTop c s nb s' → Serves s nb (topAddr c s)

/-- The block of the chunk that serves the request is aligned. -/
def ServedAligned (s : HeapState) (nb align : Nat) : Prop := ∀ p, Serves c s nb p → align ∣ c.chunk2mem p

/-- What `mem_alloc` returns after `heap_alloc` has returned `addr` can be freed: `mem_free` gives back
the chunk of `addr`, and the live blocks are those of before. -/
def GivesBack (c : MemConfig) (y : Sys) (size align addr : Nat) : Prop :=
  ∃ s₁ p s₂, memAlloc c y.state size align = some (s₁, p) ∧ memFree c s₁ p size = some s₂ ∧
    c.mem2chunk (p % 256 ^ c.ptr) = c.mem2chunk addr ∧ BoundaryTags c.toConfig ⟨s₂, y.live⟩

end Sdfirm.Heap
