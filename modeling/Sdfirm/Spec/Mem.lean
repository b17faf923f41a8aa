import Sdfirm.Impl.Mem
import Sdfirm.Proof.Framework.Intersect
import Sdfirm.Impl.Page
import Sdfirm.Proof.Framework.Ranges

/-!
# What the memory of the system is for

The early memory map, the page allocator, and the hand-over of the free memory
from the one to the other.
-/

/-!
## What the early memory map is for

The two region arrays stand for two sets of addresses: `mem_add` and
`mem_reserve` unite a range with one of them, `mem_free` takes one out
(`Call.onSets`). `MemType.WF` is the form the arrays are kept in, and
`EnoughSlots` says of a sequence of calls that no array fills up on the way.
-/

namespace Sdfirm.Mem

open Framework

def MemRegion.range (r : MemRegion) : Range Nat := ⟨r.base, r.base + r.size⟩

def ranges (rs : List MemRegion) : List (Range Nat) := rs.map MemRegion.range

/-- The addresses an array covers. -/
def MemType.cover (t : MemType) : Set Nat := Range.cover (ranges t.regions)

/-- Sorted by base, disjoint, not touching and without empty regions. -/
structure Canonical (rs : List MemRegion) : Prop where
  separated : Range.Separated (ranges rs)
  proper : Range.Proper (ranges rs)

/-- The array is canonical and has an entry, or holds only the dummy entry, and
`total_size` is the sum of the sizes. -/
structure MemType.WF (t : MemType) : Prop where
  regions : t.regions = [⟨0, 0⟩] ∨ t.regions ≠ [] ∧ Canonical t.regions
  total : t.totalSize = (t.regions.map MemRegion.size).sum

/-- The sets the two arrays stand for. -/
structure MemSets where
  memory : Set Nat
  reserved : Set Nat

/-- A call as an operation on the sets. -/
def Call.onSets (m : MemSets) : Call → MemSets
  | .add base size => { m with memory := m.memory ∪ Set.Ico base (base + size) }
  | .reserve base size => { m with reserved := m.reserved ∪ Set.Ico base (base + size) }
  | .free base size => { m with reserved := m.reserved \ Set.Ico base (base + size) }

def MemState.sets (s : MemState) : MemSets := ⟨s.memory.cover, s.reserved.cover⟩

/-- `mem_add_range` finds a slot for each of the regions its first round counts. -/
def AddSlots (t : MemType) (base size : Nat) : Prop :=
  ∀ t' nrNew, addRound false t base (base + size) = some (t', nrNew) → t.regions.length + nrNew ≤ t.max

/-- `mem_isolate_range` finds the two slots it may need. -/
def IsolateSlots (t : MemType) (size : Nat) : Prop := size = 0 ∨ t.regions.length + 2 ≤ t.max

def Call.HasSlots (s : MemState) : Call → Prop
  | .add base size => AddSlots s.memory base size
  | .reserve base size => AddSlots s.reserved base size
  | .free _ size => IsolateSlots s.reserved size

/-- Every call of the sequence finds enough array slots in the state it is made in. -/
def EnoughSlots (s : MemState) : List Call → Prop
  | [] => True
  | c :: cs => c.HasSlots s ∧ ∀ s', c.exec s = some s' → EnoughSlots s' cs

/-! ### Free ranges -/

/-- A region array as the iterators take it: sorted, disjoint and not touching, with no empty region but the dummy
entry. Its regions end at a `phys_addr_t`, and an `int` counts the areas before and after them. -/
structure MemType.Listed (physMax : Nat) (t : MemType) : Prop where
  separated : Range.Separated (ranges t.regions)
  dummy : ∀ r ∈ t.regions, r.size = 0 → r.base = 0
  fits : ∀ r ∈ t.regions, r.base + r.size ≤ physMax
  cnt_lt : t.regions.length + 1 < 2 ^ 31

/-- The addresses of memory that is not reserved. -/
def MemState.free (s : MemState) : Set Nat := s.memory.cover \ s.reserved.cover

/-! ### Allocation -/

/-- `size` bytes at `addr` are free, aligned and not in the first page. -/
structure Fits (c : MemConfig) (s : MemState) (size align addr : Nat) : Prop where
  aligned : align ∣ addr
  page : c.pageSize ≤ addr
  free : Set.Ico addr (addr + size) ⊆ s.free

/-- A region can be reserved apart from the others: `mem_reserved_regions` has a slot left or only its dummy entry. -/
def MemState.CanReserve (s : MemState) : Prop :=
  s.reserved.regions = [⟨0, 0⟩] ∨ s.reserved.regions.length < s.reserved.max

/-- The outcome of `mem_alloc`: 0 when nothing fits, else a range that fits and is reserved afterwards. -/
structure Allocated (c : MemConfig) (s : MemState) (size align : Nat) (s' : MemState) (addr : Nat) : Prop where
  none_fits : addr = 0 → ∀ a, ¬ Fits c s size align a
  fits : addr ≠ 0 → Fits c s size align addr
  memory : s'.memory = s.memory
  reserved : s'.reserved.cover = s.reserved.cover ∪ if addr = 0 then ∅ else Set.Ico addr (addr + size)

/-- The memory map, and the ranges that `mem_alloc` has returned since the last `mem_free`. -/
structure Boot where
  state : MemState
  given : List (Range Nat)

def Call.keep (given : List (Range Nat)) : Call → List (Range Nat)
  | .free _ _ => []
  | _ => given

/-- The range of a call ends at or below `bound`. -/
def Call.Below (bound : Nat) : Call → Prop
  | .add base size => base + size ≤ bound
  | .reserve base size => base + size ≤ bound
  | .free base size => base + size ≤ bound

instance (bound : Nat) : ∀ c : Call, Decidable (c.Below bound)
  | .add _ _ => inferInstanceAs (Decidable (_ ≤ _))
  | .reserve _ _ => inferInstanceAs (Decidable (_ ≤ _))
  | .free _ _ => inferInstanceAs (Decidable (_ ≤ _))

/-- What calls of `mem_add`, `mem_reserve`, `mem_free` and `mem_alloc` lead to from the static arrays on. -/
inductive Boot.Reach (c : MemConfig) : Boot → Prop
  | init : Reach c ⟨.init c.nr, []⟩
  | call {b s} (call : Call) : Reach c b → call.Below c.physMax → call.exec b.state = some s →
      Reach c ⟨s, call.keep b.given⟩
  | alloc {b s addr} (size align : Nat) : Reach c b → size ≤ c.physMax → align ≤ c.physMax →
      memAlloc c b.state size align = some (s, addr) →
      Reach c ⟨s, if addr = 0 then b.given else ⟨addr, addr + size⟩ :: b.given⟩

end Sdfirm.Mem

/-!
## What the page allocator is for

The memory handed to the allocator is at any time divided into the free
ranges of the list and the pages its users hold. `Sys` is the allocator with
those two sets of addresses beside it, and `Step` one call by a user that
keeps to the rules: it frees only pages it holds (any part of them), and it
may write to the pages it holds. `Conserved` is what a run has to keep.
-/

namespace Sdfirm.Page

open Framework

variable (pageShift : Nat)

/-- The ranges of the nodes `l`. -/
def rangesOf (endOf : Nat → Nat) (l : List Nat) : List (Range Nat) := l.map fun p => ⟨p, endOf p⟩

/-- The free ranges. -/
def PageState.ranges (s : PageState) : List (Range Nat) := rangesOf s.endOf s.free

/-- The allocator, the memory handed to it and the pages held by its users. -/
structure Sys where
  state : PageState
  total : Set Nat
  held : Set Nat

/-- The addresses of the free pages. -/
def Sys.free (y : Sys) : Set Nat := Range.cover y.state.ranges

/-- The addresses of `n` pages from `p` on. -/
def pages (p n : Nat) : Set Nat := Set.Ico p (pageOffset pageShift p n)

inductive Op where
  | init (base size : Nat)
  | alloc (n : Nat)
  | free (p n : Nat)
  | store (p v : Nat)

/-- The pages of `[base, base + size)`, as `page_alloc_init` rounds it. -/
def wholePages (base size : Nat) : Set Nat :=
  Set.Ico (alignUp base (2 ^ pageShift)) (alignDown (base + size) (2 ^ pageShift))

/-- One call. A range handed over has at least one page and is new; the number of
pages asked for is a positive `int`; only held pages are freed or written. -/
inductive Step : Sys → Op → Sys → Prop
  | init {y s base size} : pageAllocInit pageShift y.state base size = some s →
      (wholePages pageShift base size).Nonempty → Disjoint (wholePages pageShift base size) y.total →
      Step y (.init base size) ⟨s, y.total ∪ wholePages pageShift base size, y.held⟩
  | alloc {y s n p} : 1 ≤ n → n < 2 ^ 31 → pageAllocPages pageShift y.state n = some (p, s) → p ≠ 0 →
      Step y (.alloc n) ⟨s, y.total, y.held ∪ pages pageShift p n⟩
  | allocFails {y s n} : 1 ≤ n → n < 2 ^ 31 → pageAllocPages pageShift y.state n = some (0, s) →
      Step y (.alloc n) ⟨s, y.total, y.held⟩
  | free {y s p n} : 2 ^ pageShift ∣ p → pages pageShift p n ⊆ y.held →
      pageFreePages pageShift y.state p n = some s →
      Step y (.free p n) ⟨s, y.total, y.held \ pages pageShift p n⟩
  | store {y p v} : p ∈ y.held →
      Step y (.store p v) ⟨⟨y.state.free, Function.update y.state.endOf p v⟩, y.total, y.held⟩

/-- Runs from an empty list, whatever the memory holds, whose steps all meet `ok`. -/
inductive Run (ok : Sys → Op → Prop) : Sys → Prop
  | start (endOf : Nat → Nat) : Run ok ⟨⟨[], endOf⟩, ∅, ∅⟩
  | step {y y'} (op : Op) : Run ok y → ok y op → Step pageShift y op y' → Run ok y'

/-- The list is sorted, its ranges are disjoint, not empty and do not touch, and the free
and the held pages are the memory handed over, each page once. -/
structure Conserved (y : Sys) : Prop where
  separated : Range.Separated y.state.ranges
  proper : Range.Proper y.state.ranges
  disjoint : Disjoint y.free y.held
  all : y.free ∪ y.held = y.total

/-- The first of the nodes `l` with at least `n` pages by `page_nr`, unless there is one at
address 0 before it. -/
def firstFit (s : PageState) (n : Nat) (l : List Nat) : Option Nat :=
  (l.takeWhile (· ≠ 0)).find? fun p => (n : Int) ≤ pageNr pageShift s p

/-- The range `page_alloc_pages` takes. -/
def picked (s : PageState) (n : Nat) : Option Nat := firstFit pageShift s n s.free

/-- A range can be put into the list at `p`: no node at address 0 hides the others from
the walk, or the range lies above all of them. -/
def CanInsert (s : PageState) (p : Nat) : Prop := 0 ∈ s.free → ∀ q ∈ s.free, s.endOf q < p

/-- When a step does what it should: a range is put where the walk can see the list, and
the pages of the range picked are as many as `page_nr` says, when it is taken as a whole. -/
def Regular (y : Sys) : Op → Prop
  | .init base _ => CanInsert y.state (alignUp base (2 ^ pageShift))
  | .alloc n => ∀ p, picked pageShift y.state n = some p → pageNr pageShift y.state p = n →
      y.state.endOf p = pageOffset pageShift p n
  | .free p n => n ≠ 0 → CanInsert y.state p
  | .store _ _ => True

end Sdfirm.Page

/-!
## What the hand-over of memory is for

The page allocator gets the whole pages of free memory, and no byte of what
is not free is written.
-/

namespace Sdfirm.Mem

open Framework
open Page (PageState alignDown)

/-- The addresses of the pages that lie in `S`. -/
def pagesIn (c : MemConfig) (S : Set Nat) : Set Nat :=
  {x | Set.Ico (alignDown x c.pageSize) (alignDown x c.pageSize + c.pageSize) ⊆ S}

/-- What `mem_free_all` has to leave, where a `struct page` takes `hdr` bytes and `endOf` is what the memory held before.
Every `struct page` it writes is that of a range of its loop (`firstPage`) or already in the list. -/
structure HandedOver (c : MemConfig) (hdr : Nat) (s : MemState) (endOf : Nat → Nat) (ps : PageState) : Prop where
  proper : Range.Proper ps.ranges
  inside : ∀ r ∈ ps.ranges, ∃ m, Range.Maximal s.free m ∧ m.lo ≤ r.lo ∧ r.hi ≤ m.hi
  pages : Range.cover ps.ranges = pagesIn c s.free
  headers : ∀ m, Range.Maximal s.free m → Set.Ico (firstPage c m.lo) (firstPage c m.lo + hdr) ⊆ s.free
  ends : ∀ a ∉ s.free, ps.endOf a = endOf a

/-- A whole page lies in the range. -/
def HasPage (c : MemConfig) (m : Range Nat) : Prop := ∃ p, c.pageSize ∣ p ∧ m.lo ≤ p ∧ p + c.pageSize ≤ m.hi

end Sdfirm.Mem
