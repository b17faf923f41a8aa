import Sdfirm.Proof.Framework.Ranges

/-!
# The early memory map (`kernel/mem.c`)

`mem_add`, `mem_reserve` and `mem_free` over the two region arrays, the loops
over the free ranges that these leave, and `mem_alloc`. An array is the list
of its first `cnt` entries, so `cnt` is its length, and `memmove` with `cnt++`
or `cnt--` is the insertion or the removal of one entry. Addresses are natural
numbers: the callers' `base + size` does not wrap, and then no sum of the code
does but those of `round_up` and `round_down`.

`none` is `BUG()`: no slot is left in the array and `mem_double_array`
cannot grow it (it returns `-1` without `CONFIG_MEM_RESIZE`), or a `BUG_ON`.
The loops of the source carry an iteration bound, with `none` past it. In the
iterators over free ranges the array `type_b` is never `NULL`.
-/

namespace Sdfirm.Mem

/-- `struct mem_region`. -/
structure MemRegion where
  base : Nat
  size : Nat
deriving DecidableEq, Repr

/-- `struct mem_type`; `cnt` is the length of `regions`. -/
structure MemType where
  regions : List MemRegion
  max : Nat
  totalSize : Nat
deriving DecidableEq, Repr

/-- The static arrays: one empty dummy entry, `nr` (`NR_MEM_REGIONS`) slots. -/
def MemType.init (nr : Nat) : MemType := ⟨[⟨0, 0⟩], nr, 0⟩

/-- The loop of `mem_merge_regions`, from the entry `this` on. -/
def mergeFrom : MemRegion → List MemRegion → Option (List MemRegion)
  | this, [] => some [this]
  | this, next :: rest =>
    if this.base + this.size ≠ next.base then
      if next.base < this.base + this.size then none
      else (mergeFrom next rest).map (this :: ·)
    else mergeFrom ⟨this.base, this.size + next.size⟩ rest

def memMergeRegions (type : MemType) : Option MemType :=
  match type.regions with
  | [] => some type
  | this :: rest => (mergeFrom this rest).map fun rs => { type with regions := rs }

def memInsertRegion (type : MemType) (idx base size : Nat) : MemType :=
  { type with regions := type.regions.insertIdx idx ⟨base, size⟩, totalSize := type.totalSize + size }

/-- The cut of `mem_isolate_range`, at `base` or at `end`: the entry `rgn` at `idx` keeps
its part from `at_` on, and its lower part is inserted before it. -/
def cutRegion (type : MemType) (idx : Nat) (rgn : MemRegion) (at_ : Nat) : MemType :=
  memInsertRegion { type with
    regions := type.regions.set idx ⟨at_, rgn.size - (at_ - rgn.base)⟩
    totalSize := type.totalSize - (at_ - rgn.base) } idx rgn.base (at_ - rgn.base)

/-- Where the loop of `mem_isolate_range` stands: the array, and `*start_rgn`, `*end_rgn`. -/
structure Isolated where
  type : MemType
  startRgn : Nat
  endRgn : Nat

/-- The entry `idx` is fully contained. -/
def Isolated.record (s : Isolated) (idx : Nat) : Isolated :=
  { s with startRgn := if s.endRgn = 0 then idx else s.startRgn, endRgn := idx + 1 }

/-- The loop of `mem_isolate_range` from index `idx` on, `fuel` iterations at most. -/
def isolateLoop (base end_ : Nat) : Nat → Nat → Isolated → Option Isolated
  | 0, _, _ => none
  | fuel + 1, idx, s =>
    match s.type.regions[idx]? with
    | none => some s
    | some rgn =>
      let rbase := rgn.base
      let rend := rbase + rgn.size
      if end_ ≤ rbase then some s
      else if rend ≤ base then isolateLoop base end_ fuel (idx + 1) s
      else if rbase < base then
        -- intersects from below: the next iteration sees the new top half
        isolateLoop base end_ fuel (idx + 1) { s with type := cutRegion s.type idx rgn base }
      else if end_ < rend then
        -- intersects from above: `idx--` makes the next iteration redo the new bottom half
        isolateLoop base end_ fuel idx { s with type := cutRegion s.type idx rgn end_ }
      else
        isolateLoop base end_ fuel (idx + 1) (s.record idx)

def memIsolateRange (type : MemType) (base size : Nat) : Option Isolated :=
  if size = 0 then some ⟨type, 0, 0⟩
  else if type.max < type.regions.length + 2 then none
  else isolateLoop base (base + size) (type.regions.length + 4) 0 ⟨type, 0, 0⟩

def memRemoveRegion (type : MemType) (r : Nat) : Option MemType :=
  match type.regions[r]? with
  | none => none
  | some rgn =>
    let type := { type with
      regions := type.regions.eraseIdx r, totalSize := type.totalSize - rgn.size }
    if type.regions.length = 0 then
      if type.totalSize ≠ 0 then none else some { type with regions := [⟨0, 0⟩] }
    else some type

/-- The loop of `mem_remove_range`: removes the entries `start + n - 1` down to `start`. -/
def removeLoop (start : Nat) : Nat → MemType → Option MemType
  | 0, type => some type
  | n + 1, type => (memRemoveRegion type (start + n)).bind (removeLoop start n)

def memRemoveRange (type : MemType) (base size : Nat) : Option MemType :=
  (memIsolateRange type base size).bind fun s => removeLoop s.startRgn (s.endRgn - s.startRgn) s.type

/-- Where the loop of `mem_add_range` stands. -/
structure Adding where
  type : MemType
  idx : Nat
  base : Nat
  nrNew : Nat

/-- The loop of `mem_add_range`, run with `insert = false` to count the regions to
insert and then with `insert = true`, `fuel` iterations at most. -/
def addLoop (insert : Bool) (end_ : Nat) : Nat → Adding → Option Adding
  | 0, _ => none
  | fuel + 1, s =>
    match s.type.regions[s.idx]? with
    | none => some s
    | some rgn =>
      let rbase := rgn.base
      let rend := rbase + rgn.size
      if end_ ≤ rbase then some s
      else if rend ≤ s.base then addLoop insert end_ fuel { s with idx := s.idx + 1 }
      else if s.base < rbase then
        if insert then
          -- `idx++` in the call and the loop's own `idx++`
          addLoop insert end_ fuel
            ⟨memInsertRegion s.type s.idx s.base (rbase - s.base), s.idx + 2, min rend end_, s.nrNew + 1⟩
        else addLoop insert end_ fuel ⟨s.type, s.idx + 1, min rend end_, s.nrNew + 1⟩
      else addLoop insert end_ fuel { s with idx := s.idx + 1, base := min rend end_ }

/-- One round of `mem_add_range`: the loop, then the remaining portion. -/
def addRound (insert : Bool) (type : MemType) (base end_ : Nat) : Option (MemType × Nat) :=
  (addLoop insert end_ (type.regions.length + 1) ⟨type, 0, base, 0⟩).map fun s =>
    if s.base < end_ then
      (if insert then memInsertRegion s.type s.idx s.base (end_ - s.base) else s.type, s.nrNew + 1)
    else (s.type, s.nrNew)

def memAddRange (type : MemType) (base size : Nat) : Option MemType :=
  if size = 0 then some type
  else match type.regions with
    | [] => none
    | r :: rest =>
      if r.size = 0 then some { type with regions := ⟨base, size⟩ :: rest, totalSize := size }
      else
        (addRound false type base (base + size)).bind fun (_, nrNew) =>
          if type.max < type.regions.length + nrNew then none
          else (addRound true type base (base + size)).bind fun (type, _) => memMergeRegions type

/-- `mem_memory_regions` and `mem_reserved_regions`. -/
structure MemState where
  memory : MemType
  reserved : MemType

def MemState.init (nr : Nat) : MemState := ⟨.init nr, .init nr⟩

def memAdd (s : MemState) (base size : Nat) : Option MemState :=
  (memAddRange s.memory base size).map fun t => { s with memory := t }

def memReserve (s : MemState) (base size : Nat) : Option MemState :=
  (memAddRange s.reserved base size).map fun t => { s with reserved := t }

def memFree (s : MemState) (base size : Nat) : Option MemState :=
  (memRemoveRange s.reserved base size).map fun t => { s with reserved := t }

/-- A call of the memory map. -/
inductive Call where
  | add (base size : Nat)
  | reserve (base size : Nat)
  | free (base size : Nat)
deriving DecidableEq, Repr

def Call.exec (s : MemState) : Call → Option MemState
  | .add base size => memAdd s base size
  | .reserve base size => memReserve s base size
  | .free base size => memFree s base size

/-- A sequence of calls. -/
def run (s : MemState) : List Call → Option MemState
  | [] => some s
  | c :: cs => (c.exec s).bind fun s' => run s' cs

/-! ## Free ranges -/

open Framework (Range)

/-- `(uint64_t)ULLONG_MAX`. -/
def ullongMax : BitVec 64 := BitVec.allOnes 64

/-- `(uint32_t)idx_a | (uint64_t)idx_b << 32`. -/
def packIdx (idxA idxB : Int) : BitVec 64 := (BitVec.ofInt 32 idxA).setWidth 64 ||| BitVec.ofInt 64 idxB <<< 32

/-- `int idx_a = *idx & 0xffffffff`. -/
def idxA (idx : BitVec 64) : Int := ((idx &&& 0xffffffff).setWidth 32).toInt

/-- `int idx_b = *idx >> 32`. -/
def idxB (idx : BitVec 64) : Int := ((idx >>> 32).setWidth 32).toInt

/-- Whether an `int` is below an `unsigned long`, which no negative one is. -/
def idxLt (idx : Int) (cnt : Nat) : Bool := 0 ≤ idx ∧ idx < cnt

/-- `m_start` and `m_end`. -/
def regionAt (type : MemType) (idx : Int) : Range Nat :=
  let m := type.regions.getD idx.toNat ⟨0, 0⟩
  ⟨m.base, m.base + m.size⟩

section Iterators

-- what `ULLONG_MAX` is as a `phys_addr_t`
variable (physMax : Nat)

/-- `r_start` and `r_end`: the area before a reservation, or after the last one. -/
def areaAt (type : MemType) (idx : Int) : Range Nat :=
  ⟨if idx ≠ 0 then (regionAt type (idx - 1)).hi else 0,
    if idxLt idx type.regions.length then (regionAt type idx).lo else physMax⟩

/-- The loops of `__next_mem_range`: the new `*idx` and, unless it is the end, what `*out_start` and `*out_end`
become. -/
def nextLoop (typeA typeB : MemType) : Nat → Int → Int → Option (BitVec 64 × Range Nat)
  | 0, _, _ => none
  | fuel + 1, a, b =>
    if idxLt a typeA.regions.length then
      if idxLt b (typeB.regions.length + 1) then
        let m := regionAt typeA a
        let r := areaAt physMax typeB b
        if m.hi ≤ r.lo then nextLoop typeA typeB fuel (a + 1) b
        else if m.lo < r.hi then
          some (if m.hi ≤ r.hi then packIdx (a + 1) b else packIdx a (b + 1), ⟨max m.lo r.lo, min m.hi r.hi⟩)
        else nextLoop typeA typeB fuel a (b + 1)
      else nextLoop typeA typeB fuel (a + 1) b
    else some (ullongMax, ⟨0, 0⟩)

/-- `__next_mem_range`. -/
def nextMemRange (typeA typeB : MemType) (idx : BitVec 64) : Option (BitVec 64 × Range Nat) :=
  nextLoop physMax typeA typeB (typeA.regions.length + typeB.regions.length + 2) (idxA idx) (idxB idx)

/-- The loops of `__next_mem_range_rev`. -/
def nextRevLoop (typeA typeB : MemType) : Nat → Int → Int → Option (BitVec 64 × Range Nat)
  | 0, _, _ => none
  | fuel + 1, a, b =>
    if 0 ≤ a then
      if 0 ≤ b then
        let m := regionAt typeA a
        let r := areaAt physMax typeB b
        if r.hi ≤ m.lo then nextRevLoop typeA typeB fuel (a - 1) b
        else if r.lo < m.hi then
          some (if r.lo ≤ m.lo then packIdx (a - 1) b else packIdx a (b - 1), ⟨max m.lo r.lo, min m.hi r.hi⟩)
        else nextRevLoop typeA typeB fuel a (b - 1)
      else nextRevLoop typeA typeB fuel (a - 1) b
    else some (ullongMax, ⟨0, 0⟩)

/-- `__next_mem_range_rev`. -/
def nextMemRangeRev (typeA typeB : MemType) (idx : BitVec 64) : Option (BitVec 64 × Range Nat) :=
  let cursors : Int × Int :=
    if idx = ullongMax then
      ((BitVec.ofInt 32 (typeA.regions.length - 1)).toInt, (BitVec.ofInt 32 typeB.regions.length).toInt)
    else (idxA idx, idxB idx)
  nextRevLoop physMax typeA typeB (typeA.regions.length + typeB.regions.length + 3) cursors.1 cursors.2

/-- The ranges a `for_each` loop has its body run for. -/
def forEach (next : BitVec 64 → Option (BitVec 64 × Range Nat)) : Nat → BitVec 64 → Option (List (Range Nat))
  | 0, _ => none
  | fuel + 1, idx =>
    (next idx).bind fun (idx, r) => if idx = ullongMax then some [] else (forEach next fuel idx).map (r :: ·)

/-- `for_each_free_mem_range`. -/
def forEachFreeMemRange (s : MemState) : Option (List (Range Nat)) :=
  forEach (nextMemRange physMax s.memory s.reserved) (s.memory.regions.length + s.reserved.regions.length + 2) 0

/-- `for_each_free_mem_range_reverse`. -/
def forEachFreeMemRangeReverse (s : MemState) : Option (List (Range Nat)) :=
  forEach (nextMemRangeRev physMax s.memory s.reserved) (s.memory.regions.length + s.reserved.regions.length + 2) ullongMax

end Iterators

/-! ## Allocation -/

/-- What the build fixes: the width of `phys_addr_t`, `NR_MEM_REGIONS`, which an `int` counts, `PAGE_SHIFT`,
`SMP_CACHE_BYTES`, `__pa(SDFIRM_END)` and `mem_bottom_up`, which nothing sets. -/
structure MemConfig where
  bits : Nat
  nr : Nat
  pageShift : Nat
  smpCacheBytes : Nat
  kernelEnd : Nat
  bottomUp : Bool
  nr_lt : nr + 2 < 2 ^ 31
  pageShift_lt : pageShift < bits

namespace MemConfig

/-- `MEM_ALLOC_ANYWHERE`, which `mem_current_limit` stays at. -/
def physMax (c : MemConfig) : Nat := 2 ^ c.bits - 1

def pageSize (c : MemConfig) : Nat := 2 ^ c.pageShift

/-- `__round_mask`: `y - 1` as a `phys_addr_t`. -/
def roundMask (c : MemConfig) (y : Nat) : Nat := (y + c.physMax) % 2 ^ c.bits

def roundUp (c : MemConfig) (x y : Nat) : Nat := (((x + c.physMax) % 2 ^ c.bits ||| c.roundMask y) + 1) % 2 ^ c.bits

def roundDown (c : MemConfig) (x y : Nat) : Nat := x &&& (c.physMax ^^^ c.roundMask y)

end MemConfig

def clamp (val lo hi : Nat) : Nat := min (max val lo) hi

section Find

variable (c : MemConfig) (start end_ size align : Nat)

/-- The loop of `__mem_find_range_bottom_up`. -/
def bottomUpLoop : List (Range Nat) → Nat
  | [] => 0
  | r :: rs =>
    let thisStart := clamp r.lo start end_
    let thisEnd := clamp r.hi start end_
    let cand := c.roundUp thisStart align
    if cand < thisEnd ∧ size ≤ thisEnd - cand then cand else bottomUpLoop rs

/-- `__mem_find_range_bottom_up`. -/
def memFindRangeBottomUp (s : MemState) : Option Nat :=
  (forEachFreeMemRange c.physMax s).map (bottomUpLoop c start end_ size align)

/-- The loop of `__mem_find_range_top_down`. -/
def topDownLoop : List (Range Nat) → Nat
  | [] => 0
  | r :: rs =>
    let thisStart := clamp r.lo start end_
    let thisEnd := clamp r.hi start end_
    if thisEnd < size then topDownLoop rs
    else
      let cand := c.roundDown (thisEnd - size) align
      if thisStart ≤ cand then cand else topDownLoop rs

/-- `__mem_find_range_top_down`. -/
def memFindRangeTopDown (s : MemState) : Option Nat :=
  (forEachFreeMemRangeReverse c.physMax s).map (topDownLoop c start end_ size align)

end Find

/-- `mem_find_in_range`; `MEM_ALLOC_ACCESSIBLE` is 0. -/
def memFindInRange (c : MemConfig) (s : MemState) (size align start end_ : Nat) : Option Nat :=
  let end_ := if end_ = 0 then c.physMax else end_
  -- avoid allocating the first page
  let start := max start c.pageSize
  let end_ := max start end_
  if c.bottomUp ∧ c.kernelEnd < end_ then
    (memFindRangeBottomUp c (max start c.kernelEnd) end_ size align s).bind fun ret =>
      if ret ≠ 0 then some ret else memFindRangeTopDown c start end_ size align s
  else memFindRangeTopDown c start end_ size align s

/-- `mem_alloc_range`: the state after it and the address, 0 when there is none. -/
def memAllocRange (c : MemConfig) (s : MemState) (size align start end_ : Nat) : Option (MemState × Nat) :=
  let align := if align = 0 then c.smpCacheBytes else align
  (memFindInRange c s size align start end_).bind fun found =>
    if found ≠ 0 then (memReserve s found size).map fun s => (s, found) else some (s, 0)

def memAlloc (c : MemConfig) (s : MemState) (size align : Nat) : Option (MemState × Nat) :=
  memAllocRange c s size align 0 0

end Sdfirm.Mem
