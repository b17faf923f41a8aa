import Mathlib
import Sdfirm.Impl.Mem

/-!
# The page allocator (`kernel/page.c`)

`page_free_list` is the list of the addresses of its `struct page` nodes,
each stored in the first page of the free range it stands for, and `endOf`
is the `end` field at each address. Addresses are natural numbers; the ends
of the ranges fit `phys_addr_t`. `0` is `NULL`, and a list walk
(`list_for_each_entry`, `list_for_each_entry_safe`) that comes to a node at
address 0 stops there. The body that `goto again` repeats carries a bound on
its repetitions, with `none` past it, and `none` also stands for a broken list.
-/

namespace Sdfirm.Page

/-- `page_free_list` and the `end` fields. -/
structure PageState where
  free : List Nat
  endOf : Nat → Nat

/-- `list_add_tail(&page->link, &curr->link)`. -/
def addBefore (curr page : Nat) : List Nat → List Nat
  | [] => []
  | x :: xs => if x = curr then page :: x :: xs else x :: addBefore curr page xs

/-- How an iteration of `page_insert` ends: `goto exit_lock`, or on to the next node. -/
inductive Outcome where
  | exit (s : PageState)
  | next

/-- The body of `page_insert`'s loop from the label `again` on. -/
def again : Nat → PageState → (curr next page : Nat) → Option Outcome
  | 0, _, _, _, _ => none
  | fuel + 1, s, curr, next, page =>
    if page = s.endOf curr then
      let s := { s with endOf := Function.update s.endOf curr (s.endOf curr + (s.endOf page - page)) }
      -- `page` is now the node after `curr`, `NULL` when there is none
      if s.endOf curr = next then again fuel { s with free := s.free.erase next } curr next next
      else some (.exit s)
    else if page < curr then
      let s := { s with free := addBefore curr page s.free }
      if curr = s.endOf page then again fuel { s with free := s.free.erase curr } page next curr
      else some (.exit s)
    else some .next

/-- The loop of `page_insert` over the nodes from `rest` on. -/
def insertLoop (s : PageState) (page : Nat) : List Nat → Option PageState
  | [] => some { s with free := s.free ++ [page] }
  | curr :: rest =>
    if curr = 0 then some { s with free := s.free ++ [page] }
    else (again 4 s curr (rest.headD 0) page).bind fun
      | .exit s' => some s'
      | .next => insertLoop s page rest

/-- `page_insert`; on a page of the list `INIT_LIST_HEAD` closes its link on itself, and there is no list any more. -/
def pageInsert (s : PageState) (page : Nat) : Option PageState :=
  if page ∈ s.free then none else insertLoop s page s.free

variable (pageShift : Nat)

/-- `page_nr`, whose result is cut to an `int`. -/
def pageNr (s : PageState) (page : Nat) : Int :=
  (((s.endOf page - page) >>> pageShift : Nat) : Int).bmod (2 ^ 32)

def pageOffset (page nrPages : Nat) : Nat := page + nrPages <<< pageShift

/-- The loop of `page_alloc_pages` over the nodes from `rest` on. -/
def allocLoop (s : PageState) (nrPages : Nat) : List Nat → Option (Nat × PageState)
  | [] => some (0, s)
  | pos :: rest =>
    if pos = 0 then some (0, s)
    else
      let nr := pageNr pageShift s pos
      if nr = nrPages then some (pos, { s with free := s.free.erase pos })
      else if (nrPages : Int) < nr then
        let page := pageOffset pageShift pos nrPages
        (pageInsert ⟨s.free.erase pos, Function.update s.endOf page (s.endOf pos)⟩ page).map (pos, ·)
      else allocLoop s nrPages rest

/-- `page_alloc_pages`, for an `int` that is not negative: the page returned, `0` for
`NULL`, and the state after it. -/
def pageAllocPages (s : PageState) (nrPages : Nat) : Option (Nat × PageState) :=
  if nrPages = 0 then some (0, s) else allocLoop pageShift s nrPages s.free

def pageFreePages (s : PageState) (page nrPages : Nat) : Option PageState :=
  if nrPages = 0 then some s
  else pageInsert { s with endOf := Function.update s.endOf page (pageOffset pageShift page nrPages) } page

def alignUp (x a : Nat) : Nat := (x + (a - 1)) / a * a

def alignDown (x a : Nat) : Nat := x / a * a

def pageAllocInit (s : PageState) (base size : Nat) : Option PageState :=
  let page := alignUp base (2 ^ pageShift)
  pageInsert { s with endOf := Function.update s.endOf page (alignDown (base + size) (2 ^ pageShift)) } page

end Sdfirm.Page

/-!
## The hand-over of memory to the page allocator (`mem_free_all`)

`page_alloc_init` is taken here on the addresses of the build, so that
`ALIGN_UP` wraps; `reserve_bootmem_region` is empty, and so is the loop over
the reserved regions.
-/

namespace Sdfirm.Mem

open Framework (Range)
open Page (PageState pageInsert alignUp alignDown)

/-- The `struct page` that `page_alloc_init` writes. -/
def firstPage (c : MemConfig) (base : Nat) : Nat := alignUp base c.pageSize % 2 ^ c.bits

def pageAllocInit (c : MemConfig) (ps : PageState) (base size : Nat) : Option PageState :=
  let page := firstPage c base
  pageInsert { ps with endOf := Function.update ps.endOf page (alignDown (base + size) c.pageSize) } page

/-- The loop of `mem_free_all`. -/
def handOver (c : MemConfig) : PageState → List (Range Nat) → Option PageState
  | ps, [] => some ps
  | ps, r :: rs => (pageAllocInit c ps r.lo (r.hi - r.lo)).bind fun ps => handOver c ps rs

def memFreeAll (c : MemConfig) (s : MemState) (ps : PageState) : Option PageState :=
  (forEachFreeMemRange c.physMax s).bind (handOver c ps)

end Sdfirm.Mem
