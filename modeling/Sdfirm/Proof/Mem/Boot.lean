import Sdfirm.Proof.Mem.HandOver
import Sdfirm.Proof.Page.Run

/-!
# From boot memory to the page allocator

What `mem_free_all` leaves meets the invariant of the page allocator, so that
regular runs can begin there (`memFreeAll_inv`).
-/

namespace Sdfirm.Page

/-- The states of regular runs in which no more memory is handed over. -/
def Later (pageShift : Nat) : Sys → Sys → Prop :=
  Relation.ReflTransGen fun y y' => y'.total = y.total ∧ ∃ op, Regular pageShift y op ∧ Step pageShift y op y'

theorem Later.inv {pageShift : Nat} {y y' : Sys} (h : Inv pageShift y) (hl : Later pageShift y y') :
    Inv pageShift y' ∧ y'.total = y.total := by
  induction hl with
  | refl => exact ⟨h, rfl⟩
  | tail _ hs ih =>
    obtain ⟨htotal, op, hreg, hs⟩ := hs
    exact ⟨hs.inv ih.1 hreg, htotal.trans ih.2⟩

end Sdfirm.Page

namespace Sdfirm.Mem

open Framework
open Page (PageState Inv Later alignUp alignDown)

variable {c : MemConfig} {endOf : Nat → Nat} {l : List (Range Nat)} {ps : PageState}

theorem Handed.inv (hsep : Range.Separated l) (hpage : ∀ r ∈ l, HasPage c r) (h : Handed c endOf l ps) :
    Inv c.pageShift ⟨ps, Range.cover ps.ranges, ∅⟩ := by
  have hpos := c.pageSize_pos
  refine ⟨⟨?_, ?_, Set.disjoint_empty _, Set.union_empty _⟩, ?_⟩
  · rw [Range.Separated, h.ranges_eq, List.pairwise_map]
    exact List.Pairwise.imp (fun hlt => (alignDown_le.trans_lt hlt).trans_le (le_alignUp hpos)) hsep
  · intro r' hr'
    rw [h.ranges_eq] at hr'
    obtain ⟨r, hr, rfl⟩ := List.mem_map.1 hr'
    exact hasPage_iff.1 (hpage r hr)
  · intro q hq
    rw [h.free] at hq
    obtain ⟨r, hr, rfl⟩ := List.mem_map.1 hq
    rw [h.ends r hr]
    exact ⟨Nat.dvd_mul_left _ _, Nat.dvd_mul_left _ _⟩

theorem memFreeAll_inv {b : Boot} (hb : b.Reach c) (hpage : ∀ m, Range.Maximal b.state.free m → HasPage c m) :
    ∃ ps, memFreeAll c b.state ⟨[], endOf⟩ = some ps ∧ Inv c.pageShift ⟨ps, pagesIn c b.state.free, ∅⟩ := by
  have hok := hb.ok
  obtain ⟨l, hl, -, hsep, hp, hcover⟩ := free_ranges hok.kept.memory.listed hok.kept.reserved.listed
  have hinit : Handed c endOf [] ⟨[], endOf⟩ := ⟨rfl, by simp, fun _ _ => rfl⟩
  rw [← hcover] at hpage
  have hpage' : ∀ r ∈ l, HasPage c r := fun r hr => hpage r ((Range.mem_iff_maximal hsep hp).1 hr)
  have hw : ∀ r ∈ l, alignUp r.lo c.pageSize < 2 ^ c.bits := by
    intro r hr
    have hlt := hp r hr
    have hlast : r.hi - 1 ∈ b.state.free := hcover ▸ ⟨r, hr, by omega, by omega⟩
    have hbelow := hok.kept.memory.below _ hlast.1
    have hend := (hasPage_iff.1 (hpage' r hr)).trans_le alignDown_le
    have := c.physMax_lt
    omega
  obtain ⟨ps, hps⟩ := handOver_total hinit hsep hp hw (nodup_starts hsep hpage')
  have hhanded : Handed c endOf l ps := handOver_some hinit hsep hp hw hps
  refine ⟨ps, by rw [memFreeAll, hl, Option.bind_some, hps], ?_⟩
  rw [← hcover, ← cover_rounded hsep hp, ← hhanded.ranges_eq]
  exact hhanded.inv hsep hpage'

theorem pagesIn_subset {S : Set Nat} : pagesIn c S ⊆ S := fun _ hx => hx ⟨alignDown_le, lt_alignDown_add c.pageSize_pos⟩

/-- In whatever order pages are allocated, written and freed after boot, the free and the held ones are the whole pages
of the memory that was free, each once, and none that is held is in a range reserved, or given out by `mem_alloc`. -/
theorem later_pages_apart (c : MemConfig) (b : Boot) (hb : b.Reach c) (endOf : Nat → Nat)
    (hpage : ∀ m, Range.Maximal b.state.free m → HasPage c m) :
    ∃ ps, memFreeAll c b.state ⟨[], endOf⟩ = some ps ∧
      ∀ y, Later c.pageShift ⟨ps, pagesIn c b.state.free, ∅⟩ y →
        Disjoint y.free y.held ∧ y.free ∪ y.held = pagesIn c b.state.free ∧
          Disjoint y.held b.state.reserved.cover ∧ ∀ r ∈ b.given, Disjoint y.held (Set.Ico r.lo r.hi) := by
  obtain ⟨ps, hps, hinv⟩ := memFreeAll_inv hb hpage
  refine ⟨ps, hps, fun y hy => ?_⟩
  obtain ⟨hy, htotal⟩ := hy.inv hinv
  have hheld : y.held ⊆ b.state.free := (hy.held_subset.trans htotal.subset).trans pagesIn_subset
  have hres : Disjoint y.held b.state.reserved.cover := Set.disjoint_left.2 fun x hx => (hheld hx).2
  exact ⟨hy.disjoint, hy.all.trans htotal, hres, fun r hr => hres.mono_right (hb.ok.reserved r hr)⟩

/-- The pages above the kernel. -/
theorem later_pages_apart_one : ∃ ps, memFreeAll config64 oneReserved ⟨[], fun _ => 0⟩ = some ps ∧
    ∀ y, Later 12 ⟨ps, pagesIn config64 oneReserved.free, ∅⟩ y → Disjoint y.held oneReserved.reserved.cover := by
  have h1 := Boot.Reach.init (c := config64) |>.call (.add 0 0x100000) (by decide) rfl
  have h2 : Boot.Reach config64 ⟨oneReserved, []⟩ := h1.call (.reserve 0 0x2000) (by decide) rfl
  obtain ⟨ps, hps, hy⟩ := later_pages_apart config64 _ h2 (fun _ => 0) <| by
    intro m hm
    obtain ⟨l, hl, -, hsep, hp, hcover⟩ := free_ranges h2.ok.kept.memory.listed h2.ok.kept.reserved.listed
    have hone : forEachFreeMemRange config64.physMax oneReserved = some [⟨0x2000, 0x100000⟩] := rfl
    obtain rfl := Option.some.inj (hl.symm.trans hone)
    rw [← hcover] at hm
    rw [List.mem_singleton.1 ((Range.mem_iff_maximal hsep hp).2 hm)]
    exact ⟨0x2000, by decide, by decide, by decide⟩
  exact ⟨ps, hps, fun y hl => (hy y hl).2.2.1⟩

end Sdfirm.Mem
