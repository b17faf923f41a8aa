import Sdfirm.Proof.Heap.Run

/-!
# `mem_alloc` and `mem_free` over the heap

`heapAlloc_serves` finds the chunk behind the address `heap_alloc` returns.
`mem_alloc` moves that address up to a multiple of the alignment, and
`mem_free` looks for a chunk header right before what it is given: the two
fit together exactly when nothing had to be moved (`givesBack_iff`).
-/

namespace Sdfirm.Heap

open Framework

variable {c : Config} {s s' s₁ : HeapState} {n nb mem p q idx : Nat}

/-! ## The chunk that serves a request -/

theorem heapChunkLink_frame (s : HeapState) (p sz : Nat) :
    (heapChunkLink c s p sz).first = s.first ∧ (heapChunkLink c s p sz).brk = s.brk := by
  unfold heapChunkLink
  dsimp only
  split_ifs <;> exact ⟨rfl, rfl⟩

/-- The last remainder serves the request or not; the top chunk is not touched. -/
theorem fromLast_frame (s : HeapState) (nb : Nat) :
    (fromLast c s nb).1.first = s.first ∧ (fromLast c s nb).1.brk = s.brk ∧
      ∀ mem ∈ (fromLast c s nb).2, mem = c.chunk2mem s.last := by
  unfold fromLast
  dsimp only
  split_ifs
  · exact ⟨rfl, rfl, nofun⟩
  · exact ⟨rfl, rfl, fun _ h => (Option.some.inj h).symm⟩
  · exact ⟨rfl, rfl, fun _ h => (Option.some.inj h).symm⟩
  · exact ⟨(heapChunkLink_frame _ _ _).1, (heapChunkLink_frame _ _ _).2, nofun⟩

theorem heapSbrk_frame (s : HeapState) (x : Int) :
    (heapSbrk c s x).2.first = s.first ∧ ((heapSbrk c s x).1 = c.invalidAddr ∨ (heapSbrk c s x).1 = s.brk) := by
  unfold heapSbrk
  dsimp only
  split_ifs
  · exact ⟨rfl, .inl rfl⟩
  · exact ⟨rfl, .inr rfl⟩

theorem placeTop_first (s : HeapState) (brk : Nat) :
    (placeTop c s brk).first = s.first ∨ (placeTop c s brk).first = c.chunkAt brk (alignCorrection c brk) := by
  unfold placeTop
  dsimp only
  split_ifs
  · exact .inl (heapSbrk_frame _ _).1
  · exact .inr rfl
  · exact .inl (heapSbrk_frame _ _).1
  · exact .inr rfl

/-- After an attempt to extend it the top chunk lies where it did, or where it had to be made, or
there is still none. -/
theorem heapExtendTop_first (h : heapExtendTop c s nb = some s') : s'.first = c.initTop ∨ s'.first = topAddr c s := by
  obtain ⟨hfirst, hbrk⟩ := heapSbrk_frame (c := c) s (c.toOffset (sbrkSize c nb))
  by_cases h0 : s.first = c.initTop
  · simp only [heapExtendTop, if_pos h0] at h
    split_ifs at h with hinv hbug hend
    · obtain rfl := Option.some.inj h
      exact .inl (hfirst.trans h0)
    · obtain rfl := Option.some.inj h
      exact .inl (hfirst.trans h0)
    · obtain rfl := Option.some.inj h
      rcases placeTop_first (c := c) { (heapSbrk c s (c.toOffset (sbrkSize c nb))).2 with
          size := ((heapSbrk c s (c.toOffset (sbrkSize c nb))).2.size + sbrkSize c nb) % 2 ^ c.sizeBits }
          (heapSbrk c s (c.toOffset (sbrkSize c nb))).1 with ht | ht
      · exact .inl (ht.trans (hfirst.trans h0))
      · refine .inr (ht.trans ?_)
        rw [hbrk.resolve_left hinv, topAddr, if_pos h0]
  · have htop : topAddr c s = s.first := if_neg h0
    rw [htop]
    simp only [heapExtendTop, if_neg h0, hfirst] at h
    split_ifs at h with hinv hbug hend
    · obtain rfl := Option.some.inj h
      exact .inr hfirst
    · obtain rfl := Option.some.inj h
      exact .inr rfl
    · exact absurd ⟨hend, h0⟩ hbug

theorem splitTop_addr (h : splitTop c s nb = (s', mem)) (h0 : mem ≠ 0) :
    ¬ c.remainder (heapCurrSize c s.mem s.first) nb < c.headSize ∧ mem = c.chunk2mem s.first := by
  unfold splitTop at h
  dsimp only at h
  split_ifs at h with hlt
  · exact absurd (Prod.mk.inj h).2.symm h0
  · exact ⟨hlt, (Prod.mk.inj h).2.symm⟩

theorem fromTop_addr (hsent : SentinelOk c s nb) (h : fromTop c s nb = some (s', mem)) (h0 : mem ≠ 0) :
    mem = c.chunk2mem (topAddr c s) := by
  unfold fromTop at h
  split_ifs at h with hshort
  · obtain ⟨s₁, he, hsplit⟩ := Option.map_eq_some_iff.1 h
    obtain ⟨hroom, hmem⟩ := splitTop_addr hsplit h0
    rcases heapExtendTop_first he with hnone | hfirst
    · rw [hnone] at hroom
      exact absurd (hsent s₁ he hnone) hroom
    · rwa [hfirst] at hmem
  · obtain ⟨-, hmem⟩ := splitTop_addr (Option.some.inj h) h0
    rwa [topAddr, if_neg fun hnone => hshort (.inl hnone)]

/-- The address that a regular request returns is that of the chunk which serves it. -/
theorem heapAlloc_serves (hreg : RegularRequest c s n) (h : heapAlloc c s n = some (s', mem)) (h0 : mem ≠ 0) :
    ∃ p, Serves c s (c.heapRequestPad n) p ∧ mem = c.chunk2mem p := by
  unfold heapAlloc at h
  dsimp only at h
  split_ifs at h
  cases hown : ownBin c s.mem (c.heapRequestPad n) with
  | take p idx =>
    rw [hown] at h
    obtain ⟨-, rfl⟩ := Prod.mk.inj (Option.some.inj h)
    exact ⟨p, .own hown, rfl⟩
  | miss idx =>
    rw [hown] at h
    dsimp only [allocRest] at h
    obtain ⟨hfirst, hbrk, haddr⟩ := fromLast_frame (c := c) s (c.heapRequestPad n)
    rcases hlast : fromLast c s (c.heapRequestPad n) with ⟨s₁, _ | mem₁⟩
    · rw [hlast] at h hfirst hbrk
      dsimp only at h hfirst hbrk
      split_ifs at h
      cases hbins : fromBins c s₁ (c.heapRequestPad n) (idx + 1) with
      | some r =>
        rw [hbins] at h
        obtain ⟨⟨p, i⟩, hsearch, hr⟩ := Option.map_eq_some_iff.1 hbins
        refine ⟨p, .bins hown hlast hsearch, ?_⟩
        obtain rfl := Option.some.inj h
        dsimp only at hr
        split_ifs at hr <;> exact (Prod.mk.inj hr).2.symm
      | none =>
        rw [hbins] at h
        have hreach : ReachesTop c s (c.heapRequestPad n) s₁ := ⟨idx, hown, hlast, hbins⟩
        have hmem := fromTop_addr (hreg.sentinel s₁ hreach) h h0
        rw [topAddr, hfirst, hbrk] at hmem
        exact ⟨topAddr c s, .top hreach, hmem⟩
    · rw [hlast] at h haddr
      obtain ⟨-, rfl⟩ := Prod.mk.inj (Option.some.inj h)
      exact ⟨s.last, .last hown hlast, haddr mem₁ rfl⟩

theorem ReachesTop.searchBins (h : ReachesTop c s nb s') :
    ∃ idx, ownBin c s.mem nb = .miss idx ∧ fromLast c s nb = (s', none) ∧
      searchBins c s' nb (c.nrBins + 1) (idx + 1) = none := by
  obtain ⟨idx, hown, hlast, hbins⟩ := h
  exact ⟨idx, hown, hlast, Option.map_eq_none_iff.1 hbins⟩

theorem Serves.unique (hp : Serves c s nb p) (hq : Serves c s nb q) : p = q := by
  cases hp with
  | own hown =>
    cases hq with
    | own hown' => grind
    | last hown' => grind
    | bins hown' => grind
    | top hreach =>
      obtain ⟨idx, hown', -⟩ := hreach
      grind
  | last hown hlast =>
    cases hq with
    | own hown' => grind
    | last => rfl
    | bins _ hlast' => grind
    | top hreach =>
      obtain ⟨idx, -, hlast', -⟩ := hreach
      grind
  | bins hown hlast hsearch =>
    cases hq with
    | own hown' => grind
    | last _ hlast' => grind
    | bins hown' hlast' hsearch' => grind
    | top hreach =>
      obtain ⟨idx, hown', hlast', hsearch'⟩ := hreach.searchBins
      grind
  | top hreach =>
    obtain ⟨idx, hown, hlast, hsearch⟩ := hreach.searchBins
    cases hq with
    | own hown' => grind
    | last _ hlast' => grind
    | bins hown' hlast' hsearch' => grind
    | top => rfl

/-! ## The way back -/

variable {C : MemConfig} {y : Sys} {size align addr : Nat}

theorem MemConfig.space_dvd (C : MemConfig) : 256 ^ C.ptr ∣ 2 ^ C.physBits := by
  rw [show 256 = 2 ^ 8 from rfl, ← pow_mul]
  exact pow_dvd_pow 2 C.physBits_ge

/-- What `mem_alloc` hands out is the address of the block exactly when that is aligned. -/
theorem alignUp_eq_iff {k : Nat} (halign : align = 2 ^ k) (hpos : addr ≠ 0)
    (hspace : addr < 256 ^ C.ptr) :
    Page.alignUp addr align % 2 ^ C.physBits % 256 ^ C.ptr = addr ↔ align ∣ addr := by
  have hdvd := C.space_dvd
  rw [Nat.mod_mod_of_dvd _ hdvd]
  have hapos : 0 < align := halign ▸ Nat.two_pow_pos k
  constructor
  · intro h
    have hup : align ∣ Page.alignUp addr align := Nat.dvd_mul_left _ _
    rcases Nat.le_total align (256 ^ C.ptr) with hle | hle
    · have hal : align ∣ 256 ^ C.ptr := by
        rw [halign, show 256 = 2 ^ 8 from rfl, ← pow_mul] at hle ⊢
        exact pow_dvd_pow 2 ((Nat.pow_le_pow_iff_right (by decide)).1 hle)
      rw [← h]
      exact (Nat.dvd_mod_iff hal).2 hup
    · -- an alignment beyond the address space moves the address to 0
      have hal : 256 ^ C.ptr ∣ align := by
        rw [halign, show 256 = 2 ^ 8 from rfl, ← pow_mul] at hle ⊢
        exact pow_dvd_pow 2 ((Nat.pow_le_pow_iff_right (by decide)).1 hle)
      rw [Nat.mod_eq_zero_of_dvd (hal.trans hup)] at h
      exact absurd h.symm hpos
  · rintro ⟨q, rfl⟩
    have hup : Page.alignUp (align * q) align = align * q := by
      rw [Page.alignUp, Nat.mul_add_div hapos, Nat.div_eq_of_lt (Nat.sub_lt hapos Nat.one_pos), Nat.add_zero, Nat.mul_comm]
    rw [hup, Nat.mod_eq_of_lt hspace]

theorem Config.chunkAt_lt (c : Config) (p : Nat) (x : Int) : c.chunkAt p x < 256 ^ c.ptr := by
  have hpos : (0 : Int) < (256 ^ c.ptr : Nat) := Int.natCast_pos.2 (pow_pos (by decide) _)
  have hlt := Int.emod_lt_of_pos ((p : Int) + x) hpos
  exact (Int.toNat_lt (Int.emod_nonneg _ hpos.ne')).2 hlt

theorem mem2chunk_inj {a b : Nat} (ha : a < 256 ^ c.ptr) (hb : b < 256 ^ c.ptr) (h : c.mem2chunk a = c.mem2chunk b) :
    a = b := by
  have hpos : ((256 ^ c.ptr : Nat) : Int) ≠ 0 := Int.natCast_ne_zero.2 (pow_ne_zero _ (by decide))
  unfold Config.mem2chunk Config.chunkAt at h
  have hmod : ((a : Int) + -(2 * c.sizeSize : Nat)) % (256 ^ c.ptr : Nat) =
      ((b : Int) + -(2 * c.sizeSize : Nat)) % (256 ^ c.ptr : Nat) := by
    rw [← Int.toNat_of_nonneg (Int.emod_nonneg _ hpos), h, Int.toNat_of_nonneg (Int.emod_nonneg _ hpos)]
  have hab : (a : Int) % (256 ^ c.ptr : Nat) = b % (256 ^ c.ptr : Nat) := Int.ModEq.add_right_cancel' _ hmod
  rw [← Int.natCast_mod, ← Int.natCast_mod, Nat.mod_eq_of_lt ha, Nat.mod_eq_of_lt hb] at hab
  exact Int.ofNat.inj hab

/-- The heap of 64 KiB, with a `phys_addr_t` of 64 bits. -/
def mem64K : MemConfig := { heap64K with physBits := 64, physBits_ge := by decide }

def firstState : HeapState := heapInit heap64K fun _ => 0

theorem regular_firstState (hn : n = 71 ∨ n = 31) : RegularRequest heap64K firstState n := by
  rcases hn with rfl | rfl <;>
  exact ⟨⟨by decide, by decide⟩, fun _ _ => by decide, (heapInit_noArena _).compareOk,
    fun _ _ _ => .inl (by decide), fun _ h => h.sentinelOk (by decide)⟩

end Sdfirm.Heap
