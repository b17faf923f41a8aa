import Sdfirm.Proof.Heap.Alloc

/-!
# The top chunk

`heap_extend_top` moves the break up by what it was asked for, or not at all
(`heapSbrk_cases`). An arena keeps its chunks and gets a larger top
(`extendTop_ready`); a heap without one gets an empty arena or stays as it is
(`extendTop_noArena`). The top then serves the request when it is large enough
(`fromTop_spec`).
-/

namespace Sdfirm.Heap

open Framework

variable {c : Config} {s s' : HeapState} {a topSize nb inc : Nat} {k : Chunk} {cs : List Chunk} {out : Nat → Prop}

/-! ## The break -/

/-- An increment of the break that is not negative is made in full or refused. -/
theorem heapSbrk_cases (hs : c.heapSize ≤ 0x7FFFFFFF) (h1 : c.start ≤ s.brk) (h2 : s.brk ≤ c.stop) (hinc : inc < 2 ^ 31) :
    heapSbrk c s inc = (c.invalidAddr, s) ∧ c.stop < s.brk + inc ∨
    heapSbrk c s inc = (s.brk, { s with brk := s.brk + inc }) ∧ s.brk + inc ≤ c.stop := by
  have hsp := c.space_ge
  have hst := c.stop_lt_space
  have hstop : c.stop = c.start + c.heapSize := rfl
  by_cases hw : s.brk + inc < 256 ^ c.ptr
  · have hnew := Config.chunkAt_add hw
    simp only [heapSbrk, hnew]
    by_cases hfit : s.brk + inc ≤ c.stop
    · exact .inr ⟨if_neg (by omega), hfit⟩
    · exact .inl ⟨if_pos (by omega), by omega⟩
  · -- a sum that wraps around ends below the start of the heap
    have hnew : c.chunkAt s.brk inc = s.brk + inc - 256 ^ c.ptr := by
      have : ((s.brk : Int) + inc) % (256 ^ c.ptr : Nat) = (s.brk : Int) + inc - (256 ^ c.ptr : Nat) := by
        rw [← Int.sub_emod_right]
        exact Int.emod_eq_of_lt (by omega) (by omega)
      rw [Config.chunkAt, this]
      omega
    simp only [heapSbrk, hnew]
    exact .inl ⟨if_pos (by omega), by omega⟩

/-- A size that is not negative as a `heap_offset_t` is kept by the conversion. -/
theorem toOffset_of_nonneg (hs : c.heapSize ≤ 0x7FFFFFFF) {x : Nat} (hx : x < 2 ^ c.sizeBits)
    (h : 0 ≤ c.toOffset x) : c.toOffset x = x ∧ x < 2 ^ 31 := by
  unfold Config.toOffset at h ⊢
  rcases Config.sizeBits_cases hs with ⟨h1, h1'⟩ | ⟨h1, h1'⟩ <;>
    rcases Config.offsetBits_cases hs with ⟨h2, h2'⟩ | ⟨h2, h2'⟩ <;> rw [h1] at hx <;> rw [h2] at h ⊢ <;>
    simp only [Int.bmod] at h ⊢ <;> split at h <;> omega

theorem sbrkSize_lt (c : Config) (nb : Nat) : sbrkSize c nb < 2 ^ c.sizeBits := Nat.mod_lt _ (Nat.two_pow_pos _)

theorem sbrkSize_dvd (hs : c.heapSize ≤ 0x7FFFFFFF) (h8 : 8 ∣ nb) : 4 ∣ sbrkSize c nb := by
  have hg := Config.geometry hs
  unfold sbrkSize
  rcases Config.sizeBits_cases hs with ⟨h, -⟩ | ⟨h, -⟩ <;> rw [h] <;> omega

/-- The first attempt of `heap_extend_top` to move the break. -/
theorem heapSbrk_sbrkSize (hs : c.heapSize ≤ 0x7FFFFFFF) (h1 : c.start ≤ s.brk) (h2 : s.brk ≤ c.stop)
    (hok : IncrementOk c s nb) : (heapSbrk c s (c.toOffset (sbrkSize c nb))).1 = c.invalidAddr ∧
      (heapSbrk c s (c.toOffset (sbrkSize c nb))).2 = s ∨
    heapSbrk c s (c.toOffset (sbrkSize c nb)) = (s.brk, { s with brk := s.brk + sbrkSize c nb }) ∧
      s.brk + sbrkSize c nb ≤ c.stop := by
  rcases hok with hpos | hfail
  · obtain ⟨he, hlt⟩ := toOffset_of_nonneg hs (sbrkSize_lt c nb) hpos
    rw [he]
    rcases heapSbrk_cases hs h1 h2 hlt with ⟨h, -⟩ | h
    · rw [h]
      exact .inl ⟨rfl, rfl⟩
    · exact .inr h
  · refine .inl ⟨hfail, ?_⟩
    have hst := c.stop_lt_space
    unfold heapSbrk at hfail ⊢
    simp only at hfail ⊢
    split
    · rfl
    · rename_i hc
      rw [if_neg hc] at hfail
      unfold Config.invalidAddr at hfail
      simp only at hfail
      omega

/-! ## Extension -/

/-- The header of the top chunk is rewritten. -/
theorem Held.setTop (hs : c.heapSize ≤ 0x7FFFFFFF) (h : Held c s a cs topSize out) {sz brk : Nat} (h4 : 4 ∣ sz)
    (hbrk : s.first + sz = brk) (hend : brk ≤ c.stop) (hge : topSize ≤ sz) (size : Nat) :
    Held c { s with brk := brk, size := size, mem := heapSetHead c s.mem s.first sz } a cs sz out := by
  obtain ⟨B, hB⟩ := h.core
  have hg := Config.geometry hs
  have htl := h.top_le
  have hle : sz ≤ c.heapSize := by
    have h1 := h.start_le
    have h2 := h.tiles.1.le
    unfold Config.stop at hend
    omega
  have hlt := Config.word_lt hs hle (by omega)
  have hm : heapSetHead c s.mem s.first sz = s.mem.store (s.first + c.sizeSize) c.sizeSize (sz + 1) :=
    heapSetHead_eq htl (by omega)
  have hagree : ∀ x, x < s.first + c.sizeSize ∨ s.first + 2 * c.sizeSize ≤ x →
      heapSetHead c s.mem s.first sz x = s.mem x := by
    intro x hx
    rw [hm]
    exact Mem.store_agree s.mem _ _ _ (b := x) (c := x + 1) (by omega) x le_rfl (by omega)
  refine ⟨⟨h.tiles.1.congr hs fun x _ hx _ => hagree x (.inl hx), ?_⟩, ⟨B, ?_⟩, h.start_le, h.base_le, htl, hbrk,
    hend, h4, fun hne => (h.top_ge hne).trans hge⟩
  · change Mem.load (heapSetHead c s.mem s.first sz) _ _ = _
    rw [hm, Mem.load_store_self, Nat.mod_eq_of_lt hlt]
  · have hwin : Core c (heapSetHead c s.mem s.first sz) s.blocks (cs ++ []) B out :=
      Core.window_end (w := []) hs (by simpa using h.layout hs) (by simpa using hB)
        (fun j hj => (h.tiles.1.bounds hj).2) (h.start_le.trans h.tiles.1.le) htl hagree (by simp) (by simp)
        (fun _ _ _ => Iff.rfl)
    simpa using hwin

theorem initTop_gt (c : Config) : c.stop < c.initTop := by
  have := c.stop_lt_space
  unfold Config.initTop Config.invalidAddr
  omega

theorem Held.first_ne (h : Held c s a cs topSize out) : s.first ≠ c.initTop := by
  have h1 := h.top_le
  have h2 := initTop_gt c
  omega

/-- The top chunk of an arena is extended, or left as it is. -/
theorem extendTop_ready (hs : c.heapSize ≤ 0x7FFFFFFF) (h : Ready c s a cs topSize) (h8 : 8 ∣ nb)
    (hok : IncrementOk c s nb) (he : heapExtendTop c s nb = some s') : ∃ topSize', Ready c s' a cs topSize' := by
  have hne := h.held.first_ne
  have htop := h.held.topSize_eq
  have hte := h.held.top_end
  have hbl := h.held.brk_le
  have hsp := c.stop_lt_space
  have hstart : c.start ≤ s.brk := by
    have h1 := h.held.start_le
    have h2 := h.held.tiles.1.le
    omega
  have hinv : s.brk ≠ c.invalidAddr := by
    have := initTop_gt c
    unfold Config.initTop at this
    omega
  have hend : c.chunkAt s.first topSize = s.brk := by
    rw [Config.chunkAt_add (by omega), hte]
  simp only [heapExtendTop, if_neg hne, htop, hend] at he
  rcases heapSbrk_sbrkSize hs hstart hbl hok with ⟨h1, h2⟩ | ⟨h1, h2⟩
  · rw [h1, h2, if_pos rfl] at he
    cases he
    exact ⟨topSize, h⟩
  · rw [h1] at he
    simp only [if_neg hinv, ne_eq, not_true_eq_false, false_and, if_false, if_true] at he
    cases he
    have hsize : (sbrkSize c nb + topSize) % 2 ^ c.sizeBits = sbrkSize c nb + topSize := by
      refine Nat.mod_eq_of_lt (lt_of_le_of_lt ?_ (Config.heapSize_lt hs))
      unfold Config.stop at h2
      have h3 := h.held.start_le
      have h4 := h.held.tiles.1.le
      omega
    have h4 := sbrkSize_dvd hs h8
    refine ⟨sbrkSize c nb + topSize, ?_, h.last_free⟩
    rw [hsize]
    exact h.held.setTop hs (Nat.dvd_add h4 h.held.top_dvd) (by omega) h2 (Nat.le_add_left _ _) _

theorem alignCorrection_spec (c : Config) (brk : Nat) :
    alignCorrection c brk < 8 ∧ (brk + alignCorrection c brk + 2 * c.sizeSize) % 8 = 0 := by
  have hdvd : 8 ∣ 256 ^ c.ptr := by
    rcases c.ptr_cases with h | h <;> rw [h] <;> norm_num
  have hmis : c.chunk2mem brk % 8 = (brk + 2 * c.sizeSize) % 8 := by
    have hmem : c.chunk2mem brk = (brk + 2 * c.sizeSize) % 256 ^ c.ptr := by
      rw [Config.chunk2mem, Config.chunkAt, ← Int.natCast_add, ← Int.natCast_mod]
      exact Int.toNat_natCast _
    rw [hmem, Nat.mod_mod_of_dvd _ hdvd]
  simp only [alignCorrection, hmis]
  split <;> omega

theorem alignedBrk_add {c : Config} {brk n : Nat} (h : 8 ∣ n) : alignedBrk c (brk + n) = alignedBrk c brk + n := by
  have h1 := alignCorrection_spec c brk
  have h2 := alignCorrection_spec c (brk + n)
  unfold alignedBrk
  omega

/-- The top chunk of a new arena has room for its header. -/
theorem NoArena.top_le (hs : c.heapSize ≤ 0x7FFFFFFF) (h : NoArena c s) (h8 : 8 ∣ nb)
    (hend : alignedBrk c s.brk + sbrkSize c nb ≤ c.stop) : alignedBrk c s.brk + 2 * c.sizeSize ≤ c.stop := by
  have hg := Config.geometry hs
  have h1 := alignCorrection_spec c s.brk
  have h2 := c.heapSize_ge
  have hmod : sbrkSize c nb % 8 = c.headSize % 8 := by
    unfold sbrkSize
    rcases Config.sizeBits_cases hs with ⟨h, -⟩ | ⟨h, -⟩ <;> rw [h] <;> omega
  rcases h.brk_eq with hb | hb
  · unfold alignedBrk Config.stop at *
    omega
  · by_cases h8' : 8 ∣ c.headSize
    · have := hb h8'
      omega
    · omega

/-- The first header of a new arena is written. -/
theorem NoArena.setTop (hs : c.heapSize ≤ 0x7FFFFFFF) (h : NoArena c s) {t sz brk base : Nat} (h4 : 4 ∣ sz)
    (hbrk : t + sz = brk) (hend : brk ≤ c.stop) (hstart : c.start ≤ t) (htop : t + 2 * c.sizeSize ≤ c.stop)
    (hbase : base ≤ t) (size : Nat) :
    Ready c { s with brk := brk, base := base, size := size, first := t, mem := heapSetHead c s.mem t sz } t [] sz := by
  obtain ⟨B, hB⟩ := h.core
  have hlt := Config.word_lt hs (by unfold Config.stop at hend; omega : sz ≤ c.heapSize) (by omega)
  have hm : heapSetHead c s.mem t sz = s.mem.store (t + c.sizeSize) c.sizeSize (sz + 1) := heapSetHead_eq htop (by omega)
  refine ⟨⟨⟨⟨rfl, rfl⟩, ?_⟩, ⟨B, ?_⟩, hstart, hbase, htop, hbrk, hend, h4, fun h => absurd rfl h⟩, fun h0 => absurd h.last_eq h0⟩
  · change Mem.load (heapSetHead c s.mem t sz) _ _ = _
    rw [hm, Mem.load_store_self, Nat.mod_eq_of_lt hlt]
  · refine Core.window_end (l := []) (w := []) hs ⟨.nil, by simp, by simp⟩ hB (by simp) hstart htop (fun x hx => ?_) (by simp)
      (by simp) (by simp)
    change heapSetHead c s.mem t sz x = s.mem x
    rw [hm]
    exact Mem.store_agree s.mem _ _ _ (b := x) (c := x + 1) (by omega) x le_rfl (by omega)

/-- The space obtained at the old break `brk` becomes an empty arena, or the alignment does
not fit. -/
theorem placeTop_spec (hs : c.heapSize ≤ 0x7FFFFFFF) {brk : Nat} (h : NoArena c { s with brk := brk }) (h8 : 8 ∣ nb)
    (hbrk : s.brk = brk + sbrkSize c nb) (hend : s.brk ≤ c.stop) :
    NoArena c (placeTop c s brk) ∨ ∃ a topSize, Ready c (placeTop c s brk) a [] topSize := by
  have hcorr := alignCorrection_spec c brk
  have hsl : c.start ≤ brk := h.start_le
  have hoff : c.toOffset (alignCorrection c brk : Nat) = (alignCorrection c brk : Nat) :=
    Config.toOffset_eq hs (by omega) (by have := c.heapSize_ge; omega)
  have hbase : (if s.base = c.invalidAddr then brk else s.base) ≤ brk := by
    split
    · exact le_rfl
    · rename_i hne
      exact h.base_le.resolve_left hne
  simp only [placeTop, hoff]
  rcases heapSbrk_cases (s := { s with base := if s.base = c.invalidAddr then brk else s.base }) hs
    (by change c.start ≤ s.brk; omega) hend (by omega : alignCorrection c brk < 2 ^ 31) with ⟨h3, h4⟩ | ⟨h3, h4⟩
  · rw [h3]
    simp only [if_true]
    refine .inl ⟨h.first_eq, h.last_eq, h.core, by change c.start ≤ s.brk; omega, hend, .inr ?_, .inr fun hd => ?_⟩
    · exact hbase.trans (by change brk ≤ s.brk; omega)
    · have hd' : 8 ∣ sbrkSize c nb := by
        unfold sbrkSize
        rcases Config.sizeBits_cases hs with ⟨hb, -⟩ | ⟨hb, -⟩ <;> rw [hb] <;> omega
      change c.stop < alignedBrk c s.brk
      rw [hbrk, alignedBrk_add hd', alignedBrk]
      change c.stop < s.brk + alignCorrection c brk at h4
      omega
  · rw [h3]
    change s.brk + alignCorrection c brk ≤ c.stop at h4
    have hst := c.stop_lt_space
    have hinv : s.brk ≠ c.invalidAddr := by
      unfold Config.invalidAddr
      omega
    have hat : c.chunkAt brk (alignCorrection c brk : Nat) = brk + alignCorrection c brk := Config.chunkAt_add (by omega)
    have hsize : c.toSize ((s.brk : Int) + (alignCorrection c brk : Nat) - ((brk + alignCorrection c brk : Nat) : Int)) =
        sbrkSize c nb := by
      rw [← Config.toSize_natCast (sbrkSize_lt c nb)]
      congr 1
      omega
    simp only [hinv, if_false, hat, hsize]
    have htop : brk + alignCorrection c brk + 2 * c.sizeSize ≤ c.stop :=
      h.top_le hs h8 (by change brk + alignCorrection c brk + sbrkSize c nb ≤ c.stop; omega)
    exact .inr ⟨_, _, h.setTop (t := brk + alignCorrection c brk) hs (sbrkSize_dvd hs h8) (by omega) h4 (by omega) htop
      (by omega) _⟩

/-- A heap without an arena gets an empty one, or stays without. -/
theorem extendTop_noArena (hs : c.heapSize ≤ 0x7FFFFFFF) (h : NoArena c s) (h8 : 8 ∣ nb)
    (hok : IncrementOk c s nb) (he : heapExtendTop c s nb = some s') :
    NoArena c s' ∨ ∃ a topSize, Ready c s' a [] topSize := by
  have hst := c.stop_lt_space
  have hpos := c.start_pos
  have hbl := h.brk_le
  have hsl := h.start_le
  have hinv : s.brk ≠ c.invalidAddr := by
    unfold Config.invalidAddr
    omega
  simp only [heapExtendTop, if_pos h.first_eq] at he
  rcases heapSbrk_sbrkSize hs hsl hbl hok with ⟨h1, h2⟩ | ⟨h1, h2⟩
  · rw [h1, h2, if_pos rfl] at he
    cases he
    exact .inl h
  · rw [h1] at he
    simp only [hinv, h.first_eq, ne_eq, not_true_eq_false, and_false, if_false] at he
    rw [if_neg (by omega)] at he
    cases he
    refine placeTop_spec hs ?_ h8 rfl h2
    exact ⟨rfl, h.last_eq, h.core, hsl, hbl, h.base_le, h.brk_eq⟩

/-- `heap_extend_top` does not come to its `BUG_ON`: the break is the end of the top chunk. -/
theorem heapExtendTop_isSome (hs : c.heapSize ≤ 0x7FFFFFFF) (h : Chunks c s cs) (hok : IncrementOk c s nb) :
    ∃ s', heapExtendTop c s nb = some s' := by
  have hsp := c.stop_lt_space
  simp only [heapExtendTop]
  rcases h with ⟨h, -⟩ | ⟨a, topSize, h⟩
  · rcases heapSbrk_sbrkSize hs h.start_le h.brk_le hok with ⟨h1, h2⟩ | ⟨h1, -⟩
    · rw [h1, if_pos rfl]
      exact ⟨_, rfl⟩
    · rw [h1]
      simp only [h.first_eq, ne_eq, not_true_eq_false, and_false, if_false, if_true]
      split
      · exact ⟨_, rfl⟩
      · split <;> exact ⟨_, rfl⟩
  · have hte := h.held.top_end
    have hbl := h.held.brk_le
    have hstart : c.start ≤ s.brk := by
      have h1 := h.held.start_le
      have h2 := h.held.tiles.1.le
      omega
    have hend : c.chunkAt s.first topSize = s.brk := by
      rw [Config.chunkAt_add (by omega), hte]
    simp only [if_neg h.held.first_ne, h.held.topSize_eq, hend]
    rcases heapSbrk_sbrkSize hs hstart hbl hok with ⟨h1, h2⟩ | ⟨h1, -⟩
    · rw [h1, if_pos rfl]
      exact ⟨_, rfl⟩
    · rw [h1]
      simp only [ne_eq, not_true_eq_false, false_and, if_false, if_true]
      split <;> exact ⟨_, rfl⟩

/-! ## A request at the top -/

/-- The top chunk serves a request it has room for. -/
theorem splitTop_spec (hs : c.heapSize ≤ 0x7FFFFFFF) (h : Ready c s a cs topSize) (h8 : 8 ∣ nb) (hmin : c.headSize ≤ nb)
    (hle : nb ≤ c.heapSize) :
    splitTop c s nb = (s, 0) ∨ Served c cs nb (splitTop c s nb).1 (splitTop c s nb).2 := by
  have hrem := Config.remainder_eq hs h.held.topSize_le hle
  have hte := h.held.top_end
  have hbl := h.held.brk_le
  have hst := c.stop_lt_space
  by_cases hfit : nb + c.headSize ≤ topSize
  · have hheld := h.held.splitTop hs h8 hmin hfit
    have hat : c.chunkAt s.first nb = s.first + nb := Config.chunkAt_add (by omega)
    have hsize : c.toSize ((topSize : Int) - nb) = topSize - nb := by
      rw [← Config.toSize_natCast (by have := Config.heapSize_lt hs; have := h.held.topSize_le; omega : topSize - nb < 2 ^ c.sizeBits)]
      congr 1
      omega
    have hnot : ¬ (topSize : Int) - nb < c.headSize := by omega
    have hmem : c.chunk2mem s.first = s.first + 2 * c.sizeSize := by
      have := h.held.top_le
      exact Config.chunkAt_add (by omega)
    simp only [splitTop, h.held.topSize_eq, hrem, hat, hsize, if_neg hnot]
    refine .inr ⟨a, _, _, ⟨s.first, nb, true⟩, hheld.ready (fun j hj hju => Iff.rfl) fun h0 => ?_, ⟨fun j hj => ?_, ?_⟩, rfl,
      le_rfl, hmem⟩
    · obtain ⟨j, hj, hju, hja⟩ := h.last_free h0
      exact ⟨j, List.mem_append_left _ hj, hju, hja⟩
    · rw [List.mem_append, List.mem_singleton, or_comm]
    · intro j hj _ e
      have h1 := h.held.tiles.1.bounds hj
      have h2 := (h.held.layout hs).size_ge j hj
      have hg := Config.geometry hs
      have e' : j.addr = s.first := e
      omega
  · have hlt : (topSize : Int) - nb < c.headSize := by omega
    left
    simp only [splitTop, h.held.topSize_eq, hrem, if_pos hlt]

/-- What `heap_alloc` leaves: the request is served, or it fails and the chunks are kept. -/
def AllocResult (c : Config) (cs : List Chunk) (nb : Nat) (s' : HeapState) (mem : Nat) : Prop :=
  mem = 0 ∧ Chunks c s' cs ∨ Served c cs nb s' mem

theorem splitTop_result (hs : c.heapSize ≤ 0x7FFFFFFF) (h : Ready c s a cs topSize) (h8 : 8 ∣ nb) (hmin : c.headSize ≤ nb)
    (hle : nb ≤ c.heapSize) : AllocResult c cs nb (splitTop c s nb).1 (splitTop c s nb).2 := by
  rcases splitTop_spec hs h h8 hmin hle with he | hserved
  · rw [he]
    exact .inl ⟨rfl, .inr ⟨a, topSize, h⟩⟩
  · exact .inr hserved

theorem fromTop_spec (hs : c.heapSize ≤ 0x7FFFFFFF) (h : Chunks c s cs) (h8 : 8 ∣ nb) (hmin : c.headSize ≤ nb)
    (hle : nb ≤ c.heapSize) (hinc : TopShort c s nb → IncrementOk c s nb) (hsent : SentinelOk c s nb) {mem : Nat}
    (hf : fromTop c s nb = some (s', mem)) : AllocResult c cs nb s' mem := by
  unfold fromTop at hf
  rcases h with ⟨h, rfl⟩ | ⟨a, topSize, h⟩
  · have hshort : TopShort c s nb := .inl h.first_eq
    rw [if_pos hshort] at hf
    obtain ⟨s₁, he, hf⟩ := Option.map_eq_some_iff.1 hf
    rcases extendTop_noArena hs h h8 (hinc hshort) he with h₁ | ⟨a, topSize, h₁⟩
    · -- the header read at `heap_init_top` has no room
      have hlt := hsent s₁ he h₁.first_eq
      rw [← h₁.first_eq] at hlt
      simp only [splitTop, if_pos hlt, Prod.mk.injEq] at hf
      obtain ⟨rfl, rfl⟩ := hf
      exact .inl ⟨rfl, .inl ⟨h₁, rfl⟩⟩
    · have := splitTop_result hs h₁ h8 hmin hle
      rwa [hf] at this
  · split at hf
    · rename_i hshort
      obtain ⟨s₁, he, hf⟩ := Option.map_eq_some_iff.1 hf
      obtain ⟨topSize', h₁⟩ := extendTop_ready hs h h8 (hinc hshort) he
      have := splitTop_result hs h₁ h8 hmin hle
      rwa [hf] at this
    · have := splitTop_result hs h h8 hmin hle
      rwa [Option.some.inj hf] at this

/-! ## `heap_alloc` -/

theorem Chunks.index (hs : c.heapSize ≤ 0x7FFFFFFF) (h : Chunks c s cs) :
    (∃ B, Core c s.mem s.blocks cs B fun x => x = s.last) ∧ Layout c cs ∧
      ∀ k ∈ cs, heapCurrSize c s.mem k.addr = k.size := by
  rcases h with ⟨h, rfl⟩ | ⟨a, topSize, h⟩
  · exact ⟨h.core, ⟨.nil, by simp, by simp⟩, by simp⟩
  · exact ⟨h.held.core, h.held.layout hs, fun k hk => h.held.currSize hs hk⟩

/-- Where comparisons are unsigned, no chunk of the bins searched is too small for a regular
request that finds no last remainder. -/
theorem CompareOk.fits (hs : c.heapSize ≤ 0x7FFFFFFF) (h : Chunks c s cs) (hok : CompareOk c s nb) (hlast : s.last = 0)
    (hle : nb ≤ c.heapSize) {idx : Nat} (hmiss : ownBin c s.mem nb = .miss idx) (hidx : c.heapBinHash nb ≤ idx + 1) (hun : c.UnsignedCompare)
    (hbin : Binned c cs (fun x => x = s.last) k) (hge : idx + 1 ≤ c.heapBinHash k.size) : nb ≤ k.size := by
  obtain ⟨⟨B, hB⟩, hl, hsize⟩ := h.index hs
  have hi := hl.hash_lt hs hbin.mem
  have hin := hl.inside k hbin.mem
  have hlt := Config.heapSize_lt hs
  unfold Config.stop at hin
  by_contra hsmall
  rcases Nat.lt_or_ge (c.heapBinHash nb) (c.heapBinHash k.size) with hh | hh
  · have := Config.heapBinHash_mono (c := c) (a := k.size) (b := nb) (by omega) (by omega)
    omega
  · -- the chunk is in the first bin searched, behind one that is not too small
    have heq : idx + 1 = c.heapBinHash k.size := by omega
    have hfirst := hok hun idx hmiss
    rw [if_pos hlast, heq] at hfirst
    have hkB := (hB.mem_iff _ hi k).2 ⟨hbin.mem, hbin.free, hbin.not_out, rfl⟩
    cases hBk : B (c.heapBinHash k.size) with
    | nil => rw [hBk] at hkB; exact absurd hkB List.not_mem_nil
    | cons j L =>
      have hring := hB.lists _ hi
      have hsort := hB.sorted _ hi
      rw [hBk] at hring hkB hsort
      have hne : listEmpty c s.mem (c.heapBin (c.heapBinHash k.size)) = false := by
        by_contra he
        have := (hB.listEmpty_iff hi).1 (by simpa using he)
        rw [hBk] at this
        exact absurd this (by simp)
      have hj := (hB.binned hi (hBk ▸ List.mem_cons_self : j ∈ B _)).1
      have hnext := hfirst hi hne
      rw [Ring.next_head (show Ring c.ptr s.mem (c.heapBin _) (c.node j.addr :: nodes c L) from hring),
        hl.node2chunk_node hj.mem, hsize j hj.mem] at hnext
      rcases List.mem_cons.1 hkB with rfl | hkL
      · omega
      · have := (List.pairwise_cons.1 hsort).1 k hkL
        omega

/-- The last remainder serves a regular request, or the state is left in which the bins and the
top are searched. -/
theorem fromLast_cases (hs : c.heapSize ≤ 0x7FFFFFFF) (h : Chunks c s cs) {n idx : Nat} (hreg : RegularRequest c s n)
    (hle : c.heapRequestPad n ≤ c.heapSize) (hmiss : ownBin c s.mem (c.heapRequestPad n) = .miss idx) :
    (∃ s₁ mem, fromLast c s (c.heapRequestPad n) = (s₁, some mem) ∧ Served c cs (c.heapRequestPad n) s₁ mem) ∨
    ∃ s₁, fromLast c s (c.heapRequestPad n) = (s₁, none) ∧ Chunks c s₁ cs ∧ s₁.last = 0 ∧ (c.UnsignedCompare → s₁ = s) := by
  rcases h with ⟨h, rfl⟩ | ⟨a, topSize, h⟩
  · refine .inr ⟨s, ?_, .inl ⟨h, rfl⟩, h.last_eq, fun _ => rfl⟩
    simp only [fromLast, h.last_eq, if_true]
  · have hcmp : c.UnsignedCompare → s.last ≠ 0 → c.heapRequestPad n ≤ heapCurrSize c s.mem s.last := by
      intro hun h0
      have := hreg.compare hun idx hmiss
      rwa [if_neg h0] at this
    rcases fromLast_spec hs h (Config.dvd_heapRequestPad hs n) hreg.pad.1 hle hcmp with h' | ⟨s₁, h1, h2, h3, h4⟩
    · exact .inl h'
    · exact .inr ⟨s₁, h1, .inr ⟨a, topSize, h2⟩, h3, h4⟩

/-- A regular request that its own bin did not serve. -/
theorem allocRest_spec (hs : c.heapSize ≤ 0x7FFFFFFF) (h : Chunks c s cs) {n idx mem : Nat} (hreg : RegularRequest c s n)
    (hnb : nb = c.heapRequestPad n) (hle : nb ≤ c.heapSize) (hmiss : ownBin c s.mem nb = .miss idx)
    (hidx : c.heapBinHash nb ≤ idx + 1) (hf : allocRest c s nb (idx + 1) = some (s', mem)) :
    AllocResult c cs nb s' mem := by
  subst hnb
  have h8 := Config.dvd_heapRequestPad hs n
  have hmin := hreg.pad.1
  rcases fromLast_cases hs h hreg hle hmiss with hserved | ⟨s₁, hlast, hchunks, hlast₁, hsame⟩
  · obtain ⟨s₁, mem₁, he, hserved⟩ := hserved
    simp only [allocRest, he] at hf
    cases hf
    exact .inr hserved
  · simp only [allocRest, hlast, hlast₁, ne_eq, not_true_eq_false, if_false] at hf
    cases hb : fromBins c s₁ (c.heapRequestPad n) (idx + 1) with
    | none =>
      rw [hb] at hf
      have hreach : ReachesTop c s (c.heapRequestPad n) s₁ := ⟨idx, hmiss, hlast, hb⟩
      exact fromTop_spec hs hchunks h8 hmin hle (hreg.increment s₁ hreach) (hreg.sentinel s₁ hreach) hf
    | some r =>
      obtain ⟨s₂, mem₂⟩ := r
      rw [hb] at hf
      cases hf
      rcases hchunks with ⟨hno, rfl⟩ | ⟨a, topSize, hready⟩
      · -- no chunk can have been found
        obtain ⟨B, hB⟩ := hno.core
        obtain ⟨⟨v, i⟩, hsearch, -⟩ := Option.map_eq_some_iff.1 hb
        obtain ⟨-, k, hbin, -⟩ := searchBins_spec ⟨.nil, by simp, by simp⟩ hB hsearch
        exact absurd hbin.mem List.not_mem_nil
      · refine .inr (fromBins_spec hs hready hlast₁ h8 hmin hle (fun hun k hbin hge => ?_) hb)
        have hs₁ := hsame hun
        subst hs₁
        exact hreg.compare.fits hs (.inr ⟨a, topSize, hready⟩) hlast₁ hle hmiss hidx hun hbin hge

/-- A regular request. -/
theorem heapAlloc_spec (hs : c.heapSize ≤ 0x7FFFFFFF) (h : Chunks c s cs) {n mem : Nat} (hreg : RegularRequest c s n)
    (hf : heapAlloc c s n = some (s', mem)) : AllocResult c cs (c.heapRequestPad n) s' mem := by
  obtain ⟨⟨B, hB⟩, hl, hsize⟩ := h.index hs
  simp only [heapAlloc] at hf
  by_cases hbug : c.heapRequestPad n < n ∨ c.heapRequestPad n > c.heapSize - c.sizeSize
  · rw [if_pos hbug] at hf
    cases hf
  · rw [if_neg hbug] at hf
    have hle : c.heapRequestPad n ≤ c.heapSize := by omega
    have hspec := ownBin_spec hs hl hB hsize (Config.dvd_heapRequestPad hs n) hle hreg.nextBin
    cases hown : ownBin c s.mem (c.heapRequestPad n) with
    | take v idx =>
      rw [hown] at hspec hf
      cases hspec with
      | take hbin hfit =>
        cases hf
        rcases h with ⟨-, rfl⟩ | ⟨a, topSize, h⟩
        · exact absurd hbin.mem List.not_mem_nil
        · exact .inr (h.takeChunk hs hbin.mem hbin.free hbin.not_out hfit)
    | miss idx =>
      rw [hown] at hspec hf
      cases hspec with
      | miss hidx => exact allocRest_spec hs h hreg rfl hle hown hidx hf

/-- A regular request within the bounds that `heap_alloc` checks meets no `BUG_ON`. -/
theorem heapAlloc_isSome (hs : c.heapSize ≤ 0x7FFFFFFF) (h : Chunks c s cs) {n : Nat} (hreg : RegularRequest c s n)
    (h1 : n ≤ c.heapRequestPad n) (h2 : c.heapRequestPad n ≤ c.heapSize - c.sizeSize) :
    ∃ r, heapAlloc c s n = some r := by
  simp only [heapAlloc, if_neg (by omega : ¬ (c.heapRequestPad n < n ∨ c.heapRequestPad n > c.heapSize - c.sizeSize))]
  cases hown : ownBin c s.mem (c.heapRequestPad n) with
  | take v idx => exact ⟨_, rfl⟩
  | miss idx =>
    simp only [allocRest]
    rcases fromLast_cases hs h hreg (by omega) hown with ⟨s₁, mem, he, -⟩ | ⟨s₁, hlast, hchunks, hlast₁, -⟩
    · rw [he]
      exact ⟨_, rfl⟩
    · simp only [hlast, hlast₁, ne_eq, not_true_eq_false, if_false]
      cases hb : fromBins c s₁ (c.heapRequestPad n) (idx + 1) with
      | some r => exact ⟨r, rfl⟩
      | none =>
        simp only [fromTop]
        split
        · rename_i hshort
          obtain ⟨s₂, he⟩ := heapExtendTop_isSome hs hchunks (hreg.increment s₁ ⟨idx, hown, hlast, hb⟩ hshort)
          rw [he]
          exact ⟨_, rfl⟩
        · exact ⟨_, rfl⟩

end Sdfirm.Heap
