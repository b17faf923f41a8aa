import Sdfirm.Proof.Heap.Window

/-!
# The allocator between two calls

`Ready` is the invariant between calls once there is an arena: the bins hold
all free chunks but the last remainder. `NoArena` is the state before the top
chunk has been made. `Matches` relates the used chunks to the live blocks, and
`Inv` is the whole.
-/

namespace Sdfirm.Heap

open Framework

variable {c : Config} {s : HeapState} {a topSize n nb : Nat} {k : Chunk} {cs cs' l r : List Chunk}
  {out : Nat → Prop} {live : List Block}

/-- The arena between calls. -/
structure Ready (c : Config) (s : HeapState) (a : Nat) (cs : List Chunk) (topSize : Nat) : Prop where
  held : Held c s a cs topSize fun x => x = s.last
  last_free : s.last ≠ 0 → ∃ k ∈ cs, k.used = false ∧ k.addr = s.last

/-- Where the first chunk of an arena made at the break `brk` would lie. -/
def alignedBrk (c : Config) (brk : Nat) : Nat := brk + alignCorrection c brk

/-- The heap before its top chunk has been made. The break can only have moved when the
alignment did not fit after it. -/
structure NoArena (c : Config) (s : HeapState) : Prop where
  first_eq : s.first = c.initTop
  last_eq : s.last = 0
  core : ∃ B, Core c s.mem s.blocks [] B fun x => x = s.last
  start_le : c.start ≤ s.brk
  brk_le : s.brk ≤ c.stop
  base_le : s.base = c.invalidAddr ∨ s.base ≤ s.brk
  brk_eq : s.brk = c.start ∨ (8 ∣ c.headSize → c.stop < alignedBrk c s.brk)

/-- The heap with the chunks `cs`. -/
def Chunks (c : Config) (s : HeapState) (cs : List Chunk) : Prop :=
  (NoArena c s ∧ cs = []) ∨ ∃ a topSize, Ready c s a cs topSize

/-- The live blocks are the used chunks, which have room for them. -/
structure Matches (c : Config) (cs : List Chunk) (live : List Block) : Prop where
  chunk : ∀ b ∈ live, ∃ k ∈ cs, k.used = true ∧ b.ptr = k.addr + 2 * c.sizeSize ∧ b.len + c.sizeSize ≤ k.size
  block : ∀ k ∈ cs, k.used = true → ∃ b ∈ live, b.ptr = k.addr + 2 * c.sizeSize
  nodup : (live.map Block.ptr).Nodup

def Inv (c : Config) (s : HeapState) (live : List Block) : Prop := ∃ cs, Chunks c s cs ∧ Matches c cs live

/-! ## Changes of the used chunks -/

/-- `cs'` has the used chunks of `cs` and `k`, where `cs` had none. -/
def Adds (cs cs' : List Chunk) (k : Chunk) : Prop :=
  (∀ j, j.used = true → (j ∈ cs' ↔ j = k ∨ j ∈ cs)) ∧ ∀ j ∈ cs, j.used = true → j.addr ≠ k.addr

theorem Matches.add (h : Matches c cs live) (ha : Adds cs cs' k) (hu : k.used = true) (hn : n + c.sizeSize ≤ k.size) :
    Matches c cs' (⟨k.addr + 2 * c.sizeSize, n⟩ :: live) where
  chunk := fun b hb => by
    rcases List.mem_cons.1 hb with rfl | hb
    · exact ⟨k, (ha.1 k hu).2 (.inl rfl), hu, rfl, hn⟩
    · obtain ⟨j, hj, hju, h'⟩ := h.chunk b hb
      exact ⟨j, (ha.1 j hju).2 (.inr hj), hju, h'⟩
  block := fun j hj hju => by
    rcases (ha.1 j hju).1 hj with rfl | hj
    · exact ⟨_, List.mem_cons_self, rfl⟩
    · obtain ⟨b, hb, h'⟩ := h.block j hj hju
      exact ⟨b, List.mem_cons_of_mem _ hb, h'⟩
  nodup := by
    rw [List.map_cons, List.nodup_cons]
    refine ⟨fun hmem => ?_, h.nodup⟩
    obtain ⟨b, hb, he⟩ := List.mem_map.1 hmem
    obtain ⟨j, hj, hju, hp, -⟩ := h.chunk b hb
    have he' : b.ptr = k.addr + 2 * c.sizeSize := he
    exact ha.2 j hj hju (by omega)

/-- A block is given back, and its chunk is no longer used. -/
theorem Matches.remove (hs : c.heapSize ≤ 0x7FFFFFFF) (hl : Layout c cs) (h : Matches c cs live) {b : Block}
    (hb : b ∈ live) (hk : k ∈ cs) (hp : b.ptr = k.addr + 2 * c.sizeSize)
    (hrem : ∀ j, j.used = true → (j ∈ cs' ↔ j ∈ cs ∧ j ≠ k)) : Matches c cs' (live.erase b) := by
  have hnd : live.Nodup := List.Nodup.of_map _ h.nodup
  have hinj : ∀ b' ∈ live, b'.ptr = b.ptr → b' = b := fun b' hb' he => List.inj_on_of_nodup_map h.nodup hb' hb he
  refine ⟨fun b' hb' => ?_, fun j hj hju => ?_, ?_⟩
  · obtain ⟨hne, hmem⟩ := (List.Nodup.mem_erase_iff hnd).1 hb'
    obtain ⟨j, hj, hju, hjp, hlen⟩ := h.chunk b' hmem
    refine ⟨j, (hrem j hju).2 ⟨hj, fun e => hne (hinj b' hmem ?_)⟩, hju, hjp, hlen⟩
    rw [hjp, e, hp]
  · obtain ⟨hjc, hne⟩ := (hrem j hju).1 hj
    obtain ⟨b', hb', hjp⟩ := h.block j hjc hju
    refine ⟨b', (List.Nodup.mem_erase_iff hnd).2 ⟨fun e => hne ?_, hb'⟩, hjp⟩
    refine hl.eq_of_addr hs hjc hk ?_
    rw [e, hp] at hjp
    omega
  · exact h.nodup.sublist (List.Sublist.map _ List.erase_sublist)

/-! ## From an operation back to the invariant -/

theorem Held.addr_pos (h : Held c s a cs topSize out) (hk : k ∈ cs) : k.addr ≠ 0 := by
  have h1 := h.tiles.1.bounds hk
  have h2 := h.start_le
  have h3 := c.start_pos
  omega

theorem Held.ready (h : Held c s a cs topSize out) (ho : ∀ k ∈ cs, k.used = false → (out k.addr ↔ k.addr = s.last))
    (hlast : s.last ≠ 0 → ∃ k ∈ cs, k.used = false ∧ k.addr = s.last) : Ready c s a cs topSize :=
  ⟨h.out_congr ho, hlast⟩

/-- One free chunk of a list becomes used. -/
theorem adds_take (hl : Layout c (l ++ [k] ++ r)) (hs : c.heapSize ≤ 0x7FFFFFFF) (hu : k.used = false) :
    Adds (l ++ [k] ++ r) (l ++ [{ k with used := true }] ++ r) { k with used := true } := by
  refine ⟨fun j hj => ?_, fun j hj hju e => ?_⟩
  · have hne : j ≠ k := fun e => by
      rw [e, hu] at hj
      exact absurd hj (by decide)
    simp only [List.mem_append, List.mem_singleton]
    tauto
  · have := hl.eq_of_addr hs hj (by simp : k ∈ l ++ [k] ++ r) e
    rw [this, hu] at hju
    exact absurd hju (by decide)

end Sdfirm.Heap

/-!
## Allocation

Each step of `heap_alloc` either serves the request (`Served`: one chunk of
at least the padded size becomes used) or leaves the used chunks as they are.
A chunk found in a bin is a free chunk of the arena that fits
(`ownBin_take`, `searchBins_fits`); a regular request is never served from a
chunk that is too small.
-/

namespace Sdfirm.Heap

open Framework

variable {c : Config} {s s' : HeapState} {a topSize nb i idx v : Nat} {k : Chunk} {cs l r : List Chunk}
  {out : Nat → Prop} {B : Nat → List Chunk} {m : Mem} {blocks : Bitops.Bitmap}

/-- The request is served: a chunk with room for `nb` bytes is used in `s'`. -/
def Served (c : Config) (cs : List Chunk) (nb : Nat) (s' : HeapState) (mem : Nat) : Prop :=
  ∃ a cs' topSize k, Ready c s' a cs' topSize ∧ Adds cs cs' k ∧ k.used = true ∧ nb ≤ k.size ∧
    mem = k.addr + 2 * c.sizeSize

theorem Held.chunk2mem (hs : c.heapSize ≤ 0x7FFFFFFF) (h : Held c s a cs topSize out) (hk : k ∈ cs) :
    c.chunk2mem k.addr = k.addr + 2 * c.sizeSize := by
  have h1 := h.header_le hs hk
  have h2 := c.stop_lt_space
  exact Config.chunkAt_add (by omega)

/-! ### A free chunk taken or split -/

/-- The free chunk `k` in hand is taken whole. -/
theorem Held.take_served (hs : c.heapSize ≤ 0x7FFFFFFF) (h : Held c s a cs topSize out) (hk : k ∈ cs)
    (hu : k.used = false) (ho : out k.addr)
    (hout : ∀ j ∈ cs, j.used = false → j ≠ k → (out j.addr ↔ j.addr = s.last))
    (hlast : s.last ≠ 0 → ∃ j ∈ cs, j.used = false ∧ j.addr = s.last ∧ j ≠ k) (hfit : nb ≤ k.size) :
    Served c cs nb { s with mem := heapSetInuseAt c s.mem k.addr k.size } (c.chunk2mem k.addr) := by
  have hl := h.layout hs
  have hmem := h.chunk2mem hs hk
  obtain ⟨l, r, hlr⟩ := List.append_of_mem hk
  obtain rfl : cs = l ++ [k] ++ r := by simpa using hlr
  have htake := h.take hs hu ho
  have hback : ∀ j, j.used = false → (j ∈ l ++ [{ k with used := true }] ++ r ↔ j ∈ l ++ [k] ++ r ∧ j ≠ k) := by
    intro j hju
    constructor
    · intro hj
      have hne : j.addr ≠ k.addr := fun e => by
        have hjk := (htake.layout hs).eq_of_addr hs hj (by simp : { k with used := true } ∈ _) e
        rw [hjk] at hju
        exact absurd hju (by simp)
      refine ⟨?_, fun e => hne (by rw [e])⟩
      simp only [List.mem_append, List.mem_singleton] at hj ⊢
      rcases hj with (hj | rfl) | hj
      · exact .inl (.inl hj)
      · exact absurd rfl hne
      · exact .inr hj
    · rintro ⟨hj, hne⟩
      simp only [List.mem_append, List.mem_singleton] at hj ⊢
      tauto
  refine ⟨a, _, topSize, { k with used := true }, htake.ready ?_ ?_, adds_take hl hs hu, rfl, hfit, hmem⟩
  · intro j hj hju
    obtain ⟨hj', hne⟩ := (hback j hju).1 hj
    exact hout j hj' hju hne
  · intro h0
    obtain ⟨j, hj, hju, hja, hne⟩ := hlast h0
    exact ⟨j, (hback j hju).2 ⟨hj, hne⟩, hju, hja⟩

/-- The free chunk `k`, the only one in hand, is split, and the rest is the last remainder. -/
theorem Held.split_served (hs : c.heapSize ≤ 0x7FFFFFFF) (h : Held c s a cs topSize out) (hk : k ∈ cs)
    (hu : k.used = false) (ho : out k.addr) (hout : ∀ j ∈ cs, j.used = false → out j.addr → j = k)
    (h8 : 8 ∣ nb) (hmin : c.headSize ≤ nb) (hfit : nb + c.headSize ≤ k.size) :
    Served c cs nb (splitChunk c s k.addr nb (c.remainder k.size nb)) (c.chunk2mem k.addr) := by
  have hl := h.layout hs
  have hmem := h.chunk2mem hs hk
  have hinside := hl.inside k hk
  have hsp := c.stop_lt_space
  have hrem : c.remainder k.size nb = ((k.size - nb : Nat) : Int) := by
    have hle := h.size_le hs hk
    rw [Config.remainder_eq hs hle (by omega)]
    omega
  have hlastEq : (splitChunk c s k.addr nb (c.remainder k.size nb)).last = k.addr + nb :=
    Config.chunkAt_add (by omega)
  obtain ⟨l, r, hlr⟩ := List.append_of_mem hk
  obtain rfl : cs = l ++ [k] ++ r := by simpa using hlr
  have hsplit := h.split hs hu ho h8 hmin hfit
  rw [← hrem] at hsplit
  have hl' := hsplit.layout hs
  refine ⟨a, _, topSize, ⟨k.addr, nb, true⟩, hsplit.ready ?_ ?_, ⟨?_, ?_⟩, rfl, le_rfl, hmem⟩
  · intro j hj hju
    rw [hlastEq]
    refine ⟨fun h' => ?_, .inr⟩
    by_contra hrest
    have hoj := h'.resolve_right hrest
    have hne : j.addr ≠ k.addr := fun e => by
      have hjk := hl'.eq_of_addr hs hj (by simp : ⟨k.addr, nb, true⟩ ∈ _) e
      rw [hjk] at hju
      exact absurd hju (by simp)
    simp only [List.mem_append, List.mem_cons, List.not_mem_nil, or_false] at hj
    rcases hj with (hj | rfl | rfl) | hj
    · exact hne (by rw [hout j (by simp [hj]) hju hoj])
    · exact hne rfl
    · exact hrest rfl
    · exact hne (by rw [hout j (by simp [hj]) hju hoj])
  · intro _
    exact ⟨⟨k.addr + nb, k.size - nb, false⟩, by simp, rfl, hlastEq.symm⟩
  · intro j hj
    have hne : j ≠ k := fun e => by
      rw [e, hu] at hj
      exact absurd hj (by decide)
    have hne' : j ≠ ⟨k.addr + nb, k.size - nb, false⟩ := fun e => by
      rw [e] at hj
      exact absurd hj (by simp)
    simp only [List.mem_append, List.mem_cons, List.not_mem_nil, or_false]
    tauto
  · intro j hj hju e
    have := hl.eq_of_addr hs hj hk e
    rw [this, hu] at hju
    exact absurd hju (by decide)

/-- A chunk of a bin is taken whole. -/
theorem Ready.takeChunk (hs : c.heapSize ≤ 0x7FFFFFFF) (h : Ready c s a cs topSize) (hk : k ∈ cs)
    (hu : k.used = false) (hlast : k.addr ≠ s.last) (hfit : nb ≤ k.size) :
    Served c cs nb (takeChunk c s k.addr (c.heapBinHash k.size)) (c.chunk2mem k.addr) := by
  have hun := h.held.unlink hs hk hu hlast
  have hserved := hun.take_served hs hk hu (.inr rfl) (fun j hj _ hne => ?_) (fun h0 => ?_) hfit
  · simpa only [Sdfirm.Heap.takeChunk, h.held.currSize hs hk] using hserved
  · have hne' : j.addr ≠ k.addr := fun e => hne ((h.held.layout hs).eq_of_addr hs hj hk e)
    exact ⟨fun ho => ho.resolve_right hne', .inl⟩
  · obtain ⟨j, hj, hju, hja⟩ := h.last_free h0
    exact ⟨j, hj, hju, hja, fun e => hlast (by rw [← e, hja])⟩

/-! ### The bin of the request -/

/-- An exact size is not above the sizes of its own and of higher bins. -/
theorem le_of_exact_hash (hs : c.heapSize ≤ 0x7FFFFFFF) {sz : Nat} (h8 : 8 ∣ nb) (hnb : nb < 512)
    (h : c.heapBinHash nb ≤ c.heapBinHash sz) : nb ≤ sz := by
  by_contra hlt
  rw [Config.heapBinHash_exact hs hnb, Config.heapBinHash_exact hs (by omega)] at h
  omega

/-- A chunk of a bin, as `Core` knows it. -/
structure Binned (c : Config) (cs : List Chunk) (out : Nat → Prop) (k : Chunk) : Prop where
  mem : k ∈ cs
  free : k.used = false
  not_out : ¬ out k.addr

theorem Core.binned (hc : Core c m blocks cs B out) (hi : i < c.nrBins) (hk : k ∈ B i) :
    Binned c cs out k ∧ c.heapBinHash k.size = i := by
  obtain ⟨h1, h2, h3, h4⟩ := (hc.mem_iff i hi k).1 hk
  exact ⟨⟨h1, h2, h3⟩, h4⟩

/-- What `heap_alloc` has of the bin of the request: a free chunk that fits, or an index no
lower than that of the bin. -/
inductive OwnBinSpec (c : Config) (cs : List Chunk) (out : Nat → Prop) (nb : Nat) : OwnBin → Prop
  | take {k : Chunk} : Binned c cs out k → nb ≤ k.size → OwnBinSpec c cs out nb (.take k.addr (c.heapBinHash k.size))
  | miss {idx : Nat} : c.heapBinHash nb ≤ idx + 1 → OwnBinSpec c cs out nb (.miss idx)

theorem exactBin_spec (hs : c.heapSize ≤ 0x7FFFFFFF) (hl : Layout c cs) (hc : Core c m blocks cs B out)
    (h8 : 8 ∣ nb) (hnb : nb < 512 - 8) (hle : nb ≤ c.heapSize) (hnext : NextBinOk c m nb) :
    OwnBinSpec c cs out nb (exactBin c m nb) := by
  have hi : c.heapExactIndex nb < c.nrBins := by
    rw [Config.heapExactIndex_eq hs (by omega)]
    exact Config.heapBinHash_lt hs hle
  have hhash := Config.heapExactIndex_eq hs (by omega : nb < 512)
  have hnext' := hnext hnb
  obtain ⟨idx, hidx, hlt, hge⟩ : ∃ idx, (if listEmpty c m (c.heapBin (c.heapExactIndex nb)) then c.heapExactIndex nb + 1
      else c.heapExactIndex nb) = idx ∧ idx < c.nrBins ∧ c.heapBinHash nb ≤ idx := by
    split
    · rename_i he
      exact ⟨_, rfl, hnext' he, by omega⟩
    · exact ⟨_, rfl, hi, by omega⟩
  simp only [exactBin, hidx]
  split
  · exact .miss (by omega)
  · rename_i he
    cases hB : B idx with
    | nil => exact absurd ((hc.listEmpty_iff hlt).2 hB) he
    | cons k L =>
      have hring := hc.lists idx hlt
      rw [hB] at hring
      obtain ⟨hbin, hkh⟩ := hc.binned hlt (hB ▸ List.mem_cons_self : k ∈ B idx)
      rw [Ring.next_head (show Ring c.ptr m (c.heapBin idx) (c.node k.addr :: nodes c L) from hring),
        hl.node2chunk_node hbin.mem, ← hkh]
      exact .take hbin (le_of_exact_hash hs h8 (by omega) (by omega))

theorem sortedBin_spec (hs : c.heapSize ≤ 0x7FFFFFFF) (hl : Layout c cs) (hc : Core c m blocks cs B out)
    (hsize : ∀ k ∈ cs, heapCurrSize c m k.addr = k.size) (hle : nb ≤ c.heapSize) :
    OwnBinSpec c cs out nb (sortedBin c m nb) := by
  have hi := Config.heapBinHash_lt hs hle
  simp only [sortedBin, hc.forEachChunk_eq hl hi]
  cases hf : (B (c.heapBinHash nb)).findSome? _ with
  | none => exact .miss (by omega)
  | some o =>
    obtain ⟨k, hk, hfk⟩ := List.exists_of_findSome?_eq_some hf
    obtain ⟨hbin, hkh⟩ := hc.binned hi hk
    have hkle : k.size ≤ c.heapSize := by
      have := hl.inside k hbin.mem
      unfold Config.stop at this
      omega
    rw [hsize k hbin.mem, Config.remainder_eq hs hkle hle] at hfk
    split at hfk
    · cases hfk
      exact .miss (by omega)
    · split at hfk
      · cases hfk
        rw [← hkh]
        exact .take hbin (by omega)
      · cases hfk

theorem ownBin_spec (hs : c.heapSize ≤ 0x7FFFFFFF) (hl : Layout c cs) (hc : Core c m blocks cs B out)
    (hsize : ∀ k ∈ cs, heapCurrSize c m k.addr = k.size) (h8 : 8 ∣ nb) (hle : nb ≤ c.heapSize)
    (hnext : NextBinOk c m nb) : OwnBinSpec c cs out nb (ownBin c m nb) := by
  unfold ownBin
  split
  · rename_i hnb
    exact exactBin_spec hs hl hc h8 hnb hle hnext
  · exact sortedBin_spec hs hl hc hsize hle

/-! ### The last remainder -/

theorem Held.congr_last (h : Held c s a cs topSize out) (x : Nat) : Held c { s with last := x } a cs topSize out :=
  ⟨h.tiles, h.core, h.start_le, h.base_le, h.top_le, h.top_end, h.brk_le, h.top_dvd, h.top_ge⟩

theorem fromLast_spec (hs : c.heapSize ≤ 0x7FFFFFFF) (h : Ready c s a cs topSize) (h8 : 8 ∣ nb)
    (hmin : c.headSize ≤ nb) (hle : nb ≤ c.heapSize)
    (hcmp : c.UnsignedCompare → s.last ≠ 0 → nb ≤ heapCurrSize c s.mem s.last) :
    (∃ s' mem, fromLast c s nb = (s', some mem) ∧ Served c cs nb s' mem) ∨
    ∃ s', fromLast c s nb = (s', none) ∧ Ready c s' a cs topSize ∧ s'.last = 0 ∧ (c.UnsignedCompare → s' = s) := by
  by_cases h0 : s.last = 0
  · refine .inr ⟨s, ?_, h, h0, fun _ => rfl⟩
    simp only [fromLast, h0, if_true]
  · obtain ⟨k, hk, hu, hka⟩ := h.last_free h0
    have honly : ∀ j ∈ cs, j.used = false → j.addr = s.last → j = k :=
      fun j hj _ e => (h.held.layout hs).eq_of_addr hs hj hk (e.trans hka.symm)
    have hsz := h.held.currSize hs hk
    have hkle := h.held.size_le hs hk
    rw [hka] at hsz
    rw [hsz] at hcmp
    have hge := Config.geHeadSize_iff hs hkle hle fun hun => hcmp hun h0
    simp only [fromLast, h0, if_false, hsz]
    by_cases hg : c.geHeadSize (c.remainder k.size nb)
    · refine .inl ⟨_, _, if_pos hg, ?_⟩
      rw [← hka]
      exact h.held.split_served hs hk hu hka honly h8 hmin (hge.1 hg)
    · rw [if_neg hg]
      have hheld := h.held.congr_last 0
      by_cases hr : 0 ≤ c.remainder k.size nb
      · refine .inl ⟨_, _, if_pos hr, ?_⟩
        rw [Config.remainder_eq hs hkle hle] at hr
        rw [← hka]
        refine hheld.take_served hs hk hu hka (fun j hj hju hne => ?_) (fun h => absurd rfl h) (by omega)
        refine ⟨fun e => absurd (honly j hj hju e) hne, fun e => absurd e (h.held.addr_pos hj)⟩
      · have hlast := (heapChunkLink_fields c { s with last := 0 } s.last k.size).2.2.2
        refine .inr ⟨_, if_neg hr, ?_, hlast, fun hun => ?_⟩
        · rw [← hka] at hlast ⊢
          refine (hheld.link hs hk hu hka).ready (fun j hj hju => ?_) fun h' => absurd hlast h'
          rw [hlast]
          refine ⟨fun h' => absurd (h'.1.trans hka.symm) h'.2, fun e => absurd e (h.held.addr_pos hj)⟩
        · have := hcmp hun h0
          rw [Config.remainder_eq hs hkle hle] at hr
          omega

/-! ### The other bins -/

/-- The search of the bins ends at a free chunk of a bin from `idx` on. -/
theorem searchBins_spec (hl : Layout c cs) (hc : Core c s.mem s.blocks cs B out) :
    ∀ {fuel idx v i : Nat}, searchBins c s nb fuel idx = some (v, i) → idx < c.nrBins ∧ ∃ k, Binned c cs out k ∧
      k.addr = v ∧ c.heapBinHash k.size = i ∧ idx ≤ i ∧
      (c.geHeadSize (c.remainder (heapCurrSize c s.mem v) nb) ∨ 0 ≤ c.remainder (heapCurrSize c s.mem v) nb)
  | 0, _, _, _, h => by simp [searchBins] at h
  | fuel + 1, idx, v, i, h => by
    simp only [searchBins] at h
    by_cases hlt : idx < c.nrBins
    · have hge : idx ≤ Bitops.findNextSetBit c.unit s.blocks c.nrBins idx := Bitops.le_findNextSetBit c.unitBits hlt
      by_cases hend : c.nrBins ≤ Bitops.findNextSetBit c.unit s.blocks c.nrBins idx
      · rw [if_pos hend] at h
        exact absurd h (by simp)
      · rw [if_neg hend, hc.forEachChunk_eq hl (by omega)] at h
        rcases Option.or_eq_some_iff.1 h with h | ⟨-, h⟩
        · obtain ⟨k, hk, hf⟩ := List.exists_of_findSome?_eq_some h
          obtain ⟨hbin, hkh⟩ := hc.binned (by omega) hk
          split at hf
          · rename_i hfits
            cases hf
            exact ⟨hlt, k, hbin, rfl, hkh, hge, hfits⟩
          · cases hf
        · obtain ⟨-, k, h1, h2, h3, h4, h5⟩ := searchBins_spec hl hc h
          exact ⟨hlt, k, h1, h2, h3, by omega, h5⟩
    · have hend : Bitops.findNextSetBit c.unit s.blocks c.nrBins idx = c.nrBins := by
        simp only [Bitops.findNextSetBit]
        rw [if_pos (by omega)]
      rw [hend, if_pos le_rfl] at h
      exact absurd h (by simp)

theorem fromBins_spec (hs : c.heapSize ≤ 0x7FFFFFFF) (h : Ready c s a cs topSize) (hlast : s.last = 0) (h8 : 8 ∣ nb)
    (hmin : c.headSize ≤ nb) (hle : nb ≤ c.heapSize)
    (hcmp : c.UnsignedCompare → ∀ k, Binned c cs (fun x => x = s.last) k → idx ≤ c.heapBinHash k.size → nb ≤ k.size)
    {mem : Nat} (hf : fromBins c s nb idx = some (s', mem)) : Served c cs nb s' mem := by
  obtain ⟨B, hB⟩ := h.held.core
  obtain ⟨⟨v, i⟩, hsearch, hf⟩ := Option.map_eq_some_iff.1 hf
  obtain ⟨-, k, hbin, rfl, rfl, hge, hfits⟩ := searchBins_spec (h.held.layout hs) hB hsearch
  have hkle := h.held.size_le hs hbin.mem
  have hgeh := Config.geHeadSize_iff hs hkle hle fun hun => hcmp hun k hbin hge
  simp only [h.held.currSize hs hbin.mem] at hf hfits
  by_cases hg : c.geHeadSize (c.remainder k.size nb)
  · rw [if_pos hg] at hf
    cases hf
    have hun := h.held.unlink hs hbin.mem hbin.free hbin.not_out
    refine hun.split_served hs hbin.mem hbin.free (.inr rfl) (fun j hj hju ho => ?_) h8 hmin (hgeh.1 hg)
    refine (h.held.layout hs).eq_of_addr hs hj hbin.mem (ho.resolve_left fun e => ?_)
    exact h.held.addr_pos hj (e.trans hlast)
  · rw [if_neg hg] at hf
    cases hf
    have hr := hfits.resolve_left hg
    rw [Config.remainder_eq hs hkle hle] at hr
    exact h.takeChunk hs hbin.mem hbin.free hbin.not_out (by omega)

end Sdfirm.Heap
