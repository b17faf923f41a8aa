import Sdfirm.Proof.Heap.Free

/-!
# Runs of the heap allocator

`Step.inv` is what one step keeps, `Run.inv` the invariant of whole runs whose
requests meet no defect. `NonOverlap`, `BoundaryTags` and `BinsIndex` are read
off the invariant; a run that breaks each of them follows its theorem.
-/

namespace Sdfirm.Heap

open Framework

variable {c : Config} {s : HeapState} {a topSize n mem : Nat} {j k : Chunk} {cs cs' : List Chunk} {m m' : Mem}
  {live : List Block} {y y' : Sys} {op : Op} {ok : Sys → Op → Prop}

/-! ## Writes of the users -/

/-- A write to the payload of a used chunk changes nothing of the allocator's. -/
theorem Ready.write (hs : c.heapSize ≤ 0x7FFFFFFF) (h : Ready c s a cs topSize) (hk : k ∈ cs) (hu : k.used = true)
    (hm : ∀ x, x < k.addr + 2 * c.sizeSize ∨ k.addr + k.size + c.sizeSize ≤ x → m' x = s.mem x) :
    Ready c { s with mem := m' } a cs topSize := by
  obtain ⟨B, hB⟩ := h.held.core
  have hl := h.held.layout hs
  have hg := Config.geometry hs
  have hin := hl.inside k hk
  refine ⟨{ h.held with tiles := h.held.tiles.congr hs fun x _ _ hx => hm x ?_, core := ⟨B, ?_⟩ }, h.last_free⟩
  · have := hx k hk
    unfold Chunk.Payload at this
    rw [hu, if_pos rfl] at this
    omega
  · have hedit : Core c m' s.blocks (cs ++ [] ++ []) B fun x => x = s.last := by
      refine Core.edit (w := []) (by simpa using hB) (by simp) (by simp) (fun _ _ _ => Iff.rfl) ?_ ?_
      · intro j hj hju x hx1 hx2
        rw [List.append_nil] at hj
        rw [hl.node_eq hj] at hx1 hx2
        have hsz := hl.size_ge j hj
        unfold Config.headSize at hsz hg
        refine hm x ?_
        rcases hl.eq_or_apart hj hk with rfl | h | h
        · rw [hu] at hju
          exact absurd hju (by decide)
        · omega
        · omega
      · intro i hi x hx1 hx2
        have := heapBin_outside hi
        exact hm x (by omega)
    simpa using hedit

/-! ## Steps -/

theorem Chunks.ready (h : Chunks c s cs) (hk : k ∈ cs) : ∃ a topSize, Ready c s a cs topSize := by
  rcases h with ⟨-, rfl⟩ | h
  · exact absurd hk List.not_mem_nil
  · exact h

/-- The bins as they are initialised. -/
theorem initBins_ring {i : Nat} (hi : i < c.nrBins) : Ring c.ptr (initBins c m) (c.heapBin i) [] := by
  have hp := c.ptr_pos
  have hb := heapBin_bounds hi
  have hread : ∀ d, d = 0 ∨ d = c.ptr → (initBins c m).load (c.heapBin i + d) c.ptr = c.heapBin i := by
    intro d hd
    rw [Mem.load_of_bytes (v := c.heapBin i) fun x hx => ?_, Nat.mod_eq_of_lt (heapBin_lt hi)]
    have hoff : c.heapBin i + d + x - c.bins = (d + x) + 2 * c.ptr * i := by
      rw [Config.heapBin, Nat.mul_comm i]
      omega
    have hmod : (d + x) % c.ptr = x := by
      rcases hd with rfl | rfl
      · rw [Nat.zero_add, Nat.mod_eq_of_lt hx]
      · rw [Nat.add_mod_left, Nat.mod_eq_of_lt hx]
    have hdiv : (d + x) / (2 * c.ptr) = 0 := Nat.div_eq_of_lt (by omega)
    rw [initBins, if_pos (by omega), hoff, Nat.add_mul_div_left _ _ (by omega), hdiv, Nat.zero_add, Nat.mul_comm 2,
      Nat.mul_assoc, Nat.add_mul_mod_self_left, hmod]
  refine ⟨List.isChain_pair.2 ⟨?_, ?_⟩, List.pairwise_singleton _ _⟩
  · exact hread 0 (.inl rfl)
  · exact hread c.ptr (.inr rfl)

theorem heapInit_noArena (m : Mem) : NoArena c (heapInit c m) where
  first_eq := rfl
  last_eq := rfl
  core := ⟨fun _ => [], fun _ hi => initBins_ring hi, by simp, by simp, by simp [heapInit, Bitops.testBit]⟩
  start_le := le_rfl
  brk_le := c.start_le_stop
  base_le := .inl rfl
  brk_eq := .inl rfl

/-- The live blocks after a request for `n` bytes that returns `mem`. -/
def liveAfter (n mem : Nat) (live : List Block) : List Block := if mem = 0 then live else ⟨mem, n⟩ :: live

theorem Served.inv (hmatch : Matches c cs live) (hn : n + c.sizeSize ≤ c.heapRequestPad n)
    (h : Served c cs (c.heapRequestPad n) s mem) : Inv c s (liveAfter n mem live) := by
  obtain ⟨a, cs', topSize, k, hr, hadds, hu, hsz, rfl⟩ := h
  have hpos := hr.held.addr_pos ((hadds.1 k hu).2 (.inl rfl))
  rw [liveAfter, if_neg (by omega)]
  exact ⟨cs', .inr ⟨a, topSize, hr⟩, hmatch.add hadds hu (by omega)⟩

theorem heapAlloc_inv (hs : c.heapSize ≤ 0x7FFFFFFF) {s' : HeapState} (h : Inv c s live) (hreg : RegularRequest c s n)
    (hf : heapAlloc c s n = some (s', mem)) : Inv c s' (liveAfter n mem live) := by
  obtain ⟨cs, hc, hmatch⟩ := h
  rcases heapAlloc_spec hs hc hreg hf with ⟨rfl, h'⟩ | hserved
  · exact ⟨cs, h', hmatch⟩
  · exact hserved.inv hmatch hreg.pad.2

/-- What `heap_calloc` writes is payload of the chunk it returns. -/
theorem Served.fill (hs : c.heapSize ≤ 0x7FFFFFFF) {nb : Nat} (h : Served c cs nb s mem) :
    Served c cs nb { s with mem := s.mem.fill mem (heapCurrSize c s.mem (c.mem2chunk mem) - c.sizeSize) 0 } mem := by
  obtain ⟨a, cs', topSize, k, hr, hadds, hu, hsz, rfl⟩ := h
  have hk := (hadds.1 k hu).2 (.inl rfl)
  have hin := (hr.held.layout hs).inside k hk
  have hmin := (hr.held.layout hs).size_ge k hk
  have hg := Config.geometry hs
  have hst := c.stop_lt_space
  have hchunk : c.mem2chunk (k.addr + 2 * c.sizeSize) = k.addr := by
    rw [Config.mem2chunk, Config.chunkAt_sub (by omega) (by omega), Nat.add_sub_cancel]
  refine ⟨a, cs', topSize, k, hr.write hs hk hu fun x hx => ?_, hadds, hu, hsz, rfl⟩
  rw [hchunk, hr.held.currSize hs hk]
  exact Mem.fill_agree _ _ _ _ (b := x) (c := x + 1) (by omega) x le_rfl (by omega)

theorem heapCalloc_inv (hs : c.heapSize ≤ 0x7FFFFFFF) {s' : HeapState} (h : Inv c s live) (hreg : RegularRequest c s n)
    (hf : heapCalloc c s n = some (s', mem)) : Inv c s' (liveAfter n mem live) := by
  obtain ⟨cs, hc, hmatch⟩ := h
  obtain ⟨⟨s₁, mem₁⟩, he, hf⟩ := Option.map_eq_some_iff.1 hf
  simp only at hf
  by_cases h0 : mem₁ = 0
  · rw [if_pos h0] at hf
    obtain ⟨rfl, rfl⟩ := Prod.mk.inj hf
    subst h0
    exact heapAlloc_inv hs ⟨cs, hc, hmatch⟩ hreg he
  · rw [if_neg h0] at hf
    obtain ⟨rfl, rfl⟩ := Prod.mk.inj hf
    rcases heapAlloc_spec hs hc hreg he with ⟨h', -⟩ | hserved
    · exact absurd h' h0
    · exact (hserved.fill hs).inv hmatch hreg.pad.2

theorem heapFree_inv (hs : c.heapSize ≤ 0x7FFFFFFF) {s' : HeapState} {b : Block} (h : Inv c s live) (hb : b ∈ live)
    (hf : heapFree c s b.ptr = some s') : Inv c s' (live.erase b) := by
  obtain ⟨cs, hc, hmatch⟩ := h
  obtain ⟨k, hk, hu, hp, -⟩ := hmatch.chunk b hb
  obtain ⟨a, topSize, hr⟩ := hc.ready hk
  obtain ⟨s₁, cs', topSize', he, hr', hused⟩ := heapFree_spec hs hr hk hu
  rw [hp, he] at hf
  obtain rfl := Option.some.inj hf
  exact ⟨cs', .inr ⟨a, topSize', hr'⟩, hmatch.remove hs (hr.held.layout hs) hb hk hp hused⟩

theorem store_inv (hs : c.heapSize ≤ 0x7FFFFFFF) {b : Block} {x : Nat} {v : BitVec 8} (h : Inv c s live) (hb : b ∈ live)
    (h1 : b.ptr ≤ x) (h2 : x < b.ptr + b.len) : Inv c { s with mem := Function.update s.mem x v } live := by
  obtain ⟨cs, hc, hmatch⟩ := h
  obtain ⟨k, hk, hu, hp, hlen⟩ := hmatch.chunk b hb
  obtain ⟨a, topSize, hr⟩ := hc.ready hk
  refine ⟨cs, .inr ⟨a, topSize, hr.write hs hk hu fun z hz => ?_⟩, hmatch⟩
  exact Function.update_of_ne (by omega) _ _

/-- A regular step keeps the invariant. -/
theorem Step.inv (hs : c.heapSize ≤ 0x7FFFFFFF) (hstep : Step c y op y') (hreg : Regular c y op)
    (h : Inv c y.state y.live) : Inv c y'.state y'.live := by
  cases hstep with
  | alloc _ hf h0 =>
    have := heapAlloc_inv hs h (hreg _ rfl) hf
    rwa [liveAfter, if_neg h0] at this
  | allocFails _ hf => exact heapAlloc_inv hs h (hreg _ rfl) hf
  | calloc _ hf h0 =>
    have := heapCalloc_inv hs h (hreg _ rfl) hf
    rwa [liveAfter, if_neg h0] at this
  | callocFails _ hf => exact heapCalloc_inv hs h (hreg _ rfl) hf
  | free hb hf => exact heapFree_inv hs h hb hf
  | store hb h1 h2 => exact store_inv hs h hb h1 h2

/-- The invariant of regular runs. -/
theorem Run.inv (hs : c.heapSize ≤ 0x7FFFFFFF) (h : Run c (Regular c) y) : Inv c y.state y.live := by
  induction h with
  | init m => exact ⟨[], .inl ⟨heapInit_noArena m, rfl⟩, by simp, by simp, List.nodup_nil⟩
  | step op _ hok hstep ih => exact hstep.inv hs hok ih

/-- No `BUG_ON` fires in a regular run: a regular request within the bounds that are checked
returns, and every live block can be freed. -/
theorem Run.progress (hs : c.heapSize ≤ 0x7FFFFFFF) (h : Run c (Regular c) y) :
    (∀ n, RegularRequest c y.state n → n ≤ c.heapRequestPad n → c.heapRequestPad n ≤ c.heapSize - c.sizeSize →
      ∃ r, heapAlloc c y.state n = some r) ∧ ∀ b ∈ y.live, ∃ s, heapFree c y.state b.ptr = some s := by
  obtain ⟨cs, hc, hmatch⟩ := h.inv hs
  refine ⟨fun n hreg h1 h2 => heapAlloc_isSome hs hc hreg h1 h2, fun b hb => ?_⟩
  obtain ⟨k, hk, hu, hp, -⟩ := hmatch.chunk b hb
  obtain ⟨a, topSize, hr⟩ := hc.ready hk
  obtain ⟨s, -, -, he, -⟩ := heapFree_spec hs hr hk hu
  exact ⟨s, hp ▸ he⟩

/-! ## What the invariant says -/

theorem Ready.arena (h : Ready c s a cs topSize) : Arena c s a cs topSize :=
  ⟨h.held.tiles.1, h.held.tiles.2, h.held.top_end, h.held.start_le, h.held.brk_le⟩

variable {pu pv : Bool} {p t : Nat} {h : Range Nat}

theorem headers_lo (hs : c.heapSize ≤ 0x7FFFFFFF) (hseg : Seg c m pu p cs t pv) (hh : h ∈ headers c t pu cs) :
    (if pu then p + c.sizeSize else p) ≤ h.lo := by
  induction cs generalizing pu p with
  | nil =>
    obtain ⟨rfl, -⟩ := hseg
    rw [List.mem_singleton.1 hh]
  | cons k cs ih =>
    obtain ⟨rfl, htag, hrest⟩ := hseg
    rcases List.mem_cons.1 hh with rfl | hh
    · exact le_rfl
    · have h1 := ih hrest hh
      have h2 := htag.size_gt hs
      have hg := Config.geometry hs
      split at h1 <;> split <;> omega

/-- The payload of a used chunk is apart from all headers. -/
theorem payload_headers (hs : c.heapSize ≤ 0x7FFFFFFF) (hseg : Seg c m pu p cs t pv) (hk : k ∈ cs) (hu : k.used = true)
    (hh : h ∈ headers c t pu cs) : k.addr + k.size + c.sizeSize ≤ h.lo ∨ h.hi ≤ k.addr + 2 * c.sizeSize := by
  induction cs generalizing pu p with
  | nil => exact absurd hk List.not_mem_nil
  | cons j cs ih =>
    obtain ⟨rfl, htag, hrest⟩ := hseg
    rcases List.mem_cons.1 hh with rfl | hh
    · refine .inr ?_
      change j.addr + 2 * c.sizeSize ≤ k.addr + 2 * c.sizeSize
      rcases List.mem_cons.1 hk with rfl | hk
      · exact le_rfl
      · have := hrest.bounds hk
        omega
    · rcases List.mem_cons.1 hk with rfl | hk
      · have := headers_lo hs hrest hh
        rw [if_pos hu] at this
        exact .inl this
      · exact ih hrest hk hh

theorem Inv.nonOverlap (hs : c.heapSize ≤ 0x7FFFFFFF) (h : Inv c y.state y.live) : NonOverlap c y := by
  obtain ⟨cs, hc, hmatch⟩ := h
  have hg := Config.geometry hs
  refine ⟨fun b hb => ?_, ?_, fun hne => ?_⟩
  · obtain ⟨k, hk, -, hp, hlen⟩ := hmatch.chunk b hb
    obtain ⟨a, topSize, hr⟩ := hc.ready hk
    have h1 := hr.held.tiles.1.bounds hk
    have h2 := hr.held.top_ge (List.ne_nil_of_mem hk)
    have h3 := hr.held.top_end
    have h4 := hr.held.start_le
    omega
  · refine List.Nodup.pairwise_of_forall_ne (List.Nodup.of_map _ hmatch.nodup) fun b hb b' hb' hne => ?_
    obtain ⟨k, hk, -, hp, hlen⟩ := hmatch.chunk b hb
    obtain ⟨k', hk', -, hp', hlen'⟩ := hmatch.chunk b' hb'
    obtain ⟨a, topSize, hr⟩ := hc.ready hk
    unfold Block.Apart
    rcases (hr.held.layout hs).eq_or_apart hk hk' with rfl | h | h
    · exact absurd (List.inj_on_of_nodup_map hmatch.nodup hb hb' (hp.trans hp'.symm)) hne
    · omega
    · omega
  · obtain ⟨b, hb⟩ := List.exists_mem_of_ne_nil _ hne
    obtain ⟨k, hk, -, -⟩ := hmatch.chunk b hb
    obtain ⟨a, topSize, hr⟩ := hc.ready hk
    refine ⟨a, cs, topSize, hr.arena, fun b hb h hh => ?_⟩
    obtain ⟨k, hk, hu, hp, hlen⟩ := hmatch.chunk b hb
    have := payload_headers hs hr.held.tiles.1 hk hu hh
    omega

theorem Seg.eq_nil_of_free (hseg : Seg c m pu p cs t true) (hfree : ∀ k ∈ cs, k.used = false) : cs = [] := by
  cases cs with
  | nil => rfl
  | cons k cs =>
    obtain ⟨-, -, hrest⟩ := hseg
    rw [hfree k (by simp)] at hrest
    cases cs with
    | nil => exact absurd hrest.2 (by decide)
    | cons j cs => exact absurd (hrest.2.1.coalesced (hfree j (by simp))) (by decide)

/-- Without chunks every bin is empty. -/
theorem Core.listEmpty_of_nil {blocks : Bitops.Bitmap} {B : Nat → List Chunk} {out : Nat → Prop}
    (hc : Core c m blocks [] B out) {i : Nat} (hi : i < c.nrBins) : B i = [] ∧ listEmpty c m (c.heapBin i) = true := by
  have hB : B i = [] := List.eq_nil_iff_forall_not_mem.2 fun k hk => List.not_mem_nil ((hc.mem_iff i hi k).1 hk).1
  exact ⟨hB, (hc.listEmpty_iff hi).2 hB⟩

theorem Inv.boundaryTags (h : Inv c y.state y.live) : BoundaryTags c y := by
  obtain ⟨cs, hc, hmatch⟩ := h
  rcases hc with ⟨hn, rfl⟩ | ⟨a, topSize, hr⟩
  · obtain ⟨B, hB⟩ := hn.core
    refine .inl ⟨hn.first_eq, List.eq_nil_iff_forall_not_mem.2 fun b hb => ?_, fun i hi => (hB.listEmpty_of_nil hi).2⟩
    obtain ⟨k, hk, -⟩ := hmatch.chunk b hb
    exact List.not_mem_nil hk
  · refine .inr ⟨a, cs, topSize, hr.arena, fun p => ⟨?_, ?_⟩, fun hlive => ?_⟩
    · rintro ⟨b, hb, hp⟩
      obtain ⟨k, hk, hu, hp', -⟩ := hmatch.chunk b hb
      exact ⟨k, hk, hu, by omega⟩
    · rintro ⟨k, hk, hu, rfl⟩
      exact hmatch.block k hk hu
    · have hfree : ∀ k ∈ cs, k.used = false := by
        intro k hk
        by_contra hu
        obtain ⟨b, hb, -⟩ := hmatch.block k hk (by simpa using hu)
        rw [hlive] at hb
        exact List.not_mem_nil hb
      obtain rfl := hr.held.tiles.1.eq_nil_of_free hfree
      obtain ⟨B, hB⟩ := hr.held.core
      exact ⟨rfl, fun i hi => (hB.listEmpty_of_nil hi).2⟩

theorem Inv.binsIndex (hs : c.heapSize ≤ 0x7FFFFFFF) (h : Inv c y.state y.live) : BinsIndex c y := by
  obtain ⟨cs, hc, -⟩ := h
  rcases hc with ⟨hn, rfl⟩ | ⟨a, topSize, hr⟩
  · obtain ⟨B, hB⟩ := hn.core
    have hnil : ∀ i < c.nrBins, B i = [] := fun i hi => (hB.listEmpty_of_nil hi).1
    refine .inl ⟨hn.first_eq, fun i hi => hnil i hi ▸ hB.lists i hi, by simp, by simp, by simp, by simp, by simp, ?_⟩
    exact fun i hi => hnil i hi ▸ hB.blocks i hi
  · obtain ⟨B, hB⟩ := hr.held.core
    have hl := hr.held.layout hs
    refine .inr ⟨a, cs, topSize, B, hr.arena, hB.lists, fun k hk => hl.hash_lt hs hk, hB.mem_iff,
      fun i hi => hB.nodup hi, fun i hi k hk e => ?_, hB.sorted, hB.blocks⟩
    have hk := ((hB.mem_iff i hi k).1 hk).1
    have h1 := hr.held.tiles.1.bounds hk
    have h2 := hl.size_ge k hk
    have hg := Config.geometry hs
    omega

/-! ## Powers of two -/

theorem heapAlloc_bounds {r : HeapState × Nat} (hf : heapAlloc c s n = some r) :
    n ≤ c.heapRequestPad n ∧ c.heapRequestPad n ≤ c.heapSize - c.sizeSize := by
  simp only [heapAlloc] at hf
  by_cases hbug : c.heapRequestPad n < n ∨ c.heapRequestPad n > c.heapSize - c.sizeSize
  · rw [if_pos hbug] at hf
    cases hf
  · omega

theorem heapCalloc_bounds {r : HeapState × Nat} (hf : heapCalloc c s n = some r) :
    n ≤ c.heapRequestPad n ∧ c.heapRequestPad n ≤ c.heapSize - c.sizeSize := by
  obtain ⟨r', he, -⟩ := Option.map_eq_some_iff.1 hf
  exact heapAlloc_bounds he

section PowerOfTwo

variable {e : Nat} (he : c.heapSize = 2 ^ e) (hs : c.heapSize ≤ 0x7FFF)
include he hs

theorem pow_geometry : 8 ≤ e ∧ e ≤ 14 ∧ c.sizeBits = 16 ∧ c.offsetBits = 16 ∧ c.sizeSize = 2 ∧
    (c.headSize = 12 ∨ c.headSize = 24) := by
  have h1 : 2 ^ 8 ≤ 2 ^ e := he ▸ c.heapSize_ge
  have h2 : 2 ^ e < 2 ^ 15 := by rw [← he]; omega
  have h3 := (Nat.pow_le_pow_iff_right (by decide : 1 < 2)).1 h1
  have h4 := (Nat.pow_lt_pow_iff_right (by decide : 1 < 2)).1 h2
  have hbits : c.sizeBits = 16 ∧ c.offsetBits = 16 := by
    unfold Config.sizeBits Config.offsetBits
    constructor <;> rw [if_neg (by omega), if_neg (by omega)]
  have hsize : c.sizeSize = 2 := by rw [Config.sizeSize, hbits.1]
  have hg := Config.geometry (c := c) (by omega)
  exact ⟨h3, by omega, hbits.1, hbits.2, hsize, by omega⟩

theorem heapOffset_pow (x : Nat) : c.heapOffset x = (x % 2 ^ e : Nat) := by
  obtain ⟨-, h2, -, h4, -, -⟩ := pow_geometry he hs
  have hlt : x % 2 ^ e < 2 ^ 14 := lt_of_lt_of_le (Nat.mod_lt _ (by positivity)) (Nat.pow_le_pow_right (by decide) h2)
  rw [Config.heapOffset, he, Nat.and_two_pow_sub_one_eq_mod, Config.toOffset, h4]
  exact Int.bmod_eq_of_le (by omega) (by omega)

/-- The mask of `heap_offset` is right for a power of two. -/
theorem padOk_pow (hn : n < 2 ^ c.sizeBits) (hle : n ≤ c.heapRequestPad n) : PadOk c n := by
  obtain ⟨h1, -, h3, -, h5, h6⟩ := pow_geometry he hs
  have hsp := c.space_ge
  have hpow : 2 ^ 8 ≤ 2 ^ e := Nat.pow_le_pow_right (by decide) h1
  rw [h3] at hn
  have hpad : c.heapRequestPad n =
      if (n + 9) % 2 ^ e < c.headSize + 7 then (c.headSize + 7) / 8 * 8 else (n + 9) / 8 * 8 % 2 ^ 16 := by
    have hmod : (n + c.sizeSize + 7) % 256 ^ c.ptr = n + 9 := by rw [h5, Nat.mod_eq_of_lt (by omega)]
    have hmod' : (n + c.sizeSize) % 256 ^ c.ptr = n + 2 := by rw [h5, Nat.mod_eq_of_lt (by omega)]
    have hhead : (c.headSize + 7) % 2 ^ e = c.headSize + 7 := Nat.mod_eq_of_lt (by omega)
    have halign : c.heapAlign (n + 2) = (n + 9) / 8 * 8 % 2 ^ 16 := by
      rw [Config.heapAlign, h3, Nat.mod_eq_of_lt (by omega : n + 2 + 7 < 256 ^ c.ptr)]
    simp only [Config.heapRequestPad, heapOffset_pow he hs, hmod, hmod', hhead, halign,
      Config.heapAlign_headSize (c := c) (by omega), Nat.cast_lt]
  have hmodle := Nat.mod_le (n + 9) (2 ^ e)
  unfold PadOk
  rw [hpad] at hle ⊢
  split at hle
  · -- so small a request is its own remainder
    rename_i hlt
    rw [if_pos hlt]
    rw [Nat.mod_eq_of_lt (by omega : n + 9 < 2 ^ e)] at hlt
    omega
  · rename_i hge
    rw [if_neg hge]
    omega

/-- Of the defects only the read at `heap_init_top` is left. -/
theorem regular_pow (hn : n < 2 ^ c.sizeBits)
    (hb : n ≤ c.heapRequestPad n ∧ c.heapRequestPad n ≤ c.heapSize - c.sizeSize)
    (hsent : ∀ s', ReachesTop c s (c.heapRequestPad n) s' → SentinelOk c s' (c.heapRequestPad n)) :
    RegularRequest c s n := by
  obtain ⟨h1, h2, h3, h4, h5, h6⟩ := pow_geometry he hs
  have h8 := Config.dvd_heapRequestPad (c := c) (by omega) n
  refine ⟨padOk_pow he hs hn hb.1, fun hlt _ => ?_, fun hu => ?_, fun s' _ _ => .inl ?_, hsent⟩
  · rw [Config.heapExactIndex_eq (by omega) (by omega), Config.heapBinHash_exact (by omega) (by omega), Config.nrBins]
    unfold nrHeapBins
    interval_cases e <;> simp only [he] <;> norm_num at he ⊢ <;> omega
  · have := hu.1
    omega
  · have hpow : 2 ^ e ≤ 2 ^ 14 := Nat.pow_le_pow_right (by decide) h2
    have hsb : sbrkSize c (c.heapRequestPad n) = c.heapRequestPad n + c.headSize := by
      rw [sbrkSize, h3, Nat.mod_eq_of_lt (by omega)]
    rw [hsb, Config.toOffset, h4, Int.bmod_eq_of_le (by omega) (by omega)]
    omega

theorem Run.regular (h : Run c (SentinelUnused c) y) : Run c (Regular c) y := by
  induction h with
  | init m => exact .init m
  | step op _ hok hstep ih =>
    refine ih.step op (fun n hn => ?_) hstep
    cases hstep with
    | alloc hlt hf _ =>
      obtain rfl := Option.some.inj hn
      exact regular_pow he hs hlt (heapAlloc_bounds hf) (hok _ rfl)
    | allocFails hlt hf =>
      obtain rfl := Option.some.inj hn
      exact regular_pow he hs hlt (heapAlloc_bounds hf) (hok _ rfl)
    | calloc hlt hf _ =>
      obtain rfl := Option.some.inj hn
      exact regular_pow he hs hlt (heapCalloc_bounds hf) (hok _ rfl)
    | callocFails hlt hf =>
      obtain rfl := Option.some.inj hn
      exact regular_pow he hs hlt (heapCalloc_bounds hf) (hok _ rfl)
    | free => cases hn
    | store => cases hn

end PowerOfTwo

/-! ## Runs as computations -/

theorem step_of_exec (h : exec c y op = some y') : Step c y op y' := by
  cases op with
  | alloc n =>
    simp only [exec] at h
    split at h
    · rename_i hn
      obtain ⟨⟨s, p⟩, he, rfl⟩ := Option.map_eq_some_iff.1 h
      by_cases h0 : p = 0
      · subst h0
        exact .allocFails hn he
      · simp only [if_neg h0]
        exact .alloc hn he h0
    · cases h
  | calloc n =>
    simp only [exec] at h
    split at h
    · rename_i hn
      obtain ⟨⟨s, p⟩, he, rfl⟩ := Option.map_eq_some_iff.1 h
      by_cases h0 : p = 0
      · subst h0
        exact .callocFails hn he
      · simp only [if_neg h0]
        exact .calloc hn he h0
    · cases h
  | free p =>
    obtain ⟨b, hb, h⟩ := Option.bind_eq_some_iff.1 h
    obtain ⟨s, hs, rfl⟩ := Option.map_eq_some_iff.1 h
    obtain rfl : b.ptr = p := by simpa using List.find?_some hb
    exact .free (List.mem_of_find?_eq_some hb) hs
  | store x v =>
    simp only [exec] at h
    split at h
    · rename_i hb
      obtain ⟨b, hb, h1, h2⟩ := hb
      cases h
      exact .store hb h1 h2
    · cases h

theorem run_of_foldlM {ops : List Op} (hrun : Run c (fun _ _ => True) y) (h : ops.foldlM (exec c) y = some y') :
    Run c (fun _ _ => True) y' := by
  induction ops generalizing y with
  | nil =>
    obtain rfl := Option.some.inj h
    exact hrun
  | cons op ops ih =>
    rw [List.foldlM_cons] at h
    obtain ⟨y₁, h1, h2⟩ := Option.bind_eq_some_iff.1 h
    exact ih (hrun.step op trivial (step_of_exec h1)) h2

/-- A run computed by `execAll`, and what is computed of its state. -/
theorem exists_run {β : Type} (m : Mem) (ops : List Op) (f : Sys → β) {b : β} (h : (execAll c m ops).map f = some b) :
    ∃ y, Run c (fun _ _ => True) y ∧ f y = b := by
  obtain ⟨y, hy, hb⟩ := Option.map_eq_some_iff.1 h
  exact ⟨y, run_of_foldlM (.init m) hy, hb⟩

theorem ReachesTop.sentinelOk {nb : Nat} {s' : HeapState} (h : ReachesTop c s nb s')
    (hf : (heapExtendTop c (fromLast c s nb).1 nb).map HeapState.first ≠ some c.initTop) : SentinelOk c s' nb := by
  obtain ⟨idx, -, hlast, -⟩ := h
  intro s'' he hfirst
  rw [hlast, he, Option.map_some, hfirst] at hf
  exact absurd rfl hf

theorem NoArena.compareOk {nb : Nat} (h : NoArena c s) : CompareOk c s nb := by
  obtain ⟨B, hB⟩ := h.core
  intro _ idx _
  rw [if_pos h.last_eq]
  intro hi he
  rw [(hB.listEmpty_of_nil hi).2] at he
  exact absurd he (by decide)

/-- A build with pointers of 32 bits and the heap at `0x2000`. -/
def config32 (heapSize bins : Nat) (h : 256 ≤ heapSize ∧ 0x2000 + heapSize ≤ bins ∧ bins + nrHeapBins heapSize * 8 < 2 ^ 32) :
    Config where
  heapSize := heapSize
  model := .ilp32
  unit := 32
  start := 0x2000
  bins := bins
  heapSize_ge := h.1
  unitBits := .inr (.inr (.inl rfl))
  start_pos := start_pos_2000
  stop_lt := by
    have h1 := h.2
    have h2 : 1 ≤ nrHeapBins heapSize := Nat.le_add_left _ _
    change 0x2000 + heapSize + 1 < 2 ^ 32
    omega
  bins_apart := .inr h.2.1
  bins_le := h.2.2.le

/-! ## Blocks -/

/-- In regular runs the blocks lie in the heap, apart from each other and from the headers. -/
theorem blocks_apart_of_regular (hs : c.heapSize ≤ 0x7FFFFFFF) (h : Run c (Regular c) y) : NonOverlap c y :=
  (h.inv hs).nonOverlap hs

/-- A heap of 64 KiB, with sizes of 32 bits. -/
def heap64K : Config := config32 0x10000 0x20000 (by decide)

/-- One block of 64 bytes. -/
theorem blocks_apart_first : ∃ y, Run heap64K (Regular heap64K) y ∧ y.live = [⟨0x2008, 64⟩] ∧ NonOverlap heap64K y := by
  obtain ⟨y, he, hl⟩ := Option.map_eq_some_iff.1
    (by decide : (exec heap64K ⟨heapInit heap64K fun _ => 0, []⟩ (.alloc 64)).map Sys.live = some [⟨0x2008, 64⟩])
  have hreg : Regular heap64K ⟨heapInit heap64K fun _ => 0, []⟩ (.alloc 64) := by
    intro n hn
    obtain rfl := Option.some.inj hn
    exact ⟨⟨by decide, by decide⟩, fun _ _ => by decide, (heapInit_noArena _).compareOk,
      fun _ _ _ => .inl (by decide), fun _ h => h.sentinelOk (by decide)⟩
  have hrun := (Run.init _).step _ hreg (step_of_exec he)
  exact ⟨y, hrun, hl, blocks_apart_of_regular (by decide) hrun⟩

/-- A free chunk of 72 bytes is split for 32 bytes, and of the last remainder of 32 bytes 48 are
taken, since their difference is compared unsigned: the block of 40 bytes at `0x2030` covers
the header and the first bytes of the block at `0x2050`. -/
theorem blocks_overlap : 0xFFFF < heap64K.heapSize ∧ heap64K.heapSize ≤ 0x7FFFFFFF ∧
    ∃ y, Run heap64K (fun _ _ => True) y ∧ y.live = [⟨0x2030, 40⟩, ⟨0x2008, 32⟩, ⟨0x2050, 32⟩] ∧ ¬ NonOverlap heap64K y := by
  refine ⟨by decide, by decide, ?_⟩
  obtain ⟨y, hrun, hl⟩ := exists_run (c := heap64K) (fun _ => 0)
    [.alloc 64, .alloc 32, .free 0x2008, .alloc 32, .alloc 40] Sys.live
    (b := [⟨0x2030, 40⟩, ⟨0x2008, 32⟩, ⟨0x2050, 32⟩]) (by decide)
  refine ⟨y, hrun, hl, fun h => ?_⟩
  have hap := h.apart
  rw [hl] at hap
  exact absurd ((List.pairwise_cons.1 hap).1 ⟨0x2050, 32⟩ (by simp)) (by unfold Block.Apart; decide)

/-! ## Boundary tags -/

/-- In a heap of a power of two bytes below 32 KiB the chunks tile the arena with right tags,
unless the header at `heap_init_top` is taken for a top chunk. -/
theorem boundary_tags_of_sentinelUnused {e : Nat} (he : c.heapSize = 2 ^ e) (hs : c.heapSize ≤ 0x7FFF)
    (h : Run c (SentinelUnused c) y) : BoundaryTags c y :=
  ((h.regular he hs).inv (by omega)).boundaryTags

def heap256 : Config := config32 256 0x10000 (by decide)

/-- The first request, for 24 bytes, returns. -/
theorem progress_first : ∃ r, heapAlloc heap256 (heapInit heap256 fun _ => 0) 24 = some r := by
  refine (Run.progress (by decide) (.init fun _ => 0)).1 24 ?_ (by decide) (by decide)
  exact ⟨⟨by decide, by decide⟩, fun _ _ => by decide, (heapInit_noArena _).compareOk,
    fun _ _ _ => .inl (by decide), fun _ h => h.sentinelOk (by decide)⟩

/-- A block of 24 bytes, cleared, in a heap of 256. -/
theorem boundary_tags_first :
    ∃ y, Run heap256 (SentinelUnused heap256) y ∧ y.live = [⟨0x2008, 24⟩] ∧ BoundaryTags heap256 y := by
  obtain ⟨y, he, hl⟩ := Option.map_eq_some_iff.1
    (by decide : (exec heap256 ⟨heapInit heap256 fun _ => 0, []⟩ (.calloc 24)).map Sys.live = some [⟨0x2008, 24⟩])
  have hok : SentinelUnused heap256 ⟨heapInit heap256 fun _ => 0, []⟩ (.calloc 24) := by
    intro n hn s' h
    obtain rfl := Option.some.inj hn
    exact h.sentinelOk (by decide)
  have hrun := (Run.init _).step _ hok (step_of_exec he)
  exact ⟨y, hrun, hl, boundary_tags_of_sentinelUnused (e := 8) (by decide) (by decide) hrun⟩

/-- The first request, for 246 bytes, is too much for a heap of 256 with the header of a top
chunk, and the top is not made. The size of the top is read all the same, at addresses 1 and 2
where `heap_init_top` has its header; with `0x4040` there the request is served, at address 3. -/
theorem boundary_tags_sentinel : ∃ y, Run heap256 (fun _ _ => True) y ∧
    (y.live = [⟨3, 246⟩] ∧ y.state.first = 247) ∧ ¬ BoundaryTags heap256 y := by
  obtain ⟨y, hrun, hy⟩ := exists_run (c := heap256) (fun _ => 0x40) [.alloc 246] (fun y => (y.live, y.state.first))
    (b := ([⟨3, 246⟩], 247)) (by decide)
  obtain ⟨hl, hfirst⟩ := Prod.mk.inj hy
  refine ⟨y, hrun, ⟨hl, hfirst⟩, fun h => ?_⟩
  rcases h with ⟨-, h, -⟩ | ⟨a, cs, topSize, h, -⟩
  · rw [hl] at h
    exact absurd h (by decide)
  · have h1 := h.tiled.le
    have h2 := h.start_le
    rw [hfirst] at h1
    exact absurd (h2.trans h1) (by decide)

/-! ## Bins -/

/-- In regular runs the bins index the free chunks. -/
theorem bins_index_of_regular (hs : c.heapSize ≤ 0xFFFF) (h : Run c (Regular c) y) : BinsIndex c y :=
  (h.inv (by omega)).binsIndex (by omega)

/-- A block of 24 bytes in a heap of 256. -/
theorem bins_index_first : ∃ y, Run heap256 (Regular heap256) y ∧ y.live = [⟨0x2008, 24⟩] ∧ BinsIndex heap256 y := by
  obtain ⟨y, he, hl⟩ := Option.map_eq_some_iff.1
    (by decide : (exec heap256 ⟨heapInit heap256 fun _ => 0, []⟩ (.alloc 24)).map Sys.live = some [⟨0x2008, 24⟩])
  have hreg : Regular heap256 ⟨heapInit heap256 fun _ => 0, []⟩ (.alloc 24) := by
    intro n hn
    obtain rfl := Option.some.inj hn
    exact ⟨⟨by decide, by decide⟩, fun _ _ => by decide, (heapInit_noArena _).compareOk,
      fun _ _ _ => .inl (by decide), fun _ h => h.sentinelOk (by decide)⟩
  have hrun := (Run.init _).step _ hreg (step_of_exec he)
  exact ⟨y, hrun, hl, bins_index_of_regular (by decide) hrun⟩

def heap321 : Config := config32 321 0x10000 (by decide)

/-- With `CONFIG_HEAP_SIZE` 321 a request for 1 byte is padded to 8, less than a node takes. Of
three such blocks the second and the first are freed: the node of each overwrites the header
after it. Bin 1 then starts with the chunk at `0x200C`, whose size reads 0. -/
theorem bins_index_padding : heap321.heapSize ≤ 0xFFFF ∧ heap321.heapRequestPad 1 = 8 ∧
    ∃ y, Run heap321 (fun _ _ => True) y ∧ (y.state.first = 0x201C ∧
      Ring.next 4 y.state.mem (heap321.heapBin 1) = heap321.node 0x200C ∧ y.state.mem.load 0x200E 2 = 0) ∧
      ¬ BinsIndex heap321 y := by
  refine ⟨by decide, by decide, ?_⟩
  obtain ⟨y, hrun, hy⟩ := exists_run (c := heap321) (fun _ => 0)
    [.alloc 1, .alloc 1, .alloc 1, .free 0x2010, .free 0x2008]
    (fun y => (y.state.first, Ring.next 4 y.state.mem (heap321.heapBin 1), y.state.mem.load 0x200E 2))
    (b := (0x201C, 0x2010, 0)) (by decide)
  obtain ⟨hfirst, hy⟩ := Prod.mk.inj hy
  obtain ⟨hnext, hload⟩ := Prod.mk.inj hy
  refine ⟨y, hrun, ⟨hfirst, hnext, hload⟩, fun h => ?_⟩
  rcases h with ⟨h, -⟩ | ⟨a, cs, topSize, B, ha, hB⟩
  · rw [hfirst] at h
    exact absurd h (by decide)
  · have hring := hB.lists 1 (by decide)
    cases hB1 : B 1 with
    | nil =>
      rw [hB1] at hring
      have := (Ring.next_eq_self_iff (by decide) hring).2 rfl
      exact absurd (hnext.symm.trans this) (by decide)
    | cons k L =>
      obtain ⟨hk, -, -, hhash⟩ := (hB.mem_iff 1 (by decide) k).1 (hB1 ▸ List.mem_cons_self)
      rw [hB1] at hring
      have hnode : heap321.node k.addr = 0x2010 := (Ring.next_head hring).symm.trans hnext
      have hle := (ha.tiled.bounds hk).2
      have hspace : 256 ^ heap321.ptr = 2 ^ 32 := by decide
      have hadd : heap321.node k.addr = k.addr + 4 :=
        Config.chunkAt_add (c := heap321) (p := k.addr) (s := 4) (by omega)
      have haddr : k.addr = 0x200C := by omega
      obtain ⟨pw, htag⟩ := ha.tiled.tagged hk
      have hsize : k.size = 0 := by
        have hhead : y.state.mem.load (k.addr + 2) 2 = k.size + pw.toNat := htag.head
        rw [haddr, hload] at hhead
        omega
      rw [hsize] at hhash
      exact absurd hhash (by decide)

end Sdfirm.Heap
