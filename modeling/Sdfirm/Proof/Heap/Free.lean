import Sdfirm.Proof.Heap.Top

/-!
# Free

A freed chunk that borders the top chunk joins it, with the free chunk before
it if there is one (`Held.mergeTop`, `freeToTop_spec`). Any other one grows by
its free neighbours, in `backward` and `forward`, and becomes one free chunk
(`freeEnd_spec`). `Growing` is what holds in between, when the header after the
freed chunk is already changed and its own is not.
-/

namespace Sdfirm.Heap

open Framework

variable {c : Config} {s : HeapState} {a b topSize p q t : Nat} {i j k : Chunk} {cs l l₀ r r₀ w : List Chunk}
  {out : Nat → Prop} {m : Mem} {pu pw pv : Bool}

/-! ## Into the top chunk -/

/-- Chunks in hand at the end of the arena join the top chunk. -/
theorem Held.mergeTop (hs : c.heapSize ≤ 0x7FFFFFFF) (h : Held c s a (l ++ w) topSize out)
    (hseg : Seg c s.mem true a l p true) (hp : Tiles c s.mem true p w s.first topSize)
    (hw : ∀ j ∈ w, j.used = false → out j.addr) :
    Held c { s with first := p, mem := heapSetHead c s.mem p (s.brk - p) } a l (s.brk - p) out := by
  obtain ⟨B, hB⟩ := h.core
  have hg := Config.geometry hs
  have hle := hp.1.le
  have hap := hseg.le
  have htl := h.top_le
  have hte := h.top_end
  have hbl := h.brk_le
  have hsl := h.start_le
  have hdvd : 4 ∣ s.brk - p := by
    have h1 := hp.1.dvd_sub
    have h2 := h.top_dvd
    omega
  have hlt := Config.word_lt hs (by unfold Config.stop at hbl; omega : s.brk - p ≤ c.heapSize) (by omega)
  have hm : heapSetHead c s.mem p (s.brk - p) = s.mem.store (p + c.sizeSize) c.sizeSize (s.brk - p + 1) :=
    heapSetHead_eq (by omega) (by omega)
  have hagree : ∀ x, x < p + c.sizeSize ∨ p + 2 * c.sizeSize ≤ x → heapSetHead c s.mem p (s.brk - p) x = s.mem x := by
    intro x hx
    rw [hm]
    exact Mem.store_agree s.mem _ _ _ (b := x) (c := x + 1) (by omega) x le_rfl (by omega)
  refine ⟨⟨hseg.congr hs fun x _ hx _ => hagree x (.inl hx), ?_⟩, ⟨B, ?_⟩, hsl, h.base_le, ?_, ?_, hbl, hdvd, fun hne => ?_⟩
  · change Mem.load (heapSetHead c s.mem p (s.brk - p)) _ _ = _
    rw [hm, Mem.load_store_self, Nat.mod_eq_of_lt hlt]
  · have hwin : Core c (heapSetHead c s.mem p (s.brk - p)) s.blocks (l ++ []) B out :=
      Core.window_end hs (h.layout hs) hB (fun j hj => (hseg.bounds hj).2) (hsl.trans hap)
        (by omega : p + 2 * c.sizeSize ≤ c.stop) hagree hw (by simp) (fun _ _ _ => Iff.rfl)
    simpa using hwin
  · change p + 2 * c.sizeSize ≤ c.stop
    omega
  · change p + (s.brk - p) = s.brk
    omega
  · have := h.top_ge (by simp [hne])
    omega

/-- The same from a free chunk on, which follows a used one. -/
theorem Held.mergeTop_free (hs : c.heapSize ≤ 0x7FFFFFFF) (h : Held c s a (l ++ j :: w) topSize out) (hju : j.used = false)
    (hw : ∀ i ∈ j :: w, i.used = false → out i.addr) :
    Held c { s with first := j.addr, mem := heapSetHead c s.mem j.addr (s.brk - j.addr) } a l (s.brk - j.addr) out := by
  obtain ⟨p, pw, h1, h2⟩ := h.tiles.cut
  obtain rfl : j.addr = p := h2.1.1
  obtain rfl := h2.1.2.1.coalesced hju
  exact h.mergeTop hs h1 h2 hw

/-- The chunk before a freed one, when it is free. -/
theorem prevChunk_eq (hs : c.heapSize ≤ 0x7FFFFFFF) (hfoot : m.load p c.sizeSize = j.size) (hj : j.addr + j.size = p)
    (hp : p ≤ c.stop) (hle : j.size ≤ c.heapSize) : heapPrevSize c m p = j.size ∧ prevChunk c m p = j.addr := by
  have hst := c.stop_lt_space
  refine ⟨hfoot, ?_⟩
  rw [prevChunk, heapPrevSize, hfoot, Config.toOffset_eq hs (by omega) (by omega), Config.chunkAt_sub (by omega) (by omega)]
  omega

/-- The used chunks once those of `w`, of which only `k` was used, have become free ones. -/
theorem used_after_free (hs : c.heapSize ≤ 0x7FFFFFFF) {w' : List Chunk} (hl : Layout c (l ++ w ++ r)) (hk : k ∈ w)
    (hw : ∀ j ∈ w, j.used = true → j = k) (hw' : ∀ j ∈ w', j.used = false) (j : Chunk) (hj : j.used = true) :
    j ∈ l ++ w' ++ r ↔ j ∈ l ++ w ++ r ∧ j ≠ k := by
  have hg := Config.geometry hs
  have hkc : k ∈ l ++ w ++ r := by simp [hk]
  have hsz := hl.size_ge k hkc
  obtain ⟨h1, -, h2⟩ := List.pairwise_append.1 hl.apart
  obtain ⟨-, -, h3⟩ := List.pairwise_append.1 h1
  have hleft : j ∈ l → j ≠ k := fun hjl e => by
    have := h3 j hjl k hk
    rw [e] at this
    omega
  have hright : j ∈ r → j ≠ k := fun hjr e => by
    have := h2 k (List.mem_append_right _ hk) j hjr
    rw [e] at this
    omega
  have hnot : j ∉ w' := fun h => by
    rw [hw' j h] at hj
    exact absurd hj (by decide)
  have hin : j ∈ w → j = k := fun h => hw j h hj
  simp only [List.mem_append]
  constructor
  · rintro ((h | h) | h)
    · exact ⟨.inl (.inl h), hleft h⟩
    · exact absurd h hnot
    · exact ⟨.inr h, hright h⟩
  · rintro ⟨(h | h) | h, hne⟩
    · exact .inl (.inl h)
    · exact absurd (hin h) hne
    · exact .inr h

/-- A used chunk that borders the top chunk is freed. -/
theorem freeToTop_spec (hs : c.heapSize ≤ 0x7FFFFFFF) (h : Ready c s a (l ++ [k]) topSize) (hu : k.used = true) :
    ∃ cs' topSize', Ready c (freeToTop c s k.addr (currWord c s.mem k.addr) (k.size + topSize)) a cs' topSize' ∧
      ∀ j, j.used = true → (j ∈ cs' ↔ j ∈ l ++ [k] ∧ j ≠ k) := by
  have hl := h.held.layout hs
  have hkc : k ∈ l ++ [k] := by simp
  have hlt := Config.heapSize_lt hs
  have hte := h.held.top_end
  have hbl := h.held.brk_le
  have hsl := h.held.start_le
  obtain ⟨pw, h1, h2, h3, -⟩ := Held.at_chunk (r := []) (by simpa using h.held)
  have hq : k.addr + k.size = s.first := h3.1.1
  have hap := h1.le
  have h8 := h2.size_dvd
  have hhd : currWord c s.mem k.addr = k.size + pw.toNat := by
    rw [currWord_eq (h.held.header_le hs hkc), h2.head]
  cases pw with
  | true =>
    have hodd : currWord c s.mem k.addr % 2 ≠ 0 := by
      rw [hhd, Bool.toNat_true]
      omega
    have hm := h.held.mergeTop hs h1 (w := [k]) ⟨seg_singleton.2 ⟨rfl, h2, hq, hu⟩, h3.2⟩ (by simp [hu])
    simp only [freeToTop, if_neg hodd, show k.size + topSize = s.brk - k.addr by omega]
    refine ⟨l, s.brk - k.addr, hm.ready (fun _ _ _ => Iff.rfl) fun h0 => ?_, ?_⟩
    · obtain ⟨j, hj, hju, hja⟩ := h.last_free h0
      refine ⟨j, ?_, hju, hja⟩
      rcases List.mem_append.1 hj with hj | hj
      · exact hj
      · rw [List.mem_singleton.1 hj, hu] at hju
        exact absurd hju (by decide)
    · intro j hju
      have := used_after_free (l := l) (w := [k]) (r := []) (k := k) hs (by simpa using hl) (by simp) (by simp)
        (by simp : ∀ j ∈ ([] : List Chunk), j.used = false) j hju
      simpa using this
  | false =>
    -- the free chunk `i` before `k` joins the top chunk too
    obtain ⟨l', i, pv, rfl, hiu, hie, h4, h5⟩ := h1.last_free
    obtain rfl := h5.coalesced hiu
    have hic : i ∈ l' ++ [i] ++ [k] := by simp
    have hile := h.held.size_le hs hic
    have heven : currWord c s.mem k.addr % 2 = 0 := by
      rw [hhd, Bool.toNat_false]
      omega
    have hfoot := h5.foot hiu
    rw [hie] at hfoot
    obtain ⟨hprev, hpc⟩ := prevChunk_eq hs hfoot hie (by omega) hile
    have hsum : (k.size + topSize + i.size) % 2 ^ c.sizeBits = s.brk - i.addr := by
      have hai := h4.le
      unfold Config.stop at hbl
      rw [Nat.mod_eq_of_lt (by omega)]
      omega
    simp only [freeToTop, if_pos heven, hprev, hpc, hsum]
    have hne : ∀ j ∈ l', j.addr ≠ i.addr := by
      intro j hj e
      have h6 := h4.bounds hj
      have h7 := hl.size_ge j (by simp [hj])
      have hg := Config.geometry hs
      omega
    have hused : ∀ j, j.used = true → (j ∈ l' ↔ j ∈ l' ++ [i] ++ [k] ∧ j ≠ k) := by
      intro j hju
      have := used_after_free (l := l') (w := [i, k]) (r := []) (k := k) hs (by simpa using hl) (by simp)
        (by simp [hiu]) (by simp : ∀ j ∈ ([] : List Chunk), j.used = false) j hju
      simpa using this
    have hheld : Held c s a (l' ++ i :: [k]) topSize fun x => x = s.last := by simpa using h.held
    by_cases hlast : i.addr = s.last
    · rw [if_pos hlast]
      have hm := (hheld.congr_last 0).mergeTop_free hs hiu (by simp [hu, hlast])
      refine ⟨l', _, hm.ready (fun j hj _ => ?_) fun h0 => absurd rfl h0, hused⟩
      refine ⟨fun e => absurd (e.trans hlast.symm) (hne j hj), fun e => absurd e ?_⟩
      exact h.held.addr_pos (by simp [hj])
    · rw [if_neg hlast]
      have hm := (hheld.unlink hs (by simp) hiu hlast).mergeTop_free hs hiu (by simp [hu])
      refine ⟨l', _, hm.ready (fun j hj _ => ?_) fun h0 => ?_, hused⟩
      · exact ⟨fun e => e.resolve_right (hne j hj), .inl⟩
      · obtain ⟨j, hj, hju, hja⟩ := h.last_free h0
        refine ⟨j, ?_, hju, hja⟩
        have hji : j ≠ i := fun e => hlast (by rw [← e, hja])
        have hjk : j ≠ k := fun e => by
          rw [e, hu] at hju
          exact absurd hju (by decide)
        simp only [List.mem_append, List.mem_singleton] at hj
        exact (hj.resolve_right hjk).resolve_right hji

/-! ## Between used chunks -/

/-- The foot and the header at a place where chunks meet are no payload of a free chunk. -/
theorem not_payload_of_boundary (hb : ∀ j ∈ cs, j.addr + j.size ≤ b ∨ b ≤ j.addr) {x : Nat} (h1 : b ≤ x)
    (h2 : x < b + 2 * c.sizeSize) : ∀ j ∈ cs, j.used = false → ¬ j.Payload c x := by
  intro j hj hu hp
  unfold Chunk.Payload at hp
  rw [hu, if_neg (by decide)] at hp
  rcases hb j hj with h | h <;> omega

theorem Keeps.load_boundary {m' : Mem} (hk : Keeps c cs m m') (hb : ∀ j ∈ cs, j.addr + j.size ≤ b ∨ b ≤ j.addr)
    (h1 : c.start ≤ b) (h2 : b + 2 * c.sizeSize ≤ c.stop) :
    m'.load (b + c.sizeSize) c.sizeSize = m.load (b + c.sizeSize) c.sizeSize :=
  Mem.load_congr fun x hx1 hx2 => hk x (by omega) (by omega) (not_payload_of_boundary hb (by omega) (by omega))

/-- Chunks on the sides of a window lie elsewhere than those in it. -/
theorem mem_append_mid {α : Type*} {l w r : List α} {j : α} (hj : j ∈ l ++ r) : j ∈ l ++ w ++ r :=
  (List.mem_append.1 hj).elim (fun h => List.mem_append_left r (List.mem_append_left w h)) (List.mem_append_right _)

theorem Layout.addr_ne (hs : c.heapSize ≤ 0x7FFFFFFF) (hl : Layout c (l ++ w ++ r)) (hj : j ∈ l ++ r) (hk : k ∈ w) :
    j.addr ≠ k.addr := by
  have hg := Config.geometry hs
  have hsj := hl.size_ge j (mem_append_mid hj)
  have hsk := hl.size_ge k (by simp [hk])
  obtain ⟨h1, -, h2⟩ := List.pairwise_append.1 hl.apart
  obtain ⟨-, -, h3⟩ := List.pairwise_append.1 h1
  rcases List.mem_append.1 hj with hj | hj
  · have := h3 j hj k hk
    omega
  · have := h2 k (List.mem_append_right _ hk) j hj
    omega

/-- The freed chunk `k` has grown to the chunks `w` up to `e`, between `l₀` and `r₀`. `s` is the
state in which `heap_free` was called, and the header after `k` is already changed. -/
structure Growing (c : Config) (s : HeapState) (a topSize : Nat) (k : Chunk) (l₀ w r₀ : List Chunk) (e : Nat) (pv : Bool)
    (out : Nat → Prop) (f : Freeing) : Prop where
  left : Seg c s.mem true a l₀ f.p true
  mid : Seg c s.mem true f.p w e pv
  right : Tiles c s.mem pv e r₀ s.first topSize
  mem : k ∈ w
  restFree : ∀ j ∈ w, j.used = true → j = k
  size : f.p + f.sz = e
  core : ∃ B, Core c f.state.mem f.state.blocks (l₀ ++ w ++ r₀) B out
  keep : ∀ x, c.start ≤ x → x < c.stop → (∀ j ∈ l₀ ++ w ++ r₀, j.used = false → ¬ j.Payload c x) →
    x < k.addr + k.size + c.sizeSize ∨ k.addr + k.size + 2 * c.sizeSize ≤ x → f.state.mem x = s.mem x
  head : f.state.mem.load (e + c.sizeSize) c.sizeSize = firstSize r₀ topSize
  fields : f.state.first = s.first ∧ f.state.brk = s.brk ∧ f.state.base = s.base
  inHand : ∀ j ∈ w, j.used = false → out j.addr
  islr : f.islr = true → f.state.last = f.p ∧ ∀ j ∈ l₀ ++ r₀, j.used = false → ¬ out j.addr
  not_islr : f.islr = false → (∀ j ∈ l₀ ++ r₀, j.used = false → (out j.addr ↔ j.addr = f.state.last)) ∧
    (f.state.last ≠ 0 → ∃ j ∈ l₀ ++ r₀, j.used = false ∧ j.addr = f.state.last)

variable {e : Nat} {f : Freeing}

/-- The state in which the grown chunk has its header and foot. -/
def tagFreed (c : Config) (f : Freeing) : HeapState :=
  { f.state with mem := heapSetFoot c (heapSetHead c f.state.mem f.p f.sz) f.p f.sz }

/-- No other chunk lies where the grown one starts. -/
theorem Growing.addr_ne (hs : c.heapSize ≤ 0x7FFFFFFF) (hl : Layout c (l₀ ++ w ++ r₀))
    (hf : Growing c s a topSize k l₀ w r₀ e pv out f) (hj : j ∈ l₀ ++ r₀) : j.addr ≠ f.p := by
  have hg := Config.geometry hs
  have hk := hf.mid.bounds hf.mem
  have hkmin := hl.size_ge k (by simp [hf.mem])
  rcases List.mem_append.1 hj with hj | hj
  · have h1 := hf.left.bounds hj
    have h2 := hl.size_ge j (by simp [hj])
    omega
  · have h1 := hf.right.1.bounds hj
    omega

/-- The chunks `w` become one free chunk, still in hand. -/
theorem Growing.tagged (hs : c.heapSize ≤ 0x7FFFFFFF) (h : Held c s a (l₀ ++ w ++ r₀) topSize fun x => x = s.last)
    (hf : Growing c s a topSize k l₀ w r₀ e pv out f) (hused : ∃ k r', r₀ = k :: r' ∧ k.used = true) :
    Held c (tagFreed c f) a (l₀ ++ [⟨f.p, f.sz, false⟩] ++ r₀) topSize fun x => out x ∨ x = f.p := by
  obtain ⟨B, hB⟩ := hf.core
  obtain ⟨hfirst, hbrk, hbase⟩ := hf.fields
  have hl := h.layout hs
  have hg := Config.geometry hs
  have hst := c.stop_lt_space
  have hsl := h.start_le
  have htl := h.top_le
  have hap := hf.left.le
  have het := hf.right.1.le
  have hk := hf.mid.bounds hf.mem
  have hkmin := hl.size_ge k (by simp [hf.mem])
  have hsize := hf.size
  have h8 : 8 ∣ f.sz := by
    have := hf.mid.dvd_sub
    rwa [← hsize, Nat.add_sub_cancel_left] at this
  have hle : f.sz ≤ c.heapSize := by
    unfold Config.stop at htl
    omega
  have hlt := Config.word_lt hs hle (by omega)
  have hm : (tagFreed c f).mem = (f.state.mem.store (f.p + c.sizeSize) c.sizeSize (f.sz + 1)).store e c.sizeSize f.sz := by
    have hat : c.chunkAt f.p f.sz = e := by rw [Config.chunkAt_add (by omega), hsize]
    simp only [tagFreed, heapSetFoot, hat, Config.toSize_natCast (lt_of_le_of_lt hle (Config.heapSize_lt hs))]
    rw [heapSetHead_eq (by omega) (by omega)]
  have hagree : ∀ x, x < f.p + c.sizeSize ∨ e + c.sizeSize ≤ x → (tagFreed c f).mem x = f.state.mem x := by
    intro x hx
    rw [hm]
    refine (Mem.store_agree _ _ _ _ (b := x) (c := x + 1) ?_ x le_rfl (by omega)).trans
      (Mem.store_agree _ _ _ _ (b := x) (c := x + 1) ?_ x le_rfl (by omega)) <;> omega
  refine ⟨?_, ⟨B, ?_⟩, hsl, hbase ▸ h.base_le, hfirst ▸ htl, ?_, hbrk ▸ h.brk_le, h.top_dvd,
    fun _ => h.top_ge (List.ne_nil_of_mem (by simp [hf.mem] : k ∈ _))⟩
  · change Tiles c (tagFreed c f).mem true a _ f.state.first topSize
    rw [hfirst]
    refine Tiles.window hs false hf.left hf.right (fun x h1 h2 h3 h4 => ?_) (by omega) ?_ ?_ fun _ => hused
    · rw [hagree x (by omega)]
      refine hf.keep x (by omega) (by omega) (fun j hj hju => ?_) (by omega)
      simp only [List.mem_append] at hj
      rcases hj with (hj | hj) | hj
      · exact h4 j (List.mem_append_left _ hj)
      · have := hf.mid.bounds hj
        unfold Chunk.Payload
        rw [hju, if_neg (by decide)]
        omega
      · exact h4 j (List.mem_append_right _ hj)
    · refine seg_singleton.2 ⟨rfl, ⟨h8, ?_, ?_, fun _ => ?_, fun _ => rfl⟩, hsize, rfl⟩
      · change c.heapAlign c.headSize ≤ f.sz
        rw [Config.heapAlign_headSize hs]
        omega
      · change Mem.load _ (f.p + c.sizeSize) c.sizeSize = f.sz + 1
        rw [hm, Mem.load_store_apart (by omega), Mem.load_store_self, Nat.mod_eq_of_lt hlt]
      · change Mem.load _ (f.p + f.sz) c.sizeSize = f.sz
        rw [hm, hsize, Mem.load_store_self, Nat.mod_eq_of_lt (by omega)]
    · rw [Mem.load_congr fun x h1 h2 => hagree x (by omega), hf.head]
      rfl
  · refine hB.window hs hl (fun j hj => (hf.left.bounds hj).2) (fun j hj => (hf.right.1.bounds hj).1) (hsl.trans hap)
      (by omega : e + 2 * c.sizeSize ≤ c.stop) (fun _ => le_rfl) (fun x hx => hagree x (by omega)) hf.inHand (by simp)
      fun j hj _ => ?_
    simp [hf.addr_ne hs hl hj]
  · change f.state.first + topSize = f.state.brk
    rw [hfirst, hbrk, h.top_end]

/-- The end of `heap_free`. -/
theorem freeEnd_spec (hs : c.heapSize ≤ 0x7FFFFFFF) (h : Held c s a (l₀ ++ w ++ r₀) topSize fun x => x = s.last)
    (hf : Growing c s a topSize k l₀ w r₀ e pv out f) (hused : ∃ k r', r₀ = k :: r' ∧ k.used = true) :
    Ready c (freeEnd c f) a (l₀ ++ [⟨f.p, f.sz, false⟩] ++ r₀) topSize := by
  have htag := hf.tagged hs h hused
  have hkc : (⟨f.p, f.sz, false⟩ : Chunk) ∈ l₀ ++ [⟨f.p, f.sz, false⟩] ++ r₀ := by simp
  have hother : ∀ j ∈ l₀ ++ [⟨f.p, f.sz, false⟩] ++ r₀, j.addr ≠ f.p → j ∈ l₀ ++ r₀ := by
    intro j hj hne
    simp only [List.mem_append, List.mem_singleton] at hj ⊢
    rcases hj with (hj | rfl) | hj
    · exact .inl hj
    · exact absurd rfl hne
    · exact .inr hj
  have hsub : ∀ j ∈ l₀ ++ r₀, j ∈ l₀ ++ [⟨f.p, f.sz, false⟩] ++ r₀ := fun j hj => mem_append_mid hj
  change Ready c (if f.islr then tagFreed c f else heapChunkLink c (tagFreed c f) f.p f.sz) a _ topSize
  by_cases hislr : f.islr = true
  · obtain ⟨hlast, hout⟩ := hf.islr hislr
    rw [if_pos hislr]
    refine htag.ready (fun j hj hju => ?_) fun _ => ⟨_, hkc, rfl, hlast.symm⟩
    change out j.addr ∨ j.addr = f.p ↔ j.addr = f.state.last
    rw [hlast]
    refine ⟨fun ho => ?_, .inr⟩
    by_contra hne
    exact hout j (hother j hj hne) hju (ho.resolve_right hne)
  · obtain ⟨hout, hlast⟩ := hf.not_islr (by simpa using hislr)
    rw [if_neg hislr]
    have hlink := htag.link hs hkc rfl (.inr rfl)
    have hl' := (heapChunkLink_fields c (tagFreed c f) f.p f.sz).2.2.2
    -- the last remainder is another chunk
    have hlastne : f.state.last ≠ f.p := by
      intro e
      have hpos := htag.addr_pos hkc
      obtain ⟨j, hj, -, hja⟩ := hlast (by rw [e]; exact hpos)
      exact hf.addr_ne hs (h.layout hs) hj (hja.trans e)
    refine hlink.ready (fun j hj hju => ?_) fun h0 => ?_
    · rw [hl']
      change (out j.addr ∨ j.addr = f.p) ∧ j.addr ≠ f.p ↔ j.addr = f.state.last
      constructor
      · rintro ⟨ho, hne⟩
        exact (hout j (hother j hj hne) hju).1 (ho.resolve_right hne)
      · intro e
        have hne : j.addr ≠ f.p := fun e' => hlastne (e ▸ e')
        exact ⟨.inl ((hout j (hother j hj hne) hju).2 e), hne⟩
    · rw [hl'] at h0 ⊢
      obtain ⟨j, hj, hju, hja⟩ := hlast h0
      exact ⟨j, hsub j hj, hju, hja⟩

/-- The header after the freed chunk is changed, and the chunk grows by the free chunk before
it. -/
theorem backward_spec (hs : c.heapSize ≤ 0x7FFFFFFF) (h : Ready c s a (l ++ [k] ++ r) topSize) (hu : k.used = true) :
    ∃ l₀ w out, l ++ [k] = l₀ ++ w ∧
      Growing c s a topSize k l₀ w r (k.addr + k.size) true out
        (backward c ⟨{ s with mem := setCurrWord c s.mem (k.addr + k.size) (firstSize r topSize) }, k.addr, k.size, false⟩
          (currWord c s.mem k.addr)) := by
  obtain ⟨B, hB⟩ := h.held.core
  obtain ⟨pw, h1, h2, h3, hq⟩ := h.held.at_chunk
  rw [hu] at h3
  have hl := h.held.layout hs
  have hg := Config.geometry hs
  have hkc : k ∈ l ++ [k] ++ r := by simp
  have hkmin := hl.size_ge k hkc
  have hsl := h.held.start_le
  have hap := h1.le
  have h8 := h2.size_dvd
  have hlt := Config.word_lt hs (h.held.firstSize_le (l := l ++ [k]) hs) (h.held.firstSize_dvd (l := l ++ [k]))
  have hm := setCurrWord_eq (m := s.mem) hq (firstSize r topSize)
  have hagree : ∀ x, x < k.addr + k.size + c.sizeSize ∨ k.addr + k.size + 2 * c.sizeSize ≤ x →
      setCurrWord c s.mem (k.addr + k.size) (firstSize r topSize) x = s.mem x := by
    intro x hx
    rw [hm]
    exact Mem.store_agree s.mem _ _ _ (b := x) (c := x + 1) (by omega) x le_rfl (by omega)
  have hhead : (setCurrWord c s.mem (k.addr + k.size) (firstSize r topSize)).load (k.addr + k.size + c.sizeSize) c.sizeSize =
      firstSize r topSize := by
    rw [hm, Mem.load_store_self, Nat.mod_eq_of_lt (by omega)]
  have hleft : ∀ j ∈ l ++ [k], j.addr + j.size ≤ k.addr + k.size := by
    intro j hj
    rcases List.mem_append.1 hj with hj | hj
    · have := h1.bounds hj
      omega
    · rw [List.mem_singleton.1 hj]
  have hright : ∀ j ∈ r, k.addr + k.size ≤ j.addr := fun j hj => (h3.1.bounds hj).1
  have hbound : ∀ j ∈ l ++ [k] ++ r, j.addr + j.size ≤ k.addr + k.size ∨ k.addr + k.size ≤ j.addr := by
    intro j hj
    rcases List.mem_append.1 hj with hj | hj
    · exact .inl (hleft j hj)
    · exact .inr (hright j hj)
  have hcore : Core c (setCurrWord c s.mem (k.addr + k.size) (firstSize r topSize)) s.blocks (l ++ [k] ++ [] ++ r) B
      fun x => x = s.last :=
    Core.window (w := []) hs (by simpa using hl) (by simpa using hB) hleft hright (by omega) hq (fun _ => le_rfl)
      (fun x hx => hagree x (by omega)) (by simp) (by simp) (fun _ _ _ => Iff.rfl)
  rw [List.append_nil] at hcore
  have hlast : s.last ≠ 0 → ∃ j ∈ l ++ r, j.used = false ∧ j.addr = s.last := by
    intro h0
    obtain ⟨j, hj, hju, hja⟩ := h.last_free h0
    refine ⟨j, ?_, hju, hja⟩
    have hne : j ≠ k := fun e => by
      rw [e, hu] at hju
      exact absurd hju (by decide)
    simp only [List.mem_append, List.mem_singleton] at hj ⊢
    exact hj.imp_left (·.resolve_right hne)
  have hhd : currWord c s.mem k.addr = k.size + pw.toNat := by
    rw [currWord_eq (h.held.header_le hs hkc), h2.head]
  cases pw with
  | true =>
    have hodd : currWord c s.mem k.addr % 2 ≠ 0 := by
      rw [hhd, Bool.toNat_true]
      omega
    refine ⟨l, [k], fun x => x = s.last, rfl, ?_⟩
    simp only [backward, if_neg hodd]
    exact {
      left := h1
      mid := seg_singleton.2 ⟨rfl, h2, rfl, hu⟩
      right := h3
      mem := by simp
      restFree := by simp
      size := rfl
      core := ⟨B, hcore⟩
      keep := fun x _ _ _ hx => hagree x hx
      head := hhead
      fields := ⟨rfl, rfl, rfl⟩
      inHand := by simp [hu]
      islr := fun h => absurd h Bool.false_ne_true
      not_islr := fun _ => ⟨fun _ _ _ => Iff.rfl, hlast⟩ }
  | false =>
    obtain ⟨l', i, pv, rfl, hiu, hie, h4, h5⟩ := h1.last_free
    obtain rfl := h5.coalesced hiu
    have hic : i ∈ l' ++ [i] ++ [k] ++ r := by simp
    have hile := h.held.size_le hs hic
    have heven : currWord c s.mem k.addr % 2 = 0 := by
      rw [hhd, Bool.toNat_false]
      omega
    have hfoot : (setCurrWord c s.mem (k.addr + k.size) (firstSize r topSize)).load k.addr c.sizeSize = i.size := by
      rw [Mem.load_congr fun x _ hx => hagree x (by omega), ← hie, h5.foot hiu]
    obtain ⟨hprev, hpc⟩ := prevChunk_eq hs hfoot hie (by omega) hile
    have hsum : (k.size + i.size) % 2 ^ c.sizeBits = k.size + i.size := by
      have h6 := (hl.inside k hkc).2
      have h7 := (hl.inside i hic).1
      have h8 := Config.heapSize_lt hs
      unfold Config.stop at h6
      exact Nat.mod_eq_of_lt (by omega)
    have hshape : l' ++ [i] ++ [k] ++ r = l' ++ [i, k] ++ r := by simp
    have hmid : Seg c s.mem true i.addr [i, k] (k.addr + k.size) true := by
      refine ⟨rfl, h5, ?_⟩
      rw [hie, hiu]
      exact seg_singleton.2 ⟨rfl, h2, rfl, hu⟩
    have hne : ∀ j ∈ l' ++ r, j.addr ≠ i.addr := fun j hj =>
      Layout.addr_ne (w := [i, k]) hs (hshape ▸ hl) hj (by simp)
    simp only [backward, if_pos heven, hprev, hpc, hsum]
    by_cases hlasti : i.addr = s.last
    · refine ⟨l', [i, k], fun x => x = s.last, by simp, ?_⟩
      rw [if_pos hlasti]
      exact {
        left := h4
        mid := hmid
        right := h3
        mem := by simp
        restFree := by simp [hiu]
        size := by change i.addr + (k.size + i.size) = k.addr + k.size; omega
        core := ⟨B, hshape ▸ hcore⟩
        keep := fun x _ _ _ hx => hagree x hx
        head := hhead
        fields := ⟨rfl, rfl, rfl⟩
        inHand := by simp [hu, hlasti]
        islr := fun _ => ⟨hlasti.symm, fun j hj _ e => hne j hj (e.trans hlasti.symm)⟩
        not_islr := fun h => absurd h Bool.false_ne_true.symm }
    · obtain ⟨⟨B', hB'⟩, hkeep⟩ := Core.unlink (s := { s with mem := setCurrWord c s.mem (k.addr + k.size) (firstSize r topSize) })
        hs hl hcore (hl.hash_lt hs hic) ((hcore.mem_iff _ (hl.hash_lt hs hic) i).2 ⟨hic, hiu, hlasti, rfl⟩)
      refine ⟨l', [i, k], fun x => x = s.last ∨ x = i.addr, by simp, ?_⟩
      rw [if_neg hlasti]
      refine {
        left := h4
        mid := hmid
        right := h3
        mem := by simp
        restFree := by simp [hiu]
        size := by change i.addr + (k.size + i.size) = k.addr + k.size; omega
        core := ⟨B', hshape ▸ hB'⟩
        keep := fun x hx1 hx2 hx3 hx => (hkeep x hx1 hx2 (hshape ▸ hx3)).trans (hagree x hx)
        head := (hkeep.load_boundary hbound (by omega) hq).trans hhead
        fields := ⟨rfl, rfl, rfl⟩
        inHand := by simp [hu]
        islr := fun h => absurd h Bool.false_ne_true
        not_islr := fun _ => ⟨fun j hj _ => ⟨fun e => e.resolve_right (hne j hj), .inl⟩, fun h0 => ?_⟩ }
      obtain ⟨j, hj, hju, hja⟩ := hlast h0
      refine ⟨j, ?_, hju, hja⟩
      have hji : j ≠ i := fun e => hlasti (by rw [← e, hja])
      simp only [List.mem_append, List.mem_singleton] at hj ⊢
      exact hj.imp_left (·.resolve_right hji)

/-- The chunk after the freed one joins it if it is free, and then the one after that is in use. -/
theorem forward_spec (hs : c.heapSize ≤ 0x7FFFFFFF) (h : Held c s a (l₀ ++ w ++ i :: r) topSize fun x => x = s.last)
    (hf : Growing c s a topSize k l₀ w (i :: r) (k.addr + k.size) true out f) :
    ∃ w' r₁ e' pv' out', l₀ ++ w ++ i :: r = l₀ ++ w' ++ r₁ ∧
      Growing c s a topSize k l₀ w' r₁ e' pv' out' (forward c f (k.addr + k.size) i.size) ∧
      ∃ j r', r₁ = j :: r' ∧ j.used = true := by
  have hg := Config.geometry hs
  have hl := h.layout hs
  have hst := c.stop_lt_space
  have hsl := h.start_le
  have hkb := hf.mid.bounds hf.mem
  have hap := hf.left.le
  have hsize := hf.size
  have hic : i ∈ l₀ ++ w ++ i :: r := by simp
  have himin := hl.size_ge i hic
  have hia : i.addr = k.addr + k.size := hf.right.1.1
  have htag : Tagged c s.mem true i := hf.right.1.2.1
  have hright : Tiles c s.mem i.used (k.addr + k.size + i.size) r s.first topSize := ⟨hf.right.1.2.2, hf.right.2⟩
  have hend : k.addr + k.size + i.size + 2 * c.sizeSize ≤ c.stop := by
    have := hright.1.le
    have := h.top_le
    omega
  have hbound : ∀ j ∈ l₀ ++ w ++ i :: r, j.addr + j.size ≤ k.addr + k.size + i.size ∨ k.addr + k.size + i.size ≤ j.addr := by
    intro j hj
    simp only [List.mem_append, List.mem_cons] at hj
    rcases hj with (hj | hj) | rfl | hj
    · have := hf.left.bounds hj
      omega
    · have := hf.mid.bounds hj
      omega
    · omega
    · have := hright.1.bounds hj
      omega
  have hword : f.state.mem.load (k.addr + k.size + i.size + c.sizeSize) c.sizeSize =
      firstSize r topSize + i.used.toNat := by
    rw [← hright.head]
    exact Mem.load_congr fun x h1 h2 => hf.keep x (by omega) (by omega)
      (not_payload_of_boundary hbound (by omega) (by omega)) (by omega)
  have hinuse : heapPrevInuse c f.state.mem (c.chunkAt (k.addr + k.size) i.size) = i.used := by
    rw [Config.chunkAt_add (by omega)]
    exact heapPrevInuse_eq hend (Held.firstSize_dvd (l := l₀ ++ w ++ [i]) (by simpa using h)) hword
  simp only [forward, hinuse]
  cases hiu : i.used with
  | true => exact ⟨w, i :: r, _, true, out, rfl, hf, i, r, rfl, hiu⟩
  | false =>
    rw [hiu] at hright hword
    obtain ⟨B, hB⟩ := hf.core
    have hshape : l₀ ++ w ++ i :: r = l₀ ++ (w ++ [i]) ++ r := by simp
    have hsum : (f.sz + i.size) % 2 ^ c.sizeBits = f.sz + i.size := by
      have h8 := Config.heapSize_lt hs
      unfold Config.stop at hend
      exact Nat.mod_eq_of_lt (by omega)
    have hmid : Seg c s.mem true f.p (w ++ [i]) (k.addr + k.size + i.size) false :=
      seg_append.2 ⟨_, _, hf.mid, seg_singleton.2 ⟨hia, htag, by omega, hiu⟩⟩
    have hrest : ∀ j ∈ w ++ [i], j.used = true → j = k := by
      intro j hj hju
      rcases List.mem_append.1 hj with hj | hj
      · exact hf.restFree j hj hju
      · rw [List.mem_singleton.1 hj, hiu] at hju
        exact absurd hju (by decide)
    have hne : ∀ j ∈ l₀ ++ r, j.addr ≠ i.addr := fun j hj =>
      Layout.addr_ne (w := w ++ [i]) hs (hshape ▸ hl) hj (by simp)
    have hsub : ∀ j ∈ l₀ ++ r, j ∈ l₀ ++ i :: r := by
      intro j hj
      simp only [List.mem_append, List.mem_cons] at hj ⊢
      exact hj.imp_right .inr
    rw [if_neg (by decide), hsum]
    by_cases hlasti : (!f.islr && decide (k.addr + k.size = f.state.last)) = true
    · obtain ⟨hnl, hil⟩ : f.islr = false ∧ k.addr + k.size = f.state.last := by simpa using hlasti
      obtain ⟨hout, -⟩ := hf.not_islr hnl
      rw [if_pos hlasti]
      refine ⟨w ++ [i], r, k.addr + k.size + i.size, false, out, hshape, ?_, Held.next_used hright⟩
      exact {
        left := hf.left
        mid := hmid
        right := hright
        mem := List.mem_append_left _ hf.mem
        restFree := hrest
        size := by change f.p + (f.sz + i.size) = _; omega
        core := ⟨B, hshape ▸ hB⟩
        keep := fun x h1 h2 h3 h4 => hf.keep x h1 h2 (hshape ▸ h3) h4
        head := hword
        fields := hf.fields
        inHand := by
          intro j hj hju
          rcases List.mem_append.1 hj with hj | hj
          · exact hf.inHand j hj hju
          · rw [List.mem_singleton.1 hj]
            exact (hout i (by simp) hiu).2 (hia.trans hil)
        islr := fun _ => ⟨rfl, fun j hj hju ho => hne j hj (((hout j (hsub j hj) hju).1 ho).trans (hia.trans hil).symm)⟩
        not_islr := fun h => absurd h Bool.false_ne_true.symm }
    · have hnot : ¬ out i.addr := fun ho => by
        cases hl : f.islr with
        | true => exact (hf.islr hl).2 i (by simp) hiu ho
        | false =>
          refine hlasti ?_
          rw [hl, ← hia]
          simpa using ((hf.not_islr hl).1 i (by simp) hiu).1 ho
      obtain ⟨⟨B', hB'⟩, hkeep⟩ := Core.unlink (s := f.state) hs hl hB (hl.hash_lt hs hic)
        ((hB.mem_iff _ (hl.hash_lt hs hic) i).2 ⟨hic, hiu, hnot, rfl⟩)
      rw [if_neg hlasti, ← hia]
      refine ⟨w ++ [i], r, k.addr + k.size + i.size, false, fun x => out x ∨ x = i.addr, hshape, ?_, Held.next_used hright⟩
      refine {
        left := hf.left
        mid := hmid
        right := hright
        mem := List.mem_append_left _ hf.mem
        restFree := hrest
        size := by change f.p + (f.sz + i.size) = _; omega
        core := ⟨B', hshape ▸ hB'⟩
        keep := fun x h1 h2 h3 h4 => (hkeep x h1 h2 (hshape ▸ h3)).trans (hf.keep x h1 h2 (hshape ▸ h3) h4)
        head := (hkeep.load_boundary hbound (by omega) hend).trans hword
        fields := hf.fields
        inHand := by
          intro j hj hju
          rcases List.mem_append.1 hj with hj | hj
          · exact .inl (hf.inHand j hj hju)
          · rw [List.mem_singleton.1 hj]
            exact .inr rfl
        islr := fun hi => ⟨(hf.islr hi).1, fun j hj hju ho =>
          ho.elim ((hf.islr hi).2 j (hsub j hj) hju) (hne j hj)⟩
        not_islr := fun hi => ⟨fun j hj hju => ?_, fun h0 => ?_⟩ }
      · have hout := (hf.not_islr hi).1 j (hsub j hj) hju
        exact ⟨fun e => hout.1 (e.resolve_right (hne j hj)), fun e => .inl (hout.2 e)⟩
      · obtain ⟨j, hj, hju, hja⟩ := (hf.not_islr hi).2 h0
        refine ⟨j, ?_, hju, hja⟩
        have hji : j ≠ i := fun e => hnot (e ▸ ((hf.not_islr hi).1 j hj hju).2 hja)
        simp only [List.mem_append, List.mem_cons] at hj ⊢
        exact hj.imp_right (·.resolve_left hji)

/-- `heap_free` of a used chunk's block succeeds and takes that chunk out of use. -/
theorem heapFree_spec (hs : c.heapSize ≤ 0x7FFFFFFF) (h : Ready c s a cs topSize) (hk : k ∈ cs) (hu : k.used = true) :
    ∃ s' cs' topSize', heapFree c s (k.addr + 2 * c.sizeSize) = some s' ∧ Ready c s' a cs' topSize' ∧
      ∀ j, j.used = true → (j ∈ cs' ↔ j ∈ cs ∧ j ≠ k) := by
  have hl := h.held.layout hs
  have hg := Config.geometry hs
  have hst := c.stop_lt_space
  have hin := hl.inside k hk
  have hsz := hl.size_ge k hk
  have hle := h.held.size_le hs hk
  have hbase := h.held.base_le
  have hpos := h.held.addr_pos hk
  have hcur : currWord c s.mem k.addr / 2 * 2 = k.size := h.held.currSize hs hk
  have hchunk : c.mem2chunk (k.addr + 2 * c.sizeSize) = k.addr := by
    rw [Config.mem2chunk, Config.chunkAt_sub (by omega) (by omega), Nat.add_sub_cancel]
  have hnext : c.chunkAt k.addr k.size = k.addr + k.size := Config.chunkAt_add (by omega)
  obtain ⟨l, r, rfl⟩ := List.append_of_mem hk
  replace h : Ready c s a (l ++ [k] ++ r) topSize := by simpa using h
  obtain ⟨pw, h1, h2, h3, hq⟩ := h.held.at_chunk
  have hap := h1.le
  have hnot : ¬ (k.addr + 2 * c.sizeSize = 0 ∨ k.addr + 2 * c.sizeSize < s.base) := by omega
  simp only [heapFree, if_neg hnot, hchunk, hcur, hnext]
  cases r with
  | nil =>
    have hfirst : k.addr + k.size = s.first := h3.1.1
    have hsum : (k.size + topSize) % 2 ^ c.sizeBits = k.size + topSize := by
      have h4 := h.held.top_end
      have h5 := h.held.brk_le
      have h6 := Config.heapSize_lt hs
      unfold Config.stop at h5
      exact Nat.mod_eq_of_lt (by omega)
    rw [if_pos hfirst, hfirst, h.held.topSize_eq, hsum]
    obtain ⟨cs', topSize', hr, hused⟩ := freeToTop_spec (l := l) hs (by simpa using h) hu
    exact ⟨_, cs', topSize', rfl, hr, by simpa using hused⟩
  | cons i r =>
    have hia : i.addr = k.addr + k.size := h3.1.1
    have hic : i ∈ l ++ [k] ++ i :: r := by simp
    have hisz : heapCurrSize c s.mem (k.addr + k.size) = i.size := hia ▸ h.held.currSize hs hic
    have hne : k.addr + k.size ≠ s.first := by
      have h4 := (h3.1.bounds (by simp : i ∈ i :: r)).2
      have h5 := (h.held.layout hs).size_ge i hic
      omega
    rw [if_neg hne, hisz]
    obtain ⟨l₀, w, out, hlw, hback⟩ := backward_spec hs h hu
    have hheld := h.held
    rw [hlw] at hheld
    obtain ⟨w', r₁, e', pv', out', hwr, hfor, hnu⟩ := forward_spec hs hheld hback
    have hcs : l ++ k :: i :: r = l₀ ++ w' ++ r₁ := by rw [← hwr, ← hlw]; simp
    refine ⟨_, _, topSize, rfl, freeEnd_spec hs (hwr ▸ hheld) hfor hnu, fun j hju => ?_⟩
    rw [hcs] at hl ⊢
    exact used_after_free hs hl hfor.mem hfor.restFree (by simp) j hju

end Sdfirm.Heap
