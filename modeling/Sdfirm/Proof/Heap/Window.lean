import Sdfirm.Proof.Heap.Bins

/-!
# Edits of the arena

`Held` is the allocator's invariant while an operation is under way: the
arena is tiled, and the bins hold its free chunks but those in `out`. The
edits an operation makes are those of a few chunks next to each other, their
window: a free chunk is taken whole (`Held.take`) or split (`Held.split`), the
top chunk is split (`Held.splitTop`). A window edit changes no byte outside
its chunks but the header after them.
-/

namespace Sdfirm.Heap

open Framework

variable {c : Config} {m m' : Mem} {s : HeapState} {a p q t topSize nb : Nat} {k : Chunk} {cs l r w w' : List Chunk}
  {out out' : Nat → Prop} {pu pv pw : Bool}

/-! ## Words of the arena -/

theorem or_one {n : Nat} (h : 2 ∣ n) : n ||| 1 = n + 1 := by
  obtain ⟨n, rfl⟩ := h
  simpa using (Nat.two_pow_add_eq_or_of_lt (i := 1) (b := 1) (by norm_num) n).symm

section Words

variable (hp : p + 2 * c.sizeSize ≤ c.stop)
include hp

theorem chunkAt_sizeSize : c.chunkAt p c.sizeSize = p + c.sizeSize :=
  Config.chunkAt_add (by have := c.stop_lt_space; omega)

theorem currWord_eq : currWord c m p = m.load (p + c.sizeSize) c.sizeSize := by
  rw [currWord, chunkAt_sizeSize hp]

theorem setCurrWord_eq (v : Nat) : setCurrWord c m p v = m.store (p + c.sizeSize) c.sizeSize v := by
  rw [setCurrWord, chunkAt_sizeSize hp]

theorem heapSetHead_eq {sz : Nat} (h : 2 ∣ sz) : heapSetHead c m p sz = m.store (p + c.sizeSize) c.sizeSize (sz + 1) := by
  rw [heapSetHead, setCurrWord_eq hp, or_one h]

theorem heapCurrSize_eq {sz : Nat} (h : 2 ∣ sz) (hw : m.load (p + c.sizeSize) c.sizeSize = sz + pu.toNat) :
    heapCurrSize c m p = sz := by
  rw [heapCurrSize, currWord_eq hp, hw]
  cases pu <;> simp only [Bool.toNat_false, Bool.toNat_true] <;> omega

theorem heapPrevInuse_eq {sz : Nat} (h : 2 ∣ sz) (hw : m.load (p + c.sizeSize) c.sizeSize = sz + pu.toNat) :
    heapPrevInuse c m p = pu := by
  rw [heapPrevInuse, currWord_eq hp, hw]
  obtain ⟨n, rfl⟩ := h
  cases pu <;> simp

end Words

/-! ## Windows -/

/-- The chunks `w` of a tiling from `p` to `q` are replaced by `w'`: outside them no byte of a
header or foot changes, but the header after them, which says anew whether they end in use. -/
theorem Tiles.window (hs : c.heapSize ≤ 0x7FFFFFFF) (pv' : Bool) (h1 : Seg c m pu a l p pw) (h3 : Tiles c m pv q r t topSize)
    (hkeep : ∀ x, a + c.sizeSize ≤ x → x < t + 2 * c.sizeSize → x < p + c.sizeSize ∨ q + 2 * c.sizeSize ≤ x →
      (∀ k ∈ l ++ r, ¬ k.Payload c x) → m' x = m x)
    (hpq : p ≤ q) (hw : Seg c m' pw p w' q pv')
    (hhead : m'.load (q + c.sizeSize) c.sizeSize = firstSize r topSize + pv'.toNat)
    (hr : pv' = false → ∃ k r', r = k :: r' ∧ k.used = true) : Tiles c m' pu a (l ++ w' ++ r) t topSize := by
  have hap := h1.le
  have hqt := h3.1.le
  -- the payload of a chunk on one side of the window is not on the other side
  have hl : Seg c m' pu a l p pw := by
    refine h1.congr hs fun x hx1 hx2 hx3 => hkeep x hx1 (by omega) (.inl hx2) fun k hk => ?_
    rcases List.mem_append.1 hk with hk | hk
    · exact hx3 k hk
    · have := h3.1.bounds hk
      unfold Chunk.Payload
      omega
  refine Tiles.append (hl.append hw) ?_
  have hmid : Tiles c (fun x => if x < q + 2 * c.sizeSize then m x else m' x) pv q r t topSize := by
    refine h3.congr hs fun x hx1 hx2 hx3 => ?_
    by_cases hx : x < q + 2 * c.sizeSize
    · simp only [hx, if_true]
    · simp only [hx, if_false]
      refine hkeep x (by omega) hx2 (.inr (by omega)) fun k hk => ?_
      rcases List.mem_append.1 hk with hk | hk
      · have := h1.bounds hk
        unfold Chunk.Payload
        split <;> omega
      · exact hx3 k hk
  refine hmid.reflag hs (fun x hx1 hx2 => ?_) hhead hr
  simp only [show ¬ x < q + 2 * c.sizeSize by omega, if_false]

/-- The bins do not see the edit of a window of chunks that are in nobody's list. -/
theorem Core.window {blocks : Bitops.Bitmap} {B : Nat → List Chunk} (hs : c.heapSize ≤ 0x7FFFFFFF)
    (hl : Layout c (l ++ w ++ r)) (hc : Core c m blocks (l ++ w ++ r) B out)
    (hleft : ∀ k ∈ l, k.addr + k.size ≤ p) (hright : ∀ k ∈ r, q ≤ k.addr) (hp : c.start ≤ p) {z : Nat}
    (hz : z ≤ c.stop) (hzq : r ≠ [] → z ≤ q + 2 * c.sizeSize)
    (hzone : ∀ x, x < p + c.sizeSize ∨ z ≤ x → m' x = m x)
    (hw : ∀ k ∈ w, k.used = false → out k.addr) (hw' : ∀ k ∈ w', k.used = false → out' k.addr)
    (hout : ∀ k ∈ l ++ r, k.used = false → (out' k.addr ↔ out k.addr)) :
    Core c m' blocks (l ++ w' ++ r) B out' := by
  have hg := Config.geometry hs
  refine hc.edit hw hw' hout (fun k hk _ x hx1 hx2 => hzone x ?_) fun i hi x hx1 hx2 => hzone x ?_
  · have hkc : k ∈ l ++ w ++ r := by
      simp only [List.mem_append] at hk ⊢
      tauto
    have h1 := hl.size_ge k hkc
    rw [hl.node_eq hkc] at hx1 hx2
    unfold Config.headSize at h1 hg
    rcases List.mem_append.1 hk with hk | hk
    · have := hleft k hk
      omega
    · have := hright k hk
      have := hzq (List.ne_nil_of_mem hk)
      omega
  · have := heapBin_outside hi
    omega

/-- A window at the end of the arena. -/
theorem Core.window_end {blocks : Bitops.Bitmap} {B : Nat → List Chunk} (hs : c.heapSize ≤ 0x7FFFFFFF)
    (hl : Layout c (l ++ w)) (hc : Core c m blocks (l ++ w) B out) (hleft : ∀ k ∈ l, k.addr + k.size ≤ p)
    (hp : c.start ≤ p) {z : Nat} (hz : z ≤ c.stop) (hzone : ∀ x, x < p + c.sizeSize ∨ z ≤ x → m' x = m x)
    (hw : ∀ k ∈ w, k.used = false → out k.addr) (hw' : ∀ k ∈ w', k.used = false → out' k.addr)
    (hout : ∀ k ∈ l, k.used = false → (out' k.addr ↔ out k.addr)) : Core c m' blocks (l ++ w') B out' := by
  have hwin : Core c m' blocks (l ++ w' ++ []) B out' :=
    Core.window (q := p) (w := w) hs (by simpa using hl) (by simpa using hc) hleft (by simp) hp hz (by simp) hzone hw hw'
      (by simpa using hout)
  simpa using hwin

theorem heapChunkLink_fields (c : Config) (s : HeapState) (p sz : Nat) :
    (heapChunkLink c s p sz).first = s.first ∧ (heapChunkLink c s p sz).base = s.base ∧
      (heapChunkLink c s p sz).brk = s.brk ∧ (heapChunkLink c s p sz).last = s.last := by
  simp only [heapChunkLink]
  split
  · exact ⟨rfl, rfl, rfl, rfl⟩
  · split <;> exact ⟨rfl, rfl, rfl, rfl⟩

/-! ## The invariant of an operation -/

/-- The arena, with the bins holding its free chunks but those in `out`. -/
structure Held (c : Config) (s : HeapState) (a : Nat) (cs : List Chunk) (topSize : Nat) (out : Nat → Prop) : Prop where
  tiles : Tiles c s.mem true a cs s.first topSize
  core : ∃ B, Core c s.mem s.blocks cs B out
  start_le : c.start ≤ a
  base_le : s.base ≤ a
  top_le : s.first + 2 * c.sizeSize ≤ c.stop
  top_end : s.first + topSize = s.brk
  brk_le : s.brk ≤ c.stop
  top_dvd : 4 ∣ topSize
  top_ge : cs ≠ [] → c.headSize ≤ topSize

namespace Held

theorem layout (hs : c.heapSize ≤ 0x7FFFFFFF) (h : Held c s a cs topSize out) : Layout c cs :=
  h.tiles.layout hs h.start_le h.top_le

theorem tagged (h : Held c s a cs topSize out) (hk : k ∈ cs) : ∃ pw, Tagged c s.mem pw k := h.tiles.1.tagged hk

theorem size_dvd (h : Held c s a cs topSize out) (hk : k ∈ cs) : 8 ∣ k.size := by
  obtain ⟨pw, hp⟩ := h.tagged hk
  exact hp.size_dvd

theorem header_le (hs : c.heapSize ≤ 0x7FFFFFFF) (h : Held c s a cs topSize out) (hk : k ∈ cs) :
    k.addr + 2 * c.sizeSize ≤ c.stop := by
  have h1 := (h.layout hs).inside k hk
  have h2 := (h.layout hs).size_ge k hk
  have hg := Config.geometry hs
  omega

theorem size_le (hs : c.heapSize ≤ 0x7FFFFFFF) (h : Held c s a cs topSize out) (hk : k ∈ cs) :
    k.size ≤ c.heapSize := by
  have h1 := (h.layout hs).inside k hk
  unfold Config.stop at h1
  omega

theorem topSize_le (h : Held c s a cs topSize out) : topSize ≤ c.heapSize := by
  have h1 := h.start_le
  have h2 := h.tiles.1.le
  have h3 := h.top_end
  have h4 := h.brk_le
  unfold Config.stop at h4
  omega

theorem currSize (hs : c.heapSize ≤ 0x7FFFFFFF) (h : Held c s a cs topSize out) (hk : k ∈ cs) :
    heapCurrSize c s.mem k.addr = k.size := by
  obtain ⟨pw, hp⟩ := h.tagged hk
  exact heapCurrSize_eq (h.header_le hs hk) ((by decide : 2 ∣ 8).trans hp.size_dvd) hp.head

theorem topSize_eq (h : Held c s a cs topSize out) :
    heapCurrSize c s.mem s.first = topSize :=
  heapCurrSize_eq h.top_le ((by decide : 2 ∣ 4).trans h.top_dvd) (show _ = topSize + true.toNat from h.tiles.2)

theorem firstSize_dvd (h : Held c s a (l ++ r) topSize out) : 2 ∣ firstSize r topSize := by
  cases r with
  | nil => exact (by decide : 2 ∣ 4).trans h.top_dvd
  | cons k r => exact (by decide : 2 ∣ 8).trans (h.size_dvd (by simp))

theorem out_congr (h : Held c s a cs topSize out) (ho : ∀ k ∈ cs, k.used = false → (out k.addr ↔ out' k.addr)) :
    Held c s a cs topSize out' := by
  obtain ⟨B, hB⟩ := h.core
  exact { h with core := ⟨B, hB.out_congr ho⟩ }

/-- A chunk is taken out of its bin. -/
theorem unlink (hs : c.heapSize ≤ 0x7FFFFFFF) (h : Held c s a cs topSize out) (hk : k ∈ cs) (hu : k.used = false)
    (ho : ¬ out k.addr) :
    Held c (heapChunkUnlink c s k.addr (c.heapBinHash k.size)) a cs topSize fun a => out a ∨ a = k.addr := by
  obtain ⟨B, hB⟩ := h.core
  have hl := h.layout hs
  have hi := hl.hash_lt hs hk
  obtain ⟨hcore, hkeep⟩ := hB.unlink hs hl hi ((hB.mem_iff _ hi k).2 ⟨hk, hu, ho, rfl⟩)
  exact { h with core := hcore, tiles := hkeep.tiles hs h.tiles h.start_le h.top_le }

/-- A chunk is put into its bin. -/
theorem link (hs : c.heapSize ≤ 0x7FFFFFFF) (h : Held c s a cs topSize out) (hk : k ∈ cs) (hu : k.used = false)
    (ho : out k.addr) : Held c (heapChunkLink c s k.addr k.size) a cs topSize fun a => out a ∧ a ≠ k.addr := by
  obtain ⟨B, hB⟩ := h.core
  obtain ⟨hcore, hkeep⟩ := hB.link hs (h.layout hs) (fun j hj => h.currSize hs hj) (fun j hj => h.size_dvd hj) hk hu ho
  obtain ⟨h1, h2, h3, -⟩ := heapChunkLink_fields c s k.addr k.size
  refine ⟨?_, hcore, h.start_le, h2 ▸ h.base_le, h1 ▸ h.top_le, ?_, h3 ▸ h.brk_le, h.top_dvd, h.top_ge⟩
  · rw [h1]
    exact hkeep.tiles hs h.tiles h.start_le h.top_le
  · rw [h1, h3, h.top_end]

theorem firstSize_le (hs : c.heapSize ≤ 0x7FFFFFFF) (h : Held c s a (l ++ r) topSize out) :
    firstSize r topSize ≤ c.heapSize := by
  cases r with
  | nil => exact h.topSize_le
  | cons k r => exact h.size_le hs (by simp)

/-- The chunk after a free one is in use. -/
theorem next_used (h : Tiles c m false q r t topSize) : ∃ k r', r = k :: r' ∧ k.used = true := by
  cases r with
  | nil => exact absurd h.1.2 (by decide)
  | cons k r =>
    refine ⟨k, r, rfl, ?_⟩
    by_contra hu
    exact absurd (h.1.2.1.coalesced (by simpa using hu)) (by decide)

/-- The place of a chunk in the tiling. -/
theorem at_chunk (h : Held c s a (l ++ [k] ++ r) topSize out) :
    ∃ pw, Seg c s.mem true a l k.addr pw ∧ Tagged c s.mem pw k ∧
      Tiles c s.mem k.used (k.addr + k.size) r s.first topSize ∧ k.addr + k.size + 2 * c.sizeSize ≤ c.stop := by
  obtain ⟨q, pv, h12, h3⟩ := h.tiles.cut
  obtain ⟨p, pw, h1, h2⟩ := seg_append.1 h12
  obtain ⟨rfl, h4, rfl, rfl⟩ := seg_singleton.1 h2
  have := h3.1.le
  have := h.top_le
  exact ⟨pw, h1, h4, h3, by omega⟩

/-- A free chunk in hand is taken whole. -/
theorem take (hs : c.heapSize ≤ 0x7FFFFFFF) (h : Held c s a (l ++ [k] ++ r) topSize out) (hu : k.used = false)
    (ho : out k.addr) :
    Held c { s with mem := heapSetInuseAt c s.mem k.addr k.size } a (l ++ [{ k with used := true }] ++ r) topSize out := by
  obtain ⟨pw, h1, h2, h3, hq⟩ := h.at_chunk
  rw [hu] at h3
  obtain ⟨B, hB⟩ := h.core
  have hg := Config.geometry hs
  have hsz := h2.size_gt hs
  have hword := h3.head
  have hfs := h.firstSize_dvd (l := l ++ [k])
  have hlt := Config.word_lt hs (h.firstSize_le (l := l ++ [k]) hs) hfs
  simp only [Bool.toNat_false, Nat.add_zero] at hword
  have hm : heapSetInuseAt c s.mem k.addr k.size = s.mem.store (k.addr + k.size + c.sizeSize) c.sizeSize
      (firstSize r topSize + 1) := by
    rw [heapSetInuseAt, Config.chunkAt_add (by have := c.stop_lt_space; omega), currWord_eq hq, setCurrWord_eq hq,
      hword, or_one hfs]
  have hagree : ∀ x, x < k.addr + k.size + c.sizeSize ∨ k.addr + k.size + 2 * c.sizeSize ≤ x →
      heapSetInuseAt c s.mem k.addr k.size x = s.mem x := by
    intro x hx
    rw [hm]
    exact Mem.store_agree s.mem _ _ _ (b := x) (c := x + 1) (by omega) x le_rfl (by omega)
  refine { h with top_ge := fun _ => h.top_ge (by simp), tiles := ?_, core := ⟨B, ?_⟩ }
  · refine Tiles.window hs true h1 h3 (fun x _ _ hx _ => hagree x (by omega)) (Nat.le_add_right _ _) ?_ ?_ (by simp)
    · refine seg_singleton.2 ⟨rfl, ⟨h2.size_dvd, h2.size_ge, ?_, by simp, by simp⟩, rfl, rfl⟩
      change Mem.load (heapSetInuseAt c s.mem k.addr k.size) (k.addr + c.sizeSize) c.sizeSize = k.size + pw.toNat
      rw [hm, Mem.load_store_apart (by omega), h2.head]
    · change Mem.load (heapSetInuseAt c s.mem k.addr k.size) _ _ = _
      rw [hm, Mem.load_store_self, Nat.mod_eq_of_lt hlt]
      rfl
  · refine hB.window hs (h.layout hs) (fun j hj => (h1.bounds hj).2) (fun j hj => (h3.1.bounds hj).1)
      (h.start_le.trans h1.le) hq (fun _ => le_rfl) (fun x hx => hagree x (by omega)) ?_ (by simp) (fun _ _ _ => Iff.rfl)
    intro j hj _
    rw [List.mem_singleton.1 hj]
    exact ho

/-- A free chunk in hand is split; the lower part is used and the rest is free. -/
theorem split (hs : c.heapSize ≤ 0x7FFFFFFF) (h : Held c s a (l ++ [k] ++ r) topSize out) (hu : k.used = false)
    (ho : out k.addr) (h8 : 8 ∣ nb) (hmin : c.headSize ≤ nb) (hfit : nb + c.headSize ≤ k.size) :
    Held c (splitChunk c s k.addr nb ((k.size - nb : Nat) : Int)) a
      (l ++ [⟨k.addr, nb, true⟩, ⟨k.addr + nb, k.size - nb, false⟩] ++ r) topSize
      fun x => out x ∨ x = k.addr + nb := by
  obtain ⟨pw, h1, h2, h3, hq⟩ := h.at_chunk
  rw [hu] at h3
  obtain rfl : pw = true := h2.coalesced hu
  obtain ⟨B, hB⟩ := h.core
  have hg := Config.geometry hs
  have hsp := c.stop_lt_space
  have h8k := h2.size_dvd
  have hkle := h.size_le hs (k := k) (by simp)
  have hlt1 := Config.word_lt hs (by omega : nb ≤ c.heapSize) (by omega)
  have hlt2 := Config.word_lt hs (by omega : k.size - nb ≤ c.heapSize) (by omega)
  have hdvd : 2 ∣ nb ∧ 2 ∣ k.size - nb := by omega
  have hsize : c.toSize ((k.size - nb : Nat) : Int) = k.size - nb :=
    Config.toSize_natCast (by rw [← Config.pow_sizeSize hs]; omega)
  have hm : (splitChunk c s k.addr nb ((k.size - nb : Nat) : Int)).mem =
      ((s.mem.store (k.addr + c.sizeSize) c.sizeSize (nb + 1)).store (k.addr + nb + c.sizeSize) c.sizeSize
        (k.size - nb + 1)).store (k.addr + k.size) c.sizeSize (k.size - nb) := by
    have e1 : c.chunkAt k.addr nb = k.addr + nb := Config.chunkAt_add (by omega)
    have e2 : c.chunkAt (k.addr + nb) ((k.size - nb : Nat) : Int) = k.addr + k.size := by
      rw [Config.chunkAt_add (by omega)]
      omega
    simp only [splitChunk, e1, heapSetFoot, e2, hsize]
    rw [heapSetHead_eq (by omega) hdvd.1, heapSetHead_eq (by omega) hdvd.2]
  have hagree : ∀ x, x < k.addr + c.sizeSize ∨ k.addr + k.size + c.sizeSize ≤ x →
      (splitChunk c s k.addr nb ((k.size - nb : Nat) : Int)).mem x = s.mem x := by
    intro x hx
    rw [hm]
    refine ((Mem.store_agree _ _ _ _ (b := x) (c := x + 1) ?_ x le_rfl (by omega)).trans
      (Mem.store_agree _ _ _ _ (b := x) (c := x + 1) ?_ x le_rfl (by omega))).trans
      (Mem.store_agree _ _ _ _ (b := x) (c := x + 1) ?_ x le_rfl (by omega)) <;> omega
  have hmin' : c.heapAlign c.headSize ≤ nb ∧ c.heapAlign c.headSize ≤ k.size - nb := by
    rw [Config.heapAlign_headSize hs]
    omega
  refine { h with top_ge := fun _ => h.top_ge (by simp), tiles := ?_, core := ⟨B, ?_⟩ }
  · refine Tiles.window hs false h1 h3 (fun x _ _ hx _ => hagree x (by omega)) (Nat.le_add_right _ _) ?_ ?_
      fun _ => next_used h3
    · refine ⟨rfl, ⟨h8, hmin'.1, ?_, by simp, by simp⟩, rfl,
        ⟨(by omega : 8 ∣ k.size - nb), hmin'.2, ?_, fun _ => ?_, fun _ => rfl⟩, ?_, rfl⟩
      · change Mem.load _ (k.addr + c.sizeSize) c.sizeSize = nb + 1
        rw [hm, Mem.load_store_apart (by omega), Mem.load_store_apart (by omega), Mem.load_store_self,
          Nat.mod_eq_of_lt hlt1]
      · change Mem.load _ (k.addr + nb + c.sizeSize) c.sizeSize = k.size - nb + 1
        rw [hm, Mem.load_store_apart (by omega), Mem.load_store_self, Nat.mod_eq_of_lt hlt2]
      · change Mem.load _ (k.addr + nb + (k.size - nb)) c.sizeSize = k.size - nb
        rw [hm, show k.addr + nb + (k.size - nb) = k.addr + k.size by omega, Mem.load_store_self,
          Nat.mod_eq_of_lt (by omega)]
      · change k.addr + nb + (k.size - nb) = k.addr + k.size
        omega
    · rw [Mem.load_congr fun x hx1 hx2 => hagree x (by omega), h3.head]
  · refine hB.window hs (h.layout hs) (fun j hj => (h1.bounds hj).2) (fun j hj => (h3.1.bounds hj).1)
      (h.start_le.trans h1.le) hq (fun _ => le_rfl) (fun x hx => hagree x (by omega)) ?_ ?_ ?_
    · intro j hj _
      rw [List.mem_singleton.1 hj]
      exact ho
    · intro j hj hju
      simp only [List.mem_cons, List.not_mem_nil, or_false] at hj
      rcases hj with rfl | rfl
      · exact absurd hju (by simp)
      · exact .inr rfl
    · intro j hj _
      have hne : j.addr ≠ k.addr + nb := by
        rcases List.mem_append.1 hj with hj | hj
        · have := h1.bounds hj
          omega
        · have := h3.1.bounds hj
          omega
      simp [hne]

/-- The top chunk is split; the lower part is used. -/
theorem splitTop (hs : c.heapSize ≤ 0x7FFFFFFF) (h : Held c s a cs topSize out) (h8 : 8 ∣ nb)
    (hmin : c.headSize ≤ nb) (hfit : nb + c.headSize ≤ topSize) :
    Held c { s with first := s.first + nb,
                    mem := heapSetHead c (heapSetHead c s.mem s.first nb) (s.first + nb) (topSize - nb) } a
      (cs ++ [⟨s.first, nb, true⟩]) (topSize - nb) out := by
  obtain ⟨B, hB⟩ := h.core
  have hg := Config.geometry hs
  have h4 := h.top_dvd
  have hte := h.top_end
  have hbl := h.brk_le
  have htl := h.top_le
  have hle := h.topSize_le
  have hlt1 := Config.word_lt hs (by omega : nb ≤ c.heapSize) (by omega)
  have hlt2 := Config.word_lt hs (by omega : topSize - nb ≤ c.heapSize) (by omega)
  have hdvd : 2 ∣ nb ∧ 2 ∣ topSize - nb := by omega
  have hm : heapSetHead c (heapSetHead c s.mem s.first nb) (s.first + nb) (topSize - nb) =
      (s.mem.store (s.first + c.sizeSize) c.sizeSize (nb + 1)).store (s.first + nb + c.sizeSize) c.sizeSize
        (topSize - nb + 1) := by
    rw [heapSetHead_eq (by omega) hdvd.1, heapSetHead_eq (by omega) hdvd.2]
  have hagree : ∀ x, x < s.first + c.sizeSize ∨ s.first + nb + 2 * c.sizeSize ≤ x →
      heapSetHead c (heapSetHead c s.mem s.first nb) (s.first + nb) (topSize - nb) x = s.mem x := by
    intro x hx
    rw [hm]
    refine (Mem.store_agree _ _ _ _ (b := x) (c := x + 1) ?_ x le_rfl (by omega)).trans
      (Mem.store_agree _ _ _ _ (b := x) (c := x + 1) ?_ x le_rfl (by omega)) <;> omega
  have hmin' : c.heapAlign c.headSize ≤ nb := by
    rw [Config.heapAlign_headSize hs]
    omega
  refine ⟨⟨?_, ?_⟩, ⟨B, ?_⟩, h.start_le, h.base_le, ?_, ?_, hbl, by omega, fun _ => by omega⟩
  · refine (h.tiles.1.congr hs fun x _ hx _ => hagree x (.inl hx)).append (seg_singleton.2 ⟨rfl, ⟨h8, hmin', ?_, ?_, ?_⟩, rfl, rfl⟩)
    · change Mem.load _ (s.first + c.sizeSize) c.sizeSize = nb + 1
      rw [hm, Mem.load_store_apart (by omega), Mem.load_store_self, Nat.mod_eq_of_lt hlt1]
    · simp
    · simp
  · change Mem.load _ (s.first + nb + c.sizeSize) c.sizeSize = topSize - nb + 1
    rw [hm, Mem.load_store_self, Nat.mod_eq_of_lt hlt2]
  · exact Core.window_end (w := []) hs (by simpa using h.layout hs) (by simpa using hB)
      (fun j hj => (h.tiles.1.bounds hj).2) (h.start_le.trans h.tiles.1.le)
      (by omega : s.first + nb + 2 * c.sizeSize ≤ c.stop) hagree (by simp) (by simp) (fun _ _ _ => Iff.rfl)
  · change s.first + nb + 2 * c.sizeSize ≤ c.stop
    omega
  · change s.first + nb + (topSize - nb) = s.brk
    omega

end Held

end Sdfirm.Heap
