import Sdfirm.Proof.Heap.Chain
import Sdfirm.Proof.Bitops.Bits

/-!
# The bins as an index of the free chunks

`Core` says that the bins hold the free chunks of the arena but those in
`out`, the ones an operation has in its hands. `heapChunkUnlink` takes a chunk
out of its bin (`Core.unlink`), `heapChunkLink` puts one in (`Core.link`);
both write to nodes only (`Keeps`). An edit of chunks that are all in `out`
keeps the bins (`Core.edit`).
-/

namespace Sdfirm.Heap

open Framework

/-! ## Where the nodes lie -/

/-- Chunks that lie apart in the heap, each with room for a node. -/
structure Layout (c : Config) (cs : List Chunk) : Prop where
  apart : cs.Pairwise fun j k => j.addr + j.size ≤ k.addr
  inside : ∀ k ∈ cs, c.start ≤ k.addr ∧ k.addr + k.size + c.sizeSize ≤ c.stop
  size_ge : ∀ k ∈ cs, c.headSize ≤ k.size

variable {c : Config} {m m' m'' : Mem} {cs l r w w' : List Chunk} {j k : Chunk} {i : Nat}

theorem Tiles.layout (hs : c.heapSize ≤ 0x7FFFFFFF) {pu : Bool} {a t topSize : Nat} (h : Tiles c m pu a cs t topSize)
    (ha : c.start ≤ a) (ht : t + 2 * c.sizeSize ≤ c.stop) : Layout c cs where
  apart := h.1.pairwise
  inside := fun k hk => by
    have := h.1.bounds hk
    omega
  size_ge := fun k hk => by
    obtain ⟨pw, hp⟩ := h.1.tagged hk
    exact hp.size_gt hs

namespace Layout

theorem eq_or_apart (hl : Layout c cs) (hj : j ∈ cs) (hk : k ∈ cs) :
    j = k ∨ j.addr + j.size ≤ k.addr ∨ k.addr + k.size ≤ j.addr := by
  by_cases h : j = k
  · exact .inl h
  · refine .inr ?_
    have hsymm : Std.Symm fun j k : Chunk => j.addr + j.size ≤ k.addr ∨ k.addr + k.size ≤ j.addr :=
      ⟨fun _ _ h => h.symm⟩
    have hp : cs.Pairwise fun j k => j.addr + j.size ≤ k.addr ∨ k.addr + k.size ≤ j.addr :=
      hl.apart.imp fun h => Or.inl h
    exact hp.forall hj hk h

theorem eq_of_addr (hs : c.heapSize ≤ 0x7FFFFFFF) (hl : Layout c cs) (hj : j ∈ cs) (hk : k ∈ cs)
    (h : j.addr = k.addr) : j = k := by
  have hg := Config.geometry hs
  have h1 := hl.size_ge j hj
  have h2 := hl.size_ge k hk
  rcases hl.eq_or_apart hj hk with h' | h'
  · exact h'
  · omega

theorem node_eq (hl : Layout c cs) (hk : k ∈ cs) : c.node k.addr = k.addr + c.nodeOff := by
  have h1 := hl.inside k hk
  have h2 := hl.size_ge k hk
  have h3 := c.stop_lt_space
  unfold Config.headSize at h2
  exact Config.chunkAt_add (by omega)

theorem node2chunk_node (hl : Layout c cs) (hk : k ∈ cs) : c.node2chunk (c.node k.addr) = k.addr := by
  have h1 := hl.inside k hk
  have h2 := hl.size_ge k hk
  have h3 := c.stop_lt_space
  unfold Config.headSize at h2
  rw [hl.node_eq hk, Config.node2chunk, Config.chunkAt_sub (by omega) (by omega), Nat.add_sub_cancel]

theorem node_apart (hl : Layout c cs) (hj : j ∈ cs) (hk : k ∈ cs) (h : j ≠ k) :
    Ring.Apart c.ptr (c.node j.addr) (c.node k.addr) := by
  have h1 := hl.size_ge j hj
  have h2 := hl.size_ge k hk
  have h3 := (hl.eq_or_apart hj hk).resolve_left h
  rw [hl.node_eq hj, hl.node_eq hk]
  unfold Ring.Apart
  unfold Config.headSize at h1 h2
  omega

theorem node_inside (hl : Layout c cs) (hk : k ∈ cs) :
    c.start ≤ c.node k.addr ∧ c.node k.addr + 2 * c.ptr ≤ c.stop := by
  have h1 := hl.inside k hk
  have h2 := hl.size_ge k hk
  rw [hl.node_eq hk]
  unfold Config.headSize at h2
  omega

theorem hash_lt (hs : c.heapSize ≤ 0x7FFFFFFF) (hl : Layout c cs) (hk : k ∈ cs) :
    c.heapBinHash k.size < c.nrBins := by
  have h1 := hl.inside k hk
  refine Config.heapBinHash_lt hs ?_
  unfold Config.stop at h1
  omega

end Layout

theorem Config.unit_pos (c : Config) : 0 < c.unit := by
  have := c.unitBits
  unfold Bitops.UnitBits at this
  omega

theorem heapBin_bounds (hi : i < c.nrBins) :
    c.bins ≤ c.heapBin i ∧ c.heapBin i + 2 * c.ptr ≤ c.bins + c.nrBins * (2 * c.ptr) := by
  unfold Config.heapBin
  have : (i + 1) * (2 * c.ptr) ≤ c.nrBins * (2 * c.ptr) := Nat.mul_le_mul_right _ hi
  rw [Nat.add_mul] at this
  omega

theorem heapBin_outside (hi : i < c.nrBins) : c.heapBin i + 2 * c.ptr ≤ c.start ∨ c.stop ≤ c.heapBin i := by
  have h1 := heapBin_bounds hi
  have h2 : c.bins + c.nrBins * (2 * c.ptr) ≤ c.start ∨ c.stop ≤ c.bins := c.bins_apart
  omega

theorem heapBin_apart {i j : Nat} (h : i ≠ j) : Ring.Apart c.ptr (c.heapBin i) (c.heapBin j) := by
  unfold Ring.Apart Config.heapBin
  rcases Nat.lt_or_gt_of_ne h with h | h
  · have := Nat.mul_le_mul_right (2 * c.ptr) h
    rw [Nat.succ_mul] at this
    omega
  · have := Nat.mul_le_mul_right (2 * c.ptr) h
    rw [Nat.succ_mul] at this
    omega

theorem Layout.node_bin_apart (hl : Layout c cs) (hk : k ∈ cs) (hi : i < c.nrBins) :
    Ring.Apart c.ptr (c.node k.addr) (c.heapBin i) := by
  have h1 := hl.node_inside hk
  have h2 := heapBin_outside hi
  unfold Ring.Apart
  omega

theorem heapBin_lt (hi : i < c.nrBins) : c.heapBin i < 256 ^ c.ptr := by
  have h1 := heapBin_bounds hi
  have h2 : c.bins + c.nrBins * (2 * c.ptr) ≤ 256 ^ c.ptr := c.bins_le
  have h3 := c.ptr_pos
  omega

theorem Layout.node_lt (hl : Layout c cs) (hk : k ∈ cs) : c.node k.addr < 256 ^ c.ptr := by
  have h1 := hl.node_inside hk
  have h2 := c.stop_lt_space
  omega

/-! ## Writes to nodes -/

/-- Within the heap only payload of free chunks has changed. -/
def Keeps (c : Config) (cs : List Chunk) (m m' : Mem) : Prop :=
  ∀ x, c.start ≤ x → x < c.stop → (∀ k ∈ cs, k.used = false → ¬ k.Payload c x) → m' x = m x

/-- The bins, and the nodes of the free chunks. -/
def IsNode (c : Config) (cs : List Chunk) (n : Nat) : Prop :=
  (∃ i < c.nrBins, n = c.heapBin i) ∨ ∃ k ∈ cs, k.used = false ∧ n = c.node k.addr

theorem Keeps.of_keepsOff (hs : c.heapSize ≤ 0x7FFFFFFF) (hl : Layout c cs) {ns : List Nat}
    (h : Ring.KeepsOff c.ptr ns m m') (hn : ∀ n ∈ ns, IsNode c cs n) : Keeps c cs m m' := by
  intro x h1 h2 h3
  refine h x fun n hmem => ?_
  rcases hn n hmem with ⟨i, hi, rfl⟩ | ⟨k, hk, hu, rfl⟩
  · have := heapBin_outside hi
    omega
  · have h4 := h3 k hk hu
    have h5 := hl.size_ge k hk
    have hg := Config.geometry hs
    unfold Chunk.Payload at h4
    rw [hu, if_neg (by decide)] at h4
    rw [hl.node_eq hk]
    unfold Config.headSize at h5 hg
    omega

theorem Keeps.tiles (hs : c.heapSize ≤ 0x7FFFFFFF) {pu : Bool} {a t topSize : Nat} (h : Keeps c cs m m')
    (ht : Tiles c m pu a cs t topSize) (ha : c.start ≤ a) (hstop : t + 2 * c.sizeSize ≤ c.stop) :
    Tiles c m' pu a cs t topSize :=
  ht.congr hs fun x h1 h2 h3 => h x (by omega) (by omega) fun k hk _ => h3 k hk

/-! ## The index -/

/-- The list of a bin as nodes. -/
def nodes (c : Config) (l : List Chunk) : List Nat := l.map fun k => c.node k.addr

/-- The bins hold the free chunks that are not in `out`. -/
structure Core (c : Config) (m : Mem) (blocks : Bitops.Bitmap) (cs : List Chunk) (B : Nat → List Chunk)
    (out : Nat → Prop) : Prop where
  lists : ∀ i < c.nrBins, Ring c.ptr m (c.heapBin i) (nodes c (B i))
  mem_iff : ∀ i < c.nrBins, ∀ k, k ∈ B i ↔ k ∈ cs ∧ k.used = false ∧ ¬ out k.addr ∧ c.heapBinHash k.size = i
  sorted : ∀ i < c.nrBins, (B i).Pairwise fun j k => j.size ≤ k.size
  blocks : ∀ i < c.nrBins, Bitops.testBit c.unit i blocks = true ↔ B i ≠ []

variable {blocks : Bitops.Bitmap} {B : Nat → List Chunk} {out out' : Nat → Prop}

theorem mem_nodes {l : List Chunk} {n : Nat} : n ∈ nodes c l ↔ ∃ k ∈ l, c.node k.addr = n := by
  simp [nodes]

theorem nodes_nodup (hr : Ring c.ptr m i (nodes c l)) : (nodes c l).Nodup :=
  (List.pairwise_cons.1 hr.apart).2.imp fun h => h.ne c.ptr_pos

theorem findSome_congr {α β : Type} {f g : α → Option β} : ∀ {L : List α}, (∀ x ∈ L, f x = g x) →
    L.findSome? f = L.findSome? g
  | [], _ => rfl
  | x :: L, h => by
    rw [List.findSome?_cons, List.findSome?_cons, h x (by simp),
      findSome_congr fun y hy => h y (List.mem_cons_of_mem _ hy)]

namespace Core

theorem nodup (hc : Core c m blocks cs B out) (hi : i < c.nrBins) : (B i).Nodup :=
  List.Nodup.of_map _ (nodes_nodup (hc.lists i hi))

/-- What is in one bin lies apart from what is in another. -/
theorem bins_apart (hl : Layout c cs) (hc : Core c m blocks cs B out) {i j : Nat} (hi : i < c.nrBins)
    (hj : j < c.nrBins) (hij : i ≠ j) :
    ∀ a ∈ c.heapBin i :: nodes c (B i), ∀ b ∈ c.heapBin j :: nodes c (B j), Ring.Apart c.ptr a b := by
  intro a ha b hb
  rcases List.mem_cons.1 ha with rfl | ha
  · rcases List.mem_cons.1 hb with rfl | hb
    · exact heapBin_apart hij
    · obtain ⟨k, hk, rfl⟩ := mem_nodes.1 hb
      exact (hl.node_bin_apart ((hc.mem_iff j hj k).1 hk).1 hi).symm
  · obtain ⟨k, hk, rfl⟩ := mem_nodes.1 ha
    have h1 := (hc.mem_iff i hi k).1 hk
    rcases List.mem_cons.1 hb with rfl | hb
    · exact hl.node_bin_apart h1.1 hj
    · obtain ⟨k', hk', rfl⟩ := mem_nodes.1 hb
      have h2 := (hc.mem_iff j hj k').1 hk'
      refine hl.node_apart h1.1 h2.1 fun e => hij ?_
      rw [← h1.2.2.2, e, h2.2.2.2]

/-- A bin has fewer chunks than the heap has bytes. -/
theorem length_le (hl : Layout c cs) (hc : Core c m blocks cs B out) (hi : i < c.nrBins) :
    (nodes c (B i)).length ≤ c.heapSize := by
  have hsub : (nodes c (B i)).toFinset ⊆ Finset.Ico c.start c.stop := by
    intro n hn
    obtain ⟨k, hk, rfl⟩ := mem_nodes.1 (List.mem_toFinset.1 hn)
    have h1 := hl.node_inside ((hc.mem_iff i hi k).1 hk).1
    have h2 := c.ptr_pos
    exact Finset.mem_Ico.2 ⟨h1.1, by omega⟩
  have hcard := Finset.card_le_card hsub
  rw [List.toFinset_card_of_nodup (nodes_nodup (hc.lists i hi)), Nat.card_Ico] at hcard
  unfold Config.stop at hcard
  omega

/-- A walk over a bin, for a function of the chunks. -/
theorem forEachChunk_eq (hl : Layout c cs) (hc : Core c m blocks cs B out) (hi : i < c.nrBins) {β : Type}
    (f : Nat → Option β) : forEachChunk c m (c.heapBin i) f = (B i).findSome? fun k => f k.addr := by
  have hlen := length_le hl hc hi
  rw [forEachChunk, Ring.findSome_eq c.ptr_pos (hc.lists i hi) (by omega), nodes, List.findSome?_map]
  exact findSome_congr fun k hk => congrArg f (hl.node2chunk_node ((hc.mem_iff i hi k).1 hk).1)

theorem listEmpty_iff (hc : Core c m blocks cs B out) (hi : i < c.nrBins) :
    listEmpty c m (c.heapBin i) = true ↔ B i = [] := by
  rw [listEmpty, decide_eq_true_iff, Ring.next_eq_self_iff c.ptr_pos (hc.lists i hi), nodes, List.map_eq_nil_iff]

theorem out_congr (hc : Core c m blocks cs B out) (h : ∀ k ∈ cs, k.used = false → (out k.addr ↔ out' k.addr)) :
    Core c m blocks cs B out' where
  lists := hc.lists
  mem_iff := fun i hi k => by
    rw [hc.mem_iff i hi k]
    constructor
    · rintro ⟨h1, h2, h3, h4⟩
      exact ⟨h1, h2, fun h' => h3 ((h k h1 h2).2 h'), h4⟩
    · rintro ⟨h1, h2, h3, h4⟩
      exact ⟨h1, h2, fun h' => h3 ((h k h1 h2).1 h'), h4⟩
  sorted := hc.sorted
  blocks := hc.blocks

/-- Chunks that are all in `out` are replaced by others, in `out` as far as they are free,
and the nodes of the rest are kept. -/
theorem edit (hc : Core c m blocks (l ++ w ++ r) B out) (hw : ∀ k ∈ w, k.used = false → out k.addr)
    (hw' : ∀ k ∈ w', k.used = false → out' k.addr) (hout : ∀ k ∈ l ++ r, k.used = false → (out' k.addr ↔ out k.addr))
    (hnodes : ∀ k ∈ l ++ r, k.used = false → Mem.Agree m m' (c.node k.addr) (c.node k.addr + 2 * c.ptr))
    (hbins : ∀ i < c.nrBins, Mem.Agree m m' (c.heapBin i) (c.heapBin i + 2 * c.ptr)) :
    Core c m' blocks (l ++ w' ++ r) B out' := by
  have hmem : ∀ i < c.nrBins, ∀ k, k ∈ B i ↔ k ∈ l ++ r ∧ k.used = false ∧ ¬ out k.addr ∧ c.heapBinHash k.size = i := by
    intro i hi k
    rw [hc.mem_iff i hi k]
    constructor
    · rintro ⟨h1, h2, h3, h4⟩
      refine ⟨?_, h2, h3, h4⟩
      simp only [List.mem_append] at h1 ⊢
      rcases h1 with (h1 | h1) | h1
      · exact .inl h1
      · exact absurd (hw k h1 h2) h3
      · exact .inr h1
    · rintro ⟨h1, h2⟩
      refine ⟨?_, h2⟩
      simp only [List.mem_append] at h1 ⊢
      tauto
  refine ⟨fun i hi => (hc.lists i hi).congr fun n hn => ?_, fun i hi k => ?_, hc.sorted, hc.blocks⟩
  · rcases List.mem_cons.1 hn with rfl | hn
    · exact hbins i hi
    · obtain ⟨k, hk, rfl⟩ := mem_nodes.1 hn
      have h := (hmem i hi k).1 hk
      exact hnodes k h.1 h.2.1
  · rw [hmem i hi k]
    constructor
    · rintro ⟨h1, h2, h3, h4⟩
      refine ⟨?_, h2, fun h => h3 ((hout k h1 h2).1 h), h4⟩
      simp only [List.mem_append] at h1 ⊢
      tauto
    · rintro ⟨h1, h2, h3, h4⟩
      have h1' : k ∈ l ++ r := by
        simp only [List.mem_append] at h1 ⊢
        rcases h1 with (h1 | h1) | h1
        · exact .inl h1
        · exact absurd (hw' k h1 h2) h3
        · exact .inr h1
      exact ⟨h1', h2, fun h => h3 ((hout k h1' h2).2 h), h4⟩

/-- The index of a memory in which one bin has the list `L` and the nodes of the others are
kept. -/
theorem update (hl : Layout c cs) (hc : Core c m blocks cs B out) (hi : i < c.nrBins) {L : List Chunk}
    {blocks' : Bitops.Bitmap} {ns : List Nat} (hr : Ring c.ptr m' (c.heapBin i) (nodes c L))
    (hk : Ring.KeepsOff c.ptr ns m m')
    (hns : ∀ n ∈ ns, n = c.heapBin i ∨ ∃ k ∈ cs, c.heapBinHash k.size = i ∧ n = c.node k.addr)
    (hmem : ∀ k, k ∈ L ↔ k ∈ cs ∧ k.used = false ∧ ¬ out' k.addr ∧ c.heapBinHash k.size = i)
    (hout : ∀ k ∈ cs, c.heapBinHash k.size ≠ i → (out' k.addr ↔ out k.addr))
    (hsort : L.Pairwise fun j k => j.size ≤ k.size) (hbit : Bitops.testBit c.unit i blocks' = true ↔ L ≠ [])
    (hbits : ∀ j ≠ i, Bitops.testBit c.unit j blocks' = Bitops.testBit c.unit j blocks) :
    Core c m' blocks' cs (Function.update B i L) out' := by
  refine ⟨fun j hj => ?_, fun j hj k => ?_, fun j hj => ?_, fun j hj => ?_⟩ <;> by_cases hji : j = i
  · subst hji
    rwa [Function.update_self]
  · rw [Function.update_of_ne hji]
    refine (hc.lists j hj).of_keepsOff hk fun a ha b hb => ?_
    rcases hns b hb with rfl | ⟨k, hkc, hh, rfl⟩
    · exact bins_apart hl hc hj hi hji a ha _ (by simp)
    · rcases List.mem_cons.1 ha with rfl | ha
      · exact (hl.node_bin_apart hkc hj).symm
      · obtain ⟨k', hk', rfl⟩ := mem_nodes.1 ha
        have h2 := (hc.mem_iff j hj k').1 hk'
        refine hl.node_apart h2.1 hkc fun e => hji ?_
        rw [← h2.2.2.2, e, hh]
  · subst hji
    rw [Function.update_self, hmem k]
  · rw [Function.update_of_ne hji, hc.mem_iff j hj k]
    constructor
    · rintro ⟨h1, h2, h3, rfl⟩
      exact ⟨h1, h2, fun h => h3 ((hout k h1 hji).1 h), rfl⟩
    · rintro ⟨h1, h2, h3, rfl⟩
      exact ⟨h1, h2, fun h => h3 ((hout k h1 hji).2 h), rfl⟩
  · subst hji
    rwa [Function.update_self]
  · rw [Function.update_of_ne hji]
    exact hc.sorted j hj
  · subst hji
    rwa [Function.update_self]
  · rw [Function.update_of_ne hji, hbits j hji]
    exact hc.blocks j hj

/-- A chunk of a bin is taken out of it. -/
theorem unlink (hs : c.heapSize ≤ 0x7FFFFFFF) (hl : Layout c cs) {s : HeapState}
    (hc : Core c s.mem s.blocks cs B out) (hi : i < c.nrBins) (hk : k ∈ B i) :
    (∃ B', Core c (heapChunkUnlink c s k.addr i).mem (heapChunkUnlink c s k.addr i).blocks cs B'
      fun a => out a ∨ a = k.addr) ∧ Keeps c cs s.mem (heapChunkUnlink c s k.addr i).mem := by
  obtain ⟨l, r, hlr⟩ := List.append_of_mem hk
  have hkc := (hc.mem_iff i hi k).1 hk
  have hring := hc.lists i hi
  have hnodes : nodes c (B i) = nodes c l ++ c.node k.addr :: nodes c r := by simp [nodes, hlr]
  have hnodes' : nodes c l ++ nodes c r = nodes c (l ++ r) := by simp [nodes]
  have hsub : ∀ j ∈ l ++ r, j ∈ B i := by
    intro j hj
    rw [hlr]
    simp only [List.mem_append, List.mem_cons] at hj ⊢
    tauto
  have hnd := hc.nodup hi
  rw [hlr, List.nodup_middle, List.nodup_cons] at hnd
  have hlt : ∀ n ∈ c.heapBin i :: (nodes c l ++ nodes c r), n < 256 ^ c.ptr := by
    intro n hn
    rcases List.mem_cons.1 hn with rfl | hn
    · exact heapBin_lt hi
    · rw [hnodes'] at hn
      obtain ⟨j, hj, rfl⟩ := mem_nodes.1 hn
      exact hl.node_lt ((hc.mem_iff i hi j).1 (hsub j hj)).1
  rw [hnodes] at hring
  obtain ⟨hr, hko⟩ := Ring.delInit_ring hring hlt
  rw [hnodes'] at hr hko
  have hns : ∀ n ∈ c.node k.addr :: c.heapBin i :: nodes c (l ++ r),
      n = c.heapBin i ∨ ∃ k ∈ cs, (k.used = false ∧ c.heapBinHash k.size = i) ∧ n = c.node k.addr := by
    intro n hn
    simp only [List.mem_cons] at hn
    rcases hn with rfl | rfl | hn
    · exact .inr ⟨k, hkc.1, ⟨hkc.2.1, hkc.2.2.2⟩, rfl⟩
    · exact .inl rfl
    · obtain ⟨j, hj, rfl⟩ := mem_nodes.1 hn
      have h := (hc.mem_iff i hi j).1 (hsub j hj)
      exact .inr ⟨j, h.1, ⟨h.2.1, h.2.2.2⟩, rfl⟩
  have hempty : listEmpty c (Ring.delInit c.ptr s.mem (c.node k.addr)) (c.heapBin i) = true ↔ l ++ r = [] := by
    rw [listEmpty, decide_eq_true_iff, Ring.next_eq_self_iff c.ptr_pos hr, nodes, List.map_eq_nil_iff]
  refine ⟨⟨_, hc.update hl hi hr hko ?_ ?_ ?_ ?_ ?_ ?_⟩, Keeps.of_keepsOff hs hl hko ?_⟩
  · intro n hn
    rcases hns n hn with h | ⟨k, h1, h2, h3⟩
    · exact .inl h
    · exact .inr ⟨k, h1, h2.2, h3⟩
  · intro j
    constructor
    · intro hj
      have h := (hc.mem_iff i hi j).1 (hsub j hj)
      refine ⟨h.1, h.2.1, ?_, h.2.2.2⟩
      rintro (h' | h')
      · exact h.2.2.1 h'
      · have hjk := hl.eq_of_addr hs h.1 hkc.1 h'
        rw [hjk] at hj
        exact hnd.1 hj
    · rintro ⟨h1, h2, h3, h4⟩
      have hj := (hc.mem_iff i hi j).2 ⟨h1, h2, fun h => h3 (.inl h), h4⟩
      have hne : j ≠ k := fun e => h3 (.inr (by rw [e]))
      rw [hlr] at hj
      simp only [List.mem_append, List.mem_cons] at hj ⊢
      tauto
  · intro j hj hh
    constructor
    · rintro (h | h)
      · exact h
      · have hjk := hl.eq_of_addr hs hj hkc.1 h
        rw [hjk] at hh
        exact absurd hkc.2.2.2 hh
    · exact .inl
  · have := hc.sorted i hi
    rw [hlr] at this
    exact this.sublist (List.Sublist.append (List.Sublist.refl l) (List.sublist_cons_self k r))
  · simp only [heapChunkUnlink]
    split
    · rename_i he
      rw [Bitops.testBit_clearBit c.unit_pos]
      simp [hempty.1 he]
    · rename_i he
      have hne : l ++ r ≠ [] := fun h => he (hempty.2 h)
      have hB : B i ≠ [] := by
        rw [hlr]
        simp
      simp only [hne, ne_eq, not_false_eq_true, iff_true]
      exact (hc.blocks i hi).2 hB
  · intro j hj
    simp only [heapChunkUnlink]
    split
    · rw [Bitops.testBit_clearBit c.unit_pos]
      simp [hj]
    · rfl
  · intro n hn
    rcases hns n hn with h | ⟨k, h1, h2, h3⟩
    · exact .inl ⟨i, hi, h⟩
    · exact .inr ⟨k, h1, h2.1, h3⟩

/-- A free chunk of `out` is put into the list of its bin between `l` and `r`. -/
theorem insert (hs : c.heapSize ≤ 0x7FFFFFFF) (hl : Layout c cs) (hc : Core c m blocks cs B out) (hk : k ∈ cs)
    (hu : k.used = false) (ho : out k.addr) {l r : List Chunk} (hlr : B (c.heapBinHash k.size) = l ++ r)
    (hle : ∀ j ∈ l, j.size ≤ k.size) (hge : ∀ j ∈ r, k.size ≤ j.size) {blocks' : Bitops.Bitmap}
    (hbit : Bitops.testBit c.unit (c.heapBinHash k.size) blocks' = true)
    (hbits : ∀ j ≠ c.heapBinHash k.size, Bitops.testBit c.unit j blocks' = Bitops.testBit c.unit j blocks)
    (hm : m' = Ring.addTail c.ptr (Ring.initHead c.ptr m (c.node k.addr)) (c.node k.addr)
      ((nodes c r).headD (c.heapBin (c.heapBinHash k.size)))) :
    (∃ B', Core c m' blocks' cs B' fun a => out a ∧ a ≠ k.addr) ∧ Keeps c cs m m' := by
  have hi := hl.hash_lt hs hk
  set i := c.heapBinHash k.size with hidef
  have hmemi : ∀ j ∈ l ++ r, j ∈ cs ∧ j.used = false ∧ ¬ out j.addr ∧ c.heapBinHash j.size = i :=
    fun j hj => (hc.mem_iff i hi j).1 (hlr ▸ hj)
  have hne : ∀ j ∈ l ++ r, k ≠ j := fun j hj e => (hmemi j hj).2.2.1 (e ▸ ho)
  have hnodes : nodes c (B i) = nodes c l ++ nodes c r := by simp [nodes, hlr]
  have hns : ∀ n ∈ c.node k.addr :: c.heapBin i :: (nodes c l ++ nodes c r),
      n = c.heapBin i ∨ ∃ k ∈ cs, (k.used = false ∧ c.heapBinHash k.size = i) ∧ n = c.node k.addr := by
    intro n hn
    simp only [List.mem_cons] at hn
    rcases hn with rfl | rfl | hn
    · exact .inr ⟨k, hk, ⟨hu, rfl⟩, rfl⟩
    · exact .inl rfl
    · rw [← hnodes, hlr] at hn
      obtain ⟨j, hj, rfl⟩ := mem_nodes.1 hn
      have h := hmemi j hj
      exact .inr ⟨j, h.1, ⟨h.2.1, h.2.2.2⟩, rfl⟩
  have hx : ∀ n ∈ c.heapBin i :: (nodes c l ++ nodes c r), Ring.Apart c.ptr (c.node k.addr) n := by
    intro n hn
    rcases List.mem_cons.1 hn with rfl | hn
    · exact hl.node_bin_apart hk hi
    · rw [← hnodes, hlr] at hn
      obtain ⟨j, hj, rfl⟩ := mem_nodes.1 hn
      exact hl.node_apart hk (hmemi j hj).1 (hne j hj)
  have hlt : ∀ n ∈ c.node k.addr :: c.heapBin i :: (nodes c l ++ nodes c r), n < 256 ^ c.ptr := by
    intro n hn
    rcases hns n hn with rfl | ⟨j, hj, -, rfl⟩
    · exact heapBin_lt hi
    · exact hl.node_lt hj
  have hinit : Ring.KeepsOff c.ptr [c.node k.addr] m (Ring.initHead c.ptr m (c.node k.addr)) :=
    (Ring.keepsOff_setNext m (by simp) _).trans (Ring.keepsOff_setPrev _ (by simp) _)
  have hring : Ring c.ptr (Ring.initHead c.ptr m (c.node k.addr)) (c.heapBin i) (nodes c l ++ nodes c r) := by
    rw [← hnodes]
    refine (hc.lists i hi).of_keepsOff hinit fun a ha b hb => ?_
    rw [List.mem_singleton.1 hb]
    exact (hx a (hnodes ▸ ha)).symm
  obtain ⟨hr, hko⟩ := Ring.addTail_ring hring hx hlt
  have hko' := (hinit.mono (k := c.node k.addr :: c.heapBin i :: (nodes c l ++ nodes c r)) (by simp)).trans hko
  have hring' : nodes c l ++ c.node k.addr :: nodes c r = nodes c (l ++ k :: r) := by simp [nodes]
  rw [hring'] at hr
  rw [← hm] at hr hko'
  refine ⟨⟨_, hc.update hl hi hr hko' ?_ ?_ ?_ ?_ ?_ hbits⟩, Keeps.of_keepsOff hs hl hko' ?_⟩
  · intro n hn
    rcases hns n hn with h | ⟨k, h1, h2, h3⟩
    · exact .inl h
    · exact .inr ⟨k, h1, h2.2, h3⟩
  · intro j
    constructor
    · intro hj
      by_cases hjk : j = k
      · subst hjk
        exact ⟨hk, hu, fun h => h.2 rfl, rfl⟩
      · have hj' : j ∈ l ++ r := by
          simp only [List.mem_append, List.mem_cons] at hj ⊢
          tauto
        have h := hmemi j hj'
        exact ⟨h.1, h.2.1, fun h' => h.2.2.1 h'.1, h.2.2.2⟩
    · rintro ⟨h1, h2, h3, h4⟩
      by_cases hjk : j = k
      · subst hjk
        simp
      · have haddr : j.addr ≠ k.addr := fun e => hjk (hl.eq_of_addr hs h1 hk e)
        have hj := (hc.mem_iff i hi j).2 ⟨h1, h2, fun h => h3 ⟨h, haddr⟩, h4⟩
        rw [hlr] at hj
        simp only [List.mem_append, List.mem_cons] at hj ⊢
        tauto
  · intro j hj hh
    have haddr : j.addr ≠ k.addr := fun e => hh (by rw [hl.eq_of_addr hs hj hk e])
    simp [haddr]
  · have hsort := hc.sorted i hi
    rw [hlr] at hsort
    obtain ⟨s1, s2, s3⟩ := List.pairwise_append.1 hsort
    refine List.pairwise_append.2 ⟨s1, List.pairwise_cons.2 ⟨hge, s2⟩, fun a ha b hb => ?_⟩
    rcases List.mem_cons.1 hb with rfl | hb
    · exact hle a ha
    · exact s3 a ha b hb
  · simp [hbit]
  · intro n hn
    rcases hns n hn with h | ⟨k, h1, h2, h3⟩
    · exact .inl ⟨i, hi, h⟩
    · exact .inr ⟨k, h1, h2.1, h3⟩

end Core

/-- Where a chunk of size `sz` goes in a list sorted by size: before the first larger one. -/
theorem exists_split_findSome {β : Type} (f : Chunk → β) (sz : Nat) : ∀ {L : List Chunk},
    (L.Pairwise fun j k => j.size ≤ k.size) → ∃ l r, L = l ++ r ∧ (∀ j ∈ l, j.size ≤ sz) ∧ (∀ j ∈ r, sz ≤ j.size) ∧
      (L.findSome? fun j => if sz < j.size then some (f j) else none) = (r.map f).head?
  | [], _ => ⟨[], [], rfl, by simp, by simp, rfl⟩
  | j :: L, h => by
    obtain ⟨h1, h2⟩ := List.pairwise_cons.1 h
    by_cases hj : sz < j.size
    · refine ⟨[], j :: L, rfl, by simp, fun k hk => ?_, ?_⟩
      · rcases List.mem_cons.1 hk with rfl | hk
        · exact hj.le
        · exact hj.le.trans (h1 k hk)
      · simp [hj]
    · obtain ⟨l, r, e, h3, h4, h5⟩ := exists_split_findSome f sz h2
      refine ⟨j :: l, r, by rw [e, List.cons_append], fun k hk => ?_, h4, ?_⟩
      · rcases List.mem_cons.1 hk with rfl | hk
        · omega
        · exact h3 k hk
      · rw [List.findSome?_cons, if_neg hj]
        exact h5

/-- A free chunk of `out` is put into its bin. -/
theorem Core.link (hs : c.heapSize ≤ 0x7FFFFFFF) (hl : Layout c cs) {s : HeapState}
    (hc : Core c s.mem s.blocks cs B out) (hsize : ∀ k ∈ cs, heapCurrSize c s.mem k.addr = k.size)
    (hdvd : ∀ k ∈ cs, 8 ∣ k.size) (hk : k ∈ cs) (hu : k.used = false) (ho : out k.addr) :
    (∃ B', Core c (heapChunkLink c s k.addr k.size).mem (heapChunkLink c s k.addr k.size).blocks cs B'
      fun a => out a ∧ a ≠ k.addr) ∧ Keeps c cs s.mem (heapChunkLink c s k.addr k.size).mem := by
  have hi := hl.hash_lt hs hk
  have hmemi := hc.mem_iff _ hi
  have hset : ∀ j ≠ c.heapBinHash k.size, Bitops.testBit c.unit j (Bitops.setBit c.unit (c.heapBinHash k.size) s.blocks)
      = Bitops.testBit c.unit j s.blocks := by
    intro j hj
    rw [Bitops.testBit_setBit]
    simp [hj]
  have hset' : Bitops.testBit c.unit (c.heapBinHash k.size)
      (Bitops.setBit c.unit (c.heapBinHash k.size) s.blocks) = true := by
    rw [Bitops.testBit_setBit]
    simp
  simp only [heapChunkLink]
  split
  · -- the chunks of an exact bin all have the same size
    rename_i hsz
    simp only [Config.heapExactIndex_eq hs hsz]
    refine hc.insert hs hl hk hu ho (List.append_nil _).symm (fun j hj => ?_) (by simp) hset' hset rfl
    have h1 := (hmemi j).1 hj
    have h2 := hdvd j h1.1
    have h3 := hdvd k hk
    have h4 := h1.2.2.2
    by_cases hj512 : j.size < 512
    · rw [Config.heapBinHash_exact hs hj512, Config.heapBinHash_exact hs hsz] at h4
      omega
    · have h5 := (hl.inside j h1.1)
      have h6 := Config.heapSize_lt hs
      unfold Config.stop at h5
      have h7 := Config.heapBinHash_mono (c := c) (a := 512) (b := j.size) (by omega) (by omega)
      rw [Config.heapBinHash_eq (by omega)] at h7
      rw [h4, Config.heapBinHash_exact hs hsz] at h7
      norm_num at h7
      omega
  · split
    · rename_i hempty
      have hnil := (hc.listEmpty_iff hi).1 hempty
      exact hc.insert hs hl hk hu ho (l := []) (r := []) (by simp [hnil]) (by simp) (by simp) hset' hset rfl
    · rename_i hempty
      have hne : B (c.heapBinHash k.size) ≠ [] := fun h => hempty ((hc.listEmpty_iff hi).2 h)
      obtain ⟨l, r, h1, h2, h3, h4⟩ := exists_split_findSome (fun j => c.node j.addr) k.size (hc.sorted _ hi)
      refine hc.insert hs hl hk hu ho h1 h2 h3 ((hc.blocks _ hi).2 hne) (fun _ _ => rfl) ?_
      have hbefore : linkBefore c s.mem (c.heapBin (c.heapBinHash k.size)) k.size =
          (nodes c r).headD (c.heapBin (c.heapBinHash k.size)) := by
        rw [linkBefore, hc.forEachChunk_eq hl hi, nodes, List.headD_eq_head?_getD, ← h4]
        congr 1
        refine findSome_congr fun j hj => ?_
        rw [hsize j ((hmemi j).1 hj).1]
      rw [hbefore]

end Sdfirm.Heap
