import Sdfirm.Proof.Heap.Arith

/-!
# Chunks that tile a stretch of memory

`Seg` of a list of chunks is cut and joined at any chunk (`seg_append`). It
depends on the bytes of the headers and feet only, not on the payload of the
chunks (`Seg.congr`). `Tiles` is a segment that ends at the top chunk; what an
edit of one chunk does to the ones after it is to change the bit in the first
header (`Tiles.reflag`).
-/

namespace Sdfirm.Heap

open Framework

variable {c : Config} {m m' : Mem} {pu pv pw : Bool} {a b p q : Nat} {k : Chunk} {cs l r : List Chunk}

theorem seg_append : Seg c m pu a (l ++ r) b pv ↔ ∃ p pw, Seg c m pu a l p pw ∧ Seg c m pw p r b pv := by
  induction l generalizing pu a with
  | nil =>
    constructor
    · exact fun h => ⟨a, pu, ⟨rfl, rfl⟩, h⟩
    · rintro ⟨p, pw, ⟨rfl, rfl⟩, h⟩
      exact h
  | cons k l ih =>
    constructor
    · rintro ⟨h1, h2, h3⟩
      obtain ⟨p, pw, h4, h5⟩ := ih.1 h3
      exact ⟨p, pw, ⟨h1, h2, h4⟩, h5⟩
    · rintro ⟨p, pw, ⟨h1, h2, h3⟩, h4⟩
      exact ⟨h1, h2, ih.2 ⟨p, pw, h3, h4⟩⟩

theorem Seg.append (h1 : Seg c m pu a l p pw) (h2 : Seg c m pw p r b pv) : Seg c m pu a (l ++ r) b pv :=
  seg_append.2 ⟨p, pw, h1, h2⟩

theorem seg_singleton : Seg c m pu a [k] b pv ↔ k.addr = a ∧ Tagged c m pu k ∧ a + k.size = b ∧ k.used = pv :=
  Iff.rfl

namespace Seg

theorem le (h : Seg c m pu a cs b pv) : a ≤ b := by
  induction cs generalizing pu a with
  | nil => exact h.1.le
  | cons k cs ih =>
    have := ih h.2.2
    omega

theorem bounds (h : Seg c m pu a cs b pv) (hk : k ∈ cs) : a ≤ k.addr ∧ k.addr + k.size ≤ b := by
  induction cs generalizing pu a with
  | nil => exact absurd hk List.not_mem_nil
  | cons j cs ih =>
    obtain ⟨h1, -, h3⟩ := h
    rcases List.mem_cons.1 hk with rfl | hk
    · have := h3.le
      omega
    · have := ih h3 hk
      omega

theorem dvd_sub (h : Seg c m pu a cs b pv) : 8 ∣ b - a := by
  induction cs generalizing pu a with
  | nil => simp [h.1]
  | cons k cs ih =>
    have h1 := ih h.2.2
    have h2 := h.2.1.size_dvd
    have h3 := h.2.2.le
    omega

/-- Each chunk ends before the next ones start. -/
theorem pairwise (h : Seg c m pu a cs b pv) : cs.Pairwise fun j k => j.addr + j.size ≤ k.addr := by
  induction cs generalizing pu a with
  | nil => exact .nil
  | cons j cs ih =>
    obtain ⟨h1, -, h3⟩ := h
    refine List.pairwise_cons.2 ⟨fun k hk => ?_, ih h3⟩
    rw [h1]
    exact (h3.bounds hk).1

theorem tagged (h : Seg c m pu a cs b pv) (hk : k ∈ cs) : ∃ pw, Tagged c m pw k := by
  induction cs generalizing pu a with
  | nil => exact absurd hk List.not_mem_nil
  | cons j cs ih =>
    rcases List.mem_cons.1 hk with rfl | hk
    · exact ⟨pu, h.2.1⟩
    · exact ih h.2.2 hk

/-- The last chunk of a segment that ends in a free one. -/
theorem last_free (h : Seg c m true a cs b false) : ∃ l j pw, cs = l ++ [j] ∧ j.used = false ∧ j.addr + j.size = b ∧
    Seg c m true a l j.addr pw ∧ Tagged c m pw j := by
  rcases List.eq_nil_or_concat' cs with rfl | ⟨l, j, rfl⟩
  · exact absurd h.2 (by decide)
  · obtain ⟨p, pw, h1, h2⟩ := seg_append.1 h
    obtain ⟨h3, h4, h5, h6⟩ := seg_singleton.1 h2
    subst h3
    exact ⟨l, j, pw, rfl, h6, h5, h1, h4⟩

end Seg

/-! ## The bytes a segment depends on -/

/-- The bytes of a chunk that are not of its header or foot. -/
def Chunk.Payload (c : Config) (k : Chunk) (x : Nat) : Prop :=
  k.addr + 2 * c.sizeSize ≤ x ∧ x < k.addr + k.size + if k.used then c.sizeSize else 0

theorem Tagged.congr (h : Tagged c m pu k) (h1 : Mem.Agree m m' (k.addr + c.sizeSize) (k.addr + 2 * c.sizeSize))
    (h2 : k.used = false → Mem.Agree m m' (k.addr + k.size) (k.addr + k.size + c.sizeSize)) : Tagged c m' pu k where
  size_dvd := h.size_dvd
  size_ge := h.size_ge
  head := by
    rw [Mem.load_congr (h1.mono le_rfl (by omega)), h.head]
  foot := fun hu => by rw [Mem.load_congr (h2 hu), h.foot hu]
  coalesced := h.coalesced

theorem Tagged.size_gt (hs : c.heapSize ≤ 0x7FFFFFFF) (h : Tagged c m pu k) : c.headSize ≤ k.size := by
  have h1 := h.size_ge
  rw [Config.heapAlign_headSize hs] at h1
  omega

/-- A segment is kept when all bytes but those of payloads are. -/
theorem Seg.congr (hs : c.heapSize ≤ 0x7FFFFFFF) (h : Seg c m pu a cs b pv)
    (hm : ∀ x, a + c.sizeSize ≤ x → x < b + c.sizeSize → (∀ k ∈ cs, ¬ k.Payload c x) → m' x = m x) :
    Seg c m' pu a cs b pv := by
  induction cs generalizing pu a with
  | nil => exact h
  | cons k cs ih =>
    obtain ⟨rfl, h2, h3⟩ := h
    have hg := Config.geometry hs
    have hsz := h2.size_gt hs
    have hle := h3.le
    refine ⟨rfl, h2.congr ?_ ?_, ih h3 ?_⟩
    · intro x hx1 hx2
      refine hm x hx1 (by omega) fun j hj hp => ?_
      unfold Chunk.Payload at hp
      rcases List.mem_cons.1 hj with rfl | hj
      · omega
      · have := h3.bounds hj
        omega
    · intro hu x hx1 hx2
      refine hm x (by omega) (by omega) fun j hj hp => ?_
      unfold Chunk.Payload at hp
      rcases List.mem_cons.1 hj with rfl | hj
      · rw [hu, if_neg (by decide)] at hp
        omega
      · have := h3.bounds hj
        omega
    · intro x hx1 hx2 hx3
      refine hm x (by omega) hx2 fun j hj => ?_
      rcases List.mem_cons.1 hj with rfl | hj
      · unfold Chunk.Payload
        split <;> omega
      · exact hx3 j hj

/-! ## Segments up to the top chunk -/

/-- The chunks `cs` from `a` to the top chunk at `t`. -/
def Tiles (c : Config) (m : Mem) (pu : Bool) (a : Nat) (cs : List Chunk) (t topSize : Nat) : Prop :=
  Seg c m pu a cs t true ∧ m.load (t + c.sizeSize) c.sizeSize = topSize + 1

variable {t topSize : Nat}

/-- The size of the chunk at the start of a tiling. -/
def firstSize (cs : List Chunk) (topSize : Nat) : Nat := (cs.map Chunk.size).headD topSize

namespace Tiles

theorem append (h1 : Seg c m pu a l p pw) (h2 : Tiles c m pw p r t topSize) : Tiles c m pu a (l ++ r) t topSize :=
  ⟨h1.append h2.1, h2.2⟩

theorem cut (h : Tiles c m pu a (l ++ r) t topSize) :
    ∃ p pw, Seg c m pu a l p pw ∧ Tiles c m pw p r t topSize := by
  obtain ⟨p, pw, h1, h2⟩ := seg_append.1 h.1
  exact ⟨p, pw, h1, h2, h.2⟩

theorem head (h : Tiles c m pu a cs t topSize) :
    m.load (a + c.sizeSize) c.sizeSize = firstSize cs topSize + pu.toNat := by
  cases cs with
  | nil =>
    obtain ⟨⟨rfl, rfl⟩, h2⟩ := h
    exact h2
  | cons k cs =>
    obtain ⟨⟨rfl, h2, -⟩, -⟩ := h
    exact h2.head

/-- The bytes after the first header are kept, and the first header says anew whether the
chunk before is in use. -/
theorem reflag (hs : c.heapSize ≤ 0x7FFFFFFF) (h : Tiles c m pu a cs t topSize)
    (hm : Mem.Agree m m' (a + 2 * c.sizeSize) (t + 2 * c.sizeSize))
    (hhead : m'.load (a + c.sizeSize) c.sizeSize = firstSize cs topSize + pv.toNat)
    (hfree : pv = false → ∃ k cs', cs = k :: cs' ∧ k.used = true) : Tiles c m' pv a cs t topSize := by
  cases cs with
  | nil =>
    cases pv with
    | false =>
      obtain ⟨k, cs', h, -⟩ := hfree rfl
      exact absurd h (by simp)
    | true =>
      obtain ⟨⟨rfl, -⟩, -⟩ := h
      exact ⟨⟨rfl, rfl⟩, hhead⟩
  | cons k cs =>
    obtain ⟨⟨rfl, h2, h3⟩, h4⟩ := h
    have hg := Config.geometry hs
    have hsz := h2.size_gt hs
    have hle := h3.le
    refine ⟨⟨rfl, ⟨h2.size_dvd, h2.size_ge, hhead, ?_, ?_⟩, h3.congr hs fun x hx1 hx2 _ => ?_⟩, ?_⟩
    · intro hu
      rw [Mem.load_congr (hm.mono (by omega) (by omega)), h2.foot hu]
    · intro hu
      cases pv with
      | true => rfl
      | false =>
        obtain ⟨k', cs', he, hk'⟩ := hfree rfl
        cases he
        rw [hu] at hk'
        exact absurd hk' (by decide)
    · exact hm x (by omega) (by omega)
    · rw [Mem.load_congr (hm.mono (by omega) (by omega)), h4]

/-- The bytes of headers and feet are kept. -/
theorem congr (hs : c.heapSize ≤ 0x7FFFFFFF) (h : Tiles c m pu a cs t topSize)
    (hm : ∀ x, a + c.sizeSize ≤ x → x < t + 2 * c.sizeSize → (∀ k ∈ cs, ¬ k.Payload c x) → m' x = m x) :
    Tiles c m' pu a cs t topSize := by
  have hle := h.1.le
  refine ⟨h.1.congr hs fun x h1 h2 h3 => hm x h1 (by omega) h3, ?_⟩
  rw [Mem.load_congr, h.2]
  intro x h1 h2
  refine hm x (by omega) (by omega) fun k hk hp => ?_
  have := h.1.bounds hk
  unfold Chunk.Payload at hp
  split at hp <;> omega

end Tiles

end Sdfirm.Heap
