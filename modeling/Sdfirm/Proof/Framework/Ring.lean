import Sdfirm.Proof.Framework.Mem

/-!
# Circular doubly linked lists in memory

A node of a list is two pointers of `ptr` bytes in a byte memory, `next` and
then `prev`. `Ring ptr m h l` says that from the head `h` the `next` pointers
lead through the nodes `l` back to `h`, and the `prev` pointers the other
way. The operations are those of an intrusive list: a node put in before
another one (`addTail`, `addTail_ring`) and a node taken out (`delInit`,
`delInit_ring`). Both keep every byte outside the nodes of the ring
(`KeepsOff`), and a ring is kept by all that keeps the bytes of its nodes
(`Ring.congr`). `findSome` walks a ring; on one it is `List.findSome?`
(`findSome_eq`).
-/

namespace Framework

namespace Ring

variable (ptr : Nat)

/-! ## Nodes -/

def next (m : Mem) (a : Nat) : Nat := m.load a ptr

def prev (m : Mem) (a : Nat) : Nat := m.load (a + ptr) ptr

def setNext (m : Mem) (a v : Nat) : Mem := m.store a ptr v

def setPrev (m : Mem) (a v : Nat) : Mem := m.store (a + ptr) ptr v

/-- The nodes at `a` and `b` do not overlap. -/
def Apart (a b : Nat) : Prop := a + 2 * ptr ≤ b ∨ b + 2 * ptr ≤ a

/-- `m'` differs from `m` only in the nodes `l`. -/
def KeepsOff (l : List Nat) (m m' : Mem) : Prop := ∀ x, (∀ a ∈ l, x < a ∨ a + 2 * ptr ≤ x) → m' x = m x

variable {m m' m'' : Mem} {a b v : Nat} {l k : List Nat}

section
variable {ptr}

theorem Apart.symm (h : Apart ptr a b) : Apart ptr b a := Or.symm h

theorem Apart.ne (h : Apart ptr a b) (hp : 0 < ptr) : a ≠ b := by
  unfold Apart at h
  omega

theorem KeepsOff.trans (h : KeepsOff ptr l m m') (h' : KeepsOff ptr l m' m'') : KeepsOff ptr l m m'' :=
  fun x hx => (h' x hx).trans (h x hx)

theorem KeepsOff.mono (h : KeepsOff ptr l m m') (hs : ∀ a ∈ l, a ∈ k) : KeepsOff ptr k m m' :=
  fun x hx => h x fun a ha => hx a (hs a ha)

theorem KeepsOff.agree (h : KeepsOff ptr l m m') {x y : Nat} (ha : ∀ a ∈ l, y ≤ a ∨ a + 2 * ptr ≤ x) :
    Mem.Agree m m' x y := by
  intro z h1 h2
  refine h z fun a hal => ?_
  have := ha a hal
  omega

theorem keepsOff_setNext (m : Mem) (h : a ∈ l) (v : Nat) : KeepsOff ptr l m (setNext ptr m a v) := by
  intro x hx
  have := hx a h
  refine Mem.store_agree m a ptr v (b := x) (c := x + 1) ?_ x le_rfl (Nat.lt_succ_self x)
  omega

theorem keepsOff_setPrev (m : Mem) (h : a ∈ l) (v : Nat) : KeepsOff ptr l m (setPrev ptr m a v) := by
  intro x hx
  have := hx a h
  refine Mem.store_agree m (a + ptr) ptr v (b := x) (c := x + 1) ?_ x le_rfl (Nat.lt_succ_self x)
  omega

end

/-! ## The operations -/

/-- The node `a` becomes a ring of its own. -/
def initHead (m : Mem) (a : Nat) : Mem := setPrev ptr (setNext ptr m a a) a a

/-- The node `x` is put in before `y`. -/
def addTail (m : Mem) (x y : Nat) : Mem :=
  let m := setNext ptr m (prev ptr m y) x
  let m := setPrev ptr m x (prev ptr m y)
  let m := setPrev ptr m y x
  setNext ptr m x y

/-- The node `x` is taken out, and becomes a ring of its own. -/
def delInit (m : Mem) (x : Nat) : Mem :=
  let m := setPrev ptr m (next ptr m x) (prev ptr m x)
  let m := setNext ptr m (prev ptr m x) (next ptr m x)
  initHead ptr m x

/-! ## Reads after writes -/

variable {ptr}

theorem next_setNext_self (hv : v < 256 ^ ptr) : next ptr (setNext ptr m a v) a = v := by
  rw [next, setNext, Mem.load_store_self, Nat.mod_eq_of_lt hv]

theorem prev_setPrev_self (hv : v < 256 ^ ptr) : prev ptr (setPrev ptr m a v) a = v := by
  rw [prev, setPrev, Mem.load_store_self, Nat.mod_eq_of_lt hv]

@[simp] theorem next_setPrev_self : next ptr (setPrev ptr m a v) a = next ptr m a :=
  Mem.load_store_apart (.inl le_rfl)

@[simp] theorem prev_setNext_self : prev ptr (setNext ptr m a v) a = prev ptr m a :=
  Mem.load_store_apart (.inr le_rfl)

theorem next_setNext (h : Apart ptr b a) : next ptr (setNext ptr m a v) b = next ptr m b :=
  Mem.load_store_apart (by unfold Apart at h; omega)

theorem next_setPrev (h : Apart ptr b a) : next ptr (setPrev ptr m a v) b = next ptr m b :=
  Mem.load_store_apart (by unfold Apart at h; omega)

theorem prev_setNext (h : Apart ptr b a) : prev ptr (setNext ptr m a v) b = prev ptr m b :=
  Mem.load_store_apart (by unfold Apart at h; omega)

theorem prev_setPrev (h : Apart ptr b a) : prev ptr (setPrev ptr m a v) b = prev ptr m b :=
  Mem.load_store_apart (by unfold Apart at h; omega)

theorem next_congr (h : Mem.Agree m m' a (a + 2 * ptr)) : next ptr m' a = next ptr m a :=
  Mem.load_congr (h.mono le_rfl (by omega))

theorem prev_congr (h : Mem.Agree m m' a (a + 2 * ptr)) : prev ptr m' a = prev ptr m a :=
  Mem.load_congr (h.mono (by omega) (by omega))

/-! ## Rings -/

variable (ptr)

/-- `b` follows `a`. -/
def Linked (m : Mem) (a b : Nat) : Prop := next ptr m a = b ∧ prev ptr m b = a

end Ring

/-- The circular list with head `h` and nodes `l`. -/
structure Ring (ptr : Nat) (m : Mem) (h : Nat) (l : List Nat) : Prop where
  linked : List.IsChain (Ring.Linked ptr m) (h :: l ++ [h])
  apart : (h :: l).Pairwise (Ring.Apart ptr)

namespace Ring

variable {ptr : Nat} {m m' : Mem} {h a b x : Nat} {l k : List Nat}

theorem Apart.eq_or (hl : l.Pairwise (Apart ptr)) (ha : a ∈ l) (hb : b ∈ l) : a = b ∨ Apart ptr a b := by
  have : Std.Symm (Apart ptr) := ⟨fun _ _ h => h.symm⟩
  by_cases hne : a = b
  · exact .inl hne
  · exact .inr (hl.forall ha hb hne)

/-- A chain of links depends on the `next` of all but its last node and the `prev` of all
but its first. -/
theorem isChain_congr : ∀ {l : List Nat}, List.IsChain (Linked ptr m) l →
    (∀ a ∈ l.dropLast, next ptr m' a = next ptr m a) → (∀ a ∈ l.tail, prev ptr m' a = prev ptr m a) →
    List.IsChain (Linked ptr m') l
  | [], _, _, _ => .nil
  | [a], _, _, _ => .singleton a
  | a :: b :: l, h, hn, hp => by
    obtain ⟨⟨h1, h2⟩, h3⟩ := List.isChain_cons_cons.1 h
    refine List.isChain_cons_cons.2 ⟨⟨?_, ?_⟩, isChain_congr h3 ?_ ?_⟩
    · rw [hn a (by simp), h1]
    · rw [hp b (by simp), h2]
    · exact fun c hc => hn c (by simp only [List.dropLast_cons_cons, List.mem_cons]; exact .inr hc)
    · exact fun c hc => hp c (by simp only [List.tail_cons, List.mem_cons] at hc ⊢; exact .inr hc)

theorem mem_of_mem_dropLast (ha : a ∈ (h :: l ++ [h]).dropLast) : a ∈ h :: l := by
  rwa [List.dropLast_concat] at ha

theorem mem_of_mem_tail (ha : a ∈ (h :: l ++ [h]).tail) : a ∈ h :: l := by
  simp only [List.cons_append, List.tail_cons, List.mem_append, List.mem_singleton] at ha
  simp only [List.mem_cons]
  tauto

/-- A ring is kept when the bytes of its nodes are. -/
theorem congr (hr : Ring ptr m h l) (hm : ∀ a ∈ h :: l, Mem.Agree m m' a (a + 2 * ptr)) :
    Ring ptr m' h l :=
  ⟨isChain_congr hr.linked (fun a ha => next_congr (hm a (mem_of_mem_dropLast ha)))
    fun a ha => prev_congr (hm a (mem_of_mem_tail ha)), hr.apart⟩

/-- An edit of other nodes keeps a ring. -/
theorem of_keepsOff (hr : Ring ptr m h l) (hk : KeepsOff ptr k m m')
    (hapart : ∀ a ∈ h :: l, ∀ b ∈ k, Apart ptr a b) : Ring ptr m' h l := by
  refine hr.congr fun a ha => hk.agree fun b hb => ?_
  have := hapart a ha b hb
  unfold Apart at this
  omega

/-! ## A ring cut open -/

/-- The links `h :: l ++ k ++ [h]` of a ring as `u ++ a :: b :: w`, cut between the last node
`a` of `h :: l` and the first node `b` of `k ++ [h]`. -/
structure Cut (ptr h : Nat) (l k u : List Nat) (a b : Nat) (w : List Nat) : Prop where
  left : h :: l = u ++ [a]
  right : k ++ [h] = b :: w
  ends : a = b ∨ Apart ptr a b
  leftNext : ∀ n ∈ u, Apart ptr n a ∧ (n = b ∨ Apart ptr n b)
  leftPrev : ∀ n ∈ (u ++ [a]).tail, Apart ptr n b ∧ (n = a ∨ Apart ptr n a)
  rightNext : ∀ n ∈ (b :: w).dropLast, Apart ptr n a ∧ (n = b ∨ Apart ptr n b)
  rightPrev : ∀ n ∈ w, Apart ptr n b ∧ (n = a ∨ Apart ptr n a)

namespace Cut

variable {u w : List Nat}

theorem links (hc : Cut ptr h l k u a b w) : h :: (l ++ k) ++ [h] = u ++ a :: b :: w := by
  rw [← List.cons_append, hc.left, List.append_assoc, hc.right, List.append_assoc]
  rfl

theorem links_insert (hc : Cut ptr h l k u a b w) (x : Nat) :
    h :: (l ++ x :: k) ++ [h] = u ++ a :: x :: b :: w := by
  rw [← List.cons_append, hc.left, List.append_assoc, List.cons_append, hc.right, List.append_assoc]
  rfl

theorem headD_eq (hc : Cut ptr h l k u a b w) : k.headD h = b := by
  have := hc.right
  cases k with
  | nil => simpa using (List.cons.inj this).1
  | cons c k => simpa using (List.cons.inj this).1

theorem mem_of_links (hc : Cut ptr h l k u a b w) {n : Nat} (hn : n ∈ u ++ a :: b :: w) :
    n ∈ h :: (l ++ k) := by
  rw [← hc.links] at hn
  simp only [List.cons_append, List.mem_cons, List.mem_append] at hn ⊢
  tauto

theorem left_mem (hc : Cut ptr h l k u a b w) : a ∈ h :: (l ++ k) := hc.mem_of_links (by simp)

theorem right_mem (hc : Cut ptr h l k u a b w) : b ∈ h :: (l ++ k) := hc.mem_of_links (by simp)

end Cut

/-- The ends of a cut, `a` last on the left and `b` first on the right. -/
theorem exists_ends (h : Nat) (l k : List Nat) :
    ∃ u a b w, h :: l = u ++ [a] ∧ k ++ [h] = b :: w := by
  refine ⟨_, _, (k ++ [h]).head (by simp), (k ++ [h]).tail,
    (List.dropLast_append_getLast (List.cons_ne_nil h l)).symm, ?_⟩
  exact (List.cons_head_tail _).symm

theorem exists_cut (hap : (h :: (l ++ k)).Pairwise (Apart ptr)) : ∃ u a b w, Cut ptr h l k u a b w := by
  obtain ⟨u, a, b, w, hu, hw⟩ := exists_ends h l k
  have hmem : ∀ n ∈ u ++ a :: b :: w, n ∈ h :: (l ++ k) := by
    intro n hn
    have : u ++ a :: b :: w = (h :: l) ++ (k ++ [h]) := by rw [hu, hw, List.append_assoc]; rfl
    rw [this] at hn
    simp only [List.cons_append, List.mem_cons, List.mem_append] at hn ⊢
    tauto
  have heq : ∀ {n n'}, n ∈ u ++ a :: b :: w → n' ∈ u ++ a :: b :: w → n = n' ∨ Apart ptr n n' :=
    fun hn hn' => Apart.eq_or hap (hmem _ hn) (hmem _ hn')
  obtain ⟨h1, h2, h3⟩ := List.pairwise_append.1 (show ((h :: l) ++ k).Pairwise (Apart ptr) from hap)
  have ha : a ∈ h :: l := by simp [hu]
  have hdrop : (b :: w).dropLast = k := by rw [← hw, List.dropLast_concat]
  refine ⟨u, a, b, w, hu, hw, heq (by simp) (by simp), ?_, ?_, ?_, ?_⟩
  · rw [hu] at h1
    exact fun n hn => ⟨(List.pairwise_append.1 h1).2.2 n hn a (by simp), heq (by simp [hn]) (by simp)⟩
  · -- a node after the head is apart from `b`, which is the head or a node of `k`
    intro n hn
    refine ⟨?_, heq ?_ (by simp)⟩
    · rw [← hu, List.tail_cons] at hn
      cases k with
      | nil =>
        obtain ⟨rfl, -⟩ := List.cons.inj hw
        exact ((List.pairwise_cons.1 h1).1 n hn).symm
      | cons c k =>
        obtain ⟨rfl, -⟩ := List.cons.inj hw
        exact h3 n (List.mem_cons_of_mem _ hn) c (by simp)
    · have := List.mem_of_mem_tail hn
      simp only [List.mem_append, List.mem_cons] at this ⊢
      tauto
  · intro n hn
    refine ⟨(h3 a ha n (hdrop ▸ hn)).symm, heq ?_ (by simp)⟩
    have := List.mem_of_mem_dropLast hn
    simp only [List.mem_append, List.mem_cons] at this ⊢
    tauto
  · intro n hn
    refine ⟨?_, heq (by simp [hn]) (by simp)⟩
    cases k with
    | nil =>
      obtain ⟨-, rfl⟩ := List.cons.inj hw
      exact absurd hn List.not_mem_nil
    | cons c k =>
      obtain ⟨rfl, rfl⟩ := List.cons.inj hw
      rcases List.mem_append.1 hn with hn | hn
      · exact ((List.pairwise_cons.1 h2).1 n hn).symm
      · rw [List.mem_singleton.1 hn]
        exact h3 h (by simp) c (by simp)

/-- The links of a cut ring in another memory: those on the left and on the right are kept
when the `next` of all nodes but `a` and the `prev` of all nodes but `b` are. -/
theorem Cut.isChain_sides {u w : List Nat} (hc : Cut ptr h l k u a b w) (m' : Mem)
    (h1 : List.IsChain (Linked ptr m) (u ++ [a])) (h2 : List.IsChain (Linked ptr m) (b :: w))
    (hn : ∀ n ∈ h :: (l ++ k), Apart ptr n a → n = b ∨ Apart ptr n b → next ptr m' n = next ptr m n)
    (hp : ∀ n ∈ h :: (l ++ k), Apart ptr n b → n = a ∨ Apart ptr n a → prev ptr m' n = prev ptr m n) :
    List.IsChain (Linked ptr m') (u ++ [a]) ∧ List.IsChain (Linked ptr m') (b :: w) := by
  refine ⟨isChain_congr h1 ?_ ?_, isChain_congr h2 ?_ ?_⟩
  · intro n hm
    rw [List.dropLast_concat] at hm
    exact hn n (hc.mem_of_links (by simp [hm])) (hc.leftNext n hm).1 (hc.leftNext n hm).2
  · intro n hm
    refine hp n (hc.mem_of_links ?_) (hc.leftPrev n hm).1 (hc.leftPrev n hm).2
    have := List.mem_of_mem_tail hm
    simp only [List.mem_append, List.mem_cons] at this ⊢
    tauto
  · intro n hm
    refine hn n (hc.mem_of_links ?_) (hc.rightNext n hm).1 (hc.rightNext n hm).2
    have := List.mem_of_mem_dropLast hm
    simp only [List.mem_append, List.mem_cons] at this ⊢
    tauto
  · exact fun n hm => hp n (hc.mem_of_links (by simp [show n ∈ w from hm])) (hc.rightPrev n hm).1
      (hc.rightPrev n hm).2

/-! ## A node put in -/

/-- What is written when `x` goes between `a` and `b`. -/
def between (ptr : Nat) (m : Mem) (x a b : Nat) : Mem :=
  setNext ptr (setPrev ptr (setPrev ptr (setNext ptr m a x) x a) b x) x b

theorem addTail_eq (h : Linked ptr m a b) (hab : a = b ∨ Apart ptr b a) :
    addTail ptr m x b = between ptr m x a b := by
  have hp : prev ptr (setNext ptr m a x) b = a := by
    rcases hab with rfl | hab
    · rw [prev_setNext_self, h.2]
    · rw [prev_setNext hab, h.2]
  simp only [addTail, between, h.2, hp]

theorem between_linked (hxa : Apart ptr x a) (hxb : Apart ptr x b) (hab : a = b ∨ Apart ptr a b) (hx : x < 256 ^ ptr) (ha : a < 256 ^ ptr) (hb : b < 256 ^ ptr) :
    Linked ptr (between ptr m x a b) a x ∧ Linked ptr (between ptr m x a b) x b := by
  refine ⟨⟨?_, ?_⟩, ⟨?_, ?_⟩⟩ <;> unfold between
  · rw [next_setNext hxa.symm]
    have : next ptr (setPrev ptr (setNext ptr m a x) x a) a = x := by
      rw [next_setPrev hxa.symm, next_setNext_self hx]
    rcases hab with rfl | hab
    · rw [next_setPrev_self, this]
    · rw [next_setPrev hab, this]
  · rw [prev_setNext_self, prev_setPrev hxb, prev_setPrev_self ha]
  · exact next_setNext_self hb
  · rw [prev_setNext hxb.symm, prev_setPrev_self hx]

theorem next_between {n : Nat} (hnx : Apart ptr n x) (hna : Apart ptr n a) (hnb : n = b ∨ Apart ptr n b) :
    next ptr (between ptr m x a b) n = next ptr m n := by
  have : next ptr (setPrev ptr (setNext ptr m a x) x a) n = next ptr m n := by
    rw [next_setPrev hnx, next_setNext hna]
  rw [between, next_setNext hnx]
  rcases hnb with rfl | hnb
  · rw [next_setPrev_self, this]
  · rw [next_setPrev hnb, this]

theorem prev_between {n : Nat} (hnx : Apart ptr n x) (hnb : Apart ptr n b) (hna : n = a ∨ Apart ptr n a) :
    prev ptr (between ptr m x a b) n = prev ptr m n := by
  rw [between, prev_setNext hnx, prev_setPrev hnb, prev_setPrev hnx]
  rcases hna with rfl | hna
  · rw [prev_setNext_self]
  · rw [prev_setNext hna]

theorem between_keepsOff : KeepsOff ptr [x, a, b] m (between ptr m x a b) :=
  ((((keepsOff_setNext m (by simp) x).trans (keepsOff_setPrev _ (by simp) a)).trans
    (keepsOff_setPrev _ (by simp) x)).trans (keepsOff_setNext _ (by simp) b))

/-- The node `x` is put into a ring before the first node of `k`, or at its end. -/
theorem addTail_ring (hr : Ring ptr m h (l ++ k)) (hx : ∀ n ∈ h :: (l ++ k), Apart ptr x n)
    (hlt : ∀ n ∈ x :: h :: (l ++ k), n < 256 ^ ptr) :
    Ring ptr (addTail ptr m x (k.headD h)) h (l ++ x :: k) ∧
      KeepsOff ptr (x :: h :: (l ++ k)) m (addTail ptr m x (k.headD h)) := by
  obtain ⟨u, a, b, w, hc⟩ := exists_cut hr.apart
  have hlink := hr.linked
  rw [hc.links] at hlink
  obtain ⟨c1, c2, c3⟩ := List.isChain_append_cons_cons.1 hlink
  have hltm : ∀ n ∈ h :: (l ++ k), n < 256 ^ ptr := fun n hn => hlt n (List.mem_cons_of_mem _ hn)
  rw [hc.headD_eq, addTail_eq c2 (hc.ends.imp_right Apart.symm)]
  refine ⟨⟨?_, ?_⟩, between_keepsOff.mono ?_⟩
  · obtain ⟨e1, e2⟩ := between_linked (m := m) (hx a hc.left_mem) (hx b hc.right_mem) hc.ends
      (hlt x (by simp)) (hltm a hc.left_mem) (hltm b hc.right_mem)
    obtain ⟨s1, s2⟩ := hc.isChain_sides (between ptr m x a b) c1 c3
      (fun n hn ha hb => next_between (hx n hn).symm ha hb) fun n hn hb ha => prev_between (hx n hn).symm hb ha
    rw [hc.links_insert]
    exact List.isChain_append_cons_cons.2 ⟨s1, e1, List.isChain_cons_cons.2 ⟨e2, s2⟩⟩
  · have hperm : (x :: (h :: (l ++ k))).Pairwise (Apart ptr) := List.pairwise_cons.2 ⟨hx, hr.apart⟩
    refine hperm.perm ?_ fun h => h.symm
    exact (List.Perm.swap h x (l ++ k)).trans (List.Perm.cons h List.perm_middle.symm)
  · intro n hn
    simp only [List.mem_cons, List.not_mem_nil, or_false] at hn
    rcases hn with rfl | rfl | rfl
    · simp
    · exact List.mem_cons_of_mem _ hc.left_mem
    · exact List.mem_cons_of_mem _ hc.right_mem

/-! ## A node taken out -/

/-- What is written when `x`, between `a` and `b`, is taken out. -/
def closed (ptr : Nat) (m : Mem) (x a b : Nat) : Mem :=
  initHead ptr (setNext ptr (setPrev ptr m b a) a b) x

theorem delInit_eq (h1 : Linked ptr m a x) (h2 : Linked ptr m x b) (hxb : Apart ptr x b) :
    delInit ptr m x = closed ptr m x a b := by
  simp only [delInit, closed, h1.2, h2.1, prev_setPrev hxb, next_setPrev hxb]

theorem next_initHead {n : Nat} (hn : Apart ptr n x) : next ptr (initHead ptr m x) n = next ptr m n := by
  rw [initHead, next_setPrev hn, next_setNext hn]

theorem prev_initHead {n : Nat} (hn : Apart ptr n x) : prev ptr (initHead ptr m x) n = prev ptr m n := by
  rw [initHead, prev_setPrev hn, prev_setNext hn]

theorem closed_linked (hxa : Apart ptr x a) (hxb : Apart ptr x b) (hab : a = b ∨ Apart ptr a b)
    (ha : a < 256 ^ ptr) (hb : b < 256 ^ ptr) : Linked ptr (closed ptr m x a b) a b := by
  refine ⟨?_, ?_⟩ <;> unfold closed
  · rw [next_initHead hxa.symm, next_setNext_self hb]
  · rw [prev_initHead hxb.symm]
    rcases hab with rfl | hab
    · rw [prev_setNext_self, prev_setPrev_self ha]
    · rw [prev_setNext hab.symm, prev_setPrev_self ha]

theorem next_closed {n : Nat} (hnx : Apart ptr n x) (hna : Apart ptr n a) (hnb : n = b ∨ Apart ptr n b) :
    next ptr (closed ptr m x a b) n = next ptr m n := by
  rw [closed, next_initHead hnx, next_setNext hna]
  rcases hnb with rfl | hnb
  · rw [next_setPrev_self]
  · rw [next_setPrev hnb]

theorem prev_closed {n : Nat} (hnx : Apart ptr n x) (hnb : Apart ptr n b) (hna : n = a ∨ Apart ptr n a) :
    prev ptr (closed ptr m x a b) n = prev ptr m n := by
  rw [closed, prev_initHead hnx]
  rcases hna with rfl | hna
  · rw [prev_setNext_self, prev_setPrev hnb]
  · rw [prev_setNext hna, prev_setPrev hnb]

theorem closed_keepsOff : KeepsOff ptr [x, a, b] m (closed ptr m x a b) :=
  (((keepsOff_setPrev m (by simp) a).trans (keepsOff_setNext _ (by simp) b)).trans
    (keepsOff_setNext _ (by simp) x)).trans (keepsOff_setPrev _ (by simp) x)

/-- A node of a ring is taken out of it. -/
theorem delInit_ring (hr : Ring ptr m h (l ++ x :: k)) (hlt : ∀ n ∈ h :: (l ++ k), n < 256 ^ ptr) :
    Ring ptr (delInit ptr m x) h (l ++ k) ∧ KeepsOff ptr (x :: h :: (l ++ k)) m (delInit ptr m x) := by
  have hperm : (x :: (h :: (l ++ k))).Pairwise (Apart ptr) := by
    refine hr.apart.perm ?_ fun h => h.symm
    exact (List.Perm.cons h List.perm_middle).trans (List.Perm.swap x h (l ++ k))
  obtain ⟨hx, hap⟩ := List.pairwise_cons.1 hperm
  obtain ⟨u, a, b, w, hc⟩ := exists_cut hap
  have hlink := hr.linked
  rw [hc.links_insert] at hlink
  obtain ⟨c1, c2, c3⟩ := List.isChain_append_cons_cons.1 hlink
  obtain ⟨c3, c4⟩ := List.isChain_cons_cons.1 c3
  have hxa := hx a hc.left_mem
  have hxb := hx b hc.right_mem
  rw [delInit_eq c2 c3 hxb]
  refine ⟨⟨?_, hap⟩, closed_keepsOff.mono ?_⟩
  · have e := closed_linked (m := m) hxa hxb hc.ends (hlt a hc.left_mem) (hlt b hc.right_mem)
    obtain ⟨s1, s2⟩ := hc.isChain_sides (closed ptr m x a b) c1 c4
      (fun n hn ha hb => next_closed (hx n hn).symm ha hb) fun n hn hb ha => prev_closed (hx n hn).symm hb ha
    rw [hc.links]
    exact List.isChain_append_cons_cons.2 ⟨s1, e, s2⟩
  · intro n hn
    simp only [List.mem_cons, List.not_mem_nil, or_false] at hn
    rcases hn with rfl | rfl | rfl
    · simp
    · exact List.mem_cons_of_mem _ hc.left_mem
    · exact List.mem_cons_of_mem _ hc.right_mem

/-! ## A walk along a ring -/

/-- What `f` gives at the first node from `a` on where it gives something, before the head `h`
is reached and within `fuel` nodes. -/
def findSome {β : Type} (ptr : Nat) (m : Mem) (h : Nat) (f : Nat → Option β) : Nat → Nat → Option β
  | 0, _ => none
  | fuel + 1, a => if a = h then none else (f a).or (findSome ptr m h f fuel (next ptr m a))

theorem findSome_of_isChain {β : Type} {f : Nat → Option β} : ∀ {l : List Nat} {a fuel : Nat},
    List.IsChain (Linked ptr m) (a :: l ++ [h]) → (∀ n ∈ a :: l, n ≠ h) → l.length + 1 < fuel →
    findSome ptr m h f fuel a = (a :: l).findSome? f
  | [], a, fuel + 2, hc, hne, _ => by
    have hn : next ptr m a = h := (List.isChain_cons_cons.1 hc).1.1
    rw [findSome, if_neg (hne a (by simp)), hn, findSome, if_pos rfl, Option.or_none, List.findSome?_cons]
    cases f a <;> rfl
  | b :: l, a, fuel + 1, hc, hne, hf => by
    obtain ⟨h1, h2⟩ := List.isChain_cons_cons.1 hc
    rw [findSome, if_neg (hne a (by simp)), h1.1,
      findSome_of_isChain h2 (fun n hn => hne n (List.mem_cons_of_mem _ hn))
        (by simp only [List.length_cons] at hf; omega),
      List.findSome?_cons (a := a)]
    cases f a <;> rfl

/-- A walk along a ring from its first node. -/
theorem findSome_eq {β : Type} {f : Nat → Option β} {fuel : Nat} (hp : 0 < ptr) (hr : Ring ptr m h l)
    (hf : l.length < fuel) : findSome ptr m h f fuel (next ptr m h) = l.findSome? f := by
  obtain ⟨fuel, rfl⟩ : ∃ n, fuel = n + 1 := ⟨fuel - 1, by omega⟩
  have hne : ∀ n ∈ l, n ≠ h := fun n hn => ((List.pairwise_cons.1 hr.apart).1 n hn).symm.ne hp
  cases l with
  | nil =>
    rw [(List.isChain_cons_cons.1 hr.linked).1.1, findSome, if_pos rfl]
    rfl
  | cons a l =>
    obtain ⟨h1, h2⟩ := List.isChain_cons_cons.1 hr.linked
    rw [h1.1]
    exact findSome_of_isChain h2 hne hf

/-- A ring has no nodes just when its head follows itself. -/
theorem next_eq_self_iff (hp : 0 < ptr) (hr : Ring ptr m h l) : next ptr m h = h ↔ l = [] := by
  cases l with
  | nil => simpa using (List.isChain_cons_cons.1 hr.linked).1.1
  | cons a l =>
    have hne := ((List.pairwise_cons.1 hr.apart).1 a (by simp)).ne hp
    rw [(List.isChain_cons_cons.1 hr.linked).1.1]
    simpa using hne.symm

theorem next_head (hr : Ring ptr m h (a :: l)) : next ptr m h = a :=
  (List.isChain_cons_cons.1 hr.linked).1.1

end Ring

end Framework
