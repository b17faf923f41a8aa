import Sdfirm.Spec.AcpiTerm

/-!
# The deletion of a tree of terms

`Forest` is what `acpi_term_add_arg` keeps: the arguments of a term are the
chain of its `children`, and a rank rises from each term to its parent. The
loop of `acpi_term_free` is followed by induction on the rank: from a term it
comes to the point where the descendants of the term have been freed and the
term itself is next (`visit`), and from the first of some arguments to their
parent (`visitArgs`), which `parent` then marks as done.
-/

namespace Sdfirm.AcpiTerm

variable {takesArgs : Nat → Bool} {h h' : Heap} {t : Term} {a b x y op term arg : Nat} {l freed : List Nat}
  {kids : Nat → List Nat} {rank : Nat → Nat}

def nextOf (h : Heap) (x : Nat) : Option Nat := (h x).bind Term.next

def childrenOf (h : Heap) (x : Nat) : Option Nat := (h x).bind Term.children

def opcodeOf (h : Heap) (x : Nat) : Option Nat := (h x).bind fun t => some t.opcode

/-- The terms `l` follow one another from `ptr` on. -/
def Chain (h : Heap) : Option Nat → List Nat → Prop
  | ptr, [] => ptr = none
  | ptr, b :: l => ptr = some b ∧ Chain h (nextOf h b) l

theorem Chain.congr {ptr : Option Nat} (hc : Chain h ptr l) (he : ∀ b ∈ l, nextOf h' b = nextOf h b) : Chain h' ptr l := by
  induction l generalizing ptr with
  | nil => exact hc
  | cons b l ih => exact ⟨hc.1, by rw [he b (by simp)]; exact ih hc.2 fun x hx => he x (by simp [hx])⟩

/-- `kids` are the arguments of the terms, and `rank` rises to the parents. -/
structure Forest (takesArgs : Nat → Bool) (h : Heap) (kids : Nat → List Nat) (rank : Nat → Nat) : Prop where
  chain : ∀ a, Chain h (childrenOf h a) (kids a)
  mem : ∀ a b, b ∈ kids a ↔ parentOf h b = some a
  nodup : ∀ a, (kids a).Nodup
  rank_lt : ∀ a b, parentOf h b = some a → rank b < rank a
  args : ∀ a opcode, childrenOf h a ≠ none → opcodeOf h a = some opcode → takesArgs opcode = true
  root : ∀ a, parentOf h a = none → nextOf h a = none

/-! ## Descendants -/

theorem Descends.rank_le (hf : Forest takesArgs h kids rank) (hd : Descends h x a) : rank x ≤ rank a := by
  induction hd with
  | refl => exact le_rfl
  | tail _ hp ih => exact ih.trans (hf.rank_lt _ _ hp).le

theorem Descends.eq_or_lt (hf : Forest takesArgs h kids rank) (hd : Descends h x a) : x = a ∨ rank x < rank a := by
  rcases Relation.ReflTransGen.cases_tail hd with he | ⟨b, hb, hp⟩
  · exact .inl he.symm
  · exact .inr (lt_of_le_of_lt (Descends.rank_le hf hb) (hf.rank_lt _ _ hp))

/-- A proper descendant is one of an argument. -/
theorem descends_iff (hf : Forest takesArgs h kids rank) : Descends h x a ↔ x = a ∨ ∃ b ∈ kids a, Descends h x b := by
  constructor
  · intro hd
    rcases Relation.ReflTransGen.cases_tail hd with he | ⟨b, hb, hp⟩
    · exact .inl he.symm
    · exact .inr ⟨b, (hf.mem a b).2 hp, hb⟩
  · rintro (rfl | ⟨b, hb, hd⟩)
    · exact Relation.ReflTransGen.refl
    · exact hd.tail ((hf.mem a b).1 hb)

/-- A term is in no tree of its arguments. -/
theorem Forest.not_descends (hf : Forest takesArgs h kids rank) (hb : b ∈ kids a) : ¬Descends h a b := by
  intro hd
  have hle := Descends.rank_le hf hd
  have hlt := hf.rank_lt _ _ ((hf.mem a b).1 hb)
  omega

/-- The trees of two arguments of a term have nothing in common. -/
theorem eq_of_descends (hf : Forest takesArgs h kids rank) {b' : Nat} (hb : b ∈ kids a) (hb' : b' ∈ kids a) (hd : Descends h x b)
    (hd' : Descends h x b') : b = b' := by
  have key : ∀ {c c' : Nat}, c ∈ kids a → c' ∈ kids a → Descends h c c' → c = c' := fun {c c'} hc hc' hcc' => by
    rcases Relation.ReflTransGen.cases_head hcc' with he | ⟨y, hp, hy⟩
    · exact he
    · have hpa := (hf.mem a c).1 hc
      obtain rfl := Option.some.inj (hpa.symm.trans hp)
      exact absurd hy (hf.not_descends hc')
  have hfun : Relator.RightUnique fun x y => parentOf h x = some y := fun x y z hy hz => Option.some.inj (hy.symm.trans hz)
  rcases Relation.ReflTransGen.total_of_right_unique hfun hd hd' with hbb | hbb
  · exact key hb hb' hbb
  · exact (key hb' hb hbb).symm

/-! ## The loop -/

/-- The heap without the terms that have been freed. -/
def without (h : Heap) (freed : List Nat) : Heap := fun x => if x ∈ freed then none else h x

theorem without_of_not_mem (hx : x ∉ freed) : without h freed x = h x := if_neg hx

theorem update_without (h : Heap) (freed : List Nat) (x : Nat) :
    Function.update (without h freed) x none = without h (freed ++ [x]) := by
  funext y
  by_cases hy : y = x
  · subst hy
    simp [without]
  · rw [Function.update_of_ne hy]
    simp [without, hy]

/-- The loop at a term whose arguments are done with. -/
theorem freeLoop_release {m : Option Nat} (hb : h b = some t) (hm : m = some b ∨ t.children = none) (hfree : b ∉ freed) (fuel : Nat) :
    freeLoop takesArgs op (fuel + 1) (without h freed) (some b) m freed =
      if b = op then some (without h (freed ++ [b]), freed ++ [b])
      else freeLoop takesArgs op fuel (without h (freed ++ [b])) (t.next.or t.parent) t.parent (freed ++ [b]) := by
  have hlive : without h freed b = some t := (without_of_not_mem hfree).trans hb
  have harg : (if some b ≠ m then acpiTermGetArg takesArgs (without h freed) b 0 else some none) = some none := by
    rcases hm with rfl | hnone
    · exact if_neg (not_not.2 rfl)
    · simp [acpiTermGetArg, hlive, hnone, getArgLoop]
  rw [freeLoop, harg]
  simp only [Option.bind_some, hlive, update_without]

theorem freeLoop_descend {m : Option Nat} (ha : h a = some t) (hm : m ≠ some a) (hargs : takesArgs t.opcode = true)
    (hchild : t.children = some b) (hfree : a ∉ freed) (fuel : Nat) :
    freeLoop takesArgs op (fuel + 1) (without h freed) (some a) m freed =
      freeLoop takesArgs op fuel (without h freed) (some b) m freed := by
  have hlive : without h freed a = some t := (without_of_not_mem hfree).trans ha
  rw [freeLoop, if_pos (Ne.symm hm)]
  simp [acpiTermGetArg, hlive, hargs, hchild, getArgLoop]

/-- The terms `L` are the arguments `l` with their descendants, each after its children. -/
structure Trees (h : Heap) (l L : List Nat) : Prop where
  nodup : L.Nodup
  mem : ∀ x, x ∈ L ↔ ∃ b ∈ l, Descends h x b
  childrenFirst : L.Pairwise fun x y => parentOf h y ≠ some x

theorem Trees.not_mem (hf : Forest takesArgs h kids rank) {L : List Nat} (hL : Trees h (kids b) L) : b ∉ L := by
  intro hb
  obtain ⟨c, hc, hd⟩ := (hL.mem b).1 hb
  exact hf.not_descends hc hd

/-- The trees of `b` and of the arguments after it. -/
theorem Trees.cons (hf : Forest takesArgs h kids rank) {L M : List Nat} (hsub : ∀ x ∈ b :: l, x ∈ kids a) (hnd : (b :: l).Nodup)
    (hL : Trees h (kids b) L) (hM : Trees h l M) : Trees h (b :: l) (L ++ b :: M) := by
  have hbk := hsub b List.mem_cons_self
  have hdesc : ∀ x, x ∈ L ∨ x = b ↔ Descends h x b := fun x => by rw [hL.mem, descends_iff hf, or_comm]
  -- a term of the first tree is in no other, and so no child of one of its terms is
  have hdisj : ∀ x, Descends h x b → x ∉ M := by
    intro x hx hxM
    obtain ⟨b', hb', hd'⟩ := (hM.mem x).1 hxM
    obtain rfl := eq_of_descends hf hbk (hsub b' (List.mem_cons_of_mem _ hb')) hx hd'
    exact (List.nodup_cons.1 hnd).1 hb'
  have hcross : ∀ x, Descends h x b → ∀ y ∈ M, parentOf h y ≠ some x := fun x hx y hy hp =>
    hdisj y (Relation.ReflTransGen.head hp hx) hy
  have hbL := hL.not_mem hf
  refine ⟨?_, fun x => ?_, ?_⟩
  · refine List.nodup_append.2 ⟨hL.nodup, List.nodup_cons.2 ⟨hdisj b Relation.ReflTransGen.refl, hM.nodup⟩, ?_⟩
    rintro x hx _ hy rfl
    rcases List.mem_cons.1 hy with rfl | hy
    · exact hbL hx
    · exact hdisj x ((hdesc x).1 (.inl hx)) hy
  · rw [List.mem_append, List.mem_cons, ← or_assoc, hdesc, hM.mem, List.exists_mem_cons_iff]
  · refine List.pairwise_append.2 ⟨hL.childrenFirst, List.pairwise_cons.2 ⟨hcross b Relation.ReflTransGen.refl, hM.childrenFirst⟩, ?_⟩
    intro x hx y hy hp
    have hxb := (hdesc x).1 (.inl hx)
    rcases List.mem_cons.1 hy with rfl | hy
    · obtain rfl := Option.some.inj (((hf.mem a y).1 hbk).symm.trans hp)
      exact hf.not_descends hbk hxb
    · exact hcross x hxb y hy hp

/-- From `a` the loop comes to where the descendants of `a` have been freed, with the terms `L`. -/
def Visits (takesArgs : Nat → Bool) (h : Heap) (op a : Nat) (L : List Nat) : Prop :=
  ∀ freed m, (∀ x ∈ freed, ¬Descends h x a) → (∀ x, m = some x → ¬Descends h x a) →
    ∃ k m', (m' = some a ∨ childrenOf h a = none) ∧ ∀ fuel, freeLoop takesArgs op (fuel + k) (without h freed) (some a) m freed =
      freeLoop takesArgs op fuel (without h (freed ++ L)) (some a) m' (freed ++ L)

theorem exists_of_parentOf (hp : parentOf h b = some a) : ∃ t, h b = some t ∧ t.parent = some a := by
  obtain ⟨t, ht, hpar⟩ := Option.bind_eq_some_iff.1 hp
  exact ⟨t, ht, hpar⟩

/-- From the first of some arguments of `a` the loop comes back to `a`. -/
theorem visitArgs (hf : Forest takesArgs h kids rank) (hop : Descends h a op) {ptr : Option Nat} (hc : Chain h ptr l) (hne : l ≠ [])
    (hsub : ∀ b ∈ l, b ∈ kids a) (hnd : l.Nodup) (ih : ∀ b ∈ l, ∃ L, Trees h (kids b) L ∧ Visits takesArgs h op b L) :
    ∃ L, Trees h l L ∧ ∀ freed m, (∀ x ∈ freed, ∀ b ∈ l, ¬Descends h x b) → (∀ x, m = some x → ∀ b ∈ l, ¬Descends h x b) →
      ∃ k, ∀ fuel, freeLoop takesArgs op (fuel + k) (without h freed) ptr m freed =
        freeLoop takesArgs op fuel (without h (freed ++ L)) (some a) (some a) (freed ++ L) := by
  induction l generalizing ptr with
  | nil => exact absurd rfl hne
  | cons b l ihl =>
    obtain ⟨rfl, hc⟩ := hc
    have hbk := hsub b List.mem_cons_self
    obtain ⟨t, hb, hpar⟩ := exists_of_parentOf ((hf.mem a b).1 hbk)
    obtain ⟨L, hL, hvisit⟩ := ih b List.mem_cons_self
    have hbop : b ≠ op := by
      rintro rfl
      exact hf.not_descends hbk hop
    have hbL : ∀ {freed : List Nat}, (∀ x ∈ freed, ¬Descends h x b) → b ∉ freed ++ L := fun {freed} hfree hm => by
      rcases List.mem_append.1 hm with hm | hm
      · exact hfree b hm Relation.ReflTransGen.refl
      · exact hL.not_mem hf hm
    have hnext : nextOf h b = t.next := by simp [nextOf, hb]
    -- the argument is freed, and the loop goes on with the next one or the parent
    have hfirst : ∀ freed m, (∀ x ∈ freed, ¬Descends h x b) → (∀ x, m = some x → ¬Descends h x b) →
        ∃ k, ∀ fuel, freeLoop takesArgs op (fuel + k) (without h freed) (some b) m freed =
          freeLoop takesArgs op fuel (without h (freed ++ (L ++ [b]))) (t.next.or (some a)) (some a) (freed ++ (L ++ [b])) := by
      intro freed m hfree hm
      obtain ⟨k, m', hm', hk⟩ := hvisit freed m hfree hm
      refine ⟨k + 1, fun fuel => ?_⟩
      have hdone : m' = some b ∨ t.children = none := by simpa [childrenOf, hb] using hm'
      rw [← Nat.add_assoc, Nat.add_right_comm, hk, freeLoop_release hb hdone (hbL hfree), if_neg hbop, hpar, List.append_assoc]
    rcases l with _ | ⟨b', l⟩
    · have hlast : t.next = none := hnext ▸ hc
      refine ⟨L ++ [b], hL.cons hf hsub hnd ⟨List.nodup_nil, by simp, List.Pairwise.nil⟩, fun freed m hfree hm => ?_⟩
      obtain ⟨k, hk⟩ := hfirst freed m (fun x hx => hfree x hx b (by simp)) fun x hx => hm x hx b (by simp)
      exact ⟨k, fun fuel => by rw [hk, hlast, Option.none_or]⟩
    · obtain ⟨M, hM, hrest⟩ := ihl hc (List.cons_ne_nil _ _) (fun x hx => hsub x (List.mem_cons_of_mem _ hx))
        (List.nodup_cons.1 hnd).2 fun x hx => ih x (List.mem_cons_of_mem _ hx)
      have htrees := hL.cons hf hsub hnd hM
      refine ⟨L ++ b :: M, htrees, fun freed m hfree hm => ?_⟩
      obtain ⟨k₁, hk₁⟩ := hfirst freed m (fun x hx => hfree x hx b (by simp)) fun x hx => hm x hx b (by simp)
      have hdone : ∀ x ∈ freed ++ (L ++ [b]), ∀ c ∈ b' :: l, ¬Descends h x c := by
        intro x hx c hc hd
        rcases List.mem_append.1 hx with hx | hx
        · exact hfree x hx c (List.mem_cons_of_mem _ hc) hd
        · have hxb : Descends h x b := by
            rw [descends_iff hf, ← hL.mem]
            simpa [or_comm] using hx
          obtain rfl := eq_of_descends hf hbk (hsub c (List.mem_cons_of_mem _ hc)) hxb hd
          exact (List.nodup_cons.1 hnd).1 hc
      have hmark : ∀ x, some a = some x → ∀ c ∈ b' :: l, ¬Descends h x c := by
        rintro x ⟨⟩ c hc hd
        exact hf.not_descends (hsub c (List.mem_cons_of_mem _ hc)) hd
      obtain ⟨k₂, hk₂⟩ := hrest _ _ hdone hmark
      have hnext' : t.next.or (some a) = nextOf h b := by rw [hnext, ← hnext, hc.1, Option.some_or]
      refine ⟨k₂ + k₁, fun fuel => ?_⟩
      rw [← Nat.add_assoc, hk₁, hnext', hk₂]
      simp

/-- Every term below `op` is visited. -/
theorem visit (hf : Forest takesArgs h kids rank) (ha : Descends h a op) (hlive : (h a).isSome = true) :
    ∃ L, Trees h (kids a) L ∧ Visits takesArgs h op a L := by
  induction hn : rank a using Nat.strong_induction_on generalizing a with
  | _ n ihn =>
    subst hn
    obtain ⟨t, ht⟩ := Option.isSome_iff_exists.1 hlive
    have hchain := hf.chain a
    have hchild : childrenOf h a = t.children := by simp [childrenOf, ht]
    by_cases hk : kids a = []
    · rw [hk] at hchain ⊢
      refine ⟨[], ⟨List.nodup_nil, by simp, List.Pairwise.nil⟩, fun freed m _ _ => ⟨0, m, .inr hchain, fun fuel => ?_⟩⟩
      rw [List.append_nil, Nat.add_zero]
    · have hargs : ∀ b ∈ kids a, ∃ L, Trees h (kids b) L ∧ Visits takesArgs h op b L := by
        intro b hb
        have hp := (hf.mem a b).1 hb
        obtain ⟨tb, htb, -⟩ := exists_of_parentOf hp
        exact ihn (rank b) (hf.rank_lt a b hp) (Relation.ReflTransGen.head hp ha) (by simp [htb]) rfl
      obtain ⟨L, hL, hvisit⟩ := visitArgs hf ha hchain hk (fun b hb => hb) (hf.nodup a) hargs
      refine ⟨L, hL, fun freed m hfree hm => ?_⟩
      have hkid : ∀ x b, b ∈ kids a → ¬Descends h x a → ¬Descends h x b := fun x b hb hno hd =>
        hno (hd.tail ((hf.mem a b).1 hb))
      obtain ⟨k, hloop⟩ := hvisit freed m (fun x hx b hb => hkid x b hb (hfree x hx)) fun x hx b hb => hkid x b hb (hm x hx)
      obtain ⟨b, hb⟩ : ∃ b, t.children = some b := by
        rw [← hchild]
        cases hkids : kids a with
        | nil => exact absurd hkids hk
        | cons b l =>
          rw [hkids] at hchain
          exact ⟨b, hchain.1⟩
      refine ⟨k + 1, some a, .inl rfl, fun fuel => ?_⟩
      rw [← Nat.add_assoc, freeLoop_descend ht (fun he => hm a he Relation.ReflTransGen.refl) (hf.args a _ (by simp [hchild, hb]) (by simp [opcodeOf, ht])) hb
        fun hx => hfree a hx Relation.ReflTransGen.refl, ← hb, ← hchild, hloop]

/-- `acpi_term_free` in a forest. -/
theorem Forest.frees (hf : Forest takesArgs h kids rank) (hlive : (h op).isSome = true) :
    ∃ freed, FreesTree h op (without h freed) freed ∧
      Fuel.Returns (fun fuel => acpiTermFree takesArgs fuel h op) (without h freed, freed) := by
  have hop : Descends h op op := Relation.ReflTransGen.refl
  obtain ⟨L, hL, hvisit⟩ := visit hf hop hlive
  obtain ⟨k, m, hm, hk⟩ := hvisit [] none (by simp) (by simp)
  obtain ⟨t, ht⟩ := Option.isSome_iff_exists.1 hlive
  have hmem : ∀ x, x ∈ L ++ [op] ↔ Descends h x op := fun x => by
    rw [List.mem_append, List.mem_singleton, hL.mem, descends_iff hf, or_comm]
  have hup : ∀ x, parentOf h op = some x → ¬Descends h x op := fun x hp => hf.not_descends ((hf.mem x op).2 hp)
  refine ⟨L ++ [op], ⟨?_, hmem, ?_, fun x hd hne hx => ?_, fun x hp hne hx => ?_, fun x => rfl⟩, k + 1, fun steps hsteps => ?_⟩
  · exact List.concat_eq_append ▸ hL.nodup.concat (hL.not_mem hf)
  · refine List.pairwise_append.2 ⟨hL.childrenFirst, List.pairwise_singleton _ _, fun x hx y hy hp => ?_⟩
    rw [List.mem_singleton.1 hy] at hp
    exact hup x hp ((hmem x).1 (List.mem_append_left _ hx))
  · have h1 := Descends.eq_or_lt hf hd
    have h2 := Descends.rank_le hf ((hmem x).1 hx)
    exact hne (h1.resolve_right (by omega)).symm
  · rcases Relation.ReflTransGen.cases_head ((hmem x).1 hx) with he | ⟨y, hy, hd⟩
    · exact hne he
    · exact hup y (hp ▸ hy) hd
  · obtain ⟨fuel, rfl⟩ := Nat.exists_eq_add_of_le' hsteps
    have hdone : m = some op ∨ t.children = none := by simpa [childrenOf, ht] using hm
    have hstart : acpiTermFree takesArgs (fuel + (k + 1)) h op =
        freeLoop takesArgs op (fuel + 1 + k) (without h []) (some op) none [] := by
      rw [acpiTermFree, Nat.add_right_comm fuel 1 k]
      congr 1
    show acpiTermFree takesArgs (fuel + (k + 1)) h op = _
    rw [hstart, hk, List.nil_append, freeLoop_release ht hdone (hL.not_mem hf), if_pos rfl]

/-! ## The trees that are built -/

theorem lastArg_spec {first last fuel : Nat} (hc : Chain h (some first) l) (he : lastArg h fuel first = some last) :
    l.getLast? = some last := by
  induction fuel generalizing first l with
  | zero => cases he
  | succ fuel ih =>
    obtain ⟨t, ht, he⟩ := Option.bind_eq_some_iff.1 he
    cases l with
    | nil => cases hc
    | cons b l =>
      obtain ⟨hb, hc⟩ := hc
      obtain rfl := Option.some.inj hb
      have hnext : nextOf h first = t.next := by simp [nextOf, ht]
      rw [hnext] at hc
      cases hn : t.next with
      | none =>
        rw [hn] at he hc
        obtain rfl := Option.some.inj he
        cases l with
        | nil => rfl
        | cons b l => cases hc.1
      | some next =>
        rw [hn] at he hc
        have hl := ih hc he
        cases l with
        | nil => cases hl
        | cons b l => rwa [List.getLast?_cons_cons]

/-- A term is put behind the last of a chain. -/
theorem Chain.append {ptr : Option Nat} {last : Nat} (hc : Chain h ptr l) (hl : l.getLast? = some last) (hnd : l.Nodup) (harg : arg ∉ l)
    (hend : nextOf h arg = none) (he : nextOf h' = Function.update (nextOf h) last (some arg)) : Chain h' ptr (l ++ [arg]) := by
  have hlast : last ∈ l := List.mem_of_getLast? hl
  induction l generalizing ptr with
  | nil => cases hl
  | cons b l ih =>
    refine ⟨hc.1, ?_⟩
    cases l with
    | nil =>
      obtain rfl : b = last := by simpa using hl
      rw [he, Function.update_self]
      refine ⟨rfl, ?_⟩
      rw [he, Function.update_of_ne fun e => harg (by simp [e])]
      exact hend
    | cons b' l =>
      obtain ⟨hb, hnd⟩ := List.nodup_cons.1 hnd
      rw [List.getLast?_cons_cons] at hl
      have hlast := List.mem_of_getLast? hl
      have hne : b ≠ last := fun e => hb (e ▸ hlast)
      rw [he, Function.update_of_ne hne]
      exact ih hc.2 hl hnd (fun hm => harg (List.mem_cons_of_mem _ hm)) hlast

/-- The fields of the heap after `acpi_term_add_arg` has put `arg` behind the arguments of `term`. -/
structure Linked (h h' : Heap) (kids : Nat → List Nat) (term arg : Nat) : Prop where
  parent : parentOf h' = Function.update (parentOf h) arg (some term)
  opcode : opcodeOf h' = opcodeOf h
  link : (∃ last, (kids term).getLast? = some last ∧ nextOf h' = Function.update (nextOf h) last (some arg) ∧
      childrenOf h' = childrenOf h) ∨
    kids term = [] ∧ nextOf h' = nextOf h ∧ childrenOf h' = Function.update (childrenOf h) term (some arg)

open Classical in
theorem Forest.addArg (hf : Forest takesArgs h kids rank) (hroot : parentOf h arg = none) (hnot : ¬Descends h term arg)
    (htakes : ∀ opcode, opcodeOf h term = some opcode → takesArgs opcode = true) (hl : Linked h h' kids term arg) :
    ∃ kids rank, Forest takesArgs h' kids rank := by
  have hfree : ∀ a, arg ∉ kids a := fun a hm => by
    rw [hf.mem, hroot] at hm
    cases hm
  have hsame : ∀ b, b ≠ arg → parentOf h' b = parentOf h b := fun b hb => by rw [hl.parent, Function.update_of_ne hb]
  -- another term's arguments are not touched
  have hnext : ∀ b, b ∉ kids term → nextOf h' b = nextOf h b := fun b hb => by
    rcases hl.link with ⟨last, hlast, hn, -⟩ | ⟨-, hn, -⟩
    · have hne : b ≠ last := fun e => hb (e ▸ List.mem_of_getLast? hlast)
      rw [hn, Function.update_of_ne hne]
    · rw [hn]
  refine ⟨Function.update kids term (kids term ++ [arg]),
    fun x => if Descends h x arg then rank x else rank x + rank arg + 1, fun a => ?_, fun a b => ?_, fun a => ?_, fun a b hp => ?_,
    fun a opcode hc ho => ?_, fun a hp => ?_⟩
  · by_cases ha : a = term
    · subst ha
      rw [Function.update_self]
      rcases hl.link with ⟨last, hlast, hn, hc⟩ | ⟨hk, hn, hc⟩
      · rw [hc]
        exact (hf.chain a).append hlast (hf.nodup a) (hfree a) (hf.root arg hroot) hn
      · rw [hc, hk, Function.update_self]
        exact ⟨rfl, by rw [hn]; exact hf.root arg hroot⟩
    · have hchild : childrenOf h' a = childrenOf h a := by
        rcases hl.link with ⟨_, _, -, hc⟩ | ⟨-, -, hc⟩
        · rw [hc]
        · rw [hc, Function.update_of_ne ha]
      rw [Function.update_of_ne ha, hchild]
      refine (hf.chain a).congr fun b hb => hnext b fun hb' => ha ?_
      exact Option.some.inj (((hf.mem a b).1 hb).symm.trans ((hf.mem term b).1 hb'))
  · by_cases hb : b = arg
    · subst hb
      rw [hl.parent, Function.update_self, Option.some.injEq]
      by_cases ha : a = term
      · subst ha
        simp
      · simp [Function.update_of_ne ha, hfree a, Ne.symm ha]
    · rw [hsame b hb, ← hf.mem]
      by_cases ha : a = term
      · subst ha
        simp [hb]
      · rw [Function.update_of_ne ha]
  · by_cases ha : a = term
    · subst ha
      rw [Function.update_self]
      exact List.concat_eq_append ▸ (hf.nodup a).concat (hfree a)
    · rw [Function.update_of_ne ha]
      exact hf.nodup a
  · -- the rank of everything outside the tree of `arg` is raised above it
    by_cases hb : b = arg
    · subst hb
      rw [hl.parent, Function.update_self] at hp
      obtain rfl := Option.some.inj hp
      have hrefl : Descends h b b := Relation.ReflTransGen.refl
      simp only [if_pos hrefl, if_neg hnot]
      omega
    · rw [hsame b hb] at hp
      have hlt := hf.rank_lt a b hp
      have hiff : Descends h b arg ↔ Descends h a arg := by
        constructor
        · intro hd
          rcases Relation.ReflTransGen.cases_head hd with he | ⟨y, hy, hd⟩
          · exact absurd he hb
          · rwa [Option.some.inj (hp.symm.trans hy)]
        · exact fun hd => Relation.ReflTransGen.head hp hd
      simp only [hiff]
      split <;> omega
  · rw [hl.opcode] at ho
    by_cases ha : a = term
    · subst ha
      exact htakes opcode ho
    · refine hf.args a opcode (fun hnone => hc ?_) ho
      rcases hl.link with ⟨_, _, -, hch⟩ | ⟨-, -, hch⟩
      · rw [hch, hnone]
      · rw [hch, Function.update_of_ne ha, hnone]
  · have hne : a ≠ arg := fun e => by simp [hl.parent, e] at hp
    rw [hsame a hne] at hp
    rw [hnext a fun hm => by rw [hf.mem, hp] at hm; cases hm]
    exact hf.root a hp

/-- What an assignment does to a field. -/
theorem modify_view {β : Type} {f : Term → Term} (g : Term → Option β) (he : modify h a f = some h') :
    ∃ t, h a = some t ∧ (fun x => (h' x).bind g) = Function.update (fun x => (h x).bind g) a (g (f t)) := by
  obtain ⟨t, ht, rfl⟩ := Option.map_eq_some_iff.1 he
  refine ⟨t, ht, funext fun x => ?_⟩
  by_cases hx : x = a
  · subst hx
    simp
  · simp [Function.update_of_ne hx]

theorem modify_view_same {β : Type} {f : Term → Term} (g : Term → Option β) (he : modify h a f = some h') (hg : ∀ t, g (f t) = g t) :
    (fun x => (h' x).bind g) = fun x => (h x).bind g := by
  obtain ⟨t, ht, hv⟩ := modify_view g he
  rw [hv, hg t]
  exact Function.update_eq_self_iff.2 (by simp [ht])

theorem linked_of_addArg (hf : Forest takesArgs h kids rank) {fuel : Nat} {h₁ : Heap}
    (h1 : modify h arg (fun t => { t with parent := some term }) = some h₁) (h2 : linkArg fuel h₁ term arg = some h') :
    Linked h h' kids term arg := by
  obtain ⟨_, -, hparent⟩ := modify_view Term.parent h1
  have hnext₁ : nextOf h₁ = nextOf h := modify_view_same Term.next h1 fun _ => rfl
  have hchildren₁ : childrenOf h₁ = childrenOf h := modify_view_same Term.children h1 fun _ => rfl
  have hopcode₁ : opcodeOf h₁ = opcodeOf h := modify_view_same (fun t => some t.opcode) h1 fun _ => rfl
  obtain ⟨t, ht, h2⟩ := Option.bind_eq_some_iff.1 h2
  have hchain : Chain h₁ t.children (kids term) := by
    have hc : childrenOf h term = t.children := by
      rw [← hchildren₁]
      simp [childrenOf, ht]
    rw [← hc]
    exact (hf.chain term).congr fun b _ => congrFun hnext₁ b
  cases hfirst : t.children with
  | some first =>
    rw [hfirst] at h2 hchain
    obtain ⟨last, hlast, h2⟩ := Option.bind_eq_some_iff.1 h2
    obtain ⟨_, -, hnext⟩ := modify_view Term.next h2
    refine ⟨?_, ?_, .inl ⟨last, lastArg_spec hchain hlast, ?_, ?_⟩⟩
    · exact (modify_view_same Term.parent h2 fun _ => rfl).trans hparent
    · exact (modify_view_same (fun t => some t.opcode) h2 fun _ => rfl).trans hopcode₁
    · rw [← hnext₁]
      exact hnext
    · exact (modify_view_same Term.children h2 fun _ => rfl).trans hchildren₁
  | none =>
    rw [hfirst] at h2 hchain
    obtain ⟨_, -, hchildren⟩ := modify_view Term.children h2
    have hk : kids term = [] := by
      cases hkids : kids term with
      | nil => rfl
      | cons b l =>
        rw [hkids] at hchain
        cases hchain.1
    refine ⟨?_, ?_, .inr ⟨hk, ?_, ?_⟩⟩
    · exact (modify_view_same Term.parent h2 fun _ => rfl).trans hparent
    · exact (modify_view_same (fun t => some t.opcode) h2 fun _ => rfl).trans hopcode₁
    · exact (modify_view_same Term.next h2 fun _ => rfl).trans hnext₁
    · rw [← hchildren₁]
      exact hchildren

theorem Built.forest (hb : Built takesArgs h) : ∃ kids rank, Forest takesArgs h kids rank := by
  induction hb with
  | empty => exact ⟨fun _ => [], fun _ => 0, fun _ => rfl, by simp [parentOf], by simp, by simp [parentOf], by simp [childrenOf],
      fun _ _ => rfl⟩
  | @alloc h a opcode _ hfresh ih =>
    obtain ⟨kids, rank, hf⟩ := ih
    have hview : ∀ {g : Term → Option Nat}, g ⟨none, none, none, opcode⟩ = none →
        (fun x => (Function.update h a (some ⟨none, none, none, opcode⟩) x).bind g) = fun x => (h x).bind g := fun {g} hg =>
      funext fun x => by
        by_cases hx : x = a
        · subst hx
          simp [hfresh, hg]
        · rw [Function.update_of_ne hx]
    have hp : parentOf _ = parentOf h := hview (g := Term.parent) rfl
    have hn : nextOf _ = nextOf h := hview (g := Term.next) rfl
    have hc : childrenOf _ = childrenOf h := hview (g := Term.children) rfl
    refine ⟨kids, rank, fun x => ?_, fun x y => by rw [hp]; exact hf.mem x y, hf.nodup, fun x y => by rw [hp]; exact hf.rank_lt x y,
      fun x o hx ho => ?_, fun x => by rw [hp, hn]; exact hf.root x⟩
    · rw [hc]
      exact (hf.chain x).congr fun b _ => congrFun hn b
    · rw [hc] at hx
      have hne : x ≠ a := fun e => hx (by simp [childrenOf, e, hfresh])
      rw [opcodeOf, Function.update_of_ne hne] at ho
      exact hf.args x o hx ho
  | @addArg h h' t fuel term arg _ harg hpar hnot he ih =>
    obtain ⟨kids, rank, hf⟩ := ih
    obtain ⟨tt, htt, he⟩ := Option.bind_eq_some_iff.1 he
    split at he
    · rename_i htakes
      obtain ⟨h₁, h1, he⟩ := Option.bind_eq_some_iff.1 he
      obtain ⟨h₂, h2, he⟩ := Option.bind_eq_some_iff.1 he
      obtain ⟨-, -, rfl⟩ := Option.map_eq_some_iff.1 he
      have hroot : parentOf h arg = none := by simp [parentOf, harg, hpar]
      refine hf.addArg hroot hnot (fun o ho => ?_) (linked_of_addArg hf h1 h2)
      obtain rfl : tt.opcode = o := by simpa [opcodeOf, htt] using ho
      exact htakes
    · obtain rfl := Option.some.inj he
      exact ⟨kids, rank, hf⟩

/-- In every heap of trees, `acpi_term_free` of any term returns, and has freed its tree. -/
theorem free_tree (hb : Built takesArgs h) (hlive : (h op).isSome = true) :
    ∃ h' freed, Fuel.Returns (fun fuel => acpiTermFree takesArgs fuel h op) (h', freed) ∧ FreesTree h op h' freed := by
  obtain ⟨kids, rank, hf⟩ := hb.forest
  obtain ⟨freed, hfreed, hret⟩ := hf.frees hlive
  exact ⟨without h freed, freed, hret, hfreed⟩

/-- Two terms that have just been allocated. -/
def twoTerms : Heap :=
  Function.update (Function.update (fun _ => none) 1 (some ⟨none, none, none, 0⟩)) 2 (some ⟨none, none, none, 0⟩)

/-- Term 2 becomes an argument of term 1, which is then freed with it. -/
theorem free_tree_of_two : ∃ h, Built (fun _ => true) h ∧ parentOf h 2 = some 1 ∧
    (acpiTermFree (fun _ => true) 4 h 1).map Prod.snd = some [2, 1] ∧
    ∃ h' freed, Fuel.Returns (fun fuel => acpiTermFree (fun _ => true) fuel h 1) (h', freed) ∧ FreesTree h 1 h' freed := by
  have hbase : Built (fun _ => true) twoTerms := (Built.empty.alloc 1 0 rfl).alloc 2 0 rfl
  have hnot : ¬Descends twoTerms 1 2 := fun hd => by
    rcases Relation.ReflTransGen.cases_head hd with he | ⟨y, hy, -⟩
    · cases he
    · cases hy
  have hadd : (acpiTermAddArg (fun _ => true) 2 twoTerms (some 1) 2).map (fun h => (parentOf h 2, (h 1).isSome,
      (acpiTermFree (fun _ => true) 4 h 1).map Prod.snd)) = some (some 1, true, some [2, 1]) := by decide
  obtain ⟨h, he, hv⟩ := Option.map_eq_some_iff.1 hadd
  simp only [Prod.mk.injEq] at hv
  have hb : Built (fun _ => true) h := hbase.addArg 2 1 2 rfl rfl hnot he
  exact ⟨h, hb, hv.1, hv.2.2, free_tree hb hv.2.1⟩

end Sdfirm.AcpiTerm
