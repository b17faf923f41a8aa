import Sdfirm.Impl.Spinlock
import Sdfirm.Proof.Framework.Runs

/-!
# Ticket locks exclude

A `trylock` that fails takes its ticket back whatever tickets came after it,
so two harts can get one number. But no number is below the place of its hart
in the queue (`Inv.order`), so that the one served is that of the first.
-/

namespace Sdfirm.Spinlock

open Framework

variable {n u : Nat} {s s' : State n} {c : Fin n} {l : Lock} {p : Pc} {t : BitVec 32} {pc : Fin n → Pc}
  {q gone : List (Fin n)} {tick : Fin n → Nat}

/-- The harts with a ticket after one has come to a place. -/
def enqueue (q : List (Fin n)) (c : Fin n) : Pc → List (Fin n)
  | .idle | .sub => q.erase c
  | .lock _ | .trylock _ | .held => if c ∈ q then q else q ++ [c]

def stepQueue (s : State n × List (Fin n)) (op : Fin n × Op) : Option (State n × List (Fin n)) :=
  (step s.1 op).map fun s' => (s', enqueue s.2 op.1 (s'.pc op.1))

/-- Where a hart with the ticket `k` is while `u` is served. -/
def Seat (n u k : Nat) (queued gone : Prop) : Pc → Prop
  | .idle => ¬ queued ∧ ¬ gone
  | .sub => ¬ queued ∧ gone
  | .lock t | .trylock t => queued ∧ ¬ gone ∧ u ≤ k ∧ k < u + n ∧ t - 1 = BitVec.ofNat 32 k
  | .held => queued ∧ ¬ gone ∧ k = u

/-- The lock has been released `u` times, the harts `gone` have still to count `next` down, and `tick` numbers the
tickets without wrapping. -/
structure Inv (l : Lock) (pc : Fin n → Pc) (q : List (Fin n)) (u : Nat) (gone : List (Fin n)) (tick : Fin n → Nat) :
    Prop where
  owner : l.owner = BitVec.ofNat 32 u
  next : l.next = BitVec.ofNat 32 (u + (q ++ gone).length)
  nodup : (q ++ gone).Nodup
  seat : ∀ c, Seat n u (tick c) (c ∈ q) (c ∈ gone) (pc c)
  order : ∀ i c, q[i]? = some c → u + i ≤ tick c

theorem Inv.first (h : Inv l pc q u gone tick) (hc : pc c = .held) : q.head? = some c := by
  have hseat := h.seat c
  rw [hc] at hseat
  obtain ⟨hq, -, hu⟩ := hseat
  obtain ⟨i, hi⟩ := List.mem_iff_getElem?.1 hq
  have ho := h.order i c hi
  obtain rfl : i = 0 := by omega
  rwa [List.head?_eq_getElem?]

theorem Inv.arrive (h : Inv l pc q u gone tick) (hc : pc c = .idle)
    (hp : p = .lock (l.next + 1) ∨ p = .trylock (l.next + 1)) :
    Inv { l with next := l.next + 1 } (fun d => if d = c then p else pc d) (q ++ [c]) u gone
      (fun d => if d = c then u + (q ++ gone).length else tick d) := by
  have hword : l.next + 1 - 1 = BitVec.ofNat 32 (u + (q ++ gone).length) := by rw [BitVec.add_sub_cancel, h.next]
  have hseat := h.seat c
  rw [hc] at hseat
  have hnodup : (q ++ [c] ++ gone).Nodup := by
    have := h.nodup
    grind [Seat]
  have hle := hnodup.length_le_card
  rw [Fintype.card_fin] at hle
  have hlen : u + (q ++ [c] ++ gone).length = u + (q ++ gone).length + 1 := by grind
  refine ⟨h.owner, ?_, hnodup, fun d => ?_, fun i d hi => ?_⟩
  · rw [hlen, BitVec.ofNat_add _ 1, ← h.next]
    rfl
  · have := h.seat d
    rcases hp with rfl | rfl <;> grind [Seat]
  · have := h.order i d
    grind

theorem Inv.served (hn : n ≤ 2 ^ 32) (h : Inv l pc q u gone tick) (hc : pc c = .lock t ∨ pc c = .trylock t)
    (heq : t - 1 = l.owner) : Inv l (fun d => if d = c then .held else pc d) q u gone tick := by
  obtain ⟨hq, hgone, h1, h2, h3⟩ : c ∈ q ∧ c ∉ gone ∧ u ≤ tick c ∧ tick c < u + n ∧ t - 1 = BitVec.ofNat 32 (tick c) := by
    have := h.seat c
    rcases hc with hc | hc <;> rwa [hc] at this
  have hcu : tick c = u := by
    have := congrArg BitVec.toNat (h3.symm.trans (heq.trans h.owner))
    rw [BitVec.toNat_ofNat, BitVec.toNat_ofNat] at this
    omega
  refine ⟨h.owner, h.next, h.nodup, fun d => ?_, h.order⟩
  have := h.seat d
  grind [Seat]

theorem Inv.fail (h : Inv l pc q u gone tick) (hc : pc c = .trylock t) :
    Inv l (fun d => if d = c then .sub else pc d) (q.erase c) u (c :: gone) tick := by
  have hseat := h.seat c
  rw [hc] at hseat
  have hperm : (q.erase c ++ c :: gone).Perm (q ++ gone) :=
    List.perm_middle.trans ((List.perm_cons_erase hseat.1).symm.append_right gone)
  refine ⟨h.owner, ?_, hperm.nodup_iff.2 h.nodup, fun d => ?_, fun i d hi => ?_⟩
  · rw [hperm.length_eq, h.next]
  · have := h.seat d
    have := h.nodup.of_append_left
    cases hp : pc d <;> grind [Seat]
  · -- those behind `c` move up
    obtain ⟨f, hf⟩ := List.sublist_iff_exists_orderEmbedding_getElem?_eq.1 (List.erase_sublist (a := c) (l := q))
    have hle : i ≤ f i := f.strictMono.le_apply
    have := h.order (f i) d (hf i ▸ hi)
    omega

theorem Inv.undo (h : Inv l pc q u gone tick) (hc : pc c = .sub) :
    Inv { l with next := l.next - 1 } (fun d => if d = c then .idle else pc d) q u (gone.erase c) tick := by
  have hseat := h.seat c
  rw [hc] at hseat
  obtain ⟨hq, hgone⟩ := hseat
  have hlen : u + (q ++ gone).length = u + (q ++ gone.erase c).length + 1 := by grind
  have hnodup := h.nodup
  refine ⟨h.owner, ?_, by grind, fun d => ?_, h.order⟩
  · show l.next - 1 = _
    rw [h.next, hlen, BitVec.ofNat_add _ 1]
    exact BitVec.add_sub_cancel _ _
  · have := h.seat d
    cases hp : pc d <;> grind [Seat]

theorem Inv.unlock (h : Inv l pc q u gone tick) (hc : pc c = .held) :
    Inv { l with owner := l.owner + 1 } (fun d => if d = c then .idle else pc d) (q.erase c) (u + 1) gone tick := by
  obtain ⟨r, rfl⟩ : ∃ r, q = c :: r := List.head?_eq_some_iff.1 (h.first hc)
  have hnodup := h.nodup
  rw [List.erase_cons_head]
  refine ⟨?_, ?_, by grind, fun d => ?_, fun i d hi => ?_⟩
  · show l.owner + 1 = _
    rw [h.owner, BitVec.ofNat_add]
    rfl
  · show l.next = _
    rw [h.next]
    congr 1
    grind
  · have hd := h.seat d
    have hlow : d ∈ r → u < tick d := by
      intro hr
      obtain ⟨i, hi⟩ := List.mem_iff_getElem?.1 hr
      have := h.order (i + 1) d hi
      omega
    cases hp : pc d <;> grind [Seat]
  · have := h.order (i + 1) d hi
    omega

theorem Inv.step (hn : n ≤ 2 ^ 32) (h : Inv s.lock s.pc q u gone tick) {op : Fin n × Op} (hs : step s op = some s') :
    ∃ u' gone' tick', Inv s'.lock s'.pc (enqueue q op.1 (s'.pc op.1)) u' gone' tick' := by
  obtain ⟨c, op⟩ := op
  obtain ⟨⟨l, p⟩, he, rfl⟩ := Option.map_eq_some_iff.1 hs
  have hseat := h.seat c
  simp only [if_true]
  cases hc : s.pc c <;> simp only [hc] at he hseat <;> cases op <;> cases he
  case idle.lock =>
    rw [enqueue, if_neg hseat.1]
    exact ⟨_, _, _, h.arrive hc (.inl rfl)⟩
  case idle.trylock =>
    rw [enqueue, if_neg hseat.1]
    exact ⟨_, _, _, h.arrive hc (.inr rfl)⟩
  case lock.access t =>
    split
    · rw [enqueue, if_pos hseat.1]
      exact ⟨_, _, _, h.served hn (.inl hc) ‹_›⟩
    · have hsame : (fun d => if d = c then .lock t else s.pc d) = s.pc := funext fun d => by grind
      rw [enqueue, if_pos hseat.1, hsame]
      exact ⟨_, _, _, h⟩
  case trylock.access =>
    split
    · rw [enqueue, if_pos hseat.1]
      exact ⟨_, _, _, h.served hn (.inr hc) ‹_›⟩
    · exact ⟨_, _, _, h.fail hc⟩
  case sub.access =>
    rw [enqueue, List.erase_of_not_mem hseat.1]
    exact ⟨_, _, _, h.undo hc⟩
  case held.unlock => exact ⟨_, _, _, h.unlock hc⟩

/-- In whatever order the harts take, try and release the lock, its holder is the first of those with a ticket: no two
hold it, and it is handed on in the order of the calls. -/
theorem held_is_first (hn : n ≤ 2 ^ 32) (h : Run stepQueue (· = (State.init, [])) (fun _ _ => True) (s, q))
    (hc : s.pc c = .held) : q.head? = some c := by
  obtain ⟨u, gone, tick, hinv⟩ := h.invariant (I := fun x => ∃ u gone tick, Inv x.1.lock x.1.pc x.2 u gone tick)
    (by
      rintro s rfl
      exact ⟨0, [], fun _ => 0, rfl, rfl, List.nodup_nil, fun _ => by simp [State.init, Seat], by simp⟩)
    (by
      rintro ⟨s, q⟩ op x ⟨u, gone, tick, hinv⟩ - hs
      obtain ⟨s', hs', rfl⟩ := Option.map_eq_some_iff.1 hs
      exact hinv.step hn hs')
  exact hinv.first hc

/-- The second hart after the first. -/
theorem held_is_first_two : ∃ (s : State 2) (q : List (Fin 2)), s.pc 1 = .held ∧ q.head? = some 1 := by
  have hrun : ∃ x, Run stepQueue (· = ((State.init : State 2), [])) (fun _ _ => True) x ∧ x.1.pc 1 = .held :=
    Run.of_check (σ := State 2 × List (Fin 2)) (α := Fin 2 × Op)
      [(0, .lock), (1, .trylock), (0, .access), (0, .unlock), (1, .access)] (fun x => x.1.pc 1) rfl rfl
  obtain ⟨⟨s, q⟩, h, hc⟩ := hrun
  exact ⟨s, q, hc, held_is_first (by decide) h hc⟩

end Sdfirm.Spinlock
