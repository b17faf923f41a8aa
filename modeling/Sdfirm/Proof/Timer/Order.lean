import Sdfirm.Spec.Sched

/-!
# The order of the timers

`timer_orders` holds a list of timers without repetition, followed by
`INVALID_TID` (`Holds`). `__timer_del` takes a timer out of the list
(`timerDel_holds`), and `__timer_add` puts one in that is not there, without a
`BUG_ON` (`timerAdd_holds`).
-/

namespace Sdfirm.Timer

variable {c : Config} {orders timers l r : List Nat} {tid t i : Nat}

/-! ## Entries of the array -/

@[simp] theorem getD_append_length (l r : List Nat) (x d : Nat) : (l ++ x :: r).getD l.length d = x := by
  simp [List.getD_eq_getElem?_getD]

theorem replicate_split {n : Nat} (h : 0 < n) (x : Nat) : List.replicate n x = x :: List.replicate (n - 1) x := by
  obtain ⟨n, rfl⟩ := Nat.exists_eq_succ_of_ne_zero h.ne'
  rfl

namespace Holds

theorem length_le (h : Holds c orders timers) : timers.length ≤ c.nrTimers := by
  have hsub : timers ⊆ List.range c.nrTimers := fun t ht => List.mem_range.2 (h.lt t ht)
  simpa using (h.nodup.subperm hsub).length_le

theorem length_lt (h : Holds c orders timers) (hn : tid ∉ timers) (ht : tid < c.nrTimers) : timers.length < c.nrTimers := by
  have hsub : tid :: timers ⊆ List.range c.nrTimers := by
    intro t h'
    rcases List.mem_cons.1 h' with rfl | h'
    · exact List.mem_range.2 ht
    · exact List.mem_range.2 (h.lt t h')
  simpa using ((List.nodup_cons.2 ⟨hn, h.nodup⟩).subperm hsub).length_le

theorem ne_invalid (h : Holds c orders timers) (ht : t ∈ timers) : t ≠ c.invalidTid := (h.lt t ht).ne

/-- A loop over `timer_orders` comes to the timers. -/
theorem pending_eq (h : Holds c orders timers) : pending c orders = timers := by
  have hle := h.length_le
  have htake : orders.take c.nrTimers = timers ++ List.replicate (c.nrTimers - timers.length) c.invalidTid := by
    rw [h.eq, List.take_append, List.take_of_length_le hle, List.take_replicate]
    congr 2
    omega
  rw [pending, htake, List.takeWhile_append_of_pos fun t ht => by simpa using h.ne_invalid ht]
  simp

theorem head_eq (h : Holds c orders timers) : orders.getD 0 c.invalidTid = timers.headD c.invalidTid := by
  rw [h.eq]
  cases timers with
  | nil => simp [replicate_split]
  | cons t timers => rfl

end Holds

/-! ## `__timer_del` -/

/-- The search comes to the timer, or ends with nothing to take out. -/
theorem findOrder_spec (tid : Nat) {rest : List Nat} {n : Nat} (pre : List Nat) (hpre : orders = pre ++ (timers ++ rest))
    (hrest : rest.getD 0 c.invalidTid = c.invalidTid) (hlt : ∀ t ∈ timers, t ≠ c.invalidTid)
    (hn : timers.length ≤ n) :
    (∃ l r, timers = l ++ tid :: r ∧ tid ∉ l ∧ findOrder c tid orders n pre.length = some (pre.length + l.length)) ∨
    tid ∉ timers ∧ (findOrder c tid orders n pre.length = none ∨
      timers.length = n ∧ findOrder c tid orders n pre.length = some (pre.length + n)) := by
  induction timers generalizing pre n with
  | nil =>
    refine .inr ⟨List.not_mem_nil, ?_⟩
    cases n with
    | zero => exact .inr ⟨rfl, rfl⟩
    | succ n =>
      have hd : orders.getD pre.length c.invalidTid = c.invalidTid := by
        rw [hpre, List.nil_append, List.getD_append_right _ _ _ _ le_rfl, Nat.sub_self, hrest]
      exact .inl (by rw [findOrder, if_pos hd])
  | cons t timers ih =>
    obtain ⟨n, rfl⟩ := Nat.exists_eq_succ_of_ne_zero (by simp at hn; omega : n ≠ 0)
    have hd : orders.getD pre.length c.invalidTid = t := by rw [hpre, List.cons_append, getD_append_length]
    have hne : t ≠ c.invalidTid := hlt t List.mem_cons_self
    rw [findOrder, hd, if_neg hne]
    by_cases htid : t = tid
    · subst htid
      exact .inl ⟨[], timers, rfl, List.not_mem_nil, by simp⟩
    · rw [if_neg htid]
      have hnext := ih (pre ++ [t]) (by rw [hpre]; simp) (fun x hx => hlt x (List.mem_cons_of_mem _ hx))
        (by simpa using hn)
      rw [List.length_append, List.length_singleton] at hnext
      rcases hnext with ⟨l, r, rfl, hl, he⟩ | ⟨hnot, he⟩
      · refine .inl ⟨t :: l, r, rfl, ?_, ?_⟩
        · simp [hl, Ne.symm htid]
        · rw [he, List.length_cons]
          congr 1
          omega
      · refine .inr ⟨by simp [hnot, Ne.symm htid], he.imp id ?_⟩
        rintro ⟨hlen, he⟩
        refine ⟨by simp [hlen], ?_⟩
        rw [he]
        congr 1
        omega

/-- The swaps bring the timer to the end. -/
theorem shiftOrder_spec (h : tid ≠ c.invalidTid) (pre q rest : List Nat) :
    shiftOrder c (pre ++ tid :: (q ++ rest)) q.length pre.length = (pre ++ (q ++ tid :: rest), pre.length + q.length) := by
  induction q generalizing pre with
  | nil => rfl
  | cons x q ih =>
    have h1 : (pre ++ tid :: (x :: q ++ rest)).getD (pre.length + 1) c.invalidTid = x := by simp
    have h2 : ((pre ++ tid :: (x :: q ++ rest)).set (pre.length + 1) tid).set pre.length x =
        (pre ++ [x]) ++ tid :: (q ++ rest) := by
      simp
    rw [List.length_cons, shiftOrder]
    simp only [getD_append_length, h1, ne_eq, h, not_false_eq_true, if_true, h2]
    have := ih (pre ++ [x])
    rw [List.length_append, List.length_singleton] at this
    rw [this, Nat.add_right_comm, Nat.add_assoc]
    simp

theorem timerDel_holds (h : Holds c orders timers) : Holds c (timerDel c tid orders) (timers.erase tid) := by
  have hle := h.length_le
  refine ⟨?_, fun t ht => h.lt t (List.mem_of_mem_erase ht), h.nodup.erase tid⟩
  have hfind := findOrder_spec (c := c) tid (n := c.nrTimers) [] (by simpa using h.eq)
    (by rw [replicate_split (by omega)]; rfl) (fun t ht => h.ne_invalid ht) hle
  simp only [List.length_nil, Nat.zero_add] at hfind
  unfold timerDel
  rcases hfind with ⟨l, r, rfl, hl, he⟩ | ⟨hnot, he | ⟨hlen, he⟩⟩
  · -- the entries between the timer and the last but one move up
    have hne := h.ne_invalid (t := tid) (by simp)
    have hlen : l.length + (r.length + 1) ≤ c.nrTimers := by simpa using hle
    obtain ⟨q, hq, hqlen⟩ : ∃ q, q = r ++ List.replicate (c.nrTimers - 1 - l.length - r.length) c.invalidTid ∧
        q.length = c.nrTimers - 1 - l.length := ⟨_, rfl, by simp; omega⟩
    have horders : orders = l ++ tid :: (q ++ [c.invalidTid]) := by
      rw [h.eq, hq]
      simp only [List.append_assoc, List.cons_append, List.length_append, List.length_cons, ← List.replicate_succ']
      congr 4
      omega
    have hshift := shiftOrder_spec (c := c) hne l q [c.invalidTid]
    rw [hqlen, ← horders] at hshift
    rw [he]
    simp only [hshift]
    rw [← hqlen, ← List.length_append, ← List.append_assoc, List.set_append_right _ _ le_rfl, Nat.sub_self, List.set_cons_zero,
      List.erase_append_right _ hl, List.erase_cons_head, hq]
    simp only [List.append_assoc, List.length_append]
    congr 2
    rw [show c.nrTimers + 1 - (l.length + r.length) = (c.nrTimers - 1 - l.length - r.length) + 2 by omega,
      List.replicate_add]
    rfl
  · rw [he, List.erase_of_not_mem hnot]
    exact h.eq
  · rw [he, List.erase_of_not_mem hnot]
    simp only [Nat.sub_sub, Nat.sub_eq_zero_of_le (by omega : c.nrTimers ≤ 1 + c.nrTimers), shiftOrder]
    rw [h.eq, hlen, Nat.add_sub_cancel_left]
    rw [← hlen, List.set_append_right _ _ le_rfl, Nat.sub_self]
    rfl

/-! ## `__timer_add` -/

/-- The loop from a free entry after the timers `l` on: the later ones of them move one entry
down, and the timer goes where they were. -/
theorem addOrder_gap (timeouts : Nat → Int) (hl : ∀ t ∈ l, t ≠ c.invalidTid ∧ t ≠ tid) (hlen : l.length < c.nrTimers) (r : List Nat) :
    ∃ l₁ l₂, l = l₁ ++ l₂ ∧ addOrder c timeouts tid (l ++ c.invalidTid :: r) l.length = some (l₁ ++ tid :: (l₂ ++ r)) ∧
      (∀ t ∈ l₁.getLast?, timerTime (timeouts t) ≤ timerTime (timeouts tid)) ∧
      ∀ t ∈ l₂, timerTime (timeouts tid) ≤ timerTime (timeouts t) := by
  induction l using List.reverseRecOn generalizing r with
  | nil => exact ⟨[], [], rfl, by simp [addOrder], by simp, by simp⟩
  | append_singleton l t ih =>
    obtain ⟨h1, h2⟩ := hl t (by simp)
    have hlen' : l.length + 1 < c.nrTimers := by simpa using hlen
    have hd : ((l ++ [t]) ++ c.invalidTid :: r).getD l.length c.invalidTid = t := by simp
    rw [List.length_append, List.length_singleton, addOrder]
    simp only [hd, if_neg h2, ne_eq, h1, not_false_eq_true, if_true, if_neg hlen'.ne]
    split
    · rename_i hlater
      have hset : (((l ++ [t]) ++ c.invalidTid :: r).set (l.length + 1) t).set l.length c.invalidTid =
          l ++ c.invalidTid :: (t :: r) := by
        simp
      rw [hset]
      obtain ⟨l₁, l₂, rfl, he, hbefore, hafter⟩ := ih (fun x hx => hl x (by simp [hx])) (by omega) (t :: r)
      refine ⟨l₁, l₂ ++ [t], by simp, by rw [he]; simp, hbefore, fun x hx => ?_⟩
      rcases List.mem_append.1 hx with hx | hx
      · exact hafter x hx
      · rw [List.mem_singleton.1 hx]
        exact hlater.le
    · rename_i hnot
      exact ⟨l ++ [t], [], by simp, by simp, by simpa using hnot, by simp⟩

/-- The loop over the free entries at the end. -/
theorem addOrder_free (timeouts : Nat → Int) (timers : List Nat) (hne : tid ≠ c.invalidTid) (k : Nat) {n : Nat} (hn : k < n) :
    addOrder c timeouts tid (timers ++ List.replicate n c.invalidTid) (timers.length + k) =
      addOrder c timeouts tid (timers ++ List.replicate n c.invalidTid) timers.length := by
  induction k with
  | zero => rfl
  | succ k ih =>
    have hd : (timers ++ List.replicate n c.invalidTid).getD (timers.length + k) c.invalidTid = c.invalidTid := by
      rw [List.getD_append_right _ _ _ _ (by omega), Nat.add_sub_cancel_left]
      simp [List.getD_eq_getElem?_getD, (by omega : k < n)]
    rw [← Nat.add_assoc, addOrder]
    simp only [hd, ne_eq, not_true_eq_false, if_false, if_neg hne.symm]
    exact ih (by omega)

theorem timerAdd_holds (timeouts : Nat → Int) (h : Holds c orders timers) (hn : tid ∉ timers) (ht : tid < c.nrTimers) :
    ∃ orders' l r, timers = l ++ r ∧ timerAdd c timeouts tid orders = some orders' ∧ Holds c orders' (l ++ tid :: r) ∧
      (∀ t ∈ l.getLast?, timerTime (timeouts t) ≤ timerTime (timeouts tid)) ∧
      ∀ t ∈ r, timerTime (timeouts tid) ≤ timerTime (timeouts t) := by
  have hlen := h.length_lt hn ht
  have hfree := addOrder_free (c := c) timeouts timers ht.ne
    (c.nrTimers - timers.length) (n := c.nrTimers + 1 - timers.length) (by omega)
  rw [← h.eq, Nat.add_sub_cancel' hlen.le] at hfree
  obtain ⟨l, r, hlr, he, hbefore, hafter⟩ := addOrder_gap (c := c) timeouts (l := timers)
    (fun t ht => ⟨h.ne_invalid ht, fun e => hn (e ▸ ht)⟩ : ∀ t ∈ timers, t ≠ c.invalidTid ∧ t ≠ tid) hlen
    (List.replicate (c.nrTimers - timers.length) c.invalidTid)
  refine ⟨_, l, r, hlr, ?_, ⟨rfl, ?_, ?_⟩, hbefore, hafter⟩
  · rw [timerAdd, hfree]
    rw [h.eq, replicate_split (by omega), show c.nrTimers + 1 - timers.length - 1 = c.nrTimers - timers.length by omega, he]
    simp only [List.append_assoc, List.cons_append, hlr, List.length_append, List.length_cons]
    congr 5
    omega
  · intro t h'
    simp only [List.mem_append, List.mem_cons] at h'
    rcases h' with h' | rfl | h'
    · exact h.lt t (by simp [hlr, h'])
    · exact ht
    · exact h.lt t (by simp [hlr, h'])
  · have hnd := h.nodup
    rw [hlr] at hnd hn
    exact (List.perm_middle.nodup_iff).2 (List.nodup_cons.2 ⟨hn, hnd⟩)

end Sdfirm.Timer
