import Mathlib
import Sdfirm.Spec.Semaphore

/-!
# The accounting of a semaphore

What was given by calls that have not returned is `pending`; with it the value is accounted for after every section
(`Inv`). A section keeps that if and only if it is `Smooth` (`step_iff`).
-/

namespace Sdfirm.Semaphore

variable {n : Nat}

theorem wrap_of_lt {x : Int} (h : -2 ^ 31 ≤ x) (h' : x < 2 ^ 31) : wrap x = x := by
  simp only [wrap, Int.bmod]
  omega

theorem wrap_of_overflow {x : Int} (h : 2 ^ 31 ≤ x) (h' : x < 2 ^ 32) : wrap x < 0 := by
  simp only [wrap, Int.bmod]
  omega

/-- What a caller has given in a call under way. -/
def Local.pending : Local → Int
  | .waking count => count
  | _ => 0

structure Inv (ini : Int) (s : Sem n) (returns : List Return) : Prop where
  nonneg : 0 ≤ s.value
  le_limit : s.value ≤ s.limit
  limit_lt : s.limit < 2 ^ 31
  value_eq : s.value = ini + (returns.map Return.gain).sum + ∑ i, (s.callers i).pending
  waiting : ∀ i count, s.callers i = .waiting count → 0 < count ∧ count < 2 ^ 31

theorem sum_goto (s : Sem n) (i : Fin n) (l : Local) :
    ∑ j, ((s.goto i l).callers j).pending = ∑ j, (s.callers j).pending - (s.callers i).pending + l.pending := by
  have h := Finset.sum_update_of_mem (Finset.mem_univ i) (fun j => (s.callers j).pending) l.pending
  have h' := Finset.sum_update_of_mem (Finset.mem_univ i) (fun j => (s.callers j).pending) (s.callers i).pending
  rw [Function.update_eq_self] at h'
  have hcomp : (fun j => ((s.goto i l).callers j).pending) = Function.update (fun j => (s.callers j).pending) i l.pending := by
    funext j
    by_cases hj : j = i
    · subst hj
      simp [Sem.goto]
    · simp [Sem.goto, hj]
  rw [hcomp, h, h']
  omega

section

variable {ini : Int} {s : Sem n} {returns : List Return}

theorem Inv.fine (h : Inv ini s returns) : Fine ini s returns := by
  refine ⟨h.nonneg, h.le_limit, fun hquiet => ?_⟩
  have hsum : ∑ i, (s.callers i).pending = 0 := Finset.sum_eq_zero fun i _ => by rw [hquiet i]; rfl
  rw [h.value_eq, hsum, add_zero]

/-- A caller goes on, with what it has given and what its call accounts for. -/
theorem Inv.goto (h : Inv ini s returns) {v : Int} {i : Fin n} {l : Local} {r : Option Return} (h0 : 0 ≤ v)
    (hle : v ≤ s.limit) (hl : ∀ count, l = .waiting count → 0 < count ∧ count < 2 ^ 31)
    (hv : v - s.value = l.pending - (s.callers i).pending + (r.toList.map Return.gain).sum) :
    Inv ini (({ s with value := v } : Sem n).goto i l) (returns ++ r.toList) := by
  refine ⟨h0, hle, h.limit_lt, ?_, fun j count hj => ?_⟩
  · have hsum := sum_goto ({ s with value := v } : Sem n) i l
    have hval := h.value_eq
    rw [hsum, List.map_append, List.sum_append]
    show v = _
    dsimp only
    omega
  · by_cases hji : j = i
    · subst hji
      simp only [Sem.goto, Function.update_self] at hj
      exact hl count hj
    · simp only [Sem.goto, Function.update_of_ne hji] at hj
      exact h.waiting j count hj

/-- What a section leaves: the invariant, and nothing taken with an error. -/
def Kept (ini : Int) (s s' : Sem n) (returns : List Return) (r : Option Return) : Prop :=
  (∀ ret ∈ r, ret.Failed → s'.value = s.value) ∧ Inv ini s' (returns ++ r.toList)

theorem semWait_kept (h : Inv ini s returns) {i : Fin n} {count : Int} (hi : s.callers i = .idle) (h0 : 0 < count)
    (hlt : count < 2 ^ 31) : Kept ini s (semWait s i count).1 returns (semWait s i count).2 := by
  have hnn := h.nonneg
  have hle := h.le_limit
  have hmax := h.limit_lt
  unfold semWait
  split
  · refine ⟨fun _ hr => (by cases hr), h.goto hnn hle ?_ (by simp [hi, Local.pending])⟩
    intro count' heq
    cases heq
    exact ⟨h0, hlt⟩
  · have hwrap : wrap (s.value - count) = s.value - count := wrap_of_lt (by omega) (by omega)
    simp only [semTake, show (0 : Int) ≠ etime by decide, ne_eq, not_false_iff, if_true, hwrap]
    refine ⟨fun ret hr hf => ?_, h.goto (by omega) (by omega) (fun _ heq => (by cases heq)) ?_⟩
    · cases hr
      exact absurd rfl hf
    · simp [hi, Local.pending, Return.gain]

theorem semSignal_kept (h : Inv ini s returns) {i : Fin n} {count : Int} (hi : s.callers i = .idle) (h0 : 0 < count)
    (hsum : s.value + count < 2 ^ 31) : Kept ini s (semSignal s i count).1 returns (semSignal s i count).2 := by
  have hnn := h.nonneg
  have hle := h.le_limit
  have hwrap : wrap (s.value + count) = s.value + count := wrap_of_lt (by omega) hsum
  simp only [semSignal, hwrap]
  split
  · refine ⟨fun ret hr hf => ?_, h.goto hnn hle (fun _ heq => (by cases heq)) ?_⟩
    · cases hr
      cases hf
    · simp [hi, Local.pending, Return.gain, einval]
  · rw [if_pos (by omega)]
    refine ⟨fun _ hr => (by cases hr), h.goto (by omega) (by omega) (fun _ heq => (by cases heq)) ?_⟩
    simp [hi, Local.pending]

theorem step_kept (h : Inv ini s returns) {e : Section n} {s' : Sem n} {r : Option Return} (hlegal : e.Legal)
    (hsmooth : Smooth s e) (hs : step s e = some (s', r)) : Kept ini s s' returns r := by
  cases e with
  | wait i count =>
    simp only [step] at hs
    split at hs
    · rename_i hi
      have hkept := semWait_kept h hi hlegal.1 hlegal.2
      rwa [Option.some.inj hs] at hkept
    · cases hs
  | signal i count =>
    simp only [step] at hs
    split at hs
    · rename_i hi
      have hkept := semSignal_kept h hi hlegal.1 hsmooth
      rwa [Option.some.inj hs] at hkept
    · cases hs
  | resume i =>
    simp only [step] at hs
    split at hs
    · cases hs
    · rename_i count hi
      exact absurd hi (hsmooth count)
    · rename_i count hi
      cases hs
      refine ⟨fun ret hr hf => ?_, h.goto h.nonneg h.le_limit (fun _ heq => (by cases heq)) ?_⟩
      · cases hr
        cases hf
      · simp [hi, Local.pending, Return.gain]

/-- A wait that has timed out takes the count, and an overflow makes the value negative. -/
theorem not_smooth (h : Inv ini s returns) {e : Section n} {s' : Sem n} {r : Option Return} (hlegal : e.Legal)
    (hsmooth : ¬Smooth s e) (hs : step s e = some (s', r)) (hnn : 0 ≤ s'.value) :
    ∃ ret ∈ r, ret.Failed ∧ s'.value ≠ s.value := by
  have h0 := h.nonneg
  have hle := h.le_limit
  have hmax := h.limit_lt
  cases e with
  | wait i count => exact absurd trivial hsmooth
  | signal i count =>
    have hover : 2 ^ 31 ≤ s.value + count := not_lt.mp hsmooth
    have hwrap := wrap_of_overflow hover (by have := hlegal.2; omega)
    simp only [step] at hs
    split at hs
    · simp only [semSignal, if_neg (show ¬s.limit < wrap (s.value + count) by omega),
        if_neg (show ¬0 < wrap (s.value + count) by omega)] at hs
      cases hs
      exact absurd hnn (not_le.mpr hwrap)
    · cases hs
  | resume i =>
    simp only [Smooth, not_forall, not_not] at hsmooth
    obtain ⟨count, hi⟩ := hsmooth
    obtain ⟨hpos, hlt⟩ := h.waiting i count hi
    have hwrap : wrap (s.value - count) = s.value - count := wrap_of_lt (by omega) (by omega)
    simp only [step, hi, semTake, show -etime ≠ etime by decide, ne_eq, not_false_iff, if_true, hwrap] at hs
    cases hs
    refine ⟨_, rfl, (show -etime ≠ 0 by decide), ?_⟩
    show s.value - count ≠ s.value
    omega

theorem Holds.fine {sections : List (Section n)} (h : Holds ini s returns sections) : Fine ini s returns := by
  cases sections with
  | nil => exact h
  | cons e sections => exact h.1

theorem holds_iff {sections : List (Section n)} (h : Inv ini s returns) (hlegal : ∀ e ∈ sections, e.Legal) :
    Holds ini s returns sections ↔ Along Smooth s sections := by
  induction sections generalizing s returns with
  | nil => exact ⟨fun _ => trivial, fun _ => h.fine⟩
  | cons e sections ih =>
    have he := hlegal e List.mem_cons_self
    have hrest (e' : Section n) (hm : e' ∈ sections) := hlegal e' (List.mem_cons_of_mem e hm)
    constructor
    · intro hh s' r hs
      obtain ⟨hfail, hnext⟩ := hh.2 s' r hs
      have hsmooth : Smooth s e := by
        by_contra hnot
        obtain ⟨ret, hr, hf, hne⟩ := not_smooth h he hnot hs hnext.fine.nonneg
        exact hne (hfail ret hr hf)
      exact ⟨hsmooth, (ih (step_kept h he hsmooth hs).2 hrest).mp hnext⟩
    · intro hh
      refine ⟨h.fine, fun s' r hs => ?_⟩
      obtain ⟨hsmooth, hnext⟩ := hh s' r hs
      have hkept := step_kept h he hsmooth hs
      exact ⟨hkept.1, (ih hkept.2 hrest).mpr hnext⟩

theorem semInit_inv {max ini : Int} (h0 : 0 ≤ ini) (hle : ini ≤ max) (hmax : max < 2 ^ 31) :
    Inv ini (semInit n max ini) [] :=
  ⟨h0, hle, hmax, by simp [semInit, Local.pending], fun _ _ h => (by cases h)⟩

end

theorem accounting_iff_smooth (n : Nat) (max ini : Int) (h0 : 0 ≤ ini) (hle : ini ≤ max) (hmax : max < 2 ^ 31)
    (sections : List (Section n)) (hlegal : ∀ e ∈ sections, e.Legal) :
    Holds ini (semInit n max ini) [] sections ↔ Along Smooth (semInit n max ini) sections :=
  holds_iff (semInit_inv h0 hle hmax) hlegal

/-- One caller gives what another one takes. -/
theorem accounting_of_two :
    Holds 1 (semInit 2 3 1) [] [.signal 0 2, .wait 1 3, .resume 0, .wait 1 1] := by
  refine (accounting_iff_smooth 2 3 1 (by decide) (by decide) (by decide) _ ?_).mpr ?_
  · simp [Section.Legal]
  · simp [Along, Smooth, step, semInit, semSignal, semWait, semTake, Sem.goto, wrap, etime]

/-- A `sem_wait` on an empty semaphore that times out. -/
theorem accounting_after_timeout :
    ((step (semInit 1 1 0) (.wait 0 1)).bind fun p => step p.1 (.resume 0)).map (fun p => (p.1.value, p.2)) =
      some (-1, some (.wait 1 (-etime))) ∧ ¬Holds 0 (semInit 1 1 0) [] [.wait 0 1, .resume 0] := by
  refine ⟨rfl, fun hh => ?_⟩
  have halong := (holds_iff (semInit_inv (by decide) (by decide) (by decide)) (by simp [Section.Legal])).mp hh
  exact ((halong _ _ rfl).2 _ _ rfl).1 1 rfl

end Sdfirm.Semaphore
