import Mathlib

/-!
# Runs, loops and calls

What a sequence of steps keeps, each of which may fail: runs of a step function,
loops over a table, functions with a bound on their steps, and calls that raise
errors.
-/

/-!
## Runs of a partial step function

`Run step init ok s` says that `s` is reached from an initial state by steps
that return and all meet the condition `ok`. What the initial states have and
steps under the condition keep holds in every state of a run (`Run.invariant`).
Where the condition is decidable, a run is found by computing it
(`Run.of_check`). `foldlM_invariant` is the rule for a fold that reads a list.
-/

namespace Framework

variable {σ α : Type} {step : σ → α → Option σ} {init : σ → Prop} {ok : σ → α → Prop} {s s' : σ}

/-- The states reached from `init` by steps that meet `ok`. -/
inductive Run (step : σ → α → Option σ) (init : σ → Prop) (ok : σ → α → Prop) : σ → Prop
  | start {s : σ} : init s → Run step init ok s
  | next {s s' : σ} (op : α) : Run step init ok s → ok s op → step s op = some s' → Run step init ok s'

/-- What a step keeps, with the elements read so far, holds after a whole list. -/
theorem foldlM_invariant {I : σ → List α → Prop}
    (hstep : ∀ s s' read a, I s read → step s a = some s' → I s' (read ++ [a])) {read L : List α} (h : I s read)
    (he : L.foldlM step s = some s') : I s' (read ++ L) := by
  induction L generalizing s read with
  | nil =>
    obtain rfl := Option.some.inj he
    rwa [List.append_nil]
  | cons a L ih =>
    rw [List.foldlM_cons] at he
    obtain ⟨s₁, h1, h2⟩ := Option.bind_eq_some_iff.1 he
    have h3 := ih (hstep s s₁ read a h h1) h2
    rwa [List.append_assoc] at h3

namespace Run

theorem invariant {I : σ → Prop} (hinit : ∀ s, init s → I s)
    (hstep : ∀ s op s', I s → ok s op → step s op = some s' → I s') (h : Run step init ok s) : I s := by
  induction h with
  | start h => exact hinit _ h
  | next op _ hok he ih => exact hstep _ op _ ih hok he

/-- A step that is made only if it meets `ok`. -/
def check (step : σ → α → Option σ) (ok : σ → α → Prop) [∀ s op, Decidable (ok s op)] (s : σ) (op : α) : Option σ :=
  if ok s op then step s op else none

theorem foldlM_check [∀ s op, Decidable (ok s op)] {ops : List α} (h : Run step init ok s)
    (he : ops.foldlM (check step ok) s = some s') : Run step init ok s' := by
  induction ops generalizing s with
  | nil =>
    obtain rfl := Option.some.inj he
    exact h
  | cons op ops ih =>
    rw [List.foldlM_cons] at he
    obtain ⟨s₁, h1, h2⟩ := Option.bind_eq_some_iff.1 he
    unfold check at h1
    split at h1
    · rename_i hok
      exact ih (h.next op hok h1) h2
    · cases h1

/-- A run that has been computed, and what was computed of its last state. -/
theorem of_check [∀ s op, Decidable (ok s op)] {β : Type} (ops : List α) (f : σ → β) {b : β} (hinit : init s)
    (h : (ops.foldlM (check step ok) s).map f = some b) : ∃ s', Run step init ok s' ∧ f s' = b := by
  obtain ⟨s', he, hb⟩ := Option.map_eq_some_iff.1 h
  exact ⟨s', foldlM_check (.start hinit) he, hb⟩

end Run

end Framework

/-!
## Loops over the entries of a table

A loop that replaces each entry of a table in turn, and can fail at any of
them, returns if it does so at every entry, and has then replaced each by what
its step returned (`foldlM_updateAt`): no step sees what another has done.
-/

namespace Framework

variable {α : Type} {g : Nat → α → Option α} {l l' : List α}

/-- Entry `i` is replaced. -/
def updateAt (g : α → Option α) (l : List α) (i : Nat) : Option (List α) :=
  match l[i]? with
  | none => some l
  | some a => (g a).map (l.set i)

/-- Each entry has been replaced. -/
structure Updated (g : Nat → α → Option α) (l l' : List α) : Prop where
  length : l'.length = l.length
  entry {i : Nat} {a : α} : l[i]? = some a → ∃ a', g i a = some a' ∧ l'[i]? = some a'

/-- The entries below `k` have been replaced, the others not yet. -/
theorem foldlM_updateAt_range {k : Nat} (hk : k ≤ l.length)
    (hg : ∀ i a, i < k → l[i]? = some a → (g i a).isSome = true) :
    ∃ l', (List.range k).foldlM (fun l i => updateAt (g i) l i) l = some l' ∧ l'.length = l.length ∧
      (∀ i a, i < k → l[i]? = some a → ∃ a', g i a = some a' ∧ l'[i]? = some a') ∧ ∀ i, k ≤ i → l'[i]? = l[i]? := by
  induction k with
  | zero => exact ⟨l, rfl, rfl, fun i a hi => absurd hi (Nat.not_lt_zero i), fun _ _ => rfl⟩
  | succ k ih =>
    obtain ⟨l₁, hl₁, hlen, hdone, hrest⟩ := ih (by omega) fun i a hi => hg i a (by omega)
    obtain ⟨a, ha⟩ : ∃ a, l[k]? = some a := ⟨_, List.getElem?_eq_getElem (by omega)⟩
    obtain ⟨a', ha'⟩ := Option.isSome_iff_exists.mp (hg k a (by omega) ha)
    have hstep : updateAt (g k) l₁ k = some (l₁.set k a') := by
      rw [updateAt, hrest k le_rfl, ha]
      simp [ha']
    refine ⟨l₁.set k a', ?_, by rw [List.length_set, hlen], ?_, ?_⟩
    · rw [List.range_succ, List.foldlM_append, hl₁]
      simp [hstep]
    · intro i b hi hb
      rcases Nat.lt_succ_iff_lt_or_eq.mp hi with hlt | rfl
      · obtain ⟨b', hb', hset⟩ := hdone i b hlt hb
        exact ⟨b', hb', by rw [List.getElem?_set_ne (by omega), hset]⟩
      · obtain rfl := Option.some.inj (ha.symm.trans hb)
        exact ⟨a', ha', List.getElem?_set_self (by omega)⟩
    · intro i hi
      rw [List.getElem?_set_ne (by omega), hrest i (by omega)]

/-- No step before the first that fails changes the entry at which it does. -/
theorem isSome_of_foldlM_updateAt {k : Nat} (hk : k ≤ l.length)
    (h : (List.range k).foldlM (fun l i => updateAt (g i) l i) l = some l') :
    ∀ i a, i < k → l[i]? = some a → (g i a).isSome = true := by
  induction k generalizing l' with
  | zero => exact fun i a hi => absurd hi (Nat.not_lt_zero i)
  | succ k ih =>
    rw [List.range_succ, List.foldlM_append] at h
    obtain ⟨l₁, hl₁, h⟩ := Option.bind_eq_some_iff.mp h
    have hbelow := ih (by omega) hl₁
    obtain ⟨l₂, hl₂, -, -, hrest⟩ := foldlM_updateAt_range (by omega) hbelow
    obtain rfl := Option.some.inj (hl₁.symm.trans hl₂)
    intro i a hi ha
    rcases Nat.lt_succ_iff_lt_or_eq.mp hi with hlt | rfl
    · exact hbelow i a hlt ha
    · have hget : l₁[i]? = some a := (hrest i le_rfl).trans ha
      simp only [List.foldlM_cons, List.foldlM_nil, updateAt, hget] at h
      by_contra hnone
      simp [Option.not_isSome_iff_eq_none.mp hnone] at h

/-- The loop over the whole table. -/
theorem foldlM_updateAt_isSome_iff : (∃ l', (List.range l.length).foldlM (fun l i => updateAt (g i) l i) l = some l') ↔
    ∀ i a, l[i]? = some a → (g i a).isSome = true := by
  constructor
  · rintro ⟨l', h⟩ i a ha
    exact isSome_of_foldlM_updateAt le_rfl h i a (List.getElem?_eq_some_iff.mp ha).1 ha
  · intro h
    obtain ⟨l', hl', -⟩ := foldlM_updateAt_range le_rfl fun i a _ => h i a
    exact ⟨l', hl'⟩

theorem updated_of_foldlM (h : (List.range l.length).foldlM (fun l i => updateAt (g i) l i) l = some l') : Updated g l l' := by
  obtain ⟨l₂, hl₂, hlen, hdone, -⟩ := foldlM_updateAt_range le_rfl (isSome_of_foldlM_updateAt le_rfl h)
  obtain rfl := Option.some.inj (h.symm.trans hl₂)
  exact ⟨hlen, fun ha => hdone _ _ (List.getElem?_eq_some_iff.mp ha).1 ha⟩

end Framework

/-!
## Functions with a bound on their steps

`Returns f a` says that `f`, which takes a bound on its steps, returns `a` if the
bound is large enough.
-/

namespace Sdfirm.Fuel

variable {α β : Type} {f g : Nat → Option α} {a : α}

def Returns (f : Nat → Option α) (a : α) : Prop := ∃ n, ∀ steps ≥ n, f steps = some a

theorem Returns.of_eq (h : ∀ steps, f steps = some a) : Returns f a := ⟨0, fun steps _ => h steps⟩

/-- The first step is made, and then the function goes on. -/
theorem Returns.of_step (h : ∀ steps, f (steps + 1) = g steps) (hg : Returns g a) : Returns f a := by
  obtain ⟨n, hn⟩ := hg
  refine ⟨n + 1, fun steps hsteps => ?_⟩
  obtain ⟨steps, rfl⟩ := Nat.exists_eq_add_one_of_ne_zero (by omega : steps ≠ 0)
  rw [h]
  exact hn steps (by omega)

theorem Returns.unique {b : α} (ha : Returns f a) (hb : Returns f b) : a = b := by
  obtain ⟨n, hn⟩ := ha
  obtain ⟨m, hm⟩ := hb
  exact Option.some.inj ((hn (max n m) (le_max_left n m)).symm.trans (hm (max n m) (le_max_right n m)))

theorem Returns.congr (hf : Returns f a) (h : ∀ steps, g steps = f steps) : Returns g a := by
  obtain ⟨n, hn⟩ := hf
  exact ⟨n, fun steps hsteps => (h steps).trans (hn steps hsteps)⟩

theorem Returns.bind {k : Nat → α → Option β} {c : β} (hf : Returns f a) (hk : Returns (fun steps => k steps a) c) :
    Returns (fun steps => (f steps).bind (k steps)) c := by
  obtain ⟨n, hn⟩ := hf
  obtain ⟨m, hm⟩ := hk
  refine ⟨max n m, fun steps hsteps => ?_⟩
  show (f steps).bind (k steps) = some c
  rw [hn steps (by omega), Option.bind_some]
  exact hm steps (by omega)

end Sdfirm.Fuel

/-!
## Calls that may not return

A sequence of calls returns if each of them does (`bind_eq_ok_iff`). `Gives x P`
says that a call returns, with a value that has `P`; sequences of calls are
proved from what each of them gives (`Gives.bind`).
-/

namespace Framework.Except

variable {ε α β : Type} {x : Except ε α} {f : α → Except ε β} {b : β}

theorem bind_eq_ok_iff : x >>= f = .ok b ↔ ∃ a, x = .ok a ∧ f a = .ok b := by
  cases x with
  | error e =>
    constructor
    · exact fun h => absurd h nofun
    · rintro ⟨a, h, -⟩
      exact absurd h nofun
  | ok a =>
    constructor
    · exact fun h => ⟨a, rfl, h⟩
    · rintro ⟨a', h, hf⟩
      obtain rfl := Except.ok.inj h
      exact hf

theorem map_eq_ok_iff {g : α → β} : g <$> x = .ok b ↔ ∃ a, x = .ok a ∧ g a = b := by
  cases x with
  | error e =>
    constructor
    · exact fun h => absurd h nofun
    · rintro ⟨a, h, -⟩
      exact absurd h nofun
  | ok a =>
    constructor
    · exact fun h => ⟨a, rfl, Except.ok.inj h⟩
    · rintro ⟨a', h, rfl⟩
      obtain rfl := Except.ok.inj h
      rfl

theorem bind_eq_error {e : ε} (h : x = .error e) : x >>= f = .error e := by
  rw [h]
  rfl

/-- The call returns, with a value that has `P`. -/
def Gives (x : Except ε α) (P : α → Prop) : Prop := ∃ a, x = .ok a ∧ P a

theorem Gives.ok {a : α} {P : α → Prop} (h : P a) : Gives (.ok a : Except ε α) P := ⟨a, rfl, h⟩

theorem Gives.imp {P Q : α → Prop} (h : Gives x P) (hpq : ∀ a, P a → Q a) : Gives x Q := by
  obtain ⟨a, rfl, ha⟩ := h
  exact .ok (hpq a ha)

theorem Gives.bind {P : α → Prop} {Q : β → Prop} (h : Gives x P) (hf : ∀ a, P a → Gives (f a) Q) :
    Gives (x >>= f) Q := by
  obtain ⟨a, rfl, ha⟩ := h
  exact hf a ha

/-- What each step of a list gives from what the one before gave. -/
theorem Gives.foldlM {step : β → α → Except ε β} {P : β → Prop} {ops : List α}
    (hstep : ∀ op ∈ ops, ∀ b, P b → Gives (step b op) P) (hb : P b) : Gives (ops.foldlM step b) P := by
  induction ops generalizing b with
  | nil => exact .ok hb
  | cons op ops ih =>
    rw [List.foldlM_cons]
    exact (hstep op List.mem_cons_self b hb).bind fun b' hb' => ih (fun op h => hstep op (List.mem_cons_of_mem _ h)) hb'

end Framework.Except
