import Mathlib
import Sdfirm.Impl.Semaphore

/-!
# Accounting

`Fine` is what has to hold at every moment. `Holds` asks for it along the sections of a run, and that a call of
`sem_wait` with an error takes nothing.
-/

namespace Sdfirm.Semaphore

variable {n : Nat}

/-- What a call that returned 0 has given or taken. -/
def Return.gain : Return → Int
  | .wait count ret => if ret = 0 then -count else 0
  | .signal count ret => if ret = 0 then count else 0

/-- The call is a `sem_wait` with an error. -/
def Return.Failed : Return → Prop
  | .wait _ ret => ret ≠ 0
  | .signal _ _ => False

/-- The value is within its bounds, and without calls under way it is what the calls account for. -/
structure Fine (ini : Int) (s : Sem n) (returns : List Return) : Prop where
  nonneg : 0 ≤ s.value
  le_limit : s.value ≤ s.limit
  quiet : (∀ i, s.callers i = .idle) → s.value = ini + (returns.map Return.gain).sum

def Holds (ini : Int) : Sem n → List Return → List (Section n) → Prop
  | s, returns, [] => Fine ini s returns
  | s, returns, e :: sections =>
    Fine ini s returns ∧ ∀ s' r, step s e = some (s', r) →
      (∀ ret ∈ r, ret.Failed → s'.value = s.value) ∧ Holds ini s' (returns ++ r.toList) sections

/-- The counts are positive `int`s. -/
def Section.Legal : Section n → Prop
  | .wait _ count => 0 < count ∧ count < 2 ^ 31
  | .signal _ count => 0 < count ∧ count < 2 ^ 31
  | .resume _ => True

/-- Every section of a run meets `p`, with the semaphore before it. -/
def Along (p : Sem n → Section n → Prop) : Sem n → List (Section n) → Prop
  | _, [] => True
  | s, e :: sections => ∀ s' r, step s e = some (s', r) → p s e ∧ Along p s' sections

/-- No caller is at the end of a wait, and no sum overflows. -/
def Smooth (s : Sem n) : Section n → Prop
  | .wait _ _ => True
  | .signal _ count => s.value + count < 2 ^ 31
  | .resume i => ∀ count, s.callers i ≠ .waiting count

end Sdfirm.Semaphore
