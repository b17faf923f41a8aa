import Mathlib

/-!
# Semaphores (`kernel/semaphore.c`)

`n` callers of `sem_wait` and `sem_signal`. What a caller does while it holds the lock is one section; the sections of the
callers come in any order. The value is an `int`, whose sums wrap around. `wait_sem` delays and returns `-ETIME`, and `wake_sem`
does nothing. A call of `sem_wait` is the same for every timeout.
-/

namespace Sdfirm.Semaphore

def einval : Int := 22

def etime : Int := 62

/-- A sum of `int`s. -/
def wrap (x : Int) : Int := x.bmod (2 ^ 32)

/-- Where a caller is when it does not hold the lock. -/
inductive Local
  | idle
  | waiting (count : Int)
  | waking (count : Int)
deriving DecidableEq

structure Sem (n : Nat) where
  value : Int
  limit : Int
  callers : Fin n → Local

/-- `sem_init`. -/
def semInit (n : Nat) (max ini : Int) : Sem n := ⟨ini, max, fun _ => .idle⟩

/-- What a call returns. -/
inductive Return
  | wait (count ret : Int)
  | signal (count ret : Int)

/-- A section of a caller: the first one of a call, or the one after the lock has been taken again. -/
inductive Section (n : Nat)
  | wait (i : Fin n) (count : Int)
  | signal (i : Fin n) (count : Int)
  | resume (i : Fin n)

variable {n : Nat}

def Sem.goto (s : Sem n) (i : Fin n) (l : Local) : Sem n := { s with callers := Function.update s.callers i l }

/-- The end of `sem_wait`, with what `wait_sem` has returned. -/
def semTake (s : Sem n) (i : Fin n) (count ret : Int) : Sem n × Option Return :=
  let s := if ret ≠ etime then { s with value := wrap (s.value - count) } else s
  (s.goto i .idle, some (.wait count ret))

/-- `sem_wait` up to the end of its loop or to `wait_sem`. -/
def semWait (s : Sem n) (i : Fin n) (count : Int) : Sem n × Option Return :=
  if s.value ≤ count - 1 then (s.goto i (.waiting count), none) else semTake s i count 0

/-- `sem_signal` up to its end or to `wake_sem`. -/
def semSignal (s : Sem n) (i : Fin n) (count : Int) : Sem n × Option Return :=
  if s.limit < wrap (s.value + count) then (s.goto i .idle, some (.signal count (-einval)))
  else
    let s := { s with value := wrap (s.value + count) }
    if 0 < s.value then (s.goto i (.waking count), none) else (s.goto i .idle, some (.signal count 0))

/-- A section, with what the call returns if it ends. -/
def step (s : Sem n) : Section n → Option (Sem n × Option Return)
  | .wait i count => if s.callers i = .idle then some (semWait s i count) else none
  | .signal i count => if s.callers i = .idle then some (semSignal s i count) else none
  | .resume i =>
    match s.callers i with
    | .idle => none
    -- `wait_sem` has returned, and its value ends the loop
    | .waiting count => some (semTake s i count (-etime))
    | .waking count => some (s.goto i .idle, some (.signal count 0))

end Sdfirm.Semaphore
