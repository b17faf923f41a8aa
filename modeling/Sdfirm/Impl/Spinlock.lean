import Mathlib

/-!
# Ticket locks

The `spinlock_t` of RISC-V with `CONFIG_RISCV_SPINLOCK_TICKET` and the harts
that use it, in any order. A step is one access to the lock.
-/

namespace Sdfirm.Spinlock

/-- `spinlock_t`. -/
structure Lock where
  owner : BitVec 32
  next : BitVec 32

/-- Where a hart is: outside, before it reads `owner` in `smp_hw_spin_lock` or `smp_hw_spin_trylock`, before the latter
counts `next` down again, or inside. -/
inductive Pc
  | idle
  | lock (t : BitVec 32)
  | trylock (t : BitVec 32)
  | sub
  | held

/-- A function is called, or the one called goes on. -/
inductive Op
  | lock
  | trylock
  | unlock
  | access

def exec (l : Lock) : Pc → Op → Option (Lock × Pc)
  | .idle, .lock => some ({ l with next := l.next + 1 }, .lock (l.next + 1))
  | .idle, .trylock => some ({ l with next := l.next + 1 }, .trylock (l.next + 1))
  | .lock t, .access => some (l, if t - 1 = l.owner then .held else .lock t)
  | .trylock t, .access => some (l, if t - 1 = l.owner then .held else .sub)
  | .sub, .access => some ({ l with next := l.next - 1 }, .idle)
  | .held, .unlock => some ({ l with owner := l.owner + 1 }, .idle)
  | _, _ => none

structure State (n : Nat) where
  lock : Lock
  pc : Fin n → Pc

variable {n : Nat}

/-- One of the harts makes a step. -/
def step (s : State n) (op : Fin n × Op) : Option (State n) :=
  (exec s.lock (s.pc op.1) op.2).map fun r => ⟨r.1, fun d => if d = op.1 then r.2 else s.pc d⟩

/-- `smp_hw_spin_init`. -/
def State.init : State n := ⟨⟨0, 0⟩, fun _ => .idle⟩

end Sdfirm.Spinlock
