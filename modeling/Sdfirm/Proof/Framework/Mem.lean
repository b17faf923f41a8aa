import Mathlib

/-!
# Byte memory: little-endian words, reads after writes

A memory is a function from addresses to bytes. `load` and `store` access a
little-endian word of `n` bytes, `fill` sets a range of bytes. What a program
proof needs of them: a word reads back (`load_store_self`), a write outside a
word keeps it (`load_store_apart`), and a word depends only on its own bytes
(`load_congr`).
-/

namespace Framework

/-- A memory of bytes. -/
abbrev Mem := Nat → BitVec 8

namespace Mem

/-- `m'` agrees with `m` on the bytes `[a, b)`. -/
def Agree (m m' : Mem) (a b : Nat) : Prop := ∀ x, a ≤ x → x < b → m' x = m x

/-- The little-endian word of `n` bytes at `a`. -/
def load (m : Mem) (a : Nat) : Nat → Nat
  | 0 => 0
  | n + 1 => (m a).toNat + 256 * load m (a + 1) n

/-- `m` with the little-endian word `v` of `n` bytes at `a`. -/
def store (m : Mem) (a n v : Nat) : Mem := fun x =>
  if a ≤ x ∧ x < a + n then BitVec.ofNat 8 (v / 256 ^ (x - a)) else m x

/-- `m` with the bytes `[a, a + n)` set to `b`. -/
def fill (m : Mem) (a n : Nat) (b : BitVec 8) : Mem := fun x =>
  if a ≤ x ∧ x < a + n then b else m x

namespace Agree

theorem mono {m m' : Mem} {a b a' b' : Nat} (h : Agree m m' a b) (ha : a ≤ a') (hb : b' ≤ b) :
    Agree m m' a' b' := fun x h₁ h₂ => h x (by omega) (by omega)

end Agree

theorem load_congr {m m' : Mem} {a n : Nat} (h : Agree m m' a (a + n)) :
    load m' a n = load m a n := by
  induction n generalizing a with
  | zero => rfl
  | succ n ih =>
    simp only [load]
    rw [h a (by omega) (by omega), ih (h.mono (by omega) (by omega))]

/-- A word from its bytes. -/
theorem load_of_bytes {m : Mem} {a n v : Nat} (h : ∀ i < n, m (a + i) = BitVec.ofNat 8 (v / 256 ^ i)) :
    load m a n = v % 256 ^ n := by
  induction n generalizing a v with
  | zero => simp [load, Nat.mod_one]
  | succ n ih =>
    have h0 := h 0 (by omega)
    simp only [Nat.add_zero, pow_zero, Nat.div_one] at h0
    have ht : ∀ i < n, m (a + 1 + i) = BitVec.ofNat 8 (v / 256 / 256 ^ i) := by
      intro i hi
      rw [show a + 1 + i = a + (i + 1) by omega, h (i + 1) (by omega), Nat.div_div_eq_div_mul,
        pow_succ, Nat.mul_comm]
    rw [load, h0, ih ht, BitVec.toNat_ofNat, show 256 ^ (n + 1) = 256 * 256 ^ n from pow_succ' 256 n, Nat.mod_mul]

theorem load_store_self (m : Mem) (a n v : Nat) : load (store m a n v) a n = v % 256 ^ n := by
  refine load_of_bytes fun i hi => ?_
  simp only [store]
  rw [if_pos (by omega), Nat.add_sub_cancel_left]

theorem store_agree (m : Mem) (a n v : Nat) {b c : Nat} (h : c ≤ a ∨ a + n ≤ b) :
    Agree m (store m a n v) b c := by
  intro x hb hc
  simp only [store]
  rw [if_neg (by omega)]

theorem fill_agree (m : Mem) (a n : Nat) (v : BitVec 8) {b c : Nat} (h : c ≤ a ∨ a + n ≤ b) :
    Agree m (fill m a n v) b c := by
  intro x hb hc
  simp only [fill]
  rw [if_neg (by omega)]

/-- A word apart from a written one is kept. -/
theorem load_store_apart {m : Mem} {a n v b k : Nat} (h : b + k ≤ a ∨ a + n ≤ b) :
    load (store m a n v) b k = load m b k :=
  load_congr (store_agree m a n v h)

end Mem

end Framework
