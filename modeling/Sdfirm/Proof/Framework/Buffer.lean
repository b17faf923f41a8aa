import Mathlib

/-!
# Buffers

A buffer is a function from positions. `slice` reads a list from it, `overlay`
writes one. What has been written is known by what stands at a position
(`overlay_inside`, `overlay_outside`).
-/

namespace Framework.Buffer

variable {α : Type*} {buf : Nat → α} {l : List α} {i k n : Nat}

/-- The `n` entries from `i` on. -/
def slice (buf : Nat → α) (i n : Nat) : List α := (List.range n).map fun k => buf (i + k)

/-- The list is written from `i` on. -/
def overlay (buf : Nat → α) (i : Nat) (l : List α) : Nat → α := fun k =>
  if i ≤ k then l.getD (k - i) (buf k) else buf k

/-! ## Reading -/

@[simp] theorem length_slice (buf : Nat → α) (i n : Nat) : (slice buf i n).length = n := by
  simp [slice]

theorem getElem?_slice (hk : k < n) : (slice buf i n)[k]? = some (buf (i + k)) := by
  rw [slice, List.getElem?_map, List.getElem?_range hk]
  rfl

/-! ## Writing -/

theorem overlay_outside (h : k < i ∨ i + l.length ≤ k) : overlay buf i l k = buf k := by
  rw [overlay]
  split
  · rw [List.getD_eq_default _ _ (by omega)]
  · rfl

theorem overlay_inside (hi : i ≤ k) (h : k < i + l.length) (d : α) : overlay buf i l k = l.getD (k - i) d := by
  have hlt : k - i < l.length := by omega
  rw [overlay, if_pos hi, List.getD_eq_getElem _ _ hlt, List.getD_eq_getElem _ _ hlt]

theorem overlay_nil (buf : Nat → α) (i : Nat) : overlay buf i [] = buf := by
  funext k
  exact overlay_outside (by simp; omega)

theorem overlay_cons (buf : Nat → α) (i : Nat) (a : α) (l : List α) :
    overlay buf i (a :: l) = overlay (Function.update buf i a) (i + 1) l := by
  funext k
  by_cases hlt : k < i
  · rw [overlay_outside (.inl hlt), overlay_outside (.inl (by omega)), Function.update_of_ne (by omega)]
  · by_cases heq : k = i
    · subst heq
      rw [overlay_inside le_rfl (by simp) a, overlay_outside (.inl (by omega)), Nat.sub_self, Function.update_self]
      rfl
    · by_cases hin : k < i + 1 + l.length
      · rw [overlay_inside (by omega) (by simp; omega) a, overlay_inside (by omega) hin a,
          show k - i = k - (i + 1) + 1 by omega]
        rfl
      · rw [overlay_outside (.inr (by simp; omega)), overlay_outside (.inr (by omega)),
          Function.update_of_ne heq]

end Framework.Buffer
