import Mathlib

/-!
# Data cut into packets

`Packets size zlp d ps` says that `ps` is the way to send the data `d` in
packets of at most `size`, where a packet that is not full tells the receiver
that it is the last one. If `zlp` is set there always is such a packet, which
may be empty; otherwise the receiver knows the length and the last packet may
be full. The data, the sizes and the empty packet at the end can be read off
`ps` (`flatten_eq`, `full`, `trailing`). `of_full` and `of_full_append` build
the packets from what a sender has collected.
-/

namespace Framework

variable {α : Type}

inductive Packets (size : Nat) (zlp : Bool) : List α → List (List α) → Prop
  | last {d : List α} : d.length < size → Packets size zlp d [d]
  | exact {d : List α} : zlp = false → d.length = size → Packets size zlp d [d]
  | cons {d : List α} {ps : List (List α)} : size ≤ d.length → (zlp = true ∨ size < d.length) →
    Packets size zlp (d.drop size) ps → Packets size zlp d (d.take size :: ps)

namespace Packets

variable {size : Nat} {zlp : Bool} {d : List α} {ps : List (List α)}

theorem ne_nil (h : Packets size zlp d ps) : ps ≠ [] := by
  cases h <;> exact List.cons_ne_nil _ _

theorem flatten_eq (h : Packets size zlp d ps) : ps.flatten = d := by
  induction h with
  | last _ => exact List.flatten_singleton
  | exact _ _ => exact List.flatten_singleton
  | cons _ _ _ ih => rw [List.flatten_cons, ih, List.take_append_drop]

theorem full (h : Packets size zlp d ps) : ∀ p ∈ ps.dropLast, p.length = size := by
  induction h with
  | last _ => nofun
  | exact _ _ => nofun
  | cons hle _ h ih =>
    intro p hp
    rw [List.dropLast_cons_of_ne_nil h.ne_nil, List.mem_cons] at hp
    obtain rfl | hp := hp
    · exact List.length_take_of_le hle
    · exact ih p hp

/-- There is one way to send the data. -/
theorem unique {ps' : List (List α)} (h : Packets size zlp d ps) (h' : Packets size zlp d ps') : ps = ps' := by
  induction h generalizing ps' with
  | last hlt =>
    cases h' with
    | last _ => rfl
    | exact _ _ => rfl
    | cons hle _ _ => omega
  | exact hz heq =>
    cases h' with
    | last _ => rfl
    | exact _ _ => rfl
    | cons _ hmore _ =>
      obtain hz' | hlt := hmore
      · simp [hz] at hz'
      · omega
  | cons hle hmore _ ih =>
    cases h' with
    | last hlt => omega
    | exact hz heq =>
      obtain hz' | hlt := hmore
      · simp [hz] at hz'
      · omega
    | cons _ _ h' => rw [ih h']

/-- The only packet has all the data, and is not full if the receiver does not know the length. -/
theorem of_singleton {p : List α} (h : Packets size zlp d [p]) : p = d ∧ (zlp = true → d.length < size) := by
  have hp : p = d := by simpa using h.flatten_eq
  refine ⟨hp, fun hz => ?_⟩
  cases h with
  | last hlt => exact hlt
  | exact hz' _ => simp [hz] at hz'
  | cons _ _ h => exact absurd rfl h.ne_nil

/-- There is an empty packet after others exactly if there has to be one after the last full one. -/
theorem trailing (h : Packets size zlp d ps) (hsize : 0 < size) :
    1 < ps.length ∧ ps.getLast? = some [] ↔ zlp = true ∧ 0 < d.length ∧ size ∣ d.length := by
  induction h with
  | last hlt =>
    refine ⟨fun h => absurd h.1 (by simp), fun h => ?_⟩
    have := Nat.le_of_dvd h.2.1 h.2.2
    omega
  | exact hz _ => simp [hz]
  | @cons d ps hle hz h ih =>
    have hpos : 0 < d.length := by omega
    have hdvd : size ∣ d.length ↔ size ∣ (d.drop size).length := by
      rw [List.length_drop]
      constructor
      · exact fun h => Nat.dvd_sub h dvd_rfl
      · intro h
        have := Nat.dvd_add h (dvd_refl size)
        rwa [Nat.sub_add_cancel hle] at this
    obtain ⟨p, hp⟩ | hlong : (∃ p, ps = [p]) ∨ 1 < ps.length := by
      cases hps : ps with
      | nil => exact absurd hps h.ne_nil
      | cons p qs =>
        cases qs with
        | nil => exact .inl ⟨p, rfl⟩
        | cons _ _ => exact .inr (by simp)
    · subst hp
      obtain ⟨rfl, hshort⟩ := of_singleton h
      have hlen : 1 < [d.take size, d.drop size].length := by simp
      simp only [hlen, true_and, hpos]
      rw [hdvd, List.getLast?_cons_cons, List.getLast?_singleton, Option.some.injEq, ← List.length_eq_zero_iff]
      constructor
      · intro he
        refine ⟨hz.resolve_right fun hlt => ?_, he ▸ Nat.dvd_zero size⟩
        rw [List.length_drop] at he
        omega
      · rintro ⟨hz, hd⟩
        exact Nat.eq_zero_of_dvd_of_lt hd (hshort hz)
    · have hlen : 1 < (d.take size :: ps).length := by
        rw [List.length_cons]
        omega
      have hlast : (d.take size :: ps).getLast? = ps.getLast? := by
        obtain ⟨q, qs, rfl⟩ := List.exists_cons_of_ne_nil h.ne_nil
        exact List.getLast?_cons_cons
      rw [hlast, hdvd]
      simp only [hlen, true_and, hpos]
      simp only [hlong, true_and] at ih
      rw [ih]
      refine ⟨fun h => ⟨h.1, h.2.2⟩, fun h' => ⟨h'.1, ?_, h'.2⟩⟩
      -- the rest is not empty, since there is more than one packet for it
      rw [Nat.pos_iff_ne_zero]
      intro h0
      have hnil : d.drop size = [] := List.length_eq_zero_iff.1 h0
      rw [hnil] at h
      cases h with
      | last _ => simp at hlong
      | exact _ _ => simp at hlong
      | cons hle' _ _ => simp at hle'; omega

theorem flatten_length_of_full {cs : List (List α)} (hfull : ∀ c ∈ cs, c.length = size) :
    cs.flatten.length = cs.length * size := by
  induction cs with
  | nil => rw [List.flatten_nil, List.length_nil, List.length_nil, Nat.zero_mul]
  | cons c cs ih =>
    rw [List.flatten_cons, List.length_append, hfull c List.mem_cons_self,
      ih fun c hc => hfull c (List.mem_cons_of_mem _ hc), List.length_cons, Nat.succ_mul, Nat.add_comm]

/-- Full packets before others. -/
theorem full_append {cs : List (List α)} (hfull : ∀ c ∈ cs, c.length = size) (hmore : zlp = true ∨ d ≠ [])
    (h : Packets size zlp d ps) : Packets size zlp (cs.flatten ++ d) (cs ++ ps) := by
  induction cs with
  | nil => exact h
  | cons c cs ih =>
    have hc : c.length = size := hfull c List.mem_cons_self
    have ih := ih fun c hc => hfull c (List.mem_cons_of_mem _ hc)
    have htake : ((c :: cs).flatten ++ d).take size = c := by
      rw [List.flatten_cons, List.append_assoc, List.take_left' hc]
    have hdrop : ((c :: cs).flatten ++ d).drop size = cs.flatten ++ d := by
      rw [List.flatten_cons, List.append_assoc, List.drop_left' hc]
    have hlen : ((c :: cs).flatten ++ d).length = size + (cs.flatten ++ d).length := by
      rw [List.flatten_cons, List.append_assoc, List.length_append, hc]
    rw [← hdrop] at ih
    have hle : size ≤ ((c :: cs).flatten ++ d).length := by omega
    have hres : Packets size zlp ((c :: cs).flatten ++ d) (((c :: cs).flatten ++ d).take size :: (cs ++ ps)) := by
      refine .cons hle (hmore.imp_right fun hd => ?_) ih
      have : 0 < d.length := List.length_pos_iff.2 hd
      rw [hlen, List.length_append]
      omega
    rwa [htake] at hres

/-- Full packets, and then one that is not. -/
theorem of_full_append {cs : List (List α)} (hfull : ∀ c ∈ cs, c.length = size) (hd : d.length < size)
    (hmore : zlp = true ∨ d ≠ [] ∨ cs = []) : Packets size zlp (cs.flatten ++ d) (cs ++ [d]) := by
  obtain hz | hne | rfl := hmore
  · exact full_append hfull (.inl hz) (.last hd)
  · exact full_append hfull (.inr hne) (.last hd)
  · exact .last hd

/-- Full packets only. -/
theorem of_full {cs : List (List α)} (hfull : ∀ c ∈ cs, c.length = size) (hcs : cs ≠ []) (hsize : 0 < size) :
    Packets size false cs.flatten cs := by
  rw [← List.dropLast_append_getLast hcs, List.flatten_append, List.flatten_singleton]
  have hlast : (cs.getLast hcs).length = size := hfull _ (List.getLast_mem hcs)
  refine full_append (fun c hc => hfull c (List.mem_of_mem_dropLast hc)) (.inr ?_) (.exact rfl hlast)
  rw [← List.length_pos_iff, hlast]
  exact hsize

end Packets

end Framework
