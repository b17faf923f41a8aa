import Sdfirm.Spec.Mtd
import Sdfirm.Proof.Framework.Interleave

/-!
# Where the bytes of a concatenated device lie

`mtdConcatDevices_spec` is what `mtd_concat_devices` checks. With `2 ^ k` devices
the chip is the lane of the address (`chipId_eq_lane`).
-/

namespace Sdfirm.Mtd

open Framework Interleave

variable {t t' : MtdDevs} {c : Concat}

/-! ## The devices taken -/

/-- The devices of the loop are distinct and like the first. -/
theorem concatLoop_spec {first : MtdInfo} {ds : List Nat} {m r : Nat} (hm : m < 2 ^ 32)
    (h : concatLoop first ds t m = some (r, t')) :
    ds.Nodup ∧ (∀ d ∈ ds, t.subdev d = false ∧ t.info d = some first) ∧
      r = (m + ds.length * first.nrPages) % 2 ^ 32 := by
  induction ds generalizing t m with
  | nil =>
    simp only [concatLoop, Option.some.injEq, Prod.mk.injEq] at h
    refine ⟨List.nodup_nil, by simp, ?_⟩
    rw [← h.1, List.length_nil, Nat.zero_mul, Nat.add_zero, Nat.mod_eq_of_lt hm]
  | cons d ds ih =>
    simp only [concatLoop, Option.bind_eq_bind, Option.bind_eq_some_iff] at h
    obtain ⟨info, hinfo, h⟩ := h
    split at h
    · cases h
    rename_i hok
    push Not at hok
    obtain ⟨hnew, horder, hpages⟩ := hok
    obtain ⟨hnodup, hds, hr⟩ := ih (Nat.mod_lt _ (by decide)) h
    have heq : info = first := by
      cases info
      cases first
      simp_all
    refine ⟨List.nodup_cons.mpr ⟨fun hmem => ?_, hnodup⟩, fun x hx => ?_, ?_⟩
    -- A device that comes again would have been marked by the first time.
    · have hmark := (hds d hmem).1
      simp at hmark
    · rcases List.mem_cons.mp hx with rfl | hx
      · exact ⟨by simpa using hnew, by rw [hinfo, heq]⟩
      · obtain ⟨hsub, hinf⟩ := hds x hx
        refine ⟨?_, hinf⟩
        by_cases hxd : x = d
        · rw [hxd]
          simpa using hnew
        · simpa [Function.update_of_ne hxd] using hsub
    · rw [hr, heq, Nat.mod_add_mod, List.length_cons, Nat.add_mul, Nat.one_mul]
      congr 1
      omega

theorem mtdConcatDevices_spec {blockRw : Bool} {devs : List Nat}
    (h : mtdConcatDevices blockRw t devs = some (c, t')) :
    ∃ N, c.devs = devs ∧ devs.Nodup ∧ 0 < devs.length ∧ (∀ d ∈ devs, t.info d = some ⟨c.pageorder, N⟩) ∧
      c.nrPages = (devs.length * N) % 2 ^ 32 := by
  simp only [mtdConcatDevices, Option.bind_eq_bind, Option.bind_eq_some_iff, Option.pure_def, Option.some.injEq,
    Prod.mk.injEq] at h
  obtain ⟨d, hd, first, hfirst, ⟨r, u⟩, hloop, rfl, rfl⟩ := h
  obtain ⟨hnodup, hds, hr⟩ := concatLoop_spec (by decide) hloop
  refine ⟨first.nrPages, rfl, hnodup, List.length_pos_of_mem (List.mem_of_mem_head? hd), fun d hd => (hds d hd).2, ?_⟩
  rw [Nat.zero_add] at hr
  exact hr

/-! ## A power of two of devices -/

/-- With a power of two of devices the chip is the lane of the address. -/
theorem chipId_eq_lane {k a : Nat} (hlen : c.nrDevs < 2 ^ 8) (hk : c.nrDevs = 2 ^ k) :
    c.chipId a = c.devs[lane c.nrDevs (2 ^ c.pageorder) a]? := by
  have hpos : 0 < c.nrDevs := by
    rw [hk]
    exact Nat.two_pow_pos k
  have hlt := lane_lt (P := 2 ^ c.pageorder) (a := a) hpos
  have hi : (a >>> c.pageorder &&& (c.nrDevs - 1)) % 2 ^ 8 = lane c.nrDevs (2 ^ c.pageorder) a := by
    rw [lane, hk, Nat.and_two_pow_sub_one_eq_mod, Nat.shiftRight_eq_div_pow, ← hk]
    exact Nat.mod_eq_of_lt (lt_trans hlt hlen)
  simp only [Concat.chipId, hi, if_neg (not_le.mpr hlt)]

/-- The offset in the page and the bits above it. -/
theorem chipAddr_pow {k a : Nat} (hk : c.nrDevs = 2 ^ k) :
    c.chipAddr a = a % 2 ^ c.pageorder ||| a / 2 ^ (c.pageorder + k) * 2 ^ (c.pageorder + k) / 2 ^ (2 ^ k - 1) := by
  simp only [Concat.chipAddr, mtdPageOffset, hk, Nat.log2_two_pow, Nat.shiftRight_eq_div_pow, Nat.shiftLeft_eq,
    Nat.one_mul, Nat.and_two_pow_sub_one_eq_mod]

end Sdfirm.Mtd
