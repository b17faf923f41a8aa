import Sdfirm.Proof.Framework.Runs
import Sdfirm.Proof.Mtd.Layout

/-!
# What `mtd_concat_erase` erases

All calls of `mtd_erase` are for the device of the first address, and for as many
bytes as the range has (`concatErase_spec`). So the range is erased only if it is
on that device, and its bytes are distinct (`onOneDevice_of_erases`). There the
addresses of an erase unit are a unit of the device (`chipAddr_unit`), and the
loop erases one after the other (`concatErase_units`).
-/

namespace Sdfirm.Mtd

open Framework Interleave
open Fuel (Returns)

variable {t : MtdDevs} {c : Concat} {eraseorder : Nat → Nat} {lastCid addr : Nat}

/-! ## The calls -/

theorem eraseStep_spec {offset length : Nat} {e : Erase}
    (h : eraseStep c t eraseorder lastCid addr offset length = some e) :
    c.chipId addr = some e.mtd ∧ e.mtd < lastCid ∧ e.size ≤ length := by
  obtain ⟨mtd, hmtd, h⟩ := Option.bind_eq_some_iff.mp h
  split at h
  · cases h
  · rename_i hlt
    obtain ⟨_, _, h⟩ := Option.bind_eq_some_iff.mp h
    cases h
    exact ⟨hmtd, not_le.mp hlt, Nat.min_le_left _ _⟩

/-- The calls are for one device, and for all bytes of the range together. -/
theorem concatErase_spec (steps : Nat) : ∀ {offset length : Nat} {es : List Erase},
    concatErase c t eraseorder lastCid addr steps offset length = some es →
    (length ≠ 0 → ∃ d < lastCid, c.chipId addr = some d) ∧ (∀ e ∈ es, c.chipId addr = some e.mtd) ∧
      (es.flatMap Erase.bytes).length = length := by
  induction steps with
  | zero =>
    intro offset length es h
    cases h
  | succ steps ih =>
    intro offset length es h
    rw [concatErase] at h
    split at h
    · rename_i h0
      cases h
      exact ⟨fun hne => absurd h0 hne, by simp, h0.symm⟩
    · obtain ⟨e, he, h⟩ := Option.bind_eq_some_iff.mp h
      obtain ⟨es', hes, h⟩ := Option.bind_eq_some_iff.mp h
      cases h
      obtain ⟨hid, hlt, hsize⟩ := eraseStep_spec he
      obtain ⟨-, hall, hlen⟩ := ih hes
      refine ⟨fun _ => ⟨e.mtd, hlt, hid⟩, fun e' he' => ?_, ?_⟩
      · rcases List.mem_cons.mp he' with rfl | he'
        · exact hid
        · exact hall e' he'
      · rw [List.flatMap_cons, List.length_append, hlen, Erase.bytes, List.length_map, List.length_range']
        omega

/-- A range that is erased is on one device: there are only as many bytes erased as the range has addresses. -/
theorem onOneDevice_of_erases {steps length : Nat} {es : List Erase} (hne : length ≠ 0)
    (h : concatErase c t eraseorder lastCid addr steps 0 length = some es) (hes : ErasesOnce c es addr length)
    (hsome : ∀ a, (c.chipId a).isSome) : OnOneDevice c lastCid addr length := by
  obtain ⟨hfirst, hall, hlen⟩ := concatErase_spec steps h
  obtain ⟨d, hd, hid⟩ := hfirst hne
  have hdev : ∀ a, addr ≤ a → a < addr + length → c.chipId a = some d := by
    intro a ha hlt
    obtain ⟨d', hd'⟩ := Option.isSome_iff_exists.mp (hsome a)
    have hmem := (hes.exact d' (c.chipAddr a)).mpr ⟨a, ha, hlt, by rw [Concat.place, hd']⟩
    obtain ⟨e, he, hx⟩ := List.mem_flatMap.mp hmem
    obtain ⟨x, _, hx⟩ := List.mem_map.mp hx
    rw [hd', ← (Prod.mk.inj hx).1, ← hall e he, hid]
  refine ⟨⟨d, hd, hdev⟩, ?_⟩
  -- the erased bytes are the image of the range, and they are as many as its addresses
  have himage : (es.flatMap Erase.bytes).toFinset = (Finset.Ico addr (addr + length)).image fun a => (d, c.chipAddr a) := by
    ext ⟨d', x⟩
    rw [List.mem_toFinset, hes.exact, Finset.mem_image]
    constructor
    · rintro ⟨a, ha, hlt, hplace⟩
      obtain ⟨hid', hx⟩ := Prod.mk.inj hplace
      rw [hdev a ha hlt] at hid'
      exact ⟨a, Finset.mem_Ico.mpr ⟨ha, hlt⟩, Prod.ext (Option.some.inj hid') hx⟩
    · rintro ⟨a, ha, hax⟩
      obtain ⟨ha, hlt⟩ := Finset.mem_Ico.mp ha
      obtain ⟨rfl, rfl⟩ := Prod.mk.inj hax
      exact ⟨a, ha, hlt, by rw [Concat.place, hdev a ha hlt]⟩
  have hcard := List.toFinset_card_of_nodup hes.once
  rw [himage, hlen] at hcard
  have hinj := Finset.card_image_iff.mp (hcard.trans (by rw [Nat.card_Ico, Nat.add_sub_cancel_left]))
  intro a b ha hlta hb hltb hab
  exact hinj (Finset.mem_coe.mpr (Finset.mem_Ico.mpr ⟨ha, hlta⟩)) (Finset.mem_coe.mpr (Finset.mem_Ico.mpr ⟨hb, hltb⟩))
    (congrArg (Prod.mk d) hab)

/-! ## Erase units -/

/-- Below the bits of both an offset is kept. -/
theorem add_or_of_dvd {E v m j : Nat} (hv : 2 ^ E ∣ v) (hm : 2 ^ E ∣ m) (hj : j < 2 ^ E) :
    2 ^ E ∣ (v ||| m) ∧ (v + j) ||| m = (v ||| m) + j := by
  obtain ⟨v, rfl⟩ := hv
  obtain ⟨m, rfl⟩ := hm
  have hor : 2 ^ E * v ||| 2 ^ E * m = 2 ^ E * (v ||| m) := by
    simp only [Nat.mul_comm (2 ^ E), ← Nat.shiftLeft_eq]
    exact Nat.shiftLeft_or_distrib.symm
  refine ⟨Dvd.intro _ hor.symm, ?_⟩
  rw [hor, Nat.two_pow_add_eq_or_of_lt hj, Nat.two_pow_add_eq_or_of_lt hj, ← hor, Nat.or_assoc, Nat.or_comm j, Nat.or_assoc]

/-- An `or` with a bit below `2 ^ E` does not keep apart all offsets. -/
theorem exists_or_eq {E v m : Nat} (hv : 2 ^ E ∣ v) (hm : ¬2 ^ E ∣ m) :
    ∃ j, 0 < j ∧ j < 2 ^ E ∧ (v + j) ||| m = v ||| m := by
  obtain ⟨i, hi⟩ := Nat.exists_testBit_of_ne_zero fun h0 => hm (Nat.dvd_of_mod_eq_zero h0)
  rw [Nat.testBit_mod_two_pow, Bool.and_eq_true, decide_eq_true_iff] at hi
  obtain ⟨v, rfl⟩ := hv
  have hlt : 2 ^ i < 2 ^ E := Nat.pow_lt_pow_right (by decide) hi.1
  refine ⟨2 ^ i, Nat.two_pow_pos i, hlt, ?_⟩
  have hbit : 2 ^ i ||| m = m := by
    apply Nat.eq_of_testBit_eq
    intro b
    rw [Nat.testBit_or, Nat.testBit_two_pow]
    by_cases hb : i = b
    · rw [← hb, hi.2, Bool.or_true]
    · rw [decide_eq_false hb, Bool.false_or]
  rw [Nat.two_pow_add_eq_or_of_lt hlt, Nat.or_assoc, hbit]

theorem chipAddr_one (hk : c.nrDevs = 2 ^ 0) (a : Nat) : c.chipAddr a = a := by
  rw [chipAddr_pow hk]
  show a % 2 ^ c.pageorder ||| a / 2 ^ c.pageorder * 2 ^ c.pageorder / 2 ^ 0 = a
  rw [Nat.pow_zero, Nat.div_one, Nat.or_comm, Nat.mul_comm,
    ← Nat.two_pow_add_eq_or_of_lt (Nat.mod_lt a (Nat.two_pow_pos _)), Nat.div_add_mod]

/-- An erase unit of addresses on one device, with distinct bytes, is an erase unit of the device. -/
theorem chipAddr_unit {k E u d : Nat} (hlen : c.nrDevs < 2 ^ 8) (hk : c.nrDevs = 2 ^ k) (hnodup : c.devs.Nodup)
    (hu : 2 ^ E ∣ u) (hdev : ∀ j < 2 ^ E, c.chipId (u + j) = some d)
    (hinj : ∀ j < 2 ^ E, c.chipAddr (u + j) = c.chipAddr u → j = 0) :
    2 ^ E ∣ c.chipAddr u ∧ ∀ j < 2 ^ E, c.chipAddr (u + j) = c.chipAddr u + j := by
  have hE := Nat.two_pow_pos E
  have hP := Nat.two_pow_pos c.pageorder
  rcases Nat.eq_zero_or_pos k with rfl | hk0
  · simp only [chipAddr_one hk]
    exact ⟨hu, fun _ _ => trivial⟩
  · have hn : 2 ≤ c.nrDevs := by
      rw [hk]
      exact Nat.pow_le_pow_right (by decide : 0 < 2) hk0
    -- the unit is in one page, so it is not longer than a page
    have hlane : ∀ j < 2 ^ E, lane c.nrDevs (2 ^ c.pageorder) (u + j) = lane c.nrDevs (2 ^ c.pageorder) u := by
      intro j hj
      have h0 := hdev 0 hE
      have hj := hdev j hj
      rw [chipId_eq_lane hlen hk] at h0 hj
      exact (List.getElem?_inj (lane_lt (by omega : 0 < c.nrDevs)) hnodup).mp (hj.trans h0.symm)
    have hdiv : ∀ j < 2 ^ E, (u + j) / 2 ^ c.pageorder = u / 2 ^ c.pageorder := fun j hj =>
      div_eq_of_lane_eq hn hP fun i hi => hlane i (lt_of_le_of_lt hi hj)
    have hle : E ≤ c.pageorder := by
      by_contra hgt
      have hpage := hdiv (2 ^ c.pageorder) (Nat.pow_lt_pow_right (by decide) (not_le.mp hgt))
      rw [Nat.add_div_right _ hP] at hpage
      omega
    have hmod : ∀ j < 2 ^ E, (u + j) % 2 ^ c.pageorder = u % 2 ^ c.pageorder + j := by
      intro j hj
      have h1 := Nat.div_add_mod (u + j) (2 ^ c.pageorder)
      have h2 := Nat.div_add_mod u (2 ^ c.pageorder)
      rw [hdiv j hj] at h1
      omega
    have haddr : ∀ j < 2 ^ E, c.chipAddr (u + j) =
        (u % 2 ^ c.pageorder + j) ||| u / 2 ^ (c.pageorder + k) * 2 ^ (c.pageorder + k) / 2 ^ (2 ^ k - 1) := by
      intro j hj
      have hhigh : (u + j) / 2 ^ (c.pageorder + k) = u / 2 ^ (c.pageorder + k) := by
        rw [Nat.pow_add, ← Nat.div_div_eq_div_mul, hdiv j hj, Nat.div_div_eq_div_mul]
      rw [chipAddr_pow hk, hmod j hj, hhigh]
    have h0 := haddr 0 hE
    rw [Nat.add_zero, Nat.add_zero] at h0
    have hv : 2 ^ E ∣ u % 2 ^ c.pageorder := (Nat.dvd_mod_iff (Nat.pow_dvd_pow 2 hle)).mpr hu
    -- the bits that are put into the page offset are not bits of the unit's offset
    have hm : 2 ^ E ∣ u / 2 ^ (c.pageorder + k) * 2 ^ (c.pageorder + k) / 2 ^ (2 ^ k - 1) := by
      by_contra hm
      obtain ⟨j, hpos, hlt, heq⟩ := exists_or_eq hv hm
      rw [← haddr j hlt, ← h0] at heq
      exact hpos.ne' (hinj j hlt heq)
    rw [h0]
    refine ⟨(add_or_of_dvd hv hm hE).1, fun j hj => ?_⟩
    rw [haddr j hj]
    exact (add_or_of_dvd hv hm hj).2

/-! ## The loop over the units -/

theorem concatErase_zero (steps offset : Nat) : concatErase c t eraseorder lastCid addr (steps + 1) offset 0 = some [] := by
  rw [concatErase, if_pos rfl]

/-- An offset that wraps around is the end of the range. -/
theorem concatErase_mod {offset length : Nat} (h : offset + length ≤ 2 ^ 32) (steps : Nat) :
    concatErase c t eraseorder lastCid addr steps (offset % 2 ^ 32) length =
      concatErase c t eraseorder lastCid addr steps offset length := by
  rcases Nat.lt_or_ge offset (2 ^ 32) with hlt | hge
  · rw [Nat.mod_eq_of_lt hlt]
  · obtain rfl : length = 0 := by omega
    cases steps with
    | zero => rfl
    | succ steps => rw [concatErase_zero, concatErase_zero]

section Units

variable {d : Nat} {info : MtdInfo} (hd : d < lastCid) (hinfo : t.info d = some info) (hid : c.chipId addr = some d)
include hd hinfo hid

theorem eraseStep_unit {offset length : Nat} (hlen : 2 ^ eraseorder d ≤ length) (h32 : addr + offset < 2 ^ 32)
    (hdvd : 2 ^ eraseorder d ∣ c.chipAddr (addr + offset)) :
    eraseStep c t eraseorder lastCid addr offset length = some ⟨d, c.chipAddr (addr + offset), 2 ^ eraseorder d⟩ := by
  have hoffset : mtdPageOffset (c.chipAddr (addr + offset)) (eraseorder d) = 0 := by
    rw [mtdPageOffset, Nat.one_shiftLeft, Nat.and_two_pow_sub_one_eq_mod]
    exact Nat.mod_eq_zero_of_dvd hdvd
  have hsize : min length (mtdPageSize (eraseorder d) - 0) = 2 ^ eraseorder d := by
    rw [mtdPageSize, Nat.one_shiftLeft, Nat.sub_zero]
    exact Nat.min_eq_right hlen
  show (c.chipId addr).bind _ = _
  rw [hid, Option.bind_some, if_neg (not_le.mpr hd)]
  show (t.info d).bind _ = _
  rw [hinfo, Option.bind_some, Nat.mod_eq_of_lt h32]
  simp only [hoffset, hsize]
  rfl

/-- The loop erases unit after unit. -/
theorem concatErase_units (n : Nat) : ∀ i, addr + (i + n) * 2 ^ eraseorder d ≤ 2 ^ 32 →
    (∀ m, i ≤ m → m < i + n → 2 ^ eraseorder d ∣ c.chipAddr (addr + m * 2 ^ eraseorder d) ∧
      ∀ j < 2 ^ eraseorder d, c.chipAddr (addr + m * 2 ^ eraseorder d + j) = c.chipAddr (addr + m * 2 ^ eraseorder d) + j) →
    ∃ es, Returns (fun steps => concatErase c t eraseorder lastCid addr steps (i * 2 ^ eraseorder d) (n * 2 ^ eraseorder d)) es ∧
      es.flatMap Erase.bytes =
        (List.range' (addr + i * 2 ^ eraseorder d) (n * 2 ^ eraseorder d)).map fun a => (d, c.chipAddr a) := by
  have hE := Nat.two_pow_pos (eraseorder d)
  induction n with
  | zero =>
    intro i _ _
    refine ⟨[], Returns.of_step (g := fun _ => some []) (fun steps => ?_) (Returns.of_eq fun _ => rfl), ?_⟩
    · rw [Nat.zero_mul, concatErase_zero]
    · rw [Nat.zero_mul]
      rfl
  | succ n ih =>
    intro i h32 hunit
    have hsum : i + 1 + n = i + (n + 1) := by omega
    obtain ⟨es, hes, hbytes⟩ := ih (i + 1) (by rwa [hsum]) fun m hm hlt => hunit m (by omega) (by omega)
    obtain ⟨hdvd, hlin⟩ := hunit i le_rfl (by omega)
    have hend : (i + 1) * 2 ^ eraseorder d + n * 2 ^ eraseorder d ≤ 2 ^ 32 := by
      rw [← Nat.add_mul, hsum]
      omega
    have hlt : addr + i * 2 ^ eraseorder d < 2 ^ 32 := by
      rw [Nat.add_mul i 1, Nat.one_mul] at hend
      rw [Nat.add_mul] at h32
      have hpos : 0 < (n + 1) * 2 ^ eraseorder d := Nat.mul_pos n.succ_pos hE
      omega
    have hle : 2 ^ eraseorder d ≤ (n + 1) * 2 ^ eraseorder d := Nat.le_mul_of_pos_left _ n.succ_pos
    refine ⟨⟨d, c.chipAddr (addr + i * 2 ^ eraseorder d), 2 ^ eraseorder d⟩ :: es, ?_, ?_⟩
    · apply Returns.of_step (g := fun steps => (concatErase c t eraseorder lastCid addr steps ((i + 1) * 2 ^ eraseorder d)
        (n * 2 ^ eraseorder d)).bind fun es => some (⟨d, c.chipAddr (addr + i * 2 ^ eraseorder d), 2 ^ eraseorder d⟩ :: es))
      · intro steps
        rw [concatErase, if_neg (by omega)]
        show (eraseStep c t eraseorder lastCid addr (i * 2 ^ eraseorder d) ((n + 1) * 2 ^ eraseorder d)).bind _ = _
        rw [eraseStep_unit hd hinfo hid hle hlt hdvd, Option.bind_some, Nat.succ_mul n, Nat.add_sub_cancel, ← Nat.succ_mul,
          concatErase_mod hend]
        rfl
      · exact hes.bind (Returns.of_eq fun _ => rfl)
    · -- the bytes of the unit come first in the range
      have hfirst : Erase.bytes ⟨d, c.chipAddr (addr + i * 2 ^ eraseorder d), 2 ^ eraseorder d⟩ =
          (List.range' (addr + i * 2 ^ eraseorder d) (2 ^ eraseorder d)).map fun a => (d, c.chipAddr a) := by
        rw [Erase.bytes, List.range'_eq_map_range, List.range'_eq_map_range (s := addr + i * 2 ^ eraseorder d),
          List.map_map, List.map_map]
        apply List.map_congr_left
        intro j hj
        exact congrArg (Prod.mk d) (hlin j (List.mem_range.mp hj)).symm
      rw [List.flatMap_cons, hbytes, hfirst, ← List.map_append, Nat.succ_mul i, ← Nat.add_assoc, List.range'_append_1,
        Nat.succ_mul n, Nat.add_comm (2 ^ eraseorder d)]

end Units

/-! ## The erase of a range -/

/-- A group has whole units of its device. -/
theorem dvd_eraseGroup (c : Concat) (order : Nat) : 2 ^ order ∣ c.eraseGroup order := by
  rw [Concat.eraseGroup]
  split
  · exact Dvd.intro_left _ rfl
  · exact dvd_rfl

/-- A range on one device, with distinct bytes, is erased. -/
theorem erases_of_onOneDevice {k N length : Nat} (hlen : c.nrDevs < 2 ^ 8) (hk : c.nrDevs = 2 ^ k) (hnodup : c.devs.Nodup)
    (hinfo : ∀ d ∈ c.devs, t.info d = some ⟨c.pageorder, N⟩) (hrange : EraseRange t c eraseorder addr length)
    (hne : length ≠ 0) (h : OnOneDevice c lastCid addr length) :
    ∃ es, Returns (fun steps => concatErase c t eraseorder lastCid addr steps 0 length) es ∧ ErasesOnce c es addr length := by
  obtain ⟨⟨d, hd, hdev⟩, hinj⟩ := h
  have hid := hdev addr le_rfl (by omega)
  have hmem : d ∈ c.devs := by
    rw [chipId_eq_lane hlen hk] at hid
    exact List.mem_of_getElem? hid
  have haddr := (dvd_eraseGroup c (eraseorder d)).trans (hrange.first d hmem)
  obtain ⟨n, rfl⟩ := (dvd_eraseGroup c (eraseorder d)).trans (hrange.last d hmem)
  have h32 := hrange.addressed
  rw [Nat.mul_comm] at hdev hinj h32 ⊢
  have hunit : ∀ m, 0 ≤ m → m < 0 + n → 2 ^ eraseorder d ∣ c.chipAddr (addr + m * 2 ^ eraseorder d) ∧
      ∀ j < 2 ^ eraseorder d, c.chipAddr (addr + m * 2 ^ eraseorder d + j) = c.chipAddr (addr + m * 2 ^ eraseorder d) + j := by
    intro m _ hm
    have hin : m * 2 ^ eraseorder d + 2 ^ eraseorder d ≤ n * 2 ^ eraseorder d := by
      rw [← Nat.succ_mul]
      exact Nat.mul_le_mul_right _ (by omega)
    apply chipAddr_unit hlen hk hnodup (Nat.dvd_add haddr (Nat.dvd_mul_left _ _))
    · intro j hj
      exact hdev _ (by omega) (by omega)
    · intro j hj heq
      have := hinj _ _ (by omega) (by omega) (by omega) (by omega) heq
      omega
  obtain ⟨es, hes, hbytes⟩ := concatErase_units hd (hinfo d hmem) hid n 0 (by rwa [Nat.zero_add]) hunit
  rw [Nat.zero_mul, Nat.add_zero] at hbytes
  simp only [Nat.zero_mul] at hes
  refine ⟨es, hes, ?_, fun d' x => ?_⟩
  · rw [hbytes]
    apply List.Nodup.map_on ?_ (List.nodup_range' ..)
    intro a ha b hb heq
    rw [List.mem_range'_1] at ha hb
    exact hinj a b ha.1 ha.2 hb.1 hb.2 (Prod.mk.inj heq).2
  · rw [hbytes, List.mem_map]
    constructor
    · rintro ⟨a, ha, hax⟩
      rw [List.mem_range'_1] at ha
      obtain ⟨rfl, rfl⟩ := Prod.mk.inj hax
      exact ⟨a, ha.1, ha.2, by rw [Concat.place, hdev a ha.1 ha.2]⟩
    · rintro ⟨a, ha, hlt, hplace⟩
      obtain ⟨hid', hx⟩ := Prod.mk.inj hplace
      rw [hdev a ha hlt] at hid'
      exact ⟨a, List.mem_range'_1.mpr ⟨ha, hlt⟩, Prod.ext (Option.some.inj hid') hx⟩

theorem erases_empty :
    ∃ es, Returns (fun steps => concatErase c t eraseorder lastCid addr steps 0 0) es ∧ ErasesOnce c es addr 0 := by
  refine ⟨[], Returns.of_step (g := fun _ => some []) (concatErase_zero · 0) (Returns.of_eq fun _ => rfl), ?_, ?_⟩
  · exact List.nodup_nil
  · intro d x
    constructor
    · intro hmem
      cases hmem
    · intro ⟨a, ha, hlt, _⟩
      omega

/-- `mtd_concat_erase` returns and erases a range of whole erase groups if it is empty or on one device. -/
theorem erases_once_iff {t t' : MtdDevs} {c : Concat} {blockRw : Bool} {devs : List Nat} {k : Nat}
    (h : mtdConcatDevices blockRw t devs = some (c, t')) (hlen : devs.length < 2 ^ 8) (hk : devs.length = 2 ^ k)
    (eraseorder : Nat → Nat) (lastCid addr length : Nat) (hrange : EraseRange t c eraseorder addr length) :
    (∃ es, Returns (fun steps => concatErase c t eraseorder lastCid addr steps 0 length) es ∧ ErasesOnce c es addr length) ↔
      length = 0 ∨ OnOneDevice c lastCid addr length := by
  obtain ⟨N, rfl, hnodup, hpos, hinfo, -⟩ := mtdConcatDevices_spec h
  rcases Nat.eq_zero_or_pos length with rfl | hne
  · exact iff_of_true erases_empty (Or.inl rfl)
  constructor
  · intro ⟨es, ⟨n, hn⟩, hes⟩
    right
    apply onOneDevice_of_erases hne.ne' (hn n le_rfl) hes
    intro a
    rw [chipId_eq_lane hlen hk, Option.isSome_iff_exists]
    exact ⟨_, List.getElem?_eq_getElem (lane_lt hpos)⟩
  · intro hor
    exact erases_of_onOneDevice hlen hk hnodup hinfo hrange hne.ne' (hor.resolve_left hne.ne')

/-- Devices of 64 pages of 256 bytes -/
def devs64 : MtdDevs := ⟨fun d => if d < 2 then some ⟨8, 64⟩ else none, fun _ => false⟩

/-- One device, with erase units of 4096 bytes, as a concatenated device -/
theorem erases_once_one_device :
    ∃ es, Returns (fun steps => concatErase ⟨[0], 8, 64, false⟩ devs64 (fun _ => 12) 2 4096 steps 0 8192) es ∧
      ErasesOnce ⟨[0], 8, 64, false⟩ es 4096 8192 := by
  have hid : ∀ a, Concat.chipId ⟨[0], 8, 64, false⟩ a = some 0 := by
    intro a
    rw [chipId_eq_lane (k := 0) (by decide) rfl]
    show [0][a / 256 % 1]? = some 0
    rw [Nat.mod_one]
    rfl
  apply (@erases_once_iff devs64 _ ⟨[0], 8, 64, false⟩ false [0] 0 rfl (by decide) rfl (fun _ => 12) 2 4096 8192
    ⟨by decide, by decide, by decide, by decide⟩).mpr
  refine Or.inr ⟨⟨0, by decide, fun a _ _ => hid a⟩, fun a b _ _ _ _ hab => ?_⟩
  rwa [chipAddr_one rfl, chipAddr_one rfl] at hab

/-- With two devices, the erase of the first group erases the first device alone, and some of its bytes again. -/
theorem second_device_not_erased :
    ∃ c t' es, mtdConcatDevices false devs64 [0, 1] = some (c, t') ∧ EraseRange devs64 c (fun _ => 12) 0 8192 ∧
      concatErase c devs64 (fun _ => 12) 2 0 10 0 8192 = some es ∧ (∀ e ∈ es, e.mtd = 0) ∧ c.place 256 = (some 1, 0) ∧
      ¬ErasesOnce c es 0 8192 := by
  refine ⟨⟨[0, 1], 8, 128, false⟩, _, [⟨0, 0, 4096⟩, ⟨0, 2048, 2048⟩, ⟨0, 3072, 1024⟩, ⟨0, 3584, 512⟩, ⟨0, 3840, 256⟩,
    ⟨0, 3840, 256⟩], rfl, ⟨by decide, by decide, by decide, by decide⟩, by decide, by decide, by decide, fun h => ?_⟩
  obtain ⟨e, he, hx⟩ := List.mem_flatMap.mp ((h.exact 1 0).mpr ⟨256, by decide, by decide, by decide⟩)
  obtain ⟨x, _, hx⟩ := List.mem_map.mp hx
  have hall : ∀ e ∈ ([⟨0, 0, 4096⟩, ⟨0, 2048, 2048⟩, ⟨0, 3072, 1024⟩, ⟨0, 3584, 512⟩, ⟨0, 3840, 256⟩, ⟨0, 3840, 256⟩] : List Erase),
      e.mtd ≠ 1 := by
    decide
  exact hall e he (Prod.mk.inj hx).1

end Sdfirm.Mtd
