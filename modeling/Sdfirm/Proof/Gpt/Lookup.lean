import Mathlib
import Sdfirm.Spec.Gpt

/-!
# The lookup of a partition

`check_name` compares lower halves and wants a NUL (`gptEntryCheckName_eq_zero_iff`), so the search stops
at the first entry that `Hits`, with no empty entry before it (`searchEntries_eq_some_iff`).
That is the entry to be found if the entries are clear, by induction on the
entries before it (`skipped_iff`).
-/

namespace Sdfirm.Gpt

variable {flash : Flash} {name : Name} {e : Entry} {i j n : Nat}

/-! ## Names -/

theorem charAt_eq_zero_iff (hi : i ≤ name.chars.length) : charAt name.chars i = 0 ↔ i = name.chars.length := by
  constructor
  · intro h
    by_contra hne
    have hlt : i < name.chars.length := by omega
    rw [charAt, List.getD_eq_getElem _ _ hlt] at h
    exact name.ne_zero _ (List.getElem_mem hlt) h
  · rintro rfl
    exact List.getD_eq_default _ _ le_rfl

theorem checkName_eq_zero_iff (hi : i ≤ name.chars.length) (hn : i + n = partNameLen) :
    checkName e name.chars n i = 0 ↔
      name.chars.length < partNameLen ∧ ∀ k, i ≤ k → k ≤ name.chars.length → (e.name k).setWidth 8 = charAt name.chars k := by
  induction n generalizing i with
  | zero =>
    refine iff_of_false nofun fun h => ?_
    omega
  | succ n ih =>
    rw [checkName]
    by_cases hend : i = name.chars.length
    · -- The name ends here.
      have hchar : charAt name.chars i = 0 := (charAt_eq_zero_iff hi).mpr hend
      have hall : (∀ k, i ≤ k → k ≤ name.chars.length → (e.name k).setWidth 8 = charAt name.chars k) ↔
          (e.name i).setWidth 8 = (0 : BitVec 8) := by
        constructor
        · intro h
          rw [h i le_rfl hi, hchar]
        · intro h k hlo hhi
          obtain rfl : k = i := by omega
          rw [h, hchar]
      rw [hall, hchar]
      by_cases hlow : (e.name i).setWidth 8 = (0 : BitVec 8)
      · rw [if_pos ⟨rfl, hlow⟩]
        exact iff_of_true rfl ⟨by omega, hlow⟩
      · rw [if_neg fun h => hlow h.2, if_pos (Ne.symm hlow)]
        exact iff_of_false nofun fun h => hlow h.2
    · rw [if_neg fun h => hend ((charAt_eq_zero_iff hi).mp h.1)]
      by_cases hchar : charAt name.chars i = (e.name i).setWidth 8
      · rw [if_neg (not_not.mpr hchar), ih (by omega) (by omega)]
        refine and_congr_right fun _ => ⟨fun h k hlo hhi => ?_, fun h k hlo => h k (by omega)⟩
        obtain rfl | hlt := Nat.eq_or_lt_of_le hlo
        · exact hchar.symm
        · exact h k hlt hhi
      · rw [if_pos hchar]
        exact iff_of_false nofun fun h => hchar (h.2 i le_rfl hi).symm

theorem gptEntryCheckName_eq_zero_iff : gptEntryCheckName e name.chars = 0 ↔ name.chars.length < partNameLen ∧ LowEq e name := by
  rw [gptEntryCheckName, checkName_eq_zero_iff (Nat.zero_le _) (Nat.zero_add _)]
  refine and_congr_right fun hlt => ⟨fun h k _ hk => h k (Nat.zero_le k) hk, fun h k _ hk => h k (by omega) hk⟩

theorem NameEq.lowEq (h : NameEq e name) : LowEq e name := by
  intro k hk hle
  rw [h k hk hle, BitVec.setWidth_setWidth_of_le _ (by decide), BitVec.setWidth_eq]

/-- An entry that is not confused is found by its name. -/
theorem checkName_iff_of_not_confused (h : ¬Confused e name) : gptEntryCheckName e name.chars = 0 ↔ NameEq e name := by
  obtain ⟨hfull, hlow⟩ := not_or.mp h
  rw [gptEntryCheckName_eq_zero_iff]
  constructor
  · rintro ⟨hlt, hlow'⟩
    exact not_not.mp fun hne => hlow ⟨hlt, hlow', hne⟩
  · intro hname
    refine ⟨lt_of_le_of_ne name.length_le fun heq => hfull ⟨heq, hname⟩, hname.lowEq⟩

theorem checkName_iff_of_confused (h : Confused e name) : gptEntryCheckName e name.chars = 0 ↔ ¬NameEq e name := by
  rw [gptEntryCheckName_eq_zero_iff]
  obtain ⟨hlen, hname⟩ | ⟨hlt, hlow, hname⟩ := h
  · exact iff_of_false (fun h => absurd h.1 (by omega)) (not_not.mpr hname)
  · exact iff_of_true ⟨hlt, hlow⟩ hname

/-! ## The search -/

/-- The search goes past the entry. -/
def Skips (flash : Flash) (name : Name) (i : Nat) : Prop :=
  uuidEmpty (entry flash i).guid = false ∧ gptEntryCheckName (entry flash i) name.chars ≠ 0

/-- The search stops at the entry, which it finds. -/
def Hits (flash : Flash) (name : Name) (i : Nat) : Prop :=
  uuidEmpty (entry flash i).guid = false ∧ gptEntryCheckName (entry flash i) name.chars = 0

theorem searchEntries_eq_some_iff :
    searchEntries flash name.chars n i = some j ↔ i ≤ j ∧ j < i + n ∧ Hits flash name j ∧ ∀ k, i ≤ k → k < j → Skips flash name k := by
  induction n generalizing i with
  | zero => exact iff_of_false nofun fun h => by omega
  | succ n ih =>
    rw [searchEntries]
    by_cases hempty : uuidEmpty (entry flash i).guid = true
    · rw [if_pos hempty]
      refine iff_of_false nofun ?_
      rintro ⟨hle, -, hhit, hskip⟩
      -- The empty entry is neither skipped nor found.
      obtain rfl | hlt := Nat.eq_or_lt_of_le hle
      · exact absurd hempty (Bool.not_eq_true _ ▸ hhit.1)
      · exact absurd hempty (Bool.not_eq_true _ ▸ (hskip i le_rfl hlt).1)
    · rw [if_neg hempty]
      rw [Bool.not_eq_true] at hempty
      by_cases hname : gptEntryCheckName (entry flash i) name.chars = 0
      · rw [if_neg (not_not.mpr hname), Option.some_inj]
        constructor
        · rintro rfl
          exact ⟨le_rfl, by omega, ⟨hempty, hname⟩, fun k hlo hhi => by omega⟩
        · rintro ⟨hle, -, -, hskip⟩
          by_contra hne
          exact (hskip i le_rfl (by omega)).2 hname
      · rw [if_pos hname, ih]
        constructor
        · rintro ⟨hle, hlt, hhit, hskip⟩
          refine ⟨by omega, by omega, hhit, fun k hlo hhi => ?_⟩
          obtain rfl | hlo := Nat.eq_or_lt_of_le hlo
          · exact ⟨hempty, hname⟩
          · exact hskip k hlo hhi
        · rintro ⟨hle, hlt, hhit, hskip⟩
          have hne : i ≠ j := fun h => hname (h ▸ hhit.2)
          exact ⟨by omega, by omega, hhit, fun k hlo => hskip k (by omega)⟩

/-- The entry that is found. -/
structure Found (flash : Flash) (name : Name) (i : Nat) : Prop where
  lt : i < partCnt
  hits : Hits flash name i
  skips : ∀ k < i, Skips flash name k

theorem search_eq_some_iff : searchEntries flash name.chars partCnt 0 = some i ↔ Found flash name i := by
  rw [searchEntries_eq_some_iff]
  constructor
  · rintro ⟨-, hlt, hhit, hskip⟩
    exact ⟨by omega, hhit, fun k => hskip k (Nat.zero_le k)⟩
  · rintro ⟨hlt, hhit, hskip⟩
    exact ⟨Nat.zero_le i, by omega, hhit, fun k _ => hskip k⟩

theorem getPart_of_found (h : Found flash name i) (out : Out) :
    gptGetPartByName flash name.chars out = (i + 1, (entry flash i).out) := by
  rw [gptGetPartByName, search_eq_some_iff.mpr h]

theorem getPart_of_not_found (h : ∀ i, ¬Found flash name i) (out : Out) : gptGetPartByName flash name.chars out = (0, out) := by
  have hnone : searchEntries flash name.chars partCnt 0 = none :=
    Option.eq_none_iff_forall_ne_some.mpr fun i hi => h i (search_eq_some_iff.mp hi)
  rw [gptGetPartByName, hnone]

theorem getPart_ret_iff (out : Out) : (gptGetPartByName flash name.chars out).1 = i + 1 ↔ Found flash name i := by
  constructor
  · intro h
    by_cases hfound : ∃ j, Found flash name j
    · obtain ⟨j, hj⟩ := hfound
      rw [getPart_of_found hj] at h
      obtain rfl : j = i := Nat.succ.inj h
      exact hj
    · rw [getPart_of_not_found (not_exists.mp hfound)] at h
      exact absurd h.symm (Nat.succ_ne_zero i)
  · intro h
    rw [getPart_of_found h]

/-! ## Clear entries -/

/-- Clear entries are skipped if they do not have the name. -/
theorem skips_iff_of_clear (hi : i ≤ partCnt)
    (h : ∀ j < i, Reached flash name j →
      if uuidEmpty (entry flash j).guid then ¬NameEq (entry flash j) name else ¬Confused (entry flash j) name) :
    (∀ k < i, Skips flash name k) ↔ Reached flash name i := by
  induction i with
  | zero => exact iff_of_true (fun k hk => absurd hk (Nat.not_lt_zero k)) fun k hk => absurd hk (Nat.not_lt_zero k)
  | succ i ih =>
    have ih := ih (by omega) fun j hj => h j (by omega)
    rw [Reached, Nat.forall_lt_succ_right, Nat.forall_lt_succ_right, ih]
    refine and_congr_right fun hreached => and_congr_right fun hempty => ?_
    have hclear := h i (Nat.lt_succ_self i) hreached
    rw [hempty, if_neg Bool.false_ne_true] at hclear
    exact not_congr (checkName_iff_of_not_confused hclear)

theorem found_iff_of_clear (h : Clear flash name) : Found flash name i ↔ IsFirst flash name i := by
  constructor
  · rintro ⟨hlt, ⟨hempty, hhit⟩, hskips⟩
    have hreached := (skips_iff_of_clear hlt.le fun j hj => h j (hj.trans hlt)).mp hskips
    have hclear := h i hlt hreached
    rw [hempty, if_neg Bool.false_ne_true] at hclear
    exact ⟨hlt, hreached, (checkName_iff_of_not_confused hclear).mp hhit⟩
  · rintro ⟨hlt, hreached, hname⟩
    have hclear := h i hlt hreached
    have hempty : uuidEmpty (entry flash i).guid = false := by
      rw [← Bool.not_eq_true]
      intro hempty
      rw [if_pos hempty] at hclear
      exact hclear hname
    rw [hempty, if_neg Bool.false_ne_true] at hclear
    exact ⟨hlt, ⟨hempty, (checkName_iff_of_not_confused hclear).mpr hname⟩,
      (skips_iff_of_clear hlt.le fun j hj => h j (hj.trans hlt)).mpr hreached⟩

theorem clear_of_found_iff (h : ∀ i, Found flash name i ↔ IsFirst flash name i) : Clear flash name := by
  intro i
  induction i using Nat.strongRecOn with
  | ind i ih =>
    intro hlt hreached
    have hskips := (skips_iff_of_clear hlt.le fun j hj => ih j hj (hj.trans hlt)).mpr hreached
    by_cases hempty : uuidEmpty (entry flash i).guid = true
    · rw [if_pos hempty]
      intro hname
      have hfound := (h i).mpr ⟨hlt, hreached, hname⟩
      exact absurd hempty (Bool.not_eq_true _ ▸ hfound.hits.1)
    · rw [if_neg hempty]
      intro hconf
      by_cases hname : NameEq (entry flash i) name
      · have hfound := (h i).mpr ⟨hlt, hreached, hname⟩
        exact (checkName_iff_of_confused hconf).mp hfound.hits.2 hname
      · have hhit : Hits flash name i := ⟨Bool.not_eq_true _ ▸ hempty, (checkName_iff_of_confused hconf).mpr hname⟩
        exact hname ((h i).mp ⟨hlt, hhit, hskips⟩).name_eq

/-! ## Offset and size -/

theorem offset_iff (e : Entry) : e.out.offset.toNat = e.lbaStart.toNat * 512 ↔ e.lbaStart.toNat * 512 < 2 ^ 32 := by
  have hval : e.out.offset.toNat = e.lbaStart.toNat * 512 % 2 ^ 64 % 2 ^ 32 := by
    show ((e.lbaStart <<< 9).setWidth 32).toNat = _
    rw [BitVec.toNat_setWidth, BitVec.toNat_shiftLeft, Nat.shiftLeft_eq]
  rw [hval]
  omega

theorem size_iff (e : Entry) : (e.out.size.toNat : Int) = e.bytes ↔ 0 ≤ e.bytes ∧ e.bytes < 2 ^ 32 := by
  have hval : e.out.size.toNat = (2 ^ 64 - e.lbaStart.toNat + (e.lbaEnd.toNat + 1) % 2 ^ 64) % 2 ^ 64 * 512 % 2 ^ 64 % 2 ^ 32 := by
    show (((e.lbaEnd + 1 - e.lbaStart) <<< 9).setWidth 32).toNat = _
    rw [BitVec.toNat_setWidth, BitVec.toNat_shiftLeft, Nat.shiftLeft_eq, BitVec.toNat_sub, BitVec.toNat_add]
    rfl
  have hstart := e.lbaStart.isLt
  have hend := e.lbaEnd.isLt
  rw [hval, Entry.bytes]
  omega

theorem padSize_toNat (e : Entry) : e.out.padSize.toNat = e.pad := by
  have h14 := (e.guid 14).isLt
  have h15 := (e.guid 15).isLt
  show (((e.guid 14).setWidth 16) <<< 8 + (e.guid 15).setWidth 16).toNat = _
  rw [BitVec.toNat_add, BitVec.toNat_shiftLeft, BitVec.toNat_setWidth, BitVec.toNat_setWidth, Nat.shiftLeft_eq, Entry.pad]
  omega

theorem file_size_iff (e : Entry) :
    ((e.out.size.toNat : Int) = e.bytes ∧ ((e.out.size - e.out.padSize.setWidth 32).toNat : Int) = e.bytes - e.pad) ↔
      (e.pad : Int) ≤ e.bytes ∧ e.bytes < 2 ^ 32 := by
  have hpad : e.pad < 2 ^ 16 := padSize_toNat e ▸ e.out.padSize.isLt
  have hsize := e.out.size.isLt
  have hval : (e.out.size - e.out.padSize.setWidth 32).toNat = (2 ^ 32 - e.pad + e.out.size.toNat) % 2 ^ 32 := by
    rw [BitVec.toNat_sub, BitVec.toNat_setWidth, padSize_toNat, Nat.mod_eq_of_lt (hpad.trans (by decide))]
  rw [hval, size_iff]
  constructor
  · rintro ⟨⟨hnonneg, hlt⟩, hfile⟩
    have := (size_iff e).mpr ⟨hnonneg, hlt⟩
    omega
  · rintro ⟨hle, hlt⟩
    have := (size_iff e).mpr ⟨by omega, hlt⟩
    omega

theorem fits_iff (e : Entry) :
    e.Fits ↔ e.out.offset.toNat = e.lbaStart.toNat * 512 ∧ (e.out.size.toNat : Int) = e.bytes ∧
      ((e.out.size - e.out.padSize.setWidth 32).toNat : Int) = e.bytes - e.pad := by
  rw [offset_iff, file_size_iff]
  exact ⟨fun h => ⟨h.offset_lt, h.pad_le, h.bytes_lt⟩, fun h => ⟨h.1, h.2.1, h.2.2⟩⟩

theorem sub_pad_eq_self_iff (size : BitVec 32) (pad : BitVec 16) : size - pad.setWidth 32 = size ↔ pad = 0 := by
  constructor
  · intro h
    have hnat := congrArg BitVec.toNat h
    have hpad := pad.isLt
    have hsize := size.isLt
    rw [BitVec.toNat_sub, BitVec.toNat_setWidth, Nat.mod_eq_of_lt (hpad.trans (by decide))] at hnat
    apply BitVec.eq_of_toNat_eq
    show pad.toNat = 0
    omega
  · rintro rfl
    simp

/-- The lookups are right if the entries are clear, offset and size of the one found fit, and the local of
`gpt_get_file_by_name` happens to be 0 if there is none. -/
theorem lookup_iff (flash : Flash) (name : Name) (out : Out) (pad : BitVec 16) (offset size : BitVec 32) :
    PartRight flash name out ∧ FileRight flash name pad offset size ↔
      Clear flash name ∧ (∀ i, IsFirst flash name i → (entry flash i).Fits) ∧ ((∀ i, ¬IsFirst flash name i) → pad = 0) := by
  constructor
  · rintro ⟨hpart, hfile⟩
    have hfound : ∀ i, Found flash name i ↔ IsFirst flash name i := fun i => (getPart_ret_iff out).symm.trans (hpart.ret_iff i)
    refine ⟨clear_of_found_iff hfound, fun i hi => (fits_iff _).mpr ?_, fun hnone => ?_⟩
    · have hp := hpart.found i hi
      have hf := hfile.found i hi
      have hi := (hfound i).mpr hi
      rw [getPart_of_found hi] at hp
      simp only [gptGetFileByName, getPart_of_found hi] at hf
      exact ⟨hp.1, hp.2, hf.2⟩
    · have hf := hfile.absent hnone
      simp only [gptGetFileByName, getPart_of_not_found fun i hi => hnone i ((hfound i).mp hi), Prod.mk.injEq] at hf
      exact (sub_pad_eq_self_iff size pad).mp hf.2
  · rintro ⟨hclear, hfits, hpad⟩
    have hfound : ∀ i, Found flash name i ↔ IsFirst flash name i := fun i => found_iff_of_clear hclear
    constructor
    · refine ⟨fun i => (getPart_ret_iff out).trans (hfound i), fun i hi => ?_, fun hnone => ?_⟩
      · obtain ⟨ho, hs, -⟩ := (fits_iff _).mp (hfits i hi)
        rw [getPart_of_found ((hfound i).mpr hi)]
        exact ⟨ho, hs⟩
      · exact getPart_of_not_found (fun i hi => hnone i ((hfound i).mp hi)) out
    · refine ⟨rfl, fun i hi => ?_, fun hnone => ?_⟩
      · obtain ⟨ho, -, hf⟩ := (fits_iff _).mp (hfits i hi)
        simp only [gptGetFileByName, getPart_of_found ((hfound i).mpr hi)]
        exact ⟨ho, hf⟩
      · simp only [gptGetFileByName, getPart_of_not_found fun i hi => hnone i ((hfound i).mp hi), Prod.mk.injEq, true_and]
        exact (sub_pad_eq_self_iff size pad).mpr (hpad hnone)

/-- A table whose first entry has these fields and the characters `name`, and whose second one is empty. -/
def table (lbaStart lbaEnd : Nat) (name : Nat → BitVec 16) : Flash := fun a =>
  if a = 1024 + 16 then 1
  else if 1024 + 32 ≤ a ∧ a < 1024 + 40 then .ofNat 8 (lbaStart / 2 ^ (8 * (a - 1024 - 32)))
  else if 1024 + 40 ≤ a ∧ a < 1024 + 48 then .ofNat 8 (lbaEnd / 2 ^ (8 * (a - 1024 - 40)))
  else if 1024 + 56 ≤ a ∧ a < 1024 + 128 then .ofNat 8 ((name ((a - 1024 - 56) / 2)).toNat / 2 ^ (8 * (a % 2)))
  else 0

/-- The name `A`. -/
def nameA : Name := ⟨[0x41], by decide, by decide, by decide⟩

/-- The partition `A` with the sectors 8 and 9. -/
theorem lookup_of_one :
    gptGetPartByName (table 8 9 fun i => if i = 0 then 0x41 else 0) nameA.chars ⟨0, 0, 0⟩ = (1, ⟨0x1000, 0x400, 0⟩) ∧
    PartRight (table 8 9 fun i => if i = 0 then 0x41 else 0) nameA ⟨0, 0, 0⟩ := by
  have hname : NameEq (entry (table 8 9 fun i => if i = 0 then 0x41 else 0) 0) nameA := by
    unfold NameEq
    decide
  have hzero (i : Nat) (h : Reached (table 8 9 fun i => if i = 0 then 0x41 else 0) nameA i) : i = 0 :=
    Nat.eq_zero_of_not_pos fun hpos => (h 0 hpos).2 hname
  refine ⟨by rfl, ((lookup_iff _ nameA ⟨0, 0, 0⟩ 0 0 0).mpr ⟨fun i _ hi => ?_, fun i hi => ?_, fun _ => rfl⟩).1⟩
  · rw [hzero i hi]
    rintro (⟨hlen, -⟩ | ⟨-, -, hne⟩)
    · exact absurd hlen (by decide)
    · exact hne hname
  · rw [hzero i hi.reached]
    exact ⟨by decide, by decide, by decide⟩

/-- A name of 36 characters is not found; `A` is found at a name whose first character is 0x141; the offset of sector
2²³ is 0; and 1 is subtracted from the size although there is no partition. -/
theorem lookup_wrong :
    (gptGetPartByName (table 8 9 fun _ => 0x41) (List.replicate 36 0x41) ⟨0, 0, 0⟩).1 = 0 ∧
    (gptGetPartByName (table 8 9 fun i => if i = 0 then 0x141 else 0) [0x41] ⟨0, 0, 0⟩).1 = 1 ∧
    (gptGetPartByName (table (2 ^ 23) (2 ^ 23) fun i => if i = 0 then 0x41 else 0) [0x41] ⟨7, 0, 0⟩).2.offset = 0 ∧
    gptGetFileByName (fun _ => 0) [0x41] 1 0 0x400 = (0, 0, 0x3FF) := by
  refine ⟨by decide, by decide, by decide, by decide⟩

end Sdfirm.Gpt
