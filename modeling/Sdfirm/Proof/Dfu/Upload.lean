import Sdfirm.Proof.Usbd.Callback
import Sdfirm.Spec.Usbd

/-!
# Uploads

`uploads_iff` says what a request for a block sends and does to the driver:
the block does not have the bytes that were read from the firmware, but its
number and a count. So a whole session sends `pattern` (`session_pattern`).
-/

namespace Sdfirm.Dfu

open Usbd (Byte Endpoint Writes)

variable {cfg : Config} {e : Endpoint} {fuel blknr size : Nat} {m m' : Vars} {data : List Byte}

/-- The bytes that the block `blknr` has in an upload of `size` bytes. -/
def blockLength (cfg : Config) (size blknr : Nat) : Nat :=
  if blknr = size / cfg.transferSize then size % cfg.transferSize else cfg.transferSize

/-- The driver is between two requests of an upload of `size` bytes. -/
structure Ready (size : Nat) (m : Vars) : Prop where
  proto : m.proto = .dfumode
  state : m.state = .dfuIdle ∨ m.state = .dfuUploadIdle
  uploadSize : m.uploadSize = size

/-- What a call of `dfu_upload` does to the variables. -/
def uploadNext (cfg : Config) (size blknr : Nat) (m : Vars) (n n' : Nat) : Vars :=
  let m := if n = 0 then { m with block := boardHwFirmwareRead cfg blknr } else m
  if n' = blockLength cfg size blknr then
    { m with state := if blockLength cfg size blknr = cfg.transferSize then .dfuUploadIdle else .dfuIdle }
  else m

theorem length_uploadBytes (blknr length : Nat) : (uploadBytes blknr length).length = length := by
  rw [uploadBytes, List.length_map, List.length_range]

theorem blockLength_le (cfg : Config) (size blknr : Nat) : blockLength cfg size blknr ≤ cfg.transferSize := by
  unfold blockLength
  split
  · exact (Nat.mod_lt _ cfg.transferSize_pos).le
  · exact le_rfl

theorem blockLength_eq_iff : blockLength cfg size blknr = cfg.transferSize ↔ blknr ≠ size / cfg.transferSize := by
  have := Nat.mod_lt size cfg.transferSize_pos
  unfold blockLength
  split
  · rename_i h
    exact ⟨fun heq => absurd heq this.ne, fun hne => absurd h hne⟩
  · rename_i h
    exact ⟨fun _ => h, fun _ => rfl⟩

theorem uploadNext_ready (hm : Ready size m) (n n' : Nat) : Ready size (uploadNext cfg size blknr m n n') := by
  unfold uploadNext
  have hread : Ready size (if n = 0 then { m with block := boardHwFirmwareRead cfg blknr } else m) := by
    split
    · exact ⟨hm.proto, hm.state, hm.uploadSize⟩
    · exact hm
  by_cases hn : n' = blockLength cfg size blknr
  · rw [if_pos hn]
    refine ⟨hread.proto, ?_, hread.uploadSize⟩
    dsimp only
    split
    · exact .inr rfl
    · exact .inl rfl
  · rw [if_neg hn]
    exact hread

theorem dfuUpload_writes (cfg : Config) (size blknr : Nat) :
    Writes (dfuUpload cfg blknr cfg.transferSize) (Ready size) (uploadBytes blknr (blockLength cfg size blknr))
      (uploadNext cfg size blknr) := by
  refine ⟨?_, fun m n n' hm => uploadNext_ready hm n n'⟩
  rintro m ⟨hproto, hstate, rfl⟩
  have hok : ¬(m.proto ≠ .dfumode ∨ m.state ≠ .dfuIdle ∧ m.state ≠ .dfuUploadIdle) := by
    obtain h | h := hstate <;> simp [hproto, h]
  rw [dfuUpload, if_neg hok, if_neg (lt_irrefl _)]
  rfl

/-- The state after the block. -/
def blockState (cfg : Config) (size blknr : Nat) : DfuState :=
  if blknr = size / cfg.transferSize then .dfuIdle else .dfuUploadIdle

theorem state_uploadNext (m : Vars) (n : Nat) :
    (uploadNext cfg size blknr m n (blockLength cfg size blknr)).state = blockState cfg size blknr := by
  rw [uploadNext, if_pos rfl, blockState]
  by_cases h : blknr = size / cfg.transferSize
  · rw [if_pos h, if_neg (fun heq => blockLength_eq_iff.1 heq h)]
  · rw [if_neg h, if_pos (blockLength_eq_iff.2 h)]

theorem transferSize_lt_urbSize (cfg : Config) (e : Endpoint) : cfg.transferSize < e.urbSize := by
  have := cfg.transferSize_lt
  unfold Endpoint.urbSize
  split <;> omega

theorem Uploads.spec (hdir : e.dir = .input) (hzlp : e.zlp = true) (hm : Ready size m) (h : Uploads cfg e fuel blknr m m' data) :
    data = uploadBytes blknr (blockLength cfg size blknr) ∧ Ready size m' ∧ m'.state = blockState cfg size blknr := by
  obtain ⟨n, d, hevents, hended, rfl⟩ := h
  apply (dfuUpload_writes cfg size blknr).ended (J := fun m => m.state = blockState cfg size blknr) hdir hzlp hm ?_
    (transferSize_lt_urbSize cfg e) ?_ hevents hended
  · intro m n _
    rw [length_uploadBytes]
    exact state_uploadNext m n
  · rw [length_uploadBytes]
    exact blockLength_le cfg size blknr

theorem exists_uploads (cfg : Config) (hdir : e.dir = .input) (hzlp : e.zlp = true) (hm : Ready size m) (fuel blknr : Nat) :
    ∃ m' data, Uploads cfg e fuel blknr m m' data := by
  obtain ⟨n, m', d, hevents, hended⟩ :=
    (dfuUpload_writes cfg size blknr).ends fuel hdir hzlp hm (transferSize_lt_urbSize cfg e)
  exact ⟨m', _, n, d, hevents, hended, rfl⟩

/-! ## Sessions -/

/-- The block begins at a multiple of the transfer size, and has what is left of the upload. -/
theorem blockLength_cases (hle : blknr ≤ size / cfg.transferSize) :
    blknr < size / cfg.transferSize ∧ blockLength cfg size blknr = cfg.transferSize ∧
        (blknr + 1) * cfg.transferSize ≤ size ∨
      blknr = size / cfg.transferSize ∧ blknr * cfg.transferSize + blockLength cfg size blknr = size ∧
        size < (blknr + 1) * cfg.transferSize := by
  obtain rfl | hlt := hle.eq_or_lt
  · right
    refine ⟨rfl, ?_, ?_⟩
    · rw [blockLength, if_pos rfl]
      exact Nat.div_add_mod' size cfg.transferSize
    · exact Nat.lt_mul_of_div_lt (Nat.lt_succ_self _) cfg.transferSize_pos
  · left
    refine ⟨hlt, blockLength_eq_iff.2 hlt.ne, ?_⟩
    exact (Nat.mul_le_mul_right _ hlt).trans (Nat.div_mul_le_self size cfg.transferSize)

/-- The bytes from the block `blknr` on. -/
theorem drop_pattern (hle : blknr ≤ size / cfg.transferSize) :
    (pattern cfg.transferSize size).drop (blknr * cfg.transferSize) =
      uploadBytes blknr (blockLength cfg size blknr) ++
        (pattern cfg.transferSize size).drop ((blknr + 1) * cfg.transferSize) := by
  have hT := cfg.transferSize_pos
  have hlen := blockLength_le cfg size blknr
  have hsucc : (blknr + 1) * cfg.transferSize = blknr * cfg.transferSize + cfg.transferSize := Nat.succ_mul _ _
  apply List.ext_getElem?
  intro i
  rw [List.getElem?_append, length_uploadBytes, List.getElem?_drop]
  split
  · rename_i hi
    have hdiv : (blknr * cfg.transferSize + i) / cfg.transferSize = blknr := by
      rw [Nat.add_comm, Nat.add_mul_div_right _ _ hT, Nat.div_eq_of_lt (by omega), Nat.zero_add]
    have hmod : (blknr * cfg.transferSize + i) % cfg.transferSize = i := by
      rw [Nat.add_comm, Nat.add_mul_mod_self_right, Nat.mod_eq_of_lt (by omega)]
    have hlt : blknr * cfg.transferSize + i < size := by
      obtain ⟨-, -, h⟩ | ⟨-, h, -⟩ := blockLength_cases hle <;> omega
    rw [pattern, uploadBytes, List.getElem?_map, List.getElem?_map, List.getElem?_range hlt, List.getElem?_range hi,
      Option.map_some, Option.map_some, hdiv, hmod]
  · rename_i hi
    rw [List.getElem?_drop]
    obtain ⟨-, h, -⟩ | ⟨-, h, h'⟩ := blockLength_cases hle
    · congr 1
      omega
    · rw [List.getElem?_eq_none, List.getElem?_eq_none]
      · rw [pattern, List.length_map, List.length_range]
        omega
      · rw [pattern, List.length_map, List.length_range]
        omega

theorem drop_pattern_of_lt (h : size < (blknr + 1) * cfg.transferSize) :
    (pattern cfg.transferSize size).drop ((blknr + 1) * cfg.transferSize) = [] := by
  apply List.drop_of_length_le
  rw [pattern, List.length_map, List.length_range]
  exact h.le

/-- A session from the block `blknr` on sends the rest of the pattern. -/
theorem Session.spec (hdir : e.dir = .input) (hzlp : e.zlp = true) (h : Session cfg e fuel blknr m m' data)
    (hm : Ready size m) (hle : blknr ≤ size / cfg.transferSize) :
    data = (pattern cfg.transferSize size).drop (blknr * cfg.transferSize) ∧ m'.state = .dfuIdle := by
  induction h with
  | last hup hlt =>
    obtain ⟨rfl, -, hstate⟩ := hup.spec hdir hzlp hm
    rw [length_uploadBytes] at hlt
    obtain ⟨-, h, -⟩ | ⟨heq, -, hend⟩ := blockLength_cases hle
    · exact absurd h hlt.ne
    · rw [drop_pattern hle, drop_pattern_of_lt hend, List.append_nil, hstate, blockState, if_pos heq]
      exact ⟨rfl, rfl⟩
  | more hup hlen _ ih =>
    obtain ⟨rfl, hm₁, -⟩ := hup.spec hdir hzlp hm
    rw [length_uploadBytes] at hlen
    have hne := blockLength_eq_iff.1 hlen
    obtain ⟨hrest, hstate⟩ := ih hm₁ (by omega)
    exact ⟨by rw [drop_pattern hle, hrest], hstate⟩

theorem exists_session (cfg : Config) (hdir : e.dir = .input) (hzlp : e.zlp = true) (hm : Ready size m)
    (hle : blknr ≤ size / cfg.transferSize) (fuel : Nat) : ∃ m' data, Session cfg e fuel blknr m m' data := by
  obtain ⟨k, hk⟩ := Nat.exists_eq_add_of_le hle
  induction k generalizing blknr m with
  | zero =>
    obtain ⟨m', data, hup⟩ := exists_uploads cfg hdir hzlp hm fuel blknr
    refine ⟨m', data, .last hup ?_⟩
    obtain ⟨rfl, -, -⟩ := hup.spec hdir hzlp hm
    rw [length_uploadBytes, blockLength, if_pos (by omega)]
    exact Nat.mod_lt _ cfg.transferSize_pos
  | succ k ih =>
    obtain ⟨m₁, data, hup⟩ := exists_uploads cfg hdir hzlp hm fuel blknr
    obtain ⟨hdata, hm₁, -⟩ := hup.spec hdir hzlp hm
    obtain ⟨m', rest, hsession⟩ := @ih (blknr + 1) _ hm₁ (by omega) (by omega)
    refine ⟨m', data ++ rest, .more hup ?_ hsession⟩
    rw [hdata, length_uploadBytes]
    exact blockLength_eq_iff.2 (by omega)

theorem dfuProtoInit_ready (cfg : Config) : Ready (dfuProtoInit cfg).uploadSize (dfuProtoInit cfg) :=
  ⟨rfl, .inl rfl, rfl⟩

/-- The host gets the firmware exactly if that is the pattern which is sent for any firmware of its size. -/
theorem upload_returned_iff (cfg : Config) (e : Endpoint) (fuel : Nat) (hdir : e.dir = .input) (hzlp : e.zlp = true) :
    Returned cfg e fuel ↔ cfg.firmware.take (dfuProtoInit cfg).uploadSize =
      pattern cfg.transferSize (dfuProtoInit cfg).uploadSize := by
  have hready := dfuProtoInit_ready cfg
  constructor
  · rintro ⟨m', hsession, -⟩
    obtain ⟨hdata, -⟩ := hsession.spec hdir hzlp hready (Nat.zero_le _)
    rw [hdata, Nat.zero_mul, List.drop_zero]
  · intro heq
    obtain ⟨m', data, hsession⟩ := exists_session cfg hdir hzlp hready (Nat.zero_le _) fuel
    obtain ⟨hdata, hstate⟩ := hsession.spec hdir hzlp hready (Nat.zero_le _)
    rw [hdata, Nat.zero_mul, List.drop_zero, ← heq] at hsession
    exact ⟨m', hsession, hstate⟩

/-- The IN side of the default pipe. -/
def pipe : Endpoint := { Usbd.bulkIn with zlp := true, mass := false }

/-- A board whose firmware counts as the upload does, with blocks of four bytes. -/
def counting : Config :=
  { transferSize := 4, firmware := [0, 1, 2, 3, 1, 1], transferSize_pos := by decide, transferSize_lt := by decide }

theorem upload_returned_counting : Returned counting pipe 0 :=
  (upload_returned_iff counting pipe 0 rfl rfl).2 (by decide)

/-- A firmware of one byte. -/
def single : Config := { counting with firmware := [7] }

/-- For the firmware that has the byte 7, the only block has the byte 0. -/
theorem upload_not_returned :
    ¬Returned single pipe 0 ∧ ∃ m', Uploads single pipe 0 0 (dfuProtoInit single) m' [0] ∧ m'.block = [7] := by
  refine ⟨?_, ?_⟩
  · rintro ⟨m', hsession, -⟩
    obtain ⟨hdata, -⟩ := hsession.spec rfl rfl (dfuProtoInit_ready single) (Nat.zero_le _)
    exact absurd hdata (by decide)
  · exact ⟨_, ⟨2, _, rfl, rfl, rfl⟩, rfl⟩

end Sdfirm.Dfu
