import Sdfirm.Spec.IfdTpdu

/-!
# Building a block

Writing to the buffer, saving and restoring leave everything else of the
exchange alone: `core` is what they keep (`saveBuffer_core`,
`restoreBuffer_core`). A block that has been built stands at `tx_blk` with the
protocol control byte it was built for (`sentPcb_buildRblock` and so on).
-/

namespace Sdfirm.IfdT1

open Framework.Buffer

variable {c : Config} {s s' : State}

/-- A reader of short APDUs. -/
theorem apduMax_short_ge : 256 ≤ 256 := le_rfl

theorem apduMax_short_le : 256 ≤ 65536 := by decide

/-! ## The buffer -/

theorem xchgWrite_eq_some {index : Nat} {bytes : List Byte} :
    xchgWrite c s index bytes = some s' ↔
      (bytes = [] ∨ index + bytes.length ≤ c.bufSize) ∧ s' = { s with buf := overlay s.buf index bytes } := by
  induction bytes generalizing s index with
  | nil =>
    rw [xchgWrite, overlay_nil]
    exact ⟨fun h => ⟨.inl rfl, (Option.some.inj h).symm⟩, fun h => congrArg some h.2.symm⟩
  | cons b bytes ih =>
    rw [xchgWrite, overlay_cons]
    by_cases hb : c.bufSize ≤ index
    · rw [if_pos hb]
      refine ⟨nofun, fun h => ?_⟩
      have hlen : index + (bytes.length + 1) ≤ c.bufSize := h.1.resolve_left nofun
      omega
    · rw [if_neg hb, ih]
      apply and_congr_left
      intro _
      constructor
      · rintro (rfl | h)
        · exact .inr (by simpa using hb)
        · exact .inr (by simp; omega)
      · intro h
        have hlen : index + (bytes.length + 1) ≤ c.bufSize := h.resolve_left nofun
        exact .inr (by omega)

/-- The exchange without its buffers and the places of the blocks in them. -/
def core (s : State) : State :=
  { s with buf := fun _ => 0, savedBuf := fun _ => 0, savedLen := 0, txBlk := 0, rxBlk := 0 }

theorem save_eq_some {index length : Nat} : save s index length = some s' ↔ length ≤ 8 ∧
    s' = { s with savedLen := length, savedBuf := fun i => if i < length then s.buf (index + i) else s.savedBuf i } := by
  rw [save]
  by_cases h : 8 < length
  · rw [if_pos h]
    exact ⟨nofun, fun e => by omega⟩
  · rw [if_neg h]
    exact ⟨fun e => ⟨by omega, (Option.some.inj e).symm⟩, fun e => congrArg some e.2.symm⟩

theorem restore_eq_some {index : Nat} : restore c s index = some s' ↔ s.savedLen ≤ 8 ∧
    (s.savedLen = 0 ∨ index + s.savedLen ≤ c.bufSize) ∧
    s' = { s with buf := overlay s.buf index (slice s.savedBuf 0 s.savedLen), savedLen := 0 } := by
  rw [restore]
  by_cases h : 8 < s.savedLen
  · rw [if_pos h]
    exact ⟨nofun, fun e => by omega⟩
  · rw [if_neg h, Option.map_eq_some_iff]
    simp only [xchgWrite_eq_some, length_slice, ← List.length_eq_zero_iff]
    constructor
    · rintro ⟨t, ⟨hroom, rfl⟩, rfl⟩
      exact ⟨by omega, hroom, rfl⟩
    · rintro ⟨-, hroom, rfl⟩
      exact ⟨_, ⟨hroom, rfl⟩, rfl⟩

theorem restoreCommand_core {tx : Nat} (h : restoreCommand c s tx = some s') : core s' = core s := by
  rw [restoreCommand] at h
  split at h
  · nomatch h
  · obtain ⟨buf, -, h⟩ := Option.bind_eq_some_iff.mp h
    split at h
    · rw [(restore_eq_some.mp h).2.2]
      rfl
    · rw [← Option.some.inj h]
      rfl

theorem restoreBuffer_core {tx rx : Nat} (h : restoreBuffer c s tx rx = some s') : core s' = core s := by
  obtain ⟨t, ht, h⟩ := Option.bind_eq_some_iff.mp h
  have hcore : core t = core s := by
    split at ht
    · exact restoreCommand_core ht
    · rw [← Option.some.inj ht]
  rw [← hcore]
  split at h
  · rw [(restore_eq_some.mp h).2.2]
    rfl
  · rw [← Option.some.inj h]

theorem saveTail_core (h : saveTail s = some s') : core s' = core s := by
  rw [saveTail] at h
  split at h
  · rw [(save_eq_some.mp h).2]
    rfl
  · rw [← Option.some.inj h]

theorem saveCommand_core (h : saveCommand c s = some s') : core s' = core s := by
  simp only [saveCommand] at h
  split at h
  · nomatch h
  · obtain ⟨t, ht, h⟩ := Option.bind_eq_some_iff.mp h
    obtain ⟨buf, -, rfl⟩ := Option.map_eq_some_iff.mp h
    have hcore := saveTail_core ht
    exact hcore

theorem saveBuffer_core (h : saveBuffer c s = some s') : core s' = core s := by
  rw [saveBuffer] at h
  split at h
  · exact saveCommand_core h
  · obtain ⟨t, ht, rfl⟩ := Option.map_eq_some_iff.mp h
    split at ht
    · rw [(save_eq_some.mp ht).2]
      rfl
    · rw [← Option.some.inj ht]
      rfl

/-! ## Blocks -/

/-- Prologue and epilogue are written around the information field. -/
def finish (c : Config) (s : State) : Option State := (writePrologue c s).bind (computeChecksum c)

theorem sentPcb_eq (s : State) : sentPcb s = s.buf (s.txBlk + 1) := by
  rw [sentPcb, List.getD_eq_getElem?_getD, sentBlock, getElem?_slice]
  · rfl
  · show 1 < s.ifsc.toNat + 3 + epilogueSize s
    omega

theorem writePrologue_spec (h : writePrologue c s = some s') :
    core s' = core s ∧ s'.txBlk = s.txBlk ∧ s'.buf (s.txBlk + 1) = s.pcb := by
  obtain ⟨-, rfl⟩ := xchgWrite_eq_some.mp h
  refine ⟨rfl, rfl, ?_⟩
  show overlay _ _ _ _ = _
  rw [overlay_inside (by omega) (by simp) 0, Nat.add_sub_cancel_left]
  rfl

/-- What is written behind the prologue keeps the protocol control byte. -/
theorem xchgWrite_behind {index : Nat} {bytes : List Byte} (h : xchgWrite c s index bytes = some s')
    (hi : s.txBlk + 3 ≤ index) : core s' = core s ∧ s'.txBlk = s.txBlk ∧ s'.buf (s.txBlk + 1) = s.buf (s.txBlk + 1) := by
  obtain ⟨-, rfl⟩ := xchgWrite_eq_some.mp h
  exact ⟨rfl, rfl, overlay_outside (.inl (by omega))⟩

theorem computeChecksum_spec (h : computeChecksum c s = some s') :
    core s' = core s ∧ s'.txBlk = s.txBlk ∧ s'.buf (s.txBlk + 1) = s.buf (s.txBlk + 1) :=
  xchgWrite_behind h (by show s.txBlk + 3 ≤ s.txBlk + (s.ifsc.toNat + 3); omega)

theorem finish_core (h : finish c s = some s') : core s' = core s ∧ sentPcb s' = s.pcb := by
  obtain ⟨t, ht, h⟩ := Option.bind_eq_some_iff.mp h
  obtain ⟨hcore, hblk, hpcb⟩ := writePrologue_spec ht
  obtain ⟨hcore', hblk', hpcb'⟩ := computeChecksum_spec h
  refine ⟨hcore'.trans hcore, ?_⟩
  rw [sentPcb_eq, hblk', hpcb', hblk, hpcb]

theorem pcb_of_core (h : core s' = core s) : s'.pcb = s.pcb := by
  show (core s').pcb = (core s).pcb
  rw [h]

theorem saveBuffer_finish (h : (saveBuffer c s).bind (finish c) = some s') : core s' = core s ∧ sentPcb s' = s.pcb := by
  obtain ⟨t, ht, h⟩ := Option.bind_eq_some_iff.mp h
  have hcore := saveBuffer_core ht
  obtain ⟨hcore', hpcb⟩ := finish_core h
  exact ⟨hcore'.trans hcore, hpcb.trans (pcb_of_core hcore)⟩

theorem buildRblock_spec (h : buildRblock c s = some s') :
    core s' = core { s with ifsc := 0, ifsd := s.conf.ifsd, pcb := ifdT1RBlock ||| xfrNr s <<< 4 } ∧
      sentPcb s' = ifdT1RBlock ||| xfrNr s <<< 4 := by
  have hbuilt := saveBuffer_finish h
  exact hbuilt

/-- The protocol control byte of an I-block. -/
def iPcb (s : State) (ifsc : Byte) : Byte := ifdT1IBlock ||| xfrNs s <<< 6 ||| xfrM { s with ackIfsc := ifsc } <<< 5

theorem buildIblock_spec {ifsc : Byte} (h : buildIblock c s ifsc = some s') :
    core s' = core { s with ackIfsc := ifsc, ifsc, ifsd := s.conf.ifsd, pcb := iPcb s ifsc } ∧
      sentPcb s' = iPcb s ifsc := by
  have hbuilt := saveBuffer_finish h
  exact hbuilt

/-- The protocol control byte of an S-block. -/
def sPcb (type : Byte) (resp : Bool) : Byte :=
  if resp then ifdT1SBlock ||| type ||| ifdT1SRBit else ifdT1SBlock ||| type

theorem buildSblock_spec {type inf : Byte} {resp : Bool} (h : buildSblock c s type inf resp = some s') :
    core s' = core { s with
      ifsc := if type = ifdT1SIfs ∨ type = ifdT1SWtx then 1 else 0
      ifsd := BitVec.ofNat 8 ifdT1SafeIfsd
      pcb := sPcb type resp } ∧ sentPcb s' = sPcb type resp := by
  rw [buildSblock] at h
  split at h
  · nomatch h
  · obtain ⟨t, ht, h⟩ := Option.bind_eq_some_iff.mp h
    obtain ⟨u, hu, h⟩ := Option.bind_eq_some_iff.mp h
    obtain ⟨v, hv, h⟩ := Option.bind_eq_some_iff.mp h
    have hcore := saveBuffer_core ht
    obtain ⟨hcore₁, hblk₁, hpcb₁⟩ := writePrologue_spec hu
    have hv' : core v = core u ∧ v.txBlk = u.txBlk ∧ v.buf (u.txBlk + 1) = u.buf (u.txBlk + 1) := by
      split at hv
      · exact xchgWrite_behind hv le_rfl
      · rw [← Option.some.inj hv]
        exact ⟨rfl, rfl, rfl⟩
    obtain ⟨hcore₂, hblk₂, hpcb₂⟩ := hv'
    obtain ⟨hcore₃, hblk₃, hpcb₃⟩ := computeChecksum_spec h
    refine ⟨hcore₃.trans (hcore₂.trans (hcore₁.trans hcore)), ?_⟩
    rw [sentPcb_eq, hblk₃, hpcb₃, hblk₂, hpcb₂, hblk₁, hpcb₁, pcb_of_core hcore]
    rfl

/-! ## Protocol control bytes -/

theorem blockType_rPcb (s : State) : blockType (ifdT1RBlock ||| xfrNr s <<< 4) = .r := by
  have h : ∀ b : Byte, blockType (ifdT1RBlock ||| (b &&& 0x01) <<< 4) = .r := by decide
  exact h s.nr

theorem sPcb_resp (type : Byte) : blockType (sPcb type true) = .s ∧ sPcb type true ≠ ifdT1SBlock ||| ifdT1SResync := by
  revert type; decide

theorem blockType_iPcb (s : State) (ifsc : Byte) : blockType (iPcb s ifsc) = .i := by
  have h : ∀ b : Byte, blockType (ifdT1IBlock ||| (b &&& 0x01) <<< 6 ||| (1 : Byte) <<< 5) = .i ∧
      blockType (ifdT1IBlock ||| (b &&& 0x01) <<< 6 ||| (0 : Byte) <<< 5) = .i := by
    decide
  rw [iPcb, xfrM]
  split
  · exact (h s.ns).1
  · exact (h s.ns).2

/-! ## The next block -/

/-- The blocks that may be sent for each protocol control byte that has been chosen. -/
def NextPcb (c : Config) (s : State) (pcb : Byte) : Prop :=
  match blockType s.pcb with
  | .r => blockType pcb = .r
  | .s => pcb = sPcb s.ackType true
  | .i => pcb = sPcb ifdT1SIfs false ∨ blockType pcb = .r ∨
      blockType pcb = .i ∧ s.tx < s.nc ∧ s.conf.ifsd.toNat ≤ spaceIfsd c s

theorem xchgAval_core (h : xchgAval c s = some s') : ∃ size ackIfsc ifsc ifsd pcb,
    core s' = core { s with conf := { s.conf with ifsd := size }, ackIfsc, ifsc, ifsd, pcb } ∧ sentPcb s' = pcb ∧
      NextPcb c s pcb := by
  have hr : ∀ {t}, buildRblock c s = some t → NextPcb c s (ifdT1RBlock ||| xfrNr s <<< 4) →
      ∃ size ackIfsc ifsc ifsd pcb, core t = core { s with conf := { s.conf with ifsd := size }, ackIfsc, ifsc, ifsd, pcb } ∧
        sentPcb t = pcb ∧ NextPcb c s pcb := by
    intro t ht hnext
    exact ⟨_, _, _, _, _, (buildRblock_spec ht).1, (buildRblock_spec ht).2, hnext⟩
  rw [xchgAval] at h
  cases hp : blockType s.pcb with
  | r =>
    rw [hp] at h
    exact hr h (by rw [NextPcb, hp]; exact blockType_rPcb s)
  | s =>
    rw [hp] at h
    exact ⟨_, _, _, _, _, (buildSblock_spec h).1, (buildSblock_spec h).2, by rw [NextPcb, hp]⟩
  | i =>
    have hifs : NextPcb c s (sPcb ifdT1SIfs false) := by
      rw [NextPcb, hp]
      exact .inl rfl
    rw [hp] at h
    simp only at h
    split at h
    · next htx =>
      split at h
      · exact ⟨_, _, _, _, _, (buildSblock_spec h).1, (buildSblock_spec h).2, hifs⟩
      · refine ⟨_, _, _, _, _, (buildIblock_spec h).1, (buildIblock_spec h).2, ?_⟩
        rw [NextPcb, hp]
        exact .inr (.inr ⟨blockType_iPcb s _, htx, by omega⟩)
    · split at h
      · exact ⟨_, _, _, _, _, (buildSblock_spec h).1, (buildSblock_spec h).2, hifs⟩
      · exact hr h (by rw [NextPcb, hp]; exact .inr (.inl (blockType_rPcb s)))

/-- What sending a block leaves of the exchange. -/
structure Next (c : Config) (s s' : State) : Prop where
  sent : sentPcb s' = s'.pcb
  pcb : NextPcb c s s'.pcb
  level : s'.resyncLevel = s.resyncLevel
  rxCmpl : s'.rxCmpl = s.rxCmpl
  txCmpl : s'.txCmpl = s.txCmpl
  tx : s'.tx = s.tx
  nc : s'.nc = s.nc

theorem xchgAval_spec (h : xchgAval c s = some s') : Next c s s' := by
  obtain ⟨size, ackIfsc, ifsc, ifsd, pcb, hcore, hsent, hnext⟩ := xchgAval_core h
  have hpcb : s'.pcb = pcb := pcb_of_core hcore
  refine ⟨hsent.trans hpcb.symm, hpcb ▸ hnext, ?_, ?_, ?_, ?_, ?_⟩
  · show (core s').resyncLevel = _
    rw [hcore]
    rfl
  · show (core s').rxCmpl = _
    rw [hcore]
    rfl
  · show (core s').txCmpl = _
    rw [hcore]
    rfl
  · show (core s').tx = _
    rw [hcore]
    rfl
  · show (core s').nc = _
    rw [hcore]
    rfl

end Sdfirm.IfdT1
