import Sdfirm.Proof.Pci.Tree

/-!
# Partial writes to configuration registers

`pci_set_conf_reg_byte` and `pci_set_conf_reg_word` write their value to the whole
register (`setConfReg_only_iff`), so they are right only where the rest of the
register is zero, and behind its first byte only for the value 0.
`pci_update_bridge_bus_resource` takes the upper byte of another register.
-/

namespace Sdfirm.Pci

variable {b : Bdf} {s : PciState} {f : Space} {reg : Nat} {val : BitVec 32} {i : Nat}

/-- Byte `i` of a register. -/
def part (val : BitVec 32) (i : Nat) : BitVec 8 := (val >>> (8 * i)).setWidth 8

theorem toNat_part : (part val i).toNat = val.toNat / 2 ^ (8 * i) % 2 ^ 8 := by
  rw [part, BitVec.toNat_setWidth, BitVec.toNat_ushiftRight, Nat.shiftRight_eq_div_pow]

theorem part_eq_zero {k : Nat} (h : val.toNat < 2 ^ (8 * k)) (hk : k ≤ i) : part val i = 0 := by
  apply BitVec.eq_of_toNat_eq
  rw [toNat_part, Nat.div_eq_of_lt (lt_of_lt_of_le h (Nat.pow_le_pow_right (by decide) (by omega)))]
  rfl

/-! ## Writes of whole registers -/

/-- A register all bits of which can be written takes the value. -/
theorem write_regs_self (hmask : f.mask reg = 0xFFFFFFFF) : (f.write reg val).regs reg = val := by
  show Function.update _ _ _ _ = _
  rw [Function.update_self, hmask, show (0xFFFFFFFF : BitVec 32) = BitVec.allOnes 32 from rfl, BitVec.not_allOnes,
    BitVec.and_zero, BitVec.and_allOnes, BitVec.zero_or]

theorem write_byte (hmask : f.mask reg = 0xFFFFFFFF) (a : Nat) :
    (f.write reg val).byte a = if a / 4 * 4 = reg then part val (a % 4) else f.byte a := by
  split
  · rename_i h
    rw [Space.byte, h, write_regs_self hmask]
    rfl
  · rename_i h
    rw [Space.byte, f.write_regs_of_ne val h, Space.byte]

/-- A write changes nothing but the bytes `as` iff it writes to the other bytes of its register what they are. -/
theorem setConfReg_only_iff (hb : s.conf b = some f) (hmask : f.mask reg = 0xFFFFFFFF) (as : List Nat) :
    Only b as s (pciSetConfReg b reg val s) ↔ ∀ a, a / 4 * 4 = reg → a ∉ as → part val (a % 4) = f.byte a := by
  have hself := setConfReg_conf_self reg val hb
  constructor
  · rintro ⟨-, g, g', hg, hg', hkept⟩ a ha has
    obtain rfl := Option.some.inj (hb.symm.trans hg)
    obtain rfl := Option.some.inj (hself.symm.trans hg')
    have hbyte := hkept a has
    rw [write_byte hmask, if_pos ha] at hbyte
    exact hbyte
  · intro h
    refine ⟨fun b' hb' => setConfReg_conf_of_ne reg val hb', f, _, hb, hself, fun a ha => ?_⟩
    rw [write_byte hmask]
    split
    · exact h a (by assumption) ha
    · rfl

theorem getConfReg_setConfReg (hb : s.conf b = some f) (hmask : f.mask reg = 0xFFFFFFFF) :
    pciGetConfReg (pciSetConfReg b reg val s) b reg = val := by
  rw [getConfReg_of_some (setConfReg_conf_self reg val hb), write_regs_self hmask]

/-! ## Writes of bytes and words -/

/-- The byte is written, and no other one. -/
def ByteWritten (b : Bdf) (reg : Nat) (val : BitVec 32) (s s' : PciState) : Prop :=
  pciGetConfRegByte s' b reg = val.setWidth 8 ∧ Only b [reg] s s'

/-- The word is written, and no other byte. -/
def WordWritten (b : Bdf) (reg : Nat) (val : BitVec 32) (s s' : PciState) : Prop :=
  pciGetConfRegWord s' b reg = val.setWidth 16 ∧ Only b [reg, reg + 1] s s'

/-- A value of `k` bytes is written to the first bytes of a register, or it is zero: the other bytes become zero. -/
theorem setConfReg_only_iff_zero (hb : s.conf b = some f) (hmask : f.mask (dwordReg reg) = 0xFFFFFFFF) {k : Nat}
    (hval : val.toNat < 2 ^ (8 * k)) {as : List Nat} (has : ∀ a, a / 4 = reg / 4 → a ∉ as → reg % 4 = 0 → k ≤ a % 4)
    (hfirst : reg % 4 = 0 ∨ val = 0) :
    Only b as s (pciSetConfReg b (dwordReg reg) val s) ↔ ∀ a, a / 4 = reg / 4 → a ∉ as → f.byte a = 0 := by
  have hpart : ∀ a, a / 4 = reg / 4 → a ∉ as → part val (a % 4) = 0 := by
    intro a ha hne
    obtain hreg | rfl := hfirst
    · exact part_eq_zero hval (has a ha hne hreg)
    · exact part_eq_zero (k := 0) (by decide) (Nat.zero_le _)
  rw [setConfReg_only_iff hb hmask]
  constructor
  · intro h a ha hne
    rw [← h a (by rw [dwordReg, ha]) hne, hpart a ha hne]
  · intro h a ha hne
    have ha' : a / 4 = reg / 4 := by
      rw [dwordReg] at ha
      omega
    rw [hpart a ha' hne, h a ha' hne]

theorem byteWritten_iff (hb : s.conf b = some f) (hmask : f.mask (dwordReg reg) = 0xFFFFFFFF) (hval : val.toNat < 2 ^ 8) :
    ByteWritten b reg val s (pciSetConfRegByte b reg val s) ↔
      (reg % 4 = 0 ∨ val = 0) ∧ ∀ a, a / 4 = reg / 4 → a ∉ [reg] → f.byte a = 0 := by
  have hget : pciGetConfRegByte (pciSetConfRegByte b reg val s) b reg = part val (reg % 4) := by
    rw [pciGetConfRegByte, pciSetConfRegByte, getConfReg_setConfReg hb hmask, part]
  have hfirst : part val (reg % 4) = val.setWidth 8 ↔ reg % 4 = 0 ∨ val = 0 := by
    by_cases hreg : reg % 4 = 0
    · rw [hreg, part, Nat.mul_zero, BitVec.ushiftRight_zero]
      exact iff_of_true rfl (.inl rfl)
    · rw [part_eq_zero (k := 1) hval (by omega), ← BitVec.toNat_inj, ← BitVec.toNat_inj (x := val), BitVec.toNat_setWidth,
        Nat.mod_eq_of_lt hval]
      show 0 = val.toNat ↔ _ ∨ val.toNat = 0
      omega
  rw [ByteWritten, hget, hfirst]
  apply and_congr_right
  apply setConfReg_only_iff_zero hb hmask (k := 1) hval
  intro a ha hne hreg
  rw [List.mem_singleton] at hne
  omega

theorem wordWritten_iff (hb : s.conf b = some f) (hmask : f.mask (dwordReg reg) = 0xFFFFFFFF) (heven : reg % 2 = 0)
    (hval : val.toNat < 2 ^ 16) :
    WordWritten b reg val s (pciSetConfRegWord b reg val s) ↔
      (reg % 4 = 0 ∨ val = 0) ∧ ∀ a, a / 4 = reg / 4 → a ∉ [reg, reg + 1] → f.byte a = 0 := by
  have hget : pciGetConfRegWord (pciSetConfRegWord b reg val s) b reg = (val >>> (8 * (reg % 4))).setWidth 16 := by
    rw [pciGetConfRegWord, pciSetConfRegWord, getConfReg_setConfReg hb hmask, show reg % 4 / 2 * 2 = reg % 4 by omega]
  have hfirst : (val >>> (8 * (reg % 4))).setWidth 16 = val.setWidth 16 ↔ reg % 4 = 0 ∨ val = 0 := by
    by_cases hreg : reg % 4 = 0
    · rw [hreg, Nat.mul_zero, BitVec.ushiftRight_zero]
      exact iff_of_true rfl (.inl rfl)
    · rw [show reg % 4 = 2 by omega, ← BitVec.toNat_inj, ← BitVec.toNat_inj (x := val), BitVec.toNat_setWidth,
        BitVec.toNat_setWidth, BitVec.toNat_ushiftRight, Nat.shiftRight_eq_div_pow, Nat.div_eq_of_lt hval, Nat.mod_eq_of_lt hval]
      show 0 = val.toNat ↔ _ ∨ val.toNat = 0
      omega
  rw [WordWritten, hget, hfirst]
  apply and_congr_right
  apply setConfReg_only_iff_zero hb hmask (k := 2) hval
  intro a ha hne hreg
  simp only [List.mem_cons, List.not_mem_nil, or_false] at hne
  omega

/-! ## The bus numbers of a bridge -/

theorem busResource_iff (hb : s.conf b = some f) (hmask : f.mask pciBusNumbers = 0xFFFFFFFF) {sec sub : Nat}
    (hbus : b.bus ≤ 255) (hsec : sec ≤ 255) (hsub : sub ≤ 255) :
    Only b [0x18, 0x19, 0x1A] s (pciUpdateBridgeBusResource b sec sub s) ↔ f.byte 0x1B = f.byte 0x7 := by
  have htop : part ((pciGetConfReg s b 0x4 &&& 0xFF000000) ||| busReg b.bus sec sub) 3 = f.byte 0x7 := by
    have hnum : (busReg b.bus sec sub).toNat < 2 ^ 24 := by
      rw [busReg_toNat hbus hsec hsub]
      omega
    rw [getConfReg_of_some hb, part, Space.byte]
    show _ = (f.regs 4 >>> (8 * 3)).setWidth 8
    apply BitVec.eq_of_getLsbD_eq
    intro i hi
    have hzero : (busReg b.bus sec sub).getLsbD (8 * 3 + i) = false :=
      Nat.testBit_lt_two_pow (lt_of_lt_of_le hnum (Nat.pow_le_pow_right (by decide) (by omega)))
    have hone : (0xFF000000 : BitVec 32).getLsbD (8 * 3 + i) = true := by
      interval_cases i <;> rfl
    rw [BitVec.getLsbD_setWidth, BitVec.getLsbD_setWidth, BitVec.getLsbD_ushiftRight, BitVec.getLsbD_ushiftRight,
      BitVec.getLsbD_or, BitVec.getLsbD_and, hzero, hone, Bool.and_true, Bool.or_false]
  rw [pciUpdateBridgeBusResource, setConfReg_only_iff hb hmask]
  constructor
  · intro h
    rw [← htop]
    exact (h 0x1B (by decide) (by decide)).symm
  · intro h a ha hne
    obtain rfl : a = 0x1B := by
      simp only [List.mem_cons, List.not_mem_nil, or_false, not_or] at hne
      rw [pciBusNumbers] at ha
      omega
    rw [h, ← htop]

/-! ## All of them -/

/-- What the three functions need of the registers to change nothing else. -/
theorem partial_writes_iff (hb : s.conf b = some f) (hmask : ∀ r, f.mask r = 0xFFFFFFFF) (reg : Nat) (val : BitVec 32)
    (sec sub : Nat) (hbus : b.bus ≤ 255) (hsec : sec ≤ 255) (hsub : sub ≤ 255) :
    (val.toNat < 2 ^ 8 → (ByteWritten b reg val s (pciSetConfRegByte b reg val s) ↔
      (reg % 4 = 0 ∨ val = 0) ∧ ∀ a, a / 4 = reg / 4 → a ∉ [reg] → f.byte a = 0)) ∧
    (reg % 2 = 0 → val.toNat < 2 ^ 16 → (WordWritten b reg val s (pciSetConfRegWord b reg val s) ↔
      (reg % 4 = 0 ∨ val = 0) ∧ ∀ a, a / 4 = reg / 4 → a ∉ [reg, reg + 1] → f.byte a = 0)) ∧
    (Only b [0x18, 0x19, 0x1A] s (pciUpdateBridgeBusResource b sec sub s) ↔ f.byte 0x1B = f.byte 0x7) := by
  refine ⟨fun hval => byteWritten_iff hb (hmask _) hval, fun heven hval => wordWritten_iff hb (hmask _) heven hval, ?_⟩
  exact busResource_iff hb (hmask _) hbus hsec hsub

/-- A function with the registers `regs`, of which all bits can be written -/
def plain (regs : Nat → BitVec 32) : PciState where
  conf b := if b = ⟨1, 0, 0⟩ then some { regs, mask := fun _ => 0xFFFFFFFF } else none
  cycles := []
  bdf := []

/-- A byte written to a register that is zero. -/
theorem partial_writes_of_zero :
    ByteWritten ⟨1, 0, 0⟩ 0x3C 0x0B (plain fun _ => 0) (pciSetConfRegByte ⟨1, 0, 0⟩ 0x3C 0x0B (plain fun _ => 0)) := by
  have hconf : (plain fun _ => 0).conf ⟨1, 0, 0⟩ = some { regs := fun _ => 0, mask := fun _ => 0xFFFFFFFF } := rfl
  apply ((partial_writes_iff hconf (fun _ => rfl) 0x3C 0x0B 0 0 (by decide) (by decide) (by decide)).1 (by decide)).2
  exact ⟨.inl rfl, fun a _ _ => by rw [Space.byte]; simp⟩

/-- The interrupt line is written and the interrupt pin behind it is lost; the pin itself cannot be written; and the upper
byte of the bus numbers becomes that of the status register. -/
theorem partial_writes_lost :
    pciGetConfReg (pciSetConfRegByte ⟨1, 0, 0⟩ 0x3C 0x0B (plain fun _ => 0x10100)) ⟨1, 0, 0⟩ 0x3C = 0x0B ∧
    pciGetConfRegByte (pciSetConfRegByte ⟨1, 0, 0⟩ 0x3D 0x02 (plain fun _ => 0x10100)) ⟨1, 0, 0⟩ 0x3D = 0 ∧
    pciGetConfRegWord (pciSetConfRegWord ⟨1, 0, 0⟩ 0x06 0x0010 (plain fun _ => 0x10100)) ⟨1, 0, 0⟩ 0x06 = 0 ∧
    pciGetConfRegByte (pciUpdateBridgeBusResource ⟨1, 0, 0⟩ 2 3
      (plain fun reg => if reg = 0x18 then 0x40000000 else 0)) ⟨1, 0, 0⟩ 0x1B = 0 ∧
    ¬ByteWritten ⟨1, 0, 0⟩ 0x3D 0x02 (plain fun _ => 0x10100) (pciSetConfRegByte ⟨1, 0, 0⟩ 0x3D 0x02 (plain fun _ => 0x10100)) := by
  refine ⟨by decide, by decide, by decide, by decide, fun h => ?_⟩
  exact absurd h.1 (by decide)

end Sdfirm.Pci
