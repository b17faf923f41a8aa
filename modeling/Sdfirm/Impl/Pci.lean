import Mathlib

/-!
# The scan of the PCI buses (`kernel/pci/pci.c`)

The configuration space of a function is a register for each offset, with the
bits of it that can be written; a function that does not answer reads as ones.
`cycles` are the configuration writes in their order. Bus numbers are natural
numbers, as an `int` that is not negative.

`pci_get_bridge_resource` and the two lists of capabilities only read and print.
The scan leaves them out, and so are `bar[]`, which only `mem_test` reads, and
the windows that `pci_update_bar_resource` writes to the host controller.
-/

namespace Sdfirm.Pci

/-- The configuration space of a function. -/
structure Space where
  regs : Nat → BitVec 32
  /-- The bits of a register that can be written. -/
  mask : Nat → BitVec 32

def Space.write (f : Space) (reg : Nat) (val : BitVec 32) : Space :=
  { f with regs := Function.update f.regs reg ((f.regs reg &&& ~~~f.mask reg) ||| (val &&& f.mask reg)) }

/-- `bdf_t`, and where a configuration cycle goes to. -/
structure Bdf where
  bus : Nat
  dev : Nat
  fn : Nat
  deriving DecidableEq, Repr

/-- A configuration write. -/
structure Cycle where
  bdf : Bdf
  reg : Nat
  val : BitVec 32
  deriving DecidableEq, Repr

structure PciState where
  conf : Bdf → Option Space
  cycles : List Cycle
  /-- `pci_bdf[index].bdf[0..offset)` -/
  bdf : List Bdf

/-- `PCI_COMMAND`. -/
def pciCommand : Nat := 0x4

/-- The register with the bus numbers of a bridge. -/
def pciBusNumbers : Nat := 0x18

/-- `PCI_BaseAddressRegister0 + i * 4`. -/
def pciBaseAddressRegister (i : Nat) : Nat := 0x10 + i * 4

/-! ## Configuration registers -/

/-- `pci_get_conf_reg`. -/
def pciGetConfReg (s : PciState) (b : Bdf) (reg : Nat) : BitVec 32 :=
  match s.conf b with
  | some f => f.regs reg
  | none => 0xFFFFFFFF

/-- `pci_set_conf_reg`. -/
def pciSetConfReg (b : Bdf) (reg : Nat) (val : BitVec 32) (s : PciState) : PciState :=
  { s with
    conf := Function.update s.conf b ((s.conf b).map (·.write reg val))
    cycles := s.cycles ++ [⟨b, reg, val⟩] }

/-- `reg & 0xfffffffc`. -/
def dwordReg (reg : Nat) : Nat := reg / 4 * 4

/-- `pci_get_conf_reg_word`. The shift is by `reg & 0x2` bytes. -/
def pciGetConfRegWord (s : PciState) (b : Bdf) (reg : Nat) : BitVec 16 :=
  (pciGetConfReg s b (dwordReg reg) >>> (8 * (reg % 4 / 2 * 2))).setWidth 16

/-- `pci_get_conf_reg_byte`. -/
def pciGetConfRegByte (s : PciState) (b : Bdf) (reg : Nat) : BitVec 8 :=
  (pciGetConfReg s b (dwordReg reg) >>> (8 * (reg % 4))).setWidth 8

/-- `pci_set_conf_reg_word`. What is put together of the register and of `val` in `tmp` is not written, but `val`. -/
def pciSetConfRegWord (b : Bdf) (reg : Nat) (val : BitVec 32) (s : PciState) : PciState := pciSetConfReg b (dwordReg reg) val s

/-- `pci_set_conf_reg_byte`, in which `tmp` is not written either. -/
def pciSetConfRegByte (b : Bdf) (reg : Nat) (val : BitVec 32) (s : PciState) : PciState := pciSetConfReg b (dwordReg reg) val s

/-- `pci_get_ids`. -/
def pciGetIds (s : PciState) (b : Bdf) : BitVec 32 := pciGetConfReg s b 0x0

/-- The byte at 0xE, of the register at 0xC. -/
def headerByte (val : BitVec 32) : BitVec 32 := (val &&& 0x00FF0000) >>> 16

/-- `PCI_HeaderLayout`. -/
def pciHeaderLayout (val : BitVec 32) : BitVec 32 := val &&& 0x7F

/-- `pci_get_headertype`. -/
def pciGetHeadertype (s : PciState) (b : Bdf) : BitVec 32 := pciHeaderLayout (headerByte (pciGetConfReg s b 0xC))

/-- `pci_is_multi_fun`, which asks function 0 of the device. -/
def pciIsMultiFun (s : PciState) (bus dev : Nat) : Bool := headerByte (pciGetConfReg s ⟨bus, dev, 0⟩ 0xC) &&& 0x80 ≠ 0

/-- The value `pci_update_bridge_bus_resource` makes of the bus numbers. -/
def busReg (bus secBus subBus : Nat) : BitVec 32 := BitVec.ofNat 32 (subBus <<< 16 ||| secBus <<< 8 ||| bus)

/-- `pci_update_bridge_bus_resource`. The upper byte is that of the register at 0x4. -/
def pciUpdateBridgeBusResource (b : Bdf) (secBus subBus : Nat) (s : PciState) : PciState :=
  pciSetConfReg b pciBusNumbers ((pciGetConfReg s b 0x4 &&& 0xFF000000) ||| busReg b.bus secBus subBus) s

/-- `pci_set_mem_en`. -/
def pciSetMemEn (b : Bdf) (s : PciState) : PciState :=
  pciSetConfReg b pciCommand (pciGetConfReg s b pciCommand ||| 0x2 ||| 0x4) s

/-- `add_pci_bdf`. -/
def addPciBdf (b : Bdf) (s : PciState) : PciState :=
  if 32 ≤ s.bdf.length then s else { s with bdf := s.bdf ++ [⟨b.bus % 2 ^ 8, b.dev % 2 ^ 8, b.fn % 2 ^ 8⟩] }

/-! ## Base addresses -/

/-- The offsets of `pci_update_bar_resource`. -/
structure Offsets where
  io : BitVec 64
  mem : BitVec 64
  premem : BitVec 64

/-- The bytes of an address register that has read `val` after ones were written. -/
def barSize (val bits : BitVec 32) : BitVec 64 := 0xFFFFFFFF - (val &&& bits).setWidth 64 + 1

/-- A memory register of 32 bits that has read `val`. -/
def barMem32 (b : Bdf) (i : Nat) (val : BitVec 32) (o : Offsets) (s : PciState) : Offsets × PciState :=
  let size := barSize val 0xFFFFFFF0
  if val &&& 0x8 ≠ 0 then
    ({ o with premem := o.premem + size }, pciSetConfReg b (pciBaseAddressRegister i) (o.premem.setWidth 32) s)
  else ({ o with mem := o.mem + size }, pciSetConfReg b (pciBaseAddressRegister i) (o.mem.setWidth 32) s)

/-- An I/O register that has read `val`. -/
def barIo (b : Bdf) (i : Nat) (val : BitVec 32) (o : Offsets) (s : PciState) : Offsets × PciState :=
  ({ o with io := o.io + barSize val 0xFFFFFFC0 }, pciSetConfReg b (pciBaseAddressRegister i) (o.io.setWidth 32) s)

/-- The second register of a pair that is not one of 64 bits. -/
def barSecond (b : Bdf) (i : Nat) (o : Offsets) (s : PciState) : Offsets × PciState :=
  let s := pciSetConfReg b (pciBaseAddressRegister i) 0xFFFFFFFF s
  let val := pciGetConfReg s b (pciBaseAddressRegister i)
  if val = 0 then (o, s) else if val &&& 1 = 0 then barMem32 b i val o s else barIo b i val o s

/-- A pair that is one register of 64 bits. -/
def bar64 (b : Bdf) (i : Nat) (prefetch : Bool) (o : Offsets) (s : PciState) : Offsets × PciState :=
  let s := pciSetConfReg b (pciBaseAddressRegister i) 0xFFFFFFFF s
  let s := pciSetConfReg b (pciBaseAddressRegister (i + 1)) 0xFFFFFFFF s
  let val := pciGetConfReg s b (pciBaseAddressRegister (i + 1)) ++ pciGetConfReg s b (pciBaseAddressRegister i)
  let size : BitVec 64 := 0xFFFFFFFFFFFFFFFF - (val &&& 0xFFFFFFFFFFFFFFF0) + 1
  let offset := if prefetch then o.premem else o.mem
  let s := pciSetConfReg b (pciBaseAddressRegister i) (offset.setWidth 32) s
  let s := pciSetConfReg b (pciBaseAddressRegister (i + 1)) ((offset >>> 32).setWidth 32) s
  (if prefetch then { o with premem := o.premem + size } else { o with mem := o.mem + size }, s)

/-- One iteration of `pci_update_bar_resource`. -/
def barPair (b : Bdf) (i : Nat) (o : Offsets) (s : PciState) : Offsets × PciState :=
  if pciGetHeadertype s b = 0 then
    let val := pciGetConfReg s b (pciBaseAddressRegister i)
    if val &&& 1 = 0 then
      if (val >>> 1) &&& 3 = 0 then
        let s := pciSetConfReg b (pciBaseAddressRegister i) 0xFFFFFFFF s
        let val := pciGetConfReg s b (pciBaseAddressRegister i)
        let (o, s) := if val = 0 then (o, s) else barMem32 b i val o s
        barSecond b (i + 1) o s
      else if (val >>> 1) &&& 3 = 2 then bar64 b i (val &&& 0x8 ≠ 0) o s
      else (o, s)
    else
      let s := pciSetConfReg b (pciBaseAddressRegister i) 0xFFFFFFFF s
      let (o, s) := barIo b i (pciGetConfReg s b (pciBaseAddressRegister i)) o s
      barSecond b (i + 1) o s
  else (o, s)

/-- `pci_update_bar_resource`. -/
def pciUpdateBarResource (b : Bdf) (s : PciState) : PciState :=
  let (o, s) := barPair b 0 ⟨0, 0, 0⟩ s
  let (o, s) := barPair b 2 o s
  (barPair b 4 o s).2

/-! ## Capabilities -/

/-- The loop of `pci_find_capability`, with `ttl` repetitions left. -/
def findCapability (s : PciState) (b : Bdf) (cap : Nat) : (ttl pos : Nat) → Nat
  | 0, _ => 0
  | ttl + 1, pos =>
    if pos < 0x40 then 0
    else
      let pos := dwordReg pos
      let ent := pciGetConfRegWord s b pos
      let id := ent.toNat % 2 ^ 8
      if id = 0xFF then 0 else if id = cap then pos else findCapability s b cap ttl (ent.toNat >>> 8)

/-- `pci_find_capability`. -/
def pciFindCapability (s : PciState) (b : Bdf) (cap : Nat) : Nat :=
  findCapability s b cap 48 (pciGetConfRegByte s b 0x34).toNat

/-- An index into `cap_list` or `cap_ext_list`, which have `max` entries. -/
def capListIndex (max id : Nat) : Option Nat := if 0 ≤ (id : Int) - 1 ∧ (id : Int) - 1 < max then some (id - 1) else none

/-- The loop of `pci_find_capability_list`: the entries that are printed, with the positions, and `none` for an index out
of bounds. -/
def findCapabilityList (s : PciState) (b : Bdf) : (ttl pos : Nat) → Option (List (Nat × Nat))
  | 0, _ => some []
  | ttl + 1, pos =>
    if pos < 0x40 then some []
    else
      let pos := dwordReg pos
      let ent := pciGetConfRegWord s b pos
      let id := ent.toNat % 2 ^ 8
      if id = 0xFF then some []
      else do
        let name ← capListIndex 20 id
        return (name, pos) :: (← findCapabilityList s b ttl (ent.toNat >>> 8))

/-- `pci_find_capability_list`. -/
def pciFindCapabilityList (s : PciState) (b : Bdf) : Option (List (Nat × Nat)) :=
  findCapabilityList s b 48 (pciGetConfRegByte s b 0x34).toNat

/-- `PCI_EXT_CAP_ID`. -/
def pciExtCapId (header : BitVec 32) : Nat := header.toNat % 2 ^ 16

/-- `PCI_EXT_CAP_NEXT`, `(header >> 20) & 0xffc`. -/
def pciExtCapNext (header : BitVec 32) : Nat := header.toNat / 2 ^ 20 % 2 ^ 12 / 4 * 4

/-- The loop of `pci_find_ext_capability`. -/
def findExtCapability (s : PciState) (b : Bdf) (cap : Nat) : (ttl pos : Nat) → (header : BitVec 32) → Nat
  | 0, _, _ => 0
  | ttl + 1, pos, header =>
    if pciExtCapId header = cap then pos
    else
      let pos := pciExtCapNext header
      if pos < 0x100 then 0 else findExtCapability s b cap ttl pos (pciGetConfReg s b pos)

/-- `pci_find_ext_capability`. -/
def pciFindExtCapability (s : PciState) (b : Bdf) (cap : Nat) : Nat :=
  let header := pciGetConfReg s b 0x100
  if header = 0 then 0 else findExtCapability s b cap ((4096 - 256) / 8) 0x100 header

/-- The loop of `pci_find_ext_capability_list`. -/
def findExtCapabilityList (s : PciState) (b : Bdf) : (ttl pos : Nat) → Option (List (Nat × Nat))
  | 0, _ => some []
  | ttl + 1, pos =>
    let header := pciGetConfReg s b pos
    if header = 0 then some []
    else do
      let name ← capListIndex 46 (pciExtCapId header)
      let next := pciExtCapNext header
      return (name, pos) :: (← if next < 0x100 then some [] else findExtCapabilityList s b ttl next)

/-- `pci_find_ext_capability_list`. -/
def pciFindExtCapabilityList (s : PciState) (b : Bdf) : Option (List (Nat × Nat)) :=
  findExtCapabilityList s b ((4096 - 256) / 8) 0x100

/-! ## The scan -/

/-- What the scan does with each function it finds. -/
def pciConfigure (b : Bdf) (s : PciState) : PciState := pciSetMemEn b (pciUpdateBarResource b (addPciBdf b s))

/-- The loop over the functions of a device, `n` of them left from `fn` on, with the recursive call as a parameter. -/
def scanFuns (enum : Nat → PciState → Option (Nat × PciState)) (bus dev : Nat) :
    (n fn secBus subBus : Nat) → PciState → Option (Nat × PciState)
  | 0, _, _, subBus, s => some (subBus, s)
  | n + 1, fn, secBus, subBus, s => do
    let b : Bdf := ⟨bus, dev, fn⟩
    let (secBus, subBus, s) ←
      if pciGetIds s b ≠ 0xFFFFFFFF then do
        let (subBus, s) ←
          if pciGetHeadertype s b = 1 then do
            let (subBus, s) ← enum secBus s
            pure (subBus, pciUpdateBridgeBusResource b secBus subBus s)
          else pure (subBus, s)
        pure (subBus + 1, subBus, pciConfigure b s)
      else pure (secBus, subBus, s)
    if pciIsMultiFun s bus dev then scanFuns enum bus dev n (fn + 1) secBus subBus s else pure (subBus, s)

/-- `pci_enum`, with a bound on the depth of the recursion. A bus has one device, number 0. -/
def pciEnum : (fuel bus : Nat) → PciState → Option (Nat × PciState)
  | 0, _, _ => none
  | fuel + 1, bus, s => scanFuns (pciEnum fuel) bus 0 8 0 (bus + 1) bus s

/-! ## The scan of hardware that routes the cycles -/

/-- Hardware with states `σ`, as configuration cycles see it: what they find in a state, and what becomes of the state
when one function is worked on. -/
structure Access (σ : Type) where
  view : σ → PciState
  work : Bdf → (PciState → PciState) → σ → σ

/-- `scanFuns` on such hardware. -/
def scanFunsOn {σ : Type} (hw : Access σ) (enum : Nat → σ → Option (Nat × σ)) (bus dev : Nat) :
    (n fn secBus subBus : Nat) → σ → Option (Nat × σ)
  | 0, _, _, subBus, s => some (subBus, s)
  | n + 1, fn, secBus, subBus, s => do
    let b : Bdf := ⟨bus, dev, fn⟩
    let (secBus, subBus, s) ←
      if pciGetIds (hw.view s) b ≠ 0xFFFFFFFF then do
        let (subBus, s) ←
          if pciGetHeadertype (hw.view s) b = 1 then do
            let (subBus, s) ← enum secBus s
            pure (subBus, hw.work b (pciUpdateBridgeBusResource b secBus subBus) s)
          else pure (subBus, s)
        pure (subBus + 1, subBus, hw.work b (pciConfigure b) s)
      else pure (secBus, subBus, s)
    if pciIsMultiFun (hw.view s) bus dev then scanFunsOn hw enum bus dev n (fn + 1) secBus subBus s else pure (subBus, s)

/-- `pciEnum` on such hardware. -/
def pciEnumOn {σ : Type} (hw : Access σ) : (fuel bus : Nat) → σ → Option (Nat × σ)
  | 0, _, _ => none
  | fuel + 1, bus, s => scanFunsOn hw (pciEnumOn hw fuel) bus 0 8 0 (bus + 1) bus s

end Sdfirm.Pci
