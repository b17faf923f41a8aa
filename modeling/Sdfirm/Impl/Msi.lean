import Sdfirm.Impl.Bitops

/-!
# The mapping of MSI vectors (`kernel/msi.c`)

The per-CPU variables are functions from the CPU. A `BUG_ON` that fires is
`none`. `for_each_cpu` walks the CPUs of a mask with `find_next_set_bit`
(`include/target/smp.h`, with `CONFIG_SMP`).
-/

namespace Sdfirm.Msi

open Bitops

structure Config where
  /-- `BITS_PER_UNIT` -/
  unit : Nat
  /-- `NR_CPUS` -/
  nrCpus : Nat
  /-- `NR_INT_IRQS` -/
  nrIntIrqs : Nat
  /-- `NR_MSI_IRQS` -/
  nrMsiIrqs : Nat
  /-- `NR_IRQS` -/
  nrIrqs : Nat
  /-- The width of `irq_t`. -/
  irqBits : Nat
  unitBits : UnitBits unit
  nrMsiIrqs_le : nrIntIrqs + nrMsiIrqs ≤ nrIrqs
  nrIrqs_lt : nrIrqs < 2 ^ irqBits

namespace Config

variable (c : Config)

/-- `INVALID_IRQ`. -/
def invalidIrq : Nat := c.nrIrqs

/-- `MSI_IRQ`, as an `irq_t`. -/
def msiIrq (irq : Nat) : Nat := (c.nrIntIrqs + irq) % 2 ^ c.irqBits

/-- `irq_msi`, as an `irq_t`. -/
def irqMsi (irq : Nat) : Nat := (irq + (2 ^ c.irqBits - c.nrIntIrqs)) % 2 ^ c.irqBits

end Config

structure MsiState where
  /-- `irq_msi_alloc` -/
  alloc : Nat → Bitmap
  /-- `irq_msi_reserved` -/
  reserved : Nat → Bitmap
  /-- `irq_msi_vector` -/
  vector : Nat → Nat → Nat

variable (c : Config)

/-- `for_each_cpu` from `cpu` on. -/
def cpusFrom (mask : Bitmap) : (fuel cpu : Nat) → List Nat
  | 0, _ => []
  | fuel + 1, cpu =>
    if cpu < c.nrCpus then cpu :: cpusFrom mask fuel (findNextSetBit c.unit mask c.nrCpus (cpu + 1)) else []

/-- `for_each_cpu`. -/
def forEachCpu (mask : Bitmap) : List Nat :=
  cpusFrom c mask (c.nrCpus + 1) (findNextSetBit c.unit mask c.nrCpus 0)

/-- The loop of `__irq_register_mapping`, which returns `msi` and the CPU written to `aff`. -/
def registerLoop (irq : Nat) (s : MsiState) : (cpus : List Nat) → (msi : Nat) → MsiState × Nat × Option Nat
  | [], msi => (s, msi, none)
  | cpu :: cpus, _ =>
    let msi := findNextClearBit c.unit (s.alloc cpu) c.nrMsiIrqs 0
    if msi = c.nrMsiIrqs then registerLoop irq s cpus msi
    else
      ({ s with alloc := Function.update s.alloc cpu (setBit c.unit msi (s.alloc cpu))
                vector := Function.update s.vector cpu (Function.update (s.vector cpu) msi irq) }, msi, some cpu)

/-- `irq_register_mapping`. -/
def irqRegisterMapping (online : Bitmap) (irq : Nat) (s : MsiState) : MsiState × Nat × Option Nat :=
  let (s, msi, aff) := registerLoop c irq s (forEachCpu c online) c.invalidIrq
  (s, if msi = c.nrMsiIrqs then c.invalidIrq else c.msiIrq msi, aff)

/-- The body of the loops of `__irq_reserve_mapping`. -/
def reserveOne (s : MsiState) (pair : Nat × Nat) : Option MsiState :=
  let (cpu, msi) := pair
  if testBit c.unit msi (s.alloc cpu) || testBit c.unit msi (s.reserved cpu) then none
  else some { s with
    alloc := Function.update s.alloc cpu (setBit c.unit msi (s.alloc cpu))
    reserved := Function.update s.reserved cpu (setBit c.unit msi (s.reserved cpu)) }

/-- What those loops run over, for the vectors from `start` to `last`. -/
def reservePairs (online : Bitmap) (start last : Nat) : List (Nat × Nat) :=
  (forEachCpu c online).flatMap fun cpu => (List.range' start (last + 1 - start)).map fun msi => (cpu, msi)

/-- `irq_reserve_mapping`. -/
def irqReserveMapping (online : Bitmap) (start last : Nat) (s : MsiState) : Option MsiState :=
  (reservePairs c online start last).foldlM (reserveOne c) s

/-- `irq_locate_mapping`, called on the CPU `this`. -/
def irqLocateMapping (this cpu irq : Nat) (s : MsiState) : Nat :=
  let msi := c.irqMsi irq
  if testBit c.unit msi (s.alloc cpu) then s.vector this msi else c.invalidIrq

end Sdfirm.Msi
