import Sdfirm.Impl.Msi
import Sdfirm.Proof.Framework.Runs

/-!
# What the mapping of MSI vectors is for

A `Trace` is a history of reservations and registrations: what was reserved,
and which vector of which CPU each successful registration was given.
-/

namespace Sdfirm.Msi

open Bitops

structure Trace where
  state : MsiState
  /-- The registrations that succeeded: CPU, vector and irq. -/
  pairs : List (Nat × Nat × Nat)
  /-- What has been reserved: CPU and vector. -/
  resv : List (Nat × Nat)

inductive Op where
  | register (irq : Nat)
  | reserve (start last : Nat)

variable (c : Config) (online : Bitmap)

/-- One call; the vectors that are reserved exist. -/
def step (t : Trace) : Op → Option Trace
  | .register irq =>
    let (s, ret, aff) := irqRegisterMapping c online irq t.state
    some { t with state := s
                  pairs := if ret = c.invalidIrq then t.pairs
                    else (aff.toList.map fun cpu => (cpu, c.irqMsi ret, irq)) ++ t.pairs }
  | .reserve start last =>
    if last < c.nrMsiIrqs then
      (irqReserveMapping c online start last t.state).map fun s =>
        { t with state := s, resv := reservePairs c online start last ++ t.resv }
    else none

abbrev Run : Trace → Prop :=
  Framework.Run (step c online) (fun t => t = ⟨⟨fun _ _ => 0, fun _ _ => 0, fun _ _ => 0⟩, [], []⟩) fun _ _ => True

/-- The vector has been registered or reserved. -/
def Taken (t : Trace) (cpu v : Nat) : Prop := (∃ irq, (cpu, v, irq) ∈ t.pairs) ∨ (cpu, v) ∈ t.resv

/-- The CPU is online. -/
def Online (cpu : Nat) : Prop := cpu < c.nrCpus ∧ testBit c.unit cpu online = true

/-- What the mapping has to be after any history, with lookups from the CPUs that `near` admits. -/
structure Mapped (near : Nat → Nat → Prop) (t : Trace) : Prop where
  distinct : (t.pairs.map fun p => (p.1, p.2.1)).Nodup
  unreserved : ∀ p ∈ t.pairs, (p.1, p.2.1) ∉ t.resv
  fails : ∀ irq, (irqRegisterMapping c online irq t.state).2.1 = c.invalidIrq ↔
    ∀ cpu, Online c online cpu → ∀ v < c.nrMsiIrqs, Taken t cpu v
  located : ∀ this cpu v irq, near this cpu → (cpu, v, irq) ∈ t.pairs →
    irqLocateMapping c this cpu (c.msiIrq v) t.state = irq
  absent : ∀ this cpu v, v < c.nrMsiIrqs → ¬Taken t cpu v →
    irqLocateMapping c this cpu (c.msiIrq v) t.state = c.invalidIrq

end Sdfirm.Msi
