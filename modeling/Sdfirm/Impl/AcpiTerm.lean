import Mathlib

/-!
# Trees of AML terms (`kernel/acpi/acpi_opcode.c`)

The heap maps the address of a term that is allocated to the term; pointers
are options, with `none` for `NULL`. To follow a pointer to a term that is not
allocated, to free such a term, a `BUG_ON` that fires, and a loop that does
not end within its bound, are `none`.
-/

namespace Sdfirm.AcpiTerm

/-- The fields of `struct acpi_term` that make up the tree, and the opcode. -/
structure Term where
  parent : Option Nat
  children : Option Nat
  next : Option Nat
  opcode : Nat
  deriving DecidableEq, Repr

abbrev Heap := Nat → Option Term

/-- `term->...` is assigned. -/
def modify (h : Heap) (a : Nat) (f : Term → Term) : Option Heap := (h a).map fun t => Function.update h a (some (f t))

-- The opcodes with arguments or targets: `acpi_opcode_num_arguments` or
-- `acpi_opcode_num_targets` is not 0.
variable (takesArgs : Nat → Bool)

/-- The loop of `acpi_term_get_arg`. -/
def getArgLoop (h : Heap) : (argn : Nat) → (arg : Option Nat) → Option (Option Nat)
  | argn + 1, some arg => (h arg).bind fun t => getArgLoop h argn t.next
  | _, arg => some arg

/-- `acpi_term_get_arg`. -/
def acpiTermGetArg (h : Heap) (term argn : Nat) : Option (Option Nat) :=
  (h term).bind fun t => if takesArgs t.opcode then getArgLoop h argn t.children else some none

/-- The first loop of `acpi_term_add_arg`. -/
def lastArg (h : Heap) : (fuel prevArg : Nat) → Option Nat
  | 0, _ => none
  | fuel + 1, prevArg => (h prevArg).bind fun t =>
    match t.next with
    | none => some prevArg
    | some next => lastArg h fuel next

/-- The second loop of `acpi_term_add_arg`. -/
def checkArgs (h : Heap) (term : Nat) : (fuel : Nat) → (arg : Option Nat) → Option Unit
  | 0, _ => none
  | _ + 1, none => some ()
  | fuel + 1, some arg => (h arg).bind fun t => if t.parent ≠ some term then none else checkArgs h term fuel t.next

/-- The assignments between the loops. -/
def linkArg (fuel : Nat) (h : Heap) (term arg : Nat) : Option Heap :=
  (h term).bind fun t =>
    match t.children with
    | some first => (lastArg h fuel first).bind fun prevArg => modify h prevArg fun t => { t with next := some arg }
    | none => modify h term fun t => { t with children := some arg }

/-- `acpi_term_add_arg`. -/
def acpiTermAddArg (fuel : Nat) (h : Heap) (term : Option Nat) (arg : Nat) : Option Heap :=
  match term with
  | none => some h
  | some term => (h term).bind fun t =>
    if takesArgs t.opcode then
      (modify h arg fun t => { t with parent := some term }).bind fun h =>
        (linkArg fuel h term arg).bind fun h => (checkArgs h term fuel (some arg)).map fun _ => h
    else some h

/-- The loop of `acpi_term_free`, with the terms freed so far. -/
def freeLoop (op : Nat) : (fuel : Nat) → Heap → (term parent : Option Nat) → List Nat → Option (Heap × List Nat)
  | 0, _, _, _, _ => none
  | _ + 1, h, none, _, freed => some (h, freed)
  | fuel + 1, h, some term, parent, freed =>
    (if some term ≠ parent then acpiTermGetArg takesArgs h term 0 else some none).bind fun next =>
      match next with
      | some next => freeLoop op fuel h (some next) parent freed
      | none => (h term).bind fun t =>
        -- `next` and `parent` are read before the term is freed
        let h := Function.update h term none
        if term = op then some (h, freed ++ [term])
        else freeLoop op fuel h (t.next.or t.parent) t.parent (freed ++ [term])

/-- `acpi_term_free`: the heap after it, and the terms in the order in which they were freed. -/
def acpiTermFree (fuel : Nat) (h : Heap) (op : Nat) : Option (Heap × List Nat) :=
  freeLoop takesArgs op fuel h (some op) none []

end Sdfirm.AcpiTerm
