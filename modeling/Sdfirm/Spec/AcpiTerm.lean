import Sdfirm.Impl.AcpiTerm
import Sdfirm.Proof.Framework.Runs

/-!
# What the deletion of a tree of terms has to do

`Built` are the heaps of trees that `acpi_term_add_arg` makes. `FreesTree` says
what deleting one term with its descendants is, by the parents of the terms.
-/

namespace Sdfirm.AcpiTerm

def parentOf (h : Heap) (x : Nat) : Option Nat := (h x).bind Term.parent

/-- `x` is `a` or one of its descendants. -/
def Descends (h : Heap) (x a : Nat) : Prop := Relation.ReflTransGen (fun x y => parentOf h x = some y) x a

/-- The heaps of trees: terms are allocated, and the root of one tree becomes the last argument of a
term of another. -/
inductive Built (takesArgs : Nat → Bool) : Heap → Prop
  | empty : Built takesArgs fun _ => none
  | alloc {h : Heap} (a opcode : Nat) : Built takesArgs h → h a = none →
      Built takesArgs (Function.update h a (some ⟨none, none, none, opcode⟩))
  | addArg {h h' : Heap} {t : Term} (fuel term arg : Nat) : Built takesArgs h → h arg = some t → t.parent = none →
      ¬Descends h term arg → acpiTermAddArg takesArgs fuel h (some term) arg = some h' → Built takesArgs h'

/-- The terms `freed` are `op` and its descendants, each once and after its children; nothing else
of the heap has changed. -/
structure FreesTree (h : Heap) (op : Nat) (h' : Heap) (freed : List Nat) : Prop where
  nodup : freed.Nodup
  mem : ∀ x, x ∈ freed ↔ Descends h x op
  childrenFirst : freed.Pairwise fun x y => parentOf h y ≠ some x
  ancestor : ∀ x, Descends h op x → x ≠ op → x ∉ freed
  sibling : ∀ x, parentOf h x = parentOf h op → x ≠ op → x ∉ freed
  heap : ∀ x, h' x = if x ∈ freed then none else h x

end Sdfirm.AcpiTerm
