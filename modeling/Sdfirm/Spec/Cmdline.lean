import Sdfirm.Impl.Cmdline

/-!
# What the splitting of commands is for

A batch is cut at its semicolons, a piece at its blanks. Every piece with words is a
command; one with more words than `argv` has room for is left out, and only that one.
-/

namespace Sdfirm.Cmdline

/-- The words between blanks. -/
def words (line : List Char) : List Word := (line.splitOnP isblank).filter (· ≠ [])

/-- The pieces between semicolons. -/
def pieces (line : List Char) : List (List Char) := line.splitOnP (· = ';')

/-- A call with these words as arguments and `NULL` after the last. -/
def call (ws : List Word) : Call := (ws.length, ws.map some ++ [none])

/-- The calls for a batch. -/
def calls (line : List Char) : List Call :=
  (((pieces line).map words).filter fun ws => ws ≠ [] ∧ ws.length ≤ maxargs).map call

/-- The last character is a blank. -/
def EndsBlank (line : List Char) : Prop := line.getLast?.any isblank = true

instance (line : List Char) : Decidable (EndsBlank line) := instDecidableEqBool _ _

/-- The words have room in `left` entries of `argv`, the last of which is filled by a word without a blank after it. -/
def Fits (left : Nat) (line : List Char) : Prop :=
  (words line).length < left ∨ (words line).length = left ∧ ¬EndsBlank line

instance (left : Nat) (line : List Char) : Decidable (Fits left line) :=
  inferInstanceAs (Decidable ((words line).length < left ∨ (words line).length = left ∧ ¬EndsBlank line))

/-- A piece that ends with a blank is the last one with words, and has room for one more; and after a piece with too many
words there are only pieces with too many words. The pieces are those with words. -/
def Apart : List (List Char) → Prop
  | [] => True
  | p :: ps =>
    if (words p).length ≤ maxargs then (EndsBlank p → ps = [] ∧ (words p).length < maxargs) ∧ Apart ps
    else ∀ q ∈ ps, maxargs < (words q).length

instance Apart.decidable : (ps : List (List Char)) → Decidable (Apart ps)
  | [] => inferInstanceAs (Decidable True)
  | p :: ps =>
    have := Apart.decidable ps
    inferInstanceAs (Decidable (if (words p).length ≤ maxargs then _ else _))

end Sdfirm.Cmdline
