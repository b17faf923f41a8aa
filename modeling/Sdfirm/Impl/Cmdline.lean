import Mathlib

/-!
# Commands (`kernel/cmdline.c`)

`cmd_parse`, and `cmd_batch` with `parse_batch`. A string is the list of its characters
before the NUL. An argument is the characters between its start and the NUL that is
written behind it, and `argv` is the list of the entries written, with `none` for
`NULL`. Both loops count the entries of `argv` that are left.
-/

namespace Sdfirm.Cmdline

/-- `MAXARGS`. -/
def maxargs : Nat := 10

/-- `isblank`. -/
def isblank (c : Char) : Bool := c = ' ' || c = '\t'

/-- What separates arguments in a batch. -/
def isSep (c : Char) : Bool := isblank c || c = ';'

abbrev Word := List Char

/-- The loop of `cmd_parse`: `nargs`, and what is written to `argv` from there on. -/
def parseArgs : (left nargs : Nat) → (line : List Char) → Nat × List (Option Word)
  | 0, nargs, _ => (nargs, [])
  | left + 1, nargs, line =>
    match line.dropWhile isblank with
    | [] => (nargs, [none])
    | line@(_ :: _) =>
      let arg := line.takeWhile (!isblank ·)
      match line.dropWhile (!isblank ·) with
      | [] => (nargs + 1, [some arg, none])
      | _ :: line =>
        let (nargs, argv) := parseArgs left (nargs + 1) line
        (nargs, some arg :: argv)

def cmdParse (line : List Char) : Nat × List (Option Word) := parseArgs maxargs 0 line

/-- What `parse_batch` leaves: `*args`, if it is set, `argv`, and the rest of the line that it returns. -/
structure Parsed where
  args : Option Nat
  argv : List (Option Word)
  rest : Option (List Char)

/-- The loop of `parse_batch`. -/
def parseBatch : (left nargs : Nat) → (line : List Char) → Parsed
  | 0, _, _ => ⟨none, [], none⟩
  | left + 1, nargs, line =>
    match line.dropWhile isSep with
    | [] => ⟨some nargs, [none], none⟩
    | line@(_ :: _) =>
      let arg := line.takeWhile (!isSep ·)
      match line.dropWhile (!isSep ·) with
      | [] => ⟨some (nargs + 1), [some arg, none], none⟩
      | c :: line =>
        if c = ';' then ⟨some (nargs + 1), [some arg, none], some line⟩
        else
          let r := parseBatch left (nargs + 1) line
          { r with argv := some arg :: r.argv }

/-- What `cmd_execute` is called with. -/
abbrev Call := Nat × List (Option Word)

/-- The loop of `cmd_batch`: the calls of `cmd_execute`. It has a bound, with `none` past it. -/
def batchLoop : (fuel : Nat) → (line : List Char) → Option (List Call)
  | 0, _ => none
  | fuel + 1, line =>
    let r := parseBatch maxargs 0 line
    let argc := r.args.getD 0
    let executed := if 0 < argc then [(argc, r.argv)] else []
    match r.rest with
    | none => some executed
    | some line => (batchLoop fuel line).map (executed ++ ·)

/-- `cmd_batch`, with the batch string `line`. -/
def cmdBatch (line : List Char) : Option (List Call) := batchLoop (line.length + 1) line

end Sdfirm.Cmdline
