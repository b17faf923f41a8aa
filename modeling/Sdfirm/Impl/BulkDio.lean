import Mathlib

/-!
# Synchronous bulk transfers (`kernel/bulk_dio.c`)

`bulk_transfer_sync` moves bytes from a reader to a writer. Each of the two is
opened for a window and closed after it; the side with the smaller flush size is
opened and closed inside the windows of the other.
-/

namespace Sdfirm.BulkDio

abbrev Byte := BitVec 8

/-- What is called: `r.c` or `w.c` -/
inductive Side where
  | reader
  | writer
  deriving DecidableEq, Repr

/-- A call of one side: `open`, `close`, and `read` or `write` -/
inductive Call where
  | opened (offset : Nat)
  | byte
  | closed (size : Nat)
  deriving DecidableEq, Repr

/-- A channel with the calls so far -/
structure Chan where
  /-- The bytes that `write_byte` has got -/
  written : List Byte
  /-- The number of calls of `read_byte` -/
  reads : Nat
  log : Side → List Call

def Chan.init : Chan := ⟨[], 0, fun _ => []⟩

/-- A call is made. -/
def Chan.call (c : Chan) (side : Side) (x : Call) : Chan := { c with log := Function.update c.log side (c.log side ++ [x]) }

/-- `write_byte(read_byte())`, where `input` are the bytes of the reader. -/
def moveByte (input : Nat → Byte) (c : Chan) : Chan :=
  let d := (c.call .reader .byte).call .writer .byte
  { d with written := c.written ++ [input c.reads], reads := c.reads + 1 }

/-- The innermost loops -/
def moveBytes (input : Nat → Byte) : Nat → Chan → Chan
  | 0, c => c
  | n + 1, c => moveBytes input n (moveByte input c)

/-- The loop inside a window: windows of the other side, as many as are left. `bulk_size_t` has 16 bits. -/
def innerLoop (input : Nat → Byte) (side : Side) (flush size : Nat) : Nat → Nat → Chan → Nat × Chan
  | 0, iter, c => (iter, c)
  | left + 1, iter, c =>
    let chunk := min flush (size - iter) % 2 ^ 16
    let c := (moveBytes input chunk (c.call side (.opened iter))).call side (.closed chunk)
    innerLoop input side flush size left (iter + chunk) c

/-- A window of the side `outer`, with windows of the side `inner` in it. -/
def window (input : Nat → Byte) (outer inner : Side) (outerFlush innerFlush size iter : Nat) (c : Chan) : Nat × Chan :=
  let chunk := min outerFlush (size - iter) % 2 ^ 16
  let (iter, c) := innerLoop input inner innerFlush size chunk iter (c.call outer (.opened iter))
  (iter, c.call outer (.closed chunk))

/-- A round of the loop of `bulk_transfer_sync`. -/
def round (input : Nat → Byte) (rflush wflush size iter : Nat) (c : Chan) : Nat × Chan :=
  if rflush < wflush then window input .writer .reader wflush rflush size iter c
  else window input .reader .writer rflush wflush size iter c

/-- The loop of `bulk_transfer_sync`, with at most `steps` rounds. -/
def transferLoop (input : Nat → Byte) (rflush wflush size : Nat) : Nat → Nat → Chan → Option Chan
  | 0, _, _ => none
  | steps + 1, iter, c =>
    if size - iter = 0 then some c
    else
      let (iter, c) := round input rflush wflush size iter c
      transferLoop input rflush wflush size steps iter c

/-- `bulk_transfer_sync`. -/
def bulkTransferSync (steps : Nat) (input : Nat → Byte) (rflush wflush size : Nat) : Option Chan :=
  transferLoop input rflush wflush size steps 0 Chan.init

end Sdfirm.BulkDio
