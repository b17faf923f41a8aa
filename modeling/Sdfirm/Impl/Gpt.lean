import Mathlib

/-!
# GPT partitions (`kernel/uefi/uefi_gpt.c`)

`gpt_get_part_by_name` and `gpt_get_file_by_name`, for arguments that are not `NULL`. What the loader
reads is a function of the address. A name is the list of its characters before
the NUL; `char` is unsigned, as on ARM and RISC-V.
-/

namespace Sdfirm.Gpt

abbrev Flash := Nat → BitVec 8

/-- The number with `n` bytes at `addr`. -/
def le (flash : Flash) : (addr n : Nat) → Nat
  | _, 0 => 0
  | addr, n + 1 => (flash addr).toNat + 2 ^ 8 * le flash (addr + 1) n

/-- `struct gpt_entry`, without the type and the attributes. -/
structure Entry where
  guid : Nat → BitVec 8
  lbaStart : BitVec 64
  lbaEnd : BitVec 64
  name : Nat → BitVec 16

/-- What the loader copies into the buffer. -/
def entryAt (flash : Flash) (addr : Nat) : Entry where
  guid i := flash (addr + 16 + i)
  lbaStart := .ofNat 64 (le flash (addr + 32) 8)
  lbaEnd := .ofNat 64 (le flash (addr + 40) 8)
  name i := .ofNat 16 (le flash (addr + 56 + 2 * i) 2)

/-- `GPT_PART_NAME_LEN`. -/
def partNameLen : Nat := 36

/-- `GPT_PGPT_PART_CNT`. -/
def partCnt : Nat := (34 - 2) * 4

/-- The entry number `i`; each has 128 bytes, from sector 2 on. -/
def entry (flash : Flash) (i : Nat) : Entry := entryAt flash (512 * 2 + 128 * i)

/-- `uuid_empty`. -/
def uuidEmpty (guid : Nat → BitVec 8) : Bool := (List.range 16).all (guid · = 0)

/-- `name_str[i]`, the NUL after the last character included. -/
def charAt (name : List (BitVec 8)) (i : Nat) : BitVec 8 := name.getD i 0

/-- The loop of `gpt_entry_check_name`, with `n` repetitions left. -/
def checkName (e : Entry) (name : List (BitVec 8)) : (n i : Nat) → Nat
  | 0, _ => 1
  | n + 1, i =>
    if charAt name i = 0 ∧ (e.name i).setWidth 8 = 0 then 0
    else if charAt name i ≠ (e.name i).setWidth 8 then 1
    else checkName e name n (i + 1)

/-- `gpt_entry_check_name`. -/
def gptEntryCheckName (e : Entry) (name : List (BitVec 8)) : Nat := checkName e name partNameLen 0

/-- The loop of `gpt_get_part_by_name`: the number of the entry found, counted from 0. -/
def searchEntries (flash : Flash) (name : List (BitVec 8)) : (n i : Nat) → Option Nat
  | 0, _ => none
  | n + 1, i =>
    if uuidEmpty (entry flash i).guid then none
    else if gptEntryCheckName (entry flash i) name ≠ 0 then searchEntries flash name n (i + 1)
    else some i

/-- `*offset`, `*size` and `*pad_size`. -/
structure Out where
  offset : BitVec 32
  size : BitVec 32
  padSize : BitVec 16

/-- What is written for an entry that is found. -/
def Entry.out (e : Entry) : Out where
  offset := (e.lbaStart <<< 9).setWidth 32
  size := ((e.lbaEnd + 1 - e.lbaStart) <<< 9).setWidth 32
  padSize := ((e.guid 14).setWidth 16) <<< 8 + (e.guid 15).setWidth 16

def gptGetPartByName (flash : Flash) (name : List (BitVec 8)) (out : Out) : Nat × Out :=
  match searchEntries flash name partCnt 0 with
  | some i => (i + 1, (entry flash i).out)
  | none => (0, out)

/-- `gpt_get_file_by_name`, where `pad` is what the local `pad_size` holds before anything is assigned to it: the return
value, `*offset` and `*size`. -/
def gptGetFileByName (flash : Flash) (name : List (BitVec 8)) (pad : BitVec 16) (offset size : BitVec 32) :
    Nat × BitVec 32 × BitVec 32 :=
  let (ret, out) := gptGetPartByName flash name ⟨offset, size, pad⟩
  (ret, out.offset, out.size - out.padSize.setWidth 32)

end Sdfirm.Gpt
