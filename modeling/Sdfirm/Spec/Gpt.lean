import Sdfirm.Impl.Gpt

/-!
# What the lookup of partitions is for

The first entry with the name is found, if no entry before it is empty, and what is
returned is its place on the disk. `Confused` says for which names an entry is taken for
another.
-/

namespace Sdfirm.Gpt

/-- A name that an entry can have. -/
structure Name where
  chars : List (BitVec 8)
  nonempty : 0 < chars.length
  length_le : chars.length ≤ partNameLen
  ne_zero : ∀ c ∈ chars, c ≠ 0

section

variable (e : Entry) (name : Name)

/-- The whole name of the entry is `name`, which ends with a NUL if it does not fill the entry. -/
def NameEq : Prop := ∀ i < partNameLen, i ≤ name.chars.length → e.name i = (charAt name.chars i).setWidth 16

/-- The lower halves of the characters are those of `name`. -/
def LowEq : Prop := ∀ i < partNameLen, i ≤ name.chars.length → (e.name i).setWidth 8 = charAt name.chars i

/-- The name fills the entry, or the upper halves of its characters are not all 0. -/
def Confused : Prop :=
  name.chars.length = partNameLen ∧ NameEq e name ∨ name.chars.length < partNameLen ∧ LowEq e name ∧ ¬NameEq e name

/-- The number of bytes, or a negative number. -/
def Entry.bytes : Int := ((e.lbaEnd.toNat : Int) + 1 - e.lbaStart.toNat) * 512

/-- The pad size in the last bytes of the identifier. -/
def Entry.pad : Nat := 2 ^ 8 * (e.guid 14).toNat + (e.guid 15).toNat

/-- Offset and size are numbers of 32 bits, and the size is not smaller than the pad size. -/
structure Entry.Fits : Prop where
  offset_lt : e.lbaStart.toNat * 512 < 2 ^ 32
  pad_le : e.pad ≤ e.bytes
  bytes_lt : e.bytes < 2 ^ 32

end

section

variable (flash : Flash) (name : Name)

/-- No entry before number `i` is empty or has the name. -/
def Reached (i : Nat) : Prop := ∀ j < i, uuidEmpty (entry flash j).guid = false ∧ ¬NameEq (entry flash j) name

/-- The entry number `i` is the one to be found. -/
structure IsFirst (i : Nat) : Prop where
  lt : i < partCnt
  reached : Reached flash name i
  name_eq : NameEq (entry flash i) name

/-- `gpt_get_part_by_name` finds it. -/
structure PartRight (out : Out) : Prop where
  ret_iff : ∀ i, (gptGetPartByName flash name.chars out).1 = i + 1 ↔ IsFirst flash name i
  found : ∀ i, IsFirst flash name i →
    (gptGetPartByName flash name.chars out).2.offset.toNat = (entry flash i).lbaStart.toNat * 512 ∧
    ((gptGetPartByName flash name.chars out).2.size.toNat : Int) = (entry flash i).bytes
  absent : (∀ i, ¬IsFirst flash name i) → gptGetPartByName flash name.chars out = (0, out)

/-- `gpt_get_file_by_name` finds it, and leaves out the padding. -/
structure FileRight (pad : BitVec 16) (offset size : BitVec 32) : Prop where
  ret_eq : (gptGetFileByName flash name.chars pad offset size).1 = (gptGetPartByName flash name.chars ⟨offset, size, pad⟩).1
  found : ∀ i, IsFirst flash name i →
    (gptGetFileByName flash name.chars pad offset size).2.1.toNat = (entry flash i).lbaStart.toNat * 512 ∧
    ((gptGetFileByName flash name.chars pad offset size).2.2.toNat : Int) = (entry flash i).bytes - (entry flash i).pad
  absent : (∀ i, ¬IsFirst flash name i) → (gptGetFileByName flash name.chars pad offset size).2 = (offset, size)

/-- No entry that is reached has the name and is empty, or is confused with another. -/
def Clear : Prop :=
  ∀ i < partCnt, Reached flash name i →
    if uuidEmpty (entry flash i).guid then ¬NameEq (entry flash i) name else ¬Confused (entry flash i) name

end

end Sdfirm.Gpt
