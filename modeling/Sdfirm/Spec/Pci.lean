import Sdfirm.Impl.Pci

/-!
# What the scan of the PCI buses has to do

A `Bus` is the tree of the functions of one bus and of the buses behind its
bridges. Its buses are numbered in the order in which a walk from the first
function to the last comes to them: `buses` are the numbers behind the bridges,
`bridges` the bridges with what lies below each, and `visits` the functions,
each after those below it. `Answers` says that the configuration cycles for
these numbers come to these buses, and `Scanned` what the scan has to leave.
-/

namespace Sdfirm.Pci

/-! ## Trees of buses -/

/-- A function that is there. Its identifier and the type of its header cannot be written. -/
structure Present extends Space where
  ids_ne : regs 0x0 ≠ 0xFFFFFFFF
  ids_mask : mask 0x0 = 0
  header_mask : mask 0xC &&& 0x00FF0000 = 0

/-- The header says that the device has several functions. -/
def Present.multi (f : Present) : Bool := headerByte (f.regs 0xC) &&& 0x80 ≠ 0

def Present.layout (f : Present) : BitVec 32 := pciHeaderLayout (headerByte (f.regs 0xC))

structure Endpoint extends Present where
  layout_ne : toPresent.layout ≠ 1

/-- A bridge. Its bus numbers can be written. -/
structure Bridge extends Present where
  layout_eq : toPresent.layout = 1
  busNumbers_mask : mask pciBusNumbers &&& 0x00FFFFFF = 0x00FFFFFF

/-- The first function says whether the device has several functions, and there are no others if it has not. -/
def Declared (f : Present) (multi : Bool) (n : Nat) : Prop := if n = 7 then f.multi = multi else multi = true

instance (f : Present) (multi : Bool) (n : Nat) : Decidable (Declared f multi n) :=
  inferInstanceAs (Decidable (if n = 7 then f.multi = multi else multi = true))

/-- The last `n` functions of a device. -/
inductive Funs : (multi : Bool) → (n : Nat) → Type where
  | nil {multi : Bool} : Funs multi 0
  | absent {multi : Bool} {n : Nat} (rest : Funs multi n) : Funs multi (n + 1)
  | endpoint {multi : Bool} {n : Nat} (f : Endpoint) (h : Declared f.toPresent multi n) (rest : Funs multi n) :
      Funs multi (n + 1)
  | bridge {multi multi' : Bool} {n : Nat} (f : Bridge) (h : Declared f.toPresent multi n) (below : Funs multi' 8)
      (rest : Funs multi n) : Funs multi (n + 1)

/-- A bus has one device. -/
abbrev Bus (multi : Bool) := Funs multi 8

/-- A bridge with the numbers of the buses below it. -/
structure Window where
  bus : Nat
  fn : Nat
  below : List Nat

namespace Funs

variable {multi : Bool} {n : Nat}

/-- How many buses are behind the bridges. -/
def count {multi : Bool} {n : Nat} : Funs multi n → Nat
  | .nil => 0
  | .absent rest => rest.count
  | .endpoint _ _ rest => rest.count
  | .bridge _ _ below rest => 1 + below.count + rest.count

/-- The numbers of these buses, from `next` on. -/
def buses {multi : Bool} {n : Nat} : Funs multi n → (next : Nat) → List Nat
  | .nil, _ => []
  | .absent rest, next => rest.buses next
  | .endpoint _ _ rest, next => rest.buses next
  | .bridge _ _ below rest, next => next :: below.buses (next + 1) ++ rest.buses (next + 1 + below.count)

/-- The bridges, those on bus number `bus` first. -/
def bridges {multi : Bool} {n : Nat} : Funs multi n → (bus next : Nat) → List Window
  | .nil, _, _ => []
  | .absent rest, bus, next => rest.bridges bus next
  | .endpoint _ _ rest, bus, next => rest.bridges bus next
  | .bridge (n := n) _ _ below rest, bus, next =>
    ⟨bus, 7 - n, next :: below.buses (next + 1)⟩ :: below.bridges next (next + 1) ++ rest.bridges bus (next + 1 + below.count)

/-- The functions that are there, each after those below it. -/
def visits {multi : Bool} {n : Nat} : Funs multi n → (bus next : Nat) → List Bdf
  | .nil, _, _ => []
  | .absent rest, bus, next => rest.visits bus next
  | .endpoint (n := n) _ _ rest, bus, next => ⟨bus, 0, 7 - n⟩ :: rest.visits bus next
  | .bridge (n := n) _ _ below rest, bus, next =>
    below.visits next (next + 1) ++ ⟨bus, 0, 7 - n⟩ :: rest.visits bus (next + 1 + below.count)

/-- The configuration space has these functions on bus number `bus`, and the buses behind them from `next` on. -/
def Answers {multi : Bool} {n : Nat} : Funs multi n → (bus next : Nat) → (conf : Bdf → Option Space) → Prop
  | .nil, _, _, _ => True
  | .absent (n := n) rest, bus, next, conf => conf ⟨bus, 0, 7 - n⟩ = none ∧ rest.Answers bus next conf
  | .endpoint (n := n) f _ rest, bus, next, conf =>
    conf ⟨bus, 0, 7 - n⟩ = some f.toSpace ∧ rest.Answers bus next conf
  | .bridge (n := n) f _ below rest, bus, next, conf =>
    conf ⟨bus, 0, 7 - n⟩ = some f.toSpace ∧ below.Answers next (next + 1) conf ∧
      rest.Answers bus (next + 1 + below.count) conf

end Funs

/-! ## After the scan -/

/-- The register with the bus numbers of the bridge. -/
def Window.reg (w : Window) (s : PciState) : Nat := (pciGetConfReg s ⟨w.bus, 0, w.fn⟩ pciBusNumbers).toNat

def Window.primary (w : Window) (s : PciState) : Nat := w.reg s % 2 ^ 8

/-- The bus numbers from the secondary to the subordinate one. -/
def Window.interval (w : Window) (s : PciState) : Set Nat := Set.Icc (w.reg s / 2 ^ 8 % 2 ^ 8) (w.reg s / 2 ^ 16 % 2 ^ 8)

/-- The functions whose command register has been written, once for each write. -/
def PciState.enabled (s : PciState) : List Bdf := (s.cycles.filter (·.reg = pciCommand)).map Cycle.bdf

/-- The scan of `t` as bus `bus` has returned `last`. -/
structure Scanned {multi : Bool} (t : Bus multi) (bus last : Nat) (s : PciState) : Prop where
  last : IsGreatest {x | x = bus ∨ x ∈ t.buses (bus + 1)} last
  primary : ∀ w ∈ t.bridges bus (bus + 1), w.primary s = w.bus
  interval : ∀ w ∈ t.bridges bus (bus + 1), w.interval s = {x | x ∈ w.below}
  siblings : ∀ w ∈ t.bridges bus (bus + 1), ∀ w' ∈ t.bridges bus (bus + 1), w.bus = w'.bus → w.fn ≠ w'.fn →
    Disjoint (w.interval s) (w'.interval s)
  nested : ∀ w ∈ t.bridges bus (bus + 1), ∀ w' ∈ t.bridges bus (bus + 1), w'.bus ∈ w.below → w'.interval s ⊂ w.interval s
  enabled : ∀ b, s.enabled.count b = if b ∈ t.visits bus (bus + 1) then 1 else 0
  recorded : s.bdf = (t.visits bus (bus + 1)).take 32
  distinct : s.bdf.Nodup

/-! ## Routed cycles -/

namespace Funs

/-- The function number `fn` of the device. -/
def lookup {multi : Bool} {n : Nat} : Funs multi n → (fn : Nat) → Option Present
  | .nil, _ => none
  | .absent rest, fn => rest.lookup fn
  | .endpoint (n := n) f _ rest, fn => if fn = 7 - n then some f.toPresent else rest.lookup fn
  | .bridge (n := n) f _ _ rest, fn => if fn = 7 - n then some f.toPresent else rest.lookup fn

/-- The function that a cycle for bus `bus` and function `fn` reaches through the bridges of a device at `path`, with the
secondary and the subordinate number of each bridge: only a bridge whose interval has `bus` lets it through. A function is
named by the functions on the way to it. -/
def reach {multi : Bool} {n : Nat} (window : List Nat → Nat × Nat) (bus fn : Nat) :
    Funs multi n → (path : List Nat) → Option (List Nat × Present)
  | .nil, _ => none
  | .absent rest, path => rest.reach window bus fn path
  | .endpoint _ _ rest, path => rest.reach window bus fn path
  | .bridge (n := n) _ _ below rest, path =>
    let (sec, sub) := window (path ++ [7 - n])
    if sec ≤ bus ∧ bus ≤ sub then
      if bus = sec then (below.lookup fn).map (path ++ [7 - n, fn], ·) else below.reach window bus fn (path ++ [7 - n])
    else rest.reach window bus fn path

/-- There is no function. -/
def Empty {multi : Bool} {n : Nat} : Funs multi n → Prop
  | .nil => True
  | .absent rest => rest.Empty
  | .endpoint _ _ _ => False
  | .bridge _ _ _ _ => False

/-- There is no function behind the bridges. -/
def Flat {multi : Bool} {n : Nat} : Funs multi n → Prop
  | .nil => True
  | .absent rest => rest.Flat
  | .endpoint _ _ rest => rest.Flat
  | .bridge _ _ below rest => below.Empty ∧ rest.Flat

end Funs

/-- The registers of each function, and what the scan has done so far. -/
structure Routed where
  regs : List Nat → Nat → BitVec 32
  cycles : List Cycle
  bdf : List Bdf

/-- The secondary and the subordinate bus number. -/
def secSub (regs : Nat → BitVec 32) : Nat × Nat :=
  ((regs pciBusNumbers).toNat / 2 ^ 8 % 2 ^ 8, (regs pciBusNumbers).toNat / 2 ^ 16 % 2 ^ 8)

/-- The function that a cycle reaches, where `t` is bus number `root`. -/
def Routed.reach {multi : Bool} (t : Bus multi) (root : Nat) (s : Routed) (b : Bdf) : Option (List Nat × Present) :=
  if b.dev ≠ 0 then none
  else if b.bus = root then (t.lookup b.fn).map ([b.fn], ·)
  else t.reach (fun path => secSub (s.regs path)) b.bus b.fn []

/-- The hardware: a cycle finds the registers of the function that it reaches, and changes them. -/
def routed {multi : Bool} (t : Bus multi) (root : Nat) : Access Routed where
  view s := ⟨fun b => (s.reach t root b).map fun (path, f) => ⟨s.regs path, f.mask⟩, s.cycles, s.bdf⟩
  work b op s :=
    let s' := op ⟨fun b => (s.reach t root b).map fun (path, f) => ⟨s.regs path, f.mask⟩, s.cycles, s.bdf⟩
    { regs := match s.reach t root b, s'.conf b with
        | some (path, _), some g => Function.update s.regs path g.regs
        | _, _ => s.regs
      cycles := s'.cycles
      bdf := s'.bdf }

/-- Nothing has been written, and the bus numbers of the bridges of the first bus are 0. -/
structure Fresh {multi : Bool} (t : Bus multi) (s : Routed) : Prop where
  regs : ∀ fn f, t.lookup fn = some f → s.regs [fn] = f.regs
  window : ∀ fn f, t.lookup fn = some f → f.layout = 1 → secSub (s.regs [fn]) = (0, 0)
  cycles : s.cycles = []
  bdf : s.bdf = []

/-! ## Registers -/

/-- The byte at an offset. -/
def Space.byte (f : Space) (a : Nat) : BitVec 8 := (f.regs (a / 4 * 4) >>> (8 * (a % 4))).setWidth 8

/-- Of all bytes only those at the offsets `as` of the function `b` may have changed. -/
def Only (b : Bdf) (as : List Nat) (s s' : PciState) : Prop :=
  (∀ b', b' ≠ b → s'.conf b' = s.conf b') ∧
    ∃ f f', s.conf b = some f ∧ s'.conf b = some f' ∧ ∀ a, a ∉ as → f'.byte a = f.byte a

/-! ## Capabilities -/

/-- A capability: its position, its identifier and the pointer to the next one. -/
structure Cap where
  pos : Nat
  id : Nat
  next : Nat

/-- The capability that a pointer leads to. -/
def capAt (s : PciState) (b : Bdf) (ptr : Nat) : Option Cap :=
  let ent := (pciGetConfReg s b (ptr / 4 * 4)).toNat
  if 0x40 ≤ ptr ∧ ent % 2 ^ 8 ≠ 0xFF then some ⟨ptr / 4 * 4, ent % 2 ^ 8, ent / 2 ^ 8 % 2 ^ 8⟩ else none

/-- The extended capability that a pointer leads to. -/
def extCapAt (s : PciState) (b : Bdf) (ptr : Nat) : Option Cap :=
  let header := pciGetConfReg s b ptr
  if 0x100 ≤ ptr ∧ header ≠ 0 then some ⟨ptr, pciExtCapId header, pciExtCapNext header⟩ else none

/-- The capability number `k` of the chain that begins with the pointer `ptr`. -/
def nthCap (capOf : Nat → Option Cap) (ptr : Nat) : Nat → Option Cap
  | 0 => capOf ptr
  | k + 1 => (nthCap capOf ptr k).bind fun c => capOf c.next

section

variable (capOf : Nat → Option Cap) (ptr ttl : Nat)

/-- `pos` is that of the first of the first `ttl` capabilities with the identifier `cap`, and 0 if there is none. -/
def FirstPos (cap pos : Nat) : Prop :=
  (∃ k < ttl, ∃ c, nthCap capOf ptr k = some c ∧ c.id = cap ∧ c.pos = pos ∧
    ∀ j < k, ∀ c', nthCap capOf ptr j = some c' → c'.id ≠ cap) ∨
  pos = 0 ∧ ∀ k < ttl, ∀ c, nthCap capOf ptr k = some c → c.id ≠ cap

/-- The entries of a list of names for the first `ttl` capabilities, with their positions. -/
def Lists (l : List (Nat × Nat)) : Prop :=
  ∀ k, l[k]? = if k < ttl then (nthCap capOf ptr k).map fun c => (c.id - 1, c.pos) else none

/-- The first `ttl` capabilities have a name in a list of `max` names. -/
def Named (max : Nat) : Prop := ∀ k < ttl, ∀ c, nthCap capOf ptr k = some c → 1 ≤ c.id ∧ c.id ≤ max

end

/-- One of the first `ttl` pointers of the chain of extended capabilities leads to a header that is 0, other than the first. -/
def EndsInZero (s : PciState) (b : Bdf) (ttl : Nat) : Prop :=
  ∃ k, k + 1 < ttl ∧ ∃ c, nthCap (extCapAt s b) 0x100 k = some c ∧ 0x100 ≤ c.next ∧ pciGetConfReg s b c.next = 0

end Sdfirm.Pci
