import Sdfirm.Spec.Pci

/-!
# The numbers of the buses of a tree

The buses behind the functions of a device are numbered without gaps
(`buses_eq`), so the bridges of a tree have intervals of numbers below them that
are disjoint (`bridges_siblings`) or nested (`bridges_nested`), and each function
is visited once (`nodup_visits`). `Region` is the part of the configuration space
that belongs to the functions and the buses behind them.
-/

namespace Sdfirm.Pci

/-- The functions from `fn` on of bus number `bus`, and all of `count` buses from `next` on. -/
def Region (bus fn next count : Nat) (b : Bdf) : Prop :=
  b.dev = 0 ∧ (b.bus = bus ∧ fn ≤ b.fn ∨ next ≤ b.bus ∧ b.bus < next + count)

namespace Funs

variable {multi : Bool} {n : Nat}

theorem buses_eq {multi : Bool} {n : Nat} (t : Funs multi n) (next : Nat) : t.buses next = List.range' next t.count := by
  induction t generalizing next with
  | nil => rfl
  | absent rest ih => exact ih next
  | endpoint f h rest ih => exact ih next
  | bridge f h below rest ihb ihr =>
    rw [buses, count, ihb, ihr, ← List.range'_succ, Nat.add_assoc next, Nat.add_comm 1 below.count, List.range'_append_1]

theorem mem_buses {t : Funs multi n} {next x : Nat} : x ∈ t.buses next ↔ next ≤ x ∧ x < next + t.count := by
  rw [buses_eq, List.mem_range'_1]

theorem cons_buses (t : Funs multi n) (next : Nat) :
    next :: t.buses (next + 1) = List.range' next (t.count + 1) := by
  rw [buses_eq, List.range'_succ]

/-! ## Bridges -/

/-- A bridge is one of these functions or behind them, and so are the buses below it, whose numbers are greater. -/
theorem mem_bridges {multi : Bool} {n : Nat} {t : Funs multi n} {bus next : Nat} {w : Window} (hn : n ≤ 8) (hlt : bus < next)
    (hw : w ∈ t.bridges bus next) :
    Region bus (8 - n) next t.count ⟨w.bus, 0, w.fn⟩ ∧ ∀ x ∈ w.below, w.bus < x ∧ next ≤ x ∧ x < next + t.count := by
  induction t generalizing bus next with
  | nil => cases hw
  | absent rest ih =>
    obtain ⟨hr, hb⟩ := ih (by omega) hlt hw
    refine ⟨⟨rfl, ?_⟩, hb⟩
    obtain ⟨-, h | h⟩ := hr
    · exact .inl ⟨h.1, by have := h.2; simp only at this ⊢; omega⟩
    · exact .inr h
  | endpoint f h rest ih =>
    obtain ⟨hr, hb⟩ := ih (by omega) hlt hw
    refine ⟨⟨rfl, ?_⟩, hb⟩
    obtain ⟨-, h | h⟩ := hr
    · exact .inl ⟨h.1, by have := h.2; simp only at this ⊢; omega⟩
    · exact .inr h
  | @bridge _ _ n f h below rest ihb ihr =>
    simp only [bridges, List.cons_append, List.mem_cons, List.mem_append] at hw
    rw [count]
    obtain rfl | hw | hw := hw
    · refine ⟨⟨rfl, .inl ⟨rfl, by simp only; omega⟩⟩, fun x hx => ?_⟩
      simp only [cons_buses, List.mem_range'_1] at hx
      simp only
      omega
    · obtain ⟨⟨-, hr⟩, hb⟩ := ihb (by omega) (by omega) hw
      simp only at hr
      exact ⟨⟨rfl, .inr (by simp only; omega)⟩, fun x hx => by have := hb x hx; omega⟩
    · obtain ⟨⟨-, hr⟩, hb⟩ := ihr (by omega) (by omega) hw
      simp only at hr
      exact ⟨⟨rfl, by simp only; omega⟩, fun x hx => by have := hb x hx; omega⟩

theorem bridges_siblings {multi : Bool} {n : Nat} {t : Funs multi n} {bus next : Nat} {w w' : Window} (hn : n ≤ 8) (hlt : bus < next)
    (hw : w ∈ t.bridges bus next) (hw' : w' ∈ t.bridges bus next) (hbus : w.bus = w'.bus) (hfn : w.fn ≠ w'.fn) :
    ∀ x ∈ w.below, x ∉ w'.below := by
  induction t generalizing bus next with
  | nil => cases hw
  | absent rest ih => exact ih (by omega) hlt hw hw'
  | endpoint f h rest ih => exact ih (by omega) hlt hw hw'
  | @bridge _ _ n f h below rest ihb ihr =>
    -- a bridge behind this one is on another bus than it and than those after it
    have hbelow : ∀ v ∈ below.bridges next (next + 1), next ≤ v.bus ∧ v.bus < next + 1 + below.count := by
      intro v hv
      obtain ⟨⟨-, hr⟩, -⟩ := mem_bridges (by omega) (by omega) hv
      simp only at hr
      omega
    have hrest : ∀ v ∈ rest.bridges bus (next + 1 + below.count),
        (v.bus = bus ∨ next + 1 + below.count ≤ v.bus) ∧ ∀ x ∈ v.below, next + 1 + below.count ≤ x := by
      intro v hv
      obtain ⟨⟨-, hr⟩, hb⟩ := mem_bridges (by omega) (by omega) hv
      simp only at hr
      exact ⟨by omega, fun x hx => (hb x hx).2.1⟩
    have hfirst : ∀ x ∈ next :: below.buses (next + 1), x < next + 1 + below.count := by
      intro x hx
      rw [cons_buses, List.mem_range'_1] at hx
      omega
    simp only [bridges, List.cons_append, List.mem_cons, List.mem_append] at hw hw'
    obtain rfl | hw | hw := hw <;> obtain rfl | hw' | hw' := hw'
    · exact absurd rfl hfn
    · have := hbelow w' hw'
      simp only at hbus
      omega
    · intro x hx hx'
      have := hfirst x hx
      have := (hrest w' hw').2 x hx'
      omega
    · have := hbelow w hw
      simp only at hbus
      omega
    · exact ihb (by omega) (by omega) hw hw'
    · have := hbelow w hw
      have := (hrest w' hw').1
      omega
    · intro x hx hx'
      have := hfirst x hx'
      have := (hrest w hw).2 x hx
      omega
    · have := hbelow w' hw'
      have := (hrest w hw).1
      omega
    · exact ihr (by omega) (by omega) hw hw'

theorem bridges_nested {multi : Bool} {n : Nat} {t : Funs multi n} {bus next : Nat} {w w' : Window} (hn : n ≤ 8) (hlt : bus < next)
    (hw : w ∈ t.bridges bus next) (hw' : w' ∈ t.bridges bus next) (hmem : w'.bus ∈ w.below) :
    ∀ x ∈ w'.below, x ∈ w.below := by
  induction t generalizing bus next with
  | nil => cases hw
  | absent rest ih => exact ih (by omega) hlt hw hw'
  | endpoint f h rest ih => exact ih (by omega) hlt hw hw'
  | @bridge _ _ n f h below rest ihb ihr =>
    simp only [bridges, List.cons_append, List.mem_cons, List.mem_append] at hw hw'
    have hfirst : ∀ x, x ∈ next :: below.buses (next + 1) ↔ next ≤ x ∧ x < next + 1 + below.count := by
      intro x
      rw [cons_buses, List.mem_range'_1]
      omega
    obtain rfl | hw | hw := hw
    · rw [hfirst] at hmem
      obtain rfl | hw' | hw' := hw'
      · simp only at hmem
        omega
      · intro x hx
        have := (mem_bridges (by omega) (by omega) hw').2 x hx
        exact (hfirst x).2 (by omega)
      · obtain ⟨⟨-, hr⟩, -⟩ := mem_bridges (by omega) (by omega) hw'
        simp only at hr
        omega
    · have hb := (mem_bridges (by omega) (by omega) hw).2 _ hmem
      obtain rfl | hw' | hw' := hw'
      · simp only at hb
        omega
      · exact ihb (by omega) (by omega) hw hw'
      · obtain ⟨⟨-, hr⟩, -⟩ := mem_bridges (by omega) (by omega) hw'
        simp only at hr
        omega
    · have hb := (mem_bridges (by omega) (by omega) hw).2 _ hmem
      obtain rfl | hw' | hw' := hw'
      · simp only at hb
        omega
      · obtain ⟨⟨-, hr⟩, -⟩ := mem_bridges (by omega) (by omega) hw'
        simp only at hr
        omega
      · exact ihr (by omega) (by omega) hw hw'

/-! ## Functions -/

theorem mem_visits {multi : Bool} {n : Nat} {t : Funs multi n} {bus next : Nat} {b : Bdf} (hn : n ≤ 8) (hlt : bus < next)
    (hb : b ∈ t.visits bus next) : Region bus (8 - n) next t.count b ∧ b.fn < 8 := by
  induction t generalizing bus next with
  | nil => cases hb
  | absent rest ih =>
    obtain ⟨⟨h0, hr⟩, h8⟩ := ih (by omega) hlt hb
    exact ⟨⟨h0, by simp only [count]; omega⟩, h8⟩
  | endpoint f h rest ih =>
    simp only [visits, List.mem_cons] at hb
    obtain rfl | hb := hb
    · exact ⟨⟨rfl, .inl ⟨rfl, by simp only; omega⟩⟩, by simp only; omega⟩
    · obtain ⟨⟨h0, hr⟩, h8⟩ := ih (by omega) hlt hb
      exact ⟨⟨h0, by simp only [count]; omega⟩, h8⟩
  | @bridge _ _ n f h below rest ihb ihr =>
    simp only [visits, List.mem_append, List.mem_cons] at hb
    rw [count]
    obtain hb | rfl | hb := hb
    · obtain ⟨⟨h0, hr⟩, h8⟩ := ihb (by omega) (by omega) hb
      exact ⟨⟨h0, .inr (by omega)⟩, h8⟩
    · exact ⟨⟨rfl, .inl ⟨rfl, by simp only; omega⟩⟩, by simp only; omega⟩
    · obtain ⟨⟨h0, hr⟩, h8⟩ := ihr (by omega) (by omega) hb
      exact ⟨⟨h0, by omega⟩, h8⟩

theorem nodup_visits {multi : Bool} {n : Nat} (t : Funs multi n) {bus next : Nat} (hn : n ≤ 8) (hlt : bus < next) :
    (t.visits bus next).Nodup := by
  induction t generalizing bus next with
  | nil => exact List.nodup_nil
  | absent rest ih => exact ih (by omega) hlt
  | @endpoint _ n f h rest ih =>
    refine List.nodup_cons.2 ⟨fun hmem => ?_, ih (by omega) hlt⟩
    obtain ⟨⟨-, hr⟩, -⟩ := mem_visits (by omega) hlt hmem
    simp only at hr
    omega
  | @bridge _ _ n f h below rest ihb ihr =>
    have hself : (⟨bus, 0, 7 - n⟩ : Bdf) ∉ rest.visits bus (next + 1 + below.count) := by
      intro hmem
      obtain ⟨⟨-, hr⟩, -⟩ := mem_visits (by omega) (by omega) hmem
      simp only at hr
      omega
    refine List.nodup_append.2 ⟨ihb (by omega) (by omega), List.nodup_cons.2 ⟨hself, ihr (by omega) (by omega)⟩, ?_⟩
    rintro b hb _ hb' rfl
    obtain ⟨⟨-, hr⟩, -⟩ := mem_visits (by omega) (by omega) hb
    obtain rfl | hb' := List.mem_cons.1 hb'
    · simp only at hr
      omega
    · obtain ⟨⟨-, hr'⟩, -⟩ := mem_visits (by omega) (by omega) hb'
      omega

/-- A device whose first function says so has no other functions. -/
theorem eq_of_single {n : Nat} (t : Funs false n) (hn : n ≤ 7) (bus next : Nat) :
    t.count = 0 ∧ t.visits bus next = [] ∧ t.bridges bus next = [] := by
  induction n with
  | zero => cases t with | nil => exact ⟨rfl, rfl, rfl⟩
  | succ n ih =>
    cases t with
    | absent rest => exact ih rest (by omega)
    | endpoint f h rest => simp [Declared, show n ≠ 7 by omega] at h
    | bridge f h below rest => simp [Declared, show n ≠ 7 by omega] at h

/-- The functions answer in any configuration space that is the same for them. -/
theorem Answers.congr {multi : Bool} {n : Nat} {t : Funs multi n} {bus next : Nat} {conf conf' : Bdf → Option Space} (hn : n ≤ 8)
    (h : t.Answers bus next conf) (heq : ∀ b, Region bus (8 - n) next t.count b → conf' b = conf b) :
    t.Answers bus next conf' := by
  induction t generalizing bus next with
  | nil => trivial
  | absent rest ih =>
    refine ⟨(heq _ ⟨rfl, .inl ⟨rfl, by simp only; omega⟩⟩).trans h.1, ih (by omega) h.2 fun b hb => heq b ⟨hb.1, ?_⟩⟩
    have := hb.2
    simp only [count]
    omega
  | endpoint f hd rest ih =>
    refine ⟨(heq _ ⟨rfl, .inl ⟨rfl, by simp only; omega⟩⟩).trans h.1, ih (by omega) h.2 fun b hb => heq b ⟨hb.1, ?_⟩⟩
    have := hb.2
    simp only [count]
    omega
  | bridge f hd below rest ihb ihr =>
    refine ⟨(heq _ ⟨rfl, .inl ⟨rfl, by simp only; omega⟩⟩).trans h.1,
      ihb le_rfl h.2.1 fun b hb => heq b ⟨hb.1, ?_⟩, ihr (by omega) h.2.2 fun b hb => heq b ⟨hb.1, ?_⟩⟩
    · have := hb.2
      simp only [count]
      omega
    · have := hb.2
      simp only [count]
      omega

end Funs

end Sdfirm.Pci

/-!
## Configuration cycles

What the scan does to one function: nothing of what it reads to find the
functions changes (`Same`), the other functions are not touched, and its command
register is written once (`configure_spec`). The base addresses of a bridge are
left alone, so its bus numbers stay as they have been written
(`toNat_busNumbers`).
-/

namespace Sdfirm.Pci

variable {b b' : Bdf} {s s' : PciState} {f : Present} {g g' : Space}

/-! ### Registers -/

/-- The identifier, the header and the bits that can be written are the same. -/
structure Same (f g : Space) : Prop where
  mask : g.mask = f.mask
  ids : g.regs 0x0 = f.regs 0x0
  header : headerByte (g.regs 0xC) = headerByte (f.regs 0xC)

theorem Space.write_regs_of_ne (g : Space) {reg reg' : Nat} (val : BitVec 32) (h : reg' ≠ reg) :
    (g.write reg val).regs reg' = g.regs reg' := by
  rw [Space.write]
  exact Function.update_of_ne h _ _

theorem Same.refl (f : Space) : Same f f := ⟨rfl, rfl, rfl⟩

/-- Bits that cannot be written stay. -/
theorem and_merge_of_readOnly {r v m bits : BitVec 32} (h : m &&& bits = 0) :
    ((r &&& ~~~m) ||| (v &&& m)) &&& bits = r &&& bits := by
  ext i hi
  have hm := congrArg (fun x : BitVec 32 => x[i]) h
  simp only [BitVec.getElem_and, BitVec.ofNat_eq_ofNat, BitVec.getElem_zero] at hm
  simp only [BitVec.getElem_and, BitVec.getElem_or, BitVec.getElem_not]
  cases hmi : m[i] <;> cases hbi : bits[i] <;> simp_all

/-- Bits that can be written are written. -/
theorem and_merge_of_writable {r v m bits : BitVec 32} (h : m &&& bits = bits) :
    ((r &&& ~~~m) ||| (v &&& m)) &&& bits = v &&& bits := by
  ext i hi
  have hm := congrArg (fun x : BitVec 32 => x[i]) h
  simp only [BitVec.getElem_and] at hm
  simp only [BitVec.getElem_and, BitVec.getElem_or, BitVec.getElem_not]
  cases hmi : m[i] <;> cases hbi : bits[i] <;> simp_all

theorem Same.write (h : Same f.toSpace g) (reg : Nat) (val : BitVec 32) : Same f.toSpace (g.write reg val) := by
  refine ⟨h.mask, ?_, ?_⟩
  · show Function.update g.regs reg _ 0x0 = _
    by_cases hreg : 0x0 = reg
    · subst hreg
      rw [Function.update_self, h.mask, f.ids_mask, h.ids]
      show f.regs 0x0 &&& BitVec.allOnes 32 ||| val &&& 0#32 = f.regs 0x0
      rw [BitVec.and_zero, BitVec.or_zero, BitVec.and_allOnes]
    · rw [← h.ids]
      exact g.write_regs_of_ne val hreg
  · show headerByte (Function.update g.regs reg _ 0xC) = _
    by_cases hreg : 0xC = reg
    · subst hreg
      rw [Function.update_self, ← h.header, headerByte, headerByte, and_merge_of_readOnly (h.mask ▸ f.header_mask)]
    · rw [← h.header]
      exact congrArg headerByte (g.write_regs_of_ne val hreg)

theorem getConfReg_of_some (h : s.conf b = some g) (reg : Nat) : pciGetConfReg s b reg = g.regs reg := by
  rw [pciGetConfReg, h]

theorem getHeadertype_eq (h : s.conf b = some g) (hs : Same f.toSpace g) : pciGetHeadertype s b = f.layout := by
  rw [pciGetHeadertype, getConfReg_of_some h, hs.header]
  rfl

theorem isMultiFun_eq {bus : Nat} (h : s.conf ⟨bus, 0, 0⟩ = some g) (hs : Same f.toSpace g) :
    pciIsMultiFun s bus 0 = f.multi := by
  rw [pciIsMultiFun, getConfReg_of_some h, hs.header]
  rfl

theorem isMultiFun_of_none {bus : Nat} (h : s.conf ⟨bus, 0, 0⟩ = none) : pciIsMultiFun s bus 0 = true := by
  rw [pciIsMultiFun, pciGetConfReg, h]
  decide

theorem isMultiFun_congr {bus : Nat} (h : s'.conf ⟨bus, 0, 0⟩ = s.conf ⟨bus, 0, 0⟩) :
    pciIsMultiFun s' bus 0 = pciIsMultiFun s bus 0 := by
  rw [pciIsMultiFun, pciIsMultiFun, pciGetConfReg, pciGetConfReg, h]

/-! ### Writes -/

theorem setConfReg_conf_self (reg : Nat) (val : BitVec 32) (h : s.conf b = some g) :
    (pciSetConfReg b reg val s).conf b = some (g.write reg val) := by
  simp [pciSetConfReg, h]

theorem setConfReg_conf_of_ne (reg : Nat) (val : BitVec 32) (h : b' ≠ b) :
    (pciSetConfReg b reg val s).conf b' = s.conf b' := by
  simp [pciSetConfReg, h]

theorem setConfReg_enabled (reg : Nat) (val : BitVec 32) :
    (pciSetConfReg b reg val s).enabled = s.enabled ++ if reg = pciCommand then [b] else [] := by
  by_cases h : reg = pciCommand <;> simp [pciSetConfReg, PciState.enabled, List.filter_append, h]

/-- Registers of `b` other than the command register have been written. -/
inductive Touched (b : Bdf) (s : PciState) : PciState → Prop
  | refl : Touched b s s
  | set {s' : PciState} {reg : Nat} (val : BitVec 32) : Touched b s s' → reg ≠ pciCommand →
      Touched b s (pciSetConfReg b reg val s')

namespace Touched

theorem others (h : Touched b s s') (hb : b' ≠ b) : s'.conf b' = s.conf b' := by
  induction h with
  | refl => rfl
  | set val _ _ ih => rw [setConfReg_conf_of_ne _ _ hb, ih]

theorem self (h : Touched b s s') (hb : s.conf b = some g) (hs : Same f.toSpace g) :
    ∃ g', s'.conf b = some g' ∧ Same f.toSpace g' := by
  induction h with
  | refl => exact ⟨g, hb, hs⟩
  | set val _ _ ih =>
    obtain ⟨g', hg, hs'⟩ := ih
    exact ⟨_, setConfReg_conf_self _ _ hg, hs'.write _ _⟩

theorem enabled (h : Touched b s s') : s'.enabled = s.enabled := by
  induction h with
  | refl => rfl
  | set val _ hreg ih => rw [setConfReg_enabled, if_neg hreg, List.append_nil, ih]

theorem bdf (h : Touched b s s') : s'.bdf = s.bdf := by
  induction h with
  | refl => rfl
  | set val _ _ ih => exact ih

/-- The address registers are not the command register. -/
theorem setBar (h : Touched b s s') (i : Nat) (val : BitVec 32) :
    Touched b s (pciSetConfReg b (pciBaseAddressRegister i) val s') :=
  h.set val (by simp only [pciBaseAddressRegister, pciCommand]; omega)

theorem mem32 (h : Touched b s s') (i : Nat) (val : BitVec 32) (o : Offsets) : Touched b s (barMem32 b i val o s').2 := by
  rw [barMem32]
  split
  · exact h.setBar i _
  · exact h.setBar i _

theorem second (h : Touched b s s') (i : Nat) (o : Offsets) : Touched b s (barSecond b i o s').2 := by
  have h1 := h.setBar i 0xFFFFFFFF
  simp only [barSecond]
  split
  · exact h1
  · split
    · exact h1.mem32 i _ o
    · exact h1.setBar i _

theorem pair (h : Touched b s s') (i : Nat) (o : Offsets) : Touched b s (barPair b i o s').2 := by
  have h1 := h.setBar i 0xFFFFFFFF
  simp only [barPair]
  split
  · split
    · split
      · refine second ?_ _ _
        split
        · exact h1
        · exact h1.mem32 i _ o
      · split
        · exact (((h1.setBar _ _).setBar _ _).setBar _ _)
        · exact h
    · exact (h1.setBar i _).second _ _
  · exact h

end Touched

theorem updateBarResource_touched (b : Bdf) (s : PciState) : Touched b s (pciUpdateBarResource b s) :=
  ((Touched.refl.pair 0 _).pair 2 _).pair 4 _

/-- The address registers of a bridge are left alone. -/
theorem updateBarResource_bridge (h : pciGetHeadertype s b = 1) : pciUpdateBarResource b s = s := by
  have hpair : ∀ i o, barPair b i o s = (o, s) := by
    intro i o
    rw [barPair, if_neg (by rw [h]; decide)]
  simp only [pciUpdateBarResource, hpair]

/-! ### A function that has been found -/

/-- What the scan does to a function with the space `g`. -/
structure Configured (f : Present) (b : Bdf) (g : Space) (s s' : PciState) : Prop where
  others : ∀ b' ≠ b, s'.conf b' = s.conf b'
  self : ∃ g', s'.conf b = some g' ∧ Same f.toSpace g' ∧
    (f.layout = 1 → g'.regs pciBusNumbers = g.regs pciBusNumbers)
  enabled : s'.enabled = s.enabled ++ [b]
  bdf : s'.bdf = (s.bdf ++ [b]).take 32

theorem addPciBdf_bdf (hbdf : s.bdf.length ≤ 32) (h8 : b.bus ≤ 255 ∧ b.dev = 0 ∧ b.fn < 8) :
    (addPciBdf b s).bdf = (s.bdf ++ [b]).take 32 := by
  rw [addPciBdf]
  split
  · rw [List.take_append_of_le_length (by omega), List.take_of_length_le hbdf]
  · have hb : (⟨b.bus % 2 ^ 8, b.dev % 2 ^ 8, b.fn % 2 ^ 8⟩ : Bdf) = b := by
      rw [Nat.mod_eq_of_lt (by omega), Nat.mod_eq_of_lt (by omega), Nat.mod_eq_of_lt (by omega)]
    rw [hb, List.take_of_length_le (by simp; omega)]

theorem addPciBdf_conf : (addPciBdf b s).conf = s.conf := by
  rw [addPciBdf]
  split <;> rfl

theorem addPciBdf_enabled : (addPciBdf b s).enabled = s.enabled := by
  rw [addPciBdf]
  split <;> rfl

theorem configure_spec (hb : s.conf b = some g) (hs : Same f.toSpace g) (hbdf : s.bdf.length ≤ 32)
    (h8 : b.bus ≤ 255 ∧ b.dev = 0 ∧ b.fn < 8) : Configured f b g s (pciConfigure b s) := by
  have ha : (addPciBdf b s).conf b = some g := by rw [addPciBdf_conf, hb]
  have ht := updateBarResource_touched b (addPciBdf b s)
  obtain ⟨g₁, hg₁, hs₁⟩ := ht.self ha hs
  obtain ⟨val, hconf⟩ : ∃ val, (pciConfigure b s).conf b = some (g₁.write pciCommand val) :=
    ⟨_, setConfReg_conf_self pciCommand _ hg₁⟩
  refine ⟨fun b' hne => ?_, ⟨_, hconf, hs₁.write _ _, fun hl => ?_⟩, ?_, ?_⟩
  · rw [pciConfigure, pciSetMemEn, setConfReg_conf_of_ne _ _ hne, ht.others hne, addPciBdf_conf]
  · rw [updateBarResource_bridge (by rw [getHeadertype_eq ha hs, hl]), ha] at hg₁
    obtain rfl := Option.some.inj hg₁
    exact Space.write_regs_of_ne g val (by decide)
  · rw [pciConfigure, pciSetMemEn, setConfReg_enabled, if_pos rfl, ht.enabled, addPciBdf_enabled]
  · rw [← addPciBdf_bdf hbdf h8]
    exact ht.bdf

/-! ### Bus numbers -/

theorem busReg_toNat {bus sec sub : Nat} (hbus : bus ≤ 255) (hsec : sec ≤ 255) (hsub : sub ≤ 255) :
    (busReg bus sec sub).toNat = sub * 2 ^ 16 + sec * 2 ^ 8 + bus := by
  have h1 : sec <<< 8 ||| bus = sec * 2 ^ 8 + bus := by
    rw [← Nat.shiftLeft_add_eq_or_of_lt (by omega), Nat.shiftLeft_eq]
  have h2 : sub <<< 16 ||| (sec * 2 ^ 8 + bus) = sub * 2 ^ 16 + (sec * 2 ^ 8 + bus) := by
    rw [← Nat.shiftLeft_add_eq_or_of_lt (by omega), Nat.shiftLeft_eq]
  rw [busReg, Nat.or_assoc, h1, h2, BitVec.toNat_ofNat, Nat.mod_eq_of_lt (by omega), Nat.add_assoc]

theorem toNat_and_low (v : BitVec 32) : (v &&& 0x00FFFFFF).toNat = v.toNat % 2 ^ 24 := by
  rw [BitVec.toNat_and]
  exact Nat.and_two_pow_sub_one_eq_mod v.toNat 24

/-- The bus numbers of a bridge after they have been written. -/
theorem toNat_busNumbers {p : Bridge} {bus sec sub : Nat} (hs : Same p.toSpace g) (x : BitVec 32) (hbus : bus ≤ 255)
    (hsec : sec ≤ 255) (hsub : sub ≤ 255) :
    ((g.write pciBusNumbers ((x &&& 0xFF000000) ||| busReg bus sec sub)).regs pciBusNumbers).toNat % 2 ^ 24 =
      sub * 2 ^ 16 + sec * 2 ^ 8 + bus := by
  have hlow : ((x &&& 0xFF000000) ||| busReg bus sec sub) &&& 0x00FFFFFF = busReg bus sec sub &&& 0x00FFFFFF := by
    rw [BitVec.and_or_distrib_right, BitVec.and_assoc, show (0xFF000000 &&& 0x00FFFFFF : BitVec 32) = 0#32 from rfl,
      BitVec.and_zero, BitVec.zero_or]
  rw [← toNat_and_low]
  rw [Space.write]
  simp only [Function.update_self]
  rw [and_merge_of_writable (hs.mask ▸ p.busNumbers_mask), hlow, toNat_and_low,
    busReg_toNat hbus hsec hsub, Nat.mod_eq_of_lt (by omega)]

end Sdfirm.Pci
