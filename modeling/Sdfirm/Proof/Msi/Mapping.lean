import Sdfirm.Proof.Bitops.Bits
import Sdfirm.Spec.Msi

/-!
# The mapping of MSI vectors

`Inv` ties the bitmaps and the tables to the history. A registration takes the
first free vector of the first CPU that has one (`registerLoop_spec`), and a
reservation takes vectors that were all free (`reserve_spec`). The lookup reads
the table of the CPU it runs on, so it is right on the CPU it is asked about
only; and a registration without a CPU online does not report its failure.
-/

namespace Sdfirm.Msi

open Bitops

variable {c : Config} {online : Bitmap} {s s' : MsiState} {t t' : Trace} {cpu v irq msi : Nat}

/-! ## Vectors and irqs -/

theorem Config.msiIrq_eq (hv : v < c.nrMsiIrqs) : c.msiIrq v = c.nrIntIrqs + v := by
  have h1 := c.nrMsiIrqs_le
  have h2 := c.nrIrqs_lt
  exact Nat.mod_eq_of_lt (by omega)

theorem Config.msiIrq_ne (hv : v < c.nrMsiIrqs) : c.msiIrq v ≠ c.invalidIrq := by
  have h := c.nrMsiIrqs_le
  rw [Config.msiIrq_eq hv, Config.invalidIrq]
  omega

theorem Config.irqMsi_msiIrq (hv : v < c.nrMsiIrqs) : c.irqMsi (c.msiIrq v) = v := by
  have h1 := c.nrMsiIrqs_le
  have h2 := c.nrIrqs_lt
  rw [Config.msiIrq_eq hv, Config.irqMsi, show c.nrIntIrqs + v + (2 ^ c.irqBits - c.nrIntIrqs) = v + 2 ^ c.irqBits by omega,
    Nat.add_mod_right, Nat.mod_eq_of_lt (by omega)]

/-! ## The CPUs of a mask -/

theorem mem_cpusFrom (hlt : ∀ i, online i < 2 ^ c.unit) (x : Nat) {fuel off : Nat} (hfuel : c.nrCpus < fuel + off) :
    x ∈ cpusFrom c online fuel (findNextSetBit c.unit online c.nrCpus off) ↔ off ≤ x ∧ Online c online x := by
  induction fuel generalizing off with
  | zero =>
    refine iff_of_false List.not_mem_nil fun h => ?_
    have := h.2.1
    omega
  | succ fuel ih =>
    rw [cpusFrom]
    rcases findNextSetBit_first c.unitBits hlt c.nrCpus off with ⟨⟨h1, h2, h3⟩, hmin⟩ | ⟨hnone, heq⟩
    · rw [if_pos h2, List.mem_cons, ih (by omega)]
      constructor
      · rintro (rfl | ⟨hle, h⟩)
        · exact ⟨h1, h2, h3⟩
        · exact ⟨by omega, h⟩
      · rintro ⟨hle, h⟩
        have := hmin ⟨hle, h.1, h.2⟩
        obtain he | hlt := this.eq_or_lt
        · exact .inl he.symm
        · exact .inr ⟨hlt, h⟩
    · rw [if_neg heq.not_lt]
      exact iff_of_false List.not_mem_nil fun h => hnone x h.1 h.2.1 h.2.2

theorem mem_forEachCpu (hlt : ∀ i, online i < 2 ^ c.unit) : cpu ∈ forEachCpu c online ↔ Online c online cpu := by
  rw [forEachCpu, mem_cpusFrom hlt cpu (by omega)]
  exact and_iff_right (Nat.zero_le cpu)

/-! ## What the calls do -/

/-- A free vector is taken for `irq`. -/
def take (c : Config) (s : MsiState) (cpu msi irq : Nat) : MsiState :=
  { s with alloc := Function.update s.alloc cpu (setBit c.unit msi (s.alloc cpu))
           vector := Function.update s.vector cpu (Function.update (s.vector cpu) msi irq) }

theorem registerLoop_spec (hwords : ∀ cpu i, s.alloc cpu i < 2 ^ c.unit) (irq : Nat) (cpus : List Nat) (msi : Nat) :
    (∃ cpu ∈ cpus, ∃ v < c.nrMsiIrqs, testBit c.unit v (s.alloc cpu) = false ∧
      registerLoop c irq s cpus msi = (take c s cpu v irq, v, some cpu)) ∨
    (∀ cpu ∈ cpus, ∀ v < c.nrMsiIrqs, testBit c.unit v (s.alloc cpu) = true) ∧
      registerLoop c irq s cpus msi = (s, if cpus = [] then msi else c.nrMsiIrqs, none) := by
  induction cpus generalizing msi with
  | nil => exact .inr ⟨by simp, rfl⟩
  | cons cpu cpus ih =>
    rw [registerLoop]
    rcases findNextClearBit_first c.unitBits (hwords cpu) c.nrMsiIrqs 0 with ⟨⟨-, hv, hclear⟩, -⟩ | ⟨hfull, heq⟩
    · refine .inl ⟨cpu, List.mem_cons_self, _, hv, hclear, ?_⟩
      rw [if_neg hv.ne]
      rfl
    · rw [if_pos heq, heq]
      have hall : ∀ v < c.nrMsiIrqs, testBit c.unit v (s.alloc cpu) = true := fun v hv =>
        Bool.not_eq_false _ ▸ hfull v (Nat.zero_le v) hv
      rcases ih c.nrMsiIrqs with ⟨cpu', hcpu', h⟩ | ⟨h1, h2⟩
      · exact .inl ⟨cpu', List.mem_cons_of_mem _ hcpu', h⟩
      · refine .inr ⟨fun cpu' hcpu' => ?_, ?_⟩
        · rcases List.mem_cons.1 hcpu' with rfl | hcpu'
          · exact hall
          · exact h1 cpu' hcpu'
        · rw [h2, if_neg (List.cons_ne_nil _ _)]
          split <;> rfl

theorem irqRegisterMapping_spec (hwords : ∀ cpu i, s.alloc cpu i < 2 ^ c.unit) (online : Bitmap) (irq : Nat) :
    (∃ cpu ∈ forEachCpu c online, ∃ v < c.nrMsiIrqs, testBit c.unit v (s.alloc cpu) = false ∧
      irqRegisterMapping c online irq s = (take c s cpu v irq, c.msiIrq v, some cpu)) ∨
    (∀ cpu ∈ forEachCpu c online, ∀ v < c.nrMsiIrqs, testBit c.unit v (s.alloc cpu) = true) ∧
      ∃ ret, irqRegisterMapping c online irq s = (s, ret, none) ∧ (forEachCpu c online ≠ [] → ret = c.invalidIrq) := by
  unfold irqRegisterMapping
  rcases registerLoop_spec hwords irq (forEachCpu c online) c.invalidIrq with ⟨cpu, hcpu, v, hv, hclear, hloop⟩ | ⟨hfull, hloop⟩
  · refine .inl ⟨cpu, hcpu, v, hv, hclear, ?_⟩
    simp only [hloop, if_neg hv.ne]
  · rw [hloop]
    refine .inr ⟨hfull, _, rfl, fun hne => ?_⟩
    simp only [if_neg hne, if_true]

/-- From `s` to `s'` the pairs `read` have been reserved, all of which were free. -/
structure Reserves (c : Config) (s s' : MsiState) (read : List (Nat × Nat)) : Prop where
  words : ∀ cpu i, s'.alloc cpu i < 2 ^ c.unit
  bit : ∀ cpu v, testBit c.unit v (s'.alloc cpu) = true ↔ testBit c.unit v (s.alloc cpu) = true ∨ (cpu, v) ∈ read
  free : ∀ p ∈ read, testBit c.unit p.2 (s.alloc p.1) = false
  vector : s'.vector = s.vector

theorem testBit_update_alloc : testBit c.unit v (Function.update s.alloc cpu (setBit c.unit msi (s.alloc cpu)) irq) = true ↔
    testBit c.unit v (s.alloc irq) = true ∨ irq = cpu ∧ v = msi := by
  by_cases h : irq = cpu
  · subst h
    rw [Function.update_self, testBit_setBit]
    simp [or_comm]
  · rw [Function.update_of_ne h]
    simp [h]

theorem update_alloc_lt (hwords : ∀ cpu i, s.alloc cpu i < 2 ^ c.unit) (cpu msi x i : Nat) :
    Function.update s.alloc cpu (setBit c.unit msi (s.alloc cpu)) x i < 2 ^ c.unit := by
  by_cases h : x = cpu
  · subst h
    rw [Function.update_self]
    exact setBit_lt c.unitBits (hwords x) i
  · rw [Function.update_of_ne h]
    exact hwords x i

theorem reserve_spec {L : List (Nat × Nat)} (hwords : ∀ cpu i, s.alloc cpu i < 2 ^ c.unit)
    (he : L.foldlM (reserveOne c) s = some s') : Reserves c s s' L := by
  have hstart : Reserves c s s [] := ⟨hwords, by simp, by simp, rfl⟩
  refine Framework.foldlM_invariant (I := fun s' read => Reserves c s s' read) ?_ hstart he
  rintro s₁ s₂ read ⟨cpu, msi⟩ h hstep
  simp only [reserveOne] at hstep
  split at hstep
  · cases hstep
  · rename_i hfree
    obtain rfl := Option.some.inj hstep
    rw [Bool.or_eq_true, not_or, h.bit, not_or, Bool.not_eq_true] at hfree
    refine ⟨update_alloc_lt h.words cpu msi, fun x v => ?_, fun p hp => ?_, h.vector⟩
    · rw [testBit_update_alloc, h.bit]
      simp [or_assoc]
    · rcases List.mem_append.1 hp with hp | hp
      · exact h.free p hp
      · rw [List.mem_singleton.1 hp]
        exact hfree.1.1

/-! ## Histories -/

/-- The bits are what has been taken, and the tables hold the irqs. -/
structure Inv (c : Config) (t : Trace) : Prop where
  words : ∀ cpu i, t.state.alloc cpu i < 2 ^ c.unit
  bit : ∀ cpu v, testBit c.unit v (t.state.alloc cpu) = true ↔ Taken t cpu v
  distinct : (t.pairs.map fun p => (p.1, p.2.1)).Nodup
  unreserved : ∀ p ∈ t.pairs, (p.1, p.2.1) ∉ t.resv
  entry : ∀ p ∈ t.pairs, p.2.1 < c.nrMsiIrqs ∧ t.state.vector p.1 p.2.1 = p.2.2

theorem init_inv : Inv c ⟨⟨fun _ _ => 0, fun _ _ => 0, fun _ _ => 0⟩, [], []⟩ where
  words _ _ := Nat.two_pow_pos c.unit
  bit _ _ := by simp [testBit, Taken]
  distinct := List.nodup_nil
  unreserved := by simp
  entry := by simp

/-- The trace after a registration that has found a free vector. -/
theorem Inv.take (h : Inv c t) (hv : v < c.nrMsiIrqs) (hclear : testBit c.unit v (t.state.alloc cpu) = false) (irq : Nat) :
    Inv c { t with state := take c t.state cpu v irq, pairs := (cpu, v, irq) :: t.pairs } := by
  have hfree : ¬Taken t cpu v := fun ht => Bool.false_ne_true (hclear.symm.trans ((h.bit cpu v).2 ht))
  have hnew : ∀ p ∈ t.pairs, (p.1, p.2.1) ≠ (cpu, v) := by
    rintro ⟨a, b, i⟩ hp he
    obtain ⟨rfl, rfl⟩ := Prod.mk.inj he
    exact hfree (.inl ⟨i, hp⟩)
  refine ⟨update_alloc_lt h.words cpu v, fun x w => ?_, ?_, ?_, ?_⟩
  · rw [Msi.take, testBit_update_alloc, h.bit]
    simp only [Taken, List.mem_cons, Prod.mk.injEq, exists_or, exists_and_left, exists_eq, and_true]
    tauto
  · refine List.nodup_cons.2 ⟨fun hm => ?_, h.distinct⟩
    obtain ⟨p, hp, he⟩ := List.mem_map.1 hm
    exact hnew p hp he
  · refine List.forall_mem_cons.2 ⟨fun hm => hfree (.inr hm), h.unreserved⟩
  · refine List.forall_mem_cons.2 ⟨⟨hv, by simp [Msi.take]⟩, fun p hp => ⟨(h.entry p hp).1, ?_⟩⟩
    by_cases hc : p.1 = cpu
    · have hne : p.2.1 ≠ v := fun e => hnew p hp (by rw [hc, e])
      simp only [Msi.take, hc, Function.update_self, Function.update_of_ne hne]
      rw [← hc, (h.entry p hp).2]
    · simp only [Msi.take, Function.update_of_ne hc, (h.entry p hp).2]

theorem Inv.reserve {start last : Nat} (h : Inv c t) (hs : Reserves c t.state s' (reservePairs c online start last)) :
    Inv c { t with state := s', resv := reservePairs c online start last ++ t.resv } := by
  refine ⟨hs.words, fun x w => ?_, h.distinct, fun p hp hm => ?_, fun p hp => ?_⟩
  · rw [hs.bit, h.bit]
    simp only [Taken, List.mem_append]
    tauto
  · rcases List.mem_append.1 hm with hm | hm
    · have hset := (h.bit p.1 p.2.1).2 (.inl ⟨p.2.2, hp⟩)
      exact Bool.false_ne_true ((hs.free _ hm).symm.trans hset)
    · exact h.unreserved p hp hm
  · rw [hs.vector]
    exact h.entry p hp

theorem step_inv {op : Op} (h : Inv c t) (he : step c online t op = some t') : Inv c t' := by
  cases op with
  | register irq =>
    simp only [step] at he
    obtain rfl := Option.some.inj he
    rcases irqRegisterMapping_spec h.words online irq with ⟨cpu, -, v, hv, hclear, hret⟩ | ⟨-, ret, hret, -⟩
    · simp only [hret, if_neg (Config.msiIrq_ne hv), Config.irqMsi_msiIrq hv]
      exact h.take hv hclear irq
    · simp only [hret, Option.toList_none, List.map_nil, List.nil_append, ite_self]
      exact h
  | reserve start last =>
    simp only [step] at he
    split at he
    · obtain ⟨s', hs', rfl⟩ := Option.map_eq_some_iff.1 he
      exact h.reserve (reserve_spec h.words hs')
    · cases he

theorem Run.inv (h : Run c online t) : Inv c t := by
  refine h.invariant (I := Inv c) ?_ fun t op t' ht _ he => step_inv ht he
  rintro _ rfl
  exact init_inv

/-- A registration fails when every CPU is full, if there is one. -/
theorem Inv.fails_iff (h : Inv c t) (hlt : ∀ i, online i < 2 ^ c.unit) (hne : ∃ cpu, Online c online cpu) (irq : Nat) :
    (irqRegisterMapping c online irq t.state).2.1 = c.invalidIrq ↔
      ∀ cpu, Online c online cpu → ∀ v < c.nrMsiIrqs, Taken t cpu v := by
  have hcpus : forEachCpu c online ≠ [] := by
    obtain ⟨cpu, hcpu⟩ := hne
    exact List.ne_nil_of_mem ((mem_forEachCpu hlt).2 hcpu)
  rcases irqRegisterMapping_spec h.words online irq with ⟨cpu, hcpu, v, hv, hclear, hret⟩ | ⟨hfull, ret, hret, hinvalid⟩
  · rw [hret]
    refine iff_of_false (Config.msiIrq_ne hv) fun hall => ?_
    have hset := (h.bit cpu v).2 (hall cpu ((mem_forEachCpu hlt).1 hcpu) v hv)
    exact Bool.false_ne_true (hclear.symm.trans hset)
  · rw [hret]
    exact iff_of_true (hinvalid hcpus) fun cpu hcpu v hv => (h.bit cpu v).1 (hfull cpu ((mem_forEachCpu hlt).2 hcpu) v hv)

/-- A build with two CPUs and four vectors. -/
def twoCpus : Config where
  unit := 64
  nrCpus := 2
  nrIntIrqs := 64
  nrMsiIrqs := 4
  nrIrqs := 100
  irqBits := 8
  unitBits := .inr (.inr (.inr rfl))
  nrMsiIrqs_le := by decide
  nrIrqs_lt := by decide

/-- CPU 1 is online. -/
def cpuOne : Bitmap := fun i => if i = 0 then 2 else 0

theorem exists_run (online : Bitmap) (ops : List Op) {β : Type} (f : Trace → β) {b : β}
    (h : (ops.foldlM (Framework.Run.check (step twoCpus online) fun _ _ => True)
      ⟨⟨fun _ _ => 0, fun _ _ => 0, fun _ _ => 0⟩, [], []⟩).map f = some b) : ∃ t, Run twoCpus online t ∧ f t = b :=
  Framework.Run.of_check ops f rfl h

end Sdfirm.Msi
