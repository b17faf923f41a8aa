import Mathlib
import Sdfirm.Proof.Framework.Runs
import Sdfirm.Spec.Mtd

/-!
# Where `dataflash_erase` and `spiflash_erase` erase

Both functions mask the page of a block with the size of a block before they send
it, which leaves the page in the block, 0, and not the block. `Run` says which
pages a run of `dataflash_erase` erases, and the block erases of `spiflash_erase`
are all at address 0 (`spiflashErase_returns`).
-/

namespace Sdfirm.Flash

open Fuel (Returns)

/-! ## Orders -/

theorem and_seven (page : Nat) : page &&& (dataflashPagesPerBlock - 1) = page % 8 :=
  Nat.and_two_pow_sub_one_eq_mod page 3

namespace Dataflash

variable {f : Dataflash}

theorem hwOrder_le (f : Dataflash) : f.hwOrder ≤ 16 := by
  have h := f.lt
  have hlog : (f.hwPageSize - 1).log2 < 16 := by
    rcases Nat.eq_zero_or_pos (f.hwPageSize - 1) with h0 | h0
    · rw [h0]
      decide
    · exact (Nat.log2_lt (by omega)).mpr (by omega)
  rw [hwOrder, roundup16, Nat.one_shiftLeft, Nat.log2_two_pow]
  omega

/-- The page that the memory takes from the address of a page -/
theorem page2addr_shift (f : Dataflash) (page : Nat) :
    (f.page2addr page % 2 ^ 24) >>> f.hwOrder = page % 2 ^ (24 - f.hwOrder) := by
  have h := f.hwOrder_le
  have h24 : 2 ^ 24 = 2 ^ (24 - f.hwOrder) * 2 ^ f.hwOrder := by
    rw [← Nat.pow_add]
    congr 1
    omega
  rw [page2addr, Nat.mod_mod_of_dvd _ (by decide : 2 ^ 24 ∣ 2 ^ 32), Nat.shiftLeft_eq, Nat.shiftRight_eq_div_pow, h24,
    Nat.mul_mod_mul_right, Nat.mul_div_cancel _ (Nat.two_pow_pos _)]

theorem blocksize_eq (f : Dataflash) : f.blocksize = 8 * 2 ^ f.pageorder := by
  rw [blocksize, Nat.one_shiftLeft, Nat.pow_add, Nat.mul_comm]
  congr 1

/-! ## The pages of a run -/

/-- The pages that are erased in a run from page `p` over `n` pages -/
inductive Run (order : Nat) : Nat → Nat → List Nat → Prop
  | done (p : Nat) : Run order p 0 []
  | block {p n : Nat} {l : List Nat} (h : p % 8 = 0) (hn : 8 ≤ n) (hl : Run order (p + 8) (n - 8) l) :
    Run order p n (List.range' 0 8 ++ l)
  | page {p n : Nat} {l : List Nat} (h : ¬(p % 8 = 0 ∧ 8 ≤ n)) (hn : 0 < n) (hl : Run order (p + 1) (n - 1) l) :
    Run order p n (p % 2 ^ order :: l)

theorem erase_zero (steps addr : Nat) : f.erase (steps + 1) addr 0 = some [] := by
  rw [erase, if_pos rfl]

/-- An address that wraps around is the end of the range. -/
theorem erase_mod {addr size : Nat} (h : addr + size ≤ 2 ^ 32) (steps : Nat) :
    f.erase steps (addr % 2 ^ 32) size = f.erase steps addr size := by
  rcases Nat.lt_or_ge addr (2 ^ 32) with hlt | hge
  · rw [Nat.mod_eq_of_lt hlt]
  · obtain rfl : size = 0 := by omega
    cases steps with
    | zero => rfl
    | succ steps => rw [erase_zero, erase_zero]

theorem eraseStep_block {p n : Nat} (h : p % 8 = 0) (hn : 8 ≤ n) :
    f.eraseStep p (n * 2 ^ f.pageorder) = (⟨.block, f.page2addr 0 % 2 ^ 24⟩, 8 * 2 ^ f.pageorder) := by
  rw [eraseStep, and_seven, blocksize_eq, if_pos ⟨h, Nat.mul_le_mul_right _ hn⟩, h]

theorem eraseStep_page {p n : Nat} (h : ¬(p % 8 = 0 ∧ 8 ≤ n)) (hn : 0 < n) :
    f.eraseStep p (n * 2 ^ f.pageorder) = (⟨.page, f.page2addr p % 2 ^ 24⟩, 1 * 2 ^ f.pageorder) := by
  have hpos := Nat.two_pow_pos f.pageorder
  rw [eraseStep, and_seven, blocksize_eq, if_neg, Nat.one_shiftLeft, Nat.one_mul, Nat.min_eq_right]
  · exact Nat.le_mul_of_pos_left _ hn
  · rintro ⟨h8, hle⟩
    exact h ⟨h8, Nat.le_of_mul_le_mul_right hle hpos⟩

/-- A round of the loop erases `m` pages and goes on behind them. -/
theorem erase_step {p n m : Nat} {c : Command} (hn : 0 < n) (hm : m ≤ n) (hp : p + n ≤ f.nrPages)
    (h32 : (p + n) * 2 ^ f.pageorder ≤ 2 ^ 32) (hc : f.eraseStep p (n * 2 ^ f.pageorder) = (c, m * 2 ^ f.pageorder))
    (steps : Nat) :
    f.erase (steps + 1) (p * 2 ^ f.pageorder) (n * 2 ^ f.pageorder) =
      (f.erase steps ((p + m) * 2 ^ f.pageorder) ((n - m) * 2 ^ f.pageorder)).map (c :: ·) := by
  have hpos := Nat.two_pow_pos f.pageorder
  have hpage : f.pageNumber (p * 2 ^ f.pageorder) = p := by
    rw [pageNumber, Nat.shiftRight_eq_div_pow, Nat.mul_div_cancel _ hpos]
  have hsane : f.sanityPage p = true := decide_eq_true (by omega)
  have hend : (p + m) * 2 ^ f.pageorder + (n - m) * 2 ^ f.pageorder ≤ 2 ^ 32 := by
    rw [← Nat.add_mul]
    rwa [show p + m + (n - m) = p + n by omega]
  rw [erase, if_neg (Nat.mul_pos hn hpos).ne']
  simp only [hpage, hsane, Bool.not_true, Bool.false_eq_true, if_false, hc]
  rw [← Nat.add_mul, ← Nat.sub_mul, erase_mod hend]

theorem erased_block (f : Dataflash) : f.erased ⟨.block, f.page2addr 0 % 2 ^ 24⟩ = List.range' 0 8 := by
  show List.range' ((f.page2addr 0 % 2 ^ 24) >>> f.hwOrder / 8 * 8) 8 = _
  rw [page2addr_shift, Nat.zero_mod, Nat.zero_div, Nat.zero_mul]

theorem erased_page (f : Dataflash) (p : Nat) :
    f.erased ⟨.page, f.page2addr p % 2 ^ 24⟩ = [p % 2 ^ (24 - f.hwOrder)] := by
  show [(f.page2addr p % 2 ^ 24) >>> f.hwOrder] = _
  rw [page2addr_shift]

/-- The function returns, and its commands erase the pages of a run. -/
theorem erase_returns (n : Nat) : ∀ p, p + n ≤ f.nrPages → (p + n) * 2 ^ f.pageorder ≤ 2 ^ 32 →
    ∃ cs, Returns (fun steps => f.erase steps (p * 2 ^ f.pageorder) (n * 2 ^ f.pageorder)) cs ∧
      Run (24 - f.hwOrder) p n (cs.flatMap f.erased) := by
  induction n using Nat.strong_induction_on with
  | _ n ih =>
    intro p hp h32
    -- one round that erases `m` pages, with the rest from the induction
    have hround : ∀ m c, 0 < m → m ≤ n → f.eraseStep p (n * 2 ^ f.pageorder) = (c, m * 2 ^ f.pageorder) →
        ∃ cs, Returns (fun steps => f.erase steps (p * 2 ^ f.pageorder) (n * 2 ^ f.pageorder)) (c :: cs) ∧
          Run (24 - f.hwOrder) (p + m) (n - m) (cs.flatMap f.erased) := by
      intro m c hm hmn hc
      have hsum : p + m + (n - m) = p + n := by omega
      obtain ⟨cs, hcs, hrun⟩ := ih (n - m) (by omega) (p + m) (by omega) (by rwa [hsum])
      refine ⟨cs, ?_, hrun⟩
      apply Returns.of_step (erase_step (by omega) hmn hp h32 hc)
      exact (hcs.bind (k := fun _ cs => some (c :: cs)) (Returns.of_eq fun _ => rfl)).congr
        fun steps => Option.map_eq_bind
    rcases Nat.eq_zero_or_pos n with rfl | hn
    · refine ⟨[], Returns.of_step (g := fun _ => some []) (fun steps => ?_) (Returns.of_eq fun _ => rfl), Run.done p⟩
      rw [Nat.zero_mul, erase_zero]
    · by_cases h : p % 8 = 0 ∧ 8 ≤ n
      · obtain ⟨cs, hcs, hrun⟩ := hround 8 _ (by decide) h.2 (eraseStep_block h.1 h.2)
        refine ⟨_, hcs, ?_⟩
        rw [List.flatMap_cons, erased_block]
        exact Run.block h.1 h.2 hrun
      · obtain ⟨cs, hcs, hrun⟩ := hround 1 _ (by decide) hn (eraseStep_page h hn)
        refine ⟨_, hcs, ?_⟩
        rw [List.flatMap_cons, erased_page]
        exact Run.page h hn hrun

/-! ## What a run erases -/

variable {order p n : Nat} {l : List Nat}

/-- Without a block but the first, the pages of the range are erased. -/
theorem Run.eq_range (h : Run order p n l) (horder : p + n ≤ 2 ^ order)
    (hblock : ∀ b, 1 ≤ b → ¬(p ≤ 8 * b ∧ 8 * b + 8 ≤ p + n)) : l = List.range' p n := by
  induction h with
  | done p => rfl
  | @block p n l h8 hn _ ih =>
    have hp : p = 0 := by
      by_contra hne
      exact hblock (p / 8) (by omega) (by omega)
    rw [ih (by omega) fun b hb hle => hblock b hb (by omega), hp, List.range'_append_1]
    congr 1
    omega
  | @page p n l _ hn _ ih =>
    rw [ih (by omega) fun b hb hle => hblock b hb (by omega), Nat.mod_eq_of_lt (by omega)]
    obtain ⟨n, rfl⟩ := Nat.exists_eq_add_one_of_ne_zero hn.ne'
    exact List.range'_succ.symm

/-- Each erased page is one that can be sent. -/
theorem Run.lt (h : Run order p n l) (horder : 3 ≤ order) : ∀ q ∈ l, q < 2 ^ order := by
  have h8 : 8 ≤ 2 ^ order := Nat.pow_le_pow_right (by decide : 0 < 2) horder
  induction h with
  | done p => simp
  | block _ _ _ ih =>
    intro q hq
    rcases List.mem_append.mp hq with hq | hq
    · have := (List.mem_range'_1.mp hq).2
      omega
    · exact ih q hq
  | page _ _ _ ih =>
    intro q hq
    rcases List.mem_cons.mp hq with rfl | hq
    · exact Nat.mod_lt _ (Nat.two_pow_pos _)
    · exact ih q hq

theorem Run.mem (h : Run order p n l) (horder : p + n ≤ 2 ^ order) : ∀ q ∈ l, q < 8 ∨ p ≤ q := by
  induction h with
  | done p => simp
  | block _ hn _ ih =>
    intro q hq
    rcases List.mem_append.mp hq with hq | hq
    · have := (List.mem_range'_1.mp hq).2
      omega
    · have := ih (by omega) q hq
      omega
  | page _ hn _ ih =>
    intro q hq
    rcases List.mem_cons.mp hq with rfl | hq
    · rw [Nat.mod_eq_of_lt (by omega)]
      exact Or.inr le_rfl
    · have := ih (by omega) q hq
      omega

/-- A whole block that is not the first is not erased. -/
theorem Run.not_mem_block (h : Run order p n l) (horder : p + n ≤ 2 ^ order) {b : Nat} (hb : 1 ≤ b) (hp : p ≤ 8 * b)
    (hn : 8 * b + 8 ≤ p + n) : 8 * b ∉ l := by
  induction h with
  | done p => omega
  | @block p n l h8 h8n hl ih =>
    intro hmem
    rcases List.mem_append.mp hmem with hmem | hmem
    · have := (List.mem_range'_1.mp hmem).2
      omega
    · -- the block is this one, and the run goes on behind it, or it is a later one
      rcases Nat.eq_or_lt_of_le hp with heq | hlt
      · have := hl.mem (by omega) _ hmem
        omega
      · exact ih (by omega) (by omega) (by omega) hmem
  | @page p n l h8 h0 _ ih =>
    have hne : p ≠ 8 * b := fun heq => h8 (by omega)
    intro hmem
    rcases List.mem_cons.mp hmem with heq | hmem
    · rw [Nat.mod_eq_of_lt (by omega)] at heq
      exact hne heq.symm
    · exact ih (by omega) (by omega) (by omega) hmem

theorem Run.exactly_iff (h : Run order p n l) (horder : 3 ≤ order) :
    (∀ q, l.count q = if p ≤ q ∧ q < p + n then 1 else 0) ↔
      (∀ b, 1 ≤ b → ¬(p ≤ 8 * b ∧ 8 * b + 8 ≤ p + n)) ∧ ∀ q, p ≤ q → q < p + n → q < 2 ^ order := by
  constructor
  · intro hexact
    have hmem : ∀ q, p ≤ q → q < p + n → q ∈ l := by
      intro q hp hq
      rw [← List.count_pos_iff, hexact, if_pos ⟨hp, hq⟩]
      exact Nat.one_pos
    have hlt : ∀ q, p ≤ q → q < p + n → q < 2 ^ order := fun q hp hq => h.lt horder q (hmem q hp hq)
    refine ⟨fun b hb ⟨hp, hn⟩ => ?_, hlt⟩
    have hend := hlt (p + n - 1) (by omega) (by omega)
    exact h.not_mem_block (by omega) hb hp hn (hmem _ hp (by omega))
  · rintro ⟨hblock, hlt⟩ q
    rcases Nat.eq_zero_or_pos n with rfl | hn
    · cases h with
      | done => rw [if_neg (by omega), List.count_nil]
      | block _ h8 _ => omega
      | page _ h0 _ => omega
    · have hend := hlt (p + n - 1) (by omega) (by omega)
      have hnodup : (List.range' p n).Nodup := List.nodup_range' ..
      rw [h.eq_range (by omega) hblock, hnodup.count]
      simp only [List.mem_range'_1]

theorem erasesPages_iff (addr size : Nat) (haddr : 2 ^ f.pageorder ∣ addr) (hsize : 2 ^ f.pageorder ∣ size)
    (hin : addr + size ≤ f.nrPages * 2 ^ f.pageorder) (h32 : addr + size ≤ 2 ^ 32) :
    ∃ cs, Returns (fun steps => f.erase steps addr size) cs ∧ (f.ErasesPages cs addr size ↔ f.Erasable addr size) := by
  have hpos := Nat.two_pow_pos f.pageorder
  have horder := f.hwOrder_le
  obtain ⟨p, rfl⟩ := haddr
  obtain ⟨n, rfl⟩ := hsize
  rw [Nat.mul_comm _ p, Nat.mul_comm _ n] at *
  rw [← Nat.add_mul] at hin h32
  obtain ⟨cs, hcs, hrun⟩ := erase_returns n p (Nat.le_of_mul_le_mul_right hin hpos) h32
  refine ⟨cs, hcs, ?_⟩
  rw [ErasesPages, Erasable]
  simp only [← Nat.add_mul, Nat.mul_le_mul_right_iff hpos, Nat.mul_lt_mul_right hpos]
  exact hrun.exactly_iff (by omega)

end Dataflash

/-! ## SPI flash -/

theorem blocksize_eq_bytes (e : EraseSize) : e.blocksize = e.bytes := by
  cases e <;> decide

theorem bytes_pos (e : EraseSize) : 0 < e.bytes := by
  cases e <;> decide

/-- A block begins at a page of which no bit is left by the mask. -/
theorem and_pagesPerBlock (e : EraseSize) (i : Nat) : spiflashPageNumber (i * e.bytes) &&& (e.pagesPerBlock - 1) = 0 := by
  obtain ⟨k, hk⟩ : ∃ k, e.pagesPerBlock = 2 ^ k ∧ e.bytes = 2 ^ k * 256 := by
    cases e with
    | erase4k => exact ⟨4, by decide⟩
    | erase32k => exact ⟨7, by decide⟩
    | erase64k => exact ⟨8, by decide⟩
  have hlog : Nat.log2 spiflashPageSize = 8 := by decide
  rw [spiflashPageNumber, hlog, Nat.shiftRight_eq_div_pow, hk.1, hk.2, Nat.and_two_pow_sub_one_eq_mod, ← Nat.mul_assoc,
    Nat.mul_div_cancel _ (by decide), Nat.mul_mod_left]

theorem spiflashErase_zero (e : EraseSize) (ads : Bool) (steps addr : Nat) :
    spiflashErase e ads (steps + 1) addr 0 = some [] := by
  rw [spiflashErase, if_pos rfl]

theorem spiflashErase_mod {e : EraseSize} {ads : Bool} {addr size : Nat} (h : addr + size ≤ 2 ^ 32) (steps : Nat) :
    spiflashErase e ads steps (addr % 2 ^ 32) size = spiflashErase e ads steps addr size := by
  rcases Nat.lt_or_ge addr (2 ^ 32) with hlt | hge
  · rw [Nat.mod_eq_of_lt hlt]
  · obtain rfl : size = 0 := by omega
    cases steps with
    | zero => rfl
    | succ steps => rw [spiflashErase_zero, spiflashErase_zero]

/-- A round of the loop sends a block erase at address 0. -/
theorem spiflashErase_step {e : EraseSize} {ads : Bool} {i n : Nat} (h32 : (i + (n + 1)) * e.bytes ≤ 2 ^ 32) (steps : Nat) :
    spiflashErase e ads (steps + 1) (i * e.bytes) ((n + 1) * e.bytes) =
      (spiflashErase e ads steps ((i + 1) * e.bytes) (n * e.bytes)).map (0 :: ·) := by
  have hpos := bytes_pos e
  have hsent : spiflashPage2addr 0 % (2 ^ if ads then 32 else 24) = 0 := by
    simp only [spiflashPage2addr, Nat.zero_shiftLeft, Nat.zero_mod]
  have hend : (i + 1) * e.bytes + n * e.bytes ≤ 2 ^ 32 := by
    rw [← Nat.add_mul]
    rwa [show i + 1 + n = i + (n + 1) by omega]
  rw [spiflashErase, if_neg (Nat.mul_pos n.succ_pos hpos).ne']
  simp only [and_pagesPerBlock, blocksize_eq_bytes, hsent]
  rw [if_pos ⟨trivial, Nat.le_mul_of_pos_left _ n.succ_pos⟩, Nat.succ_mul n, Nat.add_sub_cancel, ← Nat.succ_mul,
    spiflashErase_mod hend]

theorem spiflashErase_returns (e : EraseSize) (ads : Bool) (n : Nat) : ∀ i, (i + n) * e.bytes ≤ 2 ^ 32 →
    Returns (fun steps => spiflashErase e ads steps (i * e.bytes) (n * e.bytes)) (List.replicate n 0) := by
  induction n with
  | zero =>
    intro i _
    apply Returns.of_step (g := fun _ => some []) (fun steps => ?_) (Returns.of_eq fun _ => rfl)
    rw [Nat.zero_mul, spiflashErase_zero]
  | succ n ih =>
    intro i h32
    have hrest := ih (i + 1) (by rwa [show i + 1 + n = i + (n + 1) by omega])
    apply Returns.of_step (spiflashErase_step h32)
    exact (hrest.bind (k := fun _ sent => some (0 :: sent)) (Returns.of_eq fun _ => rfl)).congr
      fun steps => Option.map_eq_bind

/-- Block erases at address 0 are right for the first block. -/
theorem erasesBlocks_replicate (e : EraseSize) (i n : Nat) :
    ErasesBlocks e (List.replicate n 0) (i * e.bytes) (n * e.bytes) ↔ n * e.bytes = 0 ∨ i * e.bytes = 0 ∧ n * e.bytes = e.bytes := by
  have hpos := bytes_pos e
  constructor
  · intro h
    rcases Nat.eq_zero_or_pos n with rfl | hn
    · exact Or.inl (Nat.zero_mul _)
    · have hlen : 0 < n * e.bytes := Nat.mul_pos hn hpos
      -- the first block of the range is erased, so it is at address 0
      have hfirst := h (i * e.bytes)
      rw [if_pos ⟨le_rfl, by omega, Dvd.intro_left i rfl⟩] at hfirst
      have h0 : i * e.bytes = 0 :=
        List.eq_of_mem_replicate (List.count_pos_iff.mp (by omega : 0 < List.count (i * e.bytes) (List.replicate n 0)))
      rw [h0, List.count_replicate_self] at hfirst
      exact Or.inr ⟨h0, by rw [hfirst, Nat.one_mul]⟩
  · rintro (h0 | ⟨h0, h1⟩) a
    · rw [h0]
      obtain rfl : n = 0 := (Nat.mul_eq_zero.mp h0).resolve_right hpos.ne'
      rw [if_neg (by omega), List.replicate_zero, List.count_nil]
    · obtain rfl : n = 1 := Nat.eq_of_mul_eq_mul_right hpos (h1.trans (Nat.one_mul _).symm)
      rw [h0, h1, Nat.zero_add, List.replicate_one]
      rcases Nat.eq_zero_or_pos a with rfl | ha
      · rw [if_pos ⟨le_rfl, hpos, Nat.dvd_zero _⟩, List.count_singleton_self]
      · rw [if_neg, List.count_eq_zero_of_not_mem (by simpa using ha.ne')]
        rintro ⟨_, hlt, hdvd⟩
        exact absurd (Nat.le_of_dvd ha hdvd) (by omega)

theorem erasesBlocks_iff (e : EraseSize) (ads : Bool) (addr size : Nat) (haddr : e.bytes ∣ addr) (hsize : e.bytes ∣ size)
    (h32 : addr + size ≤ 2 ^ 32) :
    ∃ sent, Returns (fun steps => spiflashErase e ads steps addr size) sent ∧
      (ErasesBlocks e sent addr size ↔ size = 0 ∨ addr = 0 ∧ size = e.bytes) := by
  obtain ⟨i, rfl⟩ := haddr
  obtain ⟨n, rfl⟩ := hsize
  rw [Nat.mul_comm _ i, Nat.mul_comm _ n] at *
  rw [← Nat.add_mul] at h32
  exact ⟨_, spiflashErase_returns e ads n i h32, erasesBlocks_replicate e i n⟩

/-! ## The erase of a range -/

/-- Both functions return for a range of whole pages or blocks. `dataflash_erase` erases its pages if there is no whole
block but the first in it and its pages can be sent, and `spiflash_erase` its blocks if there are none or it is the first block. -/
theorem erased_iff (f : Dataflash) (e : EraseSize) (ads : Bool) (addr size : Nat) (h32 : addr + size ≤ 2 ^ 32) :
    (2 ^ f.pageorder ∣ addr → 2 ^ f.pageorder ∣ size → addr + size ≤ f.nrPages * 2 ^ f.pageorder →
      ∃ cs, Returns (fun steps => f.erase steps addr size) cs ∧ (f.ErasesPages cs addr size ↔ f.Erasable addr size)) ∧
    (e.bytes ∣ addr → e.bytes ∣ size →
      ∃ sent, Returns (fun steps => spiflashErase e ads steps addr size) sent ∧
        (ErasesBlocks e sent addr size ↔ size = 0 ∨ addr = 0 ∧ size = e.bytes)) := by
  constructor
  · intro haddr hsize hend
    exact f.erasesPages_iff addr size haddr hsize hend h32
  · intro haddr hsize
    exact erasesBlocks_iff e ads addr size haddr hsize h32

/-- The memory of the repository, with 8192 pages of 1056 bytes -/
def at45db642d : Dataflash := ⟨1056, 8192, by decide, by decide⟩

/-- The last 3 pages of the first block and one more are erased, and the block behind the first of an SPI flash is not. -/
theorem erased_four_pages :
    (∃ cs, Returns (fun steps => at45db642d.erase steps 5120 4096) cs ∧ at45db642d.ErasesPages cs 5120 4096) ∧
      ∃ sent, Returns (fun steps => spiflashErase .erase4k false steps 4096 4096) sent ∧ ¬ErasesBlocks .erase4k sent 4096 4096 := by
  constructor
  · obtain ⟨cs, hcs, hiff⟩ := (erased_iff at45db642d .erase4k false 5120 4096 (by decide)).1 (by decide) (by decide) (by decide)
    refine ⟨cs, hcs, hiff.mpr ⟨fun b hb h => ?_, fun p _ hp => ?_⟩⟩
    · have h10 : at45db642d.pageorder = 10 := by decide
      rw [h10] at h
      omega
    · have h10 : at45db642d.pageorder = 10 := by decide
      have h11 : at45db642d.hwOrder = 11 := by decide
      rw [h10] at hp
      rw [h11]
      omega
  · obtain ⟨sent, hsent, hiff⟩ := (erased_iff at45db642d .erase4k false 4096 4096 (by decide)).2 (by decide) (by decide)
    exact ⟨sent, hsent, fun h => absurd (hiff.mp h) (by decide)⟩

/-- The second block of 8 pages is not erased, but the first; an SPI flash erases its first block for its second. -/
theorem second_block_not_erased :
    (∃ cs, at45db642d.erase 2 8192 8192 = some cs ∧ cs.flatMap at45db642d.erased = [0, 1, 2, 3, 4, 5, 6, 7] ∧
      ¬at45db642d.ErasesPages cs 8192 8192) ∧
    spiflashErase .erase4k false 2 4096 4096 = some [0] ∧ ¬ErasesBlocks .erase4k [0] 4096 4096 := by
  refine ⟨⟨[⟨.block, 0⟩], by decide, by decide, fun h => ?_⟩, by decide, fun h => ?_⟩
  · exact absurd (h 8) (by decide)
  · exact absurd (h 4096) (by decide)

end Sdfirm.Flash
