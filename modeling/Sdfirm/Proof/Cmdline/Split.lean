import Mathlib
import Sdfirm.Spec.Cmdline

/-!
# Splitting of commands

`cmd_parse` finds the words of a line (`parseArgs_of_fits`, `parseArgs_not_fits`). A batch is
scanned word by word, and a semicolon is seen only directly behind a word: what
is executed is `exec`, which joins a piece that ends with a blank to the next
one (`batchFrom_eq`). `exec_iff` says when that makes no difference.
-/

namespace Sdfirm.Cmdline

variable {c : Char} {arg l line : List Char} {left nargs : Nat} {p : Char → Bool}

/-! ## Words -/

theorem words_nil : words [] = [] := rfl

theorem words_blank (hc : isblank c = true) (l : List Char) : words (c :: l) = words l := by
  rw [words, List.splitOnP_cons_eq_if_modifyHead, if_pos hc]
  rfl

theorem words_append (harg : arg ≠ []) (h : ∀ x ∈ arg, isblank x = false) (hc : isblank c = true) (l : List Char) :
    words (arg ++ c :: l) = arg :: words l := by
  rw [words, List.splitOnP_append_cons_of_forall_mem h c hc]
  exact List.filter_cons_of_pos (decide_eq_true harg)

theorem words_single (harg : arg ≠ []) (h : ∀ x ∈ arg, isblank x = false) : words arg = [arg] := by
  rw [words, List.splitOnP_eq_singleton h]
  exact List.filter_cons_of_pos (decide_eq_true harg)

theorem isblank_of_words_eq_nil (h : words line = []) : ∀ x ∈ line, isblank x = true := by
  induction line with
  | nil => exact fun x hx => absurd hx List.not_mem_nil
  | cons c l ih =>
    by_cases hc : isblank c = true
    · rw [words_blank hc] at h
      exact List.forall_mem_cons.mpr ⟨hc, ih h⟩
    · -- The first word begins with `c`.
      obtain ⟨w, ws, hsplit⟩ := List.exists_cons_of_ne_nil (List.splitOnP_ne_nil isblank l)
      rw [words, List.splitOnP_cons_eq_if_modifyHead, if_neg hc, hsplit, List.modifyHead_cons, List.filter_eq_nil_iff] at h
      exact absurd (decide_eq_true (List.cons_ne_nil c w)) (h _ List.mem_cons_self)

theorem endsBlank_append_cons (arg : List Char) (c : Char) (hl : l ≠ []) : EndsBlank (arg ++ c :: l) ↔ EndsBlank l := by
  rw [EndsBlank, EndsBlank, List.getLast?_append_of_ne_nil _ (List.cons_ne_nil c l), List.getLast?_cons_of_ne_nil hl]

theorem endsBlank_append_singleton (hc : isblank c = true) : EndsBlank (arg ++ [c]) := by
  rw [EndsBlank, List.getLast?_concat]
  exact hc

theorem endsBlank_of_words_eq_nil (h : words l = []) (hl : l ≠ []) : EndsBlank l := by
  rw [EndsBlank, List.getLast?_eq_some_getLast hl]
  exact isblank_of_words_eq_nil h _ (List.getLast_mem hl)

theorem not_endsBlank (h : ∀ x ∈ arg, isblank x = false) : ¬EndsBlank arg := by
  intro hend
  obtain ⟨x, hx, hblank⟩ := (Option.any_eq_true _ _).mp hend
  rw [h x (List.mem_of_getLast? hx)] at hblank
  exact absurd hblank Bool.false_ne_true

/-! ## Room in `argv` -/

theorem fits_of_words_eq_nil (hleft : 0 < left) (h : words line = []) : Fits left line := by
  refine .inl ?_
  rw [h]
  exact hleft

theorem fits_blank (hleft : 0 < left) (hc : isblank c = true) (l : List Char) : Fits left (c :: l) ↔ Fits left l := by
  by_cases h : words l = []
  · exact iff_of_true (fits_of_words_eq_nil hleft ((words_blank hc l).trans h)) (fits_of_words_eq_nil hleft h)
  · have hl : l ≠ [] := fun hl => h (hl ▸ words_nil)
    rw [Fits, Fits, words_blank hc, ← endsBlank_append_cons [] c hl, List.nil_append]

theorem fits_single (harg : arg ≠ []) (h : ∀ x ∈ arg, isblank x = false) : Fits (left + 1) arg := by
  rw [Fits, words_single harg h, List.length_singleton]
  by_cases hleft : left = 0
  · exact .inr ⟨by omega, not_endsBlank h⟩
  · exact .inl (by omega)

theorem not_fits_one (harg : arg ≠ []) (h : ∀ x ∈ arg, isblank x = false) (hc : isblank c = true) :
    ¬Fits 1 (arg ++ c :: l) := by
  rw [Fits, words_append harg h hc, List.length_cons]
  rintro (hlt | ⟨hlen, hend⟩)
  · omega
  · have hwords : words l = [] := List.length_eq_zero_iff.mp (by omega)
    by_cases hl : l = []
    · rw [hl] at hend
      exact hend (endsBlank_append_singleton hc)
    · exact hend ((endsBlank_append_cons arg c hl).mpr (endsBlank_of_words_eq_nil hwords hl))

theorem fits_append (harg : arg ≠ []) (h : ∀ x ∈ arg, isblank x = false) (hc : isblank c = true) (hleft : 0 < left) :
    Fits (left + 1) (arg ++ c :: l) ↔ Fits left l := by
  rw [Fits, Fits, words_append harg h hc, List.length_cons]
  by_cases hl : l = []
  · subst hl
    rw [words_nil, List.length_nil]
    omega
  · rw [endsBlank_append_cons arg c hl, Nat.add_lt_add_iff_right, Nat.add_right_cancel_iff]

/-! ## One argument -/

/-- The argument that begins where the separators end. -/
theorem scan_cases (p : Char → Bool) (line : List Char) :
    line.dropWhile p = [] ∨
    ∃ arg, arg ≠ [] ∧ (∀ x ∈ arg, p x = false) ∧
      (line.dropWhile p = arg ∨ ∃ c l, p c = true ∧ line.dropWhile p = arg ++ c :: l) := by
  cases hline : line.dropWhile p with
  | nil => exact .inl rfl
  | cons d rest =>
    have hd : p d = false := by
      have := List.head_dropWhile_not p (hline ▸ List.cons_ne_nil d rest)
      simpa only [hline, List.head_cons] using this
    refine .inr ⟨(d :: rest).takeWhile (!p ·), ?_, fun x hx => ?_, ?_⟩
    · rw [List.takeWhile_cons_of_pos (by rw [hd]; rfl)]
      exact List.cons_ne_nil _ _
    · simpa using List.mem_takeWhile_imp hx
    · have hsplit := List.takeWhile_append_dropWhile (p := (!p ·)) (l := d :: rest)
      cases htail : (d :: rest).dropWhile (!p ·) with
      | nil =>
        rw [htail, List.append_nil] at hsplit
        exact .inl hsplit.symm
      | cons c l =>
        rw [htail] at hsplit
        refine .inr ⟨c, l, ?_, hsplit.symm⟩
        have := List.head_dropWhile_not (!p ·) (htail ▸ List.cons_ne_nil c l)
        simpa only [htail, List.head_cons, Bool.not_eq_false'] using this

/-- How the scans see an argument and what follows it. -/
theorem takeWhile_arg (h : ∀ x ∈ arg, p x = false) (hc : p c = true) (l : List Char) :
    (arg ++ c :: l).takeWhile (!p ·) = arg ∧ (arg ++ c :: l).dropWhile (!p ·) = c :: l := by
  have harg : ∀ x ∈ arg, (!p x) = true := fun x hx => by rw [h x hx]; rfl
  constructor
  · rw [List.takeWhile_append_of_pos harg, List.takeWhile_cons_of_neg (by simp [hc]), List.append_nil]
  · rw [List.dropWhile_append_of_pos harg, List.dropWhile_cons_of_neg (by simp [hc])]

theorem takeWhile_last (h : ∀ x ∈ arg, p x = false) :
    arg.takeWhile (!p ·) = arg ∧ arg.dropWhile (!p ·) = [] := by
  have harg : ∀ x ∈ arg, (!p x) = true := fun x hx => by rw [h x hx]; rfl
  exact ⟨List.takeWhile_eq_self_iff.mpr harg, List.dropWhile_eq_nil_iff.mpr harg⟩

/-! ## `cmd_parse` -/

theorem parseArgs_nil (h : line.dropWhile isblank = []) : parseArgs (left + 1) nargs line = (nargs, [none]) := by
  rw [parseArgs, h]

theorem parseArgs_last (harg : arg ≠ []) (h : ∀ x ∈ arg, isblank x = false) (hline : line.dropWhile isblank = arg) :
    parseArgs (left + 1) nargs line = (nargs + 1, [some arg, none]) := by
  obtain ⟨htake, hdrop⟩ := takeWhile_last h
  obtain ⟨c, l, rfl⟩ := List.exists_cons_of_ne_nil harg
  simp only [parseArgs, hline, htake, hdrop]

theorem parseArgs_next (harg : arg ≠ []) (h : ∀ x ∈ arg, isblank x = false) (hc : isblank c = true)
    (hline : line.dropWhile isblank = arg ++ c :: l) :
    parseArgs (left + 1) nargs line =
      ((parseArgs left (nargs + 1) l).1, some arg :: (parseArgs left (nargs + 1) l).2) := by
  obtain ⟨htake, hdrop⟩ := takeWhile_arg h hc l
  obtain ⟨d, r, rfl⟩ := List.exists_cons_of_ne_nil harg
  simp only [List.cons_append] at hline htake hdrop
  simp only [parseArgs, hline, htake, hdrop]

theorem words_dropWhile (line : List Char) : words (line.dropWhile isblank) = words line := by
  induction line with
  | nil => rfl
  | cons c l ih =>
    by_cases hc : isblank c = true
    · rw [List.dropWhile_cons_of_pos hc, ih, words_blank hc]
    · rw [List.dropWhile_cons_of_neg hc]

theorem fits_dropWhile (hleft : 0 < left) (line : List Char) : Fits left (line.dropWhile isblank) ↔ Fits left line := by
  induction line with
  | nil => rfl
  | cons c l ih =>
    by_cases hc : isblank c = true
    · rw [List.dropWhile_cons_of_pos hc, ih, fits_blank hleft hc]
    · rw [List.dropWhile_cons_of_neg hc]

theorem parseArgs_of_fits (hleft : 0 < left) (h : Fits left line) :
    parseArgs left nargs line = (nargs + (words line).length, (words line).map some ++ [none]) := by
  induction left generalizing nargs line with
  | zero => exact absurd hleft (Nat.lt_irrefl 0)
  | succ left ih =>
    rw [← fits_dropWhile hleft] at h
    rw [← words_dropWhile]
    obtain hline | ⟨arg, harg, hargs, hline | ⟨c, l, hc, hline⟩⟩ := scan_cases isblank line
    · rw [parseArgs_nil hline, hline]
      rfl
    · rw [parseArgs_last harg hargs hline, hline, words_single harg hargs]
      rfl
    · rw [hline] at h ⊢
      have hpos : 0 < left := Nat.pos_of_ne_zero fun hzero => not_fits_one harg hargs hc (hzero ▸ h)
      rw [parseArgs_next harg hargs hc hline, ih hpos ((fits_append harg hargs hc hpos).mp h), words_append harg hargs hc]
      simp only [List.length_cons, List.map_cons, List.cons_append, Prod.mk.injEq, and_true]
      omega

/-- Without room for the words no `NULL` is written. -/
theorem parseArgs_not_fits (nargs : Nat) (h : ¬Fits left line) : none ∉ (parseArgs left nargs line).2 := by
  induction left generalizing nargs line with
  | zero => exact List.not_mem_nil
  | succ left ih =>
    rw [← fits_dropWhile (Nat.succ_pos left)] at h
    obtain hline | ⟨arg, harg, hargs, hline | ⟨c, l, hc, hline⟩⟩ := scan_cases isblank line
    · rw [hline] at h
      exact absurd (fits_of_words_eq_nil (Nat.succ_pos left) words_nil) h
    · rw [hline] at h
      exact absurd (fits_single harg hargs) h
    · rw [hline] at h
      rw [parseArgs_next harg hargs hc hline, List.mem_cons, not_or]
      refine ⟨nofun, ?_⟩
      by_cases hpos : 0 < left
      · exact ih (nargs + 1) fun hfits => h ((fits_append harg hargs hc hpos).mpr hfits)
      · rw [Nat.eq_zero_of_not_pos hpos]
        exact List.not_mem_nil

theorem cmdParse_iff (line : List Char) : cmdParse line = call (words line) ↔ Fits maxargs line := by
  constructor
  · intro h
    by_contra hfits
    refine parseArgs_not_fits 0 hfits ?_
    rw [show parseArgs maxargs 0 line = call (words line) from h]
    exact List.mem_append_right _ (List.mem_singleton_self none)
  · intro h
    rw [cmdParse, parseArgs_of_fits (by decide) h, Nat.zero_add]
    rfl

/-! ## What a batch executes -/

/-- The call for the words at the end of a batch. -/
def emit (acc : List Word) : List Call := if acc = [] then [] else [call acc]

/-- What is executed for the pieces, if the words `acc` have already been read: a piece that ends with a blank is joined
to the next one, and nothing follows too many words. -/
def exec : List Word → List (List Char) → List Call
  | acc, [] => emit acc
  | acc, p :: ps =>
    if words p = [] then exec acc ps
    else if Fits (maxargs - acc.length) p then
      if EndsBlank p then exec (acc ++ words p) ps else call (acc ++ words p) :: exec [] ps
    else []

variable {acc : List Word} {ps : List (List Char)}

theorem exec_blank_piece {q : List Char} (h : words q = []) : exec acc (q :: ps) = exec acc ps := if_pos h

theorem pieces_append (h : ';' ∉ arg) (l : List Char) : pieces (arg ++ l) = (pieces l).modifyHead (arg ++ ·) := by
  induction arg with
  | nil =>
    obtain ⟨q, qs, hq⟩ := List.exists_cons_of_ne_nil (List.splitOnP_ne_nil (· = ';') l)
    simp [pieces, hq]
  | cons c arg ih =>
    obtain ⟨hc, harg⟩ := not_or.mp (List.mem_cons.not.mp h)
    obtain ⟨q, qs, hq⟩ := List.exists_cons_of_ne_nil (List.splitOnP_ne_nil (· = ';') l)
    rw [List.cons_append, pieces, List.splitOnP_cons_eq_if_modifyHead, if_neg (by simpa using Ne.symm hc)]
    change List.modifyHead _ (pieces (arg ++ l)) = _
    rw [ih harg, pieces, hq]
    rfl

theorem pieces_semicolon (l : List Char) : pieces (';' :: l) = [] :: pieces l := by
  rw [pieces, List.splitOnP_cons_eq_if_modifyHead, if_pos (by decide)]
  rfl

theorem not_mem_semicolon (h : ∀ x ∈ arg, isSep x = false) : ';' ∉ arg := fun hmem => absurd (h _ hmem) (by decide)

theorem isblank_of_isSep (h : ∀ x ∈ arg, isSep x = false) : ∀ x ∈ arg, isblank x = false :=
  fun x hx => (Bool.or_eq_false_iff.mp (h x hx)).1

/-- Separators before the first word change nothing. -/
theorem exec_dropWhile (hacc : acc.length < maxargs) (line : List Char) :
    exec acc (pieces (line.dropWhile isSep)) = exec acc (pieces line) := by
  induction line with
  | nil => rfl
  | cons c l ih =>
    by_cases hsep : isSep c = true
    · rw [List.dropWhile_cons_of_pos hsep, ih]
      by_cases hc : c = ';'
      · rw [hc, pieces_semicolon, exec_blank_piece words_nil]
      · have hblank : isblank c = true := by simpa [isSep, hc] using hsep
        rw [← List.singleton_append, pieces_append (by simpa using Ne.symm hc)]
        obtain ⟨q, qs, hq⟩ := List.exists_cons_of_ne_nil (List.splitOnP_ne_nil (· = ';') l)
        rw [pieces, hq, List.modifyHead_cons, List.singleton_append, exec, exec, words_blank hblank]
        simp only [fits_blank (Nat.sub_pos_of_lt hacc) hblank]
        by_cases hwords : words q = []
        · rw [if_pos hwords, if_pos hwords]
        · have hend : EndsBlank (c :: q) ↔ EndsBlank q := endsBlank_append_cons [] c fun h => hwords (h ▸ words_nil)
          simp only [hend]
    · rw [List.dropWhile_cons_of_neg hsep]

section Argument

variable (harg : arg ≠ []) (h : ∀ x ∈ arg, isSep x = false) (hacc : acc.length < maxargs)

include harg h hacc

theorem exec_last : exec acc (pieces arg) = [call (acc ++ [arg])] := by
  have hblank := isblank_of_isSep h
  obtain ⟨left, hleft⟩ : ∃ left, maxargs - acc.length = left + 1 := ⟨maxargs - acc.length - 1, by omega⟩
  have hpieces : pieces arg = [arg] := List.splitOnP_eq_singleton fun x hx =>
    decide_eq_false fun hsemi => not_mem_semicolon h (hsemi ▸ hx)
  rw [hpieces, exec, words_single harg hblank, if_neg (List.cons_ne_nil arg []), hleft, if_pos (fits_single harg hblank),
    if_neg (not_endsBlank hblank)]
  rfl

theorem exec_semicolon (l : List Char) :
    exec acc (pieces (arg ++ ';' :: l)) = call (acc ++ [arg]) :: exec [] (pieces l) := by
  have hblank := isblank_of_isSep h
  obtain ⟨left, hleft⟩ : ∃ left, maxargs - acc.length = left + 1 := ⟨maxargs - acc.length - 1, by omega⟩
  rw [pieces_append (not_mem_semicolon h), pieces_semicolon, List.modifyHead_cons, List.append_nil, exec,
    words_single harg hblank, if_neg (List.cons_ne_nil arg []), hleft, if_pos (fits_single harg hblank),
    if_neg (not_endsBlank hblank)]

/-- A blank behind a word leaves the call open. -/
theorem exec_blank (hc : isblank c = true) (l : List Char) :
    exec acc (pieces (arg ++ c :: l)) = if acc.length + 1 = maxargs then [] else exec (acc ++ [arg]) (pieces l) := by
  have hblank := isblank_of_isSep h
  have hsemi : ';' ∉ arg ++ [c] := by
    rw [List.mem_append, List.mem_singleton]
    rintro (hmem | rfl)
    · exact not_mem_semicolon h hmem
    · exact absurd hc (by decide)
  obtain ⟨q, qs, hq⟩ := List.exists_cons_of_ne_nil (List.splitOnP_ne_nil (· = ';') l)
  rw [List.append_cons, pieces_append hsemi, pieces, hq, List.modifyHead_cons, List.append_assoc, List.singleton_append]
  obtain ⟨left, hleft⟩ : ∃ left, maxargs - acc.length = left + 1 := ⟨maxargs - acc.length - 1, by omega⟩
  rw [exec, words_append harg hblank hc, if_neg (List.cons_ne_nil _ _), hleft]
  by_cases hfull : acc.length + 1 = maxargs
  · obtain rfl : left = 0 := by omega
    rw [if_pos hfull, if_neg (not_fits_one harg hblank hc)]
  · have hpos : 0 < left := by omega
    have hlen : maxargs - (acc ++ [arg]).length = left := by rw [List.length_append, List.length_singleton]; omega
    rw [if_neg hfull, exec, hlen, List.append_cons acc]
    simp only [fits_append harg hblank hc hpos]
    by_cases hwords : words q = []
    · -- The piece has no more words, and it ends with a blank.
      have hend : EndsBlank (arg ++ c :: q) := by
        by_cases hne : q = []
        · rw [hne]
          exact endsBlank_append_singleton hc
        · exact (endsBlank_append_cons arg c hne).mpr (endsBlank_of_words_eq_nil hwords hne)
      rw [if_pos hwords, if_pos (fits_of_words_eq_nil hpos hwords), if_pos hend, hwords, List.append_nil]
    · have hne : q ≠ [] := fun h => hwords (h ▸ words_nil)
      simp only [if_neg hwords, endsBlank_append_cons arg c hne]

end Argument

/-! ## `cmd_batch` -/

theorem parseBatch_nil (h : line.dropWhile isSep = []) : parseBatch (left + 1) nargs line = ⟨some nargs, [none], none⟩ := by
  rw [parseBatch, h]

theorem parseBatch_last (harg : arg ≠ []) (h : ∀ x ∈ arg, isSep x = false) (hline : line.dropWhile isSep = arg) :
    parseBatch (left + 1) nargs line = ⟨some (nargs + 1), [some arg, none], none⟩ := by
  obtain ⟨htake, hdrop⟩ := takeWhile_last h
  obtain ⟨c, l, rfl⟩ := List.exists_cons_of_ne_nil harg
  simp only [parseBatch, hline, htake, hdrop]

theorem parseBatch_next (harg : arg ≠ []) (h : ∀ x ∈ arg, isSep x = false) (hc : isSep c = true)
    (hline : line.dropWhile isSep = arg ++ c :: l) :
    parseBatch (left + 1) nargs line =
      if c = ';' then ⟨some (nargs + 1), [some arg, none], some l⟩
      else { parseBatch left (nargs + 1) l with argv := some arg :: (parseBatch left (nargs + 1) l).argv } := by
  obtain ⟨htake, hdrop⟩ := takeWhile_arg h hc l
  obtain ⟨d, r, rfl⟩ := List.exists_cons_of_ne_nil harg
  simp only [List.cons_append] at hline htake hdrop
  simp only [parseBatch, hline, htake, hdrop]

/-- What the loop of `cmd_batch` does with the outcome of `parse_batch`, if the words `acc` have already been read. -/
def finish (fuel : Nat) (acc : List Word) (r : Parsed) : Option (List Call) :=
  let executed := if 0 < r.args.getD 0 then [(r.args.getD 0, acc.map some ++ r.argv)] else []
  match r.rest with
  | none => some executed
  | some line => (batchLoop fuel line).map (executed ++ ·)

theorem batchLoop_succ (fuel : Nat) (line : List Char) :
    batchLoop (fuel + 1) line = finish fuel [] (parseBatch maxargs 0 line) := rfl

theorem finish_cons (fuel : Nat) (acc : List Word) (w : Word) (r : Parsed) :
    finish fuel acc { r with argv := some w :: r.argv } = finish fuel (acc ++ [w]) r := by
  simp only [finish, List.map_append, List.map_singleton, List.append_assoc, List.singleton_append]

theorem finish_eq (fuel : Nat) (acc : List Word) (hacc : acc.length < maxargs) (hfuel : line.length ≤ fuel) :
    finish fuel acc (parseBatch (maxargs - acc.length) acc.length line) = some (exec acc (pieces line)) := by
  -- The rest of the line is shorter, whether the same call goes on or the next one begins.
  induction hn : line.length using Nat.strongRecOn generalizing fuel acc line with
  | ind n ih =>
    subst hn
    obtain ⟨left, hleft⟩ : ∃ left, maxargs - acc.length = left + 1 := ⟨maxargs - acc.length - 1, by omega⟩
    have hcall (w : Word) : (acc.length + 1, acc.map some ++ [some w, none]) = call (acc ++ [w]) := by
      simp [call]
    rw [← exec_dropWhile hacc line, hleft]
    obtain hline | ⟨arg, harg, hargs, hline | ⟨c, l, hc, hline⟩⟩ := scan_cases isSep line
    · rw [parseBatch_nil hline, hline]
      show some (if 0 < acc.length then [call acc] else []) = some (emit acc)
      rw [emit]
      by_cases hnil : acc = []
      · rw [hnil]
        rfl
      · rw [if_pos (List.length_pos_iff.mpr hnil), if_neg hnil]
    · rw [parseBatch_last harg hargs hline, hline, exec_last harg hargs hacc, ← hcall]
      rfl
    · have hlen : l.length < line.length := by
        have := List.length_dropWhile_le isSep line
        rw [hline, List.length_append, List.length_cons] at this
        omega
      rw [parseBatch_next harg hargs hc hline, hline]
      by_cases hsemi : c = ';'
      · obtain ⟨fuel, rfl⟩ : ∃ n, fuel = n + 1 := ⟨fuel - 1, by omega⟩
        have hrest := ih l.length hlen fuel [] (by decide) (Nat.le_of_lt_succ (hlen.trans_le hfuel)) rfl
        rw [if_pos hsemi, hsemi, exec_semicolon harg hargs hacc, ← hcall]
        show (batchLoop (fuel + 1) l).map _ = _
        rw [batchLoop_succ]
        exact congrArg (Option.map _) hrest
      · have hblank : isblank c = true := by simpa [isSep, hsemi] using hc
        rw [if_neg hsemi, exec_blank harg hargs hacc hblank, finish_cons]
        by_cases hfull : acc.length + 1 = maxargs
        · rw [if_pos hfull, show left = 0 by omega]
          rfl
        · have hacc' : (acc ++ [arg]).length < maxargs := by rw [List.length_append, List.length_singleton]; omega
          have hrest := ih l.length hlen fuel (acc ++ [arg]) hacc' (by omega) rfl
          rw [if_neg hfull, ← hrest, List.length_append, List.length_singleton, show maxargs - (acc.length + 1) = left by omega]

theorem cmdBatch_eq (line : List Char) : cmdBatch line = some (exec [] (pieces line)) :=
  finish_eq line.length [] (by decide) le_rfl

/-! ## When the pieces stay apart -/

/-- The pieces that have words. -/
def nonblank (ps : List (List Char)) : List (List Char) := ps.filter (words · ≠ [])

theorem nonblank_cons_of_eq {q : List Char} (h : words q = []) : nonblank (q :: ps) = nonblank ps :=
  List.filter_cons_of_neg (by simpa using h)

theorem nonblank_cons_of_ne {q : List Char} (h : words q ≠ []) : nonblank (q :: ps) = q :: nonblank ps :=
  List.filter_cons_of_pos (by simpa using h)

/-- The calls for pieces. -/
def expected (ps : List (List Char)) : List Call :=
  ((ps.map words).filter fun ws => ws ≠ [] ∧ ws.length ≤ maxargs).map call

theorem expected_eq_nil_iff : expected ps = [] ↔ ∀ q ∈ nonblank ps, maxargs < (words q).length := by
  simp only [expected, nonblank, List.map_eq_nil_iff, List.filter_eq_nil_iff, List.mem_map, List.mem_filter,
    decide_eq_true_eq, not_and, not_le, forall_exists_index, and_imp, forall_apply_eq_imp_iff₂]

theorem exec_of_nonblank_eq_nil (h : nonblank ps = []) : exec acc ps = emit acc := by
  induction ps with
  | nil => rfl
  | cons q qs ih =>
    by_cases hwords : words q = []
    · rw [nonblank_cons_of_eq hwords] at h
      rw [exec_blank_piece hwords, ih h]
    · rw [nonblank_cons_of_ne hwords] at h
      exact absurd h (List.cons_ne_nil _ _)

/-- The first call has the words read before and those of a further piece. -/
theorem lt_of_exec_eq_cons {x : Call} {xs : List Call} (hne : nonblank ps ≠ []) (h : exec acc ps = x :: xs) :
    acc.length < x.1 := by
  induction ps generalizing acc with
  | nil => exact absurd rfl hne
  | cons q qs ih =>
    by_cases hwords : words q = []
    · rw [nonblank_cons_of_eq hwords] at hne
      rw [exec_blank_piece hwords] at h
      exact ih hne h
    · have hpos : 0 < (words q).length := List.length_pos_iff.mpr hwords
      have hlen : acc.length < (acc ++ words q).length := by rw [List.length_append]; omega
      rw [exec, if_neg hwords] at h
      split at h
      case isTrue =>
        split at h
        case isTrue =>
          by_cases hqs : nonblank qs = []
          · rw [exec_of_nonblank_eq_nil hqs, emit, if_neg fun hnil => hwords (List.append_eq_nil_iff.mp hnil).2] at h
            obtain ⟨rfl, -⟩ := List.cons.inj h
            exact hlen
          · exact hlen.trans (ih hqs h)
        case isFalse =>
          obtain ⟨rfl, -⟩ := List.cons.inj h
          exact hlen
      case isFalse => exact absurd h nofun

theorem exec_iff (ps : List (List Char)) : exec [] ps = expected ps ↔ Apart (nonblank ps) := by
  induction ps with
  | nil => exact iff_of_true rfl trivial
  | cons q qs ih =>
    by_cases hwords : words q = []
    · have hexpected : expected (q :: qs) = expected qs := by simp [expected, hwords]
      rw [exec_blank_piece hwords, hexpected, ih, nonblank_cons_of_eq hwords]
    · rw [nonblank_cons_of_ne hwords, exec, if_neg hwords, Apart, List.length_nil, Nat.sub_zero, List.nil_append]
      by_cases hlen : (words q).length ≤ maxargs
      · have hexpected : expected (q :: qs) = call (words q) :: expected qs := by simp [expected, hwords, hlen]
        rw [if_pos hlen, hexpected]
        by_cases hend : EndsBlank q
        · by_cases hlt : (words q).length < maxargs
          · rw [if_pos (show Fits maxargs q from .inl hlt), if_pos hend]
            by_cases hqs : nonblank qs = []
            · have hnone : expected qs = [] := expected_eq_nil_iff.mpr (by rw [hqs]; exact fun _ h => absurd h List.not_mem_nil)
              rw [exec_of_nonblank_eq_nil hqs, emit, if_neg hwords, hnone, hqs]
              exact iff_of_true rfl ⟨fun _ => ⟨rfl, hlt⟩, trivial⟩
            · refine iff_of_false (fun h => ?_) fun h => hqs (h.1 hend).1
              exact Nat.lt_irrefl _ (lt_of_exec_eq_cons hqs h)
          · rw [if_neg (show ¬Fits maxargs q from not_or.mpr ⟨hlt, fun h => h.2 hend⟩)]
            exact iff_of_false nofun fun h => hlt (h.1 hend).2
        · rw [if_pos (show Fits maxargs q from (Nat.lt_or_eq_of_le hlen).imp id fun h => ⟨h, hend⟩), if_neg hend,
            List.cons_eq_cons, ih]
          exact ⟨fun h => ⟨fun hblank => absurd hblank hend, h.2⟩, fun h => ⟨rfl, h.2⟩⟩
      · have hexpected : expected (q :: qs) = expected qs := by simp [expected, hlen]
        rw [if_neg hlen, if_neg (show ¬Fits maxargs q from not_or.mpr ⟨by omega, fun h => hlen h.1.le⟩), hexpected,
          ← expected_eq_nil_iff, eq_comm]

/-- A batch is split into its commands if its pieces are apart, and a line into its words if `argv` has room for them. -/
theorem splitting_iff (batch line : List Char) :
    (cmdBatch batch = some (calls batch) ↔ Apart ((pieces batch).filter (words · ≠ []))) ∧
    (cmdParse line = call (words line) ↔ Fits maxargs line) := by
  refine ⟨?_, cmdParse_iff line⟩
  rw [cmdBatch_eq, Option.some_inj]
  exact exec_iff (pieces batch)

theorem splitting_of_three : cmdBatch "a; b\tc;;d ".toList = some (calls "a; b\tc;;d ".toList) :=
  ((splitting_iff _ []).1).mpr (by decide)

/-- A blank before a semicolon joins two commands, and ten words with a blank behind them are too many. -/
theorem splitting_joined :
    cmdBatch "a ;b".toList = some [call [['a'], ['b']]] ∧ calls "a ;b".toList = [call [['a']], call [['b']]] ∧
    cmdBatch "1 2 3 4 5 6 7 8 9 0 ;b".toList = some [] ∧
    cmdBatch "1 2 3 4 5 6 7 8 9 0 1;b".toList = some [] ∧ calls "1 2 3 4 5 6 7 8 9 0 1;b".toList = [call [['b']]] ∧
    (cmdParse "1 2 3 4 5 6 7 8 9 0 ".toList).1 = 10 ∧ none ∉ (cmdParse "1 2 3 4 5 6 7 8 9 0 ".toList).2 := by
  refine ⟨by decide, by decide, by decide, by decide, by decide, by decide, by decide⟩

end Sdfirm.Cmdline
