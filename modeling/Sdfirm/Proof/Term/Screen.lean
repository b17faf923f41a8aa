import Sdfirm.Spec.Term

/-!
# The terminal screen

Every operation keeps `Inv` (`gives_step`): the positions stay in the buffer
and the cursor on the screen, whatever wraps, and only the first
`Geometry.lines` lines are allocated. A loop whose bound fits into its counter
ends (`gives_loop`). The one of `term_init_buffer_line` counts the positions of
the buffer, so that a line that ends behind position 255 is filled for ever
(`initBufferLine_diverges`).

`term_get_index_by_XY` multiplies where it should add: a text is drawn from
its place only if it is `Aligned` (`getIndexByXY_eq_cell`).
-/

namespace Sdfirm.Term

open Framework.Except

variable {g : Geometry} {t t' : Terminal} {fuel : Nat}

/-- The sizes are those of the geometry, and the positions are inside. -/
structure Inv (g : Geometry) (t : Terminal) : Prop where
  width : t.width = g.width
  height : t.height = g.height
  depth : t.depth = g.depth
  screen : t.screen = 0
  bottom : t.bottom < g.lines
  top : t.top < g.lines
  top_le : g.height = g.depth ∨ t.top ≤ t.bottom
  view : t.view < g.depth
  x : t.x < g.width
  y : t.y < g.height
  savedX : t.savedX < g.width
  savedY : t.savedY < g.height

theorem Inv.width_pos (h : Inv g t) : 0 < g.width := Nat.zero_lt_of_lt h.x

/-! ## Loops -/

theorem gives_loop {P : Terminal → Prop} {bound : Terminal → Nat} {body : Nat → Terminal → Res Terminal}
    (hbound : ∀ t, P t → bound t < 256) (hbody : ∀ i t, P t → i < bound t → Gives (body i t) P) {i : Nat}
    (hfuel : 256 ≤ fuel + i) (hpos : 0 < fuel) (ht : P t) : Gives (loop bound body fuel i t) P := by
  induction fuel generalizing i t with
  | zero => omega
  | succ fuel ih =>
    rw [loop]
    split
    · rename_i hi
      have hlt := hbound t ht
      refine (hbody i t ht hi).bind fun t' ht' => ?_
      rw [Nat.mod_eq_of_lt (by omega)]
      exact ih (by omega) (by omega) ht'
    · exact .ok ht

/-- Without enough fuel a loop can still end only where its body leads. -/
theorem loop_cases {P : Terminal → Prop} {bound : Terminal → Nat} {body : Nat → Terminal → Res Terminal}
    (hbody : ∀ i t, P t → i < bound t → Gives (body i t) P) (fuel i : Nat) (ht : P t) :
    loop bound body fuel i t = .error .fuel ∨ Gives (loop bound body fuel i t) P := by
  induction fuel generalizing i t with
  | zero => exact .inl rfl
  | succ fuel ih =>
    rw [loop]
    split
    · rename_i hi
      obtain ⟨t', he, ht'⟩ := hbody i t ht hi
      rw [he]
      exact ih _ ht'
    · exact .inr (.ok ht)

/-- A loop whose bound is more than its counter can hold does not end. -/
theorem loop_diverges {P : Terminal → Prop} {bound : Terminal → Nat} {body : Nat → Terminal → Res Terminal}
    (hbound : ∀ t, 255 < bound t) (hbody : ∀ i < 256, ∀ t, P t → Gives (body i t) P) (fuel : Nat) {i : Nat}
    (hi : i < 256) (ht : P t) : loop bound body fuel i t = .error .fuel := by
  induction fuel generalizing i t with
  | zero => rfl
  | succ fuel ih =>
    rw [loop, if_pos (by have := hbound t; omega)]
    obtain ⟨t', he, ht'⟩ := hbody i hi t ht
    rw [he]
    exact ih (Nat.mod_lt _ (by decide)) ht'

/-! ## Cells -/

theorem getIndexByY_lt (h : Inv g t) {y : Nat} (hy : y < g.height) : getIndexByY t y < g.depth := by
  have := h.view
  have := h.depth
  have := g.height_le
  unfold getIndexByY
  split <;> omega

theorem cell_lt (h : Inv g t) {x y : Nat} (hx : x < g.width) (hy : y < g.height) : cell t x y < outputSize t := by
  rw [cell, outputSize, h.width, h.depth]
  exact Nat.mul_comm g.depth _ ▸ Nat.mul_comm g.width _ ▸ Nat.lt_of_lt_of_le (Nat.add_lt_add_left hx _)
    (Nat.mul_le_mul_left g.width (getIndexByY_lt h hy))

theorem lt_attribSize {i : Nat} (h : i < outputSize t) : i < attribSize t := by
  unfold attribSize
  unfold outputSize at h
  omega

theorem cell_inj (h : Inv g t) {x y x' y' : Nat} (hx : x < g.width) (hy : y < g.height) (hx' : x' < g.width)
    (hy' : y' < g.height) (he : cell t x' y' = cell t x y) : x' = x ∧ y' = y := by
  rw [cell, cell, h.width, Nat.mul_comm, Nat.mul_comm _ g.width] at he
  have hline : getIndexByY t y' = getIndexByY t y := by
    have hd := congrArg (· / g.width) he
    simpa [Nat.mul_add_div h.width_pos, Nat.div_eq_of_lt hx, Nat.div_eq_of_lt hx'] using hd
  have := h.view
  have := h.depth
  have := g.height_le
  refine ⟨by rw [hline] at he; omega, ?_⟩
  unfold getIndexByY at hline
  split at hline <;> split at hline <;> omega

/-- A write to one cell of the screen is read from that cell only. -/
theorem update_cell (h : Inv g t) {α : Type} {x y x' y' : Nat} (hx : x < g.width) (hy : y < g.height) (hx' : x' < g.width)
    (hy' : y' < g.height) (f : Nat → α) (v : α) :
    Function.update f (cell t x y) v (cell t x' y') = if x' = x ∧ y' = y then v else f (cell t x' y') := by
  split
  · rename_i he
    rw [he.1, he.2, Function.update_self]
  · rename_i hne
    rw [Function.update_of_ne fun he => hne (cell_inj h hx hy hx' hy' he)]

theorem readsBack_of_inv (h : Inv g t) : ReadsBack g t where
  text x hx y hy c := by
    refine ⟨_, if_pos (cell_lt h hx hy), fun x' hx' y' hy' => ?_, fun x' y' => rfl⟩
    have hin := cell_lt h hx' hy'
    refine (if_pos hin).trans ?_
    show Except.ok (Function.update t.output (cell t x y) c (cell t x' y')) = _
    rw [update_cell h hx hy hx' hy', getTextAt, readOutput, if_pos hin]
    split <;> rfl
  attr x hx y hy a := by
    refine ⟨_, if_pos (lt_attribSize (cell_lt h hx hy)), fun x' hx' y' hy' => ?_, fun x' y' => rfl⟩
    have hin := lt_attribSize (cell_lt h hx' hy')
    refine (if_pos hin).trans ?_
    show Except.ok (Function.update t.attrib (cell t x y) a (cell t x' y')) = _
    rw [update_cell h hx hy hx' hy', getAttrAt, readAttrib, if_pos hin]
    split <;> rfl

/-! ## Lines -/

/-- A cell of a buffer line is filled. -/
theorem gives_fill (h : Inv g t) {i : Nat} (hi : i < g.depth * g.width) :
    Gives (writeOutput t i 0x20 >>= fun t => writeAttrib t i trmAttribDefault)
      fun t' => Inv g t' ∧ t'.top = t.top ∧ t'.bottom = t.bottom := by
  have hin : i < outputSize t := by rw [outputSize, h.width, h.depth]; exact hi
  rw [writeOutput, if_pos hin]
  refine ⟨_, if_pos (lt_attribSize hin), ?_, rfl, rfl⟩
  exact { h with }

theorem lines_le (g : Geometry) : g.lines ≤ g.depth := Nat.min_le_right _ _

theorem line_end_le (h : Inv g t) {line n : Nat} (hline : line < n) : t.width + line * t.width ≤ g.width * n := by
  rw [h.width, Nat.add_comm, ← Nat.succ_mul, Nat.mul_comm]
  exact Nat.mul_le_mul_left _ hline

theorem gives_initBufferLine (hlow : g.Low) (hfuel : 256 ≤ fuel) (h : Inv g t) {line : Nat} (hline : line < g.lines) :
    Gives (initBufferLine fuel line t) (Inv g) := by
  have hend := line_end_le h hline
  have hsize := line_end_le h (Nat.lt_of_lt_of_le hline (lines_le g))
  rw [Nat.mul_comm g.width g.depth] at hsize
  refine gives_loop (fun t' ht' => Nat.lt_of_le_of_lt hend hlow) (fun i t' ht' hi => ?_) (by omega) (by omega) h
  exact (gives_fill ht' (Nat.lt_of_lt_of_le hi hsize)).imp fun _ ht => ht.1

/-- A line that ends behind position 255 is filled for ever. -/
theorem initBufferLine_diverges (h : Inv g t) {line : Nat} (hline : line < g.depth)
    (hend : 255 < t.width + line * t.width) (fuel : Nat) : initBufferLine fuel line t = .error .fuel := by
  have hsize := line_end_le h hline
  rw [Nat.mul_comm g.width g.depth] at hsize
  refine loop_diverges (fun _ => hend) (fun i hi t' ht' => ?_) fuel (Nat.mod_lt _ (by decide)) h
  exact (gives_fill ht' (by omega)).imp fun _ ht => ht.1

theorem gives_delTopBufferLine (hlow : g.Low) (hfuel : 256 ≤ fuel) (h : Inv g t) :
    Gives (delTopBufferLine t fuel) (Inv g) := by
  rw [delTopBufferLine]
  split
  · exact .ok h
  · rename_i hne
    have hlines : g.lines ≤ g.depth := lines_le g
    have hb := h.bottom
    have htop : (t.top + 1) % t.depth < g.lines ∧ (g.height = g.depth ∨ (t.top + 1) % t.depth ≤ t.bottom) := by
      rw [h.depth]
      rcases h.top_le with he | hle
      · have hmod := Nat.mod_lt (t.top + 1) (show 0 < g.depth by omega)
        exact ⟨by unfold Geometry.lines; omega, .inl he⟩
      · rw [Nat.mod_eq_of_lt (by omega)]
        exact ⟨by omega, .inr (by omega)⟩
    have hinv : Inv g { t with top := (t.top + 1) % t.depth } := { h with top := htop.1, top_le := htop.2 }
    exact gives_initBufferLine hlow hfuel hinv htop.1

theorem screenLines_eq (h : Inv g t) : screenLines t = t.bottom := by
  rw [screenLines, slotLines, h.screen, if_neg (Nat.not_lt_zero _), Nat.sub_zero]

/-- Only a buffer as high as the screen is full when a line is to be allocated. -/
theorem height_eq_of_full (h : Inv g t) (hy : t.bottom ≤ t.y) (hfull : (t.bottom + 1) % t.depth = t.top) :
    g.height = g.depth := by
  by_contra hne
  have htop := h.top_le.resolve_left hne
  have := h.y
  have := g.height_le
  rw [h.depth, Nat.mod_eq_of_lt (by omega)] at hfull
  omega

theorem gives_getNewBufferLine (hlow : g.Low) (hfuel : 256 ≤ fuel) (h : Inv g t) :
    Gives (getNewBufferLine t fuel) (Inv g) := by
  have hlines : g.lines ≤ g.depth := lines_le g
  have hheight := g.height_le
  have hpos := g.height_pos
  rw [getNewBufferLine, screenLines_eq h]
  split
  · exact .ok h
  · rename_i hy
    have hmod : ∀ n, n % g.depth < g.depth := fun n => Nat.mod_lt n (by omega)
    split
    · rename_i hfull
      have he := height_eq_of_full h (Nat.le_of_not_lt hy) hfull
      refine (gives_delTopBufferLine hlow hfuel h).bind fun t' ht' => ?_
      have hb : (t'.bottom + (t'.y - t.bottom + 1)) % t'.depth < g.lines := by
        rw [ht'.depth]
        exact Nat.lt_of_lt_of_le (hmod _) (by unfold Geometry.lines; omega)
      have hinv : Inv g { t' with bottom := (t'.bottom + (t'.y - t.bottom + 1)) % t'.depth } :=
        { ht' with bottom := hb, top_le := .inl he }
      exact gives_initBufferLine hlow hfuel hinv hb
    · have hb : (t.bottom + (t.y - t.bottom + 1)) % t.depth < g.lines ∧
          (g.height = g.depth ∨ t.top ≤ (t.bottom + (t.y - t.bottom + 1)) % t.depth) := by
        have hty := h.y
        have hnext : t.bottom + (t.y - t.bottom + 1) = t.y + 1 := by omega
        rw [h.depth, hnext]
        by_cases he : g.height = g.depth
        · exact ⟨Nat.lt_of_lt_of_le (hmod _) (by unfold Geometry.lines; omega), .inl he⟩
        · have htop := h.top_le.resolve_left he
          rw [Nat.mod_eq_of_lt (by omega)]
          exact ⟨by unfold Geometry.lines; omega, .inr (by omega)⟩
      have hinv : Inv g { t with bottom := (t.bottom + (t.y - t.bottom + 1)) % t.depth } :=
        { h with bottom := hb.1, top_le := hb.2 }
      exact gives_initBufferLine hlow hfuel hinv hb.1

/-! ## Erasing -/

theorem inv_drawInvalid (h : Inv g t) (x y w k : Nat) : Inv g (drawInvalid t x y w k) := by
  unfold drawInvalid
  split
  · exact { h with }
  · exact { h with }

@[simp] theorem drawInvalid_top (t : Terminal) (x y w k : Nat) : (drawInvalid t x y w k).top = t.top := by
  unfold drawInvalid
  split <;> rfl

@[simp] theorem drawInvalid_bottom (t : Terminal) (x y w k : Nat) : (drawInvalid t x y w k).bottom = t.bottom := by
  unfold drawInvalid
  split <;> rfl

@[simp] theorem drawInvalid_height (t : Terminal) (x y w k : Nat) : (drawInvalid t x y w k).height = t.height := by
  unfold drawInvalid
  split <;> rfl

@[simp] theorem drawInvalid_y (t : Terminal) (x y w k : Nat) : (drawInvalid t x y w k).y = t.y := by
  unfold drawInvalid
  split <;> rfl

theorem gives_setTextAt (h : Inv g t) {x y : Nat} (hx : x < g.width) (hy : y < g.height) (c : Byte) :
    Gives (setTextAt t x y c) (Inv g) := ⟨_, if_pos (cell_lt h hx hy), { h with }⟩

theorem gives_setAttrAt (h : Inv g t) {x y : Nat} (hx : x < g.width) (hy : y < g.height) (a : BitVec 32) :
    Gives (setAttrAt t x y a) (Inv g) := ⟨_, if_pos (lt_attribSize (cell_lt h hx hy)), { h with }⟩

theorem gives_eraseCell (h : Inv g t) {x y : Nat} (hx : x < g.width) (hy : y < g.height) :
    Gives (eraseCell t x y) (Inv g) := (gives_setTextAt h hx hy 0).bind fun _ ht => gives_setAttrAt ht hx hy _

/-- A loop over columns or rows, which keeps the invariant if its body does. -/
theorem gives_loop_inv {bound : Terminal → Nat} {body : Nat → Terminal → Res Terminal} (hfuel : 256 ≤ fuel)
    (hbound : ∀ t, Inv g t → bound t < 256) (hbody : ∀ i t, Inv g t → i < bound t → Gives (body i t) (Inv g))
    (i : Nat) (h : Inv g t) : Gives (loop bound body fuel i t) (Inv g) :=
  gives_loop hbound hbody (by omega) (by omega) h

theorem Inv.width_lt (h : Inv g t) : t.width < 256 := h.width ▸ g.width_lt

theorem Inv.height_lt (h : Inv g t) : t.height < 256 := by
  have := h.height
  have := g.height_le
  have := g.depth_lt
  omega

theorem Inv.x_lt (h : Inv g t) : t.x < 256 := Nat.lt_trans h.x g.width_lt

theorem Inv.y_lt (h : Inv g t) : t.y < 256 := Nat.lt_trans (h.height ▸ h.y) h.height_lt

theorem gives_eraseLine (hfuel : 256 ≤ fuel) (h : Inv g t) (line : Nat) : Gives (eraseLine fuel line t) (Inv g) := by
  have hline : (if t.height - 1 < line then t.height - 1 else line) < g.height := by
    have := h.height
    have := g.height_pos
    split <;> omega
  refine (gives_loop_inv hfuel (fun t ht => ht.width_lt) (fun i t ht hi => ?_) _ h).bind
    fun t ht => .ok (inv_drawInvalid ht _ _ _ _)
  exact gives_eraseCell ht (ht.width ▸ hi) hline

theorem gives_eraseToEosLine (hlow : g.Low) (hfuel : 256 ≤ fuel) (h : Inv g t) (y : Nat) :
    Gives (eraseToEosLine fuel y t) (Inv g) :=
  (gives_getNewBufferLine hlow hfuel h).bind fun _ ht =>
    (gives_eraseLine hfuel ht y).bind fun _ ht => .ok (inv_drawInvalid ht _ _ _ _)

theorem gives_eraseToEol (hfuel : 256 ≤ fuel) (h : Inv g t) : Gives (eraseToEol t fuel) (Inv g) := by
  refine (gives_loop_inv hfuel (fun t ht => ht.width_lt) (fun i t ht hi => ?_) _ h).bind
    fun t ht => .ok (inv_drawInvalid ht _ _ _ _)
  exact gives_eraseCell ht (ht.width ▸ hi) ht.y

theorem gives_eraseToBol (hfuel : 256 ≤ fuel) (h : Inv g t) : Gives (eraseToBol t fuel) (Inv g) := by
  refine (gives_loop_inv hfuel (fun t ht => ht.x_lt) (fun i t ht hi => ?_) _ h).bind
    fun t ht => .ok (inv_drawInvalid ht _ _ _ _)
  exact gives_eraseCell ht (Nat.lt_trans hi ht.x) ht.y

theorem gives_eraseToPos (hfuel : 256 ≤ fuel) (h : Inv g t) : Gives (eraseToPos t fuel) (Inv g) :=
  gives_loop_inv hfuel (fun _ ht => ht.y_lt) (fun i _ ht _ => gives_eraseLine hfuel ht i) _ h

theorem gives_eraseToEos (hlow : g.Low) (hfuel : 256 ≤ fuel) (h : Inv g t) : Gives (eraseToEos t fuel) (Inv g) :=
  gives_loop_inv hfuel (fun _ ht => ht.height_lt) (fun i _ ht _ => gives_eraseToEosLine hlow hfuel ht i) _ h

/-! ## The cursor -/

/-- Wherever a move goes, the cursor is back on the screen after it. -/
theorem inv_moveCursor (h : Inv g t) {move : Terminal → Terminal} (hmove : ∀ t, ∃ x y, move t = { t with x, y }) :
    Inv g (moveCursor t move) := by
  have hwrap : Inv g { t with wrapPending := false } := { h with }
  have hd := inv_drawInvalid hwrap t.x t.y 1 1
  obtain ⟨x, y, he⟩ := hmove (drawInvalid { t with wrapPending := false } t.x t.y 1 1)
  have hw := h.width_pos
  have hh := g.height_pos
  unfold moveCursor
  refine inv_drawInvalid ?_ _ _ _ _
  rw [he]
  exact { hd with
    x := by show min x _ < _; rw [hd.width]; omega
    y := by show min y _ < _; rw [hd.height]; omega }

theorem inv_scroll (h : Inv g t) (n : Nat) : Inv g { t with view := n % t.depth } := by
  have hview : n % t.depth < g.depth := h.depth ▸ Nat.mod_lt n (h.depth ▸ Nat.lt_of_lt_of_le g.height_pos g.height_le)
  exact { h with view := hview }

/-- Every operation returns and keeps the invariant. -/
theorem gives_step (hlow : g.Low) (hfuel : 256 ≤ fuel) {op : Op} (hop : op.OnScreen g) (h : Inv g t) :
    Gives (step fuel t op) (Inv g) := by
  cases op with
  | cursorUp len => exact .ok (inv_moveCursor h fun t => ⟨t.x, _, rfl⟩)
  | cursorDown len => exact .ok (inv_moveCursor h fun t => ⟨t.x, _, rfl⟩)
  | cursorRight len => exact .ok (inv_moveCursor h fun t => ⟨_, t.y, rfl⟩)
  | cursorLeft len => exact .ok (inv_moveCursor h fun t => ⟨_, t.y, rfl⟩)
  | cursorPos y x => exact .ok (inv_moveCursor h fun t => ⟨_, _, rfl⟩)
  | cursorSave => exact .ok { h with savedX := h.x, savedY := h.y }
  | cursorRestore => exact .ok { h with x := h.savedX, y := h.savedY }
  | scrollUp lines => exact .ok (inv_scroll h _)
  | scrollDown lines => exact .ok (inv_scroll h _)
  | getNewBufferLine => exact gives_getNewBufferLine hlow hfuel h
  | delTopBufferLine => exact gives_delTopBufferLine hlow hfuel h
  | eraseToEosLine y => exact gives_eraseToEosLine hlow hfuel h _
  | eraseToEol => exact gives_eraseToEol hfuel h
  | eraseToBol => exact gives_eraseToBol hfuel h
  | eraseToPos => exact gives_eraseToPos hfuel h
  | eraseToEos => exact gives_eraseToEos hlow hfuel h
  | eraseLine line => exact gives_eraseLine hfuel h _
  | eraseScreen => exact (gives_eraseToPos hfuel h).bind fun _ ht => gives_eraseToEos hlow hfuel ht
  | setTextAt x y output => exact gives_setTextAt h hop.1 hop.2 output
  | setAttrAt x y attrib => exact gives_setAttrAt h hop.1 hop.2 attrib

/-! ## Painting -/

/-- A text is drawn from its own place only in the first column and in the second line. -/
theorem getIndexByXY_eq_cell {x y : Nat} : getIndexByXY t x y = cell t x y ↔ x = 0 ∨ getIndexByY t y = 1 := by
  rw [getIndexByXY, cell, Nat.mul_add, Nat.add_left_cancel_iff]
  constructor
  · intro h
    rcases Nat.eq_zero_or_pos x with hx | hx
    · exact .inl hx
    · exact .inr (Nat.eq_of_mul_eq_mul_right hx (h.trans (Nat.one_mul x).symm))
  · rintro (rfl | hy)
    · exact Nat.mul_zero _
    · rw [hy, Nat.one_mul]

theorem faithful_of_aligned {d : Draw} (hd : d.index = getIndexByXY t d.x d.y) (h : Aligned t d) : Faithful t d := by
  intro k _
  rw [hd, getIndexByXY_eq_cell.mpr h, getTextAt, cell, cell, Nat.add_assoc]

theorem gives_getTextAt (h : Inv g t) {x y : Nat} (hx : x < g.width) (hy : y < g.height) :
    Gives (getTextAt t x y) fun c => getTextAt t x y = .ok c :=
  ⟨_, if_pos (cell_lt h hx hy), if_pos (cell_lt h hx hy)⟩

theorem gives_getAttrAt (h : Inv g t) {x y : Nat} (hx : x < g.width) (hy : y < g.height) :
    Gives (getAttrAt t x y) fun _ => True := ⟨_, if_pos (lt_attribSize (cell_lt h hx hy)), trivial⟩

theorem gives_runLength (h : Inv g t) {right y : Nat} (hy : y < g.height) (hright : right < g.width) (attrib : BitVec 32)
    {i len : Nat} (hi : i ≤ right + 1) (hlen : len ≤ i) (hfuel : right + 1 < fuel + i) :
    Gives (runLength t attrib right y fuel i len) fun n => len ≤ n ∧ i + n ≤ right + 1 + len := by
  have hw := g.width_lt
  induction fuel generalizing i len with
  | zero => omega
  | succ fuel ih =>
    rw [runLength]
    split
    · rename_i hle
      refine (gives_getAttrAt h (by omega) hy).bind fun a _ => ?_
      split
      · exact .ok ⟨le_rfl, by omega⟩
      · refine (gives_getTextAt h (by omega) hy).bind fun c _ => ?_
        split
        · exact .ok ⟨le_rfl, by omega⟩
        · rw [Nat.mod_eq_of_lt (show i + 1 < 256 by omega), Nat.mod_eq_of_lt (show len + 1 < 256 by omega)]
          exact (ih (by omega) (by omega) (by omega)).imp fun n hn => ⟨by omega, by omega⟩
    · exact .ok ⟨le_rfl, by omega⟩

/-- The texts drawn for a row from `x` on: each comes from the place computed for its start, and they
hold every cell with a text. -/
structure RowDrawn (t : Terminal) (right y x : Nat) (ds : List Draw) : Prop where
  index : ∀ d ∈ ds, d.y = y ∧ d.index = getIndexByXY t d.x d.y
  all : ∀ x', x ≤ x' → x' ≤ right → getTextAt t x' y ≠ .ok 0 → ∃ d ∈ ds, d.x ≤ x' ∧ x' < d.x + d.len

theorem gives_paintRow (h : Inv g t) {right y x : Nat} (hy : y < g.height) (hright : right < g.width) (hpos : 0 < fuel)
    (hfuel : right + 1 < fuel + x) : Gives (paintRow t right y fuel x) (RowDrawn t right y x) := by
  have hw := g.width_lt
  induction fuel generalizing x with
  | zero => omega
  | succ fuel ih =>
    rw [paintRow]
    split
    · rename_i hle
      refine (gives_getTextAt h (by omega) hy).bind fun c hc => ?_
      refine (gives_getAttrAt h (by omega) hy).bind fun a _ => ?_
      have hnext : (x + 1) % 256 = x + 1 := Nat.mod_eq_of_lt (by omega)
      split
      · rename_i hzero
        rw [hnext]
        refine (ih (by omega) (by omega)).imp fun ds hds => ⟨hds.index, fun x' hx hx' ht => ?_⟩
        have hne : x' ≠ x := by
          rintro rfl
          exact ht (hzero ▸ hc)
        exact hds.all x' (by omega) hx' ht
      · rw [hnext]
        refine (gives_runLength h hy hright a (by omega) (by omega) (by omega)).bind fun len hlen => ?_
        rw [Nat.mod_eq_of_lt (show x + len < 256 by omega)]
        refine (ih (by omega) (by omega)).bind fun ds hds => .ok ⟨?_, fun x' hx hx' ht => ?_⟩
        · rw [List.forall_mem_cons]
          exact ⟨⟨rfl, rfl⟩, hds.index⟩
        · by_cases hin : x' < x + len
          · exact ⟨_, List.mem_cons_self, hx, hin⟩
          · obtain ⟨d, hd, hd'⟩ := hds.all x' (by omega) hx' ht
            exact ⟨d, List.mem_cons_of_mem _ hd, hd'⟩
    · exact .ok ⟨by simp, fun x' hx hx' => by omega⟩

/-- The rows drawn from `y` on. -/
structure RowsDrawn (t : Terminal) (left right bottom y : Nat) (ds : List Draw) : Prop where
  index : ∀ d ∈ ds, d.index = getIndexByXY t d.x d.y
  all : ∀ y', y ≤ y' → y' ≤ bottom → ∀ x, left ≤ x → x ≤ right → getTextAt t x y' ≠ .ok 0 →
    ∃ d ∈ ds, d.y = y' ∧ d.x ≤ x ∧ x < d.x + d.len

theorem gives_paintRows (h : Inv g t) {rowFuel left right bottom y : Nat} (hright : right < g.width)
    (hbottom : bottom < g.height) (hrow : 256 ≤ rowFuel) (hpos : 0 < fuel) (hfuel : bottom + 1 < fuel + y) :
    Gives (paintRows t rowFuel left right bottom fuel y) (RowsDrawn t left right bottom y) := by
  have hw := g.width_lt
  have hheight := g.height_le
  have hdepth := g.depth_lt
  induction fuel generalizing y with
  | zero => omega
  | succ fuel ih =>
    rw [paintRows]
    split
    · rename_i hle
      refine (gives_paintRow h (by omega) hright (by omega) (by omega)).bind fun row hrow => ?_
      rw [Nat.mod_eq_of_lt (show y + 1 < 256 by omega)]
      refine (ih (by omega) (by omega)).bind fun ds hds => .ok ⟨?_, fun y' hy hy' x hx hx' ht => ?_⟩
      · rw [List.forall_mem_append]
        exact ⟨fun d hd => (hrow.index d hd).2, hds.index⟩
      · rcases hy.eq_or_lt with rfl | hlt
        · obtain ⟨d, hd, hd'⟩ := hrow.all x hx hx' ht
          exact ⟨d, List.mem_append_left _ hd, (hrow.index d hd).1, hd'⟩
        · obtain ⟨d, hd, hd'⟩ := hds.all y' hlt hy' x hx hx' ht
          exact ⟨d, List.mem_append_right _ hd, hd'⟩
    · exact .ok ⟨by simp, fun y' hy hy' => by omega⟩

theorem lastPos_lt {start len size : Nat} (h : 0 < size) : lastPos start len size < size := by
  unfold lastPos
  omega

theorem paints_of_inv (h : Inv g t) : Paints (Aligned t) t := by
  have hr : lastPos t.invX t.invWidth t.width < g.width := h.width ▸ lastPos_lt (h.width ▸ h.width_pos)
  have hb : lastPos t.invY t.invHeight t.height < g.height := h.height ▸ lastPos_lt (h.height ▸ g.height_pos)
  have hheight := h.height_lt
  have hsize := h.height
  have hpaint : Gives (drawPaint t 256) _ := gives_paintRows h hr hb le_rfl (by decide) (by omega)
  obtain ⟨ds, he, hds⟩ := hpaint
  exact ⟨256, ds, he, fun d hd => faithful_of_aligned (hds.index d hd), hds.all⟩

theorem sound_of_inv (h : Inv g t) : Sound Aligned g t where
  top := Nat.lt_of_lt_of_le h.top (lines_le g)
  bottom := Nat.lt_of_lt_of_le h.bottom (lines_le g)
  view := h.view
  x := h.x
  y := h.y
  readsBack := readsBack_of_inv h
  paints := paints_of_inv h

/-! ## Runs -/

theorem inv_zeroed (hw : 0 < g.width) : Inv g { zeroed with width := g.width, height := g.height, depth := g.depth } where
  width := rfl
  height := rfl
  depth := rfl
  screen := rfl
  bottom := Nat.lt_min.mpr ⟨Nat.succ_pos _, Nat.lt_of_lt_of_le g.height_pos g.height_le⟩
  top := Nat.lt_min.mpr ⟨Nat.succ_pos _, Nat.lt_of_lt_of_le g.height_pos g.height_le⟩
  top_le := .inr le_rfl
  view := Nat.lt_of_lt_of_le g.height_pos g.height_le
  x := hw
  y := g.height_pos
  savedX := hw
  savedY := g.height_pos

theorem gives_run (hw : 0 < g.width) (hlow : g.Low) (hfuel : 256 ≤ fuel) {ops : List Op} (hops : ∀ op ∈ ops, op.OnScreen g) :
    Gives (run fuel g ops) (Inv g) := by
  have hinit : Gives (screenInit fuel g.width g.height g.depth zeroed) (Inv g) :=
    (gives_initBufferLine hlow hfuel (inv_zeroed hw) (inv_zeroed hw).bottom).bind fun t ht => .ok { ht with }
  exact hinit.bind fun t ht => .foldlM (fun op hop t ht => gives_step hlow hfuel (hops op hop) ht) ht

/-- The first line is allocated, if the fuel suffices, and nothing moves. -/
theorem screenInit_cases (hw : 0 < g.width) (fuel : Nat) :
    screenInit fuel g.width g.height g.depth zeroed = .error .fuel ∨
      Gives (screenInit fuel g.width g.height g.depth zeroed) fun t => Inv g t ∧ t.top = 0 ∧ t.bottom = 0 := by
  have hsize : g.width + 0 * g.width ≤ g.depth * g.width := by
    have := Nat.le_mul_of_pos_left g.width (Nat.lt_of_lt_of_le g.height_pos g.height_le)
    omega
  have hloop : initBufferLine fuel 0 { zeroed with width := g.width, height := g.height, depth := g.depth } = .error .fuel ∨
      Gives (initBufferLine fuel 0 { zeroed with width := g.width, height := g.height, depth := g.depth })
        fun t => Inv g t ∧ t.top = 0 ∧ t.bottom = 0 := by
    refine loop_cases (fun i t ht hi => ?_) fuel _ ⟨inv_zeroed hw, rfl, rfl⟩
    exact (gives_fill ht.1 (Nat.lt_of_lt_of_le hi hsize)).imp
      fun t' ht' => ⟨ht'.1, ht'.2.1.trans ht.2.1, ht'.2.2.trans ht.2.2⟩
  rcases hloop with he | hg
  · exact .inl (bind_eq_error he)
  · exact .inr (hg.bind fun t ht => .ok ⟨{ ht.1 with }, ht.2⟩)

/-- The last line that can be allocated is asked for. -/
def lastLine (g : Geometry) : List Op := [.cursorPos (BitVec.ofNat 8 (g.lines - 1)) 1, .getNewBufferLine]

theorem getNewBufferLine_diverges (h : Inv g t) (htop : t.top = 0) (hbottom : t.bottom = 0) (hy : t.y + 2 = g.lines)
    (hlow : ¬ g.Low) (fuel : Nat) : getNewBufferLine t fuel = .error .fuel := by
  have hlines := lines_le g
  have hnext : (t.bottom + (t.y - t.bottom + 1)) % t.depth = t.y + 1 := by
    rw [h.depth, show t.bottom + (t.y - t.bottom + 1) = t.y + 1 by omega, Nat.mod_eq_of_lt (by omega)]
  have hend : t.width + (t.y + 1) * t.width = g.width * g.lines := by rw [h.width, ← hy]; ring
  have hfull : (t.bottom + 1) % t.depth ≠ t.top := by
    rw [h.depth, hbottom, htop, Nat.mod_eq_of_lt (by omega)]
    decide
  have hline : t.y + 1 < g.depth := by omega
  have hinv : Inv g { t with bottom := t.y + 1 } :=
    { h with bottom := by show t.y + 1 < _; omega, top_le := .inr (by show t.top ≤ t.y + 1; omega) }
  rw [getNewBufferLine, screenLines_eq h, if_neg (by omega), if_neg hfull]
  show initBufferLine fuel _ { t with bottom := (t.bottom + (t.y - t.bottom + 1)) % t.depth } = _
  rw [hnext]
  refine initBufferLine_diverges hinv hline ?_ fuel
  show 255 < t.width + (t.y + 1) * t.width
  rw [hend]
  exact Nat.le_of_not_lt hlow

theorem run_lastLine (hlow : ¬ g.Low) (fuel : Nat) : run fuel g (lastLine g) = .error .fuel := by
  have hw : 0 < g.width := by
    by_contra hz
    apply hlow
    rw [Geometry.Low, Nat.eq_zero_of_not_pos hz, Nat.zero_mul]
    decide
  rcases screenInit_cases hw fuel with he | ⟨t, he, ht, htop, hbottom⟩
  · exact bind_eq_error he
  · have hlines : 2 ≤ g.lines := by
      by_contra hlt
      have hle := Nat.mul_le_mul_left g.width (show g.lines ≤ 1 by omega)
      have := g.width_lt
      unfold Geometry.Low at hlow
      omega
    have hmove : Inv g (cursorPos t (BitVec.ofNat 8 (g.lines - 1)).toNat 1) := inv_moveCursor ht fun t => ⟨_, _, rfl⟩
    have hy : (cursorPos t (BitVec.ofNat 8 (g.lines - 1)).toNat 1).y + 2 = g.lines := by
      have := g.depth_lt
      have := lines_le g
      have : g.lines ≤ g.height + 1 := Nat.min_le_left _ _
      simp only [cursorPos, moveCursor, drawInvalid_y, screenRecalc, drawInvalid_height, ht.height, sub8, BitVec.toNat_ofNat]
      omega
    have hstep : run fuel g (lastLine g) = getNewBufferLine (cursorPos t (BitVec.ofNat 8 (g.lines - 1)).toNat 1) fuel := by
      rw [run, he]
      exact bind_pure (m := Res) _
    rw [hstep]
    apply getNewBufferLine_diverges hmove _ _ hy hlow
    · simp [cursorPos, moveCursor, screenRecalc, htop]
    · simp [cursorPos, moveCursor, screenRecalc, hbottom]

theorem sound_iff_low (g : Geometry) :
    (∀ ops : List Op, (∀ op ∈ ops, op.OnScreen g) → ∃ fuel t, run fuel g ops = .ok t ∧ Sound Aligned g t) ↔
      0 < g.width ∧ g.Low := by
  constructor
  · intro h
    obtain ⟨fuel, t, -, ht⟩ := h [] (by simp)
    refine ⟨Nat.zero_lt_of_lt ht.x, ?_⟩
    by_contra hlow
    obtain ⟨fuel, t, he, -⟩ := h (lastLine g) (by simp [lastLine, Op.OnScreen])
    rw [run_lastLine hlow] at he
    cases he
  · rintro ⟨hw, hlow⟩ ops hops
    obtain ⟨t, he, ht⟩ := gives_run hw hlow le_rfl hops
    exact ⟨256, t, he, sound_of_inv ht⟩

/-- Ten columns and five lines. -/
def small : Geometry := ⟨10, 5, 5, by decide, by decide, by decide, by decide⟩

theorem sound_small : small.Low ∧ ∃ fuel t,
    run fuel small [.setTextAt 9 4 0x41, .cursorPos 200 7, .eraseScreen, .scrollUp 3] = .ok t ∧ Sound Aligned small t :=
  ⟨by decide, (sound_iff_low small).mpr ⟨by decide, by decide⟩ _ (by simp [Op.OnScreen, small])⟩

/-- The defaults of the source. -/
def default80 : Geometry := ⟨80, 24, 24, by decide, by decide, by decide, by decide⟩

/-- Two columns and one line. -/
def tiny : Geometry := ⟨2, 1, 1, by decide, by decide, by decide, by decide⟩

/-- The 24th line of the default terminal is filled for ever, a text in the second of two columns is
drawn from the first, and a write behind the screen leaves the buffer. -/
theorem screen_fails : (∀ fuel, run fuel default80 [.cursorPos 23 1, .getNewBufferLine] = .error .fuel) ∧
    ((run 256 tiny [.setTextAt 1 0 0x41, .setAttrAt 1 0 0, .cursorRight 1]).bind fun t =>
      (drawPaint t 256).bind fun ds => .ok (ds.map fun d => ((d.x, d.y), t.output d.index, (getTextAt t d.x d.y).toOption))) =
      .ok [((0, 0), 0x20, some 0x20), ((1, 0), 0x20, some 0x41)] ∧
    (run 256 tiny [.setTextAt 0 9 0x41]).toOption.isNone := by
  refine ⟨run_lastLine (g := default80) (by decide), by decide +kernel, by decide +kernel⟩

end Sdfirm.Term
