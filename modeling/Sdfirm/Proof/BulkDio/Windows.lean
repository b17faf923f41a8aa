import Sdfirm.Spec.Mtd

/-!
# The windows of a bulk transfer

The loops count windows of the inner side where they should count bytes. So a
window of the outer side has as many windows of the inner side as it should have
bytes: it is right if each of those has one byte, and otherwise it gets too many
bytes or is followed by empty windows.
-/

namespace Sdfirm.BulkDio

variable {input : Nat → Byte} {side outer inner : Side} {flush outerFlush innerFlush rflush wflush size iter left n : Nat} {c : Chan}

/-! ## Calls -/

theorem call_log_self (c : Chan) (side : Side) (x : Call) : (c.call side x).log side = c.log side ++ [x] := Function.update_self ..

theorem call_log_of_ne {side' : Side} (h : side' ≠ side) (x : Call) : (c.call side x).log side' = c.log side' := Function.update_of_ne h ..

theorem moveByte_log (input : Nat → Byte) (c : Chan) (side : Side) : (moveByte input c).log side = c.log side ++ [.byte] := by
  cases side <;> rfl

theorem moveBytes_log (input : Nat → Byte) (n : Nat) (c : Chan) (side : Side) :
    (moveBytes input n c).log side = c.log side ++ List.replicate n .byte := by
  induction n generalizing c with
  | zero => exact (List.append_nil _).symm
  | succ n ih =>
    rw [moveBytes, ih, moveByte_log, List.append_assoc]
    rfl

theorem moveBytes_reads (input : Nat → Byte) (n : Nat) (c : Chan) : (moveBytes input n c).reads = c.reads + n := by
  induction n generalizing c with
  | zero => rfl
  | succ n ih =>
    rw [moveBytes, ih]
    show c.reads + 1 + n = c.reads + (n + 1)
    omega

/-- The bytes of the reader have been written in order. -/
def InOrder (input : Nat → Byte) (c : Chan) : Prop := c.written = (List.range c.reads).map input

theorem InOrder.moveBytes (h : InOrder input c) (n : Nat) : InOrder input (moveBytes input n c) := by
  induction n generalizing c with
  | zero => exact h
  | succ n ih =>
    refine ih ?_
    show c.written ++ [input c.reads] = (List.range (c.reads + 1)).map input
    rw [h, List.range_succ, List.map_append]
    rfl

/-! ## Windows of the inner side -/

theorem Windows.append {flush a b d : Nat} {l l' : List Call} (h : Windows flush a l b) (h' : Windows flush b l' d) :
    Windows flush a (l ++ l') d := by
  induction h with
  | done offset => exact h'
  | window pos le _ ih =>
    rw [List.cons_append, List.append_assoc, List.cons_append]
    exact .window pos le (ih h')

/-- One window -/
theorem Windows.single {flush offset n : Nat} (pos : 0 < n) (le : n ≤ flush) :
    Windows flush offset (.opened offset :: (List.replicate n .byte ++ [.closed n])) (offset + n) := .window pos le (.done _)

/-- What the loop inside a window leaves: the bytes from `iter` to `stop` have been moved, and the inner side has these calls. -/
structure Inner (input : Nat → Byte) (side : Side) (iter : Nat) (c : Chan) (calls : List Call) (stop : Nat) (c' : Chan) : Prop where
  le : iter ≤ stop
  reads : c'.reads = c.reads + (stop - iter)
  written : InOrder input c → InOrder input c'
  inner : c'.log side = c.log side ++ calls
  outer : ∀ side', side' ≠ side → c'.log side' = c.log side' ++ List.replicate (stop - iter) .byte

theorem Inner.refl (iter : Nat) (c : Chan) : Inner input side iter c [] iter c where
  le := Nat.le_refl iter
  reads := by rw [Nat.sub_self, Nat.add_zero]
  written := id
  inner := (List.append_nil _).symm
  outer _ _ := by rw [Nat.sub_self, List.replicate_zero, List.append_nil]

/-- The calls of one window -/
def calls (iter n : Nat) : List Call := .opened iter :: (List.replicate n .byte ++ [.closed n])

theorem Inner.step {calls' : List Call} {stop : Nat} {c' : Chan}
    (h : Inner input side (iter + n) ((moveBytes input n (c.call side (.opened iter))).call side (.closed n)) calls' stop c') :
    Inner input side iter c (calls iter n ++ calls') stop c' where
  le := Nat.le_trans (Nat.le_add_right iter n) h.le
  reads := by
    have hle := h.le
    have hreads := h.reads
    rw [Chan.call, moveBytes_reads] at hreads
    rw [hreads]
    show c.reads + n + _ = _
    omega
  written hc := h.written (InOrder.moveBytes (c := c.call side (.opened iter)) hc n)
  inner := by
    rw [h.inner, call_log_self, moveBytes_log, call_log_self, calls]
    simp only [List.append_assoc, List.cons_append, List.nil_append]
  outer side' hne := by
    have hle := h.le
    rw [h.outer side' hne, call_log_of_ne hne, moveBytes_log, call_log_of_ne hne, List.append_assoc, List.replicate_append_replicate]
    congr 2
    omega

/-- The number of bytes of a window fits into a `bulk_size_t`. -/
theorem chunk_eq (hflush : flush < 2 ^ 16) (k : Nat) : min flush k % 2 ^ 16 = min flush k :=
  Nat.mod_eq_of_lt (Nat.lt_of_le_of_lt (Nat.min_le_left flush k) hflush)

/-- The calls of the windows that the loop makes -/
def innerCalls (flush size : Nat) : Nat → Nat → List Call
  | 0, _ => []
  | left + 1, iter => calls iter (min flush (size - iter)) ++ innerCalls flush size left (iter + min flush (size - iter))

/-- The offset after these windows -/
def innerStop (flush size : Nat) : Nat → Nat → Nat
  | 0, iter => iter
  | left + 1, iter => innerStop flush size left (iter + min flush (size - iter))

theorem innerLoop_inner (hflush : flush < 2 ^ 16) (input : Nat → Byte) (side : Side) (size left iter : Nat) (c : Chan) :
    (innerLoop input side flush size left iter c).1 = innerStop flush size left iter ∧
      Inner input side iter c (innerCalls flush size left iter) (innerStop flush size left iter)
        (innerLoop input side flush size left iter c).2 := by
  induction left generalizing iter c with
  | zero => exact ⟨rfl, Inner.refl iter c⟩
  | succ left ih =>
    rw [innerLoop, chunk_eq hflush, innerCalls, innerStop]
    obtain ⟨hstop, hinner⟩ := ih (iter + min flush (size - iter))
      ((moveBytes input (min flush (size - iter)) (c.call side (.opened iter))).call side (.closed (min flush (size - iter))))
    exact ⟨hstop, hinner.step⟩

theorem innerStop_le (left : Nat) (h : iter ≤ size) : innerStop flush size left iter ≤ size := by
  induction left generalizing iter with
  | zero => exact h
  | succ left ih => exact ih (by omega)

theorem le_innerStop (left iter : Nat) : iter ≤ innerStop flush size left iter := by
  induction left generalizing iter with
  | zero => exact Nat.le_refl iter
  | succ left ih => exact Nat.le_trans (Nat.le_add_right ..) (ih _)

theorem lt_innerStop (hflush : 0 < flush) (hleft : 0 < left) (h : iter < size) : iter < innerStop flush size left iter := by
  obtain ⟨left, rfl⟩ := Nat.exists_eq_add_one_of_ne_zero (Nat.ne_of_gt hleft)
  exact Nat.lt_of_lt_of_le (by omega : iter < iter + min flush (size - iter)) (le_innerStop left _)

theorem min_le_innerStop (hflush : 0 < flush) (h : iter ≤ size) : min size (iter + left) ≤ innerStop flush size left iter := by
  induction left generalizing iter with
  | zero => exact Nat.min_le_right ..
  | succ left ih =>
    have hnext := @ih (iter + min flush (size - iter)) (by omega)
    rw [innerStop]
    omega

/-- Each window has one byte. -/
theorem innerStop_of_one (hone : ∀ i < size, min flush (size - i) = 1) (h : iter + left ≤ size) :
    innerStop flush size left iter = iter + left := by
  induction left generalizing iter with
  | zero => rfl
  | succ left ih =>
    rw [innerStop, hone iter (by omega), ih (by omega)]
    omega

theorem innerCalls_of_one (hflush : 0 < flush) (hone : ∀ i < size, min flush (size - i) = 1) (h : iter + left ≤ size) :
    Windows flush iter (innerCalls flush size left iter) (iter + left) := by
  induction left generalizing iter with
  | zero => exact .done iter
  | succ left ih =>
    rw [innerCalls, hone iter (by omega), Nat.add_comm left 1, ← Nat.add_assoc]
    exact (Windows.single Nat.one_pos hflush).append (ih (by omega))

/-! ## Windows of the outer side -/

theorem window_spec (houter : outerFlush < 2 ^ 16) (hinner : innerFlush < 2 ^ 16) (hne : outer ≠ inner) :
    let chunk := min outerFlush (size - iter)
    let stop := innerStop innerFlush size chunk iter
    let r := window input outer inner outerFlush innerFlush size iter c
    r.1 = stop ∧ r.2.reads = c.reads + (stop - iter) ∧ (InOrder input c → InOrder input r.2) ∧
      r.2.log outer = c.log outer ++ (.opened iter :: (List.replicate (stop - iter) .byte ++ [.closed chunk])) ∧
      r.2.log inner = c.log inner ++ innerCalls innerFlush size chunk iter := by
  intro chunk stop r
  obtain ⟨hstop, hloop⟩ := innerLoop_inner hinner input inner size chunk iter (c.call outer (.opened iter))
  have hr : r = ((innerLoop input inner innerFlush size chunk iter (c.call outer (.opened iter))).1,
      (innerLoop input inner innerFlush size chunk iter (c.call outer (.opened iter))).2.call outer (.closed chunk)) := by
    show window input outer inner outerFlush innerFlush size iter c = _
    rw [window, chunk_eq houter]
  rw [hr]
  refine ⟨hstop, hloop.reads, hloop.written, ?_, ?_⟩
  · rw [call_log_self, hloop.outer outer hne, call_log_self]
    simp only [List.append_assoc, List.cons_append, List.nil_append]
    rfl
  · rw [call_log_of_ne hne.symm, hloop.inner, call_log_of_ne hne.symm]

/-- What each round keeps holds after the transfer, which ends. -/
theorem transferLoop_rule (I : Nat → Chan → Prop)
    (hround : ∀ iter c, iter < size → I iter c →
      iter < (round input rflush wflush size iter c).1 ∧ (round input rflush wflush size iter c).1 ≤ size ∧
        I (round input rflush wflush size iter c).1 (round input rflush wflush size iter c).2)
    (hle : iter ≤ size) (h : I iter c) :
    ∃ c', (∀ steps, size - iter < steps → transferLoop input rflush wflush size steps iter c = some c') ∧ I size c' := by
  -- The bytes that are left get fewer.
  induction hleft : size - iter using Nat.strongRecOn generalizing iter c with
  | ind left ih =>
    obtain rfl | hlt := Nat.eq_or_lt_of_le hle
    · refine ⟨c, fun steps hsteps => ?_, h⟩
      obtain ⟨steps, rfl⟩ := Nat.exists_eq_add_one_of_ne_zero (by omega : steps ≠ 0)
      rw [transferLoop, if_pos (Nat.sub_self iter)]
    · obtain ⟨hiter, hsize, hI⟩ := hround iter c hlt h
      obtain ⟨c', hloop, hc'⟩ := ih (size - (round input rflush wflush size iter c).1) (by omega) hsize hI rfl
      refine ⟨c', fun steps hsteps => ?_, hc'⟩
      obtain ⟨steps, rfl⟩ := Nat.exists_eq_add_one_of_ne_zero (by omega : steps ≠ 0)
      rw [transferLoop, if_neg (by omega)]
      exact hloop steps (by omega)

/-- A window moves the transfer on. -/
theorem window_iter (houter : outerFlush < 2 ^ 16) (hinner : innerFlush < 2 ^ 16) (hne : outer ≠ inner) (hpos : 0 < outerFlush)
    (hpos' : 0 < innerFlush) (h : iter < size) :
    iter < (window input outer inner outerFlush innerFlush size iter c).1 ∧
      (window input outer inner outerFlush innerFlush size iter c).1 ≤ size := by
  obtain ⟨hstop, -⟩ := @window_spec input outer inner outerFlush innerFlush size iter c houter hinner hne
  rw [hstop]
  exact ⟨lt_innerStop hpos' (by omega) h, innerStop_le _ (Nat.le_of_lt h)⟩

/-- A window whose inner windows have one byte each -/
theorem window_of_one (houter : outerFlush < 2 ^ 16) (hinner : innerFlush < 2 ^ 16) (hne : outer ≠ inner) (hpos : 0 < outerFlush)
    (hpos' : 0 < innerFlush) (hone : ∀ i < size, min innerFlush (size - i) = 1) (h : iter < size) (hreads : c.reads = iter)
    (hwritten : InOrder input c) (hlog : Windows outerFlush 0 (c.log outer) iter) (hlog' : Windows innerFlush 0 (c.log inner) iter) :
    let r := window input outer inner outerFlush innerFlush size iter c
    r.2.reads = r.1 ∧ InOrder input r.2 ∧ Windows outerFlush 0 (r.2.log outer) r.1 ∧ Windows innerFlush 0 (r.2.log inner) r.1 := by
  intro r
  obtain ⟨hstop, hreads', hwritten', houterLog, hinnerLog⟩ :=
    @window_spec input outer inner outerFlush innerFlush size iter c houter hinner hne
  have hle : iter + min outerFlush (size - iter) ≤ size := by omega
  have heq := innerStop_of_one hone hle
  rw [heq] at hstop hreads' houterLog
  rw [Nat.add_sub_cancel_left] at hreads' houterLog
  refine ⟨?_, hwritten' hwritten, ?_, ?_⟩
  · rw [hstop, hreads', hreads]
  · rw [hstop, houterLog]
    exact hlog.append (.single (by omega) (Nat.min_le_left ..))
  · rw [hstop, hinnerLog]
    exact hlog'.append (innerCalls_of_one hpos' hone hle)

/-! ## Windows that are wrong -/

theorem replicate_byte_inj {m j k : Nat} {rest rest' : List Call}
    (h : List.replicate n Call.byte ++ Call.closed j :: rest = List.replicate m Call.byte ++ Call.closed k :: rest') :
    n = m ∧ j = k ∧ rest = rest' := by
  induction n generalizing m with
  | zero =>
    cases m with
    | zero =>
      obtain ⟨hclosed, hrest⟩ := List.cons.inj h
      exact ⟨rfl, Call.closed.inj hclosed, hrest⟩
    | succ m => exact absurd (List.cons.inj h).1 nofun
  | succ n ih =>
    cases m with
    | zero => exact absurd (List.cons.inj h).1 nofun
    | succ m =>
      obtain ⟨hnm, hclosed, hrest⟩ := ih (List.cons.inj h).2
      exact ⟨congrArg (· + 1) hnm, hclosed, hrest⟩

/-- The first window of calls that are windows -/
theorem Windows.first {offset m k stop : Nat} {rest : List Call}
    (h : Windows flush offset (.opened iter :: (List.replicate m .byte ++ .closed k :: rest)) stop) :
    m = k ∧ 0 < m ∧ Windows flush (offset + m) rest stop := by
  generalize hcalls : Call.opened iter :: (List.replicate m .byte ++ .closed k :: rest) = l at h
  cases h with
  | done => exact absurd hcalls (List.cons_ne_nil _ _)
  | window pos le windows =>
    obtain ⟨hm, hk, hrest⟩ := replicate_byte_inj (List.cons.inj hcalls).2
    subst hm hk hrest
    exact ⟨rfl, pos, windows⟩

/-- Whatever follows, the calls are not windows. -/
def Bad (flush : Nat) (l : List Call) : Prop := ∀ rest stop, ¬Windows flush 0 (l ++ rest) stop

theorem Bad.append {l : List Call} (h : Bad flush l) (l' : List Call) : Bad flush (l ++ l') := by
  intro rest stop hwindows
  rw [List.append_assoc] at hwindows
  exact h _ _ hwindows

/-- None of the windows of the inner side is empty, so they end in the stream. -/
theorem innerCalls_le {offset stop : Nat} {rest : List Call} (h : Windows flush offset (innerCalls flush size left iter ++ rest) stop)
    (hle : iter ≤ size) : iter + left ≤ size := by
  induction left generalizing iter offset with
  | zero => exact hle
  | succ left ih =>
    rw [innerCalls, calls, List.append_assoc, List.cons_append, List.append_assoc, List.singleton_append] at h
    obtain ⟨-, hpos, hrest⟩ := h.first
    have hnext := ih hrest (by omega)
    omega

/-- The first window is wrong on one side if both flush sizes are greater than 1 and there are two bytes. -/
theorem window_bad (houter : outerFlush < 2 ^ 16) (hinner : innerFlush < 2 ^ 16) (hne : outer ≠ inner) (hle : innerFlush ≤ outerFlush)
    (htwo : 2 ≤ innerFlush) (hsize : 2 ≤ size) :
    Bad outerFlush ((window input outer inner outerFlush innerFlush size 0 Chan.init).2.log outer) ∨
      Bad innerFlush ((window input outer inner outerFlush innerFlush size 0 Chan.init).2.log inner) := by
  obtain ⟨-, -, -, houterLog, hinnerLog⟩ := @window_spec input outer inner outerFlush innerFlush size 0 Chan.init houter hinner hne
  rw [houterLog, hinnerLog]
  show Bad outerFlush (_ :: _) ∨ Bad innerFlush (innerCalls innerFlush size _ 0)
  obtain hlt | hge := Nat.lt_or_ge outerFlush size
  · -- The window of the outer side gets more bytes than it is closed with.
    left
    intro rest stop hwindows
    rw [List.cons_append, List.append_assoc, List.singleton_append] at hwindows
    obtain ⟨hbytes, -⟩ := hwindows.first
    obtain ⟨left, hleft⟩ := Nat.exists_eq_add_one_of_ne_zero (by omega : min outerFlush (size - 0) ≠ 0)
    rw [hleft, innerStop] at hbytes
    have hstop := @min_le_innerStop innerFlush size (0 + min innerFlush (size - 0)) left (by omega) (by omega)
    omega
  · -- There are as many windows of the inner side as bytes, and the first has more than one byte.
    right
    intro rest stop hwindows
    rw [show min outerFlush (size - 0) = size - 1 + 1 by omega, innerCalls, calls, List.append_assoc, List.cons_append,
      List.append_assoc, List.singleton_append] at hwindows
    obtain ⟨-, -, hrest⟩ := hwindows.first
    have hle := innerCalls_le hrest (by omega)
    omega

/-! ## Transfers -/

/-- Calls of a side are only added. -/
theorem window_log (houter : outerFlush < 2 ^ 16) (hinner : innerFlush < 2 ^ 16) (hne : outer ≠ inner) (hside : side = outer ∨ side = inner) :
    ∃ l, (window input outer inner outerFlush innerFlush size iter c).2.log side = c.log side ++ l := by
  obtain ⟨-, -, -, houterLog, hinnerLog⟩ := @window_spec input outer inner outerFlush innerFlush size iter c houter hinner hne
  obtain rfl | rfl := hside
  · exact ⟨_, houterLog⟩
  · exact ⟨_, hinnerLog⟩

/-- A transfer of which the windows with the smaller flush size have one byte each -/
theorem transferLoop_of_one (hr : 0 < rflush) (hw : 0 < wflush) (hr' : rflush < 2 ^ 16) (hw' : wflush < 2 ^ 16)
    (hone : ∀ i < size, min (min rflush wflush) (size - i) = 1) :
    ∃ c, (∀ steps, size < steps → bulkTransferSync steps input rflush wflush size = some c) ∧ Transferred input rflush wflush size c := by
  have hwr : Side.writer ≠ .reader := nofun
  obtain ⟨c, hloop, hreads, hwritten, hreader, hwriter⟩ := @transferLoop_rule input rflush wflush size 0 Chan.init
    (fun iter c => c.reads = iter ∧ InOrder input c ∧ Windows rflush 0 (c.log .reader) iter ∧ Windows wflush 0 (c.log .writer) iter)
    (by
      intro iter c hlt ⟨hreads, hwritten, hreader, hwriter⟩
      rw [round]
      split
      · rename_i hflush
        rw [Nat.min_eq_left (Nat.le_of_lt hflush)] at hone
        obtain ⟨hiter, hle⟩ := @window_iter input .writer .reader wflush rflush size iter c hw' hr' nofun hw hr hlt
        obtain ⟨hreads', hwritten', hwriter', hreader'⟩ :=
          window_of_one hw' hr' hwr hw hr hone hlt hreads hwritten hwriter hreader
        exact ⟨hiter, hle, hreads', hwritten', hreader', hwriter'⟩
      · rename_i hflush
        rw [Nat.min_eq_right (Nat.not_lt.mp hflush)] at hone
        obtain ⟨hiter, hle⟩ := @window_iter input .reader .writer rflush wflush size iter c hr' hw' nofun hr hw hlt
        obtain ⟨hreads', hwritten', hreader', hwriter'⟩ :=
          window_of_one hr' hw' hwr.symm hr hw hone hlt hreads hwritten hreader hwriter
        exact ⟨hiter, hle, hreads', hwritten', hreader', hwriter'⟩)
    (Nat.zero_le size) ⟨rfl, rfl, .done 0, .done 0⟩
  refine ⟨c, hloop, ?_, hreader, hwriter⟩
  rw [hwritten, hreads]

/-- A transfer of which the first window is wrong -/
theorem transferLoop_bad (hr : 2 ≤ rflush) (hw : 2 ≤ wflush) (hr' : rflush < 2 ^ 16) (hw' : wflush < 2 ^ 16) (hsize : 2 ≤ size) :
    ∃ c, (∀ steps, size < steps → bulkTransferSync steps input rflush wflush size = some c) ∧
      (Bad rflush (c.log .reader) ∨ Bad wflush (c.log .writer)) := by
  have hwr : Side.writer ≠ .reader := nofun
  obtain ⟨c, hloop, hbad⟩ := @transferLoop_rule input rflush wflush size 0 Chan.init
    (fun iter c => iter = 0 ∧ c = Chan.init ∨ Bad rflush (c.log .reader) ∨ Bad wflush (c.log .writer))
    (by
      intro iter c hlt hcases
      rw [round]
      split
      · rename_i hflush
        obtain ⟨hiter, hle⟩ := @window_iter input .writer .reader wflush rflush size iter c hw' hr' nofun (by omega) (by omega) hlt
        refine ⟨hiter, hle, .inr ?_⟩
        obtain ⟨rfl, rfl⟩ | hreader | hwriter := hcases
        · exact (window_bad hw' hr' hwr (Nat.le_of_lt hflush) hr hsize).symm
        · obtain ⟨l, hl⟩ := @window_log input .reader .writer .reader wflush rflush size iter c hw' hr' nofun (.inr rfl)
          exact .inl (hl ▸ hreader.append l)
        · obtain ⟨l, hl⟩ := @window_log input .writer .writer .reader wflush rflush size iter c hw' hr' nofun (.inl rfl)
          exact .inr (hl ▸ hwriter.append l)
      · rename_i hflush
        obtain ⟨hiter, hle⟩ := @window_iter input .reader .writer rflush wflush size iter c hr' hw' nofun (by omega) (by omega) hlt
        refine ⟨hiter, hle, .inr ?_⟩
        obtain ⟨rfl, rfl⟩ | hreader | hwriter := hcases
        · exact window_bad hr' hw' hwr.symm (Nat.not_lt.mp hflush) hw hsize
        · obtain ⟨l, hl⟩ := @window_log input .reader .reader .writer rflush wflush size iter c hr' hw' nofun (.inl rfl)
          exact .inl (hl ▸ hreader.append l)
        · obtain ⟨l, hl⟩ := @window_log input .writer .reader .writer rflush wflush size iter c hr' hw' nofun (.inr rfl)
          exact .inr (hl ▸ hwriter.append l))
    (Nat.zero_le size) (.inl ⟨rfl, rfl⟩)
  refine ⟨c, hloop, hbad.resolve_left ?_⟩
  exact fun h => absurd h.1 (by omega)

/-- The transfer is right if and only if one of the flush sizes is 1 or there is at most one byte. -/
theorem transferred_iff (input : Nat → Byte) (size : Nat) {rflush wflush : Nat} (hr : 1 ≤ rflush) (hw : 1 ≤ wflush) (hr' : rflush < 2 ^ 16)
    (hw' : wflush < 2 ^ 16) :
    ∃ c, (∀ steps, size < steps → bulkTransferSync steps input rflush wflush size = some c) ∧
      (Transferred input rflush wflush size c ↔ rflush = 1 ∨ wflush = 1 ∨ size ≤ 1) := by
  by_cases hcond : rflush = 1 ∨ wflush = 1 ∨ size ≤ 1
  · obtain ⟨c, hloop, htransferred⟩ := @transferLoop_of_one input rflush wflush size hr hw hr' hw' fun i hi => by omega
    exact ⟨c, hloop, fun _ => hcond, fun _ => htransferred⟩
  · obtain ⟨c, hloop, hbad⟩ := @transferLoop_bad input rflush wflush size (by omega) (by omega) hr' hw' (by omega)
    refine ⟨c, hloop, fun h => ?_, fun h => absurd h hcond⟩
    obtain hreader | hwriter := hbad
    · exact absurd h.reader (by simpa using hreader [] size)
    · exact absurd h.writer (by simpa using hwriter [] size)

/-- Two bytes with flush sizes of two: the window of the writer is followed by an empty one. -/
theorem not_transferred :
    ∃ c, bulkTransferSync 3 (fun _ => 0) 2 2 2 = some c ∧ ¬Transferred (fun _ => 0) 2 2 2 c := by
  obtain ⟨c, hloop, hbad⟩ := @transferLoop_bad (fun _ => 0) 2 2 2 (by omega) (by omega) (by omega) (by omega) (by omega)
  refine ⟨c, hloop 3 (by omega), fun h => ?_⟩
  obtain hreader | hwriter := hbad
  · exact absurd h.reader (by simpa using hreader [] 2)
  · exact absurd h.writer (by simpa using hwriter [] 2)

/-- Three bytes that are read one at a time and written two at a time -/
theorem transferred_three :
    ∃ c, (∀ steps, 3 < steps → bulkTransferSync steps (fun i => BitVec.ofNat 8 i) 1 2 3 = some c) ∧
      (Transferred (fun i => BitVec.ofNat 8 i) 1 2 3 c ↔ 1 = 1 ∨ 2 = 1 ∨ 3 ≤ 1) :=
  transferred_iff (fun i => BitVec.ofNat 8 i) 3 (by decide) (by decide) (by decide) (by decide)

end Sdfirm.BulkDio
