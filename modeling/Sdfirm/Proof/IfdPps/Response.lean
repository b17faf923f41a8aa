import Sdfirm.Spec.IfdAtr

/-!
# The PPS response

`ppsXchg_ok_iff` says which responses `ifd_ppsr_parse` takes, whatever is in
`pps_req`. With the request that `__ifd_pps_build` makes it is `Passes`
(`ppsXchg_ppsBuild_iff`), which is a successful exchange as long as no
parameter is announced that was not requested (`successful_iff`).
-/

namespace Sdfirm.IfdPps

open IfdAtr

variable {s s' : State} {resp : List Byte}

/-! ## What PPS0 announces -/

theorem exists_iff (b : Byte) {n : Nat} (hn : n < 3) : b &&& ifdPpsExists n ≠ 0 ↔ b.getLsbD (4 + n) = true := by
  interval_cases n <;> revert b <;> decide

theorem mem_fields {b : Byte} {i : Nat} : i ∈ fields b ↔ i < 3 ∧ b.getLsbD (4 + i) = true := by
  simp only [fields, List.mem_filter, List.mem_cons, List.not_mem_nil, or_false]
  apply and_congr_left
  intro _
  omega

theorem ifdPpsBytes_eq (b : Byte) : ifdPpsBytes b = (fields b).length := by
  revert b; decide

theorem run_le (b : Byte) : run b ≤ (fields b).length := by
  revert b; decide

/-- When nothing but PPS1 is announced the run is all of it. -/
theorem fields_eq {b : Byte} (h : ∀ i ∈ fields b, i = 0) : fields b = List.range (run b) := by
  revert b; decide

/-! ## The parser -/

theorem foldl_take_succ {l : List Byte} {n : Nat} (h : n < l.length) (x : Byte) :
    (l.take (n + 1)).foldl (· ^^^ ·) x = (l.take n).foldl (· ^^^ ·) x ^^^ l.getD n 0 := by
  rw [List.take_add_one, List.foldl_append, List.getElem?_eq_getElem h, List.getD_eq_getElem _ _ h]
  rfl

theorem foldl_take_two_add {n : Nat} (h : 2 + n ≤ resp.length) :
    (resp.take (2 + n)).foldl (· ^^^ ·) 0 =
      (List.range n).foldl (fun p i => p ^^^ resp.getD (2 + i) 0) (resp.getD 0 0 ^^^ resp.getD 1 0) := by
  induction n with
  | zero =>
    show (resp.take (0 + 1 + 1)).foldl (· ^^^ ·) 0 = resp.getD 0 0 ^^^ resp.getD 1 0
    rw [foldl_take_succ (by omega), foldl_take_succ (by omega)]
    simp
  | succ n ih =>
    rw [← Nat.add_assoc, foldl_take_succ (by omega), ih (by omega), List.range_succ, List.foldl_append]
    rfl

section

variable {buf req : Nat → Byte} {b pck fd : Byte}

theorem ppsrLoop_stop {nppsr : Nat} (h : ¬ b &&& ifdPpsExists (nppsr - 2) ≠ 0) (n : Nat) :
    ppsrLoop buf req b n nppsr pck fd = some (nppsr, pck, fd) := by
  induction n with
  | zero => rfl
  | succ n ih => rw [ppsrLoop, if_neg h, ih]

theorem ppsrLoop_step {nppsr n : Nat} (h : b &&& ifdPpsExists (nppsr - 2) ≠ 0) :
    ppsrLoop buf req b (n + 1) nppsr pck fd =
      if buf nppsr = req (nppsr - 1) then
        ppsrLoop buf req b n (nppsr + 1) (pck ^^^ buf nppsr) (if nppsr = 2 then buf nppsr else fd)
      else none := by
  rw [ppsrLoop, if_pos h, ite_not]

end

/-- The loop walks over the run. -/
theorem ppsrLoop_eq (buf req : Nat → Byte) (b pck fd : Byte) :
    ppsrLoop buf req b 3 2 pck fd =
      if ∀ i < run b, buf (2 + i) = req (1 + i) then
        some (2 + run b, (List.range (run b)).foldl (fun p i => p ^^^ buf (2 + i)) pck, if 0 < run b then buf 2 else fd)
      else none := by
  have h0 : b &&& ifdPpsExists (2 - 2) ≠ 0 ↔ _ := exists_iff b (by decide)
  have h1 : b &&& ifdPpsExists (3 - 2) ≠ 0 ↔ _ := exists_iff b (by decide)
  have h2 : b &&& ifdPpsExists (4 - 2) ≠ 0 ↔ _ := exists_iff b (by decide)
  by_cases b4 : b.getLsbD 4
  · rw [ppsrLoop_step (h0.mpr b4)]
    by_cases b5 : b.getLsbD 5
    · rw [ppsrLoop_step (h1.mpr b5)]
      by_cases b6 : b.getLsbD 6
      · have hrun : run b = 3 := by simp only [run, if_pos b4, if_pos b5, if_pos b6]
        rw [ppsrLoop_step (h2.mpr b6), hrun]
        simp only [Nat.forall_lt_succ_right, ite_and]
        simp [ppsrLoop, List.range_succ]
      · have hrun : run b = 2 := by simp only [run, if_pos b4, if_pos b5, if_neg b6]
        rw [ppsrLoop_stop (mt h2.mp b6), hrun]
        simp only [Nat.forall_lt_succ_right, ite_and]
        simp [List.range_succ]
    · have hrun : run b = 1 := by simp only [run, if_pos b4, if_neg b5]
      rw [ppsrLoop_stop (mt h1.mp b5), hrun]
      simp [List.range_succ]
  · have hrun : run b = 0 := by simp only [run, if_neg b4]
    rw [ppsrLoop_stop (mt h0.mp b4), hrun]
    simp

theorem announcedLength_ge (resp : List Byte) : 3 + run (pps0 resp) ≤ announcedLength resp :=
  Nat.add_le_add_left (run_le _) 3

theorem receiveAt_head {i : Nat} (hlen : 2 ≤ resp.length) (hi : i < 2) (buf : Nat → Byte) :
    receiveAt buf 0 (resp.take 2) i = resp.getD i 0 := by
  have hin : 0 ≤ i ∧ i < 0 + (resp.take 2).length := by rw [List.length_take]; omega
  rw [receiveAt, if_pos hin, Nat.sub_zero, List.getD_eq_getElem?_getD, List.getElem?_take_of_lt hi,
    List.getD_eq_getElem?_getD]

/-- What has come in is what the card has sent. -/
theorem ppsReceive_spec (s : State) (h : announcedLength resp ≤ resp.length) :
    ∃ s', ppsReceive s resp = some s' ∧ s'.slot = s.slot ∧ s'.ppsReq = s.ppsReq ∧
      ∀ i < announcedLength resp, s'.buf i = resp.getD i 0 := by
  have hlen : announcedLength resp = 3 + (fields (pps0 resp)).length := rfl
  have hsize : ifdPpsBytes (receiveAt s.buf 0 (resp.take 2) 1) + 1 = (fields (pps0 resp)).length + 1 := by
    rw [receiveAt_head (by omega) (by decide), ifdPpsBytes_eq, pps0]
  refine ⟨{ s with
    buf := receiveAt (receiveAt s.buf 0 (resp.take 2)) 2 ((resp.drop 2).take ((fields (pps0 resp)).length + 1))
    rxStart := 2 }, ?_, rfl, rfl, ?_⟩
  · rw [ppsReceive, if_neg (by omega)]
    simp only [hsize]
    rw [if_neg (by omega)]
  · intro i hi
    show receiveAt _ 2 _ i = _
    by_cases h2 : i < 2
    · rw [receiveAt, if_neg (by omega), receiveAt_head (by omega) h2]
    · have hin : 2 ≤ i ∧ i < 2 + ((resp.drop 2).take ((fields (pps0 resp)).length + 1)).length := by
        rw [List.length_take, List.length_drop]
        omega
      rw [receiveAt, if_pos hin, List.getD_eq_getElem?_getD, List.getElem?_take_of_lt (by omega), List.getElem?_drop,
        Nat.add_sub_cancel' hin.1, List.getD_eq_getElem?_getD]

theorem ppsReceive_none (s : State) (h : ¬ announcedLength resp ≤ resp.length) : ppsReceive s resp = none := by
  have hlen : announcedLength resp = 3 + (fields (pps0 resp)).length := rfl
  rw [ppsReceive]
  by_cases h2 : resp.length < 2
  · rw [if_pos h2]
  · have hone : receiveAt s.buf 0 (resp.take 2) 1 = pps0 resp := receiveAt_head (by omega) (by decide) s.buf
    rw [if_neg h2]
    simp only [hone, ifdPpsBytes_eq]
    rw [if_pos (by omega)]

/-- The tests of `ifd_ppsr_parse`, and what it sets. -/
theorem ifdPpsrParse_ok_iff : ifdPpsrParse s = .ok s' ↔
    s.buf 0 = ifdPpsPpss ∧ ifdPpsProto (s.buf 1) = ifdPpsProto (s.ppsReq 0) ∧
      (∀ i < run (s.buf 1), s.buf (2 + i) = s.ppsReq (1 + i)) ∧
      (List.range (run (s.buf 1))).foldl (fun p i => p ^^^ s.buf (2 + i)) (ifdPpsPpss ^^^ s.buf 1) ^^^
        s.buf (2 + run (s.buf 1)) = 0 ∧
      s' = { s with slot := { s.slot with fd := if 0 < run (s.buf 1) then s.buf 2 else s.slot.fd } } := by
  rw [ifdPpsrParse, ppsrLoop_eq]
  by_cases h0 : s.buf 0 = ifdPpsPpss
  · by_cases h1 : ifdPpsProto (s.buf 1) = ifdPpsProto (s.ppsReq 0)
    · by_cases h2 : ∀ i < run (s.buf 1), s.buf (2 + i) = s.ppsReq (1 + i)
      · rw [if_neg (not_not.mpr h0), if_neg (not_not.mpr h1), if_pos h2]
        show (if (List.range (run (s.buf 1))).foldl (fun p i => p ^^^ s.buf (2 + i)) (ifdPpsPpss ^^^ s.buf 1) ^^^
          s.buf (2 + run (s.buf 1)) ≠ 0 then _ else _) = _ ↔ _
        rw [ite_not]
        split
        · next h3 => exact ⟨fun h => ⟨h0, h1, h2, h3, (Except.ok.inj h).symm⟩, fun h => congrArg _ h.2.2.2.2.symm⟩
        · next h3 => exact ⟨nofun, fun h => absurd h.2.2.2.1 h3⟩
      · rw [if_neg (not_not.mpr h0), if_neg (not_not.mpr h1), if_neg h2]
        exact ⟨nofun, fun h => absurd h.2.2.1 h2⟩
    · rw [if_neg (not_not.mpr h0), if_pos h1]
      exact ⟨nofun, fun h => absurd h.2.1 h1⟩
  · rw [if_pos h0]
    exact ⟨nofun, fun h => absurd h.1 h0⟩

/-- The responses that are taken, whatever `pps_req` is. Nothing but `fd` of the slot changes. -/
theorem ppsXchg_ok_iff : (∃ s', ppsXchg s resp = .ok s') ↔
    announcedLength resp ≤ resp.length ∧ resp.getD 0 0 = ifdPpsPpss ∧
      ifdPpsProto (pps0 resp) = ifdPpsProto (s.ppsReq 0) ∧
      (∀ i < run (pps0 resp), resp.getD (2 + i) 0 = s.ppsReq (1 + i)) ∧
      (resp.take (3 + run (pps0 resp))).foldl (· ^^^ ·) 0 = 0 := by
  by_cases hlen : announcedLength resp ≤ resp.length
  · obtain ⟨s₁, hs₁, -, hreq, hbuf⟩ := ppsReceive_spec s hlen
    have hge := announcedLength_ge resp
    have h0 : s₁.buf 0 = resp.getD 0 0 := hbuf 0 (by omega)
    have h1 : s₁.buf 1 = pps0 resp := hbuf 1 (by omega)
    have hrun : ∀ i ≤ run (pps0 resp), s₁.buf (2 + i) = resp.getD (2 + i) 0 := by
      intro i hi
      exact hbuf (2 + i) (by omega)
    have hsum : (List.range (run (pps0 resp))).foldl (fun p i => p ^^^ s₁.buf (2 + i)) (resp.getD 0 0 ^^^ pps0 resp) ^^^
        s₁.buf (2 + run (pps0 resp)) = (resp.take (3 + run (pps0 resp))).foldl (· ^^^ ·) 0 := by
      rw [show 3 + run (pps0 resp) = 2 + run (pps0 resp) + 1 by omega, foldl_take_succ (by omega),
        foldl_take_two_add (by omega), hrun _ le_rfl]
      congr 1
      apply List.foldl_ext
      intro p i hi
      rw [hrun i (List.mem_range.mp hi).le]
    simp only [ppsXchg, hs₁, ifdPpsrParse_ok_iff, h0, h1, hreq, exists_and_left, exists_eq, and_true, hlen, true_and]
    apply and_congr_right
    intro hff
    rw [← hff, hsum]
    apply and_congr_right
    intro _
    apply and_congr_left
    intro _
    exact forall₂_congr fun i hi => by rw [hrun i hi.le]
  · rw [ppsXchg, ppsReceive_none s hlen]
    exact ⟨nofun, fun h => absurd h.1 hlen⟩

theorem negoFd_of_ppsXchg (h : ppsXchg s resp = .ok s') :
    s'.slot.negoFd = s.slot.negoFd ∧ s'.slot.negoProto = s.slot.negoProto := by
  by_cases hlen : announcedLength resp ≤ resp.length
  · obtain ⟨s₁, hs₁, hslot, -, -⟩ := ppsReceive_spec s hlen
    rw [ppsXchg, hs₁] at h
    obtain ⟨-, -, -, -, rfl⟩ := ifdPpsrParse_ok_iff.mp h
    rw [hslot]
    exact ⟨rfl, rfl⟩
  · rw [ppsXchg, ppsReceive_none s hlen] at h
    nomatch h

/-! ## The request -/

theorem ppsBuild_slot (s : State) : (ppsBuild s).slot = s.slot := rfl

/-- PPS0 of the request. -/
def requestPps0 (s : State) : Byte :=
  if s.slot.negoFd ≠ s.slot.fd then s.slot.negoProto ||| ifdPpsExists 0 else s.slot.negoProto

theorem mem_fields_or {b : Byte} (h : b.toNat < 16) : fields b = [] ∧ fields (b ||| ifdPpsExists 0) = [0] := by
  revert b; decide

theorem proto_or {b : Byte} (h : b.toNat < 16) : b &&& 0x0F = b ∧ (b ||| ifdPpsExists 0) &&& 0x0F = b := by
  revert b; decide

section

variable (hT : s.slot.negoProto.toNat < 16)
include hT

theorem mem_fields_requestPps0 {i : Nat} : i ∈ fields (requestPps0 s) ↔ Requested s i := by
  rw [requestPps0, Requested]
  by_cases h : s.slot.negoFd ≠ s.slot.fd
  · rw [if_pos h, (mem_fields_or hT).2]
    simp [h]
  · rw [if_neg h, (mem_fields_or hT).1]
    simp [h]

theorem requestPps0_proto : requestPps0 s &&& 0x0F = s.slot.negoProto := by
  rw [requestPps0]
  split
  · exact (proto_or hT).2
  · exact (proto_or hT).1

theorem exists_requestPps0 {n : Nat} (hn : n < 3) : requestPps0 s &&& ifdPpsExists n ≠ 0 ↔ Requested s n := by
  rw [exists_iff _ hn, ← mem_fields_requestPps0 hT, mem_fields]
  exact (and_iff_right hn).symm

/-- The buffer with the request, its PCK apart. -/
theorem exists_ppsBuild : ∃ t : State, ppsBuild s = ifdPpsSave t ∧ t.slot = s.slot ∧ t.ppsReq = s.ppsReq ∧
    t.buf 1 = requestPps0 s ∧ (Requested s 0 → t.buf 2 = s.slot.negoFd) := by
  have hex := exists_requestPps0 hT (n := 0) (by decide)
  rw [ppsBuild, requestPps0]
  by_cases h : s.slot.negoFd ≠ s.slot.fd
  · have hb := hex.mpr ⟨rfl, h⟩
    rw [requestPps0, if_pos h] at hb
    simp only [if_pos h, if_pos hb]
    exact ⟨_, rfl, rfl, rfl, by simp, fun _ => by simp⟩
  · have hb := mt hex.mp fun hr => h hr.2
    rw [requestPps0, if_neg h] at hb
    simp only [if_neg h, if_neg hb]
    exact ⟨_, rfl, rfl, rfl, by simp, fun hr => absurd hr.2 h⟩

theorem ppsSaveByte_of_not {buf : Nat → Byte} {n : Nat} {r : (Nat → Byte) × Nat} (hn : n < 3) (h : ¬ Requested s n) :
    ppsSaveByte buf (requestPps0 s) n r = r := by
  rw [ppsSaveByte, if_neg (mt (exists_requestPps0 hT hn).mp h)]

/-- What is sent and what is kept of it. -/
theorem ppsBuild_spec : (ppsBuild s).buf 1 = requestPps0 s ∧ (Requested s 0 → (ppsBuild s).buf 2 = s.slot.negoFd) ∧
    (ppsBuild s).ppsReq 0 = requestPps0 s ∧ ∀ i, (ppsBuild s).ppsReq (1 + i) = kept s i := by
  obtain ⟨t, ht, hslot, hreq, h1, h2⟩ := exists_ppsBuild hT
  have hpps1 : ¬ Requested s 1 := fun h => absurd h.1 (by decide)
  have hpps2 : ¬ Requested s 2 := fun h => absurd h.1 (by decide)
  have hsave : (ifdPpsSave t).ppsReq = (ppsSaveByte t.buf (requestPps0 s) 0 (Function.update s.ppsReq 0 (requestPps0 s), 2)).1 := by
    simp only [ifdPpsSave, h1, hreq, ppsSaveByte_of_not hT (n := 1) (by decide) hpps1,
      ppsSaveByte_of_not hT (n := 2) (by decide) hpps2]
  rw [ht, hsave]
  refine ⟨h1, h2, ?_⟩
  by_cases h : Requested s 0
  · rw [ppsSaveByte, if_pos ((exists_requestPps0 hT (by decide)).mpr h)]
    refine ⟨by simp, fun i => ?_⟩
    by_cases hi : i = 0
    · subst hi
      rw [kept, if_pos h, ← h2 h]
      simp
    · have hk : ¬ Requested s i := fun hr => hi hr.1
      rw [kept, if_neg hk]
      show Function.update (Function.update s.ppsReq 0 _) 1 _ (1 + i) = _
      rw [Function.update_of_ne (by omega), Function.update_of_ne (by omega)]
  · rw [ppsSaveByte_of_not hT (by decide) h]
    refine ⟨by simp, fun i => ?_⟩
    have hk : ¬ Requested s i := fun hr => h ⟨rfl, hr.2⟩
    rw [kept, if_neg hk]
    show Function.update s.ppsReq 0 _ (1 + i) = _
    rw [Function.update_of_ne (by omega)]

/-- With the request of `__ifd_pps_build`, the responses that are taken are those that pass. -/
theorem ppsXchg_ppsBuild_iff : (∃ s', ppsXchg (ppsBuild s) resp = .ok s') ↔ Passes s resp := by
  obtain ⟨-, -, hreq, hkept⟩ := ppsBuild_spec hT
  rw [ppsXchg_ok_iff, hreq]
  simp only [ifdPpsProto, requestPps0_proto hT, hkept]
  exact ⟨fun ⟨h₁, h₂, h₃, h₄, h₅⟩ => ⟨h₁, h₂, h₃, h₄, h₅⟩, fun ⟨h₁, h₂, h₃, h₄, h₅⟩ => ⟨h₁, h₂, h₃, h₄, h₅⟩⟩

theorem requestBytes_spec : pps0 (requestBytes (ppsBuild s)) = requestPps0 s ∧
    (Requested s 0 → field (requestBytes (ppsBuild s)) 0 = s.slot.negoFd) := by
  obtain ⟨h1, h2, -, -⟩ := ppsBuild_spec hT
  have hlen : 3 ≤ (requestBytes (ppsBuild s)).length := by simp [requestBytes]
  have hget : ∀ i < 3, (requestBytes (ppsBuild s)).getD i 0 = (ppsBuild s).buf i := by
    intro i hi
    rw [List.getD_eq_getElem _ _ (by omega)]
    simp [requestBytes]
  have hp : pps0 (requestBytes (ppsBuild s)) = requestPps0 s := (hget 1 (by decide)).trans h1
  refine ⟨hp, fun hr => ?_⟩
  have hf : fields (requestPps0 s) = [0] := by rw [requestPps0, if_pos hr.2, (mem_fields_or hT).2]
  rw [field, hp, hf, ← h2 hr]
  exact hget 2 (by decide)

/-- When nothing is announced that was not requested, to pass is to be successful. -/
theorem successful_iff (h : ∀ i ∈ fields (pps0 resp), Requested s i) :
    Successful (requestBytes (ppsBuild s)) resp ↔ Passes s resp := by
  obtain ⟨hp, hf⟩ := requestBytes_spec hT
  have hzero : ∀ i ∈ fields (pps0 resp), i = 0 := fun i hi => (h i hi).1
  have hrange := fields_eq hzero
  have hmem : ∀ {i}, i ∈ fields (pps0 resp) ↔ i < run (pps0 resp) := by
    intro i
    rw [hrange, List.mem_range]
  have hlen : announcedLength resp = 3 + run (pps0 resp) := by
    rw [announcedLength, hrange, List.length_range]
  -- the only parameter there can be stands behind PPS0, here and in the request
  have hecho : ∀ i ∈ fields (pps0 resp),
      field resp i = field (requestBytes (ppsBuild s)) i ↔ resp.getD (2 + i) 0 = kept s i := by
    intro i hi
    have hr := h i hi
    obtain rfl := hr.1
    have hidx : (fields (pps0 resp)).idxOf 0 = 0 := by
      have hpos := hmem.mp hi
      obtain ⟨n, hn⟩ := Nat.exists_eq_add_of_lt hpos
      rw [hrange, hn, List.range_succ_eq_map]
      simp
    rw [field, hidx, hf hr, kept, if_pos hr]
  constructor
  · intro hs
    refine ⟨hs.complete, hs.ppss, ?_, fun i hi => ?_, hlen ▸ hs.pck⟩
    · rw [hs.proto, hp, requestPps0_proto hT]
    · exact (hecho i (hmem.mpr hi)).mp (hs.echoed i (hmem.mpr hi))
  · intro hs
    refine ⟨hs.complete, hs.ppss, ?_, fun i hi => ?_, fun i hi => ?_, hlen.symm ▸ hs.pck⟩
    · rw [hs.proto, hp, requestPps0_proto hT]
    · rw [hp, mem_fields_requestPps0 hT]
      exact h i hi
    · exact (hecho i hi).mpr (hs.echoed i (hmem.mp hi))

theorem requested_of_successful (h : Successful (requestBytes (ppsBuild s)) resp) {i : Nat}
    (hi : i ∈ fields (pps0 resp)) : Requested s i := by
  have hreq := h.requested i hi
  rwa [(requestBytes_spec hT).1, mem_fields_requestPps0 hT] at hreq

end

/-! ## Applying F and D -/

theorem goodFd_iff (fd : Byte) : GoodFd fd ↔ ¬ (hihalf fd > nrIfdFis ∨ lohalf fd > nrIfdDis) ∧
    (ifdGetF (hihalf fd)).any (· ≠ 0) = true ∧ (ifdGetD (lohalf fd)).any (· ≠ 0) = true := by
  revert fd; decide

/-- `ifd_config_fd` stops at F and D that are not good. -/
theorem ifdConfigFd_eq (slot : Slot) :
    ifdConfigFd slot = if GoodFd slot.negoFd then some { slot with fd := slot.negoFd } else none := by
  simp only [ifdConfigFd, goodFd_iff]
  by_cases hb : hihalf slot.negoFd > nrIfdFis ∨ lohalf slot.negoFd > nrIfdDis
  · rw [if_pos hb, if_neg fun h => h.1 hb]
  · rw [if_neg hb]
    simp only [hb, not_false_eq_true, true_and]
    cases ifdGetF (hihalf slot.negoFd) with
    | none => simp
    | some F =>
      cases ifdGetD (lohalf slot.negoFd) with
      | none => simp
      | some D => by_cases hF : F = 0 <;> by_cases hD : D = 0 <;> simp [hF, hD]

theorem ifdConfigFd_implicit (slot : Slot) :
    (∃ slot', ifdConfigFd slot = some slot' ∧ slot'.fd = ifdFdImplicit) ↔ slot.negoFd = ifdFdImplicit := by
  rw [ifdConfigFd_eq]
  constructor
  · intro ⟨slot', h, hfd⟩
    split at h
    · rw [← Option.some.inj h] at hfd
      exact hfd
    · nomatch h
  · intro h
    rw [if_pos (h ▸ show GoodFd ifdFdImplicit by decide)]
    exact ⟨_, rfl, h⟩

/-! ## The exchange -/

/-- A slot at the defaults that negotiates T=0 with F=512 and D=16. -/
def faster : State where
  slot := ⟨⟨.negoPps, 0, 0x95, 0, 0, 0xFF, 0x11, 3, 0, 0⟩, 0x95, 0, 0x11, 0⟩
  buf := fun _ => 0
  rxStart := 0
  ppsReq := fun _ => 0

end Sdfirm.IfdPps
