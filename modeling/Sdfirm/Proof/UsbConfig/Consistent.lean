import Sdfirm.Spec.Usbd
import Sdfirm.Proof.Usbd.Callback

/-!
# The configuration descriptor

`usbGetConfigDesc_eq` gives the bytes that are written, as the descriptors that
they consist of. `toNat_usbConfigLength` is the length in front of them, and
`config_consistent_iff` says when the two agree.
-/

namespace Sdfirm.UsbConfig

open Usbd (Byte Io Endpoint emitBytes wordBytes itemBytes)

variable {cfg : Config} {intfs : List Intf} {intf : Intf} {iid : Nat} {μ : Type}

/-! ## Descriptors -/

def dwordBytes (l : BitVec 32) : List Byte := wordBytes (l.setWidth 16) ++ wordBytes ((l >>> 16).setWidth 16)

theorem foldr_wordBytes (w : BitVec 16) (k : Io μ) : (wordBytes w).foldr Io.inb k = Io.inw w k := rfl

theorem foldr_dwordBytes (l : BitVec 32) (k : Io μ) : (dwordBytes l).foldr Io.inb k = Io.inl l k := rfl

def endpointDesc (cfg : Config) (addr : Byte) : List Byte :=
  [7, 0x05, endpAddr cfg addr, (cfg.endp addr).type] ++ wordBytes ((cfg.endp addr).size.setWidth 16) ++
    [(cfg.endp addr).interval]

theorem endpointDesc_isDesc (cfg : Config) (addr : Byte) :
    IsDesc 0x05 (endpointDesc cfg addr) ∧ (endpointDesc cfg addr).length = 7 := ⟨⟨Nat.lt_of_sub_eq_succ rfl, rfl, rfl⟩, rfl⟩

/-- The four bytes that say what an interface is. -/
def intfKind (cfg : Config) : Intf → List Byte
  | .scd => [11, 0x00, 0x00, 0x10]
  | .msd => [8, 0x06, 0x50, 30]
  | .hid => [3, 1, 1, 20]
  | .dfu => [0xFE, 1, cfg.dfuProto, 40]

def scdDescBytes (s : ScdDesc) : List Byte :=
  [0x36, 0x21] ++ wordBytes 0x100 ++ [s.nrUsbSlots - 1, 0x07] ++ dwordBytes (s.protoFeatures.setWidth 32) ++
    dwordBytes s.freqDef ++ dwordBytes s.freqMax ++ [s.nrFreq] ++ dwordBytes s.dataDef ++ dwordBytes s.dataMax ++
    [s.nrData] ++ dwordBytes s.maxIfsd ++ dwordBytes 0x0000 ++ dwordBytes 0x00 ++ dwordBytes s.deviceFeatures ++
    dwordBytes s.messageSize ++ [0x00, 0x00] ++ wordBytes s.lcdLayout ++ [s.supportFunc, s.nrUsbQueues]

def hidReportBytes (configLen : BitVec 16) : List Byte := [0x22] ++ wordBytes (hidOptDescriptorLength configLen)

def hidDescBytes (cfg : Config) : List Byte :=
  [hidDescriptorLength cfg, 0x21] ++ wordBytes 0x111 ++ [0, BitVec.ofNat 8 cfg.hidReports.length] ++
    cfg.hidReports.flatMap hidReportBytes

def dfuDescBytes (cfg : Config) : List Byte :=
  [9, 0x21, dfuAttrs cfg] ++ wordBytes 10 ++ wordBytes cfg.dfuTransferSize ++ wordBytes 0x0100

/-- The descriptors of the class. -/
def clsDescs (cfg : Config) : Intf → List (List Byte)
  | .scd => [scdDescBytes cfg.scdDesc]
  | .msd => []
  | .hid => [hidDescBytes cfg]
  | .dfu => [dfuDescBytes cfg]

/-- The addresses of the endpoints. -/
def endpAddrs (cfg : Config) : Intf → List Byte
  | .scd => (if cfg.scdBulk then [cfg.ccidAddrOut, cfg.ccidAddrIn] else []) ++
    if cfg.scdInterrupt then [cfg.ccidAddrIrq] else []
  | .msd => cfg.msdAddr.toList
  | .hid => [cfg.hidAddrIn, cfg.hidAddrOut]
  | .dfu => []

theorem length_endpAddrs (cfg : Config) (intf : Intf) : (endpAddrs cfg intf).length = nrEndps cfg intf := by
  cases intf with
  | scd =>
    rw [endpAddrs, nrEndps, List.length_append]
    cases cfg.scdBulk <;> cases cfg.scdInterrupt <;> rfl
  | msd => exact Vector.length_toList
  | hid => rfl
  | dfu => rfl

/-- The descriptors of an interface. -/
def intfBytes (cfg : Config) (iid : Nat) (intf : Intf) : List Byte :=
  ([9, 0x04, BitVec.ofNat 8 iid, 0, BitVec.ofNat 8 (nrEndps cfg intf)] ++ intfKind cfg intf) ++
    (clsDescs cfg intf).flatten ++ (endpAddrs cfg intf).flatMap (endpointDesc cfg)

theorem foldr_flatMap_inb {α : Type} (f : α → List Byte) (l : List α) (k : Io μ) :
    (l.flatMap f).foldr Io.inb k = l.foldr (fun a k => (f a).foldr Io.inb k) k := by
  induction l with
  | nil => rfl
  | cons a l ih => rw [List.flatMap_cons, List.foldr_append, ih, List.foldr_cons]

theorem scdEndpoints_eq (cfg : Config) (k : Io μ) :
    scdGetBulkDesc cfg (scdGetIrqDesc cfg k) = ((endpAddrs cfg .scd).flatMap (endpointDesc cfg)).foldr Io.inb k := by
  rw [foldr_flatMap_inb, endpAddrs, List.foldr_append, scdGetBulkDesc, scdGetIrqDesc]
  cases cfg.scdBulk <;> cases cfg.scdInterrupt <;> rfl

theorem interfaceCtrlData_eq (cfg : Config) (intf : Intf) (k : Io μ) :
    interfaceCtrlData cfg intf k = (intfKind cfg intf ++ (clsDescs cfg intf).flatten ++
      (endpAddrs cfg intf).flatMap (endpointDesc cfg)).foldr Io.inb k := by
  rw [List.foldr_append]
  cases intf with
  | scd =>
    rw [← scdEndpoints_eq, interfaceCtrlData, scdGetConfigDesc, scdCtrlGetDesc]
    simp only [inputInterfaceDesc, intfKind, clsDescs, scdDescBytes, dtScdSize, List.flatten_singleton, List.foldr_append,
      List.foldr_cons, List.foldr_nil, foldr_wordBytes, foldr_dwordBytes]
  | msd =>
    rw [foldr_flatMap_inb]
    rfl
  | hid =>
    rw [foldr_flatMap_inb]
    show inputInterfaceDesc 3 1 1 20 (hidGetHidDesc cfg _) = _
    rw [List.foldr_append, clsDescs, List.flatten_singleton, hidDescBytes, List.foldr_append, foldr_flatMap_inb]
    rfl
  | dfu => rfl

/-- The interfaces one after the other. -/
def intfList (cfg : Config) : (iid : Nat) → List Intf → List (List Byte)
  | _, [] => []
  | iid, intf :: intfs => intfBytes cfg iid intf :: intfList cfg (iid + 1) intfs

theorem interfaceDescs_eq (cfg : Config) (iid : Nat) (intfs : List Intf) (k : Io μ) :
    interfaceDescs cfg iid intfs k = (intfList cfg iid intfs).flatten.foldr Io.inb k := by
  induction intfs generalizing iid with
  | nil => rfl
  | cons intf intfs ih =>
    rw [interfaceDescs, ih, intfList, List.flatten_cons, List.foldr_append, interfaceCtrlData_eq, intfBytes]
    rfl

def confHead (cfg : Config) (intfs : List Intf) : List Byte :=
  ([9, 0x02] : List Byte) ++ wordBytes (usbConfigLength cfg intfs) ++
    [BitVec.ofNat 8 intfs.length, 1, 0x02, 0x80, (cfg.maxPower >>> 1).setWidth 8]

/-- The bytes of the configuration. -/
def configBytes (cfg : Config) (intfs : List Intf) : List Byte := confHead cfg intfs ++ (intfList cfg 0 intfs).flatten

theorem usbGetConfigDesc_eq (cfg : Config) {value : BitVec 16} (hvalue : value.setWidth 8 = (0 : Byte)) (intfs : List Intf) :
    usbGetConfigDesc cfg value intfs = some (emitBytes (configBytes cfg intfs)) := by
  rw [usbGetConfigDesc, if_neg (fun h => h hvalue), interfaceDescs_eq, emitBytes, configBytes, List.foldr_append]
  rfl

/-! ## Lengths -/

theorem hidDescriptorLength_eq (cfg : Config) :
    hidDescriptorLength cfg = BitVec.ofNat 8 (6 + 3 * cfg.hidReports.length) := by
  have hfold (l : List (BitVec 16)) (n : Nat) :
      l.foldl (fun length _ => length + dtHidOptSize) (BitVec.ofNat 8 n) = BitVec.ofNat 8 (n + 3 * l.length) := by
    induction l generalizing n with
    | nil => rfl
    | cons a l ih =>
      rw [List.foldl_cons, List.length_cons, Nat.mul_succ, ← Nat.add_assoc, Nat.add_right_comm, ← ih, BitVec.ofNat_add]
      rfl
  exact hfold cfg.hidReports 6

theorem length_flatMap_const {α : Type} {f : α → List Byte} {n : Nat} (h : ∀ a, (f a).length = n) (l : List α) :
    (l.flatMap f).length = n * l.length := by
  induction l with
  | nil => rfl
  | cons a l ih =>
    rw [List.flatMap_cons, List.length_append, h, ih, List.length_cons, Nat.mul_succ, Nat.add_comm]

theorem length_hidDescBytes (cfg : Config) : (hidDescBytes cfg).length = 6 + 3 * cfg.hidReports.length := by
  rw [hidDescBytes, List.length_append, length_flatMap_const (n := 3) fun _ => rfl]
  rfl

theorem length_wordBytes (w : BitVec 16) : (wordBytes w).length = 2 := rfl

theorem length_dwordBytes (l : BitVec 32) : (dwordBytes l).length = 4 := rfl

theorem length_scdDescBytes (s : ScdDesc) : (scdDescBytes s).length = 54 := by
  simp only [scdDescBytes, List.length_append, length_wordBytes, length_dwordBytes, List.length_cons, List.length_nil]

theorem length_intfKind (cfg : Config) (intf : Intf) : (intfKind cfg intf).length = 4 := by
  cases intf <;> rfl

theorem length_intfBytes (cfg : Config) (iid : Nat) (intf : Intf) : (intfBytes cfg iid intf).length = intfSize cfg intf := by
  rw [intfBytes, List.length_append, List.length_append, List.length_append, length_intfKind,
    length_flatMap_const (n := 7) fun _ => rfl, length_endpAddrs]
  cases intf with
  | scd =>
    rw [clsDescs, List.flatten_singleton, length_scdDescBytes]
    rfl
  | msd => rfl
  | hid =>
    rw [clsDescs, List.flatten_singleton, length_hidDescBytes]
    rfl
  | dfu => rfl

theorem length_configBytes (cfg : Config) (intfs : List Intf) : (configBytes cfg intfs).length = configSize cfg intfs := by
  have hlist (iid : Nat) : (intfList cfg iid intfs).flatten.length = (intfs.map (intfSize cfg)).sum := by
    induction intfs generalizing iid with
    | nil => rfl
    | cons intf intfs ih =>
      rw [intfList, List.flatten_cons, List.length_append, length_intfBytes, ih, List.map_cons, List.sum_cons]
  rw [configBytes, List.length_append, hlist, configSize]
  rfl

/-- What `usb_config_length` counts for an interface. -/
def countedSize (cfg : Config) (intf : Intf) : Nat := 9 + (configLen cfg intf).toNat + 7 * nrEndps cfg intf

theorem toNat_usbConfigLength (cfg : Config) (intfs : List Intf) :
    (usbConfigLength cfg intfs).toNat = (9 + (intfs.map (countedSize cfg)).sum) % 2 ^ 16 := by
  have hendps (n : Nat) (length : BitVec 16) :
      (List.range n).foldl (fun length _ => length + dtEndpointSize.setWidth 16) length = length + BitVec.ofNat 16 (7 * n) := by
    induction n with
    | zero => exact (BitVec.add_zero length).symm
    | succ n ih =>
      rw [List.range_succ, List.foldl_append, ih, Nat.mul_succ, BitVec.ofNat_add, ← BitVec.add_assoc]
      rfl
  have hfold (l : List Intf) (n : Nat) : l.foldl (fun length intf =>
      (List.range (nrEndps cfg intf)).foldl (fun length _ => length + dtEndpointSize.setWidth 16)
        (length + dtInterfaceSize.setWidth 16 + configLen cfg intf)) (BitVec.ofNat 16 n) =
      BitVec.ofNat 16 (n + (l.map (countedSize cfg)).sum) := by
    induction l generalizing n with
    | nil => rfl
    | cons intf l ih =>
      rw [List.foldl_cons, hendps, List.map_cons, List.sum_cons, ← Nat.add_assoc, ← ih]
      congr 1
      rw [countedSize, ← Nat.add_assoc, ← Nat.add_assoc, BitVec.ofNat_add, BitVec.ofNat_add, BitVec.ofNat_add,
        BitVec.ofNat_toNat, BitVec.setWidth_eq]
      rfl
  rw [usbConfigLength, ← BitVec.toNat_ofNat, ← hfold]
  rfl

theorem totalLength_configBytes (cfg : Config) (intfs : List Intf) :
    totalLength (configBytes cfg intfs) = (usbConfigLength cfg intfs).toNat := by
  show ((usbConfigLength cfg intfs).setWidth 8).toNat + 2 ^ 8 * ((usbConfigLength cfg intfs >>> 8).setWidth 8).toNat = _
  generalize usbConfigLength cfg intfs = w
  rw [BitVec.toNat_setWidth, BitVec.toNat_setWidth, BitVec.toNat_ushiftRight, Nat.shiftRight_eq_div_pow]
  omega

/-- The firmware upgrade is counted with its interface twice, and a keyboard modulo 256. -/
theorem countedSize_add (cfg : Config) (intfs : List Intf) :
    (intfs.map (countedSize cfg)).sum + 2 ^ 8 * ((6 + 3 * cfg.hidReports.length) / 2 ^ 8) * intfs.count .hid =
      (intfs.map (intfSize cfg)).sum + 9 * intfs.count .dfu := by
  have hhid : (configLen cfg .hid).toNat = (6 + 3 * cfg.hidReports.length) % 2 ^ 8 := by
    rw [configLen, hidDescriptorLength_eq, BitVec.toNat_setWidth, BitVec.toNat_ofNat]
    omega
  induction intfs with
  | nil => rfl
  | cons intf intfs ih =>
    rw [List.map_cons, List.map_cons, List.sum_cons, List.sum_cons, List.count_cons, List.count_cons]
    cases intf with
    | scd =>
      show countedSize cfg .scd + _ + _ * intfs.count .hid = intfSize cfg .scd + _ + 9 * intfs.count .dfu
      rw [show countedSize cfg .scd = intfSize cfg .scd from rfl]
      omega
    | msd =>
      show countedSize cfg .msd + _ + _ * intfs.count .hid = intfSize cfg .msd + _ + 9 * intfs.count .dfu
      rw [show countedSize cfg .msd = intfSize cfg .msd from rfl]
      omega
    | hid =>
      show countedSize cfg .hid + _ + _ * (intfs.count .hid + 1) = intfSize cfg .hid + _ + 9 * intfs.count .dfu
      rw [countedSize, hhid, show intfSize cfg .hid = 9 + (6 + 3 * cfg.hidReports.length) + 7 * nrEndps cfg .hid from rfl,
        Nat.mul_succ]
      omega
    | dfu =>
      show countedSize cfg .dfu + _ + _ * intfs.count .hid = intfSize cfg .dfu + _ + 9 * (intfs.count .dfu + 1)
      rw [show countedSize cfg .dfu = intfSize cfg .dfu + 9 from rfl]
      omega

theorem totalLength_iff (hlen : intfs.length < 2 ^ 8) :
    totalLength (configBytes cfg intfs) = (configBytes cfg intfs).length ↔ Regular cfg intfs := by
  have hadd := countedSize_add cfg intfs
  have hdfu := List.count_le_length (a := Intf.dfu) (l := intfs)
  rw [totalLength_configBytes, toNat_usbConfigLength, length_configBytes, Regular, configSize]
  generalize hq : (6 + 3 * cfg.hidReports.length) / 2 ^ 8 = q at hadd
  generalize (intfs.map (countedSize cfg)).sum = n at hadd ⊢
  generalize (intfs.map (intfSize cfg)).sum = m at hadd ⊢
  rw [← List.count_eq_zero, ← List.count_pos_iff (a := Intf.hid)]
  generalize intfs.count .dfu = d at hadd hdfu ⊢
  generalize intfs.count .hid = h at hadd ⊢
  rw [Nat.mul_assoc] at hadd
  constructor
  · intro heq
    -- 9 * d is a multiple of 256, and d is less than that
    have hd : d = 0 := by omega
    have hqh : q * h = 0 := by omega
    refine ⟨hd, ?_, by omega⟩
    intro hpos
    obtain hzero | hzero := Nat.mul_eq_zero.mp hqh
    · omega
    · omega
  · rintro ⟨hd, hhid, hlt⟩
    have hqh : q * h = 0 := by
      obtain hzero | hpos := Nat.eq_zero_or_pos h
      · rw [hzero, Nat.mul_zero]
      · rw [← hq, Nat.div_eq_of_lt (hhid hpos), Nat.zero_mul]
    omega

/-! ## Nesting -/

theorem clsDescs_isDesc (hhid : intf = .hid → 6 + 3 * cfg.hidReports.length < 2 ^ 8) :
    ∀ d ∈ clsDescs cfg intf, IsDesc 0x21 d := by
  intro d hd
  cases intf with
  | scd =>
    rw [clsDescs, List.mem_singleton] at hd
    rw [hd]
    refine ⟨?_, ?_, ?_⟩
    · rw [length_scdDescBytes]
      decide
    · rw [length_scdDescBytes]
      simp only [scdDescBytes, List.cons_append, List.getElem?_cons_zero]
      rfl
    · simp only [scdDescBytes, List.cons_append, List.getElem?_cons_succ, List.getElem?_cons_zero]
  | msd => exact absurd hd List.not_mem_nil
  | hid =>
    rw [clsDescs, List.mem_singleton] at hd
    rw [hd]
    refine ⟨?_, ?_, rfl⟩
    · rw [length_hidDescBytes]
      exact hhid rfl
    · rw [length_hidDescBytes, ← hidDescriptorLength_eq]
      rfl
  | dfu =>
    rw [clsDescs, List.mem_singleton] at hd
    rw [hd]
    exact ⟨Nat.lt_of_sub_eq_succ rfl, rfl, rfl⟩

theorem intfBytes_isInterface (iid : Nat) (hhid : intf = .hid → 6 + 3 * cfg.hidReports.length < 2 ^ 8) :
    IsInterface iid (intfBytes cfg iid intf) := by
  rw [intfBytes, List.flatMap_def]
  have hlen : ([9, 0x04, BitVec.ofNat 8 iid, 0, BitVec.ofNat 8 (nrEndps cfg intf)] ++ intfKind cfg intf).length = 9 := by
    rw [List.length_append, length_intfKind]
    rfl
  refine .mk ⟨?_, ?_, rfl⟩ hlen rfl ?_ ?_ ?_
  · rw [hlen]
    decide
  · rw [hlen]
    rfl
  · rw [List.length_map, length_endpAddrs]
    rfl
  · intro d hd
    exact ⟨0x21, clsDescs_isDesc hhid d hd, by decide, by decide, by decide⟩
  · intro d hd
    obtain ⟨addr, -, rfl⟩ := List.mem_map.1 hd
    exact endpointDesc_isDesc cfg addr

theorem getElem?_intfList (cfg : Config) (iid n : Nat) (intfs : List Intf) :
    (intfList cfg iid intfs)[n]? = intfs[n]?.map (intfBytes cfg (iid + n)) := by
  induction intfs generalizing iid n with
  | nil => rfl
  | cons intf intfs ih =>
    cases n with
    | zero => rfl
    | succ n =>
      show (intfList cfg (iid + 1) intfs)[n]? = intfs[n]?.map _
      rw [ih, Nat.add_right_comm]
      rfl

theorem length_intfList (cfg : Config) (iid : Nat) (intfs : List Intf) : (intfList cfg iid intfs).length = intfs.length := by
  induction intfs generalizing iid with
  | nil => rfl
  | cons intf intfs ih => rw [intfList, List.length_cons, List.length_cons, ih]

theorem configBytes_wellNested (hhid : .hid ∈ intfs → 6 + 3 * cfg.hidReports.length < 2 ^ 8) :
    WellNested (configBytes cfg intfs) := by
  refine ⟨confHead cfg intfs, intfList cfg 0 intfs, rfl, ⟨Nat.lt_of_sub_eq_succ rfl, rfl, rfl⟩, rfl, ?_, ?_⟩
  · rw [length_intfList]
    rfl
  · intro iid bs hbs
    rw [getElem?_intfList, Nat.zero_add, Option.map_eq_some_iff] at hbs
    obtain ⟨intf, hintf, rfl⟩ := hbs
    apply intfBytes_isInterface
    intro heq
    exact hhid (heq ▸ List.mem_of_getElem? hintf)

/-! ## The data stage -/

theorem lt_urbSize (e : Endpoint) (wLength : BitVec 16) : wLength.toNat < e.urbSize := by
  have := wLength.isLt
  unfold Endpoint.urbSize
  split <;> omega

/-- The host gets as many bytes as it asks for, in all modes. -/
theorem received_of_totalLength {e : Endpoint} {fuel : Nat} {bs : List Byte} {wLength : BitVec 16} (hdir : e.dir = .input)
    (hzlp : e.zlp = true) (htotal : totalLength bs = bs.length) (mode : Usbd.Mode) :
    ∃ ps, Usbd.Ends { e with mode } fuel (bs.map .byte) wLength.toNat ps ∧ ps.flatten = bs.take wLength.toNat ∧
      ps.flatten.length = min wLength.toNat (totalLength bs) := by
  have hexact : Usbd.Exact e (bs.map .byte) wLength.toNat := .inl hzlp
  obtain ⟨ps, hends, hflatten, -⟩ := hexact.transparent fuel hdir (lt_urbSize e wLength)
  rw [Usbd.itemBytes_byte] at hflatten
  refine ⟨ps, hends mode, hflatten, ?_⟩
  rw [hflatten, htotal, List.length_take]

theorem length_declared_lt (cfg : Config) (l : List Intf) : (declared cfg l).length < 2 ^ 8 := by
  have hfold (l intfs : List Intf) (hle : intfs.length ≤ cfg.nrUsbdIntfs) :
      (l.foldl (declareInterface cfg) intfs).length ≤ cfg.nrUsbdIntfs := by
    induction l generalizing intfs with
    | nil => exact hle
    | cons intf l ih =>
      rw [List.foldl_cons]
      apply ih
      rw [declareInterface]
      split
      · rw [List.length_append, List.length_singleton]
        omega
      · exact hle
  exact (hfold l [] (Nat.zero_le _)).trans_lt cfg.nrUsbdIntfs_lt

/-- The descriptor that is written for the declared interfaces agrees with the length in its head, and is received
as that says, exactly if no firmware upgrade is among them, which is counted with its interface twice, and the
lengths have the room that their fields give them. -/
theorem config_consistent_iff (cfg : Config) (l : List Intf) (e : Endpoint) (fuel : Nat) (value wLength : BitVec 16)
    (hdir : e.dir = .input) (hzlp : e.zlp = true) (hvalue : value.setWidth 8 = (0 : Byte)) :
    ∃ bs, usbGetConfigDesc cfg value (declared cfg l) = some (Usbd.emit (bs.map .byte) ()) ∧
      (Consistent e fuel bs wLength.toNat ↔ Regular cfg (declared cfg l)) := by
  refine ⟨configBytes cfg (declared cfg l), ?_, ?_, ?_⟩
  · rw [usbGetConfigDesc_eq cfg hvalue, Usbd.emit_byte]
  · intro h
    exact (totalLength_iff (length_declared_lt cfg l)).1 h.totalLength_eq
  · intro h
    have htotal := (totalLength_iff (length_declared_lt cfg l)).2 h
    exact ⟨htotal, fun _ => received_of_totalLength hdir hzlp htotal, configBytes_wellNested h.2.1⟩

/-- A board with two keyboards' reports and endpoints of 64 bytes. -/
def board : Config where
  nrUsbdIntfs := 4
  maxPower := 100
  scdBulk := true
  scdInterrupt := true
  scdDesc :=
    { nrUsbSlots := 1, protoFeatures := 3, freqDef := 4000, freqMax := 4000, nrFreq := 1, dataDef := 10752,
      dataMax := 10752, nrData := 1, maxIfsd := 254, deviceFeatures := 0, messageSize := 271, lcdLayout := 0,
      supportFunc := 0, nrUsbQueues := 1 }
  hidReports := [63, 52]
  dfuAutoReset := false
  dfuProto := 2
  dfuTransferSize := 256
  endp addr := { dir := addr >>> 7, type := 2, size := 64, interval := 0 }
  ccidAddrOut := 0x01
  ccidAddrIn := 0x82
  ccidAddrIrq := 0x83
  msdAddr := #v[0x84, 0x05]
  hidAddrIn := 0x86
  hidAddrOut := 0x07
  nrUsbdIntfs_lt := by decide
  hidReports_lt := by decide

/-- The IN side of the default pipe. -/
def pipe : Endpoint := { Usbd.bulkIn with zlp := true, mass := false }

theorem config_consistent_ccid :
    ∃ bs, usbGetConfigDesc board 0 [.scd, .msd, .hid] = some (Usbd.emit (bs.map .byte) ()) ∧ Consistent pipe 0 bs 255 := by
  obtain ⟨bs, hbs, hiff⟩ := config_consistent_iff board [.scd, .msd, .hid] pipe 0 0 255 rfl rfl rfl
  exact ⟨bs, hbs, hiff.2 (by decide)⟩

/-- With the firmware upgrade alone there are 27 bytes, and the head says 36. -/
theorem config_inconsistent :
    ∃ bs, usbGetConfigDesc board 0 (declared board [.dfu]) = some (Usbd.emit (bs.map .byte) ()) ∧ bs.length = 27 ∧
      totalLength bs = 36 ∧ ¬Consistent pipe 0 bs 255 := by
  refine ⟨configBytes board [.dfu], ?_, rfl, rfl, ?_⟩
  · rw [show declared board [.dfu] = [.dfu] from rfl, usbGetConfigDesc_eq board rfl, Usbd.emit_byte]
  · intro h
    exact absurd h.totalLength_eq (by decide)

end Sdfirm.UsbConfig
