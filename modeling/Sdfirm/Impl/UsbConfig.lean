import Sdfirm.Impl.Usbd

/-!
# The configuration descriptor (`usb_get_config_desc` of `kernel/usb/usb_dev.c`)

The data stage of GET_DESCRIPTOR calls `usb_get_config_desc`, which writes the
head of the configuration and then, for each interface that has been declared,
the head of the interface and what its `ctrl` callback writes: the smart card
reader (`scd/usb_scd.c`, `scd/scd_ccid.c`), the mass storage (`msd/usb_msd.c`),
the keyboard (`hid/usb_hid.c`) or the firmware upgrade (`usb_dfu.c`). The length
in the head is summed up beforehand from the `config_len` callbacks.

A function that writes bytes takes the rest of the callback as `k`.
-/

namespace Sdfirm.UsbConfig

open Usbd (Byte Io)

/-- The interfaces that `usbd_interface_t` is defined for. -/
inductive Intf where
  | scd
  | msd
  | hid
  | dfu
  deriving DecidableEq, Repr

/-- What `usbd_endpoint_t` and the controller say of an endpoint. -/
structure Endp where
  /-- `usbd_endpoint_dir_addr` -/
  dir : Byte
  /-- `usbd_endpoint_type_addr` -/
  type : Byte
  /-- `usbd_endpoint_size_addr` -/
  size : Byte
  /-- `usbd_endpoint_interval_addr` -/
  interval : Byte

/-- What the card reader says of itself. -/
structure ScdDesc where
  /-- `NR_SCD_USB_SLOTS` -/
  nrUsbSlots : Byte
  /-- `ccid_proto_features` -/
  protoFeatures : Byte
  /-- `IFD_HW_FREQ_DEF` and `IFD_HW_FREQ_MAX` -/
  freqDef : BitVec 32
  freqMax : BitVec 32
  /-- `ifd_cf_nr_freq` -/
  nrFreq : Byte
  /-- `IFD_HW_DATA_DEF` and `IFD_HW_DATA_MAX` -/
  dataDef : BitVec 32
  dataMax : BitVec 32
  /-- `ifd_cf_nr_data` -/
  nrData : Byte
  /-- `IFD_T1_MAX_IFSD` -/
  maxIfsd : BitVec 32
  /-- `ccid_device_features` -/
  deviceFeatures : BitVec 32
  /-- `CCID_MESSAGE_SIZE` -/
  messageSize : BitVec 32
  /-- `CCID_SPE_LCD_LAYOUT` and `CCID_SPE_SUPPORT_FUNC` -/
  lcdLayout : BitVec 16
  supportFunc : Byte
  /-- `NR_SCD_USB_QUEUES` -/
  nrUsbQueues : Byte

structure Config where
  /-- `NR_USBD_INTFS` -/
  nrUsbdIntfs : Nat
  /-- `USBD_MAX_POWER` -/
  maxPower : BitVec 16
  /-- `CONFIG_SCD_BULK` and `CONFIG_SCD_INTERRUPT` -/
  scdBulk : Bool
  scdInterrupt : Bool
  scdDesc : ScdDesc
  /-- The `config_len` of each report in `hid_reports` -/
  hidReports : List (BitVec 16)
  /-- `CONFIG_DFU_AUTO_RESET` -/
  dfuAutoReset : Bool
  /-- `dfu_proto` -/
  dfuProto : Byte
  /-- `DFU_TRANSFER_SIZE` -/
  dfuTransferSize : BitVec 16
  endp : (addr : Byte) → Endp
  /-- `CCID_ADDR_OUT`, `CCID_ADDR_IN` and `CCID_ADDR_IRQ` -/
  ccidAddrOut : Byte
  ccidAddrIn : Byte
  ccidAddrIrq : Byte
  /-- `msd_addr` -/
  msdAddr : Vector Byte 2
  /-- `HID_ADDR_IN` and `HID_ADDR_OUT` -/
  hidAddrIn : Byte
  hidAddrOut : Byte
  /-- `usb_iid_t` and `hid_rid_t` have 8 bits. -/
  nrUsbdIntfs_lt : nrUsbdIntfs < 2 ^ 8
  hidReports_lt : hidReports.length < 2 ^ 8

variable (cfg : Config) {μ : Type}

/-! ## Sizes -/

def dtConfigSize : Byte := 9

def dtInterfaceSize : Byte := 9

def dtEndpointSize : Byte := 7

def dtScdSize : Byte := 0x36

def dtDfuFunctionSize : Byte := 9

/-- `sizeof (hid_desc_t)`, which is `HID_DT_HID_SIZE`. -/
def dtHidSize : Byte := 6

def dtHidOptSize : Byte := 3

/-- `nr_endps`. -/
def nrEndps : Intf → Nat
  | .scd => (if cfg.scdBulk then 2 else 0) + if cfg.scdInterrupt then 1 else 0
  | .msd => 2
  | .hid => 2
  | .dfu => 0

def hidDescriptorLength : Byte := cfg.hidReports.foldl (fun length _ => length + dtHidOptSize) dtHidSize

def hidOptDescriptorLength (configLen : BitVec 16) : BitVec 16 := (configLen.setWidth 8).setWidth 16

/-- `config_len`. -/
def configLen : Intf → BitVec 16
  | .scd => dtScdSize.setWidth 16
  | .msd => 0
  | .hid => (hidDescriptorLength cfg).setWidth 16
  | .dfu => dtInterfaceSize.setWidth 16 + dtDfuFunctionSize.setWidth 16

/-- `usb_config_length`. -/
def usbConfigLength (intfs : List Intf) : BitVec 16 :=
  intfs.foldl (fun length intf =>
      (List.range (nrEndps cfg intf)).foldl (fun length _ => length + dtEndpointSize.setWidth 16)
        (length + dtInterfaceSize.setWidth 16 + configLen cfg intf))
    (dtConfigSize.setWidth 16)

/-! ## Descriptors -/

/-- `usbd_input_interface_desc`. -/
def inputInterfaceDesc (cls subcls proto istring : Byte) (k : Io μ) : Io μ :=
  .inb cls <| .inb subcls <| .inb proto <| .inb istring k

/-- `USB_ENDPADDR(usbd_endpoint_dir_addr(addr), USB_ADDR2EID(addr))`. -/
def endpAddr (addr : Byte) : Byte := (cfg.endp addr).dir <<< 7 ||| (addr &&& 0x0F)

/-- `usbd_input_endpoint_desc`. -/
def inputEndpointDesc (addr : Byte) (k : Io μ) : Io μ :=
  .inb dtEndpointSize <| .inb 0x05 <| .inb (endpAddr cfg addr) <| .inb (cfg.endp addr).type <|
  .inw ((cfg.endp addr).size.setWidth 16) <| .inb (cfg.endp addr).interval k

/-- `scd_get_bulk_desc` and `scd_get_irq_desc`. -/
def scdGetBulkDesc (k : Io μ) : Io μ :=
  if cfg.scdBulk then inputEndpointDesc cfg cfg.ccidAddrOut <| inputEndpointDesc cfg cfg.ccidAddrIn k else k

def scdGetIrqDesc (k : Io μ) : Io μ := if cfg.scdInterrupt then inputEndpointDesc cfg cfg.ccidAddrIrq k else k

def scdCtrlGetDesc (k : Io μ) : Io μ :=
  .inb dtScdSize <| .inb 0x21 <| .inw 0x100 <| .inb (cfg.scdDesc.nrUsbSlots - 1) <| .inb 0x07 <|
  .inl (cfg.scdDesc.protoFeatures.setWidth 32) <|
  .inl cfg.scdDesc.freqDef <| .inl cfg.scdDesc.freqMax <| .inb cfg.scdDesc.nrFreq <|
  .inl cfg.scdDesc.dataDef <| .inl cfg.scdDesc.dataMax <| .inb cfg.scdDesc.nrData <|
  .inl cfg.scdDesc.maxIfsd <| .inl 0x0000 <| .inl 0x00 <| .inl cfg.scdDesc.deviceFeatures <|
  .inl cfg.scdDesc.messageSize <| .inb 0x00 <| .inb 0x00 <| .inw cfg.scdDesc.lcdLayout <|
  .inb cfg.scdDesc.supportFunc <| .inb cfg.scdDesc.nrUsbQueues <|
  scdGetBulkDesc cfg <| scdGetIrqDesc cfg k

def scdGetConfigDesc (k : Io μ) : Io μ := inputInterfaceDesc 11 0x00 0x00 0x10 <| scdCtrlGetDesc cfg k

def msdGetConfigDesc (k : Io μ) : Io μ :=
  inputInterfaceDesc 8 0x06 0x50 30 <| cfg.msdAddr.toList.foldr (inputEndpointDesc cfg) k

def hidGetHidDesc (k : Io μ) : Io μ :=
  .inb (hidDescriptorLength cfg) <| .inb 0x21 <| .inw 0x111 <| .inb 0 <| .inb (BitVec.ofNat 8 cfg.hidReports.length) <|
  cfg.hidReports.foldr (fun configLen k => .inb 0x22 <| .inw (hidOptDescriptorLength configLen) k) k

def hidGetConfigDesc (k : Io μ) : Io μ :=
  inputInterfaceDesc 3 1 1 20 <| hidGetHidDesc cfg <| inputEndpointDesc cfg cfg.hidAddrIn <|
  inputEndpointDesc cfg cfg.hidAddrOut k

/-- `DFU_ATTR_AUTO_RESET | DFU_ATTR_CAN_DNLOAD | DFU_ATTR_CAN_UPLOAD`. -/
def dfuAttrs : Byte := (if cfg.dfuAutoReset then 0x08 ||| 0x04 else 0) ||| 0x01 ||| 0x02

def dfuGetFuncDesc (k : Io μ) : Io μ :=
  .inb dtDfuFunctionSize <| .inb 0x21 <| .inb (dfuAttrs cfg) <| .inw 10 <| .inw cfg.dfuTransferSize <| .inw 0x0100 k

def dfuGetConfigDesc (k : Io μ) : Io μ := inputInterfaceDesc 0xFE 1 cfg.dfuProto 40 <| dfuGetFuncDesc cfg k

/-- What `ctrl` writes for GET_DESCRIPTOR of a configuration. -/
def interfaceCtrlData : Intf → Io μ → Io μ
  | .scd => scdGetConfigDesc cfg
  | .msd => msdGetConfigDesc cfg
  | .hid => hidGetConfigDesc cfg
  | .dfu => dfuGetConfigDesc cfg

/-- The loop of `usb_get_config_desc`, from the interface `iid` on. -/
def interfaceDescs : (iid : Nat) → List Intf → Io μ → Io μ
  | _, [], k => k
  | iid, intf :: intfs, k =>
    .inb dtInterfaceSize <| .inb 0x04 <| .inb (BitVec.ofNat 8 iid) <| .inb 0 <| .inb (BitVec.ofNat 8 (nrEndps cfg intf)) <|
    interfaceCtrlData cfg intf <| interfaceDescs (iid + 1) intfs k

/-- `usb_get_config_desc`, which halts the endpoint if there is no such configuration. -/
def usbGetConfigDesc (value : BitVec 16) (intfs : List Intf) : Option (Io Unit) :=
  if value.setWidth 8 ≠ (0 : Byte) then none
  else some <|
    .inb dtConfigSize <| .inb 0x02 <| .inw (usbConfigLength cfg intfs) <| .inb (BitVec.ofNat 8 intfs.length) <|
    .inb 1 <| .inb 0x02 <| .inb 0x80 <| .inb ((cfg.maxPower >>> 1).setWidth 8) <| interfaceDescs cfg 0 intfs (.ret ())

/-! ## Declaration -/

/-- `usbd_declare_interface`. -/
def declareInterface (intfs : List Intf) (intf : Intf) : List Intf :=
  if intfs.length < cfg.nrUsbdIntfs then intfs ++ [intf] else intfs

/-- The interfaces after a number of declarations. -/
def declared (intfs : List Intf) : List Intf := intfs.foldl (declareInterface cfg) []

end Sdfirm.UsbConfig
