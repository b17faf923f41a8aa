import Sdfirm.Impl.Usbd

/-!
# Upload of the firmware (`kernel/usb/usb_dfu.c`)

`dfu_upload` is the callback of the data stage of an UPLOAD request. The
variables of the driver are in `Vars`; `board_hw_firmware_read` reads a block of
the firmware of the board. `halted` says that `usbd_endpoint_halt` has been
called.
-/

namespace Sdfirm.Dfu

open Usbd (Byte Io)

/-- `dfu_state`. -/
inductive DfuState where
  | appIdle
  | appDetach
  | dfuIdle
  | dfuDnloadSync
  | dfuDnbusy
  | dfuDnloadIdle
  | dfuManifestSync
  | dfuManifest
  | dfuManifestWaitReset
  | dfuUploadIdle
  | dfuError
  deriving DecidableEq, Repr

/-- `dfu_proto`. -/
inductive Proto where
  | runtime
  | dfumode
  deriving DecidableEq, Repr

/-- The values of `dfu_error` that are used here. -/
inductive DfuStatus where
  | ok
  | errAddress
  | errStalledpkt
  deriving DecidableEq, Repr

structure Config where
  /-- `DFU_TRANSFER_SIZE` -/
  transferSize : Nat
  /-- The firmware, of `board_hw_firmware_size` bytes -/
  firmware : List Byte
  transferSize_pos : 0 < transferSize
  /-- `wLength` has 16 bits. -/
  transferSize_lt : transferSize < 2 ^ 16

structure Vars where
  proto : Proto
  state : DfuState
  error : DfuStatus
  halted : Bool
  /-- `dfu_block` -/
  block : List Byte
  /-- `dfu_upload_size` -/
  uploadSize : Nat
  deriving DecidableEq, Repr

variable (cfg : Config)

/-- `dfu_set_error`, for an error. -/
def dfuSetError (error : DfuStatus) (m : Vars) : Vars :=
  { m with error, halted := true, state := if m.proto = .dfumode then .dfuError else m.state }

/-- `board_hw_firmware_read`. -/
def boardHwFirmwareRead (blknr : Nat) : List Byte := (cfg.firmware.drop (blknr * cfg.transferSize)).take cfg.transferSize

/-- `dfu_proto_init`, with `CONFIG_DFU_DFUMODE`. -/
def dfuProtoInit : Vars where
  proto := .dfumode
  state := .dfuIdle
  error := .ok
  halted := false
  block := []
  uploadSize := cfg.firmware.length % 2 ^ 16

/-- The bytes `val` of the loop in `dfu_upload`. -/
def uploadBytes (blknr length : Nat) : List Byte :=
  (List.range length).map fun i => if i ≠ 0 then BitVec.ofNat 8 i else BitVec.ofNat 8 blknr

/-- `dfu_upload`, for a request of `length` bytes. -/
def dfuUpload (blknr length : Nat) (m : Vars) : Io Vars :=
  if m.proto ≠ .dfumode ∨ m.state ≠ .dfuIdle ∧ m.state ≠ .dfuUploadIdle then .ret (dfuSetError .errStalledpkt m)
  else if cfg.transferSize < length then .ret (dfuSetError .errAddress m)
  else
    let length := if blknr = m.uploadSize / cfg.transferSize then m.uploadSize % cfg.transferSize else length
    .handled fun handled =>
      let m := if handled = 0 then { m with block := boardHwFirmwareRead cfg blknr } else m
      (uploadBytes blknr length).foldr .inb <|
      .handled fun handled =>
        .ret <| if handled = length then
            { m with state := if length = cfg.transferSize then .dfuUploadIdle else .dfuIdle }
          else m

end Sdfirm.Dfu
