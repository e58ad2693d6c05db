import Bxxt.Memory

/-! The boot image header of `boot.h`: the packed record, its place in an image and
the checks that look at nothing else. -/

namespace Bxxt
open ByteLayout

def ascii (text : String) : Bytes := text.toList.map fun char => UInt8.ofNat char.toNat

def bootMagic : Vector UInt8 8 := ⟨(ascii "ANDROID!").toArray, by decide⟩

def bootNameSize : Nat := 0x10
def bootArgsSize : Nat := 0x200
def bootExtraArgsSize : Nat := 0x400
def bootMaxDtb : Nat := 0xff

/-- `struct boot_img_hdr`. The `id` is kept as its 32 bytes: no code reads it as words. -/
structure BootImgHdr where
  magic : Vector UInt8 8
  kernelSize : UInt32
  kernelAddr : UInt32
  ramdiskSize : UInt32
  ramdiskAddr : UInt32
  secondSize : UInt32
  secondAddr : UInt32
  tagsAddr : UInt32
  pageSize : UInt32
  headerVersion : UInt32
  osVersion : UInt32
  name : Vector UInt8 bootNameSize
  cmdline : Vector UInt8 bootArgsSize
  id : Vector UInt8 32
  extraCmdline : Vector UInt8 bootExtraArgsSize
  recoveryDtboSize : UInt32
  recoveryDtboOffset : UInt64
  headerSize : UInt32
  dtbSize : UInt32
  dtbAddr : UInt64
  deriving DecidableEq

namespace BootImgHdr

abbrev Fields := Vector UInt8 8 ×
  UInt32 × UInt32 × UInt32 × UInt32 × UInt32 × UInt32 × UInt32 × UInt32 × UInt32 × UInt32 ×
  Vector UInt8 bootNameSize × Vector UInt8 bootArgsSize × Vector UInt8 32 × Vector UInt8 bootExtraArgsSize ×
  UInt32 × UInt64 × UInt32 × UInt32 × UInt64

def fields : Fields ≃ BootImgHdr where
  toFun := fun (magic, kernelSize, kernelAddr, ramdiskSize, ramdiskAddr, secondSize, secondAddr, tagsAddr, pageSize,
      headerVersion, osVersion, name, cmdline, id, extraCmdline, recoveryDtboSize, recoveryDtboOffset, headerSize,
      dtbSize, dtbAddr) =>
    { magic, kernelSize, kernelAddr, ramdiskSize, ramdiskAddr, secondSize, secondAddr, tagsAddr, pageSize,
      headerVersion, osVersion, name, cmdline, id, extraCmdline, recoveryDtboSize, recoveryDtboOffset, headerSize,
      dtbSize, dtbAddr }
  invFun hdr := (hdr.magic, hdr.kernelSize, hdr.kernelAddr, hdr.ramdiskSize, hdr.ramdiskAddr, hdr.secondSize,
    hdr.secondAddr, hdr.tagsAddr, hdr.pageSize, hdr.headerVersion, hdr.osVersion, hdr.name, hdr.cmdline, hdr.id,
    hdr.extraCmdline, hdr.recoveryDtboSize, hdr.recoveryDtboOffset, hdr.headerSize, hdr.dtbSize, hdr.dtbAddr)
  left_inv _ := rfl
  right_inv _ := rfl

open Layout in
/-- `__attribute__((packed))`: the fields follow each other without padding. -/
def layout : Layout BootImgHdr :=
  ((byteArray 8).seq <| word32.seq <| word32.seq <| word32.seq <| word32.seq <| word32.seq <| word32.seq <|
    word32.seq <| word32.seq <| word32.seq <| word32.seq <| (byteArray bootNameSize).seq <|
    (byteArray bootArgsSize).seq <| (byteArray 32).seq <| (byteArray bootExtraArgsSize).seq <| word32.seq <|
    word64.seq <| word32.seq <| word32.seq <| word64).via fields

/-- `sizeof(struct boot_img_hdr)`. -/
def size : Nat := 1660

theorem layout_width : layout.width = size := rfl

def bytes (hdr : BootImgHdr) : Bytes := layout.encode hdr

@[simp] theorem length_bytes (hdr : BootImgHdr) : hdr.bytes.length = size := by
  rw [bytes, layout.length_encode, layout_width]

/-- The struct seen through a pointer to memory. -/
def ofBytes (memory : Bytes) : BootImgHdr := layout.decode memory

@[simp] theorem ofBytes_append (hdr : BootImgHdr) (rest : Bytes) : ofBytes (hdr.bytes ++ rest) = hdr :=
  layout.decode_append hdr rest

@[simp] theorem ofBytes_bytes (hdr : BootImgHdr) : ofBytes hdr.bytes = hdr := layout.decode_encode hdr

theorem bytes_ofBytes {memory : Bytes} (enough : size ≤ memory.length) : (ofBytes memory).bytes = memory.take size :=
  layout.encode_decode memory enough

/-- `memset(hdr, 0, sizeof(*hdr))`. -/
def zero : BootImgHdr where
  magic := Vector.replicate _ 0
  kernelSize := 0
  kernelAddr := 0
  ramdiskSize := 0
  ramdiskAddr := 0
  secondSize := 0
  secondAddr := 0
  tagsAddr := 0
  pageSize := 0
  headerVersion := 0
  osVersion := 0
  name := Vector.replicate _ 0
  cmdline := Vector.replicate _ 0
  id := Vector.replicate _ 0
  extraCmdline := Vector.replicate _ 0
  recoveryDtboSize := 0
  recoveryDtboOffset := 0
  headerSize := 0
  dtbSize := 0
  dtbAddr := 0

def nameOffset : Nat := 48
def cmdlineOffset : Nat := 64
def extraCmdlineOffset : Nat := 608

theorem bytes_magic (hdr : BootImgHdr) : ∃ rest, hdr.bytes = hdr.magic.toList ++ rest := ⟨_, rfl⟩

section Offsets
open Layout

/-- The magic and the ten words before the strings, and `count` bytes more. -/
private theorem strings_place (hdr : BootImgHdr) (count : Nat) :
    hdr.bytes.drop (nameOffset + count) =
      ((byteArray bootNameSize).encode hdr.name ++ ((byteArray bootArgsSize).encode hdr.cmdline ++
        ((byteArray 32).encode hdr.id ++ ((byteArray bootExtraArgsSize).encode hdr.extraCmdline ++
          (word32.seq (word64.seq (word32.seq (word32.seq word64)))).encode
            (hdr.recoveryDtboSize, hdr.recoveryDtboOffset, hdr.headerSize, hdr.dtbSize, hdr.dtbAddr))))).drop
              count := by
  have place : nameOffset + count = (byteArray 8).width + (word32.width + (word32.width + (word32.width +
      (word32.width + (word32.width + (word32.width + (word32.width + (word32.width + (word32.width +
        (word32.width + count)))))))))) := by
    change 48 + count = 8 + (4 + (4 + (4 + (4 + (4 + (4 + (4 + (4 + (4 + (4 + count))))))))))
    omega
  simp only [place, bytes, layout, via_encode, seq_encode, drop_encode]
  rfl

theorem drop_name (hdr : BootImgHdr) : ∃ rest, hdr.bytes.drop nameOffset = hdr.name.toList ++ rest :=
  ⟨_, strings_place hdr 0⟩

theorem drop_cmdline (hdr : BootImgHdr) : ∃ rest, hdr.bytes.drop cmdlineOffset = hdr.cmdline.toList ++ rest := by
  have place := strings_place hdr ((byteArray bootNameSize).width + 0)
  rw [drop_encode] at place
  exact ⟨_, place⟩

theorem drop_extraCmdline (hdr : BootImgHdr) :
    ∃ rest, hdr.bytes.drop extraCmdlineOffset = hdr.extraCmdline.toList ++ rest := by
  have place := strings_place hdr
    ((byteArray bootNameSize).width + ((byteArray bootArgsSize).width + ((byteArray 32).width + 0)))
  rw [drop_encode, drop_encode, drop_encode] at place
  exact ⟨_, place⟩

end Offsets

end BootImgHdr

def bxxtBootImgVersionCheck (hdr : BootImgHdr) : Int :=
  if hdr.magic ≠ bootMagic then bxxtFailed
  else if hdr.headerVersion ≤ 2 then bxxtSuccess
  else bxxtFailed

def bxxtBootImgBaseCheck (hdr : BootImgHdr) : Int :=
  if hdr.pageSize = 0 then bxxtFailed
  else if hdr.kernelSize = 0 then bxxtFailed
  else if hdr.ramdiskSize > 0x4000000 then bxxtFailed
  else if hdr.kernelSize > 0x4000000 then bxxtFailed
  else if hdr.pageSize > 0xffff then bxxtFailed
  else bxxtSuccess

/-- The limits the base check enforces, over the integers. -/
structure BaseLimits (hdr : BootImgHdr) : Prop where
  page : 0 < hdr.pageSize.toNat
  page_le : hdr.pageSize.toNat ≤ 0xffff
  kernel : 0 < hdr.kernelSize.toNat
  kernel_le : hdr.kernelSize.toNat ≤ 0x4000000
  ramdisk_le : hdr.ramdiskSize.toNat ≤ 0x4000000

structure Supported (hdr : BootImgHdr) : Prop where
  magic : hdr.magic = bootMagic
  version : hdr.headerVersion.toNat ≤ 2

theorem bxxtBootImgVersionCheck_cases (hdr : BootImgHdr) :
    bxxtBootImgVersionCheck hdr = bxxtSuccess ∨ bxxtBootImgVersionCheck hdr = bxxtFailed := by
  unfold bxxtBootImgVersionCheck
  split
  · exact Or.inr rfl
  · split
    · exact Or.inl rfl
    · exact Or.inr rfl

theorem bxxtBootImgVersionCheck_iff (hdr : BootImgHdr) :
    bxxtBootImgVersionCheck hdr = bxxtSuccess ↔ Supported hdr := by
  have failed : bxxtFailed ≠ bxxtSuccess := by decide
  unfold bxxtBootImgVersionCheck
  split
  next other => exact ⟨fun same => absurd same failed, fun supported => absurd supported.magic other⟩
  next magic =>
    split
    next known => exact ⟨fun _ => ⟨not_not.mp magic, UInt32.le_iff_toNat_le.mp known⟩, fun _ => rfl⟩
    next unknown =>
      exact ⟨fun same => absurd same failed, fun supported =>
        absurd (UInt32.le_iff_toNat_le.mpr supported.version) unknown⟩

theorem bxxtBootImgBaseCheck_cases (hdr : BootImgHdr) :
    bxxtBootImgBaseCheck hdr = bxxtSuccess ∨ bxxtBootImgBaseCheck hdr = bxxtFailed := by
  unfold bxxtBootImgBaseCheck
  repeat' split
  all_goals simp

theorem bxxtBootImgBaseCheck_iff (hdr : BootImgHdr) : bxxtBootImgBaseCheck hdr = bxxtSuccess ↔ BaseLimits hdr := by
  have failed : bxxtFailed ≠ bxxtSuccess := by decide
  have limits : BaseLimits hdr ↔ hdr.pageSize ≠ 0 ∧ hdr.kernelSize ≠ 0 ∧ ¬ hdr.ramdiskSize > 0x4000000 ∧
      ¬ hdr.kernelSize > 0x4000000 ∧ ¬ hdr.pageSize > 0xffff := by
    simp only [ne_eq, ← UInt32.toNat_inj, gt_iff_lt, UInt32.lt_iff_toNat_lt, UInt32.reduceToNat]
    constructor
    · intro ⟨_, _, _, _, _⟩
      omega
    · intro ⟨_, _, _, _, _⟩
      constructor <;> omega
  rw [limits, bxxtBootImgBaseCheck]
  split
  next zero => simp [zero, failed]
  next =>
    split
    next zero => simp [zero, failed]
    next =>
      split
      next large => simp [large, failed]
      next =>
        split
        next large => simp [large, failed]
        next =>
          split
          next large => simp [large, failed]
          next => simp_all

end Bxxt
