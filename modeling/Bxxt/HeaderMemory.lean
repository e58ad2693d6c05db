import Bxxt.Metadata
import Bxxt.Lib.FieldStore

/-! The header that is read from METADATA as the bytes it is read into. The conversions store
through pointers into the packed struct, and a string is as long as its line. -/

namespace Bxxt
open ByteLayout TextScan

namespace BootImgHdr

/-! `offsetof` of the fields that METADATA sets, besides the three strings. -/

def kernelAddrOffset : Nat := 12
def ramdiskAddrOffset : Nat := 20
def secondAddrOffset : Nat := 28
def tagsAddrOffset : Nat := 32
def pageSizeOffset : Nat := 36
def headerVersionOffset : Nat := 40
def osVersionOffset : Nat := 44
def recoveryDtboOffsetOffset : Nat := 1636
def headerSizeOffset : Nat := 1644
def dtbAddrOffset : Nat := 1652

end BootImgHdr

/-- A store through a pointer into the struct. Behind it is the caller's frame. -/
def storeAt (hdr : Bytes) (offset : Nat) (data : Bytes) : Exec Bytes :=
  if hdr.length < offset + data.length then .error .stackOverflow else .ok (splice hdr offset data)

def strlenAt (hdr : Bytes) (offset : Nat) : Exec Nat :=
  if 0 ∈ hdr.drop offset then .ok (cString (hdr.drop offset)).length else .error .outOfBounds

/-- `config_string` through a pointer, and the `RETIF` on its length. -/
def configStringInto (file : Option Bytes) (name : String) (offset size : Nat) (hdr : Bytes) : OptionT Exec Bytes :=
  OptionT.mk do
    let hdr ← match ← bxxtBootScanMetadata file (metaKey name) scanLine with
      | none => pure hdr
      | some line => storeAt hdr offset (line ++ [0])
    let length ← strlenAt hdr offset
    if size ≤ length then return none
    return some hdr

/-- `config_xint` through a pointer, and the `RETIF` on its result. The conversion stores an
`unsigned int`. -/
def configXintInto (file : Option Bytes) (name : String) (offset : Nat) (hdr : Bytes) : OptionT Exec Bytes :=
  OptionT.mk do
    match ← bxxtBootScanMetadata file (metaKey name) scanXint with
    | none => return none
    | some value => return some (← storeAt hdr offset (leBytes 4 value.toNat))

/-- `bxxt_boot_hdr_from_metadata`, on the memory of the struct. -/
def bxxtBootHdrFromMetadataInto (file : Option Bytes) : OptionT Exec Bytes := do
  let hdr := List.replicate BootImgHdr.size 0
  let hdr ← configStringInto file "cmdline" BootImgHdr.cmdlineOffset bootArgsSize hdr
  let hdr ← configStringInto file "extra_cmdline" BootImgHdr.extraCmdlineOffset bootExtraArgsSize hdr
  let hdr ← configStringInto file "name" BootImgHdr.nameOffset bootNameSize hdr
  let hdr ← configXintInto file "header_size" BootImgHdr.headerSizeOffset hdr
  let hdr ← configXintInto file "kernel_addr" BootImgHdr.kernelAddrOffset hdr
  let hdr ← configXintInto file "ramdisk_addr" BootImgHdr.ramdiskAddrOffset hdr
  let hdr ← configXintInto file "second_addr" BootImgHdr.secondAddrOffset hdr
  let hdr ← configXintInto file "tags_addr" BootImgHdr.tagsAddrOffset hdr
  let hdr ← configXintInto file "page_size" BootImgHdr.pageSizeOffset hdr
  let hdr ← configXintInto file "header_version" BootImgHdr.headerVersionOffset hdr
  let hdr ← configXintInto file "header_size" BootImgHdr.headerSizeOffset hdr
  let hdr ← configXintInto file "os_version" BootImgHdr.osVersionOffset hdr
  let hdr ← configXintInto file "recovery_dtbo_offset" BootImgHdr.recoveryDtboOffsetOffset hdr
  let hdr ← configXintInto file "dtb_addr" BootImgHdr.dtbAddrOffset hdr
  -- `sizeof(BOOT_MAGIC)` counts the NUL, which goes to the first byte of kernel_size
  OptionT.lift (storeAt hdr 0 (bootMagic.toList ++ [0]))

end Bxxt
