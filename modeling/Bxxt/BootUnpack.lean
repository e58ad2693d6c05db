import Bxxt.Directory

/-! Unpacking: `bxxt_boot_unpack_all`. -/

namespace Bxxt
open ByteLayout

section Unpack
variable {Source Tree : Type} (lib : Libraries Source Tree) (opts : Options)

/-- A section that goes to a file as it is, if it has any bytes. -/
def unpackSection (b : Boot) (addr : Nat) (size : UInt32) (old : Option Bytes) : Exec (Option Bytes) :=
  if size = 0 then .ok old
  else match b.mm with
    | none => .error .nullPointer
    | some ptr => .ok (bxxtBootWriteTo ptr addr size.toNat true).2

/-- The part of `bxxt_boot_unpack_all` behind an accepted image. METADATA was
truncated before and is written last. -/
def bxxtBootUnpackFiles (b : Boot) (dir : Dir Source Tree) : Exec (Dir Source Tree) := do
  let packed ← b.read b.mmKernelPtr b.kernelSize.toNat
  let kernel := bxxtBootDecompressToFile lib packed b.kernelCompression dir.kernel
  let recoveryDtbo ← unpackSection b b.mmRecoveryDtboPtr b.recoveryDtboSize dir.recoveryDtbo
  let second ← unpackSection b b.mmSecondPtr b.secondSize dir.second
  let extraData ← unpackSection b b.mmPadPtr b.padSize dir.extraData
  let kernelDts ← bxxtBootDecompileDt2fs lib b b.kernelDtb 0 dir.kernelDts
  let dts ← bxxtBootDecompileDt2fs lib b b.dtb 0 dir.dts
  let fs ← b.read b.mmRamdiskPtr b.ramdiskSize.toNat
  let tree := dir.ramdisk.getD lib.emptyTree
  let ramdisk := if b.ramdiskSize > 0 then lib.bxxtCpioArchiveIn fs tree else tree
  let metadata ← bxxtBootPrintMetaInfoFile b
  return { metadata := some metadata, kernel := some kernel, recoveryDtbo, second, extraData, kernelDts, dts,
           ramdisk := some ramdisk }

/-- `bxxt_boot_unpack_all` of an image file to a directory, which has to be there. -/
def bxxtBootUnpackAll (name : Option Bytes) (abspath : Option (Dir Source Tree)) :
    Exec (Int × Option (Dir Source Tree)) := do
  match abspath with
  | none => return (bxxtFailed, none)
  | some dir =>
    let dir := { dir with metadata := some [] }
    let (r, b) ← bxxtBootOpenFile lib.sha1 opts bxxtBootNew name
    if r ≠ bxxtSuccess then return (r, some dir)
    let unpacked ← bxxtBootUnpackFiles lib b dir
    return (bxxtSuccess, some unpacked)

end Unpack
end Bxxt
