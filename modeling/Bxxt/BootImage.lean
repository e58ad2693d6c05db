import Bxxt.DtbScan

/-! Reading a boot image: `bxxt_boot_init1` and what it calls. Pointers into the
image are offsets from its first byte. SHA-1 is any function of the bytes that
were fed to it. -/

namespace Bxxt
open ByteLayout

/-- `KERNEL_COMPRESSION_*`. -/
inductive KernelCompression where
  | none
  | gzip
  | bzip2
  | lzma
  | xz
  | lz4
  deriving DecidableEq, Repr

def KernelCompression.code : KernelCompression → UInt32
  | .none => 0
  | .gzip => 1
  | .bzip2 => 2
  | .lzma => 3
  | .xz => 4
  | .lz4 => 5

/-- The two global flags that the command line sets: `-n` and `-e skip-unknown-data`. -/
structure Options where
  forceNoCompatCheck : Bool
  skipUnknownData : Bool

/-- `bxxt_boot_t`. The counts of the two tables are their lengths. -/
@[ext] structure Boot where
  hdr : BootImgHdr
  kernelDtb : List BxxtDtb
  dtb : List BxxtDtb
  mm : Option Region
  version : UInt32
  pageSize : UInt32
  kernelCompression : KernelCompression
  kernelSize : UInt32
  mmKernelPtr : Nat
  ramdiskSize : UInt32
  mmRamdiskPtr : Nat
  secondSize : UInt32
  mmSecondPtr : Nat
  recoveryDtboSize : UInt32
  mmRecoveryDtboPtr : Nat
  dtbSize : UInt32
  mmDtbPtr : Nat
  padSize : UInt32
  mmPadPtr : Nat

def bxxtBootNew : Boot where
  hdr := BootImgHdr.zero
  kernelDtb := []
  dtb := []
  mm := none
  version := 0
  pageSize := 0
  kernelCompression := .none
  kernelSize := 0
  mmKernelPtr := 0
  ramdiskSize := 0
  mmRamdiskPtr := 0
  secondSize := 0
  mmSecondPtr := 0
  recoveryDtboSize := 0
  mmRecoveryDtboPtr := 0
  dtbSize := 0
  mmDtbPtr := 0
  padSize := 0
  mmPadPtr := 0

def Boot.image (b : Boot) : Exec Region :=
  match b.mm with
  | some ptr => .ok ptr
  | none => .error .nullPointer

def Boot.read (b : Boot) (addr count : Nat) : Exec Bytes :=
  match b.mm with
  | some ptr => ptr.slice addr count
  | none => if count = 0 then .ok [] else .error .nullPointer

def bxxtBootDetectKernelCompression (b : Boot) : Exec KernelCompression := do
  let half ← b.read b.mmKernelPtr 2
  if leValue half = 0x8b1f ∨ leValue half = 0x9e1f then return .gzip
  if leValue half = 0x005d then return .lzma
  return .none

theorem bxxtBootDetectKernelCompression_total {b : Boot} {half : Bytes} (read : b.read b.mmKernelPtr 2 = .ok half) :
    ∃ kernelCompression, bxxtBootDetectKernelCompression b = .ok kernelCompression := by
  rw [bxxtBootDetectKernelCompression, read, Exec.ok_bind]
  split
  · exact ⟨_, rfl⟩
  · split <;> exact ⟨_, rfl⟩

/-- The macro `B_ps`: rounding up in 32-bit arithmetic. -/
def bPs (ps bs : UInt32) : UInt32 := (bs + ps - 1) / ps * ps

namespace Boot
variable (b : Boot)

def bKEo : UInt32 := b.pageSize
def bRAo : UInt32 := b.bKEo + bPs b.pageSize b.kernelSize
def bSEo : UInt32 := b.bRAo + bPs b.pageSize b.ramdiskSize
def bREo : UInt32 := b.bSEo + bPs b.pageSize b.secondSize
def bDTo : UInt32 := b.bREo + bPs b.pageSize b.recoveryDtboSize
def bPADo : UInt32 := b.bDTo + bPs b.pageSize b.dtbSize

end Boot

/-- The loop `while (ts && mm_pad_ptr[ts] == 0) ts -= 1`, over the address that
`ts` selects. A negative `ts` selects bytes before the pad region. -/
def trimPad (ptr : Region) (mmPadPtr : Nat) : Nat → Exec Int
  | 0 =>
    if 0 = mmPadPtr then .ok 0
    else do
      let byte ← ptr.load 0
      if byte ≠ 0 then return -(mmPadPtr : Int)
      throw .outOfBounds
  | addr + 1 =>
    if addr + 1 = mmPadPtr then .ok 0
    else do
      let byte ← ptr.load (addr + 1)
      if byte ≠ 0 then return (addr + 1 : Nat) - (mmPadPtr : Int)
      if (addr : Int) - mmPadPtr < -2 ^ 31 then throw .intOverflow
      trimPad ptr mmPadPtr addr

def asUInt32 (value : Int) : UInt32 := UInt32.ofNat (value % 2 ^ 32).toNat

def trimFrom (ptr : Region) (mmPadPtr : Nat) (start : Int) (padSize : UInt32) : Exec UInt32 :=
  if start < 0 then .error .outOfBounds
  else (trimPad ptr mmPadPtr start.toNat).map fun ts => if padSize ≠ 0 then asUInt32 ts else padSize

/-- The trimming of trailing zero bytes. Its index is `pad_size - 1` as an `int32_t`. -/
def trimmedPadSize (ptr : Region) (mmPadPtr : Nat) (padSize : UInt32) : Exec UInt32 :=
  trimFrom ptr mmPadPtr (mmPadPtr + asInt (padSize - 1).toNat) padSize

/-- What `bxxt_boot_init1` takes over from the header, and where the kernel is. -/
def initSizes (b : Boot) (ptr : Region) : Boot :=
  let b := { b with
    mm := some ptr
    pageSize := b.hdr.pageSize
    version := b.hdr.headerVersion
    kernelSize := b.hdr.kernelSize
    ramdiskSize := b.hdr.ramdiskSize
    secondSize := b.hdr.secondSize
    recoveryDtboSize := b.hdr.recoveryDtboSize
    dtbSize := b.hdr.dtbSize }
  { b with mmKernelPtr := b.bKEo.toNat }

/-- The pointers behind the kernel, and the pad region up to the end of the image. -/
def initPointers (b : Boot) (size : Nat) : Boot :=
  { b with
    mmRamdiskPtr := b.bRAo.toNat
    mmSecondPtr := b.bSEo.toNat
    mmRecoveryDtboPtr := b.bREo.toNat
    mmDtbPtr := b.bDTo.toNat
    padSize := asUInt32 (size - b.bPADo.toNat)
    mmPadPtr := b.bPADo.toNat }

/-- The part of `bxxt_boot_init1` between the two checks of the header. -/
def bxxtBootInit1Layout (b : Boot) (ptr : Region) (size : Nat) : Exec Boot := do
  let b := initSizes b ptr
  let kernelCompression ← bxxtBootDetectKernelCompression b
  -- B_RA_o is the first offset that divides by the page size
  if b.pageSize = 0 then throw .divideByZero
  let b := initPointers { b with kernelCompression } size
  let padSize ← trimmedPadSize ptr b.mmPadPtr b.padSize
  return { b with padSize }

/-- A section that is hashed only where it has any bytes. -/
def hashOptional (b : Boot) (addr : Nat) (size : UInt32) : Exec Bytes :=
  if size > 0 then b.read addr size.toNat else .ok []

/-- A section that images up to `version` do not have, and its size. -/
def hashSince (b : Boot) (version : UInt32) (addr : Nat) (size : UInt32) : Exec Bytes :=
  if b.version > version then (hashOptional b addr size).map (· ++ leBytes 4 size.toNat) else .ok []

/-- What `bxxt_boot_img_signature` feeds to SHA-1. -/
def bxxtBootImgMessage (b : Boot) : Exec Bytes := do
  let kernel ← b.read b.mmKernelPtr b.kernelSize.toNat
  let ramdisk ← b.read b.mmRamdiskPtr b.ramdiskSize.toNat
  let second ← hashOptional b b.mmSecondPtr b.secondSize
  let recoveryDtbo ← hashSince b 0 b.mmRecoveryDtboPtr b.recoveryDtboSize
  let dtb ← hashSince b 1 b.mmDtbPtr b.dtbSize
  return kernel ++ leBytes 4 b.kernelSize.toNat ++ ramdisk ++ leBytes 4 b.ramdiskSize.toNat ++
    second ++ leBytes 4 b.secondSize.toNat ++ recoveryDtbo ++ dtb

/-- The digest in the 32 bytes of the static buffer, which was cleared before. -/
def signatureBytes (digest : Vector UInt8 20) : Vector UInt8 32 :=
  digest ++ Vector.replicate 12 (0 : UInt8)

theorem signatureBytes_toList (digest : Vector UInt8 20) :
    (signatureBytes digest).toList = digest.toList ++ List.replicate 12 0 := by
  simp only [signatureBytes, Vector.toList, Vector.toArray_append, Array.toList_append, Vector.toArray_replicate,
    Array.toList_replicate]

section Reader
variable (sha1 : Bytes → Vector UInt8 20) (opts : Options)

def bxxtBootImgSignature (b : Boot) : Exec (Vector UInt8 32) := do
  let message ← bxxtBootImgMessage b
  return signatureBytes (sha1 message)

/-- `bxxt_boot_img_compat_check`. The digests are compared as two `uint64_t`. -/
def bxxtBootImgCompatCheck (b : Boot) : Exec Int := do
  if opts.forceNoCompatCheck then return bxxtSuccess
  let sha1sum ← bxxtBootImgSignature sha1 b
  if sha1sum.toList.take 8 = b.hdr.id.toList.take 8 then return bxxtSuccess
  return bxxtFailed

def initCheck (b : Boot) (check : Bool) : Exec Int :=
  if check then bxxtBootImgCompatCheck sha1 opts b else .ok bxxtSuccess

/-- The checks and the two searches at the end of `bxxt_boot_init1`. -/
def bxxtBootInit1Finish (b : Boot) (check : Bool) : Exec (Int × Boot) := do
  if bxxtBootImgBaseCheck b.hdr = bxxtFailed then return (bxxtFailed, b)
  let compatible ← initCheck sha1 opts b check
  if compatible = bxxtFailed then return (bxxtFailed, b)
  let ptr ← b.image
  let kernelDtb ← bxxtBootParseDtbSections ptr b.mmKernelPtr b.kernelSize.toNat
  let b := { b with kernelDtb }
  let dtb ← bxxtBootParseDtbSections ptr b.mmDtbPtr b.dtbSize.toNat
  return (bxxtSuccess, { b with dtb })

def bxxtBootInit1 (b : Boot) (ptr : Region) (size : Nat) (check : Bool) : Exec (Int × Boot) := do
  let hdrBytes ← ptr.slice 0 BootImgHdr.size
  let b := { b with hdr := BootImgHdr.ofBytes hdrBytes }
  if bxxtBootImgVersionCheck b.hdr = bxxtFailed then return (bxxtFailed, b)
  let b ← bxxtBootInit1Layout b ptr size
  bxxtBootInit1Finish sha1 opts b check

/-- `bxxt_boot_open_file`, on the content of the file. -/
def bxxtBootOpenFile (b : Boot) (file : Option Bytes) : Exec (Int × Boot) := do
  match bxxtFileOpenMm file with
  | none => return (bxxtFailed, b)
  | some image =>
    let (r, b) ← bxxtBootInit1 sha1 opts b image image.bytes.length opts.forceNoCompatCheck
    if r ≠ bxxtSuccess then return (bxxtFailed, b)
    return (bxxtSuccess, b)

end Reader
end Bxxt
