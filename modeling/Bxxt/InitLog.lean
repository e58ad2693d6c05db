import Bxxt.BootImage
import Bxxt.Lib.EventLog

/-! `bxxt_boot_init1` with a log of what it does with the header: the divisions of the layout
macros, the reads through section pointers and the device trees that are recorded. -/

namespace Bxxt
open ByteLayout EventLog

inductive InitEvent where
  | divided (divisor : UInt32)
  | sectionRead (addr : Int) (count : Nat)
  | recorded (entry : BxxtDtb)
  deriving DecidableEq

abbrev InitRun := Logged Fault InitEvent

section Reads
variable (ptr : Region) (b : Boot)

def sliceLogged (addr count : Nat) : InitRun Bytes :=
  if count = 0 then pure []
  else do
    emit (.sectionRead addr count)
    quiet (ptr.slice addr count)

def Boot.readLogged (addr count : Nat) : InitRun Bytes :=
  if count = 0 then pure []
  else do
    emit (.sectionRead addr count)
    quiet (b.read addr count)

def loadLogged (addr : Nat) : InitRun UInt8 := do
  emit (.sectionRead addr 1)
  quiet (ptr.load addr)

def bxxtBootDetectKernelCompressionLogged : InitRun KernelCompression := do
  let half ← b.readLogged b.mmKernelPtr 2
  if leValue half = 0x8b1f ∨ leValue half = 0x9e1f then return .gzip
  if leValue half = 0x005d then return .lzma
  return .none

def bPsLogged (ps bs : UInt32) : InitRun UInt32 := do
  emit (.divided ps)
  if ps = 0 then quiet (.error .divideByZero)
  else return bPs ps bs

/-- The page of the header and the pages of these sections: the macros `B_RA_o` to `B_PAD_o`. -/
def offsetLogged (ps : UInt32) (sizes : List UInt32) : InitRun UInt32 :=
  sizes.foldlM (fun offset bs => do return offset + (← bPsLogged ps bs)) ps

def initPointersLogged (size : Nat) : InitRun Boot := do
  let mmRamdiskPtr ← offsetLogged b.pageSize [b.kernelSize]
  let mmSecondPtr ← offsetLogged b.pageSize [b.kernelSize, b.ramdiskSize]
  let mmRecoveryDtboPtr ← offsetLogged b.pageSize [b.kernelSize, b.ramdiskSize, b.secondSize]
  let mmDtbPtr ← offsetLogged b.pageSize [b.kernelSize, b.ramdiskSize, b.secondSize, b.recoveryDtboSize]
  let bPADo ← offsetLogged b.pageSize [b.kernelSize, b.ramdiskSize, b.secondSize, b.recoveryDtboSize, b.dtbSize]
  let mmPadPtr ← offsetLogged b.pageSize [b.kernelSize, b.ramdiskSize, b.secondSize, b.recoveryDtboSize, b.dtbSize]
  return { b with
    mmRamdiskPtr := mmRamdiskPtr.toNat
    mmSecondPtr := mmSecondPtr.toNat
    mmRecoveryDtboPtr := mmRecoveryDtboPtr.toNat
    mmDtbPtr := mmDtbPtr.toNat
    padSize := asUInt32 (size - bPADo.toNat)
    mmPadPtr := mmPadPtr.toNat }

def trimPadLogged (mmPadPtr : Nat) : Nat → InitRun Int
  | 0 =>
    if 0 = mmPadPtr then pure 0
    else do
      let byte ← loadLogged ptr 0
      if byte ≠ 0 then return -(mmPadPtr : Int)
      emit (.sectionRead (-1) 1)
      quiet (.error .outOfBounds)
  | addr + 1 =>
    if addr + 1 = mmPadPtr then pure 0
    else do
      let byte ← loadLogged ptr (addr + 1)
      if byte ≠ 0 then return (addr + 1 : Nat) - (mmPadPtr : Int)
      if (addr : Int) - mmPadPtr < -2 ^ 31 then quiet (.error .intOverflow)
      else trimPadLogged mmPadPtr addr

def trimFromLogged (mmPadPtr : Nat) (start : Int) (padSize : UInt32) : InitRun UInt32 :=
  if start < 0 then do
    emit (.sectionRead start 1)
    quiet (.error .outOfBounds)
  else do
    let ts ← trimPadLogged ptr mmPadPtr start.toNat
    return if padSize ≠ 0 then asUInt32 ts else padSize

def trimmedPadSizeLogged (mmPadPtr : Nat) (padSize : UInt32) : InitRun UInt32 :=
  trimFromLogged ptr mmPadPtr (mmPadPtr + asInt (padSize - 1).toNat) padSize

def bxxtBootInit1LayoutLogged (size : Nat) : InitRun Boot := do
  let b := initSizes b ptr
  let kernelCompression ← bxxtBootDetectKernelCompressionLogged b
  let b ← initPointersLogged { b with kernelCompression } size
  let padSize ← trimmedPadSizeLogged ptr b.mmPadPtr b.padSize
  return { b with padSize }

def memmemLogged (needle : Bytes) : Nat → Nat → InitRun (Option Nat)
  | _, 0 => pure none
  | addr, candidates + 1 => do
    let window ← sliceLogged ptr addr needle.length
    if window = needle then return some addr
    else memmemLogged needle (addr + 1) candidates

def dtbStepLogged (finish base : Nat) : InitRun (Option (BxxtDtb × Nat)) := do
  let size := remaining finish base
  if size = 0 then return none
  else
    match ← memmemLogged ptr fdtMagic base (size + 1 - fdtMagic.length) with
    | none => return none
    | some knldtbPtr =>
      let totalsize ← sliceLogged ptr (knldtbPtr + 4) 4
      let _version ← sliceLogged ptr (knldtbPtr + 20) 4
      return some (⟨knldtbPtr, beValue totalsize⟩, knldtbPtr + beValue totalsize)

def dtbLoopLogged (finish : Nat) : Nat → Nat → InitRun (List BxxtDtb)
  | 0, base => do
    match ← dtbStepLogged ptr finish base with
    | none => return []
    | some (entry, _) =>
      -- the entry behind the last one of the table
      emit (.recorded entry)
      quiet (.error .tableOverflow)
  | room + 1, base => do
    match ← dtbStepLogged ptr finish base with
    | none => return []
    | some (entry, next) =>
      emit (.recorded entry)
      return entry :: (← dtbLoopLogged finish room next)

def bxxtBootParseDtbSectionsLogged (mm total : Nat) : InitRun (List BxxtDtb) :=
  dtbLoopLogged ptr (mm + total) bootMaxDtb mm

def hashOptionalLogged (addr : Nat) (size : UInt32) : InitRun Bytes :=
  if size > 0 then b.readLogged addr size.toNat else pure []

def hashSinceLogged (version : UInt32) (addr : Nat) (size : UInt32) : InitRun Bytes :=
  if b.version > version then do return (← hashOptionalLogged b addr size) ++ leBytes 4 size.toNat else pure []

def bxxtBootImgMessageLogged : InitRun Bytes := do
  let kernel ← b.readLogged b.mmKernelPtr b.kernelSize.toNat
  let ramdisk ← b.readLogged b.mmRamdiskPtr b.ramdiskSize.toNat
  let second ← hashOptionalLogged b b.mmSecondPtr b.secondSize
  let recoveryDtbo ← hashSinceLogged b 0 b.mmRecoveryDtboPtr b.recoveryDtboSize
  let dtb ← hashSinceLogged b 1 b.mmDtbPtr b.dtbSize
  return kernel ++ leBytes 4 b.kernelSize.toNat ++ ramdisk ++ leBytes 4 b.ramdiskSize.toNat ++
    second ++ leBytes 4 b.secondSize.toNat ++ recoveryDtbo ++ dtb

end Reads

section Reader
variable (sha1 : Bytes → Vector UInt8 20) (opts : Options)

def bxxtBootImgCompatCheckLogged (b : Boot) : InitRun Int :=
  if opts.forceNoCompatCheck then return bxxtSuccess
  else do
    let message ← bxxtBootImgMessageLogged b
    return if (signatureBytes (sha1 message)).toList.take 8 = b.hdr.id.toList.take 8 then bxxtSuccess else bxxtFailed

def initCheckLogged (b : Boot) (check : Bool) : InitRun Int :=
  if check then bxxtBootImgCompatCheckLogged sha1 opts b else pure bxxtSuccess

def bxxtBootInit1FinishLogged (b : Boot) (check : Bool) : InitRun (Int × Boot) :=
  if bxxtBootImgBaseCheck b.hdr = bxxtFailed then return (bxxtFailed, b)
  else do
    let compatible ← initCheckLogged sha1 opts b check
    if compatible = bxxtFailed then return (bxxtFailed, b)
    else
      let ptr ← quiet b.image
      let kernelDtb ← bxxtBootParseDtbSectionsLogged ptr b.mmKernelPtr b.kernelSize.toNat
      let b := { b with kernelDtb }
      let dtb ← bxxtBootParseDtbSectionsLogged ptr b.mmDtbPtr b.dtbSize.toNat
      return (bxxtSuccess, { b with dtb })

def bxxtBootInit1Logged (b : Boot) (ptr : Region) (size : Nat) (check : Bool) : InitRun (Int × Boot) := do
  let hdrBytes ← quiet (ptr.slice 0 BootImgHdr.size)
  let b := { b with hdr := BootImgHdr.ofBytes hdrBytes }
  if bxxtBootImgVersionCheck b.hdr = bxxtFailed then return (bxxtFailed, b)
  else
    let b ← bxxtBootInit1LayoutLogged ptr b size
    bxxtBootInit1FinishLogged sha1 opts b check

end Reader
end Bxxt
