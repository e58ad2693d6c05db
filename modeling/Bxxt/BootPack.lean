import Bxxt.Directory

/-! Packing: `bxxt_boot_pack_all`. The image grows in a buffer, one aligned section
after the other; the sizes are stored in its header as they become known. -/

namespace Bxxt
open ByteLayout

/-- An `int` widened to `size_t`. -/
def intToSize (value : UInt32) : Nat := if value.toNat < 2 ^ 31 then value.toNat else value.toNat + (2 ^ 64 - 2 ^ 32)

/-- A store through `(struct boot_img_hdr*)img->ptr`. -/
def storeHdr (img : Option Bytes) (change : BootImgHdr → BootImgHdr) : Exec (Option Bytes) :=
  match img with
  | none => .error .nullPointer
  | some memory =>
    if BootImgHdr.size ≤ memory.length then
      .ok (some ((change (BootImgHdr.ofBytes memory)).bytes ++ memory.drop BootImgHdr.size))
    else .error .outOfBounds

def padData (img : Option Bytes) (buffer : Bytes) (pageSize : Nat) : Exec (Option Bytes) := do
  let grown ← bxxtBufferConcatFromData img buffer
  bxxtBufferAlign grown pageSize

/-- A section behind the image, its size in the header first. -/
def appendSection (img : Option Bytes) (pageSize : Nat) (store : UInt32 → BootImgHdr → BootImgHdr) (tmp : Bytes) :
    Exec (Option Bytes) := do
  let img ← storeHdr img (store (UInt32.ofNat tmp.length))
  padData img tmp pageSize

def appendFile (img : Option Bytes) (pageSize : Nat) (store : UInt32 → BootImgHdr → BootImgHdr)
    (file : Option Bytes) :
    Exec (Option Bytes) :=
  if 0 < (file.getD []).length then do
    let tmp ← bxxtBootReadFrom file
    appendSection img pageSize store tmp
  else .ok img

/-- The data behind the last section, which no size in the header tells of. -/
def appendUnknown (opts : Options) (img : Option Bytes) (pageSize : Nat) (file : Option Bytes) : Exec (Option Bytes) :=
  if opts.skipUnknownData = false ∧ 0 < (file.getD []).length then do
    let tmp ← bxxtBootReadFrom file
    padData img tmp pageSize
  else .ok img

def storeKernelSize (size : UInt32) (hdr : BootImgHdr) : BootImgHdr := { hdr with kernelSize := size }
def storeRamdiskSize (size : UInt32) (hdr : BootImgHdr) : BootImgHdr := { hdr with ramdiskSize := size }
def storeSecondSize (size : UInt32) (hdr : BootImgHdr) : BootImgHdr := { hdr with secondSize := size }
def storeRecoveryDtboSize (size : UInt32) (hdr : BootImgHdr) : BootImgHdr := { hdr with recoveryDtboSize := size }
def storeDtbSize (size : UInt32) (hdr : BootImgHdr) : BootImgHdr := { hdr with dtbSize := size }

section Pack
variable {Source Tree : Type} (lib : Libraries Source Tree) (opts : Options) (dir : Dir Source Tree)

/-- The kernel section: the compressed kernel and the compiled `kernel.dts-` files.
Without a kernel there is none. -/
def packKernel (compression : UInt32) : Exec (Option Bytes) := do
  match ← bxxtBootCompressFromFile lib dir.kernel compression with
  | none => return none
  | some tmp =>
    let dt ← bxxtBootCompileFs2blob lib dir.kernelDts
    let kernel ← bxxtBufferConcatFromData (some tmp) dt
    return some kernel

theorem packKernel_iff {compression : UInt32} {result : Option Bytes} :
    packKernel lib dir compression = .ok result ↔
      match result with
      | none => bxxtBootCompressFromFile lib dir.kernel compression = .ok none
      | some kernel => ∃ tmp dt, bxxtBootCompressFromFile lib dir.kernel compression = .ok (some tmp) ∧
          bxxtBootCompileFs2blob lib dir.kernelDts = .ok dt ∧ dt.length < 2 ^ 31 ∧ kernel = tmp ++ dt := by
  rw [packKernel, Exec.bind_eq_ok]
  constructor
  · intro ⟨compressed, ran, rest⟩
    cases compressed with
    | none => cases rest; exact ran
    | some tmp =>
      obtain ⟨dt, compiled, rest⟩ := Exec.bind_eq_ok.mp rest
      obtain ⟨kernel, appended, rest⟩ := Exec.bind_eq_ok.mp rest
      obtain ⟨short, rfl⟩ := bxxtBufferConcatFromData_iff.mp appended
      cases rest
      exact ⟨tmp, dt, ran, compiled, short, rfl⟩
  · intro ran
    cases result with
    | none => exact ⟨none, ran, rfl⟩
    | some kernel =>
      obtain ⟨tmp, dt, compressed, compiled, short, rfl⟩ := ran
      refine ⟨some tmp, compressed, ?_⟩
      refine Exec.bind_eq_ok.mpr ⟨dt, compiled, ?_⟩
      exact Exec.bind_eq_ok.mpr ⟨_, bxxtBufferConcatFromData_iff.mpr ⟨short, rfl⟩, rfl⟩

/-- Where METADATA does not say how the kernel is compressed it is gzip. -/
def packCompression : Exec UInt32 := do
  let scanned ← bxxtBootScanMetadata dir.metadata (metaKey "kernel_compression") scanXint
  return scanned.getD KernelCompression.gzip.code

/-- Packing up to the second stage loader: the page size as it is passed on, and the
image so far. A run that stops here has no result. -/
def packFront : OptionT Exec (Nat × Option Bytes) := do
  let hdr ← bxxtBootHdrFromMetadata dir.metadata
  let compression ← OptionT.lift (packCompression dir)
  let pageSize := intToSize hdr.pageSize
  let img ← OptionT.lift (bxxtBufferAlign hdr.bytes pageSize)
  let kernel ← OptionT.mk (packKernel lib dir compression)
  let img ← OptionT.lift (appendSection img pageSize storeKernelSize kernel)
  let tree ← OptionT.mk (.ok dir.ramdisk)
  let img ← OptionT.lift (appendSection img pageSize storeRamdiskSize (lib.bxxtCpioArchiveOut tree))
  let img ← OptionT.lift (appendFile img pageSize storeSecondSize dir.second)
  return (pageSize, img)

def packBack (front : Nat × Option Bytes) : Exec (Option Bytes) := do
  let (pageSize, img) := front
  let img ← appendFile img pageSize storeRecoveryDtboSize dir.recoveryDtbo
  let tmp ← bxxtBootCompileFs2blob lib dir.dts
  let img ← appendSection img pageSize storeDtbSize tmp
  appendUnknown opts img pageSize dir.extraData

def packImage : OptionT Exec (Option Bytes) := do
  let front ← packFront lib dir
  OptionT.lift (packBack lib opts dir front)

/-- What happens between the check and the write: the image is parsed, its result
dropped, and the digest stored through the parsed pointer. -/
def packSign (img : Option Bytes) : Exec Bytes := do
  match img with
  | none => throw .nullPointer
  | some memory =>
    let (_, boot) ← bxxtBootInit1 lib.sha1 opts bxxtBootNew (Region.ofBuffer memory) memory.length false
    let sha1 ← bxxtBootImgSignature lib.sha1 boot
    match boot.mm with
    | none => throw .nullPointer
    | some _ =>
      match ← storeHdr (some memory) fun hdr => { hdr with id := sha1 } with
      | none => throw .nullPointer
      | some signed => return signed

/-- `bxxt_boot_pack_all`: the result, and the image file where it was touched. -/
def bxxtBootPackAll (writable : Bool) : Exec (Int × Option Bytes) := do
  match ← (packImage lib opts dir).run with
  | none => return (bxxtFailed, none)
  | some img =>
    let signed ← packSign lib opts img
    return bxxtBootWriteTo (Region.ofBuffer signed) 0 signed.length writable

end Pack
end Bxxt
