import Bxxt.BootImage
import Bxxt.Lib.KeyedLines

/-! The METADATA file: how an unpacked image's header is printed, and how a header
is read back from the text. The reader looks for every key with `strstr`, anywhere
in the file. -/

namespace Bxxt
open ByteLayout KeyedLines TextScan

/-- The text before a value: `bxxt.` and the name of the field, up to the equals sign. -/
def metaKey (name : String) : Bytes := ascii "bxxt." ++ ascii name ++ ascii "="

def cString (memory : Bytes) : Bytes := memory.takeWhile (· ≠ 0)

/-- What `%s` prints for a field of the header. Without a NUL inside the field it
runs on through the struct and ends in the cleared memory behind it. -/
def hdrString (hdr : BootImgHdr) (offset : Nat) : Bytes := cString ((hdr.bytes ++ [0]).drop offset)

def metaEntries (b : Boot) (kernelCompression : KernelCompression) : List (Bytes × Bytes) :=
  [(metaKey "kernel_addr", hexText b.hdr.kernelAddr.toNat),
    (metaKey "ramdisk_addr", hexText b.hdr.ramdiskAddr.toNat),
    (metaKey "second_addr", hexText b.hdr.secondAddr.toNat),
    (metaKey "tags_addr", hexText b.hdr.tagsAddr.toNat),
    (metaKey "dtb_addr", hexText b.hdr.dtbAddr.toNat),
    (metaKey "recovery_dtbo_offset", hexText b.hdr.recoveryDtboOffset.toNat),
    (metaKey "name", hdrString b.hdr BootImgHdr.nameOffset),
    (metaKey "cmdline", hdrString b.hdr BootImgHdr.cmdlineOffset),
    (metaKey "extra_cmdline", hdrString b.hdr BootImgHdr.extraCmdlineOffset),
    (metaKey "kernel_compression", hexText kernelCompression.code.toNat),
    (metaKey "header_version", hexText b.hdr.headerVersion.toNat),
    (metaKey "os_version", hexText b.hdr.osVersion.toNat),
    (metaKey "header_size", hexText b.hdr.headerSize.toNat),
    (metaKey "page_size", hexText b.hdr.pageSize.toNat),
    (metaKey "kernel_size", hexText b.kernelSize.toNat),
    (metaKey "ramdisk_size", hexText b.ramdiskSize.toNat),
    (metaKey "second_size", hexText b.secondSize.toNat),
    (metaKey "recovery_dtbo_size", hexText b.recoveryDtboSize.toNat),
    (metaKey "dtb_size", hexText b.dtbSize.toNat)]

def bxxtBootPrintMetaInfoFile (b : Boot) : Exec Bytes := do
  let kernelCompression ← bxxtBootDetectKernelCompression b
  return render (metaEntries b kernelCompression)

/-- The string `strstr` and `sscanf` see in a mapped file. A file that fills its
last page without a NUL has no end. -/
def Region.cText (config : Region) : Exec Bytes :=
  if 0 ∈ config.mapped then .ok (cString config.mapped) else .error .outOfBounds

/-- `bxxt_boot_scan_metadata`: the converted value of the first `name=` in the file. -/
def bxxtBootScanMetadata {α : Type} (file : Option Bytes) (key : Bytes) (conversion : Bytes → Option α) :
    Exec (Option α) :=
  match bxxtFileOpenMm file with
  | none => .ok none
  | some config => do
    let text ← config.cText
    return (lookup key text).bind conversion

def scanXint (text : Bytes) : Option UInt32 := (scanHex text).map UInt32.ofNat

/-- `config_xint`, with the `RETIF(r != 1)` behind it. -/
def configXint (file : Option Bytes) (name : String) : OptionT Exec UInt32 :=
  OptionT.mk (bxxtBootScanMetadata file (metaKey name) scanXint)

def paddedString (size : Nat) (line : Bytes) : Vector UInt8 size := Vector.ofFn fun index => line.getD index.val 0

/-- `config_string` into an array of `size` bytes that starts at `offset` of the
header, with the `RETIF` on its length behind it. A missing line leaves the array
cleared. The conversion has no width: past the end of the header it overwrites the
caller's frame. -/
def configString (file : Option Bytes) (name : String) (offset size : Nat) : OptionT Exec (Vector UInt8 size) :=
  OptionT.mk do
    match ← bxxtBootScanMetadata file (metaKey name) scanLine with
    | none => return some (paddedString size [])
    | some line =>
      if BootImgHdr.size < offset + line.length + 1 then throw .stackOverflow
      if size ≤ line.length then return none
      return some (paddedString size line)

/-- `bxxt_boot_hdr_from_metadata`. The `memcpy` of the magic also copies its NUL,
into the low byte of a size that is still zero. -/
def bxxtBootHdrFromMetadata (file : Option Bytes) : OptionT Exec BootImgHdr := do
  let cmdline ← configString file "cmdline" BootImgHdr.cmdlineOffset bootArgsSize
  let extraCmdline ← configString file "extra_cmdline" BootImgHdr.extraCmdlineOffset bootExtraArgsSize
  let name ← configString file "name" BootImgHdr.nameOffset bootNameSize
  let _headerSize ← configXint file "header_size"
  let kernelAddr ← configXint file "kernel_addr"
  let ramdiskAddr ← configXint file "ramdisk_addr"
  let secondAddr ← configXint file "second_addr"
  let tagsAddr ← configXint file "tags_addr"
  let pageSize ← configXint file "page_size"
  let headerVersion ← configXint file "header_version"
  let headerSize ← configXint file "header_size"
  let osVersion ← configXint file "os_version"
  -- both are 64-bit fields: the conversion stores their low half
  let recoveryDtboOffset ← configXint file "recovery_dtbo_offset"
  let dtbAddr ← configXint file "dtb_addr"
  return { BootImgHdr.zero with
    magic := bootMagic
    cmdline, extraCmdline, name, kernelAddr, ramdiskAddr, secondAddr, tagsAddr, pageSize, headerVersion, headerSize,
    osVersion
    recoveryDtboOffset := recoveryDtboOffset.toUInt64
    dtbAddr := dtbAddr.toUInt64 }

theorem attempt_bind {α β : Type} {first : OptionT Exec α} {next : α → OptionT Exec β} {result : β} :
    (first >>= next).run = .ok (some result) ↔ ∃ value, first.run = .ok (some value) ∧
      (next value).run = .ok (some result) := by
  rw [OptionT.run_bind, Option.elimM, Exec.bind_eq_ok]
  constructor
  · intro ⟨value, ran, rest⟩
    cases value with
    | none => cases rest
    | some value => exact ⟨value, ran, rest⟩
  · intro ⟨value, ran, rest⟩
    exact ⟨some value, ran, rest⟩

theorem attempt_lift {α : Type} {first : Exec α} {result : α} :
    (OptionT.lift first : OptionT Exec α).run = .ok (some result) ↔ first = .ok result := by
  cases first with
  | error fault =>
    constructor
    · rintro ⟨⟩
    · rintro ⟨⟩
  | ok value =>
    constructor
    · rintro ⟨⟩
      rfl
    · rintro ⟨⟩
      rfl

theorem attempt_bind_none {α β : Type} {first : OptionT Exec α} {next : α → OptionT Exec β} :
    (first >>= next).run = .ok none ↔
      first.run = .ok none ∨ ∃ value, first.run = .ok (some value) ∧ (next value).run = .ok none := by
  rw [OptionT.run_bind, Option.elimM, Exec.bind_eq_ok]
  constructor
  · intro ⟨value, ran, rest⟩
    cases value with
    | none => exact Or.inl ran
    | some value => exact Or.inr ⟨value, ran, rest⟩
  · rintro (ran | ⟨value, ran, rest⟩)
    · exact ⟨none, ran, rfl⟩
    · exact ⟨some value, ran, rest⟩

theorem attempt_lift_none {α : Type} {first : Exec α} : ¬ (OptionT.lift first : OptionT Exec α).run = .ok none := by
  intro ran
  cases first <;> cases ran

/-- What a header read from METADATA is: every field the value of its own scan, and the fields
without one cleared. -/
structure ReadsFrom (file : Option Bytes) (hdr : BootImgHdr) : Prop where
  cmdline : (configString file "cmdline" BootImgHdr.cmdlineOffset bootArgsSize).run = .ok (some hdr.cmdline)
  extraCmdline : (configString file "extra_cmdline" BootImgHdr.extraCmdlineOffset bootExtraArgsSize).run =
    .ok (some hdr.extraCmdline)
  name : (configString file "name" BootImgHdr.nameOffset bootNameSize).run = .ok (some hdr.name)
  kernelAddr : (configXint file "kernel_addr").run = .ok (some hdr.kernelAddr)
  ramdiskAddr : (configXint file "ramdisk_addr").run = .ok (some hdr.ramdiskAddr)
  secondAddr : (configXint file "second_addr").run = .ok (some hdr.secondAddr)
  tagsAddr : (configXint file "tags_addr").run = .ok (some hdr.tagsAddr)
  pageSize : (configXint file "page_size").run = .ok (some hdr.pageSize)
  headerVersion : (configXint file "header_version").run = .ok (some hdr.headerVersion)
  headerSize : (configXint file "header_size").run = .ok (some hdr.headerSize)
  osVersion : (configXint file "os_version").run = .ok (some hdr.osVersion)
  recoveryDtboOffset : ∃ low, (configXint file "recovery_dtbo_offset").run = .ok (some low) ∧
    hdr.recoveryDtboOffset = low.toUInt64
  dtbAddr : ∃ low, (configXint file "dtb_addr").run = .ok (some low) ∧ hdr.dtbAddr = low.toUInt64
  magic : hdr.magic = bootMagic
  kernelSize : hdr.kernelSize = 0
  ramdiskSize : hdr.ramdiskSize = 0
  secondSize : hdr.secondSize = 0
  recoveryDtboSize : hdr.recoveryDtboSize = 0
  dtbSize : hdr.dtbSize = 0
  id : hdr.id = Vector.replicate 32 0

theorem bxxtBootHdrFromMetadata_iff {file : Option Bytes} {hdr : BootImgHdr} :
    (bxxtBootHdrFromMetadata file).run = .ok (some hdr) ↔ ReadsFrom file hdr := by
  simp only [bxxtBootHdrFromMetadata, attempt_bind]
  constructor
  · intro ⟨cmdline, cmdlineRead, extra, extraRead, name, nameRead, _, _, kernel, kernelRead, ramdisk, ramdiskRead,
      second, secondRead, tags, tagsRead, page, pageRead, version, versionRead, header, headerRead, os, osRead,
      dtbo, dtboRead, dtb, dtbRead, last⟩
    cases last
    exact ⟨cmdlineRead, extraRead, nameRead, kernelRead, ramdiskRead, secondRead, tagsRead, pageRead, versionRead,
      headerRead, osRead, ⟨dtbo, dtboRead, rfl⟩, ⟨dtb, dtbRead, rfl⟩, rfl, rfl, rfl, rfl, rfl, rfl, rfl⟩
  · intro reads
    obtain ⟨dtbo, dtboRead, dtboSame⟩ := reads.recoveryDtboOffset
    obtain ⟨dtb, dtbRead, dtbSame⟩ := reads.dtbAddr
    refine ⟨_, reads.cmdline, _, reads.extraCmdline, _, reads.name, _, reads.headerSize, _, reads.kernelAddr, _,
      reads.ramdiskAddr, _, reads.secondAddr, _, reads.tagsAddr, _, reads.pageSize, _, reads.headerVersion, _,
      reads.headerSize, _, reads.osVersion, _, dtboRead, _, dtbRead, ?_⟩
    obtain ⟨_, _, _, _, _, _, _, _, _, _, _, _, _, magic, kernelSize, ramdiskSize, secondSize, recoveryDtboSize,
      dtbSize, id⟩ := reads
    cases hdr
    simp only at *
    subst magic kernelSize ramdiskSize secondSize recoveryDtboSize dtbSize id dtboSame dtbSame
    rfl

def scannedKeys : List Bytes :=
  ["cmdline", "extra_cmdline", "name", "header_size", "kernel_addr", "ramdisk_addr", "second_addr", "tags_addr",
    "page_size", "header_version", "os_version", "recovery_dtbo_offset", "dtb_addr", "kernel_compression"].map metaKey

def printedKeys : List Bytes :=
  ["kernel_addr", "ramdisk_addr", "second_addr", "tags_addr", "dtb_addr", "recovery_dtbo_offset", "name", "cmdline",
    "extra_cmdline", "kernel_compression", "header_version", "os_version", "header_size", "page_size", "kernel_size",
    "ramdisk_size", "second_size", "recovery_dtbo_size", "dtb_size"].map metaKey

theorem printedKeys_eq (b : Boot) (kernelCompression : KernelCompression) :
    (metaEntries b kernelCompression).map Prod.fst = printedKeys := rfl

/-- Whatever the values, a key is never found across the beginning of a line. -/
theorem scannedKeys_searchable : ∀ key ∈ scannedKeys, Searchable key printedKeys := by
  decide +kernel

end Bxxt
