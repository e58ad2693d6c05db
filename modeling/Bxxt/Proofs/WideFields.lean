import Bxxt.Proofs.MetadataRoundTrip

/-! The two 64-bit fields of the header in METADATA. They are printed in full and read with a
conversion that stores 32 bits. -/

namespace Bxxt.Proofs
open ByteLayout KeyedLines TextScan

/-- The same two values are read back. -/
def WideFieldsKept (hdr : BootImgHdr) (text : Bytes) : Prop :=
  ∃ read, (bxxtBootHdrFromMetadata (some text)).run = .ok (some read) ∧ read.dtbAddr = hdr.dtbAddr ∧
    read.recoveryDtboOffset = hdr.recoveryDtboOffset

/-- A line that a scan found is part of the text, which ends at its first NUL. -/
theorem scannedLine_plain {file : Option Bytes} {key line : Bytes}
    (scanned : bxxtBootScanMetadata file key scanLine = .ok (some line)) : 0 ∉ line ∧ newline ∉ line := by
  unfold bxxtBootScanMetadata at scanned
  split at scanned
  next => cases scanned
  next config _ =>
    obtain ⟨text, contents, scanned⟩ := Exec.bind_eq_ok.mp scanned
    obtain ⟨after, behind, conversion⟩ := Option.bind_eq_some_iff.mp (Except.ok.inj scanned)
    obtain ⟨before, split⟩ := split_of_lookup behind
    have noNul : 0 ∉ text := by
      unfold Region.cText at contents
      split at contents
      next => cases contents; exact not_mem_cString _
      next => cases contents
    have same : line = after.takeWhile (· ≠ newline) := by
      unfold scanLine at conversion
      split at conversion
      next => cases conversion
      next => exact (Option.some.inj conversion).symm
    subst same
    constructor
    · intro member
      have inside := (List.takeWhile_prefix _).subset member
      exact noNul (by rw [split]; simp [inside])
    · intro member
      have other := List.mem_takeWhile_imp member
      simp at other

/-- A string that was read is the line that was scanned, and fits its array. -/
theorem configString_line {file : Option Bytes} {name : String} {offset size : Nat} {array : Vector UInt8 size}
    (positive : 0 < size) (read : (configString file name offset size).run = .ok (some array)) :
    ∃ found, bxxtBootScanMetadata file (metaKey name) scanLine = .ok found ∧
      array = paddedString size (found.getD []) ∧
      (found.getD []).length < size ∧ 0 ∉ found.getD [] ∧ newline ∉ found.getD [] := by
  rw [configString, OptionT.run_mk] at read
  obtain ⟨found, scanned, rest⟩ := Exec.bind_eq_ok.mp read
  cases found with
  | none =>
    cases rest
    exact ⟨none, scanned, rfl, positive, by simp, by simp⟩
  | some line =>
    dsimp only at rest
    split at rest
    next => cases rest
    next =>
      split at rest
      next => cases rest
      next short =>
        cases rest
        exact ⟨some line, scanned, rfl, by simpa using short, scannedLine_plain scanned⟩

theorem plainString_of_restored {size : Nat} {array : Vector UInt8 size} {line : Bytes} (fits : line.length < size)
    (noNul : 0 ∉ line) (single : newline ∉ line)
    (same : cString (paddedString size line).toList = cString array.toList) :
    PlainString array := by
  rw [cString_paddedString fits noNul] at same
  refine ⟨?_, same ▸ single⟩
  by_contra absent
  have whole : cString array.toList = array.toList := by
    rw [cString, List.takeWhile_eq_self_iff]
    intro byte member
    have other : byte ≠ 0 := by
      intro zero
      exact absent (zero ▸ member)
    simpa using other
  rw [whole] at same
  have length := congrArg List.length same
  rw [Vector.length_toList] at length
  omega

section Printed
variable {b : Boot} {text : Bytes}

/-- A header that METADATA restores has its strings inside their arrays. -/
theorem plainStrings_of_roundTrips (back : RoundTrips b.hdr text) : PlainStrings b.hdr := by
  obtain ⟨read, parsed, restored⟩ := back
  have reads := bxxtBootHdrFromMetadata_iff.mp parsed
  have plain {size offset : Nat} {name : String} {array original : Vector UInt8 size} (positive : 0 < size)
      (scanned : (configString (some text) name offset size).run = .ok (some array))
      (same : cString array.toList = cString original.toList) : PlainString original := by
    obtain ⟨found, _, rfl, fits, noNul, single⟩ := configString_line positive scanned
    exact plainString_of_restored fits noNul single same
  exact ⟨plain (by decide) reads.name restored.name, plain (by decide) reads.cmdline restored.cmdline,
    plain (by decide) reads.extraCmdline restored.extraCmdline⟩

theorem wide_fields_read {read : BootImgHdr} (printed : bxxtBootPrintMetaInfoFile b = .ok text)
    (plain : PlainStrings b.hdr) (parsed : (bxxtBootHdrFromMetadata (some text)).run = .ok (some read)) :
    read.dtbAddr = (UInt32.ofNat b.hdr.dtbAddr.toNat).toUInt64 ∧
      read.recoveryDtboOffset = (UInt32.ofNat b.hdr.recoveryDtboOffset.toNat).toUInt64 := by
  obtain ⟨kernelCompression, _, rfl⟩ := printed_text printed
  have reads := bxxtBootHdrFromMetadata_iff.mp parsed
  obtain ⟨dtb, dtbRead, dtbSame⟩ := reads.dtbAddr
  obtain ⟨dtbo, dtboRead, dtboSame⟩ := reads.recoveryDtboOffset
  rw [@configXint_address _ _ _ _ 4 plain (by decide) rfl (by decide) (by decide) b.hdr.dtbAddr.toNat_lt] at dtbRead
  rw [@configXint_address _ _ _ _ 5 plain (by decide) rfl (by decide) (by decide) b.hdr.recoveryDtboOffset.toNat_lt]
    at dtboRead
  rw [dtbSame, dtboSame, ← Option.some.inj (Except.ok.inj dtbRead), ← Option.some.inj (Except.ok.inj dtboRead)]
  exact ⟨rfl, rfl⟩

theorem low_half_iff (value : UInt64) : (UInt32.ofNat value.toNat).toUInt64 = value ↔ value.toNat < 2 ^ 32 := by
  rw [← UInt64.toNat_inj, UInt32.toNat_toUInt64, UInt32.toNat_ofNat']
  omega

/-- With everything else restored, the 64-bit fields are read back exactly when they are
32-bit numbers. -/
theorem wide_fields_kept_iff (printed : bxxtBootPrintMetaInfoFile b = .ok text) (back : RoundTrips b.hdr text) :
    WideFieldsKept b.hdr text ↔ b.hdr.dtbAddr.toNat < 2 ^ 32 ∧ b.hdr.recoveryDtboOffset.toNat < 2 ^ 32 := by
  have plain := plainStrings_of_roundTrips back
  rw [← low_half_iff, ← low_half_iff]
  constructor
  · intro ⟨read, parsed, dtb, dtbo⟩
    obtain ⟨dtbRead, dtboRead⟩ := wide_fields_read printed plain parsed
    exact ⟨dtbRead.symm.trans dtb, dtboRead.symm.trans dtbo⟩
  · intro ⟨dtb, dtbo⟩
    obtain ⟨read, parsed, _⟩ := back
    obtain ⟨dtbRead, dtboRead⟩ := wide_fields_read printed plain parsed
    exact ⟨read, parsed, dtbRead.trans dtb, dtboRead.trans dtbo⟩

end Printed

def bootWithDtb (dtbAddr : UInt64) : Boot :=
  { bootWithCmdline [] 0x1000 with hdr := { (bootWithCmdline [] 0x1000).hdr with dtbAddr } }

theorem bootWithDtb_printed (dtbAddr : UInt64) :
    ∃ text, bxxtBootPrintMetaInfoFile (bootWithDtb dtbAddr) = .ok text ∧
    RoundTrips (bootWithDtb dtbAddr).hdr text := by
  obtain ⟨name, cmdline, extraCmdline⟩ := @bootWithCmdline_plain [] 0x1000 (by decide) (by simp) (by simp)
  obtain ⟨nameSilent, cmdlineSilent, extraSilent⟩ := @bootWithCmdline_silent [] 0x1000 (by decide)
    (by simp) (by decide)
  have silent : Silent (bootWithDtb dtbAddr).hdr := ⟨nameSilent, cmdlineSilent, extraSilent⟩
  have half : (bootWithDtb dtbAddr).read (bootWithDtb dtbAddr).mmKernelPtr 2 = .ok [0x1f, 0x8b] :=
    @Region.slice_inside (Region.ofFile [0x1f, 0x8b]) _ _ (show 0 + 2 ≤ 2 by decide)
  obtain ⟨kernelCompression, detected⟩ := bxxtBootDetectKernelCompression_total half
  have printed : bxxtBootPrintMetaInfoFile (bootWithDtb dtbAddr) =
      .ok (render (metaEntries (bootWithDtb dtbAddr) kernelCompression)) := by
    rw [bxxtBootPrintMetaInfoFile, detected]
    rfl
  exact ⟨_, printed, roundTrips_of_unshadowed printed ⟨name, cmdline, extraCmdline⟩ silent.unshadowed⟩

/-- 4 GiB come back as zero. -/
theorem high_dtb_addr_lost : ∃ text, bxxtBootPrintMetaInfoFile (bootWithDtb 0x100000000) = .ok text ∧
    RoundTrips (bootWithDtb 0x100000000).hdr text ∧ ¬ WideFieldsKept (bootWithDtb 0x100000000).hdr text := by
  obtain ⟨text, printed, back⟩ := bootWithDtb_printed 0x100000000
  refine ⟨text, printed, back, ?_⟩
  intro ⟨read, parsed, dtb, _⟩
  have low := (wide_fields_read printed (plainStrings_of_roundTrips back) parsed).1
  rw [dtb] at low
  exact absurd low (by decide)

theorem low_dtb_addr_kept : ∃ text, bxxtBootPrintMetaInfoFile (bootWithDtb 0xf0000000) = .ok text ∧
    WideFieldsKept (bootWithDtb 0xf0000000).hdr text := by
  obtain ⟨text, printed, back⟩ := bootWithDtb_printed 0xf0000000
  exact ⟨text, printed, (wide_fields_kept_iff printed back).mpr ⟨by decide, by decide⟩⟩

end Bxxt.Proofs
