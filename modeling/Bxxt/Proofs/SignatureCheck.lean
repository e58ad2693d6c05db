import Bxxt.Proofs.PackedImage
import Bxxt.Proofs.ScanWalk

/-! When the signature is checked. The parameter that asks for the check and the test
inside it are the same flag, which was meant to switch it off: one of the two always
lets the image through. -/

namespace Bxxt.Proofs
open ByteLayout PagedBytes KeyedLines

section Check
variable (sha1 : Bytes → Vector UInt8 20) (opts : Options) (content : Bytes) (hdr : BootImgHdr)

/-- The search for the end of the pad region stops: it comes down from `start` to the first
byte of the region or to a byte that is not zero, through memory of the mapping, and its index
does not fall below what an `int32_t` holds. -/
def StopsFrom (ptr : Region) (mmPadPtr : Nat) (start : Int) : Prop :=
  ∃ addr : Nat, addr ≤ start ∧ (addr = mmPadPtr ∨ ∃ byte, ptr.load addr = .ok byte ∧ byte ≠ 0) ∧
    (addr < start → start < ptr.mapped.length ∧ -2 ^ 31 ≤ (addr : Int) - mmPadPtr)

/-- The search for device trees comes to an end before its table is full. -/
def Tabled (ptr : Region) (mm total : Nat) : Prop :=
  ∃ entries, Walk ptr (mm + total) mm entries ∧ entries.length ≤ bootMaxDtb

/-- Everything the reader looks at behind the header is there: the kernel's first two bytes,
the end of the pad region, and the device trees, which fit in their tables. The pointers are
the sums of the header's own sizes. -/
structure Scannable : Prop where
  kernel : hdr.pageSize.toNat + 2 ≤ (Region.ofFile content).mapped.length
  pad : StopsFrom (Region.ofFile content) (layoutOf hdr (Region.ofFile content) content.length).mmPadPtr
    ((layoutOf hdr (Region.ofFile content) content.length).mmPadPtr +
      asInt ((layoutOf hdr (Region.ofFile content) content.length).padSize - 1).toNat)
  kernelDtb : Tabled (Region.ofFile content) hdr.pageSize.toNat hdr.kernelSize.toNat
  dtb : Tabled (Region.ofFile content) (layoutOf hdr (Region.ofFile content) content.length).mmDtbPtr hdr.dtbSize.toNat

/-- The id begins with the digest of the sections. -/
def Signed : Prop :=
  ∃ b sha1sum, b.hdr = hdr ∧ LaidOut (Region.ofFile content) content.length b ∧
    bxxtBootImgSignature sha1 b = .ok sha1sum ∧ hdr.id.toList.take 20 = sha1sum.toList.take 20

def Opens : Prop := ∃ b, bxxtBootOpenFile sha1 opts bxxtBootNew (some content) = .ok (bxxtSuccess, b)

/-- The flag does what it is called. -/
structure EffectiveCheck : Prop where
  unchecked : opts.forceNoCompatCheck = true → Opens sha1 opts content
  checked : opts.forceNoCompatCheck = false → (Opens sha1 opts content ↔ Signed sha1 content hdr)

end Check

section Reader
variable {sha1 : Bytes → Vector UInt8 20} {opts : Options} {content : Bytes} {hdr : BootImgHdr}

theorem load_readable_iff {ptr : Region} {addr : Nat} :
    (∃ byte, ptr.load addr = .ok byte) ↔ addr < ptr.mapped.length := by
  rw [Region.load]
  constructor
  · rintro ⟨byte, read⟩
    split at read
    next present => exact (List.getElem?_eq_some_iff.mp present).1
    next => cases read
  · intro inside
    rw [List.getElem?_eq_getElem inside]
    exact ⟨_, rfl⟩

theorem StopsFrom.here {ptr : Region} {mmPadPtr start : Nat}
    (stop : start = mmPadPtr ∨ ∃ byte, ptr.load start = .ok byte ∧ byte ≠ 0) : StopsFrom ptr mmPadPtr start :=
  ⟨start, Int.le_refl _, stop, fun above => absurd above (Int.lt_irrefl _)⟩

/-- A search that does not stop where it is stops further down. -/
theorem stopsFrom_succ_iff {ptr : Region} {mmPadPtr start : Nat}
    (on : ¬ (start + 1 = mmPadPtr ∨ ∃ byte, ptr.load (start + 1) = .ok byte ∧ byte ≠ 0)) :
    StopsFrom ptr mmPadPtr (start + 1 : Nat) ↔
      start + 1 < ptr.mapped.length ∧ -2 ^ 31 ≤ (start : Int) - mmPadPtr ∧ StopsFrom ptr mmPadPtr start := by
  constructor
  · rintro ⟨addr, below, stop, room⟩
    rcases Int.lt_or_eq_of_le below with above | top
    · obtain ⟨inside, wide⟩ := room above
      exact ⟨by omega, by omega, addr, by omega, stop, fun _ => ⟨by omega, wide⟩⟩
    · obtain rfl : addr = start + 1 := by omega
      exact absurd stop on
  · rintro ⟨inside, wide, addr, below, stop, room⟩
    refine ⟨addr, by omega, stop, fun _ => ⟨by omega, ?_⟩⟩
    rcases Int.lt_or_eq_of_le below with above | last
    · exact (room above).2
    · omega

theorem trimPad_here {ptr : Region} {mmPadPtr start : Nat}
    (stop : start = mmPadPtr ∨ ∃ byte, ptr.load start = .ok byte ∧ byte ≠ 0) :
    ∃ ts, trimPad ptr mmPadPtr start = .ok ts := by
  by_cases first : start = mmPadPtr
  · cases start with
    | zero => exact ⟨0, if_pos first⟩
    | succ start => exact ⟨0, if_pos first⟩
  · obtain ⟨byte, read, nonzero⟩ := stop.resolve_left first
    cases start with
    | zero =>
      rw [trimPad, if_neg first, read, Exec.ok_bind, if_pos nonzero]
      exact ⟨_, rfl⟩
    | succ start =>
      rw [trimPad, if_neg first, read, Exec.ok_bind, if_pos nonzero]
      exact ⟨_, rfl⟩

theorem trimPad_succ_iff {ptr : Region} {mmPadPtr start : Nat}
    (on : ¬ (start + 1 = mmPadPtr ∨ ∃ byte, ptr.load (start + 1) = .ok byte ∧ byte ≠ 0)) :
    (∃ ts, trimPad ptr mmPadPtr (start + 1) = .ok ts) ↔
      start + 1 < ptr.mapped.length ∧ -2 ^ 31 ≤ (start : Int) - mmPadPtr ∧
        ∃ ts, trimPad ptr mmPadPtr start = .ok ts := by
  rw [trimPad, if_neg (not_or.mp on).1, ← load_readable_iff]
  constructor
  · rintro ⟨ts, run⟩
    obtain ⟨byte, read, rest⟩ := Exec.bind_eq_ok.mp run
    rw [if_neg fun nonzero => on (Or.inr ⟨byte, read, nonzero⟩)] at rest
    split at rest
    next => cases rest
    next wide => exact ⟨⟨byte, read⟩, by omega, ts, rest⟩
  · rintro ⟨⟨byte, read⟩, wide, ts, rest⟩
    rw [read, Exec.ok_bind, if_neg fun nonzero => on (Or.inr ⟨byte, read, nonzero⟩), if_neg (by omega)]
    exact ⟨ts, rest⟩

theorem trimPad_stops_iff {ptr : Region} {mmPadPtr start : Nat} :
    (∃ ts, trimPad ptr mmPadPtr start = .ok ts) ↔ StopsFrom ptr mmPadPtr start := by
  by_cases stop : start = mmPadPtr ∨ ∃ byte, ptr.load start = .ok byte ∧ byte ≠ 0
  · exact iff_of_true (trimPad_here stop) (.here stop)
  · induction start with
    | zero =>
      refine iff_of_false ?_ ?_
      · rintro ⟨ts, run⟩
        rw [trimPad, if_neg (not_or.mp stop).1] at run
        obtain ⟨byte, read, rest⟩ := Exec.bind_eq_ok.mp run
        rw [if_neg fun nonzero => stop (Or.inr ⟨byte, read, nonzero⟩)] at rest
        cases rest
      · rintro ⟨addr, below, other, _⟩
        obtain rfl : addr = 0 := by omega
        exact stop other
    | succ start ih =>
      rw [trimPad_succ_iff stop, stopsFrom_succ_iff stop]
      by_cases below : start = mmPadPtr ∨ ∃ byte, ptr.load start = .ok byte ∧ byte ≠ 0
      · rw [iff_true_intro (trimPad_here below), iff_true_intro (StopsFrom.here below)]
      · rw [ih below]

theorem trimmedPadSize_stops_iff {ptr : Region} {mmPadPtr : Nat} {padSize : UInt32} :
    (∃ trimmed, trimmedPadSize ptr mmPadPtr padSize = .ok trimmed) ↔
      StopsFrom ptr mmPadPtr (mmPadPtr + asInt (padSize - 1).toNat) := by
  rw [trimmedPadSize, trimFrom]
  obtain ⟨start, same⟩ : ∃ start, start = (mmPadPtr : Int) + asInt (padSize - 1).toNat := ⟨_, rfl⟩
  rw [← same]
  split
  next before =>
    constructor
    · rintro ⟨_, ⟨⟩⟩
    · rintro ⟨addr, below, _⟩
      omega
  next =>
    have whole : ((start.toNat : Nat) : Int) = start := by omega
    have search := @trimPad_stops_iff ptr mmPadPtr start.toNat
    rw [whole] at search
    rw [← search]
    constructor
    · rintro ⟨trimmed, run⟩
      cases found : trimPad ptr mmPadPtr start.toNat with
      | error => rw [found] at run; cases run
      | ok ts => exact ⟨ts, rfl⟩
    · rintro ⟨ts, found⟩
      rw [found]
      exact ⟨_, rfl⟩

theorem tabled_iff {ptr : Region} {mm total : Nat} :
    (∃ entries, bxxtBootParseDtbSections ptr mm total = .ok entries) ↔ Tabled ptr mm total :=
  exists_congr fun _ => dtbLoop_iff

theorem LaidOut.layoutOf_eq {ptr : Region} {size : Nat} {b : Boot} (laid : LaidOut ptr size b) :
    { layoutOf b.hdr ptr size with
      kernelCompression := b.kernelCompression, padSize := b.padSize, kernelDtb := b.kernelDtb, dtb := b.dtb } = b := by
  apply Boot.ext
  all_goals simp only [layoutOf, initPointers, initSizes, Boot.bPADo, Boot.bDTo, Boot.bREo, Boot.bSEo, Boot.bRAo,
    Boot.bKEo, laid.mm, laid.version, laid.pageSize, laid.kernelSize, laid.ramdiskSize, laid.secondSize,
    laid.recoveryDtboSize, laid.dtbSize, laid.mmKernelPtr, laid.mmRamdiskPtr, laid.mmSecondPtr,
    laid.mmRecoveryDtboPtr, laid.mmDtbPtr, laid.mmPadPtr]

theorem scannable_of_laidOut {b : Boot} (laid : LaidOut (Region.ofFile content) content.length b)
    (kernelDtb : Tabled (Region.ofFile content) b.mmKernelPtr b.kernelSize.toNat)
    (dtb : Tabled (Region.ofFile content) b.mmDtbPtr b.dtbSize.toNat) : Scannable content b.hdr := by
  have first : b.mmKernelPtr = b.hdr.pageSize.toNat := by rw [laid.mmKernelPtr, Boot.bKEo, laid.pageSize]
  have trees : b.mmDtbPtr = (layoutOf b.hdr (Region.ofFile content) content.length).mmDtbPtr :=
    (congrArg Boot.mmDtbPtr laid.layoutOf_eq).symm
  have behind : b.mmPadPtr = (layoutOf b.hdr (Region.ofFile content) content.length).mmPadPtr :=
    (congrArg Boot.mmPadPtr laid.layoutOf_eq).symm
  have trimmed := laid.padSize
  rw [first, laid.kernelSize] at kernelDtb
  rw [trees, laid.dtbSize] at dtb
  refine ⟨?_, ?_, kernelDtb, dtb⟩
  case refine_1 =>
    obtain ⟨half, read, _⟩ := Exec.bind_eq_ok.mp laid.kernelCompression
    rw [Boot.read, laid.mm, first] at read
    exact (Region.slice_eq_ok (by decide) read).1
  case refine_2 =>
    have offset : b.bPADo.toNat = (layoutOf b.hdr (Region.ofFile content) content.length).mmPadPtr :=
      laid.mmPadPtr ▸ behind
    rw [behind, offset] at trimmed
    have whole : (layoutOf b.hdr (Region.ofFile content) content.length).padSize =
        asUInt32 (content.length - (layoutOf b.hdr (Region.ofFile content) content.length).mmPadPtr) := rfl
    rw [whole]
    exact trimmedPadSize_stops_iff.mp ⟨_, trimmed⟩

/-- Neither the flag nor the id has a part in whether an image is opened. -/
theorem opens_iff (header : (Region.ofFile content).slice 0 BootImgHdr.size = .ok hdr.bytes) (supported : Supported hdr)
    (limits : BaseLimits hdr) : Opens sha1 opts content ↔ Scannable content hdr := by
  constructor
  · intro ⟨b, opened⟩
    obtain ⟨_, same, _, accepted⟩ := bxxtBootOpenFile_iff.mp opened
    cases same
    obtain rfl := hdr_unique accepted.header header
    exact scannable_of_laidOut accepted.laidOut (tabled_iff.mp ⟨_, accepted.kernelDtb⟩)
      (tabled_iff.mp ⟨_, accepted.dtb⟩)
  · intro scannable
    have nonempty : content ≠ [] := by
      rintro rfl
      obtain ⟨inside, _⟩ := Region.slice_eq_ok (by decide) header
      exact absurd inside (by decide)
    have half : ∃ half, (layoutOf hdr (Region.ofFile content) content.length).read hdr.pageSize.toNat 2 = .ok half :=
      slice_of_readable scannable.kernel
    obtain ⟨half, read⟩ := half
    obtain ⟨kernelCompression, detected⟩ := bxxtBootDetectKernelCompression_total read
    obtain ⟨padSize, trimmed⟩ := trimmedPadSize_stops_iff.mpr scannable.pad
    obtain ⟨kernelDtb, kernelParsed⟩ := tabled_iff.mpr scannable.kernelDtb
    obtain ⟨dtb, parsed⟩ := tabled_iff.mpr scannable.dtb
    -- the check is asked for only where it is switched off
    exact ⟨_, bxxtBootOpenFile_iff.mpr ⟨content, rfl, nonempty,
      accepted_of_scans header supported limits detected trimmed kernelParsed parsed⟩⟩

/-- With the flag every image that can be scanned is opened, as it should be; without it
the same images are, so the check is effective only where it makes no difference. -/
theorem check_effective_iff (header : (Region.ofFile content).slice 0 BootImgHdr.size = .ok hdr.bytes)
    (supported : Supported hdr) (limits : BaseLimits hdr) :
    EffectiveCheck sha1 opts content hdr ↔
      (opts.forceNoCompatCheck = true → Scannable content hdr) ∧
        (opts.forceNoCompatCheck = false → (Scannable content hdr ↔ Signed sha1 content hdr)) := by
  have opens := @opens_iff sha1 opts _ _ header supported limits
  constructor
  · intro effective
    exact ⟨fun off => opens.mp (effective.unchecked off), fun on => opens.symm.trans (effective.checked on)⟩
  · intro ⟨unchecked, checked⟩
    exact ⟨fun off => opens.mpr (unchecked off), fun on => opens.trans (checked on)⟩

end Reader

/-- A digest that tells messages apart by how they begin. -/
def firstBytes (message : Bytes) : Vector UInt8 20 := Vector.ofFn fun index => message.getD index.val 0

/-- The packed image, read by a tool with this digest: the header, what was scanned, and
the sections. -/
theorem plainKernel_scanned : ∃ image hdr,
    (Region.ofFile image).slice 0 BootImgHdr.size = .ok hdr.bytes ∧ Supported hdr ∧ BaseLimits hdr ∧
      hdr.id = Vector.replicate 32 0 ∧ Scannable image hdr ∧
      ∀ b, b.hdr = hdr → LaidOut (Region.ofFile image) image.length b →
        Selects (Region.ofFile image) b 0x1000 (storedSections plainKernel []) := by
  obtain ⟨image, id, _, packed⟩ := plainKernel_packed
  obtain ⟨b, opened, hdr, laid, _⟩ := packed.reopened ⟨stored_pages, plainKernel_limits []⟩ rfl
    ⟨false, false⟩
  obtain ⟨_, same, _, accepted⟩ := bxxtBootOpenFile_iff.mp opened
  cases same
  have small : writeMax < 2 ^ 32 := by decide
  have complete := packed.complete
  have zero : b.hdr.id = Vector.replicate 32 0 := by
    obtain ⟨_, _, _, hashed, _⟩ := packed.parsed
    obtain ⟨message, _, stored⟩ := Exec.bind_eq_ok.mp hashed
    rw [hdr]
    change id = _
    rw [← Except.ok.inj stored]
    exact (by decide : signatureBytes (Vector.replicate 20 0) = Vector.replicate 32 0)
  refine ⟨image, b.hdr, accepted.header, accepted.supported, accepted.limits, zero,
    scannable_of_laidOut laid (tabled_iff.mp ⟨_, accepted.kernelDtb⟩) (tabled_iff.mp ⟨_, accepted.dtb⟩), ?_⟩
  intro other same otherLaid
  exact selects_of_laidOut otherLaid (same.trans hdr) stored_pages.header packed.shape
    (by rw [Region.ofFile_bytes]; omega)

/-- Without the flag an image is opened although its id is not the digest. -/
theorem wrong_id_opened : ∃ image hdr,
    (Region.ofFile image).slice 0 BootImgHdr.size = .ok hdr.bytes ∧ Supported hdr ∧ BaseLimits hdr ∧
      Opens firstBytes ⟨false, false⟩ image ∧ ¬ Signed firstBytes image hdr ∧
      ¬ EffectiveCheck firstBytes ⟨false, false⟩ image hdr := by
  obtain ⟨image, hdr, header, supported, limits, zero, scannable, selects⟩ := plainKernel_scanned
  have opens : Opens firstBytes ⟨false, false⟩ image := (opens_iff header supported limits).mpr scannable
  have unsigned : ¬ Signed firstBytes image hdr := by
    rintro ⟨b, sha1sum, same, laid, hashed, equal⟩
    rw [signature_of_selects laid (selects b same laid)] at hashed
    rw [zero, ← Except.ok.inj hashed, signatureBytes_toList, List.take_left' (Vector.length_toList ..)] at equal
    have first := congrArg List.head? equal
    rw [firstBytes, Vector.toList_ofFn, List.ofFn_succ, List.head?_cons] at first
    exact absurd (Option.some.inj first) (by decide : (0 : UInt8) ≠ 1)
  exact ⟨image, hdr, header, supported, limits, opens, unsigned, fun effective =>
    unsigned ((effective.checked rfl).mp opens)⟩

theorem unchecked_image_opened : ∃ image hdr, EffectiveCheck firstBytes ⟨true, false⟩ image hdr := by
  obtain ⟨image, hdr, header, supported, limits, _, scannable, _⟩ := plainKernel_scanned
  exact ⟨image, hdr, (check_effective_iff header supported limits).mpr ⟨fun _ => scannable, by simp⟩⟩

end Bxxt.Proofs
