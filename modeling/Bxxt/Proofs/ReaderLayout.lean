import Bxxt.BootImage

/-! What `bxxt_boot_init1` knows about an image: the sections begin where the 32-bit
sums say, and these are the exact sums as long as the last one fits. -/

namespace Bxxt.Proofs
open ByteLayout PagedBytes

theorem length_of_read {b : Boot} {addr count : Nat} {data : Bytes} (read : b.read addr count = .ok data) :
    count = data.length := by
  unfold Boot.read at read
  split at read
  next => exact (Region.length_of_slice read).symm
  next =>
    split at read
    next none => cases read; exact none
    next => cases read

/-- The fields that are copies of the header's. -/
structure Sized (b : Boot) : Prop where
  version : b.version = b.hdr.headerVersion
  pageSize : b.pageSize = b.hdr.pageSize
  kernelSize : b.kernelSize = b.hdr.kernelSize
  ramdiskSize : b.ramdiskSize = b.hdr.ramdiskSize
  secondSize : b.secondSize = b.hdr.secondSize
  recoveryDtboSize : b.recoveryDtboSize = b.hdr.recoveryDtboSize
  dtbSize : b.dtbSize = b.hdr.dtbSize

/-- The fields that `bxxt_boot_init1` sets between its two checks of the header. -/
structure LaidOut (ptr : Region) (size : Nat) (b : Boot) : Prop extends Sized b where
  mm : b.mm = some ptr
  page : b.pageSize ≠ 0
  mmKernelPtr : b.mmKernelPtr = b.bKEo.toNat
  mmRamdiskPtr : b.mmRamdiskPtr = b.bRAo.toNat
  mmSecondPtr : b.mmSecondPtr = b.bSEo.toNat
  mmRecoveryDtboPtr : b.mmRecoveryDtboPtr = b.bREo.toNat
  mmDtbPtr : b.mmDtbPtr = b.bDTo.toNat
  mmPadPtr : b.mmPadPtr = b.bPADo.toNat
  kernelCompression : bxxtBootDetectKernelCompression b = .ok b.kernelCompression
  padSize : trimmedPadSize ptr b.mmPadPtr (asUInt32 (size - b.bPADo.toNat)) = .ok b.padSize

theorem initSizes_sized (b : Boot) (ptr : Region) : Sized (initSizes b ptr) := ⟨rfl, rfl, rfl, rfl, rfl, rfl, rfl⟩

section Reader
variable {ptr : Region} {size : Nat}

theorem bxxtBootInit1Layout_iff {b parsed : Boot} :
    bxxtBootInit1Layout b ptr size = .ok parsed ↔
      parsed.hdr = b.hdr ∧ parsed.kernelDtb = b.kernelDtb ∧ parsed.dtb = b.dtb ∧ LaidOut ptr size parsed := by
  unfold bxxtBootInit1Layout
  constructor
  · intro run
    obtain ⟨compression, detected, run⟩ := Exec.bind_eq_ok.mp run
    dsimp only at run
    split at run
    next => cases run
    next page =>
      obtain ⟨padSize, trimmed, run⟩ := Exec.bind_eq_ok.mp run
      cases run
      exact ⟨rfl, rfl, rfl, ⟨rfl, rfl, rfl, rfl, rfl, rfl, rfl⟩, rfl, page,
        rfl, rfl, rfl, rfl, rfl, rfl, detected, trimmed⟩
  · intro ⟨hdr, kernelDtb, dtb, laid⟩
    -- every field is determined, so the run can only end in this one
    have shape : { initPointers { initSizes b ptr with kernelCompression := parsed.kernelCompression } size with
        padSize := parsed.padSize } = parsed := by
      apply Boot.ext
      all_goals simp only [initPointers, initSizes, Boot.bPADo, Boot.bDTo, Boot.bREo, Boot.bSEo, Boot.bRAo, Boot.bKEo,
        laid.mm, laid.version, laid.pageSize, laid.kernelSize, laid.ramdiskSize, laid.secondSize, laid.recoveryDtboSize,
        laid.dtbSize, laid.mmKernelPtr, laid.mmRamdiskPtr, laid.mmSecondPtr, laid.mmRecoveryDtboPtr, laid.mmDtbPtr,
        laid.mmPadPtr, hdr, kernelDtb, dtb]
    have page : (initSizes b ptr).pageSize ≠ 0 := by
      have same := laid.page
      rw [← shape] at same
      exact same
    have detected := laid.kernelCompression
    have trimmed := laid.padSize
    rw [← shape] at detected trimmed
    refine Exec.bind_eq_ok.mpr ⟨parsed.kernelCompression, detected, ?_⟩
    dsimp only
    rw [if_neg page]
    refine Exec.bind_eq_ok.mpr ⟨parsed.padSize, trimmed, ?_⟩
    exact congrArg Except.ok shape

def sectionSizes (b : Boot) : List Nat :=
  [b.kernelSize.toNat, b.ramdiskSize.toNat, b.secondSize.toNat, b.recoveryDtboSize.toNat, b.dtbSize.toNat]

/-- The header page and the rounded sizes of the first `index` sections, as integers. -/
def exactOffset (b : Boot) (index : Nat) : Nat :=
  b.pageSize.toNat + (((sectionSizes b).take index).map (roundUp b.pageSize.toNat)).sum

/-- The sum of all pages but the trailing ones fits in 32 bits. -/
def NoWrap (b : Boot) : Prop := exactOffset b 5 < 2 ^ 32

theorem bPs_toNat {ps bs : UInt32} (page : ps ≠ 0) (fits : ps.toNat + roundUp ps.toNat bs.toNat < 2 ^ 32) :
    (bPs ps bs).toNat = roundUp ps.toNat bs.toNat := by
  have positive : 0 < ps.toNat := Nat.pos_of_ne_zero fun zero => page (UInt32.toNat_inj.mp zero)
  have enough := le_roundUp positive bs.toNat
  have sum : (bs + ps - 1).toNat = bs.toNat + ps.toNat - 1 := by
    rw [UInt32.toNat_sub, UInt32.toNat_add, UInt32.toNat_one]
    omega
  have whole : (bs.toNat + ps.toNat - 1) / ps.toNat * ps.toNat < 2 ^ 32 := by
    rw [roundUp] at fits
    omega
  rw [bPs, UInt32.toNat_mul, UInt32.toNat_div, sum, Nat.mod_eq_of_lt whole, roundUp]

theorem offsets_exact {b : Boot} (page : b.pageSize ≠ 0) (fits : NoWrap b) :
    b.bKEo.toNat = exactOffset b 0 ∧ b.bRAo.toNat = exactOffset b 1 ∧ b.bSEo.toNat = exactOffset b 2 ∧
      b.bREo.toNat = exactOffset b 3 ∧ b.bDTo.toNat = exactOffset b 4 ∧ b.bPADo.toNat = exactOffset b 5 := by
  simp only [NoWrap, exactOffset, sectionSizes, List.take_succ_cons, List.take_zero, List.map_cons, List.map_nil,
    List.sum_cons, List.sum_nil] at fits ⊢
  have kernel := @bPs_toNat _ b.kernelSize page (by omega)
  have ramdisk := @bPs_toNat _ b.ramdiskSize page (by omega)
  have second := @bPs_toNat _ b.secondSize page (by omega)
  have recoveryDtbo := @bPs_toNat _ b.recoveryDtboSize page (by omega)
  have dtb := @bPs_toNat _ b.dtbSize page (by omega)
  simp only [Boot.bPADo, Boot.bDTo, Boot.bREo, Boot.bSEo, Boot.bRAo, Boot.bKEo, UInt32.toNat_add,
    kernel, ramdisk, second, recoveryDtbo, dtb]
  omega

theorem LaidOut.behind_page {b : Boot} (laid : LaidOut ptr size b) (fits : NoWrap b) :
    b.pageSize.toNat ≤ b.mmKernelPtr ∧ b.pageSize.toNat ≤ b.mmDtbPtr := by
  obtain ⟨kernelAt, _, _, _, dtbAt, _⟩ := offsets_exact laid.page fits
  rw [laid.mmKernelPtr, laid.mmDtbPtr, kernelAt, dtbAt]
  exact ⟨Nat.le_add_right .., Nat.le_add_right ..⟩

theorem LaidOut.same_pointers {other : Region} {length : Nat} {b c : Boot} {id : Vector UInt8 32}
    (laid : LaidOut ptr size b) (again : LaidOut other length c) (same : c.hdr = { b.hdr with id }) :
    c.mmKernelPtr = b.mmKernelPtr ∧ c.kernelSize = b.kernelSize ∧ c.mmDtbPtr = b.mmDtbPtr ∧
      c.dtbSize = b.dtbSize := by
  simp only [laid.mmKernelPtr, laid.mmDtbPtr, again.mmKernelPtr, again.mmDtbPtr, Boot.bDTo, Boot.bREo,
    Boot.bSEo, Boot.bRAo,
    Boot.bKEo, laid.pageSize, laid.kernelSize, laid.ramdiskSize, laid.secondSize, laid.recoveryDtboSize, laid.dtbSize,
    again.pageSize, again.kernelSize, again.ramdiskSize, again.secondSize, again.recoveryDtboSize, again.dtbSize, same,
    and_self]

/-- Behind a byte that is not zero the search for the last one ends. -/
theorem trimPad_total {mmPadPtr addr : Nat} {first : UInt8} (readable : addr < ptr.mapped.length)
    (small : mmPadPtr < 2 ^ 31) (stop : ptr.load 0 = .ok first) (nonzero : first ≠ 0) :
    ∃ ts, trimPad ptr mmPadPtr addr = .ok ts := by
  induction addr with
  | zero =>
    rw [trimPad]
    split
    · exact ⟨_, rfl⟩
    · rw [stop]
      exact ⟨_, if_pos nonzero⟩
  | succ addr ih =>
    obtain ⟨ts, later⟩ := ih (by omega)
    rw [trimPad]
    split
    · exact ⟨_, rfl⟩
    · have here : ptr.load (addr + 1) = .ok ptr.mapped[addr + 1] := by
        rw [Region.load, List.getElem?_eq_getElem readable]
      simp only [here, bind, Except.bind]
      split
      · exact ⟨_, rfl⟩
      · rw [if_neg (by omega)]
        exact ⟨ts, later⟩

theorem asUInt32_of_small {value : Nat} (small : value < 2 ^ 32) : (asUInt32 value).toNat = value := by
  have kept : ((value : Int) % 2 ^ 32).toNat = value := by omega
  rw [asUInt32, kept, UInt32.toNat_ofNat']
  exact Nat.mod_eq_of_lt small

private theorem asInt_minus_one : asInt (2 ^ 32 - 1 : Nat) = -1 := by
  simp only [asInt, Int.bmod_def]
  omega

private theorem trim_start {mmPadPtr : Nat} (inside : mmPadPtr ≤ size) (small : size < 2 ^ 31) :
    (mmPadPtr : Int) + asInt (asUInt32 ((size : Int) - mmPadPtr) - 1).toNat = (size : Int) - 1 := by
  have region : (size : Int) - mmPadPtr = (size - mmPadPtr : Nat) := by omega
  have whole := @asUInt32_of_small (size - mmPadPtr) (by omega)
  rw [region, UInt32.toNat_sub, whole, UInt32.toNat_one]
  rcases Nat.eq_zero_or_pos (size - mmPadPtr) with none | some
  · have before : (2 ^ 32 - 1 + (size - mmPadPtr)) % 2 ^ 32 = 2 ^ 32 - 1 := by omega
    rw [before, asInt_minus_one]
    omega
  · have before : (2 ^ 32 - 1 + (size - mmPadPtr)) % 2 ^ 32 = size - mmPadPtr - 1 := by omega
    rw [before, asInt_of_small (by omega)]
    omega

theorem trimmedPadSize_total {mmPadPtr : Nat} {first : UInt8} (positive : 0 < mmPadPtr) (inside : mmPadPtr ≤ size)
    (readable : size ≤ ptr.mapped.length) (small : size < 2 ^ 31) (stop : ptr.load 0 = .ok first)
    (nonzero : first ≠ 0) :
    ∃ padSize, trimmedPadSize ptr mmPadPtr (asUInt32 ((size : Int) - mmPadPtr)) = .ok padSize := by
  obtain ⟨ts, trimmed⟩ := @trimPad_total _ mmPadPtr (size - 1) _ (by omega) (by omega) stop nonzero
  have start : ((size : Int) - 1).toNat = size - 1 := by omega
  rw [trimmedPadSize, trim_start inside small, trimFrom, if_neg (by omega), start, trimmed]
  exact ⟨_, rfl⟩

section Init
variable {sha1 : Bytes → Vector UInt8 20} {opts : Options} {check : Bool}

theorem bxxtBootInit1Finish_keeps {b final : Boot} {r : Int}
    (run : bxxtBootInit1Finish sha1 opts b check = .ok (r, final)) :
    ∃ kernelDtb dtb, final = { b with kernelDtb, dtb } := by
  unfold bxxtBootInit1Finish at run
  split at run
  next => cases run; exact ⟨b.kernelDtb, b.dtb, rfl⟩
  next =>
    obtain ⟨compatible, _, run⟩ := Exec.bind_eq_ok.mp run
    split at run
    next => cases run; exact ⟨b.kernelDtb, b.dtb, rfl⟩
    next =>
      obtain ⟨ptr, _, run⟩ := Exec.bind_eq_ok.mp run
      obtain ⟨kernelDtb, _, run⟩ := Exec.bind_eq_ok.mp run
      obtain ⟨dtb, _, run⟩ := Exec.bind_eq_ok.mp run
      cases run
      exact ⟨kernelDtb, dtb, rfl⟩

theorem bxxtBootImgCompatCheck_cases {b : Boot} {r : Int} (run : bxxtBootImgCompatCheck sha1 opts b = .ok r) :
    r = bxxtSuccess ∨ r = bxxtFailed := by
  unfold bxxtBootImgCompatCheck at run
  split at run
  next => cases run; exact Or.inl rfl
  next =>
    obtain ⟨sha1sum, _, run⟩ := Exec.bind_eq_ok.mp run
    split at run
    next => cases run; exact Or.inl rfl
    next => cases run; exact Or.inr rfl

theorem bxxtBootInit1Finish_iff {b final : Boot} (mm : b.mm = some ptr) :
    bxxtBootInit1Finish sha1 opts b check = .ok (bxxtSuccess, final) ↔
      BaseLimits b.hdr ∧ (check = true → bxxtBootImgCompatCheck sha1 opts b = .ok bxxtSuccess) ∧
        bxxtBootParseDtbSections ptr b.mmKernelPtr b.kernelSize.toNat = .ok final.kernelDtb ∧
        bxxtBootParseDtbSections ptr b.mmDtbPtr b.dtbSize.toNat = .ok final.dtb ∧
        final = { b with kernelDtb := final.kernelDtb, dtb := final.dtb } := by
  have failed : bxxtFailed ≠ bxxtSuccess := by decide
  have base := bxxtBootImgBaseCheck_iff b.hdr
  unfold bxxtBootInit1Finish
  constructor
  · intro run
    split at run
    next => cases run
    next limits =>
      have passed := base.mp ((bxxtBootImgBaseCheck_cases b.hdr).resolve_right limits)
      obtain ⟨compatible, checked, run⟩ := Exec.bind_eq_ok.mp run
      split at run
      next => cases run
      next accepted =>
        obtain ⟨found, image, run⟩ := Exec.bind_eq_ok.mp run
        rw [Boot.image, mm] at image
        cases image
        obtain ⟨kernelDtb, kernelParsed, run⟩ := Exec.bind_eq_ok.mp run
        obtain ⟨dtb, parsed, run⟩ := Exec.bind_eq_ok.mp run
        cases run
        refine ⟨passed, ?_, kernelParsed, parsed, rfl⟩
        intro on
        rw [initCheck, if_pos on] at checked
        rw [checked, (bxxtBootImgCompatCheck_cases checked).resolve_right accepted]
  · intro ⟨limits, compatible, kernelParsed, parsed, same⟩
    rw [if_neg (by rw [base.mpr limits]; exact failed.symm)]
    have checked : initCheck sha1 opts b check = .ok bxxtSuccess := by
      unfold initCheck
      split
      next on => exact compatible on
      next => rfl
    have image : b.image = .ok ptr := by rw [Boot.image, mm]
    refine Exec.bind_eq_ok.mpr ⟨bxxtSuccess, checked, ?_⟩
    rw [if_neg failed.symm]
    refine Exec.bind_eq_ok.mpr ⟨ptr, image, ?_⟩
    refine Exec.bind_eq_ok.mpr ⟨_, kernelParsed, ?_⟩
    refine Exec.bind_eq_ok.mpr ⟨_, parsed, ?_⟩
    exact congrArg (fun b => Except.ok (bxxtSuccess, b)) same.symm

structure Accepted (sha1 : Bytes → Vector UInt8 20) (opts : Options) (ptr : Region) (size : Nat) (check : Bool)
    (b : Boot) : Prop where
  header : ptr.slice 0 BootImgHdr.size = .ok b.hdr.bytes
  supported : Supported b.hdr
  laidOut : LaidOut ptr size b
  limits : BaseLimits b.hdr
  compatible : check = true → bxxtBootImgCompatCheck sha1 opts b = .ok bxxtSuccess
  kernelDtb : bxxtBootParseDtbSections ptr b.mmKernelPtr b.kernelSize.toNat = .ok b.kernelDtb
  dtb : bxxtBootParseDtbSections ptr b.mmDtbPtr b.dtbSize.toNat = .ok b.dtb

theorem LaidOut.withTrees {b : Boot} (laid : LaidOut ptr size b) (kernelDtb dtb : List BxxtDtb) :
    LaidOut ptr size { b with kernelDtb, dtb } :=
  ⟨⟨laid.version, laid.pageSize, laid.kernelSize, laid.ramdiskSize, laid.secondSize, laid.recoveryDtboSize,
    laid.dtbSize⟩, laid.mm, laid.page, laid.mmKernelPtr, laid.mmRamdiskPtr, laid.mmSecondPtr, laid.mmRecoveryDtboPtr,
    laid.mmDtbPtr, laid.mmPadPtr, laid.kernelCompression, laid.padSize⟩

theorem bxxtBootInit1_iff {b final : Boot} :
    bxxtBootInit1 sha1 opts b ptr size check = .ok (bxxtSuccess, final) ↔
      Accepted sha1 opts ptr size check final := by
  have failed : bxxtFailed ≠ bxxtSuccess := by decide
  unfold bxxtBootInit1
  constructor
  · intro run
    obtain ⟨hdrBytes, read, run⟩ := Exec.bind_eq_ok.mp run
    dsimp only at run
    split at run
    next => cases run
    next passed =>
      have supported := (bxxtBootImgVersionCheck_iff _).mp ((bxxtBootImgVersionCheck_cases _).resolve_right passed)
      obtain ⟨parsed, laidRun, run⟩ := Exec.bind_eq_ok.mp run
      obtain ⟨hdr, _, _, laid⟩ := bxxtBootInit1Layout_iff.mp laidRun
      obtain ⟨limits, compatible, kernelParsed, dtbParsed, same⟩ := (bxxtBootInit1Finish_iff laid.mm).mp run
      dsimp only at hdr
      rw [← hdr] at supported
      have whole : hdrBytes = parsed.hdr.bytes := by
        rw [hdr, BootImgHdr.bytes_ofBytes (Region.length_of_slice read).ge,
          List.take_of_length_le (Region.length_of_slice read).le]
      rw [same]
      exact ⟨whole ▸ read, supported, laid.withTrees _ _, limits, compatible, kernelParsed, dtbParsed⟩
  · intro accepted
    refine Exec.bind_eq_ok.mpr ⟨_, accepted.header, ?_⟩
    dsimp only
    rw [BootImgHdr.ofBytes_bytes, (bxxtBootImgVersionCheck_iff _).mpr accepted.supported, if_neg failed.symm]
    refine Exec.bind_eq_ok.mpr ⟨{ final with kernelDtb := b.kernelDtb, dtb := b.dtb }, ?_, ?_⟩
    · exact bxxtBootInit1Layout_iff.mpr ⟨rfl, rfl, rfl, accepted.laidOut.withTrees _ _⟩
    · exact (bxxtBootInit1Finish_iff (b := { final with kernelDtb := b.kernelDtb, dtb := b.dtb })
        accepted.laidOut.mm).mpr
        ⟨accepted.limits, accepted.compatible, accepted.kernelDtb, accepted.dtb, rfl⟩

/-- Whatever `bxxt_boot_init1` returns, a header of a known version was laid out. -/
theorem bxxtBootInit1_laidOut {b final : Boot} {r : Int} {hdr : BootImgHdr}
    (run : bxxtBootInit1 sha1 opts b ptr size check = .ok (r, final))
    (header : ptr.slice 0 BootImgHdr.size = .ok hdr.bytes) (supported : Supported hdr) :
    final.hdr = hdr ∧ LaidOut ptr size final := by
  have failed : bxxtFailed ≠ bxxtSuccess := by decide
  unfold bxxtBootInit1 at run
  obtain ⟨hdrBytes, read, run⟩ := Exec.bind_eq_ok.mp run
  rw [header] at read
  cases read
  dsimp only at run
  rw [BootImgHdr.ofBytes_bytes, (bxxtBootImgVersionCheck_iff _).mpr supported, if_neg failed.symm] at run
  obtain ⟨parsed, laidRun, run⟩ := Exec.bind_eq_ok.mp run
  obtain ⟨same, _, _, laid⟩ := bxxtBootInit1Layout_iff.mp laidRun
  obtain ⟨kernelDtb, dtb, rfl⟩ := bxxtBootInit1Finish_keeps run
  exact ⟨same, laid.withTrees _ _⟩

/-- Without the signature check, a header within the limits is accepted. -/
theorem bxxtBootInit1_success {b final : Boot} {r : Int} {hdr : BootImgHdr}
    (run : bxxtBootInit1 sha1 opts b ptr size false = .ok (r, final))
    (header : ptr.slice 0 BootImgHdr.size = .ok hdr.bytes) (supported : Supported hdr) (limits : BaseLimits hdr) :
    r = bxxtSuccess := by
  have failed : bxxtFailed ≠ bxxtSuccess := by decide
  unfold bxxtBootInit1 at run
  obtain ⟨hdrBytes, read, run⟩ := Exec.bind_eq_ok.mp run
  rw [header] at read
  cases read
  dsimp only at run
  rw [BootImgHdr.ofBytes_bytes, (bxxtBootImgVersionCheck_iff _).mpr supported, if_neg failed.symm] at run
  obtain ⟨parsed, laidRun, run⟩ := Exec.bind_eq_ok.mp run
  have same : parsed.hdr = hdr := (bxxtBootInit1Layout_iff.mp laidRun).1
  unfold bxxtBootInit1Finish at run
  rw [same, (bxxtBootImgBaseCheck_iff _).mpr limits, if_neg failed.symm, initCheck, if_neg (by simp), Exec.ok_bind,
    if_neg failed.symm] at run
  obtain ⟨image, _, run⟩ := Exec.bind_eq_ok.mp run
  obtain ⟨kernelDtb, _, run⟩ := Exec.bind_eq_ok.mp run
  obtain ⟨dtb, _, run⟩ := Exec.bind_eq_ok.mp run
  cases run
  rfl

theorem hdr_unique {first second : BootImgHdr} (header : ptr.slice 0 BootImgHdr.size = .ok first.bytes)
    (again : ptr.slice 0 BootImgHdr.size = .ok second.bytes) : first = second := by
  rw [header] at again
  rw [← BootImgHdr.ofBytes_bytes first, Except.ok.inj again, BootImgHdr.ofBytes_bytes]

/-- The layout of an image with this header, before anything is read behind the header. -/
def layoutOf (hdr : BootImgHdr) (ptr : Region) (size : Nat) : Boot :=
  initPointers (initSizes { bxxtBootNew with hdr } ptr) size

theorem accepted_of_scans {hdr : BootImgHdr} {kernelCompression : KernelCompression} {padSize : UInt32}
    {kernelDtb dtb : List BxxtDtb} (header : ptr.slice 0 BootImgHdr.size = .ok hdr.bytes) (supported : Supported hdr)
    (limits : BaseLimits hdr) (detected : bxxtBootDetectKernelCompression (layoutOf hdr ptr size) =
      .ok kernelCompression)
    (trimmed : trimmedPadSize ptr (layoutOf hdr ptr size).mmPadPtr (layoutOf hdr ptr size).padSize = .ok padSize)
    (kernelParsed : bxxtBootParseDtbSections ptr (layoutOf hdr ptr size).mmKernelPtr hdr.kernelSize.toNat =
      .ok kernelDtb)
    (parsed : bxxtBootParseDtbSections ptr (layoutOf hdr ptr size).mmDtbPtr hdr.dtbSize.toNat = .ok dtb) :
    Accepted sha1 opts ptr size opts.forceNoCompatCheck
      { layoutOf hdr ptr size with kernelCompression, padSize, kernelDtb, dtb } where
  header := header
  supported := supported
  laidOut := by
    have page : hdr.pageSize ≠ 0 := by
      intro zero
      have positive := limits.page
      rw [zero] at positive
      exact absurd positive (by decide)
    exact ⟨⟨rfl, rfl, rfl, rfl, rfl, rfl, rfl⟩, rfl, page, rfl, rfl, rfl, rfl, rfl, rfl, detected, trimmed⟩
  limits := limits
  compatible := by
    intro off
    rw [bxxtBootImgCompatCheck, if_pos off]
    rfl
  kernelDtb := kernelParsed
  dtb := parsed

theorem bxxtBootOpenFile_iff {b final : Boot} {file : Option Bytes} :
    bxxtBootOpenFile sha1 opts b file = .ok (bxxtSuccess, final) ↔
      ∃ content, file = some content ∧ content ≠ [] ∧
        Accepted sha1 opts (Region.ofFile content) content.length opts.forceNoCompatCheck final := by
  have failed : bxxtFailed ≠ bxxtSuccess := by decide
  cases file with
  | none =>
    constructor
    · rintro ⟨⟩
    · rintro ⟨_, ⟨⟩, _⟩
  | some content =>
    rw [bxxtBootOpenFile, bxxtFileOpenMm]
    by_cases empty : content = []
    · rw [if_pos empty]
      constructor
      · rintro ⟨⟩
      · rintro ⟨_, ⟨⟩, nonempty, _⟩
        exact absurd empty nonempty
    · rw [if_neg empty, Exec.bind_eq_ok]
      constructor
      · intro ⟨⟨r, parsed⟩, run, rest⟩
        dsimp only at rest
        split at rest
        next => cases rest
        next success =>
          cases rest
          rw [not_not.mp success] at run
          exact ⟨content, rfl, empty, bxxtBootInit1_iff.mp run⟩
      · rintro ⟨_, ⟨⟩, _, accepted⟩
        exact ⟨_, bxxtBootInit1_iff.mpr accepted, rfl⟩

end Init
end Reader
end Bxxt.Proofs
