import Bxxt.Proofs.ReaderLayout
import Bxxt.Proofs.WriterLayout
import Bxxt.Proofs.MetadataRoundTrip

/-! Where the two layouts meet: the offsets of the sections that packing appended one
after the other are the rounded sums that parsing computes from the header. -/

namespace Bxxt.Proofs
open ByteLayout PagedBytes KeyedLines

structure PageLimits (hdr : BootImgHdr) : Prop where
  version : hdr.headerVersion.toNat ≤ 2
  header : BootImgHdr.size ≤ hdr.pageSize.toNat
  page_le : hdr.pageSize.toNat ≤ 0xffff

structure SizeLimits (sections : Sections) : Prop where
  kernel : 0 < sections.kernel.length
  kernel_le : sections.kernel.length ≤ 0x4000000
  ramdisk_le : sections.ramdisk.length ≤ 0x4000000

structure Describable (hdr : BootImgHdr) (sections : Sections) : Prop extends PageLimits hdr, SizeLimits sections

theorem PageLimits.positive {hdr : BootImgHdr} (limits : PageLimits hdr) : 0 < hdr.pageSize.toNat :=
  lt_of_lt_of_le (by decide) limits.header

theorem PageLimits.small {hdr : BootImgHdr} (limits : PageLimits hdr) : hdr.pageSize.toNat < 2 ^ 31 :=
  lt_of_le_of_lt limits.page_le (by decide)

/-- Pointers and sizes that select exactly these sections, each on a page boundary,
and the unknown data behind them. -/
structure Selects (ptr : Region) (b : Boot) (page : Nat) (sections : Sections) : Prop where
  kernel : b.read b.mmKernelPtr b.kernelSize.toNat = .ok sections.kernel
  ramdisk : b.read b.mmRamdiskPtr b.ramdiskSize.toNat = .ok sections.ramdisk
  second : b.read b.mmSecondPtr b.secondSize.toNat = .ok sections.second
  recoveryDtbo : b.read b.mmRecoveryDtboPtr b.recoveryDtboSize.toNat = .ok sections.recoveryDtbo
  dtb : b.read b.mmDtbPtr b.dtbSize.toNat = .ok sections.dtb
  pad : ptr.bytes.drop b.mmPadPtr = sections.extra ++ List.replicate (padding page sections.extra.length) 0
  aligned : ∀ place ∈ [b.mmKernelPtr, b.mmRamdiskPtr, b.mmSecondPtr, b.mmRecoveryDtboPtr, b.mmDtbPtr, b.mmPadPtr],
    page ∣ place

theorem Describable.baseLimits {base : BootImgHdr} {sections : Sections} (describable : Describable base sections) :
    BaseLimits (sections.hdr base) := by
  have kernel : (UInt32.ofNat sections.kernel.length).toNat = sections.kernel.length := by
    have small := describable.kernel_le
    rw [UInt32.toNat_ofNat']
    omega
  have ramdisk : (UInt32.ofNat sections.ramdisk.length).toNat = sections.ramdisk.length := by
    have small := describable.ramdisk_le
    rw [UInt32.toNat_ofNat']
    omega
  exact ⟨lt_of_lt_of_le (by decide) describable.header, describable.page_le, kernel.symm ▸ describable.kernel,
    kernel.symm ▸ describable.kernel_le, ramdisk.symm ▸ describable.ramdisk_le⟩

section Layout
variable {ptr : Region} {size : Nat} {b : Boot} {base : BootImgHdr} {sections : Sections}

theorem length_section_le (header : BootImgHdr.size ≤ base.pageSize.toNat) (hdr : BootImgHdr) {data : Bytes}
    (member : data ∈ sections.list) : data.length ≤ (imageOf base.pageSize.toNat hdr sections.list).length := by
  have positive : 0 < base.pageSize.toNat := lt_of_lt_of_le (by decide) header
  obtain ⟨index, inside, rfl⟩ := List.getElem_of_mem member
  have bound := offset_add_length_le (0 : UInt8) positive (hdr.bytes :: sections.list) (index + 1)
    (by simpa using inside)
  rw [List.getElem_cons_succ] at bound
  exact le_trans (Nat.le_add_left _ _) bound

theorem length_imageOf {page : Nat} (positive : 0 < page) (hdr : BootImgHdr) (sections : Sections) :
    (imageOf page hdr sections.list).length = roundUp page BootImgHdr.size + roundUp page sections.kernel.length +
      roundUp page sections.ramdisk.length + roundUp page sections.second.length +
      roundUp page sections.recoveryDtbo.length + roundUp page sections.dtb.length +
      roundUp page sections.extra.length := by
  rw [imageOf, length_paged 0 positive]
  simp only [offset, Sections.list, List.length_cons, List.length_nil, List.take_succ_cons,
    List.take_zero, List.map_cons, List.map_nil, List.sum_cons, List.sum_nil, BootImgHdr.length_bytes]
  omega

theorem sectionSizes_eq (sized : Sized b) (same : b.hdr = sections.hdr base)
    (small : ∀ data ∈ sections.list, data.length < 2 ^ 32) :
    sectionSizes b = (sections.list.take 5).map List.length := by
  have stored {data : Bytes} (member : data ∈ sections.list) : (UInt32.ofNat data.length).toNat = data.length := by
    rw [UInt32.toNat_ofNat']
    exact Nat.mod_eq_of_lt (small data member)
  simp only [Sections.list, List.mem_cons, List.not_mem_nil, or_false] at stored
  simp [sectionSizes, Sections.list, sized.kernelSize, sized.ramdiskSize, sized.secondSize, sized.recoveryDtboSize,
    sized.dtbSize, same, Sections.hdr, stored]

theorem exactOffset_eq (sized : Sized b) (same : b.hdr = sections.hdr base)
    (header : BootImgHdr.size ≤ base.pageSize.toNat) (small : ∀ data ∈ sections.list, data.length < 2 ^ 32)
    {index : Nat} (inside : index ≤ 5) :
    exactOffset b index =
      offset base.pageSize.toNat ((sections.hdr base).bytes :: sections.list) (index + 1) := by
  have page : b.pageSize = base.pageSize := by
    rw [sized.pageSize, same]
    rfl
  have front : roundUp base.pageSize.toNat BootImgHdr.size = base.pageSize.toNat := roundUp_eq_page (by decide) header
  rw [exactOffset, sectionSizes_eq sized same small, page, offset_succ_cons, BootImgHdr.length_bytes, front, offset,
    ← List.map_take, List.take_take, Nat.min_eq_left inside, List.map_map]
  rfl

/-- In an image that is not too long nothing wraps. -/
theorem noWrap_imageOf (sized : Sized b) (same : b.hdr = sections.hdr base)
    (header : BootImgHdr.size ≤ base.pageSize.toNat)
    (total : (imageOf base.pageSize.toNat (sections.hdr base) sections.list).length < 2 ^ 32) :
    NoWrap b ∧ (∀ data ∈ sections.list, data.length < 2 ^ 32) ∧
      exactOffset b 5 ≤ (imageOf base.pageSize.toNat (sections.hdr base) sections.list).length := by
  have positive : 0 < base.pageSize.toNat := lt_of_lt_of_le (by decide) header
  have small : ∀ data ∈ sections.list, data.length < 2 ^ 32 := fun data member =>
    lt_of_le_of_lt (length_section_le header (sections.hdr base) member) total
  have bound := offset_add_length_le (0 : UInt8) positive ((sections.hdr base).bytes :: sections.list) (5 + 1)
    (by simp [Sections.list])
  have last : exactOffset b 5 ≤ (imageOf base.pageSize.toNat (sections.hdr base) sections.list).length := by
    rw [exactOffset_eq sized same header small (Nat.le_refl 5)]
    exact le_trans (Nat.le_add_right _ _) bound
  exact ⟨lt_of_le_of_lt last total, small, last⟩

theorem read_section (laid : LaidOut ptr size b) (same : b.hdr = sections.hdr base)
    (header : BootImgHdr.size ≤ base.pageSize.toNat) (small : ∀ data ∈ sections.list, data.length < 2 ^ 32)
    (image : ptr.bytes = imageOf base.pageSize.toNat (sections.hdr base) sections.list) {index : Nat}
    {data : Bytes} (selected : sections.list[index]? = some data) (early : index ≤ 5) :
    b.read (exactOffset b index) data.length = .ok data := by
  have positive : 0 < base.pageSize.toNat := lt_of_lt_of_le (by decide) header
  obtain ⟨inside, rfl⟩ := List.getElem?_eq_some_iff.mp selected
  have behind : index + 1 < ((sections.hdr base).bytes :: sections.list).length := by simpa using inside
  have bound := offset_add_length_le (0 : UInt8) positive _ (index + 1) behind
  have found := section_at (0 : UInt8) positive _ (index + 1) behind
  rw [List.getElem_cons_succ] at bound found
  rw [exactOffset_eq laid.toSized same header small early, Boot.read, laid.mm]
  simp only
  rw [Region.slice_inside (by rw [image]; exact bound), image]
  exact congrArg Except.ok found

theorem selects_of_laidOut (laid : LaidOut ptr size b) (same : b.hdr = sections.hdr base)
    (header : BootImgHdr.size ≤ base.pageSize.toNat)
    (image : ptr.bytes = imageOf base.pageSize.toNat (sections.hdr base) sections.list)
    (total : ptr.bytes.length < 2 ^ 32) : Selects ptr b base.pageSize.toNat sections := by
  have positive : 0 < base.pageSize.toNat := lt_of_lt_of_le (by decide) header
  obtain ⟨fits, small, _⟩ := noWrap_imageOf laid.toSized same header (image ▸ total)
  obtain ⟨kernelAt, ramdiskAt, secondAt, recoveryDtboAt, dtbAt, padAt⟩ := offsets_exact laid.page fits
  have sizes := sectionSizes_eq laid.toSized same small
  simp only [sectionSizes, Sections.list, List.take_succ_cons, List.take_zero, List.map_cons, List.map_nil,
    List.cons.injEq, and_true] at sizes
  obtain ⟨kernelSize, ramdiskSize, secondSize, recoveryDtboSize, dtbSize⟩ := sizes
  have found (index : Nat) {data : Bytes} (selected : sections.list[index]? = some data) (early : index ≤ 5) :=
    read_section laid same header small image selected early
  rw [← laid.mmKernelPtr] at kernelAt
  rw [← laid.mmRamdiskPtr] at ramdiskAt
  rw [← laid.mmSecondPtr] at secondAt
  rw [← laid.mmRecoveryDtboPtr] at recoveryDtboAt
  rw [← laid.mmDtbPtr] at dtbAt
  rw [← laid.mmPadPtr] at padAt
  constructor
  case kernel => rw [kernelAt, kernelSize]; exact found 0 rfl (by decide)
  case ramdisk => rw [ramdiskAt, ramdiskSize]; exact found 1 rfl (by decide)
  case second => rw [secondAt, secondSize]; exact found 2 rfl (by decide)
  case recoveryDtbo => rw [recoveryDtboAt, recoveryDtboSize]; exact found 3 rfl (by decide)
  case dtb => rw [dtbAt, dtbSize]; exact found 4 rfl (by decide)
  case pad =>
    rw [padAt, exactOffset_eq laid.toSized same header small (Nat.le_refl 5), image, imageOf, drop_offset 0 positive]
    simp [Sections.list, pad]
  case aligned =>
    have boundary (index : Nat) (early : index ≤ 5) : base.pageSize.toNat ∣ exactOffset b index := by
      rw [exactOffset_eq laid.toSized same header small early]
      exact offset_dvd _ _
    simp only [List.mem_cons, List.not_mem_nil, or_false, kernelAt, ramdiskAt, secondAt, recoveryDtboAt, dtbAt, padAt]
    rintro place (rfl | rfl | rfl | rfl | rfl | rfl) <;> exact boundary _ (by decide)

private theorem imageOf_starts {page : Nat} {hdr : BootImgHdr} {list : List Bytes} (magic : hdr.magic = bootMagic) :
    ∃ rest, imageOf page hdr list = 65 :: rest := by
  obtain ⟨rest, starts⟩ := hdr.bytes_magic
  rw [imageOf_split, starts, magic]
  exact ⟨_, rfl⟩

theorem layout_exists {start : Boot} (header : BootImgHdr.size ≤ base.pageSize.toNat)
    (kernel : 0 < sections.kernel.length) (magic : base.magic = bootMagic)
    (image : ptr.bytes = imageOf base.pageSize.toNat (sections.hdr base) sections.list)
    (total : ptr.bytes.length < 2 ^ 31) (same : start.hdr = sections.hdr base) :
    ∃ parsed, bxxtBootInit1Layout start ptr ptr.bytes.length = .ok parsed := by
  have sized := initSizes_sized start ptr
  obtain ⟨fits, small, last⟩ := noWrap_imageOf sized same header (by rw [← image]; omega)
  have page : (initSizes start ptr).pageSize = base.pageSize := by
    rw [sized.pageSize, show (initSizes start ptr).hdr = sections.hdr base from same]
    rfl
  have positive : 0 < base.pageSize.toNat := lt_of_lt_of_le (by decide) header
  have nonzero : (initSizes start ptr).pageSize ≠ 0 := by
    rw [page]
    intro zero
    rw [zero] at positive
    exact absurd positive (by decide)
  have kernelPage : base.pageSize.toNat + base.pageSize.toNat ≤ exactOffset (initSizes start ptr) 5 := by
    have whole : base.pageSize.toNat ≤ roundUp base.pageSize.toNat sections.kernel.length :=
      Nat.le_of_dvd (lt_of_lt_of_le kernel (le_roundUp positive _)) (dvd_roundUp _ _)
    rw [exactOffset, sectionSizes_eq sized same small, page]
    simp only [Sections.list, List.take_succ_cons, List.take_zero, List.map_cons, List.map_nil, List.sum_cons]
    omega
  have enough : 2 ≤ base.pageSize.toNat := le_trans (by decide) header
  have half : (initSizes start ptr).read (initSizes start ptr).mmKernelPtr 2 =
      .ok ((ptr.bytes.drop (initSizes start ptr).mmKernelPtr).take 2) := by
    have kernelAt : (initSizes start ptr).mmKernelPtr = base.pageSize.toNat := congrArg UInt32.toNat page
    exact Region.slice_inside (by rw [kernelAt, image]; omega)
  obtain ⟨kernelCompression, detected⟩ := bxxtBootDetectKernelCompression_total half
  have padAt := (offsets_exact nonzero fits).2.2.2.2.2
  obtain ⟨rest, starts⟩ := @imageOf_starts base.pageSize.toNat (sections.hdr base) sections.list magic
  have first : ptr.load 0 = .ok 65 := by
    have readable : 0 < ptr.bytes.length := by rw [image, starts]; simp
    rw [Region.load_inside readable]
    simp [image, starts]
  obtain ⟨padSize, trimmed⟩ := @trimmedPadSize_total ptr ptr.bytes.length ((initSizes start ptr).bPADo.toNat) _
      (by omega) (by rw [padAt, image]; exact last) (by rw [Region.length_mapped]; omega) total first (by decide)
  refine ⟨{ initPointers { initSizes start ptr with kernelCompression } ptr.bytes.length with padSize }, ?_⟩
  rw [bxxtBootInit1Layout, detected, Exec.ok_bind, if_neg nonzero]
  exact Exec.bind_eq_ok.mpr ⟨padSize, trimmed, rfl⟩

theorem header_imageOf (positive : 0 < base.pageSize.toNat) {hdr : BootImgHdr} {list : List Bytes}
    (image : ptr.bytes = imageOf base.pageSize.toNat hdr list) : ptr.slice 0 BootImgHdr.size = .ok hdr.bytes := by
  rw [Region.slice_inside (by rw [image, Nat.zero_add]; exact size_le_length_imageOf positive), image, imageOf_split,
    List.drop_zero, List.take_left' (BootImgHdr.length_bytes _)]

/-- Parsing such an image selects its sections, whatever `bxxt_boot_init1` then
finds in them. -/
theorem selects_of_init1 {sha1 : Bytes → Vector UInt8 20} {opts : Options} {check : Bool} {r : Int}
    {start final : Boot} (header : BootImgHdr.size ≤ base.pageSize.toNat) (supported : Supported base)
    (image : ptr.bytes = imageOf base.pageSize.toNat (sections.hdr base) sections.list)
    (total : ptr.bytes.length < 2 ^ 32)
    (run : bxxtBootInit1 sha1 opts start ptr size check = .ok (r, final)) :
    final.hdr = sections.hdr base ∧ LaidOut ptr size final ∧ Selects ptr final base.pageSize.toNat sections := by
  have positive : 0 < base.pageSize.toNat := lt_of_lt_of_le (by decide) header
  obtain ⟨same, laid⟩ := bxxtBootInit1_laidOut run (header_imageOf positive image)
    ⟨supported.magic, supported.version⟩
  exact ⟨same, laid, selects_of_laidOut laid same header image total⟩

theorem init1_assembled {sha1 : Bytes → Vector UInt8 20} {opts : Options} {check : Bool}
    (header : BootImgHdr.size ≤ base.pageSize.toNat) (kernel : 0 < sections.kernel.length)
    (supported : Supported base) (image : ptr.bytes = imageOf base.pageSize.toNat (sections.hdr base) sections.list)
    (total : ptr.bytes.length < 2 ^ 31) :
    ∃ parsed, parsed.hdr = sections.hdr base ∧ LaidOut ptr ptr.bytes.length parsed ∧
      Selects ptr parsed base.pageSize.toNat sections ∧
      bxxtBootInit1 sha1 opts bxxtBootNew ptr ptr.bytes.length check = bxxtBootInit1Finish sha1 opts parsed check := by
  have positive : 0 < base.pageSize.toNat := lt_of_lt_of_le (by decide) header
  have failed : bxxtFailed ≠ bxxtSuccess := by decide
  obtain ⟨parsed, run⟩ := @layout_exists _ _ _ { bxxtBootNew with hdr := sections.hdr base } header kernel
    supported.magic image total rfl
  obtain ⟨same, _, _, laid⟩ := bxxtBootInit1Layout_iff.mp run
  refine ⟨parsed, same, laid, selects_of_laidOut laid same header image (by omega), ?_⟩
  have passed : bxxtBootImgVersionCheck (sections.hdr base) = bxxtSuccess :=
    (bxxtBootImgVersionCheck_iff _).mpr ⟨supported.magic, supported.version⟩
  rw [bxxtBootInit1, header_imageOf positive image, Exec.ok_bind]
  dsimp only
  rw [BootImgHdr.ofBytes_bytes, passed, if_neg failed.symm, run, Exec.ok_bind]

/-- The searches find the trees of sections that are made of them. -/
theorem init1Finish_trees {sha1 : Bytes → Vector UInt8 20} {opts : Options} {check : Bool} {page : Nat}
    {kernelItems dtbItems : List (Bytes × Bytes)} {kernelTail dtbTail : Bytes} (laid : LaidOut ptr size b)
    (selects : Selects ptr b page sections) (limits : BaseLimits b.hdr)
    (off : check = true → opts.forceNoCompatCheck = true)
    (kernelTrees : Gapped sections.kernel kernelItems kernelTail) (dtbTrees : Gapped sections.dtb dtbItems dtbTail) :
    bxxtBootInit1Finish sha1 opts b check = .ok (bxxtSuccess,
      { b with
        kernelDtb := gappedEntries b.mmKernelPtr kernelItems
        dtb := gappedEntries b.mmDtbPtr dtbItems }) := by
  have scan {items : List (Bytes × Bytes)} {data tail : Bytes} {addr : Nat} {count : UInt32}
    (trees : Gapped data items tail)
      (selected : b.read addr count.toNat = .ok data) :
      bxxtBootParseDtbSections ptr addr count.toNat = .ok (gappedEntries addr items) := by
    have small := count.toNat_lt
    rw [length_of_read selected] at small ⊢
    rw [Boot.read, laid.mm] at selected
    obtain ⟨more, memory⟩ := Region.memory_of_slice selected
    exact bxxtBootParseDtbSections_gapped trees memory small
  refine (bxxtBootInit1Finish_iff laid.mm).mpr ⟨limits, ?_, scan kernelTrees selects.kernel,
    scan dtbTrees selects.dtb, rfl⟩
  intro on
  rw [bxxtBootImgCompatCheck, if_pos (off on)]
  rfl

/-- A file of sections within the limits, made of trees where trees are looked for, is
opened. -/
theorem open_assembled {sha1 : Bytes → Vector UInt8 20} {opts : Options} {file : Bytes}
    {kernelItems dtbItems : List (Bytes × Bytes)} {kernelTail dtbTail : Bytes}
    (describable : Describable base sections) (magic : base.magic = bootMagic)
    (image : file = imageOf base.pageSize.toNat (sections.hdr base) sections.list)
    (total : file.length < 2 ^ 31) (kernelTrees : Gapped sections.kernel kernelItems kernelTail)
    (dtbTrees : Gapped sections.dtb dtbItems dtbTail) :
    ∃ b, bxxtBootOpenFile sha1 opts bxxtBootNew (some file) = .ok (bxxtSuccess, b) ∧ b.hdr = sections.hdr base ∧
      LaidOut (Region.ofFile file) file.length b ∧ Selects (Region.ofFile file) b base.pageSize.toNat sections ∧
      b.kernelDtb = gappedEntries b.mmKernelPtr kernelItems ∧ b.dtb = gappedEntries b.mmDtbPtr dtbItems := by
  have positive := describable.positive
  obtain ⟨parsed, same, laid, selects, run⟩ := @init1_assembled (Region.ofFile file) _ _ sha1 opts
      opts.forceNoCompatCheck describable.header describable.kernel ⟨magic, describable.version⟩ image total
  rw [init1Finish_trees laid selects (same ▸ describable.baseLimits) id kernelTrees dtbTrees] at run
  have nonempty : file ≠ [] := by
    intro none
    have enough := @size_le_length_imageOf _ (sections.hdr base) sections.list positive
    rw [← image, none] at enough
    exact absurd enough (by decide)
  refine ⟨_, bxxtBootOpenFile_iff.mpr ⟨file, rfl, nonempty, bxxtBootInit1_iff.mp run⟩, same,
    laid.withTrees _ _, ?_, rfl, rfl⟩
  exact ⟨selects.kernel, selects.ramdisk, selects.second, selects.recoveryDtbo, selects.dtb, selects.pad,
    selects.aligned⟩

end Layout

section Pack
variable {Source Tree : Type} {lib : Libraries Source Tree} {opts : Options} {dir : Dir Source Tree}

theorem Packs.unique {first second : Sections} (packs : Packs lib opts dir first) (again : Packs lib opts dir second) :
    first = second := by
  obtain ⟨compression, scanned, kernel⟩ := packs.kernel
  obtain ⟨_, scannedAgain, kernelAgain⟩ := again.kernel
  rw [scanned] at scannedAgain
  cases scannedAgain
  rw [kernel] at kernelAgain
  obtain ⟨tree, found, ramdisk⟩ := packs.ramdisk
  obtain ⟨_, foundAgain, ramdiskAgain⟩ := again.ramdisk
  rw [found] at foundAgain
  cases foundAgain
  have dtb := packs.dtb
  rw [again.dtb] at dtb
  cases first
  cases second
  simp only [Sections.mk.injEq]
  exact ⟨Option.some.inj (Except.ok.inj kernelAgain), ramdisk.trans ramdiskAgain.symm,
    packs.second.trans again.second.symm,
    packs.recoveryDtbo.trans again.recoveryDtbo.symm, (Except.ok.inj dtb).symm, packs.extra.trans again.extra.symm⟩

theorem packImage_sections {base : BootImgHdr} {sections : Sections} {img : Option Bytes}
    (read : (bxxtBootHdrFromMetadata dir.metadata).run = .ok (some base)) (positive : 0 < base.pageSize.toNat)
    (small : base.pageSize.toNat < 2 ^ 31) (packs : Packs lib opts dir sections) :
    (packImage lib opts dir).run = .ok (some img) ↔
      img = some (imageOf base.pageSize.toNat (sections.hdr base) sections.list) := by
  rw [packImage_iff read positive small]
  constructor
  · rintro ⟨others, again, rfl⟩
    rw [packs.unique again]
  · exact fun same => ⟨sections, packs, same⟩

/-- Every image that packing assembles within the limits is parsed into the sections
it was assembled from. -/
theorem assembled_sections_found {base : BootImgHdr} {sections : Sections} {img : Bytes} {ptr : Region}
    (read : (bxxtBootHdrFromMetadata dir.metadata).run = .ok (some base)) (packs : Packs lib opts dir sections)
    (describable : Describable base sections) (assembled : (packImage lib opts dir).run = .ok (some (some img)))
    (total : img.length < 2 ^ 31) (memory : ptr.bytes = img) :
    (∃ b, bxxtBootInit1Layout { bxxtBootNew with hdr := BootImgHdr.ofBytes img } ptr img.length = .ok b ∧
      Selects ptr b base.pageSize.toNat sections) ∧
    ∀ sha1 opts check r final, bxxtBootInit1 sha1 opts bxxtBootNew ptr img.length check = .ok (r, final) →
      Selects ptr final base.pageSize.toNat sections := by
  have positive := describable.positive
  have small := describable.small
  have magic := (bxxtBootHdrFromMetadata_iff.mp read).magic
  have image := Option.some.inj ((packImage_sections read positive small packs).mp assembled)
  subst image
  constructor
  · have parsedHdr : BootImgHdr.ofBytes (imageOf base.pageSize.toNat (sections.hdr base) sections.list) =
        sections.hdr base := by
      rw [imageOf_split, BootImgHdr.ofBytes_append]
    rw [parsedHdr, ← memory]
    rw [← memory] at total
    obtain ⟨parsed, run⟩ := @layout_exists _ _ _ { bxxtBootNew with hdr := sections.hdr base } describable.header
      describable.kernel magic memory total rfl
    obtain ⟨same, _, _, laid⟩ := bxxtBootInit1Layout_iff.mp run
    exact ⟨parsed, run, selects_of_laidOut laid same describable.header memory (by omega)⟩
  · intro sha1 opts check r final run
    exact (selects_of_init1 describable.header ⟨magic, describable.version⟩ memory (by rw [memory]; omega) run).2.2

end Pack
/-- Libraries that store everything as it is. A source without text is no device tree. -/
def storedLibraries : Libraries Bytes Bytes where
  gunzip := id
  unlzma := id
  gzip data room := data.take room
  lzma data room := data.take room
  gzip_length _ room := List.length_take_le room _
  lzma_length _ room := List.length_take_le room _
  bxxtDtccDtbToSource := some
  bxxtDtccDtbFromSource source := if source = [] then none else some source
  emptyTree := []
  bxxtCpioArchiveIn fs _ := fs
  bxxtCpioArchiveOut := id
  sha1 _ := Vector.replicate 20 0

/-- What this image is unpacked to, with a kernel and a recovery_dtbo of these bytes. -/
def storedDir (b : Boot) (kernel recoveryDtbo : Bytes) : Dir Bytes Bytes :=
  { (Dir.empty : Dir Bytes Bytes) with
    metadata := some (render (metaEntries b .none))
    kernel := some kernel
    recoveryDtbo := some recoveryDtbo
    ramdisk := some [7] }

def storedSections (kernel recoveryDtbo : Bytes) : Sections := ⟨kernel, [7], [], recoveryDtbo, [], []⟩

section Stored
variable {b : Boot} {kernel recoveryDtbo : Bytes}

theorem storedDir_hdr (plain : PlainStrings b.hdr) (silent : Silent b.hdr) :
    (bxxtBootHdrFromMetadata (storedDir b kernel recoveryDtbo).metadata).run = .ok (some (restoredHdr b.hdr)) :=
  hdrFromMetadata_printed plain silent.unshadowed

theorem storedDir_packs (plain : PlainStrings b.hdr) (silent : Silent b.hdr) (nonempty : kernel ≠ [])
    (kernel_small : kernel.length < 2 ^ 31) (recoveryDtbo_small : recoveryDtbo.length < 2 ^ 31) (opts : Options) :
    Packs storedLibraries opts (storedDir b kernel recoveryDtbo) (storedSections kernel recoveryDtbo) where
  kernel := by
    have scanned := scanMetadata_kernelCompression plain (silent.compressionUnshadowed .none)
    have filtered := bxxtBootCompressFromFile_small storedLibraries KernelCompression.none.code nonempty kernel_small
    rw [compressed_small _ _ kernel_small] at filtered
    refine ⟨KernelCompression.none.code, Exec.bind_eq_ok.mpr ⟨_, scanned, rfl⟩, ?_⟩
    exact (packKernel_iff ..).mpr ⟨kernel, [], filtered, rfl, by simp, by simp [storedSections]⟩
  ramdisk := ⟨[7], rfl, rfl⟩
  second := rfl
  recoveryDtbo := rfl
  dtb := rfl
  extra := by cases opts.skipUnknownData <;> rfl
  short := by
    simp only [Sections.list, storedSections, List.mem_cons, List.not_mem_nil, or_false]
    rintro data (rfl | rfl | rfl | rfl | rfl | rfl)
    case inl => exact kernel_small
    case inr.inr.inr.inl => exact recoveryDtbo_small
    all_goals simp

end Stored

def storedImage (b : Boot) (kernel recoveryDtbo : Bytes) : Bytes :=
  imageOf b.hdr.pageSize.toNat ((storedSections kernel recoveryDtbo).hdr (restoredHdr b.hdr))
    (storedSections kernel recoveryDtbo).list

def plainKernel : Bytes := [1, 2, 3]

theorem plainKernel_limits (recoveryDtbo : Bytes) : SizeLimits (storedSections plainKernel recoveryDtbo) :=
  ⟨by simp [storedSections, plainKernel], by simp [storedSections, plainKernel], by simp [storedSections]⟩

theorem storedBoot_plain (pageSize : UInt32) : PlainStrings (bootWithCmdline [] pageSize).hdr :=
  bootWithCmdline_plain pageSize (by decide) (by simp) (by simp)

theorem storedBoot_silent (pageSize : UInt32) : Silent (bootWithCmdline [] pageSize).hdr :=
  bootWithCmdline_silent pageSize (by decide) (by simp) (by decide)

theorem plainKernel_packs (pageSize : UInt32) (opts : Options) :
    Packs storedLibraries opts (storedDir (bootWithCmdline [] pageSize) plainKernel [])
      (storedSections plainKernel []) :=
  storedDir_packs (storedBoot_plain pageSize) (storedBoot_silent pageSize) (by decide) (by decide) (by decide) opts

theorem plainKernel_image_length : (storedImage (bootWithCmdline [] 0x1000) plainKernel []).length = 0x3000 := by
  have page : (bootWithCmdline [] 0x1000).hdr.pageSize.toNat = 4096 := rfl
  rw [storedImage, length_imageOf (by decide), page]
  rfl

theorem stored_sections_found : ∃ img b, bxxtBootInit1Layout
      { bxxtBootNew with hdr := BootImgHdr.ofBytes img } (Region.ofBuffer img) img.length = .ok b ∧
    Selects (Region.ofBuffer img) b 4096 (storedSections plainKernel []) := by
  have packs := plainKernel_packs 0x1000 ⟨false, false⟩
  have read := @storedDir_hdr _ plainKernel [] (storedBoot_plain 0x1000) (storedBoot_silent 0x1000)
  have describable : Describable (restoredHdr (bootWithCmdline [] 0x1000).hdr) (storedSections plainKernel []) :=
    ⟨⟨by decide, by decide, by decide⟩, plainKernel_limits []⟩
  obtain ⟨img, assembled⟩ : ∃ img, img = storedImage (bootWithCmdline [] 0x1000) plainKernel [] := ⟨_, rfl⟩
  have total : img.length < 2 ^ 31 := by
    rw [assembled, plainKernel_image_length]
    decide
  replace assembled := (packImage_sections read (by decide) (by decide) packs).mpr (congrArg some assembled)
  obtain ⟨b, laid, selects⟩ :=
    (@assembled_sections_found _ _ _ _ _ _ _ _ (Region.ofBuffer _) read packs describable assembled total rfl).1
  exact ⟨_, b, laid, selects⟩

end Bxxt.Proofs
