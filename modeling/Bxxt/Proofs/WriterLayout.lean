import Bxxt.BootPack

/-! The image that packing builds up. Every step keeps the buffer equal to a list of
sections, each filled up to a page, behind the header; the sizes stored in between
change the header alone. -/

namespace Bxxt.Proofs
open ByteLayout PagedBytes

structure Sections where
  kernel : Bytes
  ramdisk : Bytes
  second : Bytes
  recoveryDtbo : Bytes
  dtb : Bytes
  extra : Bytes

namespace Sections

def list (sections : Sections) : List Bytes :=
  [sections.kernel, sections.ramdisk, sections.second, sections.recoveryDtbo, sections.dtb, sections.extra]

def hdr (sections : Sections) (base : BootImgHdr) : BootImgHdr :=
  { base with
    kernelSize := UInt32.ofNat sections.kernel.length
    ramdiskSize := UInt32.ofNat sections.ramdisk.length
    secondSize := UInt32.ofNat sections.second.length
    recoveryDtboSize := UInt32.ofNat sections.recoveryDtbo.length
    dtbSize := UInt32.ofNat sections.dtb.length }

end Sections

/-- A header and sections behind it, each filled up to a page. -/
def imageOf (page : Nat) (hdr : BootImgHdr) (sections : List Bytes) : Bytes := paged page 0 (hdr.bytes :: sections)

section Steps
variable {page : Nat} {hdr : BootImgHdr} {sections : List Bytes}

theorem size_le_length_imageOf (positive : 0 < page) : BootImgHdr.size ≤ (imageOf page hdr sections).length := by
  have inside := offset_add_length_le (0 : UInt8) positive (hdr.bytes :: sections) 0 (by simp)
  simpa [imageOf] using inside

theorem imageOf_split (page : Nat) (hdr : BootImgHdr) (sections : List Bytes) :
    imageOf page hdr sections =
      hdr.bytes ++ (List.replicate (padding page BootImgHdr.size) 0 ++ paged page 0 sections) := by
  simp [imageOf, pad]

/-- Storing sizes in the header leaves the sections alone. -/
theorem storeHdr_imageOf (positive : 0 < page) (change : BootImgHdr → BootImgHdr) :
    storeHdr (some (imageOf page hdr sections)) change = .ok (some (imageOf page (change hdr) sections)) := by
  have enough := @size_le_length_imageOf _ hdr sections positive
  rw [storeHdr, if_pos enough, imageOf_split page hdr, BootImgHdr.ofBytes_append,
    List.drop_left' (BootImgHdr.length_bytes hdr), imageOf_split]

theorem page_dvd_length_imageOf (positive : 0 < page) : page ∣ (imageOf page hdr sections).length := by
  rw [imageOf, length_paged 0 positive]
  exact offset_dvd _ _

theorem pad_imageOf (positive : 0 < page) (data : Bytes) :
    pad page 0 (imageOf page hdr sections ++ data) = imageOf page hdr (sections ++ [data]) := by
  rw [pad_append 0 (page_dvd_length_imageOf positive), imageOf, imageOf, ← List.cons_append, paged_append]
  simp

theorem padData_iff (positive : 0 < page) (small : page < 2 ^ 31) {data : Bytes} {result : Option Bytes} :
    padData (some (imageOf page hdr sections)) data page = .ok result ↔
      data.length < 2 ^ 31 ∧ result = some (imageOf page hdr (sections ++ [data])) := by
  rw [padData, Exec.bind_eq_ok]
  constructor
  · intro ⟨grown, appended, aligned⟩
    obtain ⟨short, rfl⟩ := bxxtBufferConcatFromData_iff.mp appended
    rw [bxxtBufferAlign_small _ positive small, pad_imageOf positive] at aligned
    cases aligned
    exact ⟨short, rfl⟩
  · rintro ⟨short, rfl⟩
    refine ⟨_, bxxtBufferConcatFromData_iff.mpr ⟨short, rfl⟩, ?_⟩
    rw [bxxtBufferAlign_small _ positive small, pad_imageOf positive]

theorem appendSection_iff (positive : 0 < page) (small : page < 2 ^ 31) {store : UInt32 → BootImgHdr → BootImgHdr}
    {tmp : Bytes} {result : Option Bytes} :
    appendSection (some (imageOf page hdr sections)) page store tmp = .ok result ↔
      tmp.length < 2 ^ 31 ∧
        result = some (imageOf page (store (UInt32.ofNat tmp.length) hdr) (sections ++ [tmp])) := by
  rw [appendSection, storeHdr_imageOf positive, Exec.ok_bind]
  exact padData_iff positive small

theorem imageOf_empty : imageOf page hdr (sections ++ [[]]) = imageOf page hdr sections := by
  simp [imageOf, paged_append]

/-- An empty file adds an empty section, and the size that is not stored is zero already. -/
theorem appendFile_iff (positive : 0 < page) (small : page < 2 ^ 31) {store : UInt32 → BootImgHdr → BootImgHdr}
    {file : Option Bytes} {result : Option Bytes} (unset : store 0 hdr = hdr) :
    appendFile (some (imageOf page hdr sections)) page store file = .ok result ↔
      (file.getD []).length < 2 ^ 31 ∧
        result = some (imageOf page (store (UInt32.ofNat (file.getD []).length) hdr) (sections ++ [file.getD []])) := by
  cases content : file.getD [] with
  | nil =>
    rw [appendFile, content, if_neg (by simp)]
    have cleared : store (UInt32.ofNat ([] : Bytes).length) hdr = hdr := unset
    rw [cleared, imageOf_empty]
    constructor
    · rintro ⟨⟩
      exact ⟨by simp, rfl⟩
    · rintro ⟨_, rfl⟩
      rfl
  | cons byte rest =>
    rw [appendFile, content, if_pos (by simp), Exec.bind_eq_ok, ← content]
    constructor
    · intro ⟨tmp, read, appended⟩
      obtain ⟨_, rfl⟩ := bxxtBootReadFrom_iff.mp read
      exact (appendSection_iff positive small).mp appended
    · intro appended
      exact ⟨_, bxxtBootReadFrom_iff.mpr ⟨appended.1, rfl⟩, (appendSection_iff positive small).mpr appended⟩

theorem appendUnknown_iff (positive : 0 < page) (small : page < 2 ^ 31) {opts : Options} {file : Option Bytes}
    {extra : Bytes} {result : Option Bytes} (unknown : extra = if opts.skipUnknownData then [] else file.getD []) :
    appendUnknown opts (some (imageOf page hdr sections)) page file = .ok result ↔
      extra.length < 2 ^ 31 ∧ result = some (imageOf page hdr (sections ++ [extra])) := by
  by_cases appended : opts.skipUnknownData = false ∧ 0 < (file.getD []).length
  · rw [appended.1] at unknown
    simp only [Bool.false_eq_true, ↓reduceIte] at unknown
    rw [appendUnknown, if_pos appended, Exec.bind_eq_ok, unknown]
    constructor
    · intro ⟨tmp, read, padded⟩
      obtain ⟨_, rfl⟩ := bxxtBootReadFrom_iff.mp read
      exact (padData_iff positive small).mp padded
    · intro padded
      exact ⟨_, bxxtBootReadFrom_iff.mpr ⟨padded.1, rfl⟩, (padData_iff positive small).mpr padded⟩
  · have none : extra = [] := by
      rw [unknown]
      cases skipped : opts.skipUnknownData with
      | true => rfl
      | false =>
        rw [skipped] at appended
        simpa using appended
    rw [appendUnknown, if_neg appended, none, imageOf_empty]
    constructor
    · rintro ⟨⟩
      exact ⟨by simp, rfl⟩
    · rintro ⟨_, rfl⟩
      rfl

end Steps

section Pack
variable {Source Tree : Type} {lib : Libraries Source Tree} {opts : Options} {dir : Dir Source Tree}

structure Packs (lib : Libraries Source Tree) (opts : Options) (dir : Dir Source Tree)
    (sections : Sections) : Prop where
  kernel : ∃ compression, packCompression dir = .ok compression ∧
    packKernel lib dir compression = .ok (some sections.kernel)
  ramdisk : ∃ tree, dir.ramdisk = some tree ∧ sections.ramdisk = lib.bxxtCpioArchiveOut tree
  second : sections.second = dir.second.getD []
  recoveryDtbo : sections.recoveryDtbo = dir.recoveryDtbo.getD []
  dtb : bxxtBootCompileFs2blob lib dir.dts = .ok sections.dtb
  extra : sections.extra = if opts.skipUnknownData then [] else dir.extraData.getD []
  short : ∀ data ∈ sections.list, data.length < 2 ^ 31

theorem intToSize_small {value : UInt32} (small : value.toNat < 2 ^ 31) : intToSize value = value.toNat := if_pos small

private theorem aligned_hdr {page : Nat} (positive : 0 < page) (small : page < 2 ^ 31) (hdr : BootImgHdr) :
    bxxtBufferAlign hdr.bytes page = .ok (some (imageOf page hdr [])) := by
  rw [bxxtBufferAlign_small _ positive small]
  simp [imageOf]

/-- The front of the image holds the kernel, the ramdisk and the second stage. -/
theorem packFront_iff {hdr : BootImgHdr} {front : Nat × Option Bytes}
    (read : (bxxtBootHdrFromMetadata dir.metadata).run = .ok (some hdr))
    (positive : 0 < hdr.pageSize.toNat) (small : hdr.pageSize.toNat < 2 ^ 31) :
    (packFront lib dir).run = .ok (some front) ↔
      ∃ compression kernel tree, packCompression dir = .ok compression ∧
        packKernel lib dir compression = .ok (some kernel) ∧ dir.ramdisk = some tree ∧
        kernel.length < 2 ^ 31 ∧ (lib.bxxtCpioArchiveOut tree).length < 2 ^ 31 ∧
          (dir.second.getD []).length < 2 ^ 31 ∧
        front = (hdr.pageSize.toNat, some (imageOf hdr.pageSize.toNat
          { hdr with
            kernelSize := UInt32.ofNat kernel.length
            ramdiskSize := UInt32.ofNat (lib.bxxtCpioArchiveOut tree).length
            secondSize := UInt32.ofNat (dir.second.getD []).length }
          [kernel, lib.bxxtCpioArchiveOut tree, dir.second.getD []])) := by
  have reads := bxxtBootHdrFromMetadata_iff.mp read
  have unset (kernelSize ramdiskSize : UInt32) :
      storeSecondSize 0 (storeRamdiskSize ramdiskSize (storeKernelSize kernelSize hdr)) =
        storeRamdiskSize ramdiskSize (storeKernelSize kernelSize hdr) :=
    congrArg (fun size => storeSecondSize size (storeRamdiskSize ramdiskSize (storeKernelSize kernelSize hdr)))
      reads.secondSize.symm
  simp only [packFront, attempt_bind, attempt_lift, OptionT.run_mk, read]
  constructor
  · intro ⟨_, sameHdr, compression, scanned, img, aligned, kernel, packed, img1, placed, tree, found, img2, placed2,
      img3, placed3, last⟩
    cases sameHdr
    rw [intToSize_small small] at aligned placed placed2 placed3 last
    rw [aligned_hdr positive small] at aligned
    cases aligned
    obtain ⟨kernelShort, rfl⟩ := (appendSection_iff positive small).mp placed
    obtain ⟨ramdiskShort, rfl⟩ := (appendSection_iff positive small).mp placed2
    obtain ⟨secondShort, rfl⟩ := (appendFile_iff positive small (unset _ _)).mp placed3
    cases last
    exact ⟨compression, kernel, tree, scanned, packed, Except.ok.inj found, kernelShort, ramdiskShort,
      secondShort, rfl⟩
  · intro ⟨compression, kernel, tree, scanned, packed, found, kernelShort, ramdiskShort, secondShort, same⟩
    refine ⟨hdr, rfl, compression, scanned, ?_⟩
    rw [intToSize_small small]
    refine ⟨_, aligned_hdr positive small hdr, kernel, packed, _,
      (appendSection_iff positive small).mpr ⟨kernelShort, rfl⟩, tree, by rw [found], _,
      (appendSection_iff positive small).mpr ⟨ramdiskShort, rfl⟩, _,
      (appendFile_iff positive small (unset _ _)).mpr ⟨secondShort, rfl⟩, ?_⟩
    rw [same]
    rfl

/-- The back adds the two sections of later header versions and the unknown data. -/
theorem packBack_iff {page : Nat} {hdr : BootImgHdr} {sections : List Bytes} {img : Option Bytes} (positive : 0 < page)
    (small : page < 2 ^ 31) (unset : hdr.recoveryDtboSize = 0) :
    packBack lib opts dir (page, some (imageOf page hdr sections)) = .ok img ↔
      ∃ dtb extra, bxxtBootCompileFs2blob lib dir.dts = .ok dtb ∧
        extra = (if opts.skipUnknownData then [] else dir.extraData.getD []) ∧
        (dir.recoveryDtbo.getD []).length < 2 ^ 31 ∧ dtb.length < 2 ^ 31 ∧ extra.length < 2 ^ 31 ∧
        img = some (imageOf page
          { hdr with
            recoveryDtboSize := UInt32.ofNat (dir.recoveryDtbo.getD []).length
            dtbSize := UInt32.ofNat dtb.length }
          (sections ++ [dir.recoveryDtbo.getD [], dtb, extra])) := by
  have cleared : storeRecoveryDtboSize 0 hdr = hdr :=
    congrArg (fun size => storeRecoveryDtboSize size hdr) unset.symm
  have joined (first second third : Bytes) : sections ++ [first] ++ [second] ++ [third] =
      sections ++ [first, second, third] := by
    simp
  simp only [packBack, Exec.bind_eq_ok]
  constructor
  · intro ⟨img1, placed1, dtb, compiled, img2, placed2, last⟩
    obtain ⟨recoveryDtboShort, rfl⟩ := (appendFile_iff positive small cleared).mp placed1
    obtain ⟨dtbShort, rfl⟩ := (appendSection_iff positive small).mp placed2
    obtain ⟨extraShort, rfl⟩ := (appendUnknown_iff positive small rfl).mp last
    exact ⟨dtb, _, compiled, rfl, recoveryDtboShort, dtbShort, extraShort, by rw [joined]; rfl⟩
  · intro ⟨dtb, extra, compiled, unknown, recoveryDtboShort, dtbShort, extraShort, same⟩
    refine ⟨_, (appendFile_iff positive small cleared).mpr ⟨recoveryDtboShort, rfl⟩, dtb, compiled, _,
      (appendSection_iff positive small).mpr ⟨dtbShort, rfl⟩, ?_⟩
    refine (appendUnknown_iff positive small unknown).mpr ⟨extraShort, ?_⟩
    rw [same, joined]
    rfl

/-- Packing lays out the sections of the directory, with their sizes in the header
that METADATA gave. -/
theorem packImage_iff {hdr : BootImgHdr} {img : Option Bytes}
    (read : (bxxtBootHdrFromMetadata dir.metadata).run = .ok (some hdr))
    (positive : 0 < hdr.pageSize.toNat) (small : hdr.pageSize.toNat < 2 ^ 31) :
    (packImage lib opts dir).run = .ok (some img) ↔
      ∃ sections, Packs lib opts dir sections ∧
        img = some (imageOf hdr.pageSize.toNat (sections.hdr hdr) sections.list) := by
  have unset (kernelSize ramdiskSize secondSize : UInt32) :
      ({ hdr with kernelSize, ramdiskSize, secondSize } : BootImgHdr).recoveryDtboSize = 0 :=
    (bxxtBootHdrFromMetadata_iff.mp read).recoveryDtboSize
  simp only [packImage, attempt_bind, attempt_lift]
  constructor
  · intro ⟨front, packedFront, packedBack⟩
    obtain ⟨compression, kernel, tree, scanned, packed, found, kernelShort, ramdiskShort, secondShort, rfl⟩ :=
      (packFront_iff read positive small).mp packedFront
    obtain ⟨dtb, extra, compiled, unknown, recoveryDtboShort, dtbShort, extraShort, rfl⟩ :=
      (packBack_iff positive small (unset _ _ _)).mp packedBack
    refine ⟨⟨kernel, lib.bxxtCpioArchiveOut tree, dir.second.getD [], dir.recoveryDtbo.getD [], dtb, extra⟩,
      ?_, rfl⟩
    refine ⟨⟨compression, scanned, packed⟩, ⟨tree, found, rfl⟩, rfl, rfl, compiled, unknown, ?_⟩
    simp only [Sections.list, List.mem_cons, List.not_mem_nil, or_false]
    rintro data (rfl | rfl | rfl | rfl | rfl | rfl) <;> assumption
  · intro ⟨sections, packs, same⟩
    obtain ⟨compression, scanned, packed⟩ := packs.kernel
    obtain ⟨tree, found, ramdisk⟩ := packs.ramdisk
    have short {data : Bytes} (member : data ∈ sections.list) := packs.short data member
    simp only [Sections.list, List.mem_cons, List.not_mem_nil, or_false] at short
    refine ⟨_, (packFront_iff read positive small).mpr ⟨compression, sections.kernel, tree, scanned, packed, found,
      short (by simp), ramdisk ▸ short (by simp), packs.second ▸ short (by simp), rfl⟩, ?_⟩
    refine (packBack_iff positive small (unset _ _ _)).mpr ⟨sections.dtb, sections.extra, packs.dtb, packs.extra,
      packs.recoveryDtbo ▸ short (by simp), short (by simp), short (by simp), ?_⟩
    rw [same, ← ramdisk, ← packs.second, ← packs.recoveryDtbo]
    rfl

/-- A page size that does not fit in an `int` only makes images that are too long. -/
theorem bxxtBufferAlign_large {pageSize : UInt32} (large : 2 ^ 31 ≤ pageSize.toNat) {buff grown : Bytes}
    (nonempty : 0 < buff.length) (aligned : bxxtBufferAlign buff (intToSize pageSize) = .ok (some grown)) :
    2 ^ 31 ≤ grown.length := by
  have widened : intToSize pageSize = pageSize.toNat + (2 ^ 64 - 2 ^ 32) := if_neg (by omega)
  have bound := pageSize.toNat_lt
  rw [bxxtBufferAlign, if_neg (by omega)] at aligned
  have length := bxxtBufferResize_length (Except.ok.inj aligned)
  obtain ⟨lost, kept, low⟩ :=
    asInt_spec ((intToSize pageSize - buff.length % intToSize pageSize) % intToSize pageSize : Nat)
  rcases Nat.lt_or_ge buff.length (intToSize pageSize) with short | long
  · rw [Nat.mod_eq_of_lt short, Nat.mod_eq_of_lt (a := intToSize pageSize - buff.length) (by omega)] at kept length
    omega
  · omega

theorem padData_large {pageSize : UInt32} (large : 2 ^ 31 ≤ pageSize.toNat) {img : Option Bytes} {data grown : Bytes}
    (nonempty : ∀ memory, img = some memory → 0 < memory.length)
    (padded : padData img data (intToSize pageSize) = .ok (some grown)) : 2 ^ 31 ≤ grown.length := by
  obtain ⟨whole, appended, aligned⟩ := Exec.bind_eq_ok.mp padded
  obtain ⟨old, rfl, _, rfl⟩ := bxxtBufferConcatFromData_eq_ok appended
  refine bxxtBufferAlign_large large ?_ aligned
  have before := nonempty old rfl
  rw [List.length_append]
  omega

theorem storeHdr_length {img stored : Option Bytes} {change : BootImgHdr → BootImgHdr}
    (run : storeHdr img change = .ok stored) : ∃ memory, stored = some memory ∧ 0 < memory.length := by
  unfold storeHdr at run
  split at run
  next => cases run
  next memory =>
    split at run
    next => cases run; exact ⟨_, rfl, by simp [BootImgHdr.size]⟩
    next => cases run

theorem packBack_large {pageSize : UInt32} (large : 2 ^ 31 ≤ pageSize.toNat) {img : Option Bytes} {image : Bytes}
    (run : packBack lib opts dir (intToSize pageSize, img) = .ok (some image)) : 2 ^ 31 ≤ image.length := by
  simp only [packBack, Exec.bind_eq_ok] at run
  obtain ⟨_, _, dtb, _, img, placed, last⟩ := run
  obtain ⟨stored, ran, padded⟩ := Exec.bind_eq_ok.mp placed
  obtain ⟨memory, rfl, before⟩ := storeHdr_length ran
  have placedLarge {grown : Bytes} (here : img = some grown) : 2 ^ 31 ≤ grown.length := by
    rw [here] at padded
    refine padData_large large ?_ padded
    rintro memory ⟨⟩
    exact before
  unfold appendUnknown at last
  split at last
  next =>
    obtain ⟨tmp, _, last⟩ := Exec.bind_eq_ok.mp last
    refine padData_large large ?_ last
    intro memory here
    have long := placedLarge here
    omega
  next =>
    cases last
    exact placedLarge rfl

theorem page_of_packImage {hdr : BootImgHdr} {image : Bytes}
    (read : (bxxtBootHdrFromMetadata dir.metadata).run = .ok (some hdr))
    (run : (packImage lib opts dir).run = .ok (some (some image))) (short : image.length < 2 ^ 31) :
    0 < hdr.pageSize.toNat ∧ hdr.pageSize.toNat < 2 ^ 31 := by
  simp only [packImage, packFront, attempt_bind, attempt_lift, OptionT.run_mk, read] at run
  obtain ⟨front, ⟨_, same, _, _, _, aligned, _, _, _, _, _, _, _, _, _, _, last⟩, back⟩ := run
  cases same
  cases last
  constructor
  · rw [Nat.pos_iff_ne_zero]
    intro zero
    have widened : intToSize hdr.pageSize = 0 := by rw [intToSize_small (by omega), zero]
    rw [bxxtBufferAlign, widened, if_pos rfl] at aligned
    cases aligned
  · by_contra large
    have long := packBack_large (Nat.le_of_not_lt large) back
    omega

end Pack
end Bxxt.Proofs
