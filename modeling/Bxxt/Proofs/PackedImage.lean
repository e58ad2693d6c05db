import Bxxt.Proofs.ImageLayout

/-! The image file that packing writes: the assembled sections behind a header whose
id is the digest of what parsing finds in the image without it. The digest covers
no byte of the header, so it still holds after it was stored. -/

namespace Bxxt.Proofs
open ByteLayout PagedBytes

/-- What is hashed of an image with this header version. -/
def messageOf (version : UInt32) (sections : Sections) : Bytes :=
  let sized (data : Bytes) := data ++ leBytes 4 data.length
  sized sections.kernel ++ sized sections.ramdisk ++ sized sections.second ++
    (if version > 0 then sized sections.recoveryDtbo else []) ++ (if version > 1 then sized sections.dtb else [])

section Message
variable {ptr : Region} {b : Boot} {size page : Nat} {sections : Sections}

/-- An empty section is read as no bytes, so testing its size first changes nothing. -/
theorem hashOptional_eq (b : Boot) (addr : Nat) (size : UInt32) :
    hashOptional b addr size = b.read addr size.toNat := by
  unfold hashOptional
  split
  next => rfl
  next none =>
    have zero : size.toNat = 0 := by
      rw [gt_iff_lt, UInt32.lt_iff_toNat_lt, UInt32.toNat_zero] at none
      omega
    rw [zero, Boot.read]
    cases b.mm <;> rfl

theorem hashSince_eq {version size : UInt32} {addr : Nat} {data : Bytes} (read : b.read addr size.toNat = .ok data)
    (length : size.toNat = data.length) :
    hashSince b version addr size = .ok (if b.version > version then data ++ leBytes 4 data.length else []) := by
  unfold hashSince
  split
  next => rw [hashOptional_eq, read, length]; rfl
  next => rfl

/-- The message is a function of the header version and the selected sections. -/
theorem message_of_selects (laid : LaidOut ptr size b) (selects : Selects ptr b page sections) :
    bxxtBootImgMessage b = .ok (messageOf b.hdr.headerVersion sections) := by
  have recoveryDtbo := @hashSince_eq _ 0 _ _ _ selects.recoveryDtbo (length_of_read selects.recoveryDtbo)
  have dtb := @hashSince_eq _ 1 _ _ _ selects.dtb (length_of_read selects.dtb)
  rw [bxxtBootImgMessage, hashOptional_eq, recoveryDtbo, dtb, selects.kernel, selects.ramdisk, selects.second,
    length_of_read selects.kernel, length_of_read selects.ramdisk, length_of_read selects.second, laid.version]
  simp only [Exec.ok_bind, messageOf, List.append_assoc]
  rfl

theorem signature_of_selects {sha1 : Bytes → Vector UInt8 20} (laid : LaidOut ptr size b)
    (selects : Selects ptr b page sections) :
    bxxtBootImgSignature sha1 b = .ok (signatureBytes (sha1 (messageOf b.hdr.headerVersion sections))) := by
  rw [bxxtBootImgSignature, message_of_selects laid selects]
  rfl

end Message

section Pack
variable {Source Tree : Type} {lib : Libraries Source Tree} {opts : Options} {dir : Dir Source Tree}

theorem packSign_imageOf {page : Nat} {hdr : BootImgHdr} {list : List Bytes} {signed : Bytes} (positive : 0 < page)
    (run : packSign lib opts (some (imageOf page hdr list)) = .ok signed) :
    ∃ r boot sha1sum, bxxtBootInit1 lib.sha1 opts bxxtBootNew (Region.ofBuffer (imageOf page hdr list))
        (imageOf page hdr list).length false = .ok (r, boot) ∧
      bxxtBootImgSignature lib.sha1 boot = .ok sha1sum ∧ boot.mm ≠ none ∧
      signed = imageOf page { hdr with id := sha1sum } list := by
  obtain ⟨⟨r, boot⟩, parsed, run⟩ := Exec.bind_eq_ok.mp run
  obtain ⟨sha1sum, hashed, run⟩ := Exec.bind_eq_ok.mp run
  split at run
  next => cases run
  next region mm =>
    rw [storeHdr_imageOf positive, Exec.ok_bind] at run
    cases run
    exact ⟨r, boot, sha1sum, parsed, hashed, by rw [mm]; simp, rfl⟩

/-- A packed image: its sections, and the id that was computed from it before. -/
structure Packed (lib : Libraries Source Tree) (opts : Options) (dir : Dir Source Tree) (base : BootImgHdr)
    (sections : Sections) (id : Vector UInt8 32) (image : Bytes) : Prop where
  packs : Packs lib opts dir sections
  unsigned : (packImage lib opts dir).run = .ok
    (some (some (imageOf base.pageSize.toNat (sections.hdr base) sections.list)))
  shape : image = imageOf base.pageSize.toNat (sections.hdr { base with id }) sections.list
  complete : image.length ≤ writeMax
  parsed : ∃ r boot, bxxtBootInit1 lib.sha1 opts bxxtBootNew
      (Region.ofBuffer (imageOf base.pageSize.toNat (sections.hdr base) sections.list)) image.length
        false = .ok (r, boot) ∧
    bxxtBootImgSignature lib.sha1 boot = .ok id ∧ boot.mm ≠ none

theorem length_imageOf_hdr {page : Nat} (first second : BootImgHdr) (list : List Bytes) :
    (imageOf page first list).length = (imageOf page second list).length := by
  simp only [imageOf_split, List.length_append, BootImgHdr.length_bytes]

theorem packSign_length {memory signed : Bytes} (run : packSign lib opts (some memory) = .ok signed) :
    signed.length = memory.length := by
  obtain ⟨_, _, run⟩ := Exec.bind_eq_ok.mp run
  obtain ⟨_, _, run⟩ := Exec.bind_eq_ok.mp run
  split at run
  next => cases run
  next =>
    obtain ⟨stored, ran, run⟩ := Exec.bind_eq_ok.mp run
    unfold storeHdr at ran
    dsimp only at ran
    split at ran
    next enough =>
      cases ran
      cases run
      simp only [List.length_append, BootImgHdr.length_bytes, List.length_drop]
      omega
    next => cases ran

theorem packed_of_success {writable : Bool} {file : Option Bytes}
    (run : bxxtBootPackAll lib opts dir writable = .ok (bxxtSuccess, file)) :
    ∃ base sections id image, (bxxtBootHdrFromMetadata dir.metadata).run = .ok (some base) ∧
      0 < base.pageSize.toNat ∧ base.pageSize.toNat < 2 ^ 31 ∧
      file = some image ∧ Packed lib opts dir base sections id image := by
  obtain ⟨result, assembled, run⟩ := Exec.bind_eq_ok.mp run
  cases result with
  | none => cases run
  | some img =>
    obtain ⟨signed, ran, wrote⟩ := Exec.bind_eq_ok.mp run
    obtain ⟨rfl, complete, _⟩ := bxxtBootWriteTo_success (Except.ok.inj wrote) rfl
    cases img with
    | none => cases ran
    | some memory =>
      have short : memory.length < 2 ^ 31 := by
        have bound : writeMax < 2 ^ 31 := by decide
        rw [← packSign_length ran]
        omega
      obtain ⟨base, read⟩ : ∃ base, (bxxtBootHdrFromMetadata dir.metadata).run = .ok (some base) := by
        simp only [packImage, packFront, attempt_bind] at assembled
        obtain ⟨_, ⟨base, read, _⟩, _⟩ := assembled
        exact ⟨base, read⟩
      obtain ⟨positive, small⟩ := page_of_packImage read assembled short
      obtain ⟨sections, packs, same⟩ := (packImage_iff read positive small).mp assembled
      cases same
      obtain ⟨r, boot, sha1sum, parsed, hashed, mm, rfl⟩ := packSign_imageOf positive ran
      refine ⟨base, sections, sha1sum, _, read, positive, small, rfl, packs, assembled, rfl, complete, r,
        boot, ?_, hashed, mm⟩
      rw [Region.ofBuffer_bytes, length_imageOf_hdr _ (sections.hdr base)]
      exact parsed

/-- Behind the header the two images are the same, and a mapped file has more to read. -/
theorem extends_imageOf {page : Nat} {first second : BootImgHdr} {list : List Bytes} {more : Region}
    (image : more.bytes = imageOf page second list) :
    Extends BootImgHdr.size (Region.ofBuffer (imageOf page first list)) more := by
  intro addr count bytes behind read
  have split (hdr : BootImgHdr) : (imageOf page hdr list).drop addr =
      (List.replicate (padding page BootImgHdr.size) 0 ++ paged page 0 list).drop (addr - BootImgHdr.size) := by
    rw [imageOf_split, List.drop_append, List.drop_eq_nil_of_le (by rw [BootImgHdr.length_bytes]; exact behind),
      BootImgHdr.length_bytes, List.nil_append]
  rcases Nat.eq_zero_or_pos count with none | positive
  · rw [none, Region.slice, if_pos rfl] at read ⊢
    exact read
  · obtain ⟨inside, rfl⟩ := Region.slice_eq_ok positive read
    have mapped : (Region.ofBuffer (imageOf page first list)).mapped = imageOf page first list := by
      simp [Region.mapped, Region.ofBuffer]
    rw [mapped, length_imageOf_hdr first second, ← image] at inside
    rw [Region.slice_inside inside, image, mapped, split, split]

/-- The written image is accepted when it is opened again, whatever the options, and
its sections are the packed ones. -/
theorem Packed.reopened {base : BootImgHdr} {sections : Sections} {id : Vector UInt8 32} {image : Bytes}
    (packed : Packed lib opts dir base sections id image) (describable : Describable base sections)
    (magic : base.magic = bootMagic) (again : Options) :
    ∃ b, bxxtBootOpenFile lib.sha1 again bxxtBootNew (some image) = .ok (bxxtSuccess, b) ∧
      b.hdr = sections.hdr { base with id } ∧ LaidOut (Region.ofFile image) image.length b ∧
      Selects (Region.ofFile image) b base.pageSize.toNat sections := by
  have positive := describable.positive
  have small : writeMax < 2 ^ 31 := by decide
  have shape := packed.shape
  have total : image.length < 2 ^ 31 := lt_of_le_of_lt packed.complete small
  have length : (imageOf base.pageSize.toNat (sections.hdr base) sections.list).length = image.length := by
    rw [shape]
    exact length_imageOf_hdr _ _ _
  -- the run that signed the image has parsed it already
  obtain ⟨r, boot, run, _, _⟩ := packed.parsed
  have header := @header_imageOf (Region.ofBuffer _) _ positive (sections.hdr base) sections.list rfl
  have accepted := bxxtBootInit1_success run header ⟨magic, describable.version⟩ describable.baseLimits
  subst accepted
  have found := bxxtBootInit1_iff.mp run
  obtain ⟨same, laid, _⟩ := selects_of_init1 describable.header ⟨magic, describable.version⟩ rfl
    (by rw [Region.ofBuffer_bytes, length]; omega) run
  have fits := (noWrap_imageOf laid.toSized same describable.header (by omega)).1
  obtain ⟨kernelBehind, dtbBehind⟩ := laid.behind_page fits
  have page : BootImgHdr.size ≤ boot.pageSize.toNat := by
    rw [laid.pageSize, same]
    exact describable.header
  have wider := @extends_imageOf _ (sections.hdr base) _ _ (Region.ofFile image) shape
  -- the same image with its id is laid out the same way
  have describableAgain : Describable { base with id } sections :=
    ⟨⟨describable.version, describable.header, describable.page_le⟩, describable.toSizeLimits⟩
  obtain ⟨parsed, parsedRun⟩ := @layout_exists (Region.ofFile image) { base with id } _
      { bxxtBootNew with hdr := sections.hdr { base with id } } describable.header describable.kernel magic shape
    total rfl
  obtain ⟨parsedHdr, _, _, parsedLaid⟩ := bxxtBootInit1Layout_iff.mp parsedRun
  have laidAgain := parsedLaid.withTrees boot.kernelDtb boot.dtb
  have selects := selects_of_laidOut laidAgain parsedHdr describable.header shape (by rw [Region.ofFile_bytes]; omega)
  obtain ⟨kernelPtr, kernelSize, dtbPtr, dtbSize⟩ :=
    @laid.same_pointers _ _ _ _ _ _ id parsedLaid (by rw [parsedHdr, same]; rfl)
  have reopened : bxxtBootInit1 lib.sha1 again bxxtBootNew (Region.ofFile image) image.length again.forceNoCompatCheck =
      .ok (bxxtSuccess, { parsed with kernelDtb := boot.kernelDtb, dtb := boot.dtb }) := by
    apply bxxtBootInit1_iff.mpr
    constructor
    case header => exact parsedHdr ▸ header_imageOf positive shape
    case supported => exact parsedHdr ▸ ⟨magic, describable.version⟩
    case laidOut => exact laidAgain
    case limits => exact parsedHdr ▸ describableAgain.baseLimits
    case compatible =>
      intro off
      rw [bxxtBootImgCompatCheck, if_pos off]
      rfl
    case kernelDtb =>
      have search := dtbLoop_extends wider (le_trans page kernelBehind) found.kernelDtb
      rw [← kernelPtr, ← kernelSize] at search
      exact search
    case dtb =>
      have search := dtbLoop_extends wider (le_trans page dtbBehind) found.dtb
      rw [← dtbPtr, ← dtbSize] at search
      exact search
  have nonempty : image ≠ [] := by
    intro none
    have enough := @size_le_length_imageOf _ (sections.hdr { base with id }) sections.list positive
    rw [← shape, none] at enough
    exact absurd enough (by decide)
  refine ⟨{ parsed with kernelDtb := boot.kernelDtb, dtb := boot.dtb }, ?_, parsedHdr, laidAgain, selects⟩
  rw [bxxtBootOpenFile, bxxtFileOpenMm, if_neg nonempty]
  refine Exec.bind_eq_ok.mpr ⟨_, reopened, rfl⟩

theorem Packed.selects_of_open {base : BootImgHdr} {sections : Sections} {id : Vector UInt8 32}
    {image : Bytes} {b : Boot} {sha1 : Bytes → Vector UInt8 20} {again : Options}
    (packed : Packed lib opts dir base sections id image) (header : BootImgHdr.size ≤ base.pageSize.toNat)
    (opened : bxxtBootOpenFile sha1 again bxxtBootNew (some image) = .ok (bxxtSuccess, b)) :
    b.hdr = sections.hdr { base with id } ∧
      Accepted sha1 again (Region.ofFile image) image.length again.forceNoCompatCheck b ∧
      Selects (Region.ofFile image) b base.pageSize.toNat sections := by
  have positive : 0 < base.pageSize.toNat := lt_of_lt_of_le (by decide) header
  have bound : writeMax < 2 ^ 32 := by decide
  obtain ⟨_, same, _, accepted⟩ := bxxtBootOpenFile_iff.mp opened
  cases same
  have written := @header_imageOf (Region.ofFile image) _ positive _ _ packed.shape
  have hdr : b.hdr = sections.hdr { base with id } := hdr_unique accepted.header written
  exact
      ⟨hdr, accepted, @selects_of_laidOut _ _ _ { base with id } _ accepted.laidOut hdr header packed.shape
        (lt_of_le_of_lt packed.complete bound)⟩

/-- Whatever the check of the assembled image returned, the image is signed and written. -/
theorem packAll_writes {base : BootImgHdr} {sections : Sections} {r : Int} {boot : Boot}
    (read : (bxxtBootHdrFromMetadata dir.metadata).run = .ok (some base)) (packs : Packs lib opts dir sections)
    (header : BootImgHdr.size ≤ base.pageSize.toNat) (short : base.pageSize.toNat < 2 ^ 31)
    (version : base.headerVersion.toNat ≤ 2)
    (total : (imageOf base.pageSize.toNat (sections.hdr base) sections.list).length ≤ writeMax)
    (run : bxxtBootInit1 lib.sha1 opts bxxtBootNew
      (Region.ofBuffer (imageOf base.pageSize.toNat (sections.hdr base) sections.list))
      (imageOf base.pageSize.toNat (sections.hdr base) sections.list).length false = .ok (r, boot)) :
    bxxtBootPackAll lib opts dir true = .ok (bxxtSuccess, some (imageOf base.pageSize.toNat
      (sections.hdr { base with id := signatureBytes (lib.sha1 (messageOf base.headerVersion sections)) })
        sections.list)) := by
  have positive : 0 < base.pageSize.toNat := lt_of_lt_of_le (by decide) header
  have bound : writeMax < 2 ^ 32 := by decide
  have magic := (bxxtBootHdrFromMetadata_iff.mp read).magic
  have assembled := (packImage_sections read positive short packs).mpr rfl
  obtain ⟨bootHdr, laid, selects⟩ :=
    selects_of_init1 header ⟨magic, version⟩ rfl (by rw [Region.ofBuffer_bytes]; omega) run
  have hashed := @signature_of_selects _ _ _ _ _ lib.sha1 laid selects
  rw [bootHdr] at hashed
  obtain ⟨id, identified⟩ : ∃ id, id = signatureBytes (lib.sha1 (messageOf base.headerVersion sections)) :=
    ⟨_, rfl⟩
  have stored := @storeHdr_imageOf _ (sections.hdr base) sections.list positive fun hdr => { hdr with id }
  have signed : packSign lib opts (some (imageOf base.pageSize.toNat (sections.hdr base) sections.list)) =
      .ok (imageOf base.pageSize.toNat (sections.hdr { base with id }) sections.list) := by
    refine Exec.bind_eq_ok.mpr ⟨_, run, ?_⟩
    refine Exec.bind_eq_ok.mpr ⟨id, identified ▸ hashed, ?_⟩
    rw [laid.mm]
    exact Exec.bind_eq_ok.mpr ⟨_, stored, rfl⟩
  have complete : (imageOf base.pageSize.toNat (sections.hdr { base with id }) sections.list).length ≤ writeMax := by
    rw [length_imageOf_hdr _ (sections.hdr base)]
    exact total
  rw [← identified]
  refine Exec.bind_eq_ok.mpr ⟨_, assembled, ?_⟩
  refine Exec.bind_eq_ok.mpr ⟨_, signed, ?_⟩
  exact congrArg Except.ok (bxxtBootWriteTo_complete complete)

theorem packAll_succeeds {base : BootImgHdr} {sections : Sections} {kernelItems dtbItems : List (Bytes × Bytes)}
    {kernelTail dtbTail : Bytes} (read : (bxxtBootHdrFromMetadata dir.metadata).run = .ok (some base))
    (packs : Packs lib opts dir sections) (describable : Describable base sections)
    (total : (imageOf base.pageSize.toNat (sections.hdr base) sections.list).length ≤ writeMax)
    (kernelTrees : Gapped sections.kernel kernelItems kernelTail) (dtbTrees : Gapped sections.dtb dtbItems dtbTail) :
    ∃ image, bxxtBootPackAll lib opts dir true = .ok (bxxtSuccess, some image) := by
  have bound : writeMax < 2 ^ 31 := by decide
  have magic := (bxxtBootHdrFromMetadata_iff.mp read).magic
  obtain ⟨parsed, parsedHdr, laid, selects, run⟩ := @init1_assembled
      (Region.ofBuffer (imageOf base.pageSize.toNat (sections.hdr base) sections.list)) _ _ lib.sha1 opts false
      describable.header
    describable.kernel ⟨magic, describable.version⟩ rfl (lt_of_le_of_lt total bound)
  rw [init1Finish_trees laid selects (parsedHdr ▸ describable.baseLimits) (by simp) kernelTrees dtbTrees] at run
  exact ⟨_, packAll_writes read packs describable.header describable.small describable.version total run⟩

/-- The digest in a packed image is the one that is computed when it is opened again,
and storing it changed nothing that it covers. -/
theorem packed_image_verifies {base : BootImgHdr} {writable : Bool} {image : Bytes}
    (run : bxxtBootPackAll lib opts dir writable = .ok (bxxtSuccess, some image))
    (read : (bxxtBootHdrFromMetadata dir.metadata).run = .ok (some base)) (limits : PageLimits base)
    (sizes : ∀ sections, Packs lib opts dir sections → SizeLimits sections) :
    ∃ unsigned, (packImage lib opts dir).run = .ok (some (some unsigned)) ∧
      image.drop BootImgHdr.size = unsigned.drop BootImgHdr.size ∧
      BootImgHdr.ofBytes image = { BootImgHdr.ofBytes unsigned with id := (BootImgHdr.ofBytes image).id } ∧
      ∀ again, ∃ b message, bxxtBootOpenFile lib.sha1 again bxxtBootNew (some image) = .ok (bxxtSuccess, b) ∧
        b.hdr = BootImgHdr.ofBytes image ∧ bxxtBootImgMessage b = .ok message ∧
        bxxtBootImgSignature lib.sha1 b = .ok b.hdr.id ∧
        b.hdr.id.toList = (lib.sha1 message).toList ++ List.replicate 12 0 := by
  obtain ⟨_, sections, id, _, again, _, _, same, packed⟩ := packed_of_success run
  rw [read] at again
  cases again
  cases same
  have magic := (bxxtBootHdrFromMetadata_iff.mp read).magic
  have describable : Describable base sections := ⟨limits, sizes sections packed.packs⟩
  have shape := packed.shape
  have hdr : BootImgHdr.ofBytes image = sections.hdr { base with id } := by
    rw [shape, imageOf_split, BootImgHdr.ofBytes_append]
  -- the id is the digest of the sections in the unsigned image
  have signed : id = signatureBytes (lib.sha1 (messageOf base.headerVersion sections)) := by
    obtain ⟨r, boot, parsed, hashed, _⟩ := packed.parsed
    have total : (Region.ofBuffer (imageOf base.pageSize.toNat (sections.hdr base) sections.list)).bytes.length <
        2 ^ 32 := by
      have small : writeMax < 2 ^ 32 := by decide
      have complete := packed.complete
      rw [shape, length_imageOf_hdr _ (sections.hdr base)] at complete
      exact lt_of_le_of_lt complete small
    obtain ⟨bootHdr, laid, selects⟩ := selects_of_init1 describable.header
      ⟨magic, describable.version⟩ rfl total parsed
    rw [signature_of_selects laid selects, bootHdr] at hashed
    exact (Except.ok.inj hashed).symm
  refine ⟨_, packed.unsigned, ?_, ?_, ?_⟩
  · rw [shape, imageOf_split, imageOf_split, List.drop_left' (BootImgHdr.length_bytes _),
      List.drop_left' (BootImgHdr.length_bytes _)]
  · rw [hdr, imageOf_split, BootImgHdr.ofBytes_append]
    rfl
  · intro again
    obtain ⟨b, opened, bootHdr, laid, selects⟩ := packed.reopened describable magic again
    have message := message_of_selects laid selects
    have hashed := @signature_of_selects _ _ _ _ _ lib.sha1 laid selects
    rw [bootHdr] at message hashed
    refine ⟨b, _, opened, bootHdr.trans hdr.symm, message, ?_, ?_⟩
    · rw [hashed, bootHdr]
      exact congrArg Except.ok signed.symm
    · rw [bootHdr]
      change id.toList = _
      rw [signed, signatureBytes_toList]
      rfl

end Pack
theorem stored_pages : PageLimits (restoredHdr (bootWithCmdline [] 0x1000).hdr) := ⟨by decide, by decide, by decide⟩

theorem plainKernel_succeeds (opts : Options) : ∃ image,
    bxxtBootPackAll storedLibraries opts (storedDir (bootWithCmdline [] 0x1000) plainKernel []) true =
      .ok (bxxtSuccess, some image) := by
  have total : (storedImage (bootWithCmdline [] 0x1000) plainKernel []).length ≤ writeMax := by
    rw [plainKernel_image_length]
    decide
  have kernel : Gapped (storedSections plainKernel []).kernel [] plainKernel :=
    ⟨rfl, by simp, by simp, by decide, by decide⟩
  have dtb : Gapped (storedSections plainKernel []).dtb [] [] := ⟨rfl, by simp, by simp, by decide, by decide⟩
  exact packAll_succeeds (storedDir_hdr (storedBoot_plain 0x1000) (storedBoot_silent 0x1000))
    (plainKernel_packs 0x1000 opts)
    ⟨stored_pages, plainKernel_limits []⟩ total kernel dtb

theorem plainKernel_packed : ∃ image id,
    bxxtBootPackAll storedLibraries ⟨false, false⟩ (storedDir (bootWithCmdline [] 0x1000) plainKernel []) true =
        .ok (bxxtSuccess, some image) ∧
      Packed storedLibraries ⟨false, false⟩ (storedDir (bootWithCmdline [] 0x1000) plainKernel [])
        (restoredHdr (bootWithCmdline [] 0x1000).hdr) (storedSections plainKernel []) id image := by
  obtain ⟨image, run⟩ := plainKernel_succeeds ⟨false, false⟩
  obtain ⟨base, sections, id, _, read, _, _, same, packed⟩ := packed_of_success run
  cases same
  rw [storedDir_hdr (storedBoot_plain 0x1000) (storedBoot_silent 0x1000)] at read
  cases read
  cases packed.packs.unique (plainKernel_packs 0x1000 ⟨false, false⟩)
  exact ⟨image, id, run, packed⟩

theorem stored_image_verifies : ∃ image b message,
    bxxtBootPackAll storedLibraries ⟨false, false⟩ (storedDir (bootWithCmdline [] 0x1000) plainKernel []) true =
        .ok (bxxtSuccess, some image) ∧
      bxxtBootOpenFile storedLibraries.sha1 ⟨true, false⟩ bxxtBootNew (some image) = .ok (bxxtSuccess, b) ∧
      bxxtBootImgMessage b = .ok message ∧
      b.hdr.id.toList = (storedLibraries.sha1 message).toList ++ List.replicate 12 0 := by
  obtain ⟨image, run⟩ := plainKernel_succeeds ⟨false, false⟩
  have sizes : ∀ sections, Packs storedLibraries ⟨false, false⟩
    (storedDir (bootWithCmdline [] 0x1000) plainKernel [])
      sections → SizeLimits sections := by
    intro sections packs
    rw [packs.unique (plainKernel_packs 0x1000 ⟨false, false⟩)]
    exact plainKernel_limits []
  obtain ⟨_, _, _, _, reopened⟩ := packed_image_verifies run
    (storedDir_hdr (storedBoot_plain 0x1000) (storedBoot_silent 0x1000)) stored_pages sizes
  obtain ⟨b, message, opened, _, hashed, _, id⟩ := reopened ⟨true, false⟩
  exact ⟨image, b, message, run, opened, hashed, id⟩

end Bxxt.Proofs
