import Bxxt.Proofs.PackedImage

/-! The limits of the reader, seen from the packer. Only the reader knows them, and the
packer drops what the reader says: so packing refuses what the reader would refuse only
where the run ends anyway, because a file it needs is missing. -/

namespace Bxxt.Proofs
open ByteLayout PagedBytes KeyedLines

section Limits
variable {Source Tree : Type} (lib : Libraries Source Tree) (opts : Options) (dir : Dir Source Tree)

def PackedKernel (kernel : Bytes) : Prop :=
  ∃ compression, packCompression dir = .ok compression ∧ packKernel lib dir compression = .ok (some kernel)

/-- A value with which the sections would not be found again: of the header that METADATA
gives, or of the size of the kernel or the ramdisk. -/
def Unusable (hdr : BootImgHdr) : Prop :=
  ¬ PageLimits hdr ∨
    (∃ kernel, PackedKernel lib dir kernel ∧ (kernel.length = 0 ∨ 0x4000000 < kernel.length)) ∨
    ∃ tree, dir.ramdisk = some tree ∧ 0x4000000 < (lib.bxxtCpioArchiveOut tree).length

def Readable (image : Bytes) : Prop :=
  ∃ base sections, (bxxtBootHdrFromMetadata dir.metadata).run = .ok (some base) ∧ Packs lib opts dir sections ∧
    ∀ again, ∃ b, bxxtBootOpenFile lib.sha1 again bxxtBootNew (some image) = .ok (bxxtSuccess, b) ∧
      bxxtBootImgVersionCheck b.hdr = bxxtSuccess ∧ bxxtBootImgBaseCheck b.hdr = bxxtSuccess ∧
      Selects (Region.ofFile image) b base.pageSize.toNat sections

/-- The packer accepts what the reader accepts, and refuses the rest without an image. -/
structure AgreesWithReader : Prop where
  readable : ∀ writable file, bxxtBootPackAll lib opts dir writable = .ok (bxxtSuccess, file) →
    ∃ image, file = some image ∧ Readable lib opts dir image
  refused : ∀ writable hdr, (bxxtBootHdrFromMetadata dir.metadata).run = .ok (some hdr) → Unusable lib dir hdr →
    ∃ r, r ≠ bxxtSuccess ∧ bxxtBootPackAll lib opts dir writable = .ok (r, none)

/-- The run ends before it writes: there is no kernel, or there is one but no ramdisk.
Where there is a kernel, its section has to be appended before the ramdisk is missed. -/
def StopsEarly (hdr : BootImgHdr) : Prop :=
  hdr.pageSize ≠ 0 ∧ ∃ compression, packCompression dir = .ok compression ∧
    (packKernel lib dir compression = .ok none ∨
      dir.ramdisk = none ∧ hdr.pageSize.toNat < 2 ^ 31 + BootImgHdr.size ∧
        ∃ kernel, packKernel lib dir compression = .ok (some kernel) ∧ kernel.length < 2 ^ 31)

end Limits

section Front
variable {Source Tree : Type} {lib : Libraries Source Tree} {opts : Options} {dir : Dir Source Tree} {hdr : BootImgHdr}

theorem intToSize_eq_zero {value : UInt32} : intToSize value = 0 ↔ value = 0 := by
  rw [intToSize, ← UInt32.toNat_inj, UInt32.toNat_zero]
  split <;> omega

/-- What is left of the page behind a header, as an `int`: a page size from 2 ^ 31 on
is widened to a huge one, and the rest of it comes out negative unless the page is
hardly larger than 2 ^ 31. -/
theorem hdr_extra {pageSize : UInt32} {extra : Nat} (nonzero : intToSize pageSize ≠ 0)
    (rest : extra = (intToSize pageSize - BootImgHdr.size % intToSize pageSize) % intToSize pageSize) :
    pageSize.toNat < 2 ^ 31 + BootImgHdr.size ∧ 0 ≤ asInt extra ∨
      2 ^ 31 + BootImgHdr.size ≤ pageSize.toNat ∧ BootImgHdr.size + asInt extra < 0 := by
  have bound := pageSize.toNat_lt
  rw [BootImgHdr.size] at rest ⊢
  rcases Nat.lt_or_ge pageSize.toNat (2 ^ 31) with small | large
  · rw [intToSize_small small] at rest nonzero
    have below := Nat.mod_lt (pageSize.toNat - 1660 % pageSize.toNat) (Nat.pos_of_ne_zero nonzero)
    rw [asInt_of_small (by omega)]
    omega
  · have widened : intToSize pageSize = pageSize.toNat + (2 ^ 64 - 2 ^ 32) := if_neg (by omega)
    obtain ⟨lost, kept, low⟩ := asInt_spec extra
    have high := asInt_lt extra
    rw [rest, widened, Nat.mod_eq_of_lt (a := 1660) (by omega), Nat.mod_eq_of_lt (by omega)] at kept
    rw [rest, widened, Nat.mod_eq_of_lt (a := 1660) (by omega), Nat.mod_eq_of_lt (by omega)] at low high ⊢
    omega

theorem bxxtBufferAlign_hdr {pageSize : UInt32} {img : Option Bytes}
    (aligned : bxxtBufferAlign hdr.bytes (intToSize pageSize) = .ok img) :
    (∀ memory, img = some memory → BootImgHdr.size ≤ memory.length) ∧
      (img ≠ none ↔ pageSize.toNat < 2 ^ 31 + BootImgHdr.size) := by
  have length := hdr.length_bytes
  unfold bxxtBufferAlign at aligned
  split at aligned
  next => cases aligned
  next nonzero =>
    rw [length] at aligned
    obtain ⟨extra, rest⟩ :
        ∃ extra, extra = (intToSize pageSize - BootImgHdr.size % intToSize pageSize) % intToSize pageSize :=
          ⟨_, rfl⟩
    rw [← rest] at aligned
    have resized := Except.ok.inj aligned
    rcases hdr_extra nonzero rest with ⟨small, grows⟩ | ⟨large, shrinks⟩
    · rw [bxxtBufferResize, if_neg (by omega), if_pos grows] at resized
      subst resized
      refine ⟨?_, fun _ => small, fun _ => Option.some_ne_none _⟩
      rintro memory ⟨⟩
      rw [List.length_append, length]
      exact Nat.le_add_right _ _
    · rw [bxxtBufferResize, if_pos (by omega)] at resized
      subst resized
      exact ⟨by simp, fun grown => absurd rfl grown, fun small => absurd small (Nat.not_lt.mpr large)⟩

theorem appendSection_runs {memory tmp : Bytes} {pageSize : Nat} {store : UInt32 → BootImgHdr → BootImgHdr}
    (header : BootImgHdr.size ≤ memory.length) (positive : pageSize ≠ 0) :
    (∃ img, appendSection (some memory) pageSize store tmp = .ok img) ↔ tmp.length < 2 ^ 31 := by
  have stored : ∃ changed, storeHdr (some memory) (store (UInt32.ofNat tmp.length)) = .ok (some changed) := by
    rw [storeHdr, if_pos header]
    exact ⟨_, rfl⟩
  obtain ⟨changed, stored⟩ := stored
  rw [appendSection, stored, Exec.ok_bind, padData]
  constructor
  · rintro ⟨img, padded⟩
    obtain ⟨grown, appended, _⟩ := Exec.bind_eq_ok.mp padded
    exact (bxxtBufferConcatFromData_iff.mp appended).1
  · intro short
    rw [bxxtBufferConcatFromData_small changed short, Exec.ok_bind, bxxtBufferAlign, if_neg positive]
    exact ⟨_, rfl⟩

/-- Packing stops without a result exactly where one of the two files is missed. -/
theorem packImage_none (read : (bxxtBootHdrFromMetadata dir.metadata).run = .ok (some hdr)) :
    (packImage lib opts dir).run = .ok none ↔ StopsEarly lib dir hdr := by
  simp only [packImage, packFront, attempt_bind_none, attempt_bind, attempt_lift_none, attempt_lift,
    OptionT.run_mk, read, false_or, and_false, exists_false, or_false]
  constructor
  · rintro (unread | ⟨_, same, compression, scanned, img, aligned, rest⟩)
    · cases unread
    · cases same
      have page : hdr.pageSize ≠ 0 := by
        intro zero
        rw [zero, bxxtBufferAlign, if_pos (intToSize_eq_zero.mpr rfl)] at aligned
        cases aligned
      obtain ⟨enough, grown⟩ := bxxtBufferAlign_hdr aligned
      refine ⟨page, compression, scanned, ?_⟩
      rcases rest with missing | ⟨kernel, packed, img1, appended, rest⟩
      · exact Or.inl missing
      · cases img with
        | none => cases appended
        | some memory =>
          have short := (appendSection_runs (enough memory rfl) (mt intToSize_eq_zero.mp page)).mp ⟨_, appended⟩
          rcases rest with missing | ⟨tree, found, _, _, _, _, last⟩
          · exact Or.inr ⟨Except.ok.inj missing, grown.mp (by simp), kernel, packed, short⟩
          · cases last
  · rintro ⟨page, compression, scanned, rest⟩
    have positive := mt intToSize_eq_zero.mp page
    obtain ⟨img, aligned⟩ : ∃ img, bxxtBufferAlign hdr.bytes (intToSize hdr.pageSize) = .ok img := by
      rw [bxxtBufferAlign, if_neg positive]
      exact ⟨_, rfl⟩
    obtain ⟨enough, grown⟩ := bxxtBufferAlign_hdr aligned
    refine Or.inr ⟨hdr, rfl, compression, scanned, img, aligned, ?_⟩
    rcases rest with missing | ⟨missing, small, kernel, packed, short⟩
    · exact Or.inl missing
    · obtain ⟨memory, rfl⟩ := Option.ne_none_iff_exists'.mp (grown.mpr small)
      obtain ⟨img1, appended⟩ := (appendSection_runs (enough memory rfl) positive).mpr short
      exact Or.inr ⟨kernel, packed, img1, appended, Or.inl (congrArg Except.ok missing)⟩

theorem packAll_untouched {r : Int} : bxxtBootPackAll lib opts dir true = .ok (r, none) ↔
    (packImage lib opts dir).run = .ok none ∧ r = bxxtFailed := by
  constructor
  · intro run
    obtain ⟨result, assembled, run⟩ := Exec.bind_eq_ok.mp run
    cases result with
    | none =>
      cases run
      exact ⟨assembled, rfl⟩
    | some img =>
      obtain ⟨signed, _, wrote⟩ := Exec.bind_eq_ok.mp run
      cases wrote
  · rintro ⟨assembled, rfl⟩
    exact Exec.bind_eq_ok.mpr ⟨none, assembled, rfl⟩

theorem packAll_stops {writable : Bool} (stopped : (packImage lib opts dir).run = .ok none) :
    bxxtBootPackAll lib opts dir writable = .ok (bxxtFailed, none) :=
  Exec.bind_eq_ok.mpr ⟨none, stopped, rfl⟩

theorem describable_of_usable {sections : Sections} (usable : ¬ Unusable lib dir hdr)
    (packs : Packs lib opts dir sections) : Describable hdr sections := by
  simp only [Unusable, not_or, not_not] at usable
  obtain ⟨page, kernel, ramdisk⟩ := usable
  have kernelSize : ¬ (sections.kernel.length = 0 ∨ 0x4000000 < sections.kernel.length) :=
    fun outside => kernel ⟨sections.kernel, packs.kernel, outside⟩
  obtain ⟨tree, found, same⟩ := packs.ramdisk
  have ramdiskSize : ¬ 0x4000000 < sections.ramdisk.length :=
    fun outside => ramdisk ⟨tree, found, same ▸ outside⟩
  exact ⟨page, ⟨by omega, by omega, by omega⟩⟩

/-- Packing agrees with the reader exactly where an unusable value comes with a missing
file. -/
theorem packer_agrees_iff : AgreesWithReader lib opts dir ↔
    ∀ hdr, (bxxtBootHdrFromMetadata dir.metadata).run = .ok (some hdr) → Unusable lib dir hdr →
      StopsEarly lib dir hdr := by
  constructor
  · intro agrees hdr read unusable
    obtain ⟨r, _, untouched⟩ := agrees.refused true hdr read unusable
    exact (packImage_none read).mp (packAll_untouched.mp untouched).1
  · intro stops
    constructor
    case readable =>
      intro writable file run
      obtain ⟨base, sections, id, image, read, _, _, rfl, packed⟩ := packed_of_success run
      have usable : ¬ Unusable lib dir base := by
        intro unusable
        have stopped := (@packImage_none _ _ _ opts _ _ read).mpr (stops base read unusable)
        rw [packed.unsigned] at stopped
        cases stopped
      have describable := describable_of_usable usable packed.packs
      have magic := (bxxtBootHdrFromMetadata_iff.mp read).magic
      have describableAgain : Describable { base with id } sections :=
        ⟨⟨describable.version, describable.header, describable.page_le⟩, describable.toSizeLimits⟩
      refine ⟨image, rfl, base, sections, read, packed.packs, ?_⟩
      intro again
      obtain ⟨b, opened, same, _, selects⟩ := packed.reopened describable magic again
      refine ⟨b, opened, ?_, ?_, selects⟩
      · exact same ▸ (bxxtBootImgVersionCheck_iff _).mpr ⟨magic, describable.version⟩
      · exact same ▸ (bxxtBootImgBaseCheck_iff _).mpr describableAgain.baseLimits
    case refused =>
      intro writable hdr read unusable
      exact ⟨bxxtFailed, by decide, packAll_stops ((packImage_none read).mpr (stops hdr read unusable))⟩

end Front

/-- A page of 64 KiB is packed without a complaint, and the image is never opened again. -/
theorem large_page_packed_but_refused :
    (∃ image, bxxtBootPackAll storedLibraries ⟨false, false⟩
      (storedDir (bootWithCmdline [] 0x10000) plainKernel []) true =
        .ok (bxxtSuccess, some image) ∧
      ∀ again b, bxxtBootOpenFile storedLibraries.sha1 again bxxtBootNew (some image) ≠ .ok (bxxtSuccess, b)) ∧
    ¬ AgreesWithReader storedLibraries ⟨false, false⟩ (storedDir (bootWithCmdline [] 0x10000) plainKernel []) := by
  have refused : ∃ image, bxxtBootPackAll storedLibraries ⟨false, false⟩
      (storedDir (bootWithCmdline [] 0x10000) plainKernel []) true = .ok (bxxtSuccess, some image) ∧
      ∀ again b, bxxtBootOpenFile storedLibraries.sha1 again bxxtBootNew (some image) ≠ .ok (bxxtSuccess, b) := by
    have read := @storedDir_hdr _ plainKernel [] (storedBoot_plain 0x10000) (storedBoot_silent 0x10000)
    have packs := plainKernel_packs 0x10000 ⟨false, false⟩
    obtain ⟨base, same⟩ : ∃ base, base = restoredHdr (bootWithCmdline [] 0x10000).hdr := ⟨_, rfl⟩
    obtain ⟨sections, sectionsAre⟩ : ∃ sections, sections = storedSections plainKernel [] := ⟨_, rfl⟩
    have page : base.pageSize.toNat = 0x10000 := by rw [same]; rfl
    have version : base.headerVersion.toNat ≤ 2 := by rw [same]; decide
    have header : BootImgHdr.size ≤ base.pageSize.toNat := by rw [page]; decide
    have total : (imageOf base.pageSize.toNat (sections.hdr base) sections.list).length = 0x30000 := by
      rw [length_imageOf (by omega), page, sectionsAre]
      rfl
    have complete : 0x30000 ≤ writeMax := by decide
    have kernel : 0 < sections.kernel.length := by rw [sectionsAre]; decide
    rw [← same] at read
    rw [← sectionsAre] at packs
    have magic := (bxxtBootHdrFromMetadata_iff.mp read).magic
    have outside (id : Vector UInt8 32) : ¬ BaseLimits (sections.hdr { base with id }) := by
      intro limits
      have bounded : base.pageSize.toNat ≤ 0xffff := limits.page_le
      omega
    obtain ⟨parsed, parsedHdr, _, _, run⟩ := @init1_assembled
        (Region.ofBuffer (imageOf base.pageSize.toNat (sections.hdr base) sections.list)) _ _ storedLibraries.sha1
        ⟨false, false⟩ false header
      kernel ⟨magic, version⟩ rfl (by rw [Region.ofBuffer_bytes]; omega)
    have finished : bxxtBootInit1Finish storedLibraries.sha1 ⟨false, false⟩ parsed false =
        .ok (bxxtFailed, parsed) := by
      have failed := (bxxtBootImgBaseCheck_cases parsed.hdr).resolve_left
        fun passed => outside base.id (parsedHdr ▸ (bxxtBootImgBaseCheck_iff _).mp passed)
      rw [bxxtBootInit1Finish, if_pos failed]
      rfl
    rw [finished] at run
    refine ⟨_, packAll_writes read packs header (by omega) version (by omega) run, ?_⟩
    intro again b opened
    obtain ⟨content, image, _, accepted⟩ := bxxtBootOpenFile_iff.mp opened
    have written := @header_imageOf (Region.ofFile content) base (by omega) _ _ (Option.some.inj image).symm
    exact outside _ (hdr_unique accepted.header written ▸ accepted.limits)
  refine ⟨refused, ?_⟩
  intro agrees
  obtain ⟨image, run, never⟩ := refused
  obtain ⟨_, same, _, _, _, _, opens⟩ := agrees.readable true _ run
  cases same
  obtain ⟨b, opened, _⟩ := opens ⟨false, false⟩
  exact never _ b opened

end Bxxt.Proofs
