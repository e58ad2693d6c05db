import Bxxt.Proofs.PackedImage

/-! The header field `recovery_dtbo_offset`. It is carried through METADATA, while the
place of the section follows from what the files before it are packed to. -/

namespace Bxxt.Proofs
open ByteLayout PagedBytes KeyedLines

section Placement
variable {Source Tree : Type} {lib : Libraries Source Tree} {opts : Options} {dir : Dir Source Tree}
  {sections : Sections} {base : BootImgHdr} {id : Vector UInt8 32} {image : Bytes}

def recoveryDtboPlace (page : Nat) (sections : Sections) : Nat :=
  roundUp page BootImgHdr.size + roundUp page sections.kernel.length + roundUp page sections.ramdisk.length +
    roundUp page sections.second.length

theorem front_placed (read : (bxxtBootHdrFromMetadata dir.metadata).run = .ok (some base))
    (positive : 0 < base.pageSize.toNat) (small : base.pageSize.toNat < 2 ^ 31) (packs : Packs lib opts dir sections)
    {page : Nat} {front : Bytes} (staged : (packFront lib dir).run = .ok (some (page, some front))) :
    page = base.pageSize.toNat ∧ front.length = recoveryDtboPlace page sections := by
  obtain ⟨compression, kernel, tree, scanned, packed, found, _, _, _, same⟩ :=
    (packFront_iff read positive small).mp staged
  obtain ⟨_, scannedAgain, packedAgain⟩ := packs.kernel
  rw [scanned] at scannedAgain
  cases scannedAgain
  rw [packed] at packedAgain
  cases packedAgain
  obtain ⟨_, foundAgain, ramdisk⟩ := packs.ramdisk
  rw [found] at foundAgain
  cases foundAgain
  rw [← ramdisk, ← packs.second] at same
  cases same
  refine ⟨rfl, ?_⟩
  rw [imageOf, length_paged 0 positive]
  simp [offset, recoveryDtboPlace]
  omega

theorem front_exists (read : (bxxtBootHdrFromMetadata dir.metadata).run = .ok (some base))
    (positive : 0 < base.pageSize.toNat) (small : base.pageSize.toNat < 2 ^ 31) (packs : Packs lib opts dir sections) :
    ∃ front, (packFront lib dir).run = .ok (some (base.pageSize.toNat, some front)) := by
  obtain ⟨compression, scanned, packed⟩ := packs.kernel
  obtain ⟨tree, found, ramdisk⟩ := packs.ramdisk
  have short {data : Bytes} (member : data ∈ sections.list) := packs.short data member
  simp only [Sections.list, List.mem_cons, List.not_mem_nil, or_false] at short
  exact ⟨_, (packFront_iff read positive small).mpr ⟨compression, sections.kernel, tree, scanned, packed, found,
    short (by simp), ramdisk ▸ short (by simp), packs.second ▸ short (by simp), rfl⟩⟩

theorem Packed.recoveryDtbo_at (packed : Packed lib opts dir base sections id image)
    (positive : 0 < base.pageSize.toNat) :
    (image.drop (recoveryDtboPlace base.pageSize.toNat sections)).take sections.recoveryDtbo.length =
      sections.recoveryDtbo := by
  have place : recoveryDtboPlace base.pageSize.toNat sections =
      offset base.pageSize.toNat ((sections.hdr { base with id }).bytes :: sections.list) 4 := by
    simp [offset, recoveryDtboPlace, Sections.list]
    omega
  rw [place, packed.shape]
  exact section_at (0 : UInt8) positive ((sections.hdr { base with id }).bytes :: sections.list) 4
    (by simp [Sections.list])

/-- The field still says what METADATA said. -/
theorem Packed.recoveryDtboOffset_eq (packed : Packed lib opts dir base sections id image)
    (read : (bxxtBootHdrFromMetadata dir.metadata).run = .ok (some base)) {low : UInt32}
    (scanned : (configXint dir.metadata "recovery_dtbo_offset").run = .ok (some low)) :
    (BootImgHdr.ofBytes image).recoveryDtboOffset.toNat = low.toNat := by
  obtain ⟨_, again, stored⟩ := (bxxtBootHdrFromMetadata_iff.mp read).recoveryDtboOffset
  rw [scanned] at again
  cases again
  rw [packed.shape, imageOf_split, BootImgHdr.ofBytes_append]
  change base.recoveryDtboOffset.toNat = _
  rw [stored, UInt32.toNat_toUInt64]

/-- A packed image says where its recovery_dtbo is exactly when METADATA names the sum
of the pages that come before it. -/
theorem recovery_dtbo_offset_iff {writable : Bool}
    (run : bxxtBootPackAll lib opts dir writable = .ok (bxxtSuccess, some image)) :
    ∃ sections page front low, Packs lib opts dir sections ∧
      (packFront lib dir).run = .ok (some (page, some front)) ∧
      (configXint dir.metadata "recovery_dtbo_offset").run = .ok (some low) ∧
      (image.drop front.length).take sections.recoveryDtbo.length = sections.recoveryDtbo ∧
      ((BootImgHdr.ofBytes image).recoveryDtboOffset.toNat = front.length ↔
        low.toNat = roundUp page BootImgHdr.size + roundUp page sections.kernel.length +
          roundUp page sections.ramdisk.length + roundUp page sections.second.length) := by
  obtain ⟨base, sections, id, _, read, positive, small, same, packed⟩ := packed_of_success run
  cases same
  obtain ⟨low, scanned, _⟩ := (bxxtBootHdrFromMetadata_iff.mp read).recoveryDtboOffset
  obtain ⟨front, staged⟩ := front_exists read positive small packed.packs
  refine ⟨sections, _, front, low, packed.packs, staged, scanned, ?_⟩
  rw [(front_placed read positive small packed.packs staged).2, packed.recoveryDtboOffset_eq read scanned]
  exact ⟨packed.recoveryDtbo_at positive, Iff.rfl⟩

end Placement
def dtboBoot : Boot :=
  { bootWithCmdline [] 0x1000 with
    hdr := { (bootWithCmdline [] 0x1000).hdr with
      headerVersion := 1
      recoveryDtboOffset := 0x3000 } }

private theorem dtboBoot_plain : PlainStrings dtboBoot.hdr :=
  ⟨(storedBoot_plain 0x1000).name, (storedBoot_plain 0x1000).cmdline, (storedBoot_plain 0x1000).extraCmdline⟩

private theorem dtboBoot_silent : Silent dtboBoot.hdr :=
  ⟨(storedBoot_silent 0x1000).name, (storedBoot_silent 0x1000).cmdline, (storedBoot_silent 0x1000).extraCmdline⟩

section Kernel
variable {kernel : Bytes}

private theorem dtboBoot_packs (nonempty : kernel ≠ []) (short : kernel.length ≤ 0x2000) (opts : Options) :
    Packs storedLibraries opts (storedDir dtboBoot kernel [5]) (storedSections kernel [5]) :=
  storedDir_packs dtboBoot_plain dtboBoot_silent nonempty (lt_of_le_of_lt short (by decide)) (by decide) opts

private theorem dtboBoot_hdr :
    (bxxtBootHdrFromMetadata (storedDir dtboBoot kernel [5]).metadata).run = .ok (some (restoredHdr dtboBoot.hdr)) :=
  storedDir_hdr dtboBoot_plain dtboBoot_silent

private theorem dtboBoot_scanned :
    (configXint (storedDir dtboBoot kernel [5]).metadata "recovery_dtbo_offset").run = .ok (some 0x3000) :=
  configXint_address dtboBoot_plain (by decide) rfl (by decide) (by decide : 5 ≤ 6) (by decide)

private theorem dtboBoot_succeeds (nonempty : kernel ≠ []) (short : kernel.length ≤ 0x2000)
    (noTrees : ¬ fdtMagic <:+: kernel) (opts : Options) : ∃ image,
      bxxtBootPackAll storedLibraries opts (storedDir dtboBoot kernel [5]) true = .ok (bxxtSuccess, some image) := by
  have limits : Describable (restoredHdr dtboBoot.hdr) (storedSections kernel [5]) :=
    ⟨⟨by decide, by decide, by decide⟩,
      ⟨List.length_pos_of_ne_nil nonempty, le_trans short (by decide), by simp [storedSections]⟩⟩
  have total : (storedImage dtboBoot kernel [5]).length ≤ writeMax := by
    have page : dtboBoot.hdr.pageSize.toNat = 0x1000 := rfl
    have rounded := @roundUp_lt 0x1000 (by decide) kernel.length
    have others : roundUp 0x1000 BootImgHdr.size = 0x1000 ∧ roundUp 0x1000 1 = 0x1000 := by decide
    rw [storedImage, length_imageOf (by decide), page]
    simp only [storedSections, List.length_cons, List.length_nil, Nat.zero_add, others.1, others.2,
      roundUp_zero, writeMax]
    omega
  have kernelTrees : Gapped (storedSections kernel [5]).kernel [] kernel :=
    ⟨rfl, by simp, by simp, noTrees, by decide⟩
  have dtb : Gapped (storedSections kernel [5]).dtb [] [] := ⟨rfl, by simp, by simp, by decide, by decide⟩
  exact packAll_succeeds dtboBoot_hdr (dtboBoot_packs nonempty short opts) limits total kernelTrees dtb

end Kernel

theorem one_page_kernel_keeps_offset : ∃ image page front,
    bxxtBootPackAll storedLibraries ⟨false, false⟩ (storedDir dtboBoot plainKernel [5]) true =
        .ok (bxxtSuccess, some image) ∧
      (packFront storedLibraries (storedDir dtboBoot plainKernel [5])).run = .ok (some (page, some front)) ∧
      (BootImgHdr.ofBytes image).recoveryDtboOffset.toNat = front.length := by
  obtain ⟨image, run⟩ := @dtboBoot_succeeds plainKernel (by decide) (by decide) (by decide) ⟨false, false⟩
  have expected := @dtboBoot_packs plainKernel (by decide) (by decide) ⟨false, false⟩
  obtain ⟨sections, page, front, low, packs, staged, scanned, _, placed⟩ := recovery_dtbo_offset_iff run
  cases packs.unique expected
  rw [dtboBoot_scanned] at scanned
  cases scanned
  obtain ⟨rfl, _⟩ := front_placed dtboBoot_hdr (by decide) (by decide) packs staged
  exact ⟨image, _, front, run, staged, placed.mpr rfl⟩

/-- With a kernel that grew by a page the offset of the old image stays in the header,
one page before the section. -/
theorem grown_kernel_moves_recovery_dtbo : ∃ image page front,
    bxxtBootPackAll storedLibraries ⟨false, false⟩ (storedDir dtboBoot (List.replicate 0x1001 1) [5]) true =
        .ok (bxxtSuccess, some image) ∧
      (packFront storedLibraries (storedDir dtboBoot (List.replicate 0x1001 1) [5])).run =
        .ok (some (page, some front)) ∧
      (BootImgHdr.ofBytes image).recoveryDtboOffset.toNat = 0x3000 ∧ front.length = 0x4000 := by
  obtain ⟨kernel, same⟩ : ∃ kernel : Bytes, kernel = List.replicate 0x1001 1 := ⟨_, rfl⟩
  have length : kernel.length = 0x1001 := by rw [same, List.length_replicate]
  have nonempty : kernel ≠ [] := List.ne_nil_of_length_pos (by rw [length]; decide)
  have short : kernel.length ≤ 0x2000 := by rw [length]; decide
  have noTrees : ¬ fdtMagic <:+: kernel := by
    intro inside
    have member := List.eq_of_mem_replicate (same ▸ inside.subset (show (0xd0 : UInt8) ∈ fdtMagic by decide))
    exact absurd member (by decide)
  rw [← same]
  obtain ⟨image, run⟩ := dtboBoot_succeeds nonempty short noTrees ⟨false, false⟩
  have packs := dtboBoot_packs nonempty short ⟨false, false⟩
  obtain ⟨front, staged⟩ := front_exists dtboBoot_hdr (by decide) (by decide) packs
  refine ⟨image, _, front, run, staged, ?_, ?_⟩
  · obtain ⟨_, _, _, _, read, _, _, written, packed⟩ := packed_of_success run
    cases written
    rw [packed.recoveryDtboOffset_eq read dtboBoot_scanned]
    rfl
  · rw [(front_placed dtboBoot_hdr (by decide) (by decide) packs staged).2, recoveryDtboPlace]
    simp only [storedSections, length]
    rfl

end Bxxt.Proofs
