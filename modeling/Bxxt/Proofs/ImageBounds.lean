import Bxxt.Proofs.PackedImage

/-! Whether an accepted image contains what its header describes. The reader compares
no size with the size of the file, so this is decided by one sum over the header. -/

namespace Bxxt.Proofs
open ByteLayout PagedBytes

/-- The pages that a header describes: its own and those of the five sections. -/
def pagesOf (hdr : BootImgHdr) : Nat :=
  hdr.pageSize.toNat + (([hdr.kernelSize, hdr.ramdiskSize, hdr.secondSize, hdr.recoveryDtboSize, hdr.dtbSize].map
    fun size => roundUp hdr.pageSize.toNat size.toNat).sum)

def regions (b : Boot) : List (Nat × Nat) :=
  [(0, b.pageSize.toNat), (b.mmKernelPtr, b.kernelSize.toNat), (b.mmRamdiskPtr, b.ramdiskSize.toNat),
    (b.mmSecondPtr, b.secondSize.toNat), (b.mmRecoveryDtboPtr, b.recoveryDtboSize.toNat),
    (b.mmDtbPtr, b.dtbSize.toNat), (b.mmPadPtr, b.padSize.toNat)]

/-- The parts lie in the file, one behind the other, and no sum that places them lost its upper
bits. An image for which this fails is read across its own sections. -/
structure SelfContained (b : Boot) (size : Nat) : Prop where
  inside : ∀ region ∈ regions b, region.1 + region.2 ≤ size
  ordered : (regions b).Pairwise fun first second => first.1 + first.2 ≤ second.1
  offsets : [b.mmKernelPtr, b.mmRamdiskPtr, b.mmSecondPtr, b.mmRecoveryDtboPtr, b.mmDtbPtr, b.mmPadPtr] =
    (List.range 6).map (exactOffset b)
  rounded : ∀ bytes ∈ [b.kernelSize, b.ramdiskSize, b.secondSize, b.recoveryDtboSize, b.dtbSize],
    (bPs b.pageSize bytes).toNat = roundUp b.pageSize.toNat bytes.toNat
  padSize : ((asUInt32 ((size : Int) - b.bPADo.toNat)).toNat : Int) = size - exactOffset b 5

section Trim
variable {ptr : Region} {mmPadPtr : Nat}

/-- The search for the last byte only goes down, and not below zero if it began above. -/
theorem trimPad_bounds {addr : Nat} {ts : Int} (trimmed : trimPad ptr mmPadPtr addr = .ok ts) :
    ts ≤ addr - mmPadPtr ∧ (mmPadPtr ≤ addr → 0 ≤ ts) ∧
      (-2 ^ 31 ≤ (addr : Int) - mmPadPtr → -2 ^ 31 ≤ ts) := by
  induction addr with
  | zero =>
    rw [trimPad] at trimmed
    split at trimmed
    next => cases trimmed; omega
    next =>
      obtain ⟨byte, _, rest⟩ := Exec.bind_eq_ok.mp trimmed
      split at rest
      next => cases rest; omega
      next => cases rest
  | succ addr ih =>
    rw [trimPad] at trimmed
    split at trimmed
    next => cases trimmed; omega
    next =>
      obtain ⟨byte, _, rest⟩ := Exec.bind_eq_ok.mp trimmed
      split at rest
      next => cases rest; omega
      next =>
        split at rest
        next => cases rest
        next =>
          have below := ih rest
          omega

theorem asUInt32_spec (value : Int) : ∃ lost, ((asUInt32 value).toNat : Int) = value + 2 ^ 32 * lost := by
  refine ⟨-(value / 2 ^ 32), ?_⟩
  rw [asUInt32, UInt32.toNat_ofNat']
  omega

/-- Trimming never adds to the pad region, even where its index went negative. -/
theorem trimmedPadSize_le {padSize trimmed : UInt32} (run : trimmedPadSize ptr mmPadPtr padSize = .ok trimmed) :
    trimmed.toNat ≤ padSize.toNat := by
  rw [trimmedPadSize, trimFrom] at run
  split at run
  next => cases run
  next start =>
    cases search : trimPad ptr mmPadPtr ((mmPadPtr : Int) + asInt (padSize - 1).toNat).toNat with
    | error fault => rw [search] at run; cases run
    | ok ts =>
      rw [search] at run
      have result := Except.ok.inj run
      dsimp only at result
      split at result
      next nonzero =>
        have positive : 0 < padSize.toNat := Nat.pos_of_ne_zero fun zero => nonzero (UInt32.toNat_inj.mp zero)
        have before : (padSize - 1).toNat = padSize.toNat - 1 := by
          have bound := padSize.toNat_lt
          rw [UInt32.toNat_sub, UInt32.toNat_one]
          omega
        have bound := padSize.toNat_lt
        obtain ⟨lost, kept, low⟩ := asInt_spec (padSize - 1).toNat
        have high := asInt_lt (padSize - 1).toNat
        obtain ⟨lostAgain, stored⟩ := asUInt32_spec ts
        have small := (asUInt32 ts).toNat_lt
        obtain ⟨down, kept', wide⟩ := trimPad_bounds search
        rw [← result]
        omega
      next => exact (congrArg UInt32.toNat result).ge

end Trim

section Bounds
variable {ptr : Region} {size : Nat} {b : Boot}

theorem exactOffset_last (sized : Sized b) : exactOffset b 5 = pagesOf b.hdr := by
  simp only [exactOffset, sectionSizes, List.take_succ_cons, List.take_zero, pagesOf, List.map_cons, List.map_nil,
    sized.pageSize, sized.kernelSize, sized.ramdiskSize, sized.secondSize, sized.recoveryDtboSize, sized.dtbSize]

theorem LaidOut.contained_iff (laid : LaidOut ptr size b) :
    SelfContained b size ↔ exactOffset b 5 < 2 ^ 32 ∧ exactOffset b 5 ≤ size ∧
      size - exactOffset b 5 < 2 ^ 32 := by
  constructor
  · intro contained
    have last : b.mmPadPtr = exactOffset b 5 := by
      have same := congrArg (fun places : List Nat => places[5]?) contained.offsets
      exact Option.some.inj same
    have narrow := b.bPADo.toNat_lt
    have small := (asUInt32 ((size : Int) - b.bPADo.toNat)).toNat_lt
    have whole := contained.padSize
    rw [← laid.mmPadPtr] at narrow
    omega
  · intro ⟨fits, enough, small⟩
    obtain ⟨kernelAt, ramdiskAt, secondAt, recoveryDtboAt, dtbAt, padAt⟩ := offsets_exact laid.page fits
    have positive : 0 < b.pageSize.toNat := Nat.pos_of_ne_zero fun zero => laid.page (UInt32.toNat_inj.mp zero)
    have whole : (asUInt32 ((size : Int) - b.bPADo.toNat)).toNat = size - exactOffset b 5 := by
      rw [padAt, show (size : Int) - exactOffset b 5 = (size - exactOffset b 5 : Nat) by omega]
      exact asUInt32_of_small small
    have trimmed := trimmedPadSize_le laid.padSize
    rw [whole] at trimmed
    -- every section ends before the page where the next one begins
    have kernel := le_roundUp positive b.kernelSize.toNat
    have ramdisk := le_roundUp positive b.ramdiskSize.toNat
    have second := le_roundUp positive b.secondSize.toNat
    have recoveryDtbo := le_roundUp positive b.recoveryDtboSize.toNat
    have dtb := le_roundUp positive b.dtbSize.toNat
    have offsets : regions b = [(0, b.pageSize.toNat), (exactOffset b 0, b.kernelSize.toNat),
        (exactOffset b 1, b.ramdiskSize.toNat), (exactOffset b 2, b.secondSize.toNat),
        (exactOffset b 3, b.recoveryDtboSize.toNat), (exactOffset b 4, b.dtbSize.toNat),
        (exactOffset b 5, b.padSize.toNat)] := by
      rw [regions, laid.mmKernelPtr, laid.mmRamdiskPtr, laid.mmSecondPtr, laid.mmRecoveryDtboPtr, laid.mmDtbPtr,
        laid.mmPadPtr, kernelAt, ramdiskAt, secondAt, recoveryDtboAt, dtbAt, padAt]
    have difference : ((size - exactOffset b 5 : Nat) : Int) = size - exactOffset b 5 := Int.ofNat_sub enough
    simp only [exactOffset, sectionSizes, List.take_succ_cons, List.take_zero, List.map_cons,
      List.map_nil, List.sum_cons, List.sum_nil] at fits enough trimmed offsets
    constructor
    case inside =>
      simp only [offsets, List.forall_mem_cons, List.not_mem_nil, false_implies, implies_true, and_true]
      omega
    case ordered =>
      simp only [offsets, List.pairwise_cons, List.forall_mem_cons, List.not_mem_nil, false_implies,
        implies_true, and_true, List.Pairwise.nil]
      omega
    case offsets =>
      rw [laid.mmKernelPtr, laid.mmRamdiskPtr, laid.mmSecondPtr, laid.mmRecoveryDtboPtr, laid.mmDtbPtr,
        laid.mmPadPtr, kernelAt, ramdiskAt, secondAt, recoveryDtboAt, dtbAt, padAt]
      rfl
    case rounded =>
      simp only [List.forall_mem_cons, List.not_mem_nil, false_implies, implies_true, and_true]
      refine ⟨?_, ?_, ?_, ?_, ?_⟩ <;> exact bPs_toNat laid.page (by omega)
    case padSize => rw [whole, difference]

/-- An accepted image is self-contained exactly when the pages its header describes,
added up without a limit, are in the file. -/
theorem self_contained_iff {sha1 : Bytes → Vector UInt8 20} {opts : Options} {check : Bool} {start : Boot}
    {content : Bytes} {hdr : BootImgHdr}
    (header : (Region.ofFile content).slice 0 BootImgHdr.size = .ok hdr.bytes)
    (run : bxxtBootInit1 sha1 opts start (Region.ofFile content) content.length check = .ok (bxxtSuccess, b)) :
    SelfContained b content.length ↔
      pagesOf hdr < 2 ^ 32 ∧ pagesOf hdr ≤ content.length ∧ content.length - pagesOf hdr < 2 ^ 32 := by
  have accepted := bxxtBootInit1_iff.mp run
  have laid := accepted.laidOut
  rw [← hdr_unique accepted.header header, ← exactOffset_last laid.toSized]
  exact laid.contained_iff

end Bounds

def cutHdr : BootImgHdr :=
  { BootImgHdr.zero with
    magic := bootMagic
    kernelSize := 1
    ramdiskSize := 1
    pageSize := 2048 }

def cutFile : Bytes := pad 2048 0 cutHdr.bytes ++ [1]

theorem cutFile_length : cutFile.length = 2049 := by
  rw [cutFile, List.length_append, length_pad 0 (by decide), BootImgHdr.length_bytes]
  rfl

theorem cutFile_header : (Region.ofFile cutFile).slice 0 BootImgHdr.size = .ok cutHdr.bytes := by
  obtain ⟨file, same⟩ : ∃ file, file = cutFile := ⟨_, rfl⟩
  have length := cutFile_length
  rw [← same] at length ⊢
  rw [Region.slice_inside (by rw [Region.ofFile_bytes, length]; decide), Region.ofFile_bytes, same, cutFile, pad,
    List.append_assoc, List.drop_zero, List.take_left' (BootImgHdr.length_bytes _)]

theorem cutFile_accepted (sha1 : Bytes → Vector UInt8 20) (opts : Options) :
    ∃ b, bxxtBootInit1 sha1 opts bxxtBootNew (Region.ofFile cutFile) cutFile.length opts.forceNoCompatCheck =
      .ok (bxxtSuccess, b) ∧ b.hdr = cutHdr := by
  have header := cutFile_header
  have length := cutFile_length
  have front : (pad 2048 0 cutHdr.bytes).length = 2048 := by
    rw [length_pad 0 (by decide), BootImgHdr.length_bytes]
    rfl
  obtain ⟨file, same⟩ : ∃ file, file = cutFile := ⟨_, rfl⟩
  rw [← same] at header length ⊢
  have kernel : file.drop 2048 = [1] := by rw [same, cutFile, List.drop_left' front]
  have mapped : (Region.ofFile file).mapped.drop 2048 = [1] ++ List.replicate 2047 0 := by
    rw [Region.mapped, Region.ofFile_bytes, List.drop_append_of_le_length (by omega), kernel, Region.ofFile, length]
    rfl
  have byte : (Region.ofFile file).load 2048 = .ok 1 := by
    rw [Region.load, ← Nat.add_zero 2048, ← List.getElem?_drop, mapped]
    rfl
  have kernelPtr : (layoutOf cutHdr (Region.ofFile file) file.length).mmKernelPtr = 2048 := rfl
  have dtbPtr : (layoutOf cutHdr (Region.ofFile file) file.length).mmDtbPtr = 6144 := by
    change (2048 + bPs 2048 1 + bPs 2048 1 + bPs 2048 0 + bPs 2048 0).toNat = 6144
    decide
  have padPtr : (layoutOf cutHdr (Region.ofFile file) file.length).mmPadPtr = 6144 := by
    change (2048 + bPs 2048 1 + bPs 2048 1 + bPs 2048 0 + bPs 2048 0 + bPs 2048 0).toNat = 6144
    decide
  have half : (layoutOf cutHdr (Region.ofFile file) file.length).read
      (layoutOf cutHdr (Region.ofFile file) file.length).mmKernelPtr 2 = .ok [1, 0] := by
    rw [kernelPtr]
    change (Region.ofFile file).slice 2048 2 = _
    have room : 2048 + 2 ≤ (Region.ofFile file).mapped.length := by
      have rest := congrArg List.length mapped
      simp only [List.length_drop, List.length_append, List.length_replicate] at rest
      omega
    rw [Region.slice, if_neg (by decide), if_pos room, mapped]
    rfl
  obtain ⟨kernelCompression, detected⟩ := bxxtBootDetectKernelCompression_total half
  have trimmed : trimmedPadSize (Region.ofFile file) (layoutOf cutHdr (Region.ofFile file) file.length).mmPadPtr
      (layoutOf cutHdr (Region.ofFile file) file.length).padSize = .ok (asUInt32 (2048 - 6144)) := by
    have region : (layoutOf cutHdr (Region.ofFile file) file.length).padSize = asUInt32 (2049 - 6144) := by
      change asUInt32 ((file.length : Int) - (layoutOf cutHdr (Region.ofFile file) file.length).mmPadPtr) = _
      rw [padPtr, length]
      rfl
    have start : ((6144 : Nat) : Int) + asInt (asUInt32 (2049 - 6144) - 1).toNat = 2048 := by
      have index : (asUInt32 (2049 - 6144) - 1).toNat = 2 ^ 32 - 4096 := by decide
      rw [index]
      simp only [asInt, Int.bmod_def]
      decide
    rw [region, padPtr, trimmedPadSize, start, trimFrom, if_neg (by decide), show (2048 : Int).toNat =
      2047 + 1 from rfl, trimPad, if_neg (by decide), byte]
    rfl
  have trees : Gapped [1] [] [1] := ⟨rfl, by simp, by simp, by decide, by decide⟩
  have none : Gapped [] [] [] := ⟨rfl, by simp, by simp, by decide, by decide⟩
  have kernelTrees := @bxxtBootParseDtbSections_gapped (Region.ofFile file) _ _ _ _ _ trees mapped (by decide)
  have dtbTrees := @bxxtBootParseDtbSections_gapped (Region.ofFile file) 6144 _ _ _ _ none (List.nil_append _).symm
      (by decide)
  have accepted := @accepted_of_scans _ file.length sha1 opts _ _ _ _ _ header ⟨rfl, by decide⟩
      ⟨by decide, by decide, by decide, by decide, by decide⟩ detected trimmed (kernelPtr ▸ kernelTrees)
      (dtbPtr ▸ dtbTrees)
  exact ⟨_, bxxtBootInit1_iff.mpr accepted, rfl⟩

/-- The header describes three pages and the file has little more than one. -/
theorem cut_file_accepted_beyond_its_end : ∃ b,
    bxxtBootInit1 storedLibraries.sha1 ⟨false, false⟩ bxxtBootNew (Region.ofFile cutFile) cutFile.length false =
        .ok (bxxtSuccess, b) ∧
      cutFile.length < b.mmRamdiskPtr + b.ramdiskSize.toNat ∧ ¬ SelfContained b cutFile.length := by
  obtain ⟨b, run, same⟩ := cutFile_accepted storedLibraries.sha1 ⟨false, false⟩
  have laid := (bxxtBootInit1_iff.mp run).laidOut
  have pages : pagesOf b.hdr = 6144 := by rw [same]; decide
  have ramdiskAt : b.mmRamdiskPtr = 4096 := by
    rw [laid.mmRamdiskPtr, Boot.bRAo, Boot.bKEo, laid.pageSize, laid.kernelSize, same]
    decide
  have length := cutFile_length
  refine ⟨b, run, ?_, ?_⟩
  · rw [ramdiskAt, length]
    omega
  · rw [laid.contained_iff, exactOffset_last laid.toSized, pages]
    omega

theorem stored_image_self_contained : ∃ image b,
    bxxtBootInit1 storedLibraries.sha1 ⟨false, false⟩ bxxtBootNew (Region.ofFile image) image.length false =
        .ok (bxxtSuccess, b) ∧ SelfContained b image.length := by
  obtain ⟨image, id, _, packed⟩ := plainKernel_packed
  obtain ⟨b, opened, hdr, laid, _⟩ := packed.reopened ⟨stored_pages, plainKernel_limits []⟩ rfl
    ⟨false, false⟩
  obtain ⟨_, same, _, accepted⟩ := bxxtBootOpenFile_iff.mp opened
  cases same
  have small : writeMax < 2 ^ 32 := by decide
  have shape := packed.shape
  obtain ⟨fits, _, last⟩ := noWrap_imageOf laid.toSized hdr stored_pages.header
    (shape ▸ lt_of_le_of_lt packed.complete small)
  have enough : exactOffset b 5 ≤ image.length := shape ▸ last
  have complete := packed.complete
  have parsed := (bxxtBootInit1_iff (b := bxxtBootNew)).mpr accepted
  refine ⟨image, b, parsed, (self_contained_iff accepted.header parsed).mpr ?_⟩
  rw [← exactOffset_last laid.toSized]
  exact ⟨fits, enough, by omega⟩

end Bxxt.Proofs
