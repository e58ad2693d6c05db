import Bxxt.HeaderMemory
import Bxxt.Proofs.WideFields

/-! Reading METADATA into the memory of a header gives the header that is read field by field. A
string that does not fit its array overruns the fields behind it, and the length that is
then measured is the one of the whole line. -/

namespace Bxxt
open ByteLayout

namespace BootImgHdr
open Layout Layout.Field

/-! The fields that are stored to, as places in the layout. -/

def magicField : layout.Field (byteArray 8) := self.here.via
def kernelSizeField : layout.Field word32 := self.here.next.via
def kernelAddrField : layout.Field word32 := self.here.next.next.via
def ramdiskAddrField : layout.Field word32 := self.here.next.next.next.next.via
def secondAddrField : layout.Field word32 := self.here.next.next.next.next.next.next.via
def tagsAddrField : layout.Field word32 :=
  self.here.next.next.next.next.next.next.next.via
def pageSizeField : layout.Field word32 :=
  self.here.next.next.next.next.next.next.next.next.via
def headerVersionField : layout.Field word32 :=
  self.here.next.next.next.next.next.next.next.next.next.via
def osVersionField : layout.Field word32 :=
  self.here.next.next.next.next.next.next.next.next.next.next.via
def nameField : layout.Field (byteArray bootNameSize) :=
  self.here.next.next.next.next.next.next.next.next.next.next.next.via
def cmdlineField : layout.Field (byteArray bootArgsSize) :=
  self.here.next.next.next.next.next.next.next.next.next.next.next.next.via
def extraCmdlineField : layout.Field (byteArray bootExtraArgsSize) :=
  self.here.next.next.next.next.next.next.next.next.next.next.next.next.next.next.via
def recoveryDtboOffsetField : layout.Field word64 :=
  self.here.next.next.next.next.next.next.next.next.next.next.next.next.next.next.next.next.via
def headerSizeField : layout.Field word32 :=
  self.here.next.next.next.next.next.next.next.next.next.next.next.next.next.next.next.next.next.via
def dtbAddrField : layout.Field word64 :=
  self.next.next.next.next.next.next.next.next.next.next.next.next.next.next.next.next.next.next.next.via

end BootImgHdr

namespace Proofs
open BootImgHdr TextScan KeyedLines

section Steps
variable {file : Option Bytes} {name : String} {offset size : Nat} {hdr : Bytes}

theorem configXintInto_eq (room : offset + 4 ≤ hdr.length) :
    configXintInto file name offset hdr = (fun value => splice hdr offset (leBytes 4 value.toNat)) <$>
      configXint file name := by
  apply OptionT.ext
  rw [OptionT.run_map, configXintInto, configXint, OptionT.run_mk, OptionT.run_mk]
  cases bxxtBootScanMetadata file (metaKey name) scanXint with
  | error fault => rfl
  | ok found =>
    cases found with
    | none => rfl
    | some value =>
      have stored : storeAt hdr offset (leBytes 4 value.toNat) = .ok (splice hdr offset (leBytes 4 value.toNat)) := by
        rw [storeAt, if_neg (by rw [length_leBytes]; omega)]
      simp only [Exec.ok_bind, stored]
      rfl

/-- The length of a string that was just stored is the length of its line. -/
theorem strlenAt_stored {line : Bytes} (noNul : 0 ∉ line) (inside : offset ≤ hdr.length) :
    strlenAt (splice hdr offset (line ++ [0])) offset = .ok line.length := by
  have behind : (splice hdr offset (line ++ [0])).drop offset =
      line ++ 0 :: hdr.drop (offset + (line ++ [0]).length) := by
    rw [drop_splice inside, List.append_assoc, List.singleton_append]
  rw [strlenAt, behind, if_pos (by simp), cString_line noNul]

/-- A string stored through a pointer to a cleared array is a store of the array, or the
length that is measured refuses it. -/
theorem configStringInto_eq (room : offset + size ≤ hdr.length) (whole : hdr.length = BootImgHdr.size)
    (positive : 0 < size) (cleared : (hdr.drop offset).take size = List.replicate size 0) :
    configStringInto file name offset size hdr =
      (fun array => splice hdr offset array.toList) <$> configString file name offset size := by
  apply OptionT.ext
  rw [OptionT.run_map, configStringInto, configString, OptionT.run_mk, OptionT.run_mk]
  -- what is behind the line in its array is cleared already
  have padded {line : Bytes} (fits : line.length < size) :
      splice hdr offset (paddedString size line).toList = splice hdr offset (line ++ [0]) := by
    rw [paddedString_toList fits, ← List.singleton_append, ← List.append_assoc]
    apply splice_kept
    have rest : hdr.drop (offset + (line ++ [0]).length) = (hdr.drop offset).drop (line.length + 1) := by
      rw [List.drop_drop, List.length_append, List.length_singleton]
    have part := congrArg (fun bytes : Bytes => bytes.drop (line.length + 1)) cleared
    simp only [List.drop_take, List.drop_replicate] at part
    rw [rest, List.length_replicate, Nat.sub_sub]
    exact part
  cases scanned : bxxtBootScanMetadata file (metaKey name) scanLine with
  | error fault => rfl
  | ok found =>
    cases found with
    | none =>
      obtain ⟨fewer, rfl⟩ : ∃ fewer, size = fewer + 1 := ⟨size - 1, by omega⟩
      obtain ⟨rest, starts⟩ : ∃ rest, hdr.drop offset = 0 :: rest := by
        cases area : hdr.drop offset with
        | nil =>
          rw [area] at cleared
          cases cleared
        | cons byte rest =>
          rw [area, List.take_succ_cons, List.replicate_succ] at cleared
          exact ⟨rest, by rw [(List.cons.inj cleared).1]⟩
      have empty : strlenAt hdr offset = .ok 0 := by
        rw [strlenAt, starts, if_pos (by simp)]
        rfl
      have kept : splice hdr offset (paddedString (fewer + 1) []).toList = hdr := by
        rw [padded (by simp), splice, List.nil_append, List.append_assoc, List.singleton_append]
        have next : hdr.drop (offset + 1) = rest := by rw [← List.drop_drop, starts, List.drop_one, List.tail_cons]
        rw [List.length_singleton, next, ← starts, List.take_append_drop]
      simp only [Exec.ok_bind, pure, Except.pure, empty, Nat.le_zero, Nat.add_one_ne_zero, ↓reduceIte]
      exact congrArg (fun bytes => Except.ok (some bytes)) kept.symm
    | some line =>
      obtain ⟨noNul, _⟩ := scannedLine_plain scanned
      simp only [Exec.ok_bind, storeAt, List.length_append, List.length_singleton, whole]
      by_cases beyond : BootImgHdr.size < offset + (line.length + 1)
      · rw [if_pos beyond, if_pos (by omega)]
        rfl
      · rw [if_neg beyond, if_neg (by omega), Exec.ok_bind, strlenAt_stored noNul (by omega), Exec.ok_bind]
        by_cases long : size ≤ line.length
        · rw [if_pos long, if_pos long]
          rfl
        · rw [if_neg long, if_neg long, ← padded (by omega)]
          rfl

end Steps

section Stores
open Layout
variable (file : Option Bytes) (name : String) (hdr : BootImgHdr)

theorem configStringInto_field {size : Nat} (field : layout.Field (byteArray size)) (positive : 0 < size)
    (empty : field.get hdr = Vector.replicate size 0) :
    configStringInto file name field.offset size hdr.bytes =
      (fun array => (field.set array hdr).bytes) <$> configString file name field.offset size := by
  -- a cleared array is a stretch of zeros
  have cleared : (hdr.bytes.drop field.offset).take size = List.replicate size 0 := by
    have area := field.load hdr
    rw [empty] at area
    exact area.trans Vector.toList_replicate
  rw [configStringInto_eq (by rw [length_bytes]; exact field.room) (length_bytes hdr) positive cleared]
  exact congrArg (· <$> _) (funext fun array => (field.store array hdr).symm)

theorem configXintInto_field (field : layout.Field word32) :
    configXintInto file name field.offset hdr.bytes =
      (fun value => (field.set value hdr).bytes) <$> configXint file name := by
  rw [configXintInto_eq (by rw [length_bytes]; exact field.room)]
  exact congrArg (· <$> _) (funext fun value => (field.store value hdr).symm)

/-- A conversion into a cleared field of 64 bits stores its low half. -/
theorem configXintInto_half (field : layout.Field word64) (empty : field.get hdr = 0) :
    configXintInto file name field.offset hdr.bytes =
      (fun value => (field.set value.toUInt64 hdr).bytes) <$> configXint file name := by
  have room : field.offset + 8 ≤ hdr.bytes.length := by
    rw [length_bytes]
    exact field.room
  rw [configXintInto_eq (by omega)]
  refine congrArg (· <$> _) (funext fun value => ?_)
  have halves : word64.encode value.toUInt64 = leBytes 4 value.toNat ++ [0, 0, 0, 0] := by
    change leBytes 8 value.toUInt64.toNat = _
    rw [UInt32.toNat_toUInt64]
    have upper : value.toNat / 256 / 256 / 256 / 256 = 0 := by
      have fits := value.toNat_lt
      omega
    simp only [leBytes, upper, Nat.zero_div, List.cons_append, List.nil_append]
    rfl
  have area := field.load hdr
  rw [empty] at area
  have upper := congrArg (fun bytes : Bytes => bytes.drop 4) area
  simp only [List.drop_take, List.drop_drop] at upper
  refine Eq.trans ?_ (field.store value.toUInt64 hdr).symm
  rw [halves]
  refine (splice_kept ?_).symm
  rw [length_leBytes]
  exact upper

/-- The NUL behind the magic goes to the first byte of a size that is zero. -/
theorem storeAt_magic (empty : hdr.kernelSize = 0) :
    storeAt hdr.bytes 0 (bootMagic.toList ++ [0]) = .ok (magicField.set bootMagic hdr).bytes := by
  have stored : splice hdr.bytes 0 (bootMagic.toList ++ [0]) = (magicField.set bootMagic hdr).bytes := by
    refine (splice_kept ?_).trans (magicField.store bootMagic hdr).symm
    have area := kernelSizeField.load hdr
    have low := congrArg (List.take 1) area
    rw [List.take_take] at low
    refine low.trans ?_
    rw [show kernelSizeField.get hdr = 0 from empty]
    rfl
  rw [storeAt, if_neg (by rw [length_bytes]; decide), stored]

theorem stored_bind {α : Type} {into : OptionT Exec Bytes} {read : OptionT Exec α} {place : α → BootImgHdr}
    {intoRest : Bytes → OptionT Exec Bytes} {rest : α → OptionT Exec BootImgHdr}
    (step : into = (fun value => (place value).bytes) <$> read)
    (behind : ∀ value, intoRest (place value).bytes = BootImgHdr.bytes <$> rest value) :
    (into >>= intoRest) = BootImgHdr.bytes <$> (read >>= rest) := by
  rw [step, bind_map_left, map_bind]
  exact bind_congr behind

end Stores

/-- The struct that METADATA is read into holds the header that is read. -/
theorem hdrFromMetadataInto_eq (file : Option Bytes) :
    bxxtBootHdrFromMetadataInto file = BootImgHdr.bytes <$> bxxtBootHdrFromMetadata file := by
  have cleared : List.replicate BootImgHdr.size 0 = BootImgHdr.zero.bytes := by decide +kernel
  unfold bxxtBootHdrFromMetadataInto bxxtBootHdrFromMetadata
  dsimp only
  rw [cleared]
  apply stored_bind (configStringInto_field file "cmdline" _ cmdlineField (by decide) rfl)
  intro cmdline
  apply stored_bind (configStringInto_field file "extra_cmdline" _ extraCmdlineField (by decide) rfl)
  intro extraCmdline
  apply stored_bind (configStringInto_field file "name" _ nameField (by decide) rfl)
  intro name
  apply stored_bind (configXintInto_field file "header_size" _ headerSizeField)
  intro _headerSize
  apply stored_bind (configXintInto_field file "kernel_addr" _ kernelAddrField)
  intro kernelAddr
  apply stored_bind (configXintInto_field file "ramdisk_addr" _ ramdiskAddrField)
  intro ramdiskAddr
  apply stored_bind (configXintInto_field file "second_addr" _ secondAddrField)
  intro secondAddr
  apply stored_bind (configXintInto_field file "tags_addr" _ tagsAddrField)
  intro tagsAddr
  apply stored_bind (configXintInto_field file "page_size" _ pageSizeField)
  intro pageSize
  apply stored_bind (configXintInto_field file "header_version" _ headerVersionField)
  intro headerVersion
  apply stored_bind (configXintInto_field file "header_size" _ headerSizeField)
  intro headerSize
  apply stored_bind (configXintInto_field file "os_version" _ osVersionField)
  intro osVersion
  apply stored_bind (configXintInto_half file "recovery_dtbo_offset" _ recoveryDtboOffsetField rfl)
  intro recoveryDtboOffset
  apply stored_bind (configXintInto_half file "dtb_addr" _ dtbAddrField rfl)
  intro dtbAddr
  rw [storeAt_magic _ rfl]
  rfl

/-- The rest of the line behind the first mention of a field, empty without one. -/
def firstLine (text : Bytes) (name : String) : Bytes :=
  ((lookup (metaKey name) text).getD []).takeWhile (· ≠ newline)

/-- The number behind the first mention of a field, as the conversion stores it. -/
def firstNumber (text : Bytes) (name : String) : Option UInt32 := (lookup (metaKey name) text).bind scanXint

structure HoldsString {size : Nat} (array : Vector UInt8 size) (line : Bytes) : Prop where
  ends : 0 ∈ array.toList
  string : cString array.toList = line

/-- Every field has the value of its own scan and nothing of another's. -/
structure OwnValues (text : Bytes) (hdr : BootImgHdr) : Prop where
  name : HoldsString hdr.name (firstLine text "name")
  cmdline : HoldsString hdr.cmdline (firstLine text "cmdline")
  extraCmdline : HoldsString hdr.extraCmdline (firstLine text "extra_cmdline")
  kernelAddr : firstNumber text "kernel_addr" = some hdr.kernelAddr
  ramdiskAddr : firstNumber text "ramdisk_addr" = some hdr.ramdiskAddr
  secondAddr : firstNumber text "second_addr" = some hdr.secondAddr
  tagsAddr : firstNumber text "tags_addr" = some hdr.tagsAddr
  pageSize : firstNumber text "page_size" = some hdr.pageSize
  headerVersion : firstNumber text "header_version" = some hdr.headerVersion
  headerSize : firstNumber text "header_size" = some hdr.headerSize
  osVersion : firstNumber text "os_version" = some hdr.osVersion
  recoveryDtboOffset : (firstNumber text "recovery_dtbo_offset").map UInt32.toNat = some hdr.recoveryDtboOffset.toNat
  dtbAddr : (firstNumber text "dtb_addr").map UInt32.toNat = some hdr.dtbAddr.toNat
  recoveryDtboOffset_upper : hdr.recoveryDtboOffset.toNat / 2 ^ 32 = 0
  dtbAddr_upper : hdr.dtbAddr.toNat / 2 ^ 32 = 0
  magic : hdr.magic = bootMagic
  id : hdr.id = Vector.replicate 32 0
  kernelSize : hdr.kernelSize = 0
  ramdiskSize : hdr.ramdiskSize = 0
  secondSize : hdr.secondSize = 0
  recoveryDtboSize : hdr.recoveryDtboSize = 0
  dtbSize : hdr.dtbSize = 0

section Scans
variable {content : Bytes} {name : String}

/-- A scan of a file is a look into the string that the file holds, where it ends in its mapping. -/
theorem scanMetadata_content {α : Type} (key : Bytes) (conversion : Bytes → Option α) :
    bxxtBootScanMetadata (some content) key conversion =
      if content = [] then .ok none
      else if 0 ∈ (Region.ofFile content).mapped then .ok ((lookup key (cString content)).bind conversion)
      else .error .outOfBounds := by
  unfold bxxtBootScanMetadata bxxtFileOpenMm
  dsimp only
  by_cases empty : content = []
  · rw [if_pos empty, if_pos empty]
  · rw [if_neg empty, if_neg empty]
    dsimp only
    unfold Region.cText
    split
    next ends =>
      have string : cString (Region.ofFile content).mapped = cString content := by
        by_cases inside : 0 ∈ content
        · exact cString_append inside
        · obtain ⟨slack, tail⟩ : ∃ slack, (Region.ofFile content).slack = slack + 1 := by
            cases amount : (Region.ofFile content).slack with
            | zero =>
              rw [Region.mapped, amount] at ends
              simp [inside] at ends
            | succ slack => exact ⟨slack, rfl⟩
          have whole : cString content = content := by
            rw [cString, List.takeWhile_eq_self_iff]
            intro byte member
            have other : byte ≠ 0 := fun zero => inside (zero ▸ member)
            simpa using other
          rw [Region.mapped, tail, List.replicate_succ, Region.ofFile_bytes, cString_line inside, whole]
      rw [string]
      rfl
    next => rfl

theorem firstNumber_of_read {value : UInt32} (read : (configXint (some content) name).run = .ok (some value)) :
    firstNumber (cString content) name = some value := by
  rw [configXint, OptionT.run_mk, scanMetadata_content] at read
  split at read
  next => cases read
  next =>
    split at read
    next => exact Except.ok.inj read
    next => cases read

theorem firstLine_eq (text : Bytes) : firstLine text name = ((lookup (metaKey name) text).bind scanLine).getD [] := by
  unfold firstLine
  cases lookup (metaKey name) text with
  | none => rfl
  | some after =>
    dsimp only [Option.getD_some, Option.bind_some]
    unfold scanLine
    split
    next blank => exact blank
    next => rfl

theorem holdsString_of_read {offset size : Nat} {array : Vector UInt8 size} (nonempty : content ≠ [])
    (positive : 0 < size) (read : (configString (some content) name offset size).run = .ok (some array)) :
    HoldsString array (firstLine (cString content) name) := by
  obtain ⟨found, scanned, rfl, fits, noNul, _⟩ := configString_line positive read
  rw [scanMetadata_content, if_neg nonempty] at scanned
  split at scanned
  next =>
    rw [firstLine_eq, Except.ok.inj scanned]
    exact ⟨by rw [paddedString_toList fits]; simp, cString_paddedString fits noNul⟩
  next => cases scanned

theorem upper_half (value : UInt32) : value.toUInt64.toNat / 2 ^ 32 = 0 := by
  have fits := value.toNat_lt
  rw [UInt32.toNat_toUInt64]
  omega

theorem nonempty_of_read {hdr : BootImgHdr} (reads : ReadsFrom (some content) hdr) : content ≠ [] := by
  intro empty
  have read := reads.pageSize
  rw [configXint, OptionT.run_mk, scanMetadata_content, if_pos empty] at read
  cases read

theorem ownValues_of_read {hdr : BootImgHdr} (reads : ReadsFrom (some content) hdr) :
    OwnValues (cString content) hdr := by
  have nonempty := nonempty_of_read reads
  obtain ⟨dtbo, dtboRead, dtboSame⟩ := reads.recoveryDtboOffset
  obtain ⟨dtb, dtbRead, dtbSame⟩ := reads.dtbAddr
  exact {
    name := holdsString_of_read nonempty (by decide) reads.name
    cmdline := holdsString_of_read nonempty (by decide) reads.cmdline
    extraCmdline := holdsString_of_read nonempty (by decide) reads.extraCmdline
    kernelAddr := firstNumber_of_read reads.kernelAddr
    ramdiskAddr := firstNumber_of_read reads.ramdiskAddr
    secondAddr := firstNumber_of_read reads.secondAddr
    tagsAddr := firstNumber_of_read reads.tagsAddr
    pageSize := firstNumber_of_read reads.pageSize
    headerVersion := firstNumber_of_read reads.headerVersion
    headerSize := firstNumber_of_read reads.headerSize
    osVersion := firstNumber_of_read reads.osVersion
    recoveryDtboOffset := by rw [firstNumber_of_read dtboRead, dtboSame, UInt32.toNat_toUInt64]; rfl
    dtbAddr := by rw [firstNumber_of_read dtbRead, dtbSame, UInt32.toNat_toUInt64]; rfl
    recoveryDtboOffset_upper := by rw [dtboSame, upper_half]
    dtbAddr_upper := by rw [dtbSame, upper_half]
    magic := reads.magic
    id := reads.id
    kernelSize := reads.kernelSize
    ramdiskSize := reads.ramdiskSize
    secondSize := reads.secondSize
    recoveryDtboSize := reads.recoveryDtboSize
    dtbSize := reads.dtbSize }

end Scans

/-- The memory of an accepted header is a header with nothing but the values of its own scans. -/
theorem accepted_header_own_values {content memory : Bytes}
    (accepted : (bxxtBootHdrFromMetadataInto (some content)).run = .ok (some memory)) :
    memory.length = BootImgHdr.size ∧ OwnValues (cString content) (BootImgHdr.ofBytes memory) := by
  rw [hdrFromMetadataInto_eq, OptionT.run_map] at accepted
  cases read : (bxxtBootHdrFromMetadata (some content)).run with
  | error fault =>
    rw [read] at accepted
    cases accepted
  | ok found =>
    rw [read] at accepted
    cases found with
    | none => cases accepted
    | some hdr =>
      cases accepted
      rw [ofBytes_bytes]
      exact ⟨hdr.length_bytes, ownValues_of_read (bxxtBootHdrFromMetadata_iff.mp read)⟩

/-- A printed header is read back into memory. -/
theorem printed_header_own_values : ∃ text memory, (bxxtBootHdrFromMetadataInto (some text)).run =
    .ok (some memory) ∧
    memory.length = BootImgHdr.size ∧ OwnValues (cString text) (BootImgHdr.ofBytes memory) := by
  have noNul : 0 ∉ ascii "console=ttyMSM0" := by decide
  have plain := bootWithCmdline_plain 0x1000 (by decide) noNul (by decide)
  have clear := (bootWithCmdline_silent 0x1000 (by decide) noNul (by decide)).unshadowed
  have read := @hdrFromMetadata_printed _ .gzip plain clear
  have accepted :
    (bxxtBootHdrFromMetadataInto
      (some (render (metaEntries (bootWithCmdline (ascii "console=ttyMSM0") 0x1000) .gzip)))).run =
      .ok (some (restoredHdr (bootWithCmdline (ascii "console=ttyMSM0") 0x1000).hdr).bytes) := by
    rw [hdrFromMetadataInto_eq, OptionT.run_map, read]
    rfl
  exact ⟨_, _, accepted, accepted_header_own_values accepted⟩

end Proofs
end Bxxt
