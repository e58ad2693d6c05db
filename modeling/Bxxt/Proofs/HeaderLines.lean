import Bxxt.Proofs.HeaderStrings
import Bxxt.Proofs.ReaderLayout

/-! What a line of METADATA shows of the header. A number is printed from its own bytes. A string goes
on to the first NUL, which an array that is full leaves to the fields behind it. -/

namespace Bxxt

inductive MetaField where
  | kernelAddr
  | ramdiskAddr
  | secondAddr
  | tagsAddr
  | dtbAddr
  | recoveryDtboOffset
  | name
  | cmdline
  | extraCmdline
  | headerVersion
  | osVersion
  | headerSize
  | pageSize
  | kernelSize
  | ramdiskSize
  | secondSize
  | recoveryDtboSize
  | dtbSize
  deriving DecidableEq

namespace MetaField
open ByteLayout Layout

def key : MetaField → String
  | kernelAddr => "kernel_addr"
  | ramdiskAddr => "ramdisk_addr"
  | secondAddr => "second_addr"
  | tagsAddr => "tags_addr"
  | dtbAddr => "dtb_addr"
  | recoveryDtboOffset => "recovery_dtbo_offset"
  | name => "name"
  | cmdline => "cmdline"
  | extraCmdline => "extra_cmdline"
  | headerVersion => "header_version"
  | osVersion => "os_version"
  | headerSize => "header_size"
  | pageSize => "page_size"
  | kernelSize => "kernel_size"
  | ramdiskSize => "ramdisk_size"
  | secondSize => "second_size"
  | recoveryDtboSize => "recovery_dtbo_size"
  | dtbSize => "dtb_size"

def stored (hdr : BootImgHdr) : MetaField → Bytes
  | kernelAddr => word32.encode hdr.kernelAddr
  | ramdiskAddr => word32.encode hdr.ramdiskAddr
  | secondAddr => word32.encode hdr.secondAddr
  | tagsAddr => word32.encode hdr.tagsAddr
  | dtbAddr => word64.encode hdr.dtbAddr
  | recoveryDtboOffset => word64.encode hdr.recoveryDtboOffset
  | name => hdr.name.toList
  | cmdline => hdr.cmdline.toList
  | extraCmdline => hdr.extraCmdline.toList
  | headerVersion => word32.encode hdr.headerVersion
  | osVersion => word32.encode hdr.osVersion
  | headerSize => word32.encode hdr.headerSize
  | pageSize => word32.encode hdr.pageSize
  | kernelSize => word32.encode hdr.kernelSize
  | ramdiskSize => word32.encode hdr.ramdiskSize
  | secondSize => word32.encode hdr.secondSize
  | recoveryDtboSize => word32.encode hdr.recoveryDtboSize
  | dtbSize => word32.encode hdr.dtbSize

def isString : MetaField → Bool
  | name | cmdline | extraCmdline => true
  | kernelAddr | ramdiskAddr | secondAddr | tagsAddr | dtbAddr | recoveryDtboOffset | headerVersion | osVersion
  | headerSize | pageSize | kernelSize | ramdiskSize | secondSize | recoveryDtboSize | dtbSize => false

end MetaField

namespace Proofs
open BootImgHdr ByteLayout Layout KeyedLines TextScan

section Memory
variable {size : Nat}

theorem length_array (field : layout.Field (byteArray size)) : field.offset + size ≤ BootImgHdr.size := field.room

/-- The memory of a header around one of its arrays. -/
theorem array_place (field : layout.Field (byteArray size)) (hdr : BootImgHdr) :
    hdr.bytes.drop field.offset = (field.get hdr).toList ++ hdr.bytes.drop (field.offset + size) := by
  rw [← List.take_append_drop size (hdr.bytes.drop field.offset), List.drop_drop]
  congr 1
  exact field.load hdr

theorem hdrString_array (field : layout.Field (byteArray size)) (hdr : BootImgHdr) :
    hdrString hdr field.offset = cString ((field.get hdr).toList ++ (hdr.bytes.drop (field.offset + size) ++ [0])) := by
  have room := length_array field
  rw [hdrString, List.drop_append_of_le_length (by rw [length_bytes]; omega), array_place, List.append_assoc]

theorem hdrString_terminated (field : layout.Field (byteArray size)) {hdr : BootImgHdr}
    (ends : 0 ∈ (field.get hdr).toList) : hdrString hdr field.offset = cString (field.get hdr).toList := by
  rw [hdrString_array, cString_append ends]

theorem cString_full {memory rest : Bytes} (full : 0 ∉ memory) :
    cString (memory ++ rest) = memory ++ cString rest := by
  unfold cString
  rw [List.takeWhile_append_of_pos]
  intro byte member
  simp only [decide_not, Bool.not_eq_eq_eq_not, Bool.not_true, decide_eq_false_iff_not]
  rintro rfl
  exact full member

/-- A full array is printed together with what is behind it, so that another header prints it otherwise. -/
theorem full_runs_on (field : layout.Field (byteArray size)) (inside : field.offset + size < BootImgHdr.size)
    (hdr : BootImgHdr) (full : 0 ∉ (field.get hdr).toList) :
    ∃ other : BootImgHdr, field.get other = field.get hdr ∧ hdrString other field.offset ≠
      hdrString hdr field.offset := by
  obtain ⟨next, rest, behind⟩ : ∃ next rest, hdr.bytes.drop (field.offset + size) = next :: rest := by
    have length : (hdr.bytes.drop (field.offset + size)).length = BootImgHdr.size - (field.offset + size) := by
      rw [List.length_drop, length_bytes]
    cases shape : hdr.bytes.drop (field.offset + size) with
    | nil =>
      rw [shape, List.length_nil] at length
      omega
    | cons next rest => exact ⟨next, rest, rfl⟩
  -- the byte behind the array ends the string in one of the two headers only
  obtain ⟨changed, differs⟩ : ∃ changed : UInt8, (changed = 0 ∧ next ≠ 0) ∨
      (changed ≠ 0 ∧ next = 0) := by
    by_cases zero : next = 0
    · exact ⟨1, Or.inr ⟨by decide, zero⟩⟩
    · exact ⟨0, Or.inl ⟨rfl, zero⟩⟩
  let memory := hdr.bytes.take (field.offset + size) ++ changed :: rest
  have cut : hdr.bytes.take (field.offset + size) ++ next :: rest = hdr.bytes := by
    rw [← behind, List.take_append_drop]
  have front : (hdr.bytes.take (field.offset + size)).length = field.offset + size :=
    List.length_take_of_le (by rw [length_bytes]; omega)
  have whole : memory.length = BootImgHdr.size := by
    have length := congrArg List.length cut
    rw [length_bytes, List.length_append, List.length_cons] at length
    rw [← length, List.length_append, List.length_cons]
  have stored : (ofBytes memory).bytes = memory := by
    rw [bytes_ofBytes (Nat.le_of_eq whole.symm), ← whole, List.take_length]
  have same : field.get (ofBytes memory) = field.get hdr := by
    apply (byteArray size).encode_injective
    rw [← field.load, ← field.load]
    change ((ofBytes memory).bytes.drop _).take size = (hdr.bytes.drop _).take size
    rw [stored, List.take_drop, List.take_drop, List.take_left' front]
  refine ⟨ofBytes memory, same, ?_⟩
  have behindOther : (ofBytes memory).bytes.drop (field.offset + size) = changed :: rest := by
    rw [stored]
    exact List.drop_left' front
  rw [hdrString_array, hdrString_array, same, behindOther, behind, cString_full full, cString_full full]
  intro equal
  have equal := List.append_cancel_left equal
  rcases differs with ⟨rfl, nonzero⟩ | ⟨nonzero, rfl⟩
  · simp [cString, nonzero] at equal
  · simp [cString, nonzero] at equal

end Memory
section Lines

def PrintsLine (b : Boot) (f : MetaField) (value : Bytes) : Prop :=
  ∃ kernelCompression, bxxtBootPrintMetaInfoFile b = .ok (render (metaEntries b kernelCompression)) ∧
    (metaEntries b kernelCompression).lookup (metaKey f.key) = some value

/-- The line of the field depends on the field only: it is the same for all headers that have the
bytes of this one there, whatever the rest of them is. -/
def OwnLine (f : MetaField) (hdr : BootImgHdr) : Prop :=
  ∀ (b b' : Boot) (value value' : Bytes), b.hdr = hdr → Sized b → Sized b' → f.stored b'.hdr = f.stored hdr →
    PrintsLine b f value → PrintsLine b' f value' → value' = value

/-- A number is an argument of its line, and of no other. -/
theorem number_line {b b' : Boot} {f : MetaField} (number : f.isString = false) (sized : Sized b) (sized' : Sized b')
    (same : f.stored b'.hdr = f.stored b.hdr) (kernelCompression kernelCompression' : KernelCompression) :
    (metaEntries b' kernelCompression').lookup (metaKey f.key) = (metaEntries b kernelCompression).lookup
      (metaKey f.key) := by
  have word {v v' : UInt32} (same : word32.encode v' = word32.encode v) :
      some (hexText v'.toNat) = some (hexText v.toNat) := by
    rw [word32.encode_injective same]
  have wide {v v' : UInt64} (same : word64.encode v' = word64.encode v) :
      some (hexText v'.toNat) = some (hexText v.toNat) := by
    rw [word64.encode_injective same]
  cases f with
  | name | cmdline | extraCmdline => cases number
  | dtbAddr | recoveryDtboOffset => exact wide same
  | kernelAddr | ramdiskAddr | secondAddr | tagsAddr | headerVersion | osVersion | headerSize | pageSize =>
    exact word same
  | kernelSize => exact word (by rw [sized.kernelSize, sized'.kernelSize]; exact same)
  | ramdiskSize => exact word (by rw [sized.ramdiskSize, sized'.ramdiskSize]; exact same)
  | secondSize => exact word (by rw [sized.secondSize, sized'.secondSize]; exact same)
  | recoveryDtboSize => exact word (by rw [sized.recoveryDtboSize, sized'.recoveryDtboSize]; exact same)
  | dtbSize => exact word (by rw [sized.dtbSize, sized'.dtbSize]; exact same)

/-- The array that a string is printed from, and that it ends before the struct does. -/
theorem string_line {f : MetaField} (string : f.isString = true) : ∃ (size : Nat)
    (field : layout.Field (byteArray size)),
    (∀ hdr, f.stored hdr = (field.get hdr).toList) ∧ field.offset + size < BootImgHdr.size ∧
      ∀ b kernelCompression, (metaEntries b kernelCompression).lookup (metaKey f.key) =
        some (hdrString b.hdr field.offset) := by
  cases f with
  | name => exact ⟨_, nameField, fun _ => rfl, by decide, fun _ _ => rfl⟩
  | cmdline => exact ⟨_, cmdlineField, fun _ => rfl, by decide, fun _ _ => rfl⟩
  | extraCmdline => exact ⟨_, extraCmdlineField, fun _ => rfl, by decide, fun _ _ => rfl⟩
  | _ => cases string

/-- An image that begins with the header and goes on with zeros, as far as it is read before METADATA is written. -/
def opened (hdr : BootImgHdr) : Boot :=
  initSizes { bxxtBootNew with hdr } (Region.ofBuffer (hdr.bytes ++ List.replicate (hdr.pageSize.toNat + 2) 0))

theorem opened_prints (hdr : BootImgHdr) : ∃ kernelCompression,
    bxxtBootPrintMetaInfoFile (opened hdr) = .ok (render (metaEntries (opened hdr) kernelCompression)) := by
  have inside : hdr.pageSize.toNat + 2 ≤ (hdr.bytes ++ List.replicate (hdr.pageSize.toNat + 2) 0).length := by
    rw [List.length_append, List.length_replicate]
    omega
  obtain ⟨kernelCompression, detected⟩ :=
    @bxxtBootDetectKernelCompression_total (opened hdr) _ (Region.slice_inside inside)
  refine ⟨kernelCompression, ?_⟩
  rw [bxxtBootPrintMetaInfoFile, detected]
  rfl

theorem full_not_own {f : MetaField} (string : f.isString = true) {hdr : BootImgHdr} (full : 0 ∉ f.stored hdr) :
    ¬ OwnLine f hdr := by
  obtain ⟨size, field, array, inside, line⟩ := string_line string
  rw [array] at full
  obtain ⟨other, same, differs⟩ := full_runs_on field inside hdr full
  obtain ⟨compression, printed⟩ := opened_prints hdr
  obtain ⟨compression', printed'⟩ := opened_prints other
  intro own
  refine differs (own (opened hdr) (opened other) _ _ rfl (initSizes_sized _ _) (initSizes_sized _ _) ?_
    ⟨compression, printed, line _ _⟩ ⟨compression', printed', line _ _⟩)
  rw [array, array]
  exact congrArg _ same

/-- A line depends on its own field only, unless that is a string that fills its array. -/
theorem own_line_iff (f : MetaField) (hdr : BootImgHdr) : OwnLine f hdr ↔
    (f.isString = true → 0 ∈ f.stored hdr) := by
  constructor
  · intro own string
    exact Decidable.not_not.mp fun full => full_not_own string full own
  · rintro ends b b' value value' rfl sized sized' same ⟨compression, _, line⟩ ⟨compression', _, line'⟩
    apply Option.some.inj
    rw [← line, ← line']
    cases string : f.isString with
    | false => exact number_line string sized sized' same compression compression'
    | true =>
      obtain ⟨size, field, array, _, shown⟩ := string_line string
      have ends := ends string
      rw [array] at ends
      rw [array, array] at same
      rw [shown, shown, hdrString_terminated field ends, hdrString_terminated field (same ▸ ends), same]

/-- A name of sixteen letters is printed with the command line behind it. -/
theorem full_name_not_own : ¬ OwnLine .name { BootImgHdr.zero with name := Vector.replicate _ 97 } :=
  full_not_own rfl (by decide)

end Lines
end Proofs
end Bxxt
