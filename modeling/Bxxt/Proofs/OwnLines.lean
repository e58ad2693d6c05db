import Bxxt.Proofs.HeaderStrings

/-! Numbers in METADATA and the lines they come from. A key is found anywhere in the text, and the
conversion behind it passes over white space, also over the end of the line. -/

namespace Bxxt.Proofs
open ByteLayout KeyedLines TextScan

/-- The fields that METADATA has to set. -/
def integerFields : List (String × (BootImgHdr → Nat)) :=
  [("header_size", fun hdr => hdr.headerSize.toNat), ("kernel_addr", fun hdr => hdr.kernelAddr.toNat),
    ("ramdisk_addr", fun hdr => hdr.ramdiskAddr.toNat), ("second_addr", fun hdr => hdr.secondAddr.toNat),
    ("tags_addr", fun hdr => hdr.tagsAddr.toNat), ("page_size", fun hdr => hdr.pageSize.toNat),
    ("header_version", fun hdr => hdr.headerVersion.toNat), ("os_version", fun hdr => hdr.osVersion.toNat),
    ("recovery_dtbo_offset", fun hdr => hdr.recoveryDtboOffset.toNat), ("dtb_addr", fun hdr => hdr.dtbAddr.toNat)]

/-- The text has a line that begins with the key of the field, and this number behind it on the line. -/
def OwnNumber (text : Bytes) (name : String) (number : Nat) : Prop :=
  ∃ rest, metaKey name ++ rest ∈ text.splitOn newline ∧ scanHex rest = some number

/-- An accepted header has its numbers from lines of their own, and a text without one of the
lines is refused. -/
structure FieldsFromOwnLines (content : Bytes) : Prop where
  accepted : ∀ hdr, (bxxtBootHdrFromMetadata (some content)).run = .ok (some hdr) → ∀ field ∈ integerFields,
    ∃ number, OwnNumber (cString content) field.1 number ∧ (number < 2 ^ 32 → field.2 hdr = number)
  refused : (∃ field ∈ integerFields, ∀ number, ¬ OwnNumber (cString content) field.1 number) →
    (bxxtBootHdrFromMetadata (some content)).run = .ok none

/-- The first mention of the field begins a line, and what follows it on the line is not blank. This
is how every line looks that the tool itself writes. -/
def Leads (text : Bytes) (name : String) : Prop :=
  ∃ before after, text = before ++ (metaKey name ++ after) ∧ lookup (metaKey name) text = some after ∧
    (before = [] ∨ ∃ front, before = front ++ [newline]) ∧ ¬ (after.takeWhile (· ≠ newline)).all isSpace

/-- By accident a line of the field says the number that is found elsewhere, or one that no field can hold. -/
def Coincides (text : Bytes) (name : String) : Prop :=
  ∃ number, OwnNumber text name number ∧ (number < 2 ^ 32 → firstNumber text name = some (UInt32.ofNat number))

structure Accepts (content : Bytes) : Prop where
  nonempty : content ≠ []
  ends : 0 ∈ (Region.ofFile content).mapped
  cmdline : (firstLine (cString content) "cmdline").length < bootArgsSize
  extraCmdline : (firstLine (cString content) "extra_cmdline").length < bootExtraArgsSize
  name : (firstLine (cString content) "name").length < bootNameSize
  numbers : ∀ field ∈ integerFields, firstNumber (cString content) field.1 ≠ none

/-- Reading has no result: the text has no NUL in its mapping, or one of the string lines, which are
read without a width, goes on behind the end of the header. -/
def Overruns (content : Bytes) : Prop :=
  content ≠ [] ∧ (0 ∉ (Region.ofFile content).mapped ∨
    BootImgHdr.size < BootImgHdr.cmdlineOffset + (firstLine (cString content) "cmdline").length + 1 ∨
    (firstLine (cString content) "cmdline").length < bootArgsSize ∧
      (BootImgHdr.size < BootImgHdr.extraCmdlineOffset + (firstLine (cString content) "extra_cmdline").length + 1 ∨
        (firstLine (cString content) "extra_cmdline").length < bootExtraArgsSize ∧
          BootImgHdr.size < BootImgHdr.nameOffset + (firstLine (cString content) "name").length + 1))

section Lines
variable {text : Bytes} {name : String}

theorem mem_splitOn {before line after : Bytes} (single : newline ∉ line)
    (begins : before = [] ∨ ∃ front, before = front ++ [newline])
    (stops : after = [] ∨ ∃ rest, after = newline :: rest) :
    line ∈ (before ++ (line ++ after)).splitOn newline := by
  have here : line ∈ (line ++ after).splitOn newline := by
    obtain rfl | ⟨rest, rfl⟩ := stops
    · rw [List.append_nil, List.splitOn_eq_singleton single]
      exact List.mem_singleton_self line
    · rw [List.splitOn_append_cons_self_of_not_mem single]
      exact List.mem_cons_self
  obtain rfl | ⟨front, rfl⟩ := begins
  · exact here
  · rw [List.append_assoc, List.singleton_append, List.splitOn_append_cons_self]
    exact List.mem_append_right _ here

theorem rest_of_line (text : Bytes) : ∃ after, text = text.takeWhile (· ≠ newline) ++ after ∧
    (after = [] ∨ ∃ rest, after = newline :: rest) := by
  refine ⟨text.dropWhile (· ≠ newline), List.takeWhile_append_dropWhile.symm, ?_⟩
  have stop := List.head?_dropWhile_not (· ≠ newline) text
  cases tail : text.dropWhile (· ≠ newline) with
  | nil => exact Or.inl rfl
  | cons char rest =>
    rw [tail] at stop
    exact Or.inr ⟨rest, by simpa using stop⟩

/-- A number behind a first mention that leads its line is a number of that line. -/
theorem ownNumber_of_leads {value : UInt32} (single : newline ∉ metaKey name) (leads : Leads text name)
    (found : firstNumber text name = some value) : ∃ number, OwnNumber text name number ∧
    value = UInt32.ofNat number := by
  obtain ⟨before, after, split, first, begins, nonblank⟩ := leads
  rw [firstNumber, first, Option.bind_some, scanXint] at found
  obtain ⟨number, read, rfl⟩ := Option.map_eq_some_iff.mp found
  obtain ⟨tail, whole, stops⟩ := rest_of_line after
  have line : scanHex (after.takeWhile (· ≠ newline)) = some number := by
    obtain rfl | ⟨rest, rfl⟩ := stops
    · rwa [whole, List.append_nil] at read
    · rwa [whole, scanHex_line nonblank] at read
  refine ⟨number, ⟨after.takeWhile (· ≠ newline), ?_, line⟩, rfl⟩
  have oneLine : newline ∉ metaKey name ++ after.takeWhile (· ≠ newline) := by
    intro inside
    obtain key | rest := List.mem_append.mp inside
    · exact single key
    · have other := List.mem_takeWhile_imp rest
      simp at other
  have member := mem_splitOn oneLine begins stops
  rwa [List.append_assoc, ← whole, ← split] at member

end Lines

theorem integerFields_read {text : Bytes} {hdr : BootImgHdr} (values : OwnValues text hdr) :
    ∀ field ∈ integerFields, (firstNumber text field.1).map UInt32.toNat = some (field.2 hdr) := by
  intro field member
  simp only [integerFields, List.mem_cons, List.not_mem_nil, or_false] at member
  obtain rfl | rfl | rfl | rfl | rfl | rfl | rfl | rfl | rfl | rfl := member
  · exact congrArg (Option.map UInt32.toNat) values.headerSize
  · exact congrArg (Option.map UInt32.toNat) values.kernelAddr
  · exact congrArg (Option.map UInt32.toNat) values.ramdiskAddr
  · exact congrArg (Option.map UInt32.toNat) values.secondAddr
  · exact congrArg (Option.map UInt32.toNat) values.tagsAddr
  · exact congrArg (Option.map UInt32.toNat) values.pageSize
  · exact congrArg (Option.map UInt32.toNat) values.headerVersion
  · exact congrArg (Option.map UInt32.toNat) values.osVersion
  · exact values.recoveryDtboOffset
  · exact values.dtbAddr

theorem integerFields_single : ∀ field ∈ integerFields, newline ∉ metaKey field.1 := by
  intro field member
  simp only [integerFields, List.mem_cons, List.not_mem_nil, or_false] at member
  obtain rfl | rfl | rfl | rfl | rfl | rfl | rfl | rfl | rfl | rfl := member <;> decide

theorem attempt_bind_error {α β : Type} {first : OptionT Exec α} {next : α → OptionT Exec β} {fault : Fault} :
    (first >>= next).run = .error fault ↔
      first.run = .error fault ∨ ∃ value, first.run = .ok (some value) ∧ (next value).run = .error fault := by
  rw [OptionT.run_bind, Option.elimM]
  cases first.run with
  | error other => simp [Bind.bind, Except.bind]
  | ok found =>
    cases found with
    | none => simp [Bind.bind, Except.bind, pure, Except.pure]
    | some value => simp [Bind.bind, Except.bind]

theorem pure_ne_error {α : Type} {value : α} {fault : Fault} : ¬ (pure value : Exec α) = .error fault := by
  intro failed
  cases failed

section Runs
variable {content : Bytes} {name : String}

theorem configXint_content (nonempty : content ≠ []) (ends : 0 ∈ (Region.ofFile content).mapped) :
    (configXint (some content) name).run = .ok (firstNumber (cString content) name) := by
  rw [configXint, OptionT.run_mk, scanMetadata_content, if_neg nonempty, if_pos ends]
  rfl

theorem configString_content {offset size : Nat} (nonempty : content ≠ [])
    (ends : 0 ∈ (Region.ofFile content).mapped) (positive : 0 < size) (inside : offset < BootImgHdr.size) :
    (configString (some content) name offset size).run =
      if BootImgHdr.size < offset + (firstLine (cString content) name).length + 1 then .error .stackOverflow
      else if size ≤ (firstLine (cString content) name).length then .ok none
      else .ok (some (paddedString size (firstLine (cString content) name))) := by
  rw [configString, OptionT.run_mk, scanMetadata_content, if_neg nonempty, if_pos ends, Exec.ok_bind, firstLine_eq]
  cases (lookup (metaKey name) (cString content)).bind scanLine with
  | none =>
    rw [Option.getD_none, List.length_nil, if_neg (by omega), if_neg (by omega)]
    rfl
  | some line =>
    dsimp only [Option.getD_some]
    by_cases beyond : BootImgHdr.size < offset + line.length + 1
    · rw [if_pos beyond, if_pos beyond]
      rfl
    · rw [if_neg beyond, if_neg beyond]
      by_cases long : size ≤ line.length
      · rw [if_pos long]
        simp only [long, ↓reduceIte]
        rfl
      · rw [if_neg long]
        simp only [long, ↓reduceIte]
        rfl

theorem configString_accepts (offset size : Nat) (nonempty : content ≠ [])
    (ends : 0 ∈ (Region.ofFile content).mapped) (positive : 0 < size) (inside : offset + size ≤ BootImgHdr.size) :
    (∃ array, (configString (some content) name offset size).run = .ok (some array)) ↔
      (firstLine (cString content) name).length < size := by
  rw [configString_content nonempty ends positive (by omega)]
  constructor
  · intro ⟨array, read⟩
    split at read
    next => cases read
    next =>
      split at read
      next => cases read
      next short => omega
  · intro short
    exact ⟨_, by rw [if_neg (by omega), if_neg (by omega)]⟩

theorem configString_error (offset size : Nat) (nonempty : content ≠ []) (ends : 0 ∈ (Region.ofFile content).mapped)
    (positive : 0 < size) (inside : offset < BootImgHdr.size) :
    (∃ fault, (configString (some content) name offset size).run = .error fault) ↔
      BootImgHdr.size < offset + (firstLine (cString content) name).length + 1 := by
  rw [configString_content nonempty ends positive inside]
  constructor
  · intro ⟨fault, failed⟩
    split at failed
    next beyond => exact beyond
    next =>
      split at failed
      next => cases failed
      next => cases failed
  · intro beyond
    exact ⟨_, if_pos beyond⟩

/-- A header is accepted exactly where every string is short and every number is found. -/
theorem accepts_iff : (∃ hdr, (bxxtBootHdrFromMetadata (some content)).run = .ok (some hdr)) ↔ Accepts content := by
  constructor
  · rintro ⟨hdr, read⟩
    have reads := bxxtBootHdrFromMetadata_iff.mp read
    have nonempty := nonempty_of_read reads
    have ends : 0 ∈ (Region.ofFile content).mapped := by
      have page := reads.pageSize
      rw [configXint, OptionT.run_mk, scanMetadata_content, if_neg nonempty] at page
      by_contra missing
      rw [if_neg missing] at page
      cases page
    have values := integerFields_read (ownValues_of_read reads)
    refine ⟨nonempty, ends, ?_, ?_, ?_, ?_⟩
    · exact (configString_accepts _ _ nonempty ends (by decide) (by decide)).mp ⟨_, reads.cmdline⟩
    · exact (configString_accepts _ _ nonempty ends (by decide) (by decide)).mp ⟨_, reads.extraCmdline⟩
    · exact (configString_accepts _ _ nonempty ends (by decide) (by decide)).mp ⟨_, reads.name⟩
    · intro field member missing
      have found := values field member
      rw [missing] at found
      cases found
  · rintro ⟨nonempty, ends, cmdlineShort, extraShort, nameShort, numbers⟩
    have number (name : String) (listed : name ∈ integerFields.map Prod.fst) :
        ∃ value, (configXint (some content) name).run = .ok (some value) := by
      obtain ⟨field, member, rfl⟩ := List.mem_map.mp listed
      obtain ⟨value, found⟩ := Option.ne_none_iff_exists'.mp (numbers _ member)
      exact ⟨value, by rw [configXint_content nonempty ends, found]⟩
    have string {name : String} (offset : Nat) {size : Nat} (positive : 0 < size)
      (inside : offset + size ≤ BootImgHdr.size)
        (short : (firstLine (cString content) name).length < size) :=
      (configString_accepts offset size nonempty ends positive inside).mpr short
    obtain ⟨cmdline, cmdlineRead⟩ := string BootImgHdr.cmdlineOffset (by decide) (by decide) cmdlineShort
    obtain ⟨extraCmdline, extraRead⟩ := string BootImgHdr.extraCmdlineOffset (by decide) (by decide) extraShort
    obtain ⟨name, nameRead⟩ := string BootImgHdr.nameOffset (by decide) (by decide) nameShort
    obtain ⟨headerSize, headerSizeRead⟩ := number "header_size" (by decide)
    obtain ⟨kernelAddr, kernelAddrRead⟩ := number "kernel_addr" (by decide)
    obtain ⟨ramdiskAddr, ramdiskAddrRead⟩ := number "ramdisk_addr" (by decide)
    obtain ⟨secondAddr, secondAddrRead⟩ := number "second_addr" (by decide)
    obtain ⟨tagsAddr, tagsAddrRead⟩ := number "tags_addr" (by decide)
    obtain ⟨pageSize, pageSizeRead⟩ := number "page_size" (by decide)
    obtain ⟨headerVersion, headerVersionRead⟩ := number "header_version" (by decide)
    obtain ⟨osVersion, osVersionRead⟩ := number "os_version" (by decide)
    obtain ⟨recoveryDtboOffset, offsetRead⟩ := number "recovery_dtbo_offset" (by decide)
    obtain ⟨dtbAddr, dtbAddrRead⟩ := number "dtb_addr" (by decide)
    simp only [bxxtBootHdrFromMetadata, attempt_bind]
    exact ⟨_, cmdline, cmdlineRead, extraCmdline, extraRead, name, nameRead, headerSize, headerSizeRead, kernelAddr,
      kernelAddrRead, ramdiskAddr, ramdiskAddrRead, secondAddr, secondAddrRead, tagsAddr, tagsAddrRead, pageSize,
      pageSizeRead, headerVersion, headerVersionRead, headerSize, headerSizeRead, osVersion, osVersionRead,
      recoveryDtboOffset, offsetRead, dtbAddr, dtbAddrRead, rfl⟩

/-- Reading goes wrong exactly where the text has no end or a line leaves the header. -/
theorem overruns_iff :
    (∃ fault, (bxxtBootHdrFromMetadata (some content)).run = .error fault) ↔ Overruns content := by
  constructor
  · rintro ⟨fault, failed⟩
    have nonempty : content ≠ [] := by
      rintro rfl
      cases failed
    refine ⟨nonempty, ?_⟩
    by_cases ends : 0 ∈ (Region.ofFile content).mapped
    · have short {name : String} {offset size : Nat} {array : Vector UInt8 size} (positive : 0 < size)
          (inside : offset + size ≤ BootImgHdr.size)
          (read : (configString (some content) name offset size).run = .ok (some array)) :=
        (configString_accepts _ _ nonempty ends positive inside).mp ⟨_, read⟩
      have beyond {name : String} {offset size : Nat} (positive : 0 < size) (inside : offset < BootImgHdr.size)
          (failed : (configString (some content) name offset size).run = .error fault) :=
        (configString_error _ _ nonempty ends positive inside).mp ⟨_, failed⟩
      refine Or.inr ?_
      simp only [bxxtBootHdrFromMetadata, attempt_bind_error] at failed
      obtain cmdline | ⟨_, cmdline, extra | ⟨_, extra, name | ⟨_, _, numbers⟩⟩⟩ := failed
      · exact Or.inl (beyond (by decide) (by decide) cmdline)
      · exact Or.inr ⟨short (by decide) (by decide) cmdline, Or.inl (beyond (by decide) (by decide) extra)⟩
      · exact Or.inr ⟨short (by decide) (by decide) cmdline, Or.inr ⟨short (by decide) (by decide) extra,
          beyond (by decide) (by decide) name⟩⟩
      · -- the scans of numbers do not store outside of their fields
        simp [configXint_content nonempty ends, pure_ne_error] at numbers
    · exact Or.inl ends
  · rintro ⟨nonempty, beyond⟩
    by_cases ends : 0 ∈ (Region.ofFile content).mapped
    · have string {name : String} (offset : Nat) {size : Nat} (positive : 0 < size)
          (inside : offset + size ≤ BootImgHdr.size) (short : (firstLine (cString content) name).length < size) :=
        (configString_accepts offset size nonempty ends positive inside).mpr short
      have failed {name : String} (offset size : Nat) (positive : 0 < size) (inside : offset < BootImgHdr.size)
          (beyond : BootImgHdr.size < offset + (firstLine (cString content) name).length + 1) :=
        (configString_error offset size nonempty ends positive inside).mpr beyond
      simp only [bxxtBootHdrFromMetadata, attempt_bind_error]
      obtain missing | cmdline | ⟨cmdline, extra | ⟨extra, name⟩⟩ := beyond
      · exact absurd ends missing
      · obtain ⟨fault, failed⟩ := failed BootImgHdr.cmdlineOffset bootArgsSize (by decide) (by decide) cmdline
        exact ⟨fault, Or.inl failed⟩
      · obtain ⟨array, cmdline⟩ := string BootImgHdr.cmdlineOffset (by decide) (by decide) cmdline
        obtain ⟨fault, failed⟩ := failed BootImgHdr.extraCmdlineOffset bootExtraArgsSize (by decide)
          (by decide) extra
        exact ⟨fault, Or.inr ⟨array, cmdline, Or.inl failed⟩⟩
      · obtain ⟨array, cmdline⟩ := string BootImgHdr.cmdlineOffset (by decide) (by decide) cmdline
        obtain ⟨extraArray, extra⟩ := string BootImgHdr.extraCmdlineOffset (by decide) (by decide) extra
        obtain ⟨fault, failed⟩ := failed BootImgHdr.nameOffset bootNameSize (by decide) (by decide) name
        exact ⟨fault, Or.inr ⟨array, cmdline, Or.inr ⟨extraArray, extra, Or.inl failed⟩⟩⟩
    · refine ⟨.outOfBounds, attempt_bind_error.mpr (Or.inl ?_)⟩
      rw [configString, OptionT.run_mk, scanMetadata_content, if_neg nonempty, if_neg ends]
      rfl

end Runs

/-- A first mention that leads its line agrees with it. -/
theorem coincides_of_leads {content : Bytes} (accepts : Accepts content) {field : String × (BootImgHdr → Nat)}
    (member : field ∈ integerFields) (leads : Leads (cString content) field.1) :
    Coincides (cString content) field.1 := by
  obtain ⟨value, found⟩ := Option.ne_none_iff_exists'.mp (accepts.numbers field member)
  obtain ⟨number, own, rfl⟩ := ownNumber_of_leads (integerFields_single field member) leads found
  exact ⟨number, own, fun _ => found⟩

/-- Numbers from lines of their own agree with what the first mentions say, wherever these stand. -/
theorem coincides_of_own {content : Bytes} (own : FieldsFromOwnLines content) (accepts : Accepts content)
    {field : String × (BootImgHdr → Nat)} (member : field ∈ integerFields) :
    Coincides (cString content) field.1 := by
  obtain ⟨hdr, read⟩ := accepts_iff.mpr accepts
  obtain ⟨number, own, same⟩ := own.accepted hdr read field member
  have value := integerFields_read (ownValues_of_read (bxxtBootHdrFromMetadata_iff.mp read)) field member
  obtain ⟨stored, found, exact⟩ := Option.map_eq_some_iff.mp value
  refine ⟨number, own, fun small => ?_⟩
  rw [found, ← same small, ← exact, UInt32.ofNat_toNat]

theorem own_of_coincides {content : Bytes}
    (coincides : Accepts content → ∀ field ∈ integerFields, Coincides (cString content) field.1)
    (lines : Overruns content → ∀ field ∈ integerFields, ∃ number, OwnNumber (cString content) field.1 number) :
    FieldsFromOwnLines content := by
  constructor
  · intro hdr read field member
    have value := integerFields_read (ownValues_of_read (bxxtBootHdrFromMetadata_iff.mp read)) field member
    obtain ⟨number, own, same⟩ := coincides (accepts_iff.mp ⟨hdr, read⟩) field member
    refine ⟨number, own, fun small => ?_⟩
    rw [same small, Option.map_some, UInt32.toNat_ofNat', Nat.mod_eq_of_lt small] at value
    exact (Option.some.inj value).symm
  · intro ⟨field, member, missing⟩
    cases run : (bxxtBootHdrFromMetadata (some content)).run with
    | error fault =>
      obtain ⟨number, own⟩ := lines (overruns_iff.mp ⟨fault, run⟩) field member
      exact absurd own (missing number)
    | ok found =>
      cases found with
      | none => rfl
      | some hdr =>
        obtain ⟨number, own, _⟩ := coincides (accepts_iff.mp ⟨hdr, run⟩) field member
        exact absurd own (missing number)

/-- Numbers come from lines of their own exactly where, in a text that is accepted, every first mention
leads its line or agrees with one that does, and a text that overruns has all the lines. -/
theorem fields_from_own_lines_iff {content : Bytes} : FieldsFromOwnLines content ↔
    (Accepts content → ∀ field ∈ integerFields, Leads (cString content) field.1 ∨
      Coincides (cString content) field.1) ∧
      (Overruns content → ∀ field ∈ integerFields, ∃ number, OwnNumber (cString content) field.1 number) := by
  constructor
  · intro sound
    refine ⟨fun accepts field member => Or.inr (coincides_of_own sound accepts member),
      fun overruns field member => ?_⟩
    by_contra missing
    obtain ⟨fault, failed⟩ := overruns_iff.mpr overruns
    have refused := sound.refused ⟨field, member, fun number own => missing ⟨number, own⟩⟩
    rw [failed] at refused
    cases refused
  · intro ⟨leads, lines⟩
    refine own_of_coincides (fun accepts field member => ?_) lines
    obtain leads | coincides := leads accepts field member
    · exact coincides_of_leads accepts member leads
    · exact coincides

/-- A METADATA whose page size was deleted, with the line left behind. -/
def blankPageSize : Bytes :=
  render ([("kernel_addr", "8000"), ("ramdisk_addr", "1000000"), ("second_addr", "f00000"), ("tags_addr", "100"),
    ("dtb_addr", "0"), ("recovery_dtbo_offset", "0"), ("header_version", "0"), ("os_version", "14000144"),
    ("page_size", ""),
    ("header_size", "0")].map fun line => (metaKey line.1, ascii line.2))

/-- The `b` that the next line begins with is read as the page size. -/
theorem blank_page_size_accepted : ¬ FieldsFromOwnLines blankPageSize := by
  have text : cString blankPageSize = blankPageSize := by decide +kernel
  intro sound
  have accepts : Accepts blankPageSize := by
    refine ⟨by decide +kernel, by decide +kernel, by decide +kernel, by decide +kernel, by decide +kernel, ?_⟩
    have every : ∀ name ∈ integerFields.map Prod.fst, firstNumber (cString blankPageSize) name ≠ none := by
      decide +kernel
    exact fun field member => every field.1 (List.mem_map_of_mem member)
  obtain ⟨hdr, read⟩ := accepts_iff.mpr accepts
  obtain ⟨number, ⟨rest, line, scanned⟩, _⟩ :=
    sound.accepted hdr read ("page_size", fun hdr => hdr.pageSize.toNat) (by simp [integerFields])
  have blank : ∀ line ∈ blankPageSize.splitOn newline, metaKey "page_size" <+: line →
      scanHex (line.drop (metaKey "page_size").length) = none := by
    decide +kernel
  rw [text] at line
  have missing := blank _ line (List.prefix_append _ _)
  rw [List.drop_left, scanned] at missing
  cases missing

end Bxxt.Proofs
