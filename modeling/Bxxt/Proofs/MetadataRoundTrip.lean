import Bxxt.Metadata
import Mathlib.Data.List.TakeWhile
import Mathlib.Tactic.Linarith

/-! Printing a header to METADATA and reading it back. The search for a key sees
the strings printed above its line, so the header survives exactly when no such
string is taken for a later line, or the one that is happens to say the same. -/

namespace Bxxt.Proofs
open ByteLayout KeyedLines TextScan

def nameString (hdr : BootImgHdr) : Bytes := cString hdr.name.toList
def cmdlineString (hdr : BootImgHdr) : Bytes := cString hdr.cmdline.toList
def extraCmdlineString (hdr : BootImgHdr) : Bytes := cString hdr.extraCmdline.toList

/-- A string that ends inside its array and stays on one line, as every string has to that METADATA
is to give back. -/
structure PlainString {size : Nat} (array : Vector UInt8 size) : Prop where
  ends : 0 ∈ array.toList
  line : newline ∉ cString array.toList

structure PlainStrings (hdr : BootImgHdr) : Prop where
  name : PlainString hdr.name
  cmdline : PlainString hdr.cmdline
  extraCmdline : PlainString hdr.extraCmdline

/-- The number a `%x` takes from the rest of a line. From a blank rest it goes on
to the `b` of the `bxxt.` that begins the next line. -/
def lineNumber (rest : Bytes) : Option UInt32 := if rest.all isSpace then some 0xb else scanXint rest

/-- For every line below the strings: if one of the strings above holds the key of the line, it says
there what the line says. -/
structure Unshadowed (hdr : BootImgHdr) : Prop where
  cmdline : ∀ rest, shadow (metaKey "cmdline") [nameString hdr] = some rest → rest = cmdlineString hdr
  extraCmdline : ∀ rest, shadow (metaKey "extra_cmdline") [nameString hdr, cmdlineString hdr] = some rest →
    rest = extraCmdlineString hdr
  headerVersion : ∀ rest,
    shadow (metaKey "header_version") [nameString hdr, cmdlineString hdr, extraCmdlineString hdr] = some rest →
      lineNumber rest = some hdr.headerVersion
  osVersion : ∀ rest,
    shadow (metaKey "os_version") [nameString hdr, cmdlineString hdr, extraCmdlineString hdr] = some rest →
      lineNumber rest = some hdr.osVersion
  headerSize : ∀ rest,
    shadow (metaKey "header_size") [nameString hdr, cmdlineString hdr, extraCmdlineString hdr] = some rest →
      lineNumber rest = some hdr.headerSize
  pageSize : ∀ rest,
    shadow (metaKey "page_size") [nameString hdr, cmdlineString hdr, extraCmdlineString hdr] = some rest →
      lineNumber rest = some hdr.pageSize

/-- The strings and the 32-bit fields of a header, as another one has them again. -/
structure Restored (original read : BootImgHdr) : Prop where
  name : nameString read = nameString original
  cmdline : cmdlineString read = cmdlineString original
  extraCmdline : extraCmdlineString read = extraCmdlineString original
  kernelAddr : read.kernelAddr = original.kernelAddr
  ramdiskAddr : read.ramdiskAddr = original.ramdiskAddr
  secondAddr : read.secondAddr = original.secondAddr
  tagsAddr : read.tagsAddr = original.tagsAddr
  headerVersion : read.headerVersion = original.headerVersion
  osVersion : read.osVersion = original.osVersion
  headerSize : read.headerSize = original.headerSize
  pageSize : read.pageSize = original.pageSize

def RoundTrips (hdr : BootImgHdr) (text : Bytes) : Prop :=
  ∃ read, (bxxtBootHdrFromMetadata (some text)).run = .ok (some read) ∧ Restored hdr read

theorem cString_append {memory rest : Bytes} (ends : 0 ∈ memory) : cString (memory ++ rest) = cString memory := by
  induction memory with
  | nil => simp at ends
  | cons byte memory ih =>
    by_cases zero : byte = 0
    · simp [cString, zero]
    · have later : 0 ∈ memory := by simpa [Ne.symm zero] using ends
      have step := ih later
      simp only [cString, List.cons_append, List.takeWhile_cons] at step ⊢
      rw [step]

theorem not_mem_cString (memory : Bytes) : 0 ∉ cString memory := by
  intro member
  simpa using List.mem_takeWhile_imp member

theorem length_cString_lt {memory : Bytes} (ends : 0 ∈ memory) : (cString memory).length < memory.length := by
  induction memory with
  | nil => simp at ends
  | cons byte memory ih =>
    by_cases zero : byte = 0
    · simp [cString, zero]
    · have later : 0 ∈ memory := by simpa [Ne.symm zero] using ends
      have step := ih later
      simp only [cString, List.takeWhile_cons, List.length_cons] at step ⊢
      simp [zero]
      simpa using step

theorem PlainString.short {size : Nat} {array : Vector UInt8 size} (plain : PlainString array) :
    (cString array.toList).length < size := by
  simpa using length_cString_lt plain.ends

private theorem hdrString_eq {size : Nat} {hdr : BootImgHdr} {array : Vector UInt8 size} {offset : Nat} {rest : Bytes}
    (place : hdr.bytes.drop offset = array.toList ++ rest) (inside : offset ≤ hdr.bytes.length)
    (ends : 0 ∈ array.toList) :
    hdrString hdr offset = cString array.toList := by
  rw [hdrString, List.drop_append_of_le_length inside, place, List.append_assoc, cString_append ends]

theorem hdrString_name {hdr : BootImgHdr} (plain : PlainStrings hdr) :
    hdrString hdr BootImgHdr.nameOffset = nameString hdr := by
  obtain ⟨rest, place⟩ := hdr.drop_name
  exact hdrString_eq place (by simp [BootImgHdr.nameOffset, BootImgHdr.size]) plain.name.ends

theorem hdrString_cmdline {hdr : BootImgHdr} (plain : PlainStrings hdr) :
    hdrString hdr BootImgHdr.cmdlineOffset = cmdlineString hdr := by
  obtain ⟨rest, place⟩ := hdr.drop_cmdline
  exact hdrString_eq place (by simp [BootImgHdr.cmdlineOffset, BootImgHdr.size]) plain.cmdline.ends

theorem hdrString_extraCmdline {hdr : BootImgHdr} (plain : PlainStrings hdr) :
    hdrString hdr BootImgHdr.extraCmdlineOffset = extraCmdlineString hdr := by
  obtain ⟨rest, place⟩ := hdr.drop_extraCmdline
  exact hdrString_eq place (by simp [BootImgHdr.extraCmdlineOffset, BootImgHdr.size]) plain.extraCmdline.ends

theorem cString_line {line : Bytes} (noNul : 0 ∉ line) (rest : Bytes) : cString (line ++ 0 :: rest) = line := by
  rw [cString, List.takeWhile_append_of_pos]
  · simp
  · intro byte member
    have other : byte ≠ 0 := by
      intro same
      exact noNul (same ▸ member)
    simpa using other

theorem paddedString_toList {size : Nat} {line : Bytes} (fits : line.length < size) :
    (paddedString size line).toList = line ++ 0 :: List.replicate (size - line.length - 1) 0 := by
  have shape : (paddedString size line).toList = line ++ List.replicate (size - line.length) 0 := by
    apply List.ext_getElem
    · simp; omega
    · intro index first last
      simp only [paddedString, Vector.toList_ofFn, List.getElem_ofFn, List.getElem_append]
      split
      next inside => simp [inside]
      next outside =>
        have missing : (line)[index]? = none := List.getElem?_eq_none (Nat.le_of_not_lt outside)
        simp [missing]
  have stops : List.replicate (size - line.length) (0 : UInt8) = 0 :: List.replicate (size - line.length - 1) 0 := by
    rw [← List.replicate_succ]
    congr 1
    omega
  rw [shape, stops]

/-- An array that held a string holds it again after it was written and padded. -/
theorem cString_paddedString {size : Nat} {line : Bytes} (fits : line.length < size) (noNul : 0 ∉ line) :
    cString (paddedString size line).toList = line := by
  rw [paddedString_toList fits, cString_line noNul]

theorem plainString_paddedString {size : Nat} {line : Bytes} (fits : line.length < size) (noNul : 0 ∉ line)
    (single : newline ∉ line) : PlainString (paddedString size line) where
  ends := by
    rw [paddedString_toList fits]
    simp
  line := by rwa [cString_paddedString fits noNul]

section Scan
variable {text : Bytes}

/-- A short text without NUL is the string that a mapped file with it holds. -/
theorem cText_ofFile (noNul : 0 ∉ text) (nonempty : 0 < text.length) (short : text.length < Region.systemPage) :
    (Region.ofFile text).cText = .ok text := by
  obtain ⟨slack, tail⟩ : ∃ slack, PagedBytes.padding Region.systemPage text.length = slack + 1 := by
    refine ⟨Region.systemPage - text.length - 1, ?_⟩
    rw [PagedBytes.padding, Nat.mod_eq_of_lt short, Nat.mod_eq_of_lt (by omega)]
    omega
  have mapped : (Region.ofFile text).mapped = text ++ 0 :: List.replicate slack 0 := by
    rw [Region.ofFile, Region.mapped, tail, List.replicate_succ]
  rw [Region.cText, mapped, if_pos (by simp), cString_line noNul]

theorem scanMetadata_text {α : Type} (noNul : 0 ∉ text) (nonempty : 0 < text.length)
    (short : text.length < Region.systemPage) (key : Bytes) (conversion : Bytes → Option α) :
    bxxtBootScanMetadata (some text) key conversion = .ok ((lookup key text).bind conversion) := by
  have opened : bxxtFileOpenMm (some text) = some (Region.ofFile text) := by
    rw [bxxtFileOpenMm, if_neg (List.ne_nil_of_length_pos nonempty)]
  simp only [bxxtBootScanMetadata, opened, cText_ofFile noNul nonempty short]
  rfl

end Scan

theorem lookup_hexText {key : Bytes} (scanned : key ∈ scannedKeys) (value : Nat) :
    lookup key (hexText value) = none := by
  have equals : ∀ key ∈ scannedKeys, (61 : UInt8) ∈ key := by decide
  exact lookup_none_of_not_mem (equals key scanned) (not_mem_hexText (by decide))

section Printed
variable {b : Boot} {kernelCompression : KernelCompression}

theorem metaText_noNul : 0 ∉ render (metaEntries b kernelCompression) := by
  have keys : ∀ key ∈ printedKeys, (0 : UInt8) ∉ key := by decide
  have numbers (value : Nat) : 0 ∉ hexText value := not_mem_hexText (by decide)
  have values : ∀ value ∈ (metaEntries b kernelCompression).map Prod.snd, (0 : UInt8) ∉ value := by
    simp [metaEntries, numbers, hdrString, not_mem_cString]
  intro member
  obtain ⟨entry, inside, here⟩ := List.mem_flatMap.mp member
  simp only [List.mem_append, List.mem_singleton] at here
  rcases here with (key | value) | line
  · exact keys entry.1 (List.mem_map_of_mem inside) key
  · exact values entry.2 (List.mem_map_of_mem inside) value
  · cases line

theorem length_render (lines : List (Bytes × Bytes)) :
    (render lines).length =
      ((lines.map Prod.fst).map List.length).sum + ((lines.map Prod.snd).map List.length).sum + lines.length := by
  induction lines with
  | nil => rfl
  | cons line lines ih =>
    simp only [render, List.flatMap_cons, List.length_append, List.map_cons, List.sum_cons, List.length_cons,
      List.length_nil] at ih ⊢
    omega

/-- With its strings inside their arrays a header prints to less than a page. -/
theorem metaText_short (plain : PlainStrings b.hdr) :
    (render (metaEntries b kernelCompression)).length < Region.systemPage := by
  have keys : (printedKeys.map List.length).sum = 331 := by decide
  have number {value : Nat} (fits : value < 2 ^ 64) : (hexText value).length ≤ 16 := length_hexText (by omega) fits
  have word (value : UInt32) : (hexText value.toNat).length ≤ 16 := number (by have := value.toNat_lt; omega)
  have long (value : UInt64) : (hexText value.toNat).length ≤ 16 := number value.toNat_lt
  have name : (cString b.hdr.name.toList).length < 16 := plain.name.short
  have cmdline : (cString b.hdr.cmdline.toList).length < 512 := plain.cmdline.short
  have extra : (cString b.hdr.extraCmdline.toList).length < 1024 := plain.extraCmdline.short
  rw [length_render, printedKeys_eq, keys]
  simp only [metaEntries, List.map_cons, List.map_nil, List.sum_cons, List.sum_nil, List.length_cons, List.length_nil,
    hdrString_name plain, hdrString_cmdline plain, hdrString_extraCmdline plain, nameString, cmdlineString,
    extraCmdlineString, Region.systemPage]
  linarith only [name, cmdline, extra, word b.hdr.kernelAddr, word b.hdr.ramdiskAddr, word b.hdr.secondAddr,
    word b.hdr.tagsAddr, long b.hdr.dtbAddr, long b.hdr.recoveryDtboOffset, word kernelCompression.code,
    word b.hdr.headerVersion, word b.hdr.osVersion, word b.hdr.headerSize, word b.hdr.pageSize, word b.kernelSize,
    word b.ramdiskSize, word b.secondSize, word b.recoveryDtboSize, word b.dtbSize]

private theorem printed_starts : ∀ key ∈ printedKeys, ∃ rest, key = 98 :: 120 :: rest := by
  intro key member
  have starts : ∀ key ∈ printedKeys, key.take 2 = [98, 120] := by decide
  refine ⟨key.drop 2, ?_⟩
  rw [← List.singleton_append (l := _ :: _), ← List.take_append_drop 2 key, starts key member]
  rfl

private theorem lookup_metaText {key value : Bytes} {index : Nat} (scanned : key ∈ scannedKeys)
    (line : (metaEntries b kernelCompression)[index]? = some (key, value)) (fresh : key ∉ printedKeys.take index) :
    match shadow key (((metaEntries b kernelCompression).take index).map Prod.snd) with
    | some after => ∃ behind, lookup key (render (metaEntries b kernelCompression)) =
        some (after ++ newline :: 98 :: 120 :: behind)
    | none => ∃ behind, lookup key (render (metaEntries b kernelCompression)) =
        some (value ++ newline :: behind) := by
  have inside : index < (metaEntries b kernelCompression).length := (List.getElem?_eq_some_iff.mp line).1
  have here : (metaEntries b kernelCompression)[index] = (key, value) := (List.getElem?_eq_some_iff.mp line).2
  have split : metaEntries b kernelCompression =
      (metaEntries b kernelCompression).take index ++ (key, value) ::
        (metaEntries b kernelCompression).drop (index + 1) := by
    rw [← here, ← List.drop_eq_getElem_cons inside, List.take_append_drop]
  have above : ∀ entry ∈ (metaEntries b kernelCompression).take index, key ≠ entry.1 := by
    intro entry member same
    apply fresh
    rw [← printedKeys_eq b kernelCompression, ← List.map_take, same]
    exact List.mem_map_of_mem member
  have search := @lookup_render _ (metaEntries b kernelCompression) (scannedKeys_searchable key scanned)
  have found := mention_append ((key, value) :: (metaEntries b kernelCompression).drop (index + 1)) above
  rw [← split] at found
  cases hidden : shadow key (((metaEntries b kernelCompression).take index).map Prod.snd) with
  | some after =>
    rw [hidden] at found
    obtain ⟨lines, suffix, mentioned⟩ := found
    -- the next line begins with a printed key, whichever line it is
    obtain ⟨own, rest, member, next⟩ : ∃ own rest, own ∈ printedKeys ∧
        render (lines ++ (key, value) :: (metaEntries b kernelCompression).drop (index + 1)) = own ++ rest := by
      rw [← printedKeys_eq b kernelCompression]
      cases lines with
      | nil => exact ⟨key, _, List.mem_map_of_mem (List.mem_of_getElem? line), render_cons ..⟩
      | cons entry lines =>
        have member : entry ∈ metaEntries b kernelCompression :=
          List.mem_of_mem_take (suffix.subset (List.mem_cons_self ..))
        exact ⟨entry.1, _, List.mem_map_of_mem member, render_cons ..⟩
    obtain ⟨letters, rfl⟩ := printed_starts own member
    exact ⟨letters ++ rest, by rw [search, mentioned, next]; rfl⟩
  | none =>
    rw [hidden] at found
    dsimp only at found
    rw [mention, if_pos rfl] at found
    exact ⟨_, search.trans found⟩

theorem scanXint_line {rest : Bytes} (behind : Bytes) :
    scanXint (rest ++ newline :: 98 :: 120 :: behind) = lineNumber rest := by
  unfold lineNumber
  split
  next blank => rw [scanXint, scanHex_blank blank]; rfl
  next nonblank => rw [scanXint, scanHex_line nonblank]; rfl

/-- A number is read back unless a string above its line hides it. -/
theorem scan_number {name : String} {value index : Nat} (scanned : metaKey name ∈ scannedKeys)
    (line : (metaEntries b kernelCompression)[index]? = some (metaKey name, hexText value))
    (fresh : metaKey name ∉ printedKeys.take index) (fits : value < 2 ^ 64) :
    (lookup (metaKey name) (render (metaEntries b kernelCompression))).bind scanXint =
      (shadow (metaKey name) (((metaEntries b kernelCompression).take index).map Prod.snd)).elim
        (some (UInt32.ofNat value)) lineNumber := by
  have found := lookup_metaText scanned line fresh
  split at found
  next after hidden =>
    obtain ⟨behind, found⟩ := found
    rw [hidden, found]
    exact scanXint_line behind
  next clear =>
    obtain ⟨behind, found⟩ := found
    rw [clear, found]
    simp only [Option.elim_none, Option.bind_some, scanXint, scanHex_hexText fits, Option.map_some]

theorem scan_string {name : String} {value : Bytes} {index : Nat} (scanned : metaKey name ∈ scannedKeys)
    (line : (metaEntries b kernelCompression)[index]? = some (metaKey name, value))
    (fresh : metaKey name ∉ printedKeys.take index) (single : newline ∉ value)
    (others : ∀ other ∈ ((metaEntries b kernelCompression).take index).map Prod.snd, newline ∉ other) :
    (lookup (metaKey name) (render (metaEntries b kernelCompression))).bind scanLine =
      match (shadow (metaKey name) (((metaEntries b kernelCompression).take index).map Prod.snd)).getD value with
      | [] => none
      | found => some found := by
  have found := lookup_metaText scanned line fresh
  split at found
  next after hidden =>
    obtain ⟨behind, found⟩ := found
    have inside : newline ∉ after := by
      obtain ⟨other, member, here⟩ := List.exists_of_findSome?_eq_some hidden
      obtain ⟨before, rfl⟩ := split_of_lookup here
      intro present
      exact others _ member (by simp [present])
    rw [hidden, found, Option.bind_some, scanLine_line inside]
    cases after <;> rfl
  next clear =>
    obtain ⟨behind, found⟩ := found
    rw [clear, found, Option.bind_some, scanLine_line single]
    cases value <;> rfl

/-- Above the strings there are only numbers, and no number is taken for a key. -/
theorem shadow_above {key : Bytes} {index : Nat} (scanned : key ∈ scannedKeys) (early : index ≤ 6) :
    shadow key (((metaEntries b kernelCompression).take index).map Prod.snd) = none := by
  have absent : ∀ value ∈ ((metaEntries b kernelCompression).take 6).map Prod.snd, lookup key value = none := by
    simp [metaEntries, lookup_hexText scanned]
  apply List.findSome?_eq_none_iff.mpr
  intro value member
  exact absent value (List.map_subset _ (List.take_subset_take_left _ early) member)

private theorem shadow_strings {key : Bytes} (plain : PlainStrings b.hdr) (scanned : key ∈ scannedKeys) :
    shadow key (((metaEntries b kernelCompression).take 7).map Prod.snd) = shadow key [nameString b.hdr] ∧
      shadow key (((metaEntries b kernelCompression).take 8).map Prod.snd) =
        shadow key [nameString b.hdr, cmdlineString b.hdr] ∧
      shadow key (((metaEntries b kernelCompression).take 9).map Prod.snd) =
        shadow key [nameString b.hdr, cmdlineString b.hdr, extraCmdlineString b.hdr] := by
  simp [shadow, metaEntries, lookup_hexText scanned, List.findSome?_cons, hdrString_name plain, hdrString_cmdline plain,
    hdrString_extraCmdline plain]

theorem shadow_below {key : Bytes} {index : Nat} (plain : PlainStrings b.hdr) (scanned : key ∈ scannedKeys)
    (late : 9 ≤ index) :
    shadow key (((metaEntries b kernelCompression).take index).map Prod.snd) =
      shadow key [nameString b.hdr, cmdlineString b.hdr, extraCmdlineString b.hdr] := by
  have strings := (@shadow_strings _ kernelCompression _ plain scanned).2.2
  have numbers : ∀ value ∈ ((metaEntries b kernelCompression).drop 9).map Prod.snd, lookup key value = none := by
    simp [metaEntries, lookup_hexText scanned]
  have rest : shadow key ((((metaEntries b kernelCompression).drop 9).take (index - 9)).map Prod.snd) = none := by
    apply List.findSome?_eq_none_iff.mpr
    intro value member
    exact numbers value (List.map_subset _ (List.take_subset _ _) member)
  have split : (metaEntries b kernelCompression).take index =
      (metaEntries b kernelCompression).take 9 ++ ((metaEntries b kernelCompression).drop 9).take (index - 9) := by
    rw [← List.take_add, Nat.add_sub_cancel' late]
  rw [split, List.map_append, shadow, List.findSome?_append]
  rw [shadow] at rest strings
  rw [rest, strings, Option.or_none]

variable {text : Bytes}

theorem printed_text (printed : bxxtBootPrintMetaInfoFile b = .ok text) :
    ∃ kernelCompression, bxxtBootDetectKernelCompression b = .ok kernelCompression ∧
      text = render (metaEntries b kernelCompression) := by
  obtain ⟨kernelCompression, detected, rendered⟩ := Exec.bind_eq_ok.mp printed
  cases rendered
  exact ⟨kernelCompression, detected, rfl⟩

/-- The mapped METADATA file is searched as the text that was printed. -/
theorem scanMetadata_printed {α : Type} (plain : PlainStrings b.hdr) (key : Bytes) (conversion : Bytes → Option α) :
    bxxtBootScanMetadata (some (render (metaEntries b kernelCompression))) key conversion =
      .ok ((lookup key (render (metaEntries b kernelCompression))).bind conversion) := by
  refine scanMetadata_text metaText_noNul ?_ (metaText_short plain) key conversion
  rw [metaEntries, render_cons]
  simp [metaKey, ascii]

theorem configXint_address {name : String} {value index : Nat} (plain : PlainStrings b.hdr)
    (scanned : metaKey name ∈ scannedKeys)
    (line : (metaEntries b kernelCompression)[index]? = some (metaKey name, hexText value))
    (fresh : metaKey name ∉ printedKeys.take index) (early : index ≤ 6) (fits : value < 2 ^ 64) :
    (configXint (some (render (metaEntries b kernelCompression))) name).run = .ok (some (UInt32.ofNat value)) := by
  have search := scan_number scanned line fresh fits
  rw [shadow_above scanned early, Option.elim_none] at search
  refine (scanMetadata_printed plain _ _).trans ?_
  rw [search]

theorem configXint_field {name : String} {value index : Nat} (plain : PlainStrings b.hdr)
    (scanned : metaKey name ∈ scannedKeys)
    (line : (metaEntries b kernelCompression)[index]? = some (metaKey name, hexText value))
    (fresh : metaKey name ∉ printedKeys.take index) (late : 9 ≤ index) (fits : value < 2 ^ 64) :
    (configXint (some (render (metaEntries b kernelCompression))) name).run =
      .ok ((shadow (metaKey name) [nameString b.hdr, cmdlineString b.hdr, extraCmdlineString b.hdr]).elim
        (some (UInt32.ofNat value)) lineNumber) := by
  have search := scan_number scanned line fresh fits
  rw [shadow_below plain scanned late] at search
  refine (scanMetadata_printed plain _ _).trans ?_
  rw [search]

theorem configString_field {name : String} {value found : Bytes} {index offset size : Nat} {array : Vector UInt8 size}
    (plain : PlainStrings b.hdr) (scanned : metaKey name ∈ scannedKeys)
    (line : (metaEntries b kernelCompression)[index]? = some (metaKey name, value))
    (fresh : metaKey name ∉ printedKeys.take index) (early : index ≤ 8) (positive : 0 < size)
    (room : offset + size ≤ BootImgHdr.size)
    (hidden : (shadow (metaKey name) (((metaEntries b kernelCompression).take index).map Prod.snd)).getD value =
      found) :
    (configString (some (render (metaEntries b kernelCompression))) name offset size).run = .ok (some array) ↔
      found.length < size ∧ array = paddedString size found := by
  have number (value : Nat) : newline ∉ hexText value := not_mem_hexText (by decide)
  have lines : ∀ other ∈ ((metaEntries b kernelCompression).take 9).map Prod.snd, newline ∉ other := by
    simp [metaEntries, number, hdrString_name plain, hdrString_cmdline plain, hdrString_extraCmdline plain,
      nameString, cmdlineString, extraCmdlineString, plain.name.line, plain.cmdline.line, plain.extraCmdline.line]
  have above : ∀ other ∈ ((metaEntries b kernelCompression).take index).map Prod.snd, newline ∉ other :=
      fun other member =>
    lines other (List.map_subset _ (List.take_subset_take_left _ (by omega)) member)
  have own : newline ∉ value := by
    apply lines
    have kept : ((metaEntries b kernelCompression).take 9)[index]? = some (metaKey name, value) := by
      rw [List.getElem?_take_of_lt (by omega), line]
    exact List.mem_map_of_mem (List.mem_of_getElem? kept)
  have search := scan_string scanned line fresh own above
  have ran := @scanMetadata_printed _ kernelCompression _ plain (metaKey name) scanLine
  rw [search, hidden] at ran
  rw [configString, OptionT.run_mk, ran]
  cases found with
  | nil =>
    constructor
    · intro cleared
      cases cleared
      exact ⟨positive, rfl⟩
    · rintro ⟨_, rfl⟩
      rfl
  | cons first others =>
    simp only [bind, Except.bind]
    rcases Nat.lt_or_ge (first :: others).length size with short | long
    · rw [if_neg (by omega), if_neg (by omega)]
      constructor
      · intro stored
        cases stored
        exact ⟨short, rfl⟩
      · rintro ⟨_, rfl⟩
        rfl
    · constructor
      · intro stored
        split at stored
        next => cases stored
        next => cases stored
      · rintro ⟨short, _⟩
        omega

/-- What a header prints to and is read back as, when nothing hides its lines. -/
def restoredHdr (hdr : BootImgHdr) : BootImgHdr :=
  { BootImgHdr.zero with
    magic := bootMagic
    name := paddedString _ (nameString hdr)
    cmdline := paddedString _ (cmdlineString hdr)
    extraCmdline := paddedString _ (extraCmdlineString hdr)
    kernelAddr := hdr.kernelAddr
    ramdiskAddr := hdr.ramdiskAddr
    secondAddr := hdr.secondAddr
    tagsAddr := hdr.tagsAddr
    pageSize := hdr.pageSize
    headerVersion := hdr.headerVersion
    headerSize := hdr.headerSize
    osVersion := hdr.osVersion
    recoveryDtboOffset := (UInt32.ofNat hdr.recoveryDtboOffset.toNat).toUInt64
    dtbAddr := (UInt32.ofNat hdr.dtbAddr.toNat).toUInt64 }

private theorem configString_name {array : Vector UInt8 bootNameSize} (plain : PlainStrings b.hdr) :
    (configString (some (render (metaEntries b kernelCompression))) "name" BootImgHdr.nameOffset bootNameSize).run =
      .ok (some array) ↔ array = paddedString _ (nameString b.hdr) := by
  have line : (metaEntries b kernelCompression)[6]? = some (metaKey "name", nameString b.hdr) := by
    rw [← hdrString_name plain]
    rfl
  have above : (shadow (metaKey "name") (((metaEntries b kernelCompression).take 6).map Prod.snd)).getD
      (nameString b.hdr) = nameString b.hdr := by
    rw [shadow_above (by decide) (by decide)]
    rfl
  rw [configString_field plain (by decide) line (by decide) (by decide) (by decide) (by decide) above]
  exact and_iff_right plain.name.short

private theorem configString_cmdline {array : Vector UInt8 bootArgsSize} {found : Bytes} (plain : PlainStrings b.hdr)
    (hidden : (shadow (metaKey "cmdline") [nameString b.hdr]).getD (cmdlineString b.hdr) = found) :
    (configString (some (render (metaEntries b kernelCompression))) "cmdline" BootImgHdr.cmdlineOffset
      bootArgsSize).run =
      .ok (some array) ↔ found.length < bootArgsSize ∧ array = paddedString _ found := by
  have line : (metaEntries b kernelCompression)[7]? = some (metaKey "cmdline", cmdlineString b.hdr) := by
    rw [← hdrString_cmdline plain]
    rfl
  rw [← (@shadow_strings _ kernelCompression _ plain (by decide)).1] at hidden
  exact configString_field plain (by decide) line (by decide) (by decide) (by decide) (by decide) hidden

private theorem configString_extraCmdline {array : Vector UInt8 bootExtraArgsSize} {found : Bytes}
    (plain : PlainStrings b.hdr)
    (hidden : (shadow (metaKey "extra_cmdline") [nameString b.hdr, cmdlineString b.hdr]).getD
      (extraCmdlineString b.hdr) = found) :
    (configString (some (render (metaEntries b kernelCompression))) "extra_cmdline" BootImgHdr.extraCmdlineOffset
      bootExtraArgsSize).run = .ok (some array) ↔ found.length < bootExtraArgsSize ∧
        array = paddedString _ found := by
  have line : (metaEntries b kernelCompression)[8]? = some (metaKey "extra_cmdline", extraCmdlineString b.hdr) := by
    rw [← hdrString_extraCmdline plain]
    rfl
  rw [← (@shadow_strings _ kernelCompression _ plain (by decide)).2.1] at hidden
  exact configString_field plain (by decide) line (by decide) (by decide) (by decide) (by decide) hidden

private theorem getD_of_harmless {hidden : Option Bytes} {own : Bytes}
    (harmless : ∀ rest, hidden = some rest → rest = own) :
    hidden.getD own = own := by
  cases hidden with
  | none => rfl
  | some rest => exact harmless rest rfl

private theorem field_of_harmless {hidden : Option Bytes} {value : UInt32}
    (harmless : ∀ rest, hidden = some rest → lineNumber rest = some value) :
    hidden.elim (some (UInt32.ofNat value.toNat)) lineNumber = some value := by
  cases hidden with
  | none => simp
  | some rest => exact harmless rest rfl

theorem hdrFromMetadata_printed (plain : PlainStrings b.hdr) (clear : Unshadowed b.hdr) :
    (bxxtBootHdrFromMetadata (some (render (metaEntries b kernelCompression)))).run =
      .ok (some (restoredHdr b.hdr)) := by
  have word (value : UInt32) : value.toNat < 2 ^ 64 := by have := value.toNat_lt; omega
  have address {name : String} (index : Nat) (value : UInt32) (scanned : metaKey name ∈ scannedKeys)
      (line : (metaEntries b kernelCompression)[index]? = some (metaKey name, hexText value.toNat))
      (fresh : metaKey name ∉ printedKeys.take index) (early : index ≤ 6) :
      (configXint (some (render (metaEntries b kernelCompression))) name).run = .ok (some value) := by
    rw [configXint_address plain scanned line fresh early (word value), UInt32.ofNat_toNat]
  have field {name : String} (index : Nat) (value : UInt32) (scanned : metaKey name ∈ scannedKeys)
      (line : (metaEntries b kernelCompression)[index]? = some (metaKey name, hexText value.toNat))
      (fresh : metaKey name ∉ printedKeys.take index) (late : 9 ≤ index)
      (harmless : ∀ rest, shadow (metaKey name) [nameString b.hdr, cmdlineString b.hdr, extraCmdlineString b.hdr] =
        some rest → lineNumber rest = some value) :
      (configXint (some (render (metaEntries b kernelCompression))) name).run = .ok (some value) := by
    rw [configXint_field plain scanned line fresh late (word value), field_of_harmless harmless]
  apply bxxtBootHdrFromMetadata_iff.mpr
  exact {
    name := (configString_name plain).mpr rfl
    cmdline := (configString_cmdline plain (getD_of_harmless clear.cmdline)).mpr ⟨plain.cmdline.short, rfl⟩
    extraCmdline :=
      (configString_extraCmdline plain (getD_of_harmless clear.extraCmdline)).mpr ⟨plain.extraCmdline.short, rfl⟩
    kernelAddr := address 0 _ (by decide) rfl (by decide) (by decide)
    ramdiskAddr := address 1 _ (by decide) rfl (by decide) (by decide)
    secondAddr := address 2 _ (by decide) rfl (by decide) (by decide)
    tagsAddr := address 3 _ (by decide) rfl (by decide) (by decide)
    headerVersion := field 10 _ (by decide) rfl (by decide) (by decide) clear.headerVersion
    osVersion := field 11 _ (by decide) rfl (by decide) (by decide) clear.osVersion
    headerSize := field 12 _ (by decide) rfl (by decide) (by decide) clear.headerSize
    pageSize := field 13 _ (by decide) rfl (by decide) (by decide) clear.pageSize
    dtbAddr := ⟨_, configXint_address plain (by decide) rfl (by decide) (by decide : 4 ≤ 6)
      b.hdr.dtbAddr.toNat_lt, rfl⟩
    recoveryDtboOffset :=
      ⟨_, configXint_address plain (by decide) rfl (by decide) (by decide : 5 ≤ 6)
        b.hdr.recoveryDtboOffset.toNat_lt, rfl⟩
    magic := rfl
    kernelSize := rfl
    ramdiskSize := rfl
    secondSize := rfl
    recoveryDtboSize := rfl
    dtbSize := rfl
    id := rfl }

theorem restored_restoredHdr {hdr : BootImgHdr} (plain : PlainStrings hdr) : Restored hdr (restoredHdr hdr) where
  name := cString_paddedString plain.name.short (not_mem_cString _)
  cmdline := cString_paddedString plain.cmdline.short (not_mem_cString _)
  extraCmdline := cString_paddedString plain.extraCmdline.short (not_mem_cString _)
  kernelAddr := rfl
  ramdiskAddr := rfl
  secondAddr := rfl
  tagsAddr := rfl
  headerVersion := rfl
  osVersion := rfl
  headerSize := rfl
  pageSize := rfl

theorem roundTrips_of_unshadowed (printed : bxxtBootPrintMetaInfoFile b = .ok text) (plain : PlainStrings b.hdr)
    (clear : Unshadowed b.hdr) : RoundTrips b.hdr text := by
  obtain ⟨kernelCompression, _, rfl⟩ := printed_text printed
  exact ⟨restoredHdr b.hdr, hdrFromMetadata_printed plain clear, restored_restoredHdr plain⟩

private theorem noNul_of_shadow {key : Bytes} {values : List Bytes} {rest : Bytes}
    (clean : ∀ value ∈ values, (0 : UInt8) ∉ value) (hidden : shadow key values = some rest) : 0 ∉ rest := by
  obtain ⟨value, member, here⟩ := List.exists_of_findSome?_eq_some hidden
  obtain ⟨before, rfl⟩ := split_of_lookup here
  intro present
  exact clean _ member (by simp [present])

theorem unshadowed_of_roundTrips (printed : bxxtBootPrintMetaInfoFile b = .ok text) (plain : PlainStrings b.hdr)
    (back : RoundTrips b.hdr text) : Unshadowed b.hdr := by
  obtain ⟨kernelCompression, _, rfl⟩ := printed_text printed
  obtain ⟨read, parsed, restored⟩ := back
  have reads := bxxtBootHdrFromMetadata_iff.mp parsed
  have word (value : UInt32) : value.toNat < 2 ^ 64 := by have := value.toNat_lt; omega
  have field {name : String} (index : Nat) (value : UInt32) (scanned : metaKey name ∈ scannedKeys)
      (line : (metaEntries b kernelCompression)[index]? = some (metaKey name, hexText value.toNat))
      (fresh : metaKey name ∉ printedKeys.take index) (late : 9 ≤ index)
      (number : (configXint (some (render (metaEntries b kernelCompression))) name).run = .ok (some value))
      (rest : Bytes)
      (hidden : shadow (metaKey name) [nameString b.hdr, cmdlineString b.hdr, extraCmdlineString b.hdr] = some rest) :
      lineNumber rest = some value := by
    rw [configXint_field plain scanned line fresh late (word value), hidden] at number
    exact Except.ok.inj number
  have clean : ∀ value ∈ [nameString b.hdr, cmdlineString b.hdr], (0 : UInt8) ∉ value := by
    simp [nameString, cmdlineString, not_mem_cString]
  constructor
  case cmdline =>
    intro rest hidden
    obtain ⟨short, stored⟩ := (configString_cmdline plain (by rw [hidden, Option.getD_some])).mp reads.cmdline
    have noNul := noNul_of_shadow (fun value member => clean value (List.mem_of_mem_take (i := 1) member)) hidden
    rw [← restored.cmdline, cmdlineString, stored]
    exact (cString_paddedString short noNul).symm
  case extraCmdline =>
    intro rest hidden
    obtain ⟨short, stored⟩ := (configString_extraCmdline plain (by rw [hidden, Option.getD_some])).mp
      reads.extraCmdline
    rw [← restored.extraCmdline, extraCmdlineString, stored]
    exact (cString_paddedString short (noNul_of_shadow clean hidden)).symm
  case headerVersion =>
    exact field 10 _ (by decide) rfl (by decide) (by decide) (restored.headerVersion ▸ reads.headerVersion)
  case osVersion => exact field 11 _ (by decide) rfl (by decide) (by decide) (restored.osVersion ▸ reads.osVersion)
  case headerSize => exact field 12 _ (by decide) rfl (by decide) (by decide) (restored.headerSize ▸ reads.headerSize)
  case pageSize => exact field 13 _ (by decide) rfl (by decide) (by decide) (restored.pageSize ▸ reads.pageSize)

/-- Strings that never say `bxxt.` hide nothing. -/
theorem shadow_of_absent (key : String) {values : List Bytes}
    (clean : ∀ value ∈ values, ¬ ascii "bxxt." <:+: value) :
    shadow (metaKey key) values = none := by
  have front : ascii "bxxt." <+: metaKey key := by
    rw [metaKey, List.append_assoc]
    exact List.prefix_append ..
  apply List.findSome?_eq_none_iff.mpr
  intro value member
  exact lookup_eq_none_iff.mpr fun inside => clean value member (front.isInfix.trans inside)

structure Silent (hdr : BootImgHdr) : Prop where
  name : ¬ ascii "bxxt." <:+: nameString hdr
  cmdline : ¬ ascii "bxxt." <:+: cmdlineString hdr
  extraCmdline : ¬ ascii "bxxt." <:+: extraCmdlineString hdr

theorem Silent.unshadowed {hdr : BootImgHdr} (silent : Silent hdr) : Unshadowed hdr := by
  have clear (key : String) {values : List Bytes} (clean : ∀ value ∈ values, ¬ ascii "bxxt." <:+: value)
    (rest : Bytes) :
      shadow (metaKey key) values ≠ some rest := by
    rw [shadow_of_absent key clean]
    simp
  constructor
  all_goals
    intro rest hidden
    exact absurd hidden (clear _ (by simp [silent.name, silent.cmdline, silent.extraCmdline]) rest)

/-- The line with the kernel's compression is not hidden, or by the same number. -/
def CompressionUnshadowed (hdr : BootImgHdr) (kernelCompression : KernelCompression) : Prop :=
  ∀ rest, shadow (metaKey "kernel_compression")
    [nameString hdr, cmdlineString hdr, extraCmdlineString hdr] = some rest →
    lineNumber rest = some kernelCompression.code

theorem Silent.compressionUnshadowed {hdr : BootImgHdr} (silent : Silent hdr) (kernelCompression : KernelCompression) :
    CompressionUnshadowed hdr kernelCompression := by
  intro rest hidden
  rw [shadow_of_absent _ (by simp [silent.name, silent.cmdline, silent.extraCmdline])] at hidden
  cases hidden

theorem scanMetadata_kernelCompression (plain : PlainStrings b.hdr)
    (clear : CompressionUnshadowed b.hdr kernelCompression) :
    bxxtBootScanMetadata (some (render (metaEntries b kernelCompression))) (metaKey "kernel_compression") scanXint =
      .ok (some kernelCompression.code) := by
  have fits : kernelCompression.code.toNat < 2 ^ 64 := by have := kernelCompression.code.toNat_lt; omega
  have field := @configXint_field b kernelCompression ("kernel_compression") _ _ plain (by decide) rfl (by decide)
      (by decide : 9 ≤ 9) fits
  rw [field_of_harmless clear] at field
  exact field

end Printed

def bootWithCmdline (cmdline : Bytes) (pageSize : UInt32) : Boot :=
  { bxxtBootNew with
    hdr := { BootImgHdr.zero with
      magic := bootMagic
      pageSize
      name := paddedString _ []
      cmdline := paddedString _ cmdline
      extraCmdline := paddedString _ [] }
    mm := some (Region.ofFile [0x1f, 0x8b]) }

theorem bootWithCmdline_printed (cmdline : Bytes) (pageSize : UInt32) :
    bxxtBootPrintMetaInfoFile (bootWithCmdline cmdline pageSize) =
    .ok (render (metaEntries (bootWithCmdline cmdline pageSize) .gzip)) := by
  have half : (bootWithCmdline cmdline pageSize).read (bootWithCmdline cmdline pageSize).mmKernelPtr 2 =
    .ok [0x1f, 0x8b] :=
    @Region.slice_inside (Region.ofFile [0x1f, 0x8b]) _ _ (show 0 + 2 ≤ 2 by decide)
  have detected : bxxtBootDetectKernelCompression (bootWithCmdline cmdline pageSize) = .ok .gzip := by
    rw [bxxtBootDetectKernelCompression, half]
    rfl
  rw [bxxtBootPrintMetaInfoFile, detected]
  rfl

theorem bootWithCmdline_plain {cmdline : Bytes} (pageSize : UInt32) (fits : cmdline.length < bootArgsSize)
    (noNul : 0 ∉ cmdline) (single : newline ∉ cmdline) : PlainStrings (bootWithCmdline cmdline pageSize).hdr where
  name := plainString_paddedString (by decide) (by simp) (by simp)
  cmdline := plainString_paddedString fits noNul single
  extraCmdline := plainString_paddedString (by decide) (by simp) (by simp)

theorem bootWithCmdline_strings {cmdline : Bytes} (pageSize : UInt32) (fits : cmdline.length < bootArgsSize)
    (noNul : 0 ∉ cmdline) :
    nameString (bootWithCmdline cmdline pageSize).hdr = [] ∧
      cmdlineString (bootWithCmdline cmdline pageSize).hdr = cmdline ∧
      extraCmdlineString (bootWithCmdline cmdline pageSize).hdr = [] :=
  ⟨cString_paddedString (by decide) (by simp), cString_paddedString fits noNul,
    cString_paddedString (by decide) (by simp)⟩

theorem bootWithCmdline_silent {cmdline : Bytes} (pageSize : UInt32) (fits : cmdline.length < bootArgsSize)
    (noNul : 0 ∉ cmdline) (silent : ¬ ascii "bxxt." <:+: cmdline) :
    Silent (bootWithCmdline cmdline pageSize).hdr := by
  obtain ⟨name, line, extra⟩ := bootWithCmdline_strings pageSize fits noNul
  exact ⟨by rw [name]; decide, by rwa [line], by rw [extra]; decide⟩

/-- METADATA gives a header back exactly when none of its strings hides a line below. -/
theorem metadata_restores_iff_unshadowed {b : Boot} {text : Bytes} (printed : bxxtBootPrintMetaInfoFile b = .ok text)
    (plain : PlainStrings b.hdr) : RoundTrips b.hdr text ↔ Unshadowed b.hdr :=
  ⟨unshadowed_of_roundTrips printed plain, roundTrips_of_unshadowed printed plain⟩

theorem console_cmdline_restored :
    ∃ text, bxxtBootPrintMetaInfoFile (bootWithCmdline (ascii "console=ttyMSM0") 0x1000) = .ok text ∧
    RoundTrips (bootWithCmdline (ascii "console=ttyMSM0") 0x1000).hdr text := by
  have noNul : 0 ∉ ascii "console=ttyMSM0" := by decide
  have plain := bootWithCmdline_plain 0x1000 (by decide) noNul (by decide)
  have clear := (bootWithCmdline_silent 0x1000 (by decide) noNul (by decide)).unshadowed
  have printed := bootWithCmdline_printed (ascii "console=ttyMSM0") 0x1000
  exact ⟨_, printed, (metadata_restores_iff_unshadowed printed plain).mpr clear⟩

/-- A kernel command line may say anything, also the name of a field: this page size of 4096 comes back as 2048. -/
theorem page_size_in_cmdline_not_restored : ∃ b text, bxxtBootPrintMetaInfoFile b = .ok text ∧
    PlainStrings b.hdr ∧
    ¬ RoundTrips b.hdr text := by
  have noNul : 0 ∉ ascii "bxxt.page_size=800" := by decide
  obtain ⟨name, cmdline, extra⟩ := bootWithCmdline_strings 0x1000 (by decide) noNul
  have plain := bootWithCmdline_plain 0x1000 (by decide) noNul (by decide)
  have printed := bootWithCmdline_printed (ascii "bxxt.page_size=800") 0x1000
  refine ⟨_, _, printed, plain, ?_⟩
  intro back
  have hidden : shadow (metaKey "page_size") [[], ascii "bxxt.page_size=800", []] = some (ascii "800") := by decide
  have clear := (unshadowed_of_roundTrips printed plain back).pageSize (ascii "800")
  rw [name, cmdline, extra] at clear
  have number : lineNumber (ascii "800") = some 0x800 := by decide
  rw [clear hidden] at number
  exact absurd number (by decide)

end Bxxt.Proofs
