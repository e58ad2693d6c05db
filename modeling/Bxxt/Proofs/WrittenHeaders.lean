import Bxxt.Proofs.ArchiveComplete
import Bxxt.Proofs.ExtractionEnds

/-! What the reader of an archive makes of the entries that its writer has written, one behind the other. -/

namespace Bxxt.Proofs
open Bxxt ByteLayout DirTree TextScan

section Digits

theorem hexDigitValue_hexDigit {value : Nat} (small : value < 16) : hexDigitValue (hexDigit value) = some value := by
  have every : ∀ value < 16, hexDigitValue (hexDigit value) = some value := by decide
  exact every value small

theorem length_formatHex (value digits : Nat) : (formatHex value digits).length = digits := by
  rw [formatHex, List.length_map, List.length_range]

theorem isHex_formatHex (value digits : Nat) : isHex (formatHex value digits) = true := by
  rw [isHex, List.all_eq_true]
  intro byte inside
  obtain ⟨index, -, rfl⟩ := List.mem_map.mp inside
  rw [hexDigitValue_hexDigit (Nat.mod_lt _ (by decide))]
  rfl

/-- The top digit first. -/
theorem formatHex_succ {value digits : Nat} (fits : value < 16 ^ (digits + 1)) :
    formatHex value (digits + 1) = hexDigit (value / 16 ^ digits) :: formatHex (value % 16 ^ digits) digits := by
  have positive : 0 < 16 ^ digits := Nat.pow_pos (by decide)
  have top : value / 16 ^ digits < 16 := by
    rw [Nat.div_lt_iff_lt_mul positive]
    rwa [Nat.pow_succ, Nat.mul_comm] at fits
  have below : value % 16 ^ digits < 16 ^ digits := Nat.mod_lt _ positive
  have whole : min value (16 ^ (digits + 1) - 1) = value := Nat.min_eq_left (by omega)
  have part : min (value % 16 ^ digits) (16 ^ digits - 1) = value % 16 ^ digits := Nat.min_eq_left (by omega)
  rw [formatHex, formatHex, whole, part, List.range_succ_eq_map, List.map_cons, List.map_map]
  congr 1
  · rw [Nat.add_sub_cancel, Nat.sub_zero, Nat.mod_eq_of_lt top]
  · apply List.map_congr_left
    intro index inside
    have index_lt := List.mem_range.mp inside
    have place : digits + 1 - 1 - (index + 1) = digits - 1 - index := by omega
    have split : (16 : Nat) ^ digits = 16 ^ (digits - 1 - index) * 16 ^ (index + 1) := by
      rw [← Nat.pow_add]
      congr 1
      omega
    have power : (16 : Nat) ^ (index + 1) = 16 * 16 ^ index := by rw [Nat.pow_succ, Nat.mul_comm]
    change hexDigit (value / 16 ^ (digits + 1 - 1 - (index + 1)) % 16) = _
    rw [place, split, Nat.mod_mul_right_div_self, power, Nat.mod_mul_right_mod]

theorem digitsValue_formatHex {value digits : Nat} (fits : value < 16 ^ digits) (before : Nat) :
    digitsValue 16 hexDigitValue before (formatHex value digits) = before * 16 ^ digits + value := by
  induction digits generalizing value before with
  | zero =>
    rw [Nat.pow_zero, Nat.lt_one_iff] at fits
    subst fits
    rw [Nat.pow_zero, Nat.mul_one]
    rfl
  | succ digits ih =>
    have positive : 0 < 16 ^ digits := Nat.pow_pos (by decide)
    have top : value / 16 ^ digits < 16 := by
      rw [Nat.div_lt_iff_lt_mul positive]
      rwa [Nat.pow_succ, Nat.mul_comm] at fits
    have split := Nat.div_add_mod value (16 ^ digits)
    rw [formatHex_succ fits, digitsValue, hexDigitValue_hexDigit top]
    dsimp only
    rw [ih (Nat.mod_lt _ positive), Nat.pow_succ, Nat.add_mul, Nat.add_assoc, Nat.mul_comm (value / 16 ^ digits), split]
    congr 1
    rw [Nat.mul_assoc, Nat.mul_comm 16]

/-- A number that its field has room for comes back. -/
theorem atol16_formatHex {value : Nat} (fits : value ≤ 0xffffffff) : atol16 (formatHex value 8) = value := by
  rw [atol16, digitsValue_formatHex (by omega), Nat.zero_mul, Nat.zero_add]

end Digits
section Fields
variable {numbers : List Nat} {ahead : Bytes → Nat}

theorem headerField_written {k value : Nat} (place : numbers[k]? = some value) (front rest : Bytes) :
    headerField (front ++ numbers.flatMap (formatHex · 8) ++ rest) (front.length + 8 * k) 8 = formatHex value 8 := by
  induction numbers generalizing k front with
  | nil => cases place
  | cons number numbers ih =>
    rw [List.flatMap_cons, ← List.append_assoc]
    cases k with
    | zero =>
      obtain rfl : number = value := by simpa using place
      rw [headerField, Nat.mul_zero, Nat.add_zero, List.append_assoc, List.append_assoc, List.drop_left,
        List.take_left' (length_formatHex ..)]
    | succ k =>
      have later := ih (by simpa using place) (front ++ formatHex number 8)
      rwa [List.length_append, length_formatHex, Nat.add_assoc, Nat.add_comm 8, ← Nat.mul_succ] at later

def headerNumbers (e : ArchiveEntry) : List Nat :=
  [e.ino, e.mode, 0, 0, e.nlink, 0, e.filesize, 0, 0, 0, 0, e.pathname.length + 1, 0]

structure NumbersFit (e : ArchiveEntry) : Prop where
  ino : e.ino ≤ 0xffffffff
  mode : e.mode ≤ 0xffffffff
  nlink : e.nlink ≤ 0xffffffff
  filesize : e.filesize ≤ 0xffffffff
  pathname : e.pathname.length + 1 ≤ 0xffffffff

def writtenFields (e : ArchiveEntry) : CpioFields where
  dev := 0
  ino := e.ino
  mode := e.mode
  nlink := e.nlink
  namelength := e.pathname.length + 1
  namePad := pad4 (e.pathname.length + 1 + 110)
  filesize := e.filesize
  padding := pad4 e.filesize

def newcHeaderBytes (e : ArchiveEntry) : Bytes := ascii "070701" ++ (headerNumbers e).flatMap (formatHex · 8)

def newcNameBytes (e : ArchiveEntry) : Bytes := e.pathname ++ 0 :: List.replicate (pad4 (e.pathname.length + 1 + 110)) 0

theorem headerPieces_eq (e : ArchiveEntry) : (headerPieces e).flatten = newcHeaderBytes e ++ newcNameBytes e := by
  simp only [headerPieces, newcHeaderBytes, newcNameBytes, headerNumbers, List.flatten_cons, List.flatten_nil,
    List.flatMap_cons, List.flatMap_nil, List.append_nil, List.append_assoc, List.singleton_append]

theorem length_newcHeaderBytes (e : ArchiveEntry) : (newcHeaderBytes e).length = 110 := by
  simp only [newcHeaderBytes, headerNumbers, List.flatMap_cons, List.flatMap_nil, List.length_append,
    length_formatHex, List.length_nil]
  rfl

theorem isNewcHeader_written (e : ArchiveEntry) (rest : Bytes) : isNewcHeader (newcHeaderBytes e ++ rest) = true := by
  have numbers : isHex ((headerNumbers e).flatMap (formatHex · 8)) = true := by
    rw [isHex, List.all_flatMap, List.all_eq_true]
    exact fun value _ => isHex_formatHex value 8
  have hex : isHex (newcHeaderBytes e) = true := by
    rw [isHex, newcHeaderBytes, List.all_append]
    exact Bool.and_eq_true_iff.mpr ⟨by decide, numbers⟩
  have magic : (newcHeaderBytes e ++ rest).take 6 = ascii "070701" := by
    rw [newcHeaderBytes, List.append_assoc]
    exact List.take_left' rfl
  rw [isNewcHeader, List.take_left' (length_newcHeaderBytes e), magic, hex]
  decide

theorem findNewcHeader_written (e : ArchiveEntry) (rest : Bytes) {fuel : Nat} (positive : 0 < fuel) :
    findNewcHeader fuel (newcHeaderBytes e ++ rest) = some (newcHeaderBytes e ++ rest) := by
  have long : ¬ (newcHeaderBytes e ++ rest).length < 110 := by
    rw [List.length_append, length_newcHeaderBytes]
    omega
  obtain ⟨fuel, rfl⟩ := Nat.exists_eq_succ_of_ne_zero (Nat.ne_of_gt positive)
  rw [findNewcHeader, if_neg long, if_pos (isNewcHeader_written e rest)]

variable (ahead) in
/-- The header is found at once, and its fields hold the numbers. -/
theorem newc_read {e : ArchiveEntry} (fit : NumbersFit e) (rest : Bytes) :
    CpioReadHeader.newc.read ahead ((headerPieces e).flatten ++ rest) =
      some (writtenFields e, newcNameBytes e ++ rest) := by
  have field {k value : Nat} (place : (headerNumbers e)[k]? = some value) (small : value ≤ 0xffffffff) :
      atol16 (headerField (newcHeaderBytes e ++ (newcNameBytes e ++ rest)) (6 + 8 * k) 8) = value := by
    have written := headerField_written place (ascii "070701") (newcNameBytes e ++ rest)
    exact (congrArg atol16 written).trans (atol16_formatHex small)
  have fields : newcFields (newcHeaderBytes e ++ (newcNameBytes e ++ rest)) = writtenFields e := by
    have major := @field 7 _ rfl (Nat.zero_le _)
    have minor := @field 8 _ rfl (Nat.zero_le _)
    have ino := @field 0 _ rfl fit.ino
    have mode := @field 1 _ rfl fit.mode
    have nlink := @field 4 _ rfl fit.nlink
    have filesize := @field 6 _ rfl fit.filesize
    have namelength := @field 11 _ rfl fit.pathname
    simp only [Nat.reduceMul, Nat.reduceAdd] at major minor ino mode nlink filesize namelength
    rw [newcFields, major, minor, ino, mode, nlink, filesize, namelength]
    rfl
  have positive : 0 < (newcHeaderBytes e ++ (newcNameBytes e ++ rest)).length := by
    rw [List.length_append, length_newcHeaderBytes]
    omega
  rw [CpioReadHeader.read, headerPieces_eq, List.append_assoc, findNewcHeader_written e _ positive]
  dsimp only
  rw [fields, List.drop_left' (length_newcHeaderBytes e)]

end Fields
section Entries
variable {ahead : Bytes → Nat} {aName rest : Bytes} {st : Stat} {inode : UInt32}

theorem entryType_mode {kind perm : Nat} (small : kind < 16) (bits : perm < 2 ^ 12) :
    (2 ^ 12 * kind + perm) &&& 0o170000 = 2 ^ 12 * kind := by
  have masked : kind &&& 15 = kind := (Nat.and_two_pow_sub_one_eq_mod kind 4).trans (Nat.mod_eq_of_lt small)
  apply Nat.eq_of_testBit_eq
  intro bit
  have mask : (0o170000 : Nat) = 2 ^ 12 * 15 := rfl
  rw [mask, Nat.testBit_and, Nat.testBit_two_pow_mul_add _ bits, Nat.testBit_two_pow_mul, Nat.testBit_two_pow_mul]
  by_cases low : bit < 12
  · rw [if_pos low, decide_eq_false (by omega), Bool.false_and, Bool.and_false, Bool.false_and]
  · rw [if_neg low, decide_eq_true (by omega), Bool.true_and, Bool.true_and, ← Nat.testBit_and, masked]

theorem stringOf_name {name : Bytes} (noNul : 0 ∉ name) (back : Bytes) : stringOf (name ++ 0 :: back) = name := by
  have whole : ∀ byte ∈ name, decide (byte ≠ 0) = true := fun byte inside => decide_eq_true fun same =>
    noNul (same ▸ inside)
  rw [stringOf, List.takeWhile_append_of_pos whole, List.takeWhile_cons_of_neg (by decide), List.append_nil]

theorem stringOf_whole {name : Bytes} (noNul : 0 ∉ name) : stringOf name = name :=
  List.takeWhile_eq_self_iff.mpr fun _ inside => decide_eq_true fun same => noNul (same ▸ inside)

/-- What can be stored so that the reader sees it as it is: a name without a NUL that has room in a
path, and a mode whose low bits are the permissions. -/
structure ReadsBack (aName : Bytes) (st : Stat) : Prop where
  storable : StorableInode st.inode
  named : aName ≠ []
  noNul : 0 ∉ aName
  short : aName.length < pathMax
  perm : st.perm < 2 ^ 12

def objectHeader (aName : Bytes) (st : Stat) (inode : UInt32) : CpioHeader where
  pathname := some aName
  filetype := match st.inode with
    | .regular _ _ => .regular
    | .directory _ => .directory
    | .symlink _ => .symlink
    | .other => .special
  symlink := (archiveEntry aName st inode).symlink
  dev := 0
  ino := inode.toNat
  nlink := 1
  size := (archiveEntry aName st inode).filesize
  blocks := if contentOf st.inode = [] then [] else [contentOf st.inode]

theorem numbersFit (reads : ReadsBack aName st) (inode : UInt32) : NumbersFit (archiveEntry aName st inode) where
  ino := Nat.le_of_lt_succ inode.toNat_lt
  mode := by
    have bits := reads.perm
    rw [ArchiveEntry.mode, archiveEntry]
    cases st.inode with
    | regular | directory | symlink | other =>
      simp only [Option.map_some, Option.map_none, Option.getD_some, Option.getD_none, FileType.code]
      omega
  nlink := (by decide : 1 ≤ 0xffffffff)
  filesize := (formats_of_storable reads.storable reads.named inode).small
  pathname := by
    have short := reads.short
    rw [pathMax] at short
    rw [archiveEntry]
    dsimp only
    omega

/-- What a header with its name comes to, whatever is behind it. -/
theorem headerRead_written (ahead : Bytes → Nat) {e : ArchiveEntry} (fit : NumbersFit e)
    (noNul : 0 ∉ e.pathname) (rest : Bytes) :
    archiveReadFormatCpioReadHeader ahead .newc ((headerPieces e).flatten ++ rest) =
      let isTrailer := e.pathname = trailerEntry.pathname
      if entryType e.mode = .symlink then
        if 1024 * 1024 < e.filesize ∨ rest.length < e.filesize then .lost (some e.pathname) e.filesize
        else if isTrailer then .trailer
        else
          .found ⟨some e.pathname, .symlink, stringOf (rest.take e.filesize), 0, e.ino, e.nlink, e.filesize, []⟩
            (rest.drop e.filesize) (pad4 e.filesize)
      else if isTrailer then .trailer
      else
        .found ⟨some e.pathname, entryType e.mode, [], 0, e.ino, e.nlink, e.filesize,
          if rest.take e.filesize = [] then [] else [rest.take e.filesize]⟩ rest (e.filesize + pad4 e.filesize) := by
  have front : (e.pathname ++ 0 :: List.replicate (pad4 (e.pathname.length + 1 + 110)) 0).length =
      e.pathname.length + 1 + pad4 (e.pathname.length + 1 + 110) := by
    simp only [List.length_append, List.length_cons, List.length_replicate]
    omega
  have name : (newcNameBytes e ++ rest).take (e.pathname.length + 1) = e.pathname ++ [0] := by
    have split : newcNameBytes e ++ rest = (e.pathname ++ [0]) ++
        (List.replicate (pad4 (e.pathname.length + 1 + 110)) 0 ++ rest) := by
      simp only [newcNameBytes, List.append_assoc, List.cons_append, List.nil_append]
    rw [split]
    exact List.take_left' List.length_append
  have back : (newcNameBytes e ++ rest).drop (e.pathname.length + 1 + pad4 (e.pathname.length + 1 + 110)) = rest :=
    List.drop_left' front
  have room : ¬ (newcNameBytes e ++ rest).length < e.pathname.length + 1 + pad4 (e.pathname.length + 1 + 110) := by
    rw [List.length_append, newcNameBytes, front]
    omega
  have trailer : (e.pathname.length + 1 = 11 ∧ e.pathname ++ [0] = ascii "TRAILER!!!" ++ [0]) ↔
      e.pathname = trailerEntry.pathname := by
    rw [List.append_left_inj]
    refine ⟨And.right, fun same => ⟨?_, same⟩⟩
    rw [same]
    rfl
  have cut : ((e.filesize : Int) < 0 ∨ 1024 * 1024 < (e.filesize : Int) ∨ rest.length < e.filesize) ↔
      1024 * 1024 < e.filesize ∨ rest.length < e.filesize := by omega
  rw [archiveReadFormatCpioReadHeader, newc_read ahead fit]
  simp only [writtenFields, if_neg room, name, back, trailer, cut, stringOf_name noNul, Int.toNat_natCast]

/-- What the reader does not skip before the entry is over. -/
def leftBehind (st : Stat) : Bytes :=
  match st.inode with
  | .regular content _ => content ++ List.replicate (pad4 content.length) 0
  | .symlink target => List.replicate (pad4 target.bytes.length) 0
  | .directory _ | .other => []

def entryBytes (aName : Bytes) (st : Stat) (inode : UInt32) : Bytes :=
  (filePieces aName st inode).flatten ++ (nullPieces (pad4 (contentOf st.inode).length)).flatten

theorem nullPieces_flatten (length : Nat) : (nullPieces length).flatten = List.replicate length 0 :=
  piecesOf_flatten (by decide) length _ (by rw [List.length_replicate])

/-- Behind the header come the target of a link, or the content of a file, and the padding. -/
theorem entryBytes_eq (aName : Bytes) (st : Stat) (inode : UInt32) : entryBytes aName st inode =
    (headerPieces (archiveEntry aName st inode)).flatten ++
      ((archiveEntry aName st inode).symlink ++ leftBehind st) := by
  have pieces : entryBytes aName st inode = (headerPieces (archiveEntry aName st inode)).flatten ++
      ((archiveEntry aName st inode).symlink ++ List.replicate (pad4 (archiveEntry aName st inode).symlink.length) 0 ++
        (contentOf st.inode ++ List.replicate (pad4 (contentOf st.inode).length) 0)) := by
    rw [entryBytes, filePieces, entryPieces, linkPieces, List.flatten_append, List.flatten_append, nullPieces_flatten,
      piecesOf_flatten (by decide) _ _ (Nat.le_refl _)]
    simp only [List.flatten_cons, List.flatten_nil, List.append_nil, List.append_assoc]
  have empty : List.replicate (pad4 0) (0 : UInt8) = [] := rfl
  obtain ⟨node, perm⟩ := st
  rw [pieces]
  cases node with
  | regular content readable => simp only [archiveEntry, contentOf, leftBehind, List.length_nil, empty, List.nil_append]
  | directory size => simp only [archiveEntry, contentOf, leftBehind, List.length_nil, empty, List.append_nil]
  | symlink target => simp only [archiveEntry, contentOf, leftBehind, List.length_nil, empty, List.append_nil]
  | other => simp only [archiveEntry, contentOf, leftBehind, List.length_nil, empty, List.append_nil]

theorem entryType_code {e : ArchiveEntry} {kind : Nat} (code : (e.filetype.map FileType.code).getD 0 = 2 ^ 12 * kind)
    (small : kind < 16) (bits : e.perm < 2 ^ 12) : entryType e.mode = entryType (2 ^ 12 * kind) := by
  have same : entryType (2 ^ 12 * kind + e.perm) = entryType (2 ^ 12 * kind + 0) := by
    rw [entryType, entryType, entryType_mode small bits, entryType_mode small (by decide)]
  rw [ArchiveEntry.mode, code, same, Nat.add_zero]

/-- An entry comes back as its object, unless it has the name of the trailer. -/
theorem object_read (ahead : Bytes → Nat) (reads : ReadsBack aName st) (inode : UInt32) (rest : Bytes) :
    archiveReadFormatCpioReadHeader ahead .newc (entryBytes aName st inode ++ rest) =
      if aName = trailerEntry.pathname then .trailer
      else .found (objectHeader aName st inode) (leftBehind st ++ rest) (leftBehind st).length := by
  have fit := numbersFit reads inode
  rw [entryBytes_eq, List.append_assoc, headerRead_written ahead fit reads.noNul]
  obtain ⟨node, perm⟩ := st
  have bits : perm < 2 ^ 12 := reads.perm
  cases node with
  | regular content readable =>
    have mode : entryType (archiveEntry aName ⟨.regular content readable, perm⟩ inode).mode = .regular :=
      @entryType_code _ 8 rfl (by decide) bits
    have data : (content ++ List.replicate (pad4 content.length) 0 ++ rest).take content.length = content := by
      rw [List.append_assoc, List.take_left]
    have size : (archiveEntry aName ⟨.regular content readable, perm⟩ inode).filesize = content.length := rfl
    have left : ((content ++ List.replicate (pad4 content.length) 0).length : Int) = content.length +
        pad4 content.length := by
      rw [List.length_append, List.length_replicate, Int.natCast_add]
    simp only [mode, size, objectHeader, reduceCtorEq, if_false]
    simp only [leftBehind, left, contentOf, data, archiveEntry, List.nil_append]
    rfl
  | directory size =>
    have mode : entryType (archiveEntry aName ⟨.directory size, perm⟩ inode).mode = .directory :=
      @entryType_code _ 4 rfl (by decide) bits
    have size : (archiveEntry aName ⟨.directory size, perm⟩ inode).filesize = 0 := rfl
    simp only [mode, size, objectHeader, reduceCtorEq, if_false]
    simp only [leftBehind, contentOf, archiveEntry, List.nil_append, List.take_zero, if_true]
    rfl
  | symlink target =>
    have mode : entryType (archiveEntry aName ⟨.symlink target, perm⟩ inode).mode = .symlink :=
      @entryType_code _ 10 rfl (by decide) bits
    have size : (archiveEntry aName ⟨.symlink target, perm⟩ inode).filesize = target.bytes.length := by
      rw [ArchiveEntry.filesize]
      split
      next => rfl
      next empty => exact (List.length_eq_zero_iff.mpr (not_not.mp empty)).symm
    have short := target.short
    rw [pathMax] at short
    have whole : ¬ (1024 * 1024 < target.bytes.length ∨
        (target.bytes ++ (List.replicate (pad4 target.bytes.length) 0 ++ rest)).length < target.bytes.length) := by
      rw [List.length_append]
      omega
    simp only [mode, size, objectHeader, if_true]
    simp only [leftBehind, contentOf, archiveEntry, List.append_assoc, if_neg whole, if_true,
      List.take_left, List.drop_left, stringOf_whole target.noNul, List.length_replicate]
  | other => exact absurd reads.storable id

end Entries
section Archives
variable {ahead : Bytes → Nat} {fs : FileSystem} {root : Bytes}

variable (fs root) in
/-- The headers of these files for the reader, which takes an object with the name of the trailer for the end. -/
def treeHeaders : UInt32 → List Bytes → List CpioHeader
  | _, [] => []
  | inode, path :: paths =>
    match fs.lstat path with
    | none => treeHeaders inode paths
    | some st =>
      if archiveName root path = trailerEntry.pathname then []
      else objectHeader (archiveName root path) st inode :: treeHeaders (inode + 1) paths

variable (fs root) in
theorem treePieces_cons {path : Bytes} {st : Stat} (stat : fs.lstat path = some st) (inode : UInt32)
    (paths : List Bytes) :
    (treePieces fs root inode (path :: paths)).flatten =
      entryBytes (archiveName root path) st inode ++ (treePieces fs root (inode + 1) paths).flatten := by
  rw [treePieces, stat]
  simp only [entryBytes, List.flatten_append, List.append_assoc]

theorem trailer_read (ahead : Bytes → Nat) (rest : Bytes) :
    archiveReadFormatCpioReadHeader ahead .newc ((headerPieces trailerEntry).flatten ++ rest) = .trailer := by
  have fit : NumbersFit trailerEntry := ⟨by decide, by decide, by decide, by decide, by decide⟩
  rw [headerRead_written ahead fit (by decide)]
  rfl

theorem length_entryBytes (aName : Bytes) (st : Stat) (inode : UInt32) :
    (leftBehind st).length < (entryBytes aName st inode).length := by
  rw [entryBytes_eq, headerPieces_eq]
  simp only [List.length_append, length_newcHeaderBytes]
  omega

theorem consume_left (left rest : Bytes) :
    archiveReadConsume (left ++ rest) left.length = ((left.length : Int), rest) := by
  rw [archiveReadConsume, if_neg (by omega), Int.toNat_natCast,
    if_neg (by rw [List.length_append]; omega), List.drop_left]

/-- The whole stream, by induction on the files: what was left of the last entry is skipped first. -/
theorem readHeaders_tree {inode : UInt32} {paths : List Bytes}
    (stored : ∀ path ∈ paths, ∃ st, fs.lstat path = some st ∧ ReadsBack (archiveName root path) st)
    (left : Bytes) {fuel : Nat} (enough : (left ++ (treePieces fs root inode paths).flatten).length < fuel) :
    readHeaders ahead .newc fuel (left ++ (treePieces fs root inode paths).flatten) left.length =
      (treeHeaders fs root inode paths, .trailer) := by
  induction paths generalizing inode left fuel with
  | nil =>
    obtain ⟨fuel, rfl⟩ := Nat.exists_eq_succ_of_ne_zero (Nat.ne_of_gt (Nat.lt_of_le_of_lt (Nat.zero_le _) enough))
    have trailer : (treePieces fs root inode []).flatten = (headerPieces trailerEntry).flatten ++
      (linkPieces trailerEntry).flatten :=
      List.flatten_append
    rw [readHeaders, consume_left, trailer]
    dsimp only
    rw [if_neg (not_not.mpr rfl), trailer_read]
    rfl
  | cons path paths ih =>
    obtain ⟨fuel, rfl⟩ := Nat.exists_eq_succ_of_ne_zero (Nat.ne_of_gt (Nat.lt_of_le_of_lt (Nat.zero_le _) enough))
    obtain ⟨st, stat, reads⟩ := stored path List.mem_cons_self
    have shorter := length_entryBytes (archiveName root path) st inode
    rw [treePieces_cons fs root stat, List.length_append, List.length_append] at enough
    rw [readHeaders, consume_left, treePieces_cons fs root stat, treeHeaders, stat]
    dsimp only
    rw [if_neg (not_not.mpr rfl), object_read ahead reads]
    by_cases ends : archiveName root path = trailerEntry.pathname
    · rw [if_pos ends, if_pos ends]
    · have later := @ih (inode + 1) (fun path inside => stored path (List.mem_cons_of_mem _ inside))
        (leftBehind st) fuel
        (by rw [List.length_append]; omega)
      rw [if_neg ends, if_neg ends]
      dsimp only
      rw [later]

/-- The stream is taken for newc, and read up to its trailer. -/
theorem decodedHeaders_tree {inode : UInt32} {paths : List Bytes}
    (stored : ∀ path ∈ paths, ∃ st, fs.lstat path = some st ∧ ReadsBack (archiveName root path) st) :
    decodedHeaders ahead (some (treePieces fs root inode paths).flatten) =
      (treeHeaders fs root inode paths, .trailer) := by
  have magic : ∃ back, (treePieces fs root inode paths).flatten = ascii "070701" ++ back := by
    cases paths with
    | nil => exact ⟨_, rfl⟩
    | cons path paths =>
      obtain ⟨st, stat, -⟩ := stored path List.mem_cons_self
      rw [treePieces_cons fs root stat, entryBytes_eq, headerPieces_eq, newcHeaderBytes]
      exact ⟨_, by simp only [List.append_assoc]; rfl⟩
  obtain ⟨back, shape⟩ := magic
  have bid : archiveReadFormatCpioBid (treePieces fs root inode paths).flatten = some .newc := by
    have long : ¬ (ascii "070701" ++ back).length < 6 := by
      rw [List.length_append]
      exact Nat.not_lt.mpr (Nat.le_add_right 6 _)
    have front : (ascii "070701" ++ back).take 6 = ascii "070701" := List.take_left' rfl
    rw [shape, archiveReadFormatCpioBid, if_neg long, front]
    rfl
  have read := @readHeaders_tree ahead fs root inode paths stored [] _ (Nat.lt_succ_self _)
  simp only [decodedHeaders, bid]
  exact read

end Archives
end Bxxt.Proofs
