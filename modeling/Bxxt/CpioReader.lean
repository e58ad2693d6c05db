import Bxxt.CpioIn

/-! How the archive library reads a ramdisk: the headers of the cpio formats
(`archive_read_support_format_cpio.c`), the states of the reader (`archive_read.c`), and the loop of
`cpio.c` over both. The reader works on what the filters decode, of which some part is in its buffer. -/

namespace Bxxt
open ByteLayout DirTree

def archiveEof : Int := 1

section Fields

def headerField (header : Bytes) (offset size : Nat) : Bytes := (header.drop offset).take size

def octDigitValue (byte : UInt8) : Option Nat := if 48 ≤ byte ∧ byte ≤ 55 then some (byte.toNat - 48) else none

def hexDigitValue (byte : UInt8) : Option Nat :=
  if 97 ≤ byte ∧ byte ≤ 102 then some (byte.toNat - 87)
  else if 65 ≤ byte ∧ byte ≤ 70 then some (byte.toNat - 55)
  else if 48 ≤ byte ∧ byte ≤ 57 then some (byte.toNat - 48)
  else none

/-- The number that the digits at the front of a field make. -/
def digitsValue (base : Nat) (digit : UInt8 → Option Nat) : Nat → Bytes → Nat
  | value, [] => value
  | value, byte :: rest =>
    match digit byte with
    | none => value
    | some next => digitsValue base digit (value * base + next) rest

def atol8 (field : Bytes) : Nat := digitsValue 8 octDigitValue 0 field
def atol16 (field : Bytes) : Nat := digitsValue 16 hexDigitValue 0 field

def asInt64 (value : Nat) : Int := if value < 2 ^ 63 then value else (value : Int) - 2 ^ 64

def isHex (field : Bytes) : Bool := field.all fun byte => (hexDigitValue byte).isSome
def isOctal (field : Bytes) : Bool := field.all fun byte => (octDigitValue byte).isSome

def le2 (field : Bytes) : Nat := leValue field
def be2 (field : Bytes) : Nat := beValue field

/-- The low half of four bytes comes last. -/
def le4 (field : Bytes) : Nat := le2 (field.take 2) * 65536 + le2 (field.drop 2)
def be4 (field : Bytes) : Nat := beValue field

structure CpioFields where
  dev : Nat
  ino : Nat
  mode : Nat
  nlink : Nat
  namelength : Nat
  namePad : Nat
  filesize : Int
  padding : Nat

def newcFields (header : Bytes) : CpioFields where
  dev := atol16 (headerField header 62 8) * 2 ^ 32 + atol16 (headerField header 70 8)
  ino := atol16 (headerField header 6 8)
  mode := atol16 (headerField header 14 8)
  nlink := atol16 (headerField header 38 8)
  namelength := atol16 (headerField header 94 8)
  namePad := pad4 (atol16 (headerField header 94 8) + 110)
  filesize := atol16 (headerField header 54 8)
  padding := pad4 (atol16 (headerField header 54 8))

def odcFields (header : Bytes) : CpioFields where
  dev := atol8 (headerField header 6 6)
  ino := atol8 (headerField header 12 6)
  mode := atol8 (headerField header 18 6)
  nlink := atol8 (headerField header 36 6)
  namelength := atol8 (headerField header 59 6)
  namePad := 0
  filesize := atol8 (headerField header 65 11)
  padding := 0

def afiolFields (header : Bytes) : CpioFields where
  dev := atol16 (headerField header 6 8)
  ino := atol16 (headerField header 14 16)
  mode := atol8 (headerField header 31 6)
  nlink := atol16 (headerField header 53 8)
  namelength := atol16 (headerField header 86 4)
  namePad := 0
  filesize := asInt64 (atol16 (headerField header 99 16))
  padding := 0

def binFields (two four : Bytes → Nat) (header : Bytes) : CpioFields where
  dev := two (headerField header 2 2)
  ino := two (headerField header 4 2)
  mode := two (headerField header 6 2)
  nlink := two (headerField header 12 2)
  namelength := two (headerField header 20 2)
  namePad := two (headerField header 20 2) % 2
  filesize := four (headerField header 22 4)
  padding := four (headerField header 22 4) % 2

end Fields

section Headers

/-- Which of its functions `read_header` of the format is. -/
inductive CpioReadHeader where
  | odc
  | newc
  | binLe
  | binBe
  deriving DecidableEq

def archiveReadFormatCpioBid (p : Bytes) : Option CpioReadHeader :=
  if p.length < 6 then none
  else if p.take 6 = ascii "070707" then some .odc
  else if p.take 6 = ascii "070727" then some .odc
  else if p.take 6 = ascii "070701" then some .newc
  else if p.take 6 = ascii "070702" then some .newc
  else if be2 (p.take 2) = 0o70707 then some .binBe
  else if le2 (p.take 2) = 0o70707 then some .binLe
  else none

def isNewcHeader (p : Bytes) : Bool :=
  (p.take 6 == ascii "070701" || p.take 6 == ascii "070702") && isHex (p.take 110)

/-- `find_newc_header`, which goes by the byte behind the five common ones. -/
def findNewcHeader : Nat → Bytes → Option Bytes
  | 0, _ => none
  | fuel + 1, p =>
    if p.length < 110 then none
    else if isNewcHeader p then some p
    else
      let byte := p.getD 5 0
      findNewcHeader fuel (p.drop (if byte = 49 ∨ byte = 50 then 2 else if byte = 48 then 1 else 6))

def isAfioLarge (p : Bytes) (len : Nat) : Bool :=
  116 ≤ len && p.getD 30 0 == 109 && p.getD 85 0 == 110 && p.getD 98 0 == 115 && p.getD 115 0 == 58 &&
    isHex (headerField p 6 24) && isHex (headerField p 31 54) &&
    isHex (headerField p 86 12) && isHex (headerField p 99 16)

/-- `find_odc_header`, with whether the header is a large one. `len` bytes are in the buffer, in which a large
header is seen only if all of it is there. -/
def findOdcHeader (ahead : Bytes → Nat) : Nat → Bytes → Nat → Option (Bytes × Bool)
  | 0, _, _ => none
  | fuel + 1, p, len =>
    if len < 76 then
      if p.length < 76 then none else findOdcHeader ahead fuel p (max 76 (min (ahead p) p.length))
    else if p.take 6 = ascii "070707" ∧ isOctal (p.take 76) then some (p, false)
    else if p.take 6 = ascii "070727" ∧ isAfioLarge p len then some (p, true)
    else
      let byte := p.getD 5 0
      let count := if byte = 55 then 2 else if byte = 48 then 1 else 6
      findOdcHeader ahead fuel (p.drop count) (len - count)

def CpioReadHeader.read (ahead : Bytes → Nat) (p : Bytes) : CpioReadHeader → Option (CpioFields × Bytes)
  | odc =>
    match findOdcHeader ahead (2 * p.length + 2) p 0 with
    | none => none
    | some (h, true) => if h.length < 116 then none else some (afiolFields h, h.drop 116)
    | some (h, false) => if h.length < 76 then none else some (odcFields h, h.drop 76)
  | newc =>
    match findNewcHeader p.length p with
    | none => none
    | some h => some (newcFields h, h.drop 110)
  | binLe => if p.length < 26 then none else some (binFields le2 le4 p, p.drop 26)
  | binBe => if p.length < 26 then none else some (binFields be2 be4 p, p.drop 26)

end Headers

section Reader

inductive ReadState where
  | header
  | data
  | eof
  | fatal
  deriving DecidableEq

/-- `struct archive_read` with its format. `toSkip` is what is left of an entry and of the padding behind it. -/
structure ArchiveRead where
  readHeader : CpioReadHeader
  state : ReadState
  rest : Bytes
  toSkip : Int
  links : List LinksEntry
  entry : ReadEntry

def clearEntry : ReadEntry := ⟨none, .regular, [], none, 0, []⟩

def archiveReadConsume (rest : Bytes) (request : Int) : Int × Bytes :=
  if request < 0 then (archiveFatal, rest)
  else if rest.length < request.toNat then (archiveFatal, [])
  else (request, rest.drop request.toNat)

/-- `AE_IFMT` of a mode. -/
def entryType (mode : Nat) : EntryType :=
  match mode &&& 0o170000 with
  | 0o040000 => .directory
  | 0o120000 => .symlink
  | 0o020000 | 0o060000 | 0o010000 => .special
  | _ => .regular

def stringOf (bytes : Bytes) : Bytes := bytes.takeWhile (· ≠ 0)

/-- How `archive_read_format_cpio_read_header` ends, before it looks for links. An entry that is lost on its
way may have its name already. -/
inductive HeaderRead where
  | found (h : CpioHeader) (rest : Bytes) (toSkip : Int)
  | trailer
  | lost (pathname : Option Bytes) (size : Nat)

/-- `archive_read_format_cpio_read_header`. The data of the entry comes as one block. -/
def archiveReadFormatCpioReadHeader (ahead : Bytes → Nat) (readHeader : CpioReadHeader) (rest : Bytes) : HeaderRead :=
  match readHeader.read ahead rest with
  | none => .lost none 0
  | some (f, rest) =>
    if rest.length < f.namelength + f.namePad then .lost none f.filesize.toNat
    else
      let name := rest.take f.namelength
      let rest := rest.drop (f.namelength + f.namePad)
      let isTrailer := f.namelength = 11 ∧ name = ascii "TRAILER!!!" ++ [0]
      if entryType f.mode = .symlink then
        if f.filesize < 0 ∨ 1024 * 1024 < f.filesize ∨ rest.length < f.filesize.toNat then
          .lost (some (stringOf name)) f.filesize.toNat
        else if isTrailer then .trailer
        else
          .found ⟨some (stringOf name), .symlink, stringOf (rest.take f.filesize.toNat), f.dev, f.ino, f.nlink,
            f.filesize.toNat, []⟩ (rest.drop f.filesize.toNat) f.padding
      else if isTrailer then .trailer
      else
        let data := rest.take f.filesize.toNat
        .found ⟨some (stringOf name), entryType f.mode, [], f.dev, f.ino, f.nlink, f.filesize.toNat,
          if data = [] then [] else [data]⟩ rest (f.filesize + f.padding)

/-- `archive_read_next_header` of an open archive: what is left of the last entry is skipped. Once it is fatal the
reader stays so, and the entry is as it was. -/
def archiveReadNextHeader (ahead : Bytes → Nat) (r : ArchiveRead) : Exec (Int × ArchiveRead) :=
  if r.state = .eof ∨ r.state = .fatal then .ok (archiveFatal, { r with state := .fatal })
  else
    let r := { r with entry := clearEntry }
    let (skipped, rest) := if r.state = .data then archiveReadConsume r.rest r.toSkip else (r.toSkip, r.rest)
    if skipped ≠ r.toSkip then .ok (archiveFatal, { r with rest, state := .fatal })
    else
      match archiveReadFormatCpioReadHeader ahead r.readHeader rest with
      | .trailer => .ok (archiveEof, { r with state := .eof })
      | .lost pathname size =>
        .ok (archiveFatal, { r with state := .fatal, entry := ⟨pathname, .regular, [], none, size, []⟩ })
      | .found h rest toSkip => do
        let (hardlink, links) ← recordHardlink r.links h
        .ok (archiveOk, { r with state := .data, rest, toSkip, links, entry := h.entry hardlink })

/-- `archive_read_open_memory`, for what the filters decode. Where none of them or no format takes the archive, the
reader is fatal from the start. -/
def archiveReadOpenMemory (decoded : Option Bytes) : ArchiveRead :=
  match decoded with
  | none => ⟨.newc, .fatal, [], 0, [], clearEntry⟩
  | some rest =>
    match archiveReadFormatCpioBid rest with
    | none => ⟨.newc, .fatal, [], 0, [], clearEntry⟩
    | some readHeader => ⟨readHeader, .header, rest, 0, [], clearEntry⟩

end Reader

section Loop

def ArchiveRead.withPath (r : ArchiveRead) (root : DiskPlace) : ArchiveRead :=
  { r with entry := { r.entry with pathname := r.entry.pathname.map (placePath root ++ [47] ++ ·) } }

/-- The loop of `bxxt_cpio_archive_in` from a state of the reader, with the number of its iterations. There is none if
its condition is looked at more than `fuel` times. -/
def readLoop (ahead : Bytes → Nat) (root : DiskPlace) :
    Nat → ArchiveRead → WriteDisk → Option (Nat × WriteDisk × Exec Unit)
  | 0, _, _ => none
  | fuel + 1, r, a =>
    match archiveReadNextHeader ahead r with
    | .error fault => some (0, a, .error fault)
    | .ok (ret, r) =>
      if ret = archiveEof then some (0, a, .ok ())
      else
        match bxxtCpioArchiveReadEntry root a r.entry with
        | .error fault => some (1, a, .error fault)
        | .ok (ret, a) =>
          if ret ≠ archiveOk then some (1, a, .ok ())
          else (readLoop ahead root fuel (r.withPath root) a).map fun (count, out) => (count + 1, out)

/-- `bxxt_cpio_archive_in` on the bytes of a ramdisk. -/
def bxxtCpioArchiveInBytes (decode : Bytes → Option Bytes) (ahead : Bytes → Nat) (fuel : Nat) (disk : Disk)
    (path bb : Bytes) :
    Option (Nat × WriteDisk × Exec Int) :=
  match disk.realpath path with
  | none => some (0, newWriteDisk disk, .ok archiveFailed)
  | some root =>
    (readLoop ahead root fuel (archiveReadOpenMemory (decode bb)) (newWriteDisk disk)).map
      fun (count, a, r) => (count, a, r.map fun _ => archiveOk)

end Loop
end Bxxt
