import Bxxt.BootHeader
import Bxxt.Lib.TextScan

/-! How the archive library writes entries of the newc format into a buffer: the states of the
writer, the records of the format, and the memory sink with its limit. -/

namespace Bxxt
open ByteLayout TextScan

def archiveOk : Int := 0
def archiveFailed : Int := -25
def archiveFatal : Int := -30

/-- The gzip filter and the blocking behind it, by the blocks that go to the memory sink. When it
compresses what is not known here: what a piece gives may also come with a later one. -/
structure GzipFilter (σ : Type) where
  opened : σ
  write : σ → Bytes → σ × List Bytes
  close : σ → List Bytes

inductive ArchiveState where
  | header
  | data
  | fatal
  deriving DecidableEq

/-- `struct archive_write`. A block that was refused stays in the filters: whatever is written
later, it is offered again first and refused again. The filter has no state left then. -/
structure ArchiveWrite (σ : Type) where
  filter : Option σ
  written : Bytes
  size : Nat
  state : ArchiveState
  entryBytesRemaining : Nat
  padding : Nat

def archiveWriteOpenMemory {σ : Type} (gzip : GzipFilter σ) (size : Nat) : ArchiveWrite σ where
  filter := some gzip.opened
  written := []
  size := size
  state := .header
  entryBytesRemaining := 0
  padding := 0

def memoryWrite (size : Nat) (written buff : Bytes) : Option Bytes :=
  if size < written.length + buff.length then none else some (written ++ buff)

/-- Blocks that go to the sink one after the other, up to the first that is refused. -/
def memoryWrites (size : Nat) : Bytes → List Bytes → Bytes × Bool
  | written, [] => (written, true)
  | written, block :: blocks =>
    match memoryWrite size written block with
    | none => (written, false)
    | some written => memoryWrites size written blocks

inductive FileType where
  | regular
  | directory
  | symlink
  deriving DecidableEq

/-- `AE_IFREG`, `AE_IFDIR` and `AE_IFLNK`. -/
def FileType.code : FileType → Nat
  | .regular => 0o100000
  | .directory => 0o040000
  | .symlink => 0o120000

/-- The fields of `struct archive_entry` that are ever set to something else than zero. -/
structure ArchiveEntry where
  pathname : Bytes
  size : Nat
  filetype : Option FileType
  perm : Nat
  symlink : Bytes
  nlink : Nat
  ino : Nat

def ArchiveEntry.mode (e : ArchiveEntry) : Nat := (e.filetype.map FileType.code).getD 0 + e.perm

def pad4 (count : Nat) : Nat := (4 - count % 4) % 4

/-- `format_hex`: too large a number gives the largest one. -/
def formatHex (value digits : Nat) : Bytes :=
  let value := min value (16 ^ digits - 1)
  (List.range digits).map fun index => hexDigit (value / 16 ^ (digits - 1 - index) % 16)

def ArchiveEntry.storedSize (e : ArchiveEntry) : Nat := if e.filetype = some .regular then e.size else 0

/-- `c_filesize`: symbolic links get the link as their body. -/
def ArchiveEntry.filesize (e : ArchiveEntry) : Nat := if e.symlink ≠ [] then e.symlink.length else e.storedSize

/-- The header of `write_header`, the path with its NUL and the padding of both. -/
def headerPieces (e : ArchiveEntry) : List Bytes :=
  let pathlength := e.pathname.length + 1
  [ascii "070701" ++ formatHex e.ino 8 ++ formatHex e.mode 8 ++ formatHex 0 8 ++ formatHex 0 8 ++ formatHex e.nlink 8 ++
      formatHex 0 8 ++ formatHex e.filesize 8 ++ formatHex 0 8 ++ formatHex 0 8 ++ formatHex 0 8 ++ formatHex 0 8 ++
      formatHex pathlength 8 ++ formatHex 0 8,
    e.pathname ++ [0],
    List.replicate (pad4 (pathlength + 110)) 0]

def linkPieces (e : ArchiveEntry) : List Bytes := [e.symlink, List.replicate (pad4 e.symlink.length) 0]

def piecesOf (count : Nat) : Nat → Bytes → List Bytes
  | 0, _ => []
  | _ + 1, [] => []
  | fuel + 1, byte :: bytes => (byte :: bytes).take count :: piecesOf count fuel ((byte :: bytes).drop count)

def nullPieces (length : Nat) : List Bytes := piecesOf 1024 length (List.replicate length 0)

def trailerEntry : ArchiveEntry where
  pathname := ascii "TRAILER!!!"
  size := 0
  filetype := none
  perm := 0
  symlink := []
  nlink := 1
  ino := 0

section Writer
variable {σ : Type} (gzip : GzipFilter σ)

def archiveWriteOutput (a : ArchiveWrite σ) (buff : Bytes) : Int × ArchiveWrite σ :=
  if buff = [] then (archiveOk, a)
  else
    match a.filter with
    | none => (archiveFatal, a)
    | some state =>
      let (state, blocks) := gzip.write state buff
      match memoryWrites a.size a.written blocks with
      | (written, true) => (archiveOk, { a with filter := some state, written })
      | (written, false) => (archiveFatal, { a with filter := none, written })

def archiveWriteOutputs (a : ArchiveWrite σ) : List Bytes → Int × ArchiveWrite σ
  | [] => (archiveOk, a)
  | piece :: pieces =>
    let (r, a) := archiveWriteOutput gzip a piece
    if r < archiveOk then (r, a) else archiveWriteOutputs a pieces

def archiveWriteNewcFinishEntry (a : ArchiveWrite σ) : Int × ArchiveWrite σ :=
  archiveWriteOutputs gzip a (nullPieces (a.entryBytesRemaining + a.padding))

def writeHeader (a : ArchiveWrite σ) (e : ArchiveEntry) : Int × ArchiveWrite σ :=
  if 0xffffffff < e.filesize then (archiveFailed, a)
  else
    let (r, a) := archiveWriteOutputs gzip a (headerPieces e)
    if r < archiveOk then (archiveFatal, a)
    else
      let a := { a with entryBytesRemaining := e.storedSize, padding := pad4 e.storedSize }
      archiveWriteOutputs gzip a (linkPieces e)

/-- `archive_write_newc_header`, and the size that the entry has then. -/
def archiveWriteNewcHeader (a : ArchiveWrite σ) (e : ArchiveEntry) : (Int × ArchiveWrite σ) × Nat :=
  if e.filetype = none then ((archiveFailed, a), e.size)
  else if e.pathname = [] then ((archiveFailed, a), e.size)
  else (writeHeader gzip a e, e.storedSize)

def archiveWriteHeader (a : ArchiveWrite σ) (e : ArchiveEntry) : (Int × ArchiveWrite σ) × Nat :=
  if a.state = .fatal then ((archiveFatal, a), e.size)
  else
    let (r, a) := if a.state = .data then archiveWriteNewcFinishEntry gzip a else (archiveOk, a)
    if r < archiveOk then ((archiveFatal, { a with state := .fatal }), e.size)
    else
      let ((r, a), size) := archiveWriteNewcHeader gzip { a with state := .header } e
      if r = archiveFailed then ((archiveFailed, a), size)
      else if r < archiveOk then ((archiveFatal, { a with state := .fatal }), size)
      else ((archiveOk, { a with state := .data }), size)

/-- `archive_write_data`, with the result of the format: the number of bytes it took. -/
def archiveWriteData (a : ArchiveWrite σ) (buff : Bytes) : Int × ArchiveWrite σ :=
  if a.state ≠ .data then (archiveFatal, { a with state := .fatal })
  else
    let buff := buff.take a.entryBytesRemaining
    let (r, a) := archiveWriteOutput gzip a buff
    let a := { a with entryBytesRemaining := a.entryBytesRemaining - buff.length }
    if archiveOk ≤ r then (buff.length, a) else (r, a)

/-- `archive_write_close`: the last entry is finished, the trailer is written and the filters are
closed, each of them whatever the others return. -/
def archiveWriteClose (a : ArchiveWrite σ) : Int × ArchiveWrite σ :=
  let (r, a) := if a.state = .data then archiveWriteNewcFinishEntry gzip a else (archiveOk, a)
  let (r1, a) := writeHeader gzip a trailerEntry
  match a.filter with
  | none => (archiveFatal, a)
  | some state =>
    match memoryWrites a.size a.written (gzip.close state) with
    | (written, true) => (min r r1, { a with filter := none, written })
    | (written, false) => (archiveFatal, { a with filter := none, written })

end Writer
end Bxxt
