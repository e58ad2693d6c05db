import Bxxt.WriteDisk

/-! Unpacking a ramdisk (`cpio.c`), from the headers that the reader decodes up to its end. -/

namespace Bxxt
open ByteLayout DirTree

structure CpioHeader where
  pathname : Option Bytes
  filetype : EntryType
  symlink : Bytes
  dev : Nat
  ino : Nat
  nlink : Nat
  size : Nat
  blocks : List Bytes

structure LinksEntry where
  name : Bytes
  dev : Nat
  ino : Nat
  links : Nat

/-- `record_hardlink`: a file with more names becomes a link to its first one, as that is in the archive. -/
def recordHardlink (links : List LinksEntry) (h : CpioHeader) : Exec (Option Bytes × List LinksEntry) :=
  if h.nlink ≤ 1 then .ok (none, links)
  else
    match links.findIdx? fun le => le.dev = h.dev ∧ le.ino = h.ino with
    | some i =>
      match links[i]? with
      | none => .error .outOfBounds
      | some le =>
        let links := if le.links - 1 = 0 then links.eraseIdx i else links.set i { le with links := le.links - 1 }
        .ok (some le.name, links)
    | none =>
      match h.pathname with
      | none => .error .nullPointer
      | some name => .ok (none, ⟨name, h.dev, h.ino, h.nlink - 1⟩ :: links)

def CpioHeader.entry (h : CpioHeader) (hardlink : Option Bytes) : ReadEntry :=
  ⟨h.pathname, h.filetype, h.symlink, hardlink, h.size, h.blocks⟩

/-- `realpath`, which does not take an empty path for the working directory. -/
def Disk.realpath (d : Disk) (path : Bytes) : Option DiskPlace :=
  if path = [] then none
  else
    match d.resolve (if isAbsolute path then [] else d.cwd) (partsOf path) with
    | .ok place => some place
    | .error _ => none

/-- `bxxt_cpio_archive_read_entry`. The name goes behind the path of the root, into a buffer of `PATH_MAX`. -/
def bxxtCpioArchiveReadEntry (root : DiskPlace) (a : WriteDisk) (e : ReadEntry) : Exec (Int × WriteDisk) :=
  match e.pathname with
  | none => .ok (archiveFailed, a)
  | some pathname =>
    if pathMax ≤ pathLength root + 1 + pathname.length then .error .stackOverflow
    else .ok (archiveOk, ((a.writeHeader e (root.map .name ++ partsOf pathname)).writeBlocks e.blocks).finishEntry)

/-- The loop over the headers. What a run has done before it goes wrong is kept. -/
def readEntries (root : DiskPlace) : List LinksEntry → WriteDisk → List CpioHeader → WriteDisk × Exec Unit
  | _, a, [] => (a, .ok ())
  | links, a, h :: rest =>
    match recordHardlink links h with
    | .error fault => (a, .error fault)
    | .ok (hardlink, links) =>
      match bxxtCpioArchiveReadEntry root a (h.entry hardlink) with
      | .error fault => (a, .error fault)
      | .ok (r, a) => if r ≠ archiveOk then (a, .ok ()) else readEntries root links a rest

def newWriteDisk (disk : Disk) : WriteDisk := ⟨disk, [], .header, none, 0, 0⟩

def bxxtCpioArchiveIn (disk : Disk) (path : Bytes) (headers : List CpioHeader) : WriteDisk × Exec Int :=
  match disk.realpath path with
  | none => (newWriteDisk disk, .ok archiveFailed)
  | some root =>
    let (a, r) := readEntries root [] (newWriteDisk disk) headers
    (a, r.map fun _ => archiveOk)

/-- The entries of a run, each with the disk that it finds. What a run is asked to respect is said
of these steps, since every entry may change what the next one meets. -/
def readSteps (root : DiskPlace) : List LinksEntry → WriteDisk → List CpioHeader → List (Disk × ReadEntry)
  | _, _, [] => []
  | links, a, h :: rest =>
    match recordHardlink links h with
    | .error _ => []
    | .ok (hardlink, links) =>
      (a.disk, h.entry hardlink) ::
        match bxxtCpioArchiveReadEntry root a (h.entry hardlink) with
        | .error _ => []
        | .ok (r, a) => if r ≠ archiveOk then [] else readSteps root links a rest

end Bxxt
