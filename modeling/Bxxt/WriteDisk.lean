import Bxxt.Cpio
import Bxxt.Lib.DirTree

/-! The disk, and how `archive_write_disk` puts an entry on it (`archive_write_disk_posix.c`) with the
two flags that are set here, for times and permissions. Neither of these is kept. No call is refused
for want of rights or room. -/

namespace Bxxt
open ByteLayout DirTree

/-- Regular files are kept by their inodes. A special file is a device or a pipe. -/
inductive DiskLeaf where
  | regular (ino : Nat)
  | special
  deriving DecidableEq

abbrev DiskPlace := Place Bytes
abbrev DiskPath := List (PathPart Bytes)
abbrev DiskObject := Object Bytes DiskLeaf

inductive Errno where
  | enoent
  | enotdir
  | eexist
  | eisdir
  | enotempty
  | eloop
  | eperm
  deriving DecidableEq

def Errno.ofWalk : WalkError → Errno
  | .missing => enoent
  | .notDir => enotdir
  | .loop => eloop

/-- `content` is what is in an inode, and `inodes` the first that is not in use. -/
structure Disk where
  objects : List (DiskPlace × DiskObject)
  content : Nat → Bytes
  inodes : Nat
  cwd : DiskPlace

section Paths

def partOf (text : Bytes) : PathPart Bytes :=
  if text = [] ∨ text = ascii "." then .here else if text = ascii ".." then .up else .name text

def partsOf (path : Bytes) : DiskPath := (path.splitOn 47).map partOf

def isAbsolute (path : Bytes) : Bool := List.head? path == some 47

/-- `cleanup_pathname`, which keeps the steps up. -/
def cleanupPathname (path : DiskPath) : DiskPath := path.filter (· ≠ .here)

def archiveWarn : Int := -20

def placePath (place : DiskPlace) : Bytes := if place = [] then [47] else place.flatMap fun name => 47 :: name

def pathLength (place : DiskPlace) : Nat := (placePath place).length

end Paths

namespace Disk
variable (d : Disk)

def find (place : DiskPlace) : Option DiskObject :=
  if place = [] then some .dir else (d.objects.find? fun item => item.1 = place).map Prod.snd

def put (place : DiskPlace) (object : DiskObject) : Disk :=
  { d with objects := (place, object) :: d.objects.filter fun item => item.1 ≠ place }

def remove (place : DiskPlace) : Disk := { d with objects := d.objects.filter fun item => item.1 ≠ place }

def isEmpty (place : DiskPlace) : Bool := d.objects.all fun item => item.1.dropLast ≠ place ∨ item.1 = []

/-- How many links a path may lead through. -/
def maxLinks : Nat := 40

def resolve (base : DiskPlace) (path : DiskPath) : Except Errno DiskPlace :=
  (walk d.find maxLinks base path).mapError Errno.ofWalk

/-- The place that the last part of a path names in its directory, if it names one. -/
def locate (base : DiskPlace) (path : DiskPath) : Except Errno (Option DiskPlace) :=
  match path.getLast? with
  | none => .ok none
  | some part => do
    let place ← d.resolve base path.dropLast
    if isDir d.find place then
      match part with
      | .name name => .ok (some (place ++ [name]))
      | .here | .up => .ok none
    else .error .enotdir

/-- `mkdir`, `mknod`, `mkfifo`, and `symlink` with a target: a new object, not through a link. -/
def create (path : DiskPath) (object : DiskObject) : Except Errno (DiskPlace × Disk) := do
  match ← d.locate [] path with
  | none => .error .eexist
  | some place => if (d.find place).isSome then .error .eexist else .ok (place, d.put place object)

def symlink (target : Bytes) (path : DiskPath) : Except Errno (DiskPlace × Disk) :=
  if target = [] then .error .enoent else d.create path (.link (isAbsolute target) (partsOf target))

/-- `open` with `O_CREAT` and `O_EXCL`, which gives a new inode. -/
def openExcl (path : DiskPath) : Except Errno (DiskPlace × Disk) := do
  let (place, d) ← d.create path (.leaf (.regular d.inodes))
  .ok (place, { d with content := Function.update d.content d.inodes [], inodes := d.inodes + 1 })

def object (place : DiskPlace) : Except Errno DiskObject :=
  match d.find place with
  | some object => .ok object
  | none => .error .enoent

/-- `link`: the place of the old name and that of the new one. Only what is there under the old name comes before the
faults of the new one, and that it is a directory comes behind them. -/
def link (linkname : Bytes) (path : DiskPath) : Except Errno (DiskPlace × DiskPlace × Disk) := do
  match ← d.locate (if isAbsolute linkname then [] else d.cwd) (partsOf linkname) with
  | none => do
    let _ ← d.create path .dir
    .error .eperm
  | some source =>
    let object ← d.object source
    let (place, d) ← d.create path object
    if object = .dir then .error .eperm else .ok (source, place, d)

def unlink (path : DiskPath) : Except Errno Disk := do
  match ← d.locate [] path with
  | none => .error .eisdir
  | some place =>
    match d.find place with
    | none => .error .enoent
    | some .dir => .error .eisdir
    | some _ => .ok (d.remove place)

def rmdir (path : DiskPath) : Except Errno Disk := do
  match ← d.locate [] path with
  | none => .error .enotempty
  | some place =>
    match d.find place with
    | none => .error .enoent
    | some .dir => if d.isEmpty place then .ok (d.remove place) else .error .enotempty
    | some _ => .error .enotdir

/-- `stat`, of which only the type is looked at. -/
def stat (path : DiskPath) : Except Errno DiskObject := do d.object (← d.resolve [] path)

def lstat (path : DiskPath) : Except Errno DiskObject := do
  match ← d.locate [] path with
  | none => .ok .dir
  | some place => d.object place

end Disk

/-- The types of entries. Whatever is no other type is written as a regular file. -/
inductive EntryType where
  | regular
  | directory
  | symlink
  | special
  deriving DecidableEq

structure ReadEntry where
  pathname : Option Bytes
  filetype : EntryType
  symlink : Bytes
  hardlink : Option Bytes
  size : Nat
  blocks : List Bytes

inductive DiskEvent where
  | created (place : DiskPlace)
  | overwrote (place : DiskPlace)
  deriving DecidableEq

def DiskEvent.place : DiskEvent → DiskPlace
  | created place => place
  | overwrote place => place

inductive WriteState where
  | header
  | data
  | fatal
  deriving DecidableEq

/-- `struct archive_write_disk`, with the disk and what was done to it. -/
structure WriteDisk where
  disk : Disk
  made : List DiskEvent
  state : WriteState
  fd : Option Nat
  filesize : Nat
  offset : Nat

namespace WriteDisk
variable (a : WriteDisk)

def creates (made : DiskPlace × Disk) : WriteDisk := { a with disk := made.2, made := a.made ++ [.created made.1] }

/-- `check_symlinks_fsobj` without its flags, from the directory that was reached: a link at the end of a path
is removed, and one before leads to a directory. -/
def checkSymlinks (d : Disk) : DiskPlace → DiskPath → Except Errno Disk
  | _, [] => .ok d
  | base, part :: rest =>
    match part with
    | .here => checkSymlinks d base rest
    | .up => checkSymlinks d base.dropLast rest
    | .name name =>
      match d.find (base ++ [name]) with
      | none => .ok d
      | some .dir => checkSymlinks d (base ++ [name]) rest
      | some (.leaf _) => if rest = [] then .ok d else .error .eperm
      | some (.link _ _) =>
        if rest = [] then .ok (d.remove (base ++ [name]))
        else
          match d.resolve base [.name name] with
          | .error .enoent => .ok d
          | .error _ => .error .eperm
          | .ok place => if isDir d.find place then checkSymlinks d place rest else .error .eperm

/-- A hard link of an entry, and the file opened anew where the entry has data. -/
def createHardlink (linkname : Bytes) (size : Nat) (path : DiskPath) : Option Errno × WriteDisk :=
  if linkname = [] then (some .eperm, a)
  else
    match checkSymlinks a.disk (if isAbsolute linkname then [] else a.disk.cwd)
      (cleanupPathname (partsOf linkname)) with
    | .error en => (some en, a)
    | .ok disk =>
      let a := { a with disk }
      match disk.link linkname path with
      | .error en => (some en, a)
      | .ok (source, place, disk) =>
        let a := a.creates (place, disk)
        match disk.find place with
        | some (.leaf (.regular ino)) =>
          if size = 0 then (none, a)
          else
            (none, { a with
              disk := { disk with content := Function.update disk.content ino [] }
              made := a.made ++ [.overwrote source]
              fd := some ino })
        | _ => (none, a)

def createFilesystemObject (e : ReadEntry) (path : DiskPath) : Option Errno × WriteDisk :=
  match e.hardlink with
  | some linkname => a.createHardlink linkname e.size path
  | none =>
    let made := match e.filetype with
      | .symlink => a.disk.symlink e.symlink path
      | .directory => a.disk.create path .dir
      | .special => a.disk.create path (.leaf .special)
      | .regular => a.disk.openExcl path
    match made with
    | .error en => (some en, a)
    | .ok made => (none, { a.creates made with fd := if e.filetype = .regular then some a.disk.inodes else none })

/-- The end of `create_dir`: the directory itself, unless it has come there by a step up. -/
def makeDir (path : DiskPath) : Int × WriteDisk :=
  match a.disk.create path .dir with
  | .ok made => (archiveOk, a.creates made)
  | .error _ =>
    match a.disk.stat path with
    | .ok .dir => (archiveOk, a)
    | _ => (archiveFailed, a)

/-- `create_dir`, for a path from its end. A file in the way is removed. -/
def createDir : WriteDisk → DiskPath → Int × WriteDisk
  | a, [] => (archiveOk, a)
  | a, .here :: rest | a, .up :: rest => createDir a rest
  | a, .name name :: rest =>
    let path := (.name name :: rest).reverse
    match a.disk.stat path with
    | .ok .dir => (archiveOk, a)
    | .ok _ =>
      match a.disk.unlink path with
      | .error _ => (archiveFailed, a)
      | .ok disk => makeDir { a with disk } path
    | .error .enoent | .error .enotdir =>
      let (r, a) := createDir a rest
      if r ≠ archiveOk then (r, a) else a.makeDir path
    | .error _ => (archiveFailed, a)

def createParentDir (path : DiskPath) : WriteDisk := (a.createDir path.reverse.tail).2

/-- What is in the way of an entry, as `restore_entry` looks at it: through a link for a directory. -/
def inTheWay (e : ReadEntry) (path : DiskPath) : Except Errno DiskObject :=
  if e.filetype = .directory then
    match a.disk.stat path with
    | .ok object => .ok object
    | .error _ => a.disk.lstat path
  else a.disk.lstat path

/-- An object in the way is removed, and the entry is tried once more. -/
def replaceWith (e : ReadEntry) (path : DiskPath) (removed : Except Errno Disk) : Int × WriteDisk :=
  match removed with
  | .error _ => (archiveFailed, a)
  | .ok disk =>
    match createFilesystemObject { a with disk } e path with
    | (none, a) => (archiveOk, a)
    | (some _, a) => (archiveFailed, a)

def createWithParent (e : ReadEntry) (path : DiskPath) : Option Errno × WriteDisk :=
  let (en, a) := a.createFilesystemObject e path
  if en = some .enotdir ∨ en = some .enoent then (a.createParentDir path).createFilesystemObject e path else (en, a)

def restoreEntry (e : ReadEntry) (path : DiskPath) : Int × WriteDisk :=
  match a.createWithParent e path with
  | (none, a) => (archiveOk, a)
  | (some .eisdir, a) => a.replaceWith e path (a.disk.rmdir path)
  | (some .eexist, a) =>
    match a.inTheWay e path with
    | .error _ => (archiveFailed, a)
    | .ok .dir =>
      if e.filetype = .directory then (archiveOk, a) else a.replaceWith e path (a.disk.rmdir path)
    | .ok _ => a.replaceWith e path (a.disk.unlink path)
  | (some _, a) => (archiveFailed, a)

/-- `_archive_write_disk_header`, whose result nobody looks at. -/
def writeHeader (e : ReadEntry) (path : DiskPath) : WriteDisk :=
  if a.state = .fatal then a
  else
    let (r, a) := { a with fd := none, offset := 0, filesize := e.size }.restoreEntry e (cleanupPathname path)
    let a := if r = archiveOk then { a with state := .data } else a
    if a.fd = none then { a with filesize := 0 } else a

/-- `archive_write_data_block`. Where there is nothing to write to, the disk is given up for good. -/
def writeDataBlock (buff : Bytes) : Int × WriteDisk :=
  if a.state ≠ .data then (archiveFatal, { a with state := .fatal })
  else
    match a.fd with
    | none => (if buff = [] then archiveOk else archiveWarn, a)
    | some ino =>
      let written := buff.take (a.filesize - a.offset)
      let content := Function.update a.disk.content ino (a.disk.content ino ++ written)
      (if written.length < buff.length then archiveWarn else archiveOk,
        { a with disk := { a.disk with content }, offset := a.offset + written.length })

def writeBlocks : WriteDisk → List Bytes → WriteDisk
  | a, [] => a
  | a, buff :: rest =>
    let (r, a) := a.writeDataBlock buff
    if r < archiveOk then a else writeBlocks a rest

/-- `archive_write_finish_entry`. A file that is too short is filled up with zeros. -/
def finishEntry : WriteDisk :=
  match a.state, a.fd with
  | .data, some ino =>
    let content := Function.update a.disk.content ino (a.disk.content ino ++ List.replicate (a.filesize - a.offset) 0)
    { a with disk := { a.disk with content }, fd := none, state := .header }
  | .data, none => { a with state := .header }
  | .header, _ | .fatal, _ => a

end WriteDisk
end Bxxt
