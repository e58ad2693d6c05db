import Bxxt.Newc

/-! Packing a directory as a ramdisk. Names are byte strings, and a path is built in a buffer of
`PATH_MAX` bytes. -/

namespace Bxxt
open ByteLayout

def pathMax : Nat := 4096

/-- The target of a symbolic link, as `readlink` gives it. -/
structure LinkTarget where
  bytes : Bytes
  noNul : 0 ∉ bytes
  short : bytes.length < pathMax

/-- What a path names. Devices, pipes and sockets have the size zero. -/
inductive Inode where
  | regular (content : Bytes) (readable : Bool)
  | directory (size : Nat)
  | symlink (target : LinkTarget)
  | other

structure Stat where
  inode : Inode
  perm : Nat

def Inode.stSize : Inode → Nat
  | .regular content _ => content.length
  | .directory size => size
  | .symlink target => target.bytes.length
  | .other => 0

structure Dirent where
  dName : Bytes
  isDir : Bool

/-- The file system as the packer looks at it: only what the four calls answer is known. `follow` is
what reading gives through a path that is not itself a regular file. -/
structure FileSystem where
  realpath : Bytes → Option Bytes
  opendir : Bytes → Option (List Dirent)
  lstat : Bytes → Option Stat
  follow : Bytes → Option Bytes

def FileSystem.read (fs : FileSystem) (path : Bytes) : Option Bytes :=
  match fs.lstat path with
  | some ⟨.regular content readable, _⟩ => if readable then some content else none
  | _ => fs.follow path

/-- `snprintf` of `%s/%s` into a buffer for a path. -/
def joinPath (name dName : Bytes) : Bytes := (name ++ ascii "/" ++ dName).take (pathMax - 1)

section Walk
variable (fs : FileSystem)

/-- `bxxt_tree_walk`: the paths that the function is called with, in order. The stack has room for
this many frames. -/
def bxxtTreeWalk : Nat → Bytes → Exec (List Bytes)
  | 0, _ => .error .stackOverflow
  | frames + 1, name =>
    match fs.opendir name with
    | none => .ok []
    | some entries => do
      let visited ← entries.mapM fun de => do
        let path := joinPath name de.dName
        if de.isDir then
          if de.dName ≠ ascii "." ∧ de.dName ≠ ascii ".." then return (← bxxtTreeWalk frames path) ++ [path]
          else return []
        else return [path]
      return visited.flatten

/-- `bxxt_cpio_archive_guess_buffer_size`, over a whole walk. -/
def archiveSizeGussed (visited : List Bytes) : UInt32 :=
  visited.foldl (fun gussed path =>
    gussed + UInt32.ofNat ((fs.lstat path).elim 0 fun st => st.inode.stSize) + UInt32.ofNat pathMax) 0

end Walk

structure BxxtCpio (σ : Type) where
  path : Bytes
  w : ArchiveWrite σ
  inode : UInt32

/-- The entry of a file, before its header is written. An unknown type is not set. -/
def archiveEntry (aName : Bytes) (st : Stat) (inode : UInt32) : ArchiveEntry where
  pathname := aName
  size := st.inode.stSize
  filetype := match st.inode with
    | .regular _ _ => some .regular
    | .directory _ => some .directory
    | .symlink _ => some .symlink
    | .other => none
  perm := st.perm
  symlink := match st.inode with
    | .symlink target => target.bytes
    | _ => []
  nlink := 1
  ino := inode.toNat

section Archive
variable {σ : Type} (gzip : GzipFilter σ) (fs : FileSystem)

def archiveWriteDatas (a : ArchiveWrite σ) : List Bytes → List Int × ArchiveWrite σ
  | [] => ([], a)
  | piece :: pieces =>
    let (r, a) := archiveWriteData gzip a piece
    let (rs, a) := archiveWriteDatas a pieces
    (r :: rs, a)

/-- `bxxt_cpio_archive_write`, with the results it ignores and its own, which its caller ignores. -/
def bxxtCpioArchiveWrite (cp : BxxtCpio σ) (dName aName : Bytes) : List Int × BxxtCpio σ :=
  match fs.lstat dName with
  | none => ([archiveFailed], cp)
  | some st =>
    let e := archiveEntry aName st cp.inode
    let ((r, w), size) := archiveWriteHeader gzip cp.w e
    let (rs, w) :=
      if size > 0 then
        match fs.read dName with
        | none => ([-1], w)
        | some content => archiveWriteDatas gzip w (piecesOf 4096 content.length content)
      else ([], w)
    (r :: rs ++ [archiveOk], { cp with w, inode := cp.inode + 1 })

/-- `bxxt_cpio_archive_add_file`. The name in the archive is what follows the path of the root. -/
def bxxtCpioArchiveAddFile (cp : BxxtCpio σ) (path : Bytes) : Exec (List Int × BxxtCpio σ) :=
  if path.length ≤ cp.path.length then .error .outOfBounds
  else .ok (bxxtCpioArchiveWrite gzip fs cp path (path.drop (cp.path.length + 1)))

/-- The loop over the sorted paths, from an index on that is an `int`. -/
def addFiles : Nat → BxxtCpio σ → List Bytes → Exec (List Int × BxxtCpio σ)
  | _, cp, [] => .ok ([], cp)
  | i, cp, path :: paths => do
    let (rs, cp) ← bxxtCpioArchiveAddFile gzip fs cp path
    if i = intMax then .error .intOverflow
    else
      let (more, cp) ← addFiles (i + 1) cp paths
      return (rs ++ more, cp)

/-- What `bxxt_cpio_archive_out` leaves behind: its result, the buffer, and every result on the
way that it does not look at. -/
structure ArchiveOut where
  r : Int
  bb : Option Bytes
  ignored : List Int

def comparePaths (first second : Bytes) : Bool := decide (first ≤ second)

/-- `bxxt_cpio_archive_out`. The buffer is resized by an `int`. -/
def bxxtCpioArchiveOut (frames : Nat) (path : Bytes) : Exec ArchiveOut :=
  match fs.realpath path with
  | none => .ok ⟨archiveFailed, none, []⟩
  | some rpath => do
    let visited ← bxxtTreeWalk fs frames rpath
    let size := (archiveSizeGussed fs visited).toNat
    let cp : BxxtCpio σ := ⟨rpath, archiveWriteOpenMemory gzip size, 300000⟩
    let (ignored, cp) ← addFiles gzip fs 0 cp (visited.mergeSort comparePaths)
    let (r, w) := archiveWriteClose gzip cp.w
    let buffer := w.written ++ List.replicate (size - w.written.length) 0
    return ⟨archiveOk, bxxtBufferResize buffer (asInt (w.written.length - size)), ignored ++ [r]⟩

end Archive
end Bxxt
