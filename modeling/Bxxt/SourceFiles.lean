import Bxxt.Metadata
import Bxxt.LiveTree

/-! The files of a device tree source: `srcpos.c`, as far as it finds and opens them, and what `data.c` copies out of
them. Nothing is added to the search path in this program. -/

namespace Bxxt
open ByteLayout

structure SourceFiles where
  fopen : Bytes → Option Bytes
  stdin : Bytes

def SourceFiles.joinPath (path name : Bytes) : Bytes :=
  if path.getLast? = some slash then path ++ name else path ++ slash :: name

/-- `try_open`, in the directory of the file that is being read. -/
def fullName (dirname : Option Bytes) (fname : Bytes) : Bytes :=
  match dirname with
  | none => fname
  | some dirname => if fname.head? = some slash then fname else SourceFiles.joinPath dirname fname

/-- The name and the content. What cannot be opened ends the program. -/
def srcfileRelativeOpen (files : SourceFiles) (dirname : Option Bytes) (fname : Bytes) : Exec (Bytes × Bytes) :=
  if fname = ascii "-" then .ok (ascii "<stdin>", files.stdin)
  else
    match files.fopen (fullName dirname fname) with
    | none => .error .exited
    | some content => .ok (fullName dirname fname, content)

section Copies

/-- The loop of `data_copy_file` without a limit. A short read is the last one. -/
def copyChunks (content : Bytes) : Nat → Data → Exec Data
  | 0, d => .ok d
  | fuel + 1, d => do
    dataGrowFor d 4096
    let chunk := (content.drop d.val.length).take 4096
    let d := { d with val := d.val ++ chunk }
    if chunk.length < 4096 then return d else copyChunks content fuel d

/-- A limit is an `int` where the buffer is made, and a `size_t` where it is filled. -/
def dataCopyFile (content : Bytes) (maxlen : Nat) : Exec Data :=
  if maxlen = 2 ^ 64 - 1 then copyChunks content (content.length / 4096 + 1) emptyData
  else if maxlen = 0 then .ok emptyData
  else if asInt maxlen < 0 then .error .exited
  else if asInt maxlen < (content.take maxlen).length then .error .outOfBounds
  else .ok ⟨content.take maxlen, []⟩

/-- `fseek`, to a place that is a `long`. -/
def seekFrom (content : Bytes) (offset : Nat) : Exec Bytes :=
  if 2 ^ 63 ≤ offset then .error .exited else .ok (content.drop offset)

end Copies
end Bxxt
