import Bxxt.LiveTree

/-! `flattree.c`: a live tree is written as a blob, and a blob in memory is read back. -/

namespace Bxxt
open ByteLayout BlobBytes SiblingTree

section Format

def fdtMagicWord : Nat := 0xd00dfeed
def fdtBeginNode : Nat := 1
def fdtEndNode : Nat := 2
def fdtProp : Nat := 3
def fdtNop : Nat := 4
def fdtEnd : Nat := 9

structure FormatFlags where
  fullpath : Bool
  varalign : Bool
  nameprops : Bool
  bootcpuid : Bool
  strtabsize : Bool
  structsize : Bool
  nops : Bool
  deriving DecidableEq

structure VersionInfo where
  version : Nat
  lastCompVersion : Nat
  hdrSize : Nat
  flags : FormatFlags
  deriving DecidableEq

def versionTable : List VersionInfo := [
  ⟨1, 1, 28, ⟨true, true, true, false, false, false, false⟩⟩,
  ⟨2, 1, 32, ⟨true, true, true, true, false, false, false⟩⟩,
  ⟨3, 1, 36, ⟨true, true, true, true, true, false, false⟩⟩,
  ⟨16, 16, 36, ⟨false, false, false, true, true, false, true⟩⟩,
  ⟨17, 16, 40, ⟨false, false, false, true, true, true, true⟩⟩]

def defaultFdtVersion : Nat := 17

end Format
section Write
variable (vi : VersionInfo)

structure Buffers where
  dtbuf : Data
  strbuf : Data

def binEmitCell (e : Data) (val : Nat) : Exec Data := dataAppendCell e val

/-- A length of 0 stands for the whole string. -/
def binEmitString (e : Data) (str : Bytes) (len : Nat) : Exec Data := do
  let e ← dataAppendData e (if len = 0 then str else str.take len)
  dataAppendByte e 0

def binEmitAlign (e : Data) (align : Nat) : Exec Data := dataAppendAlign e align

def binEmitData (e : Data) (d : Data) : Exec Data := dataAppendData e d.val

def stringtableInsert (d : Data) (str : Bytes) : Exec (Nat × Data) :=
  match findString d.val str with
  | some offset => .ok (offset, d)
  | none => do return (d.val.length, ← dataAppendData d (str ++ [0]))

def flattenProperty (buffers : Buffers) (prop : Property) : Exec Buffers := do
  let (nameoff, strbuf) ← stringtableInsert buffers.strbuf prop.name
  let e ← binEmitCell buffers.dtbuf fdtProp
  let e ← binEmitCell e prop.val.val.length
  let e ← binEmitCell e nameoff
  let e ← if vi.flags.varalign ∧ 8 ≤ prop.val.val.length then binEmitAlign e 8 else pure e
  let e ← binEmitData e prop.val
  return ⟨← binEmitAlign e 4, strbuf⟩

/-- The property that older versions have a node's name in. -/
def flattenName (buffers : Buffers) (info : NodeInfo) : Exec Buffers := do
  let e ← binEmitCell buffers.dtbuf fdtProp
  let e ← binEmitCell e (info.basenamelen + 1)
  let (nameoff, strbuf) ← stringtableInsert buffers.strbuf (ascii "name")
  let e ← binEmitCell e nameoff
  let e ← if vi.flags.varalign ∧ 8 ≤ info.basenamelen + 1 then binEmitAlign e 8 else pure e
  let e ← binEmitString e info.name info.basenamelen
  return ⟨← binEmitAlign e 4, strbuf⟩

def liveProps (info : NodeInfo) : List Property := info.proplist.filter fun prop => !prop.deleted

/-- `flatten_tree` up to the children. -/
def flattenOwn (buffers : Buffers) (info : NodeInfo) : Exec Buffers := do
  let e ← binEmitCell buffers.dtbuf fdtBeginNode
  let e ← if vi.flags.fullpath then
      match info.fullpath with
      | none => throw .nullPointer
      | some fullpath => binEmitString e fullpath 0
    else binEmitString e info.name 0
  let e ← binEmitAlign e 4
  let buffers ← (liveProps info).foldlM (flattenProperty vi) { buffers with dtbuf := e }
  if vi.flags.nameprops ∧ ¬ (liveProps info).any (fun prop => prop.name = ascii "name") then
    flattenName vi buffers info
  else return buffers

def flattenChildren : Nodes → Buffers → Exec Buffers
  | .nil, buffers => .ok buffers
  | .node info children next, buffers =>
    if info.deleted then flattenChildren next buffers
    else do
      let buffers ← flattenOwn vi buffers info
      let buffers ← flattenChildren children buffers
      let e ← binEmitCell buffers.dtbuf fdtEndNode
      flattenChildren next { buffers with dtbuf := e }

def flattenTree (tree : Node) (buffers : Buffers) : Exec Buffers :=
  if tree.value.deleted then .ok buffers
  else do
    let buffers ← flattenOwn vi buffers tree.value
    let buffers ← flattenChildren vi tree.children buffers
    return { buffers with dtbuf := ← binEmitCell buffers.dtbuf fdtEndNode }

def dataAppendRe (d : Data) (re : ReserveInfo) : Exec Data :=
  dataAppendData d (beBytes 8 re.address.toNat ++ beBytes 8 re.size.toNat)

/-- `reservenum` is 0 in this program. -/
def flattenReserveList (reservelist : List ReserveInfo) : Exec Data := reservelist.foldlM dataAppendRe emptyData

/-- A field that the version does not have is filled with ones. -/
def makeFdtHeader (reservesize dtsize strsize : Nat) (bootCpuidPhys : UInt32) : Exec Bytes :=
  let reservesize := reservesize + 16
  let reserveOff := PagedBytes.roundUp 8 vi.hdrSize
  if intMax < reserveOff + reservesize + dtsize + strsize then .error .intOverflow
  else
    let field (present : Bool) (value : Nat) : Bytes := beBytes 4 (if present then value else 2 ^ 32 - 1)
    .ok (beBytes 4 fdtMagicWord ++ beBytes 4 (reserveOff + reservesize + dtsize + strsize) ++
      beBytes 4 (reserveOff + reservesize) ++ beBytes 4 (reserveOff + reservesize + dtsize) ++
      beBytes 4 reserveOff ++ beBytes 4 vi.version ++ beBytes 4 vi.lastCompVersion ++
      field vi.flags.bootcpuid bootCpuidPhys.toNat ++ field vi.flags.strtabsize strsize ++
      field vi.flags.structsize dtsize)

/-- The sizes that a user could ask for, `minsize`, `padsize` and `alignsize`, are 0 in this program. -/
def dtToMem (dti : DtInfo) (version : Nat) : Exec Bytes :=
  match versionTable.find? fun vi => vi.version = version with
  | none => .error .exited
  | some vi => do
    let buffers ← flattenTree vi dti.dt ⟨emptyData, emptyData⟩
    let dtbuf ← binEmitCell buffers.dtbuf fdtEnd
    let reservebuf ← flattenReserveList dti.reservelist
    let fdt ← makeFdtHeader vi reservebuf.val.length dtbuf.val.length buffers.strbuf.val.length dti.bootCpuidPhys
    let blob ← dataAppendData emptyData (fdt.take vi.hdrSize)
    let blob ← dataAppendAlign blob 8
    let blob ← dataMerge blob reservebuf
    let blob ← dataAppendZeroes blob 16
    let blob ← dataMerge blob dtbuf
    let blob ← dataMerge blob buffers.strbuf
    return blob.val

end Write
section Read
variable (mem : Region)

/-- The pointers are offsets into the memory. -/
structure Inbuf where
  base : Nat
  limit : Nat
  ptr : Nat

def inbufInit (base limit : Nat) : Inbuf := ⟨base, limit, base⟩

def flatReadChunk (inb : Inbuf) (len : Nat) : Exec (Bytes × Inbuf) :=
  if inb.limit < inb.ptr + len then .error .exited
  else do return (← mem.slice inb.ptr len, { inb with ptr := inb.ptr + len })

def flatReadWord (inb : Inbuf) : Exec (Nat × Inbuf) :=
  if (inb.ptr - inb.base) % 4 ≠ 0 then .error .exited
  else do
    let (val, inb) ← flatReadChunk mem inb 4
    return (beValue val, inb)

/-- The offset is an `int`. Behind 2 ^ 31 it would lead in front of the memory. -/
def flatRealign (inb : Inbuf) (align : Nat) : Exec Inbuf :=
  let off := inb.ptr - inb.base
  if intMax < off + align - 1 then .error .intOverflow
  else
    let ptr := inb.base + PagedBytes.roundUp align off
    if inb.limit < ptr then .error .exited else .ok { inb with ptr }

def scanString : Nat → Nat → Exec Bytes
  | 0, _ => .error .exited
  | room + 1, p => do
    let byte ← mem.load p
    if byte = 0 then return [] else return byte :: (← scanString room (p + 1))

def flatReadString (inb : Inbuf) : Exec (Bytes × Inbuf) := do
  let str ← scanString mem (inb.limit - inb.ptr) inb.ptr
  return (str, ← flatRealign { inb with ptr := inb.ptr + str.length + 1 } 4)

/-- A length that is no `int` asks for more memory than there is. -/
def flatReadData (inb : Inbuf) (len : Nat) : Exec (Data × Inbuf) :=
  if len = 0 then .ok (emptyData, inb)
  else if intMax < len then .error .exited
  else do
    let (val, inb) ← flatReadChunk mem inb len
    return (⟨val, []⟩, ← flatRealign inb 4)

/-- An offset that is no `int` leads in front of the table. -/
def flatReadStringtable (inb : Inbuf) (offset : Nat) : Exec Bytes :=
  if intMax < offset then .error .exited else scanString mem (inb.limit - (inb.base + offset)) (inb.base + offset)

def flatReadProperty (dtbuf strbuf : Inbuf) (flags : FormatFlags) : Exec (Property × Inbuf) := do
  let (proplen, dtbuf) ← flatReadWord mem dtbuf
  let (stroff, dtbuf) ← flatReadWord mem dtbuf
  let name ← flatReadStringtable mem strbuf stroff
  let dtbuf ← if flags.varalign ∧ 8 ≤ proplen then flatRealign dtbuf 8 else pure dtbuf
  let (val, dtbuf) ← flatReadData mem dtbuf proplen
  return (buildProperty name val, dtbuf)

/-- The list ends at an entry of size 0. Each of them takes some of the memory. -/
def flatReadMemReserve : Nat → Inbuf → Exec (List ReserveInfo)
  | 0, _ => .error .exited
  | fuel + 1, inb => do
    let (re, inb) ← flatReadChunk mem inb 16
    let entry : ReserveInfo := ⟨UInt64.ofNat (beValue (re.take 8)), UInt64.ofNat (beValue (re.drop 8))⟩
    if entry.size = 0 then return [] else return entry :: (← flatReadMemReserve fuel inb)

/-- What is copied starts behind the parent's path and its slash. -/
def nodenameFromPath (ppath cpath : Bytes) : Exec Bytes :=
  if ppath <+: cpath then
    let plen := if ppath = [slash] then ppath.length else ppath.length + 1
    if cpath.length < plen then .error .outOfBounds else .ok (cpath.drop plen)
  else .error .exited

/-- The start of `unflatten_tree`: the node, with the name that is written in the blob. -/
def openNode (flags : FormatFlags) (parentFlatname : Bytes) (dtbuf : Inbuf) : Exec (Node × Bytes × Inbuf) := do
  let (flatname, dtbuf) ← flatReadString mem dtbuf
  let name ← if flags.fullpath then nodenameFromPath parentFlatname flatname else pure flatname
  return (nameNode (buildNode [] .nil) name, flatname, dtbuf)

/-- The loop of `unflatten_tree`. Each word takes some of the memory. -/
def unflattenLoop (strbuf : Inbuf) (flags : FormatFlags) : Nat → Bytes → Node → Inbuf → Exec (Node × Inbuf)
  | 0, _, _, _ => .error .exited
  | fuel + 1, flatname, node, dtbuf => do
    let (val, dtbuf) ← flatReadWord mem dtbuf
    if val = fdtProp then
      let (prop, dtbuf) ← flatReadProperty mem dtbuf strbuf flags
      unflattenLoop strbuf flags fuel flatname { node with value := addProperty node.value prop } dtbuf
    else if val = fdtBeginNode then
      let (child, childFlatname, dtbuf) ← openNode mem flags flatname dtbuf
      let (child, dtbuf) ← unflattenLoop strbuf flags fuel childFlatname child dtbuf
      unflattenLoop strbuf flags fuel flatname (addChild node child) dtbuf
    else if val = fdtEndNode then return (node, dtbuf)
    else if val = fdtNop then unflattenLoop strbuf flags fuel flatname node dtbuf
    else throw .exited

def unflattenTree (strbuf : Inbuf) (parentFlatname : Bytes) (flags : FormatFlags) (dtbuf : Inbuf) :
    Exec (Node × Inbuf) := do
  let (node, flatname, dtbuf) ← openNode mem flags parentFlatname dtbuf
  unflattenLoop mem strbuf flags (mem.mapped.length + 1) flatname node dtbuf

def readFlags (version : Nat) : FormatFlags :=
  if version < 16 then ⟨true, true, true, false, false, false, false⟩
  else ⟨false, false, false, false, false, false, true⟩

def fdtField (index : Nat) : Exec Nat := do return beValue (← mem.slice (4 * index) 4)

def dtFromMem : Exec DtInfo := do
  let totalsize ← fdtField mem 1
  let offDt ← fdtField mem 2
  let offStr ← fdtField mem 3
  let offMemRsvmap ← fdtField mem 4
  let bootCpuidPhys ← fdtField mem 7
  let version ← fdtField mem 5
  let limit ← if 3 ≤ version then do
      let sizeStr ← fdtField mem 8
      pure (offStr + sizeStr)
    else pure totalsize
  let strbuf := inbufInit offStr limit
  let flags := readFlags version
  let reservelist ← flatReadMemReserve mem (totalsize + 1) (inbufInit offMemRsvmap totalsize)
  let (ret, dtbuf) ← flatReadWord mem (inbufInit offDt totalsize)
  if ret ≠ fdtBeginNode then throw .exited
  let (tree, dtbuf) ← unflattenTree mem strbuf [] flags dtbuf
  let (ret, _) ← flatReadWord mem dtbuf
  if ret ≠ fdtEnd then throw .exited
  return ⟨dtsfV1, reservelist, tree, UInt32.ofNat bootCpuidPhys⟩

end Read
section File

def fdtV1Size : Nat := 7 * 4

/-- A range that ends behind the blob, or behind 2 ^ 32. -/
def pastTotalSize (totalsize off size : Nat) : Prop := (off + size) % 2 ^ 32 < off ∨ totalsize < (off + size) % 2 ^ 32

instance (totalsize off size : Nat) : Decidable (pastTotalSize totalsize off size) :=
  inferInstanceAs (Decidable ((off + size) % 2 ^ 32 < off ∨ totalsize < (off + size) % 2 ^ 32))

/-- `dt_from_blob`, of a file that can be read. What is behind the blob in its file is not read. -/
def dtFromBlob (content : Bytes) : Exec DtInfo := do
  if content.length < 4 then throw .exited
  if beValue (content.take 4) ≠ fdtMagicWord then throw .exited
  if content.length < 8 then throw .exited
  let totalsize := beValue ((content.drop 4).take 4)
  if totalsize < fdtV1Size then throw .exited
  if content.length < totalsize then throw .exited
  let mem := Region.ofBuffer (content.take totalsize)
  let offDt ← fdtField mem 2
  let offStr ← fdtField mem 3
  let offMemRsvmap ← fdtField mem 4
  let version ← fdtField mem 5
  let bootCpuidPhys ← fdtField mem 7
  if totalsize ≤ offMemRsvmap then throw .exited
  if totalsize ≤ offDt then throw .exited
  if totalsize < offStr then throw .exited
  let limit ← if 3 ≤ version then do
      let sizeStr ← fdtField mem 8
      if pastTotalSize totalsize offStr sizeStr then throw .exited
      pure (offStr + sizeStr)
    else pure totalsize
  let strbuf := inbufInit offStr limit
  if 17 ≤ version then do
    let sizeDt ← fdtField mem 9
    if pastTotalSize totalsize offDt sizeDt then throw .exited
  let flags := readFlags version
  let reservelist ← flatReadMemReserve mem (totalsize + 1) (inbufInit offMemRsvmap totalsize)
  let (val, dtbuf) ← flatReadWord mem (inbufInit offDt totalsize)
  if val ≠ fdtBeginNode then throw .exited
  let (tree, dtbuf) ← unflattenTree mem strbuf [] flags dtbuf
  let (val, _) ← flatReadWord mem dtbuf
  if val ≠ fdtEnd then throw .exited
  return ⟨dtsfV1, reservelist, tree, UInt32.ofNat bootCpuidPhys⟩

end File
end Bxxt
