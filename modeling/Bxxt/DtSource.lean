import Bxxt.LiveTree

/-! The source language of device trees, as the rules of `dtc-parser.c` read it, and what their actions build.
An error that the parser reports ends the run, now or when the source is read. -/

namespace Bxxt
open ByteLayout SiblingTree

section Syntax

structure Word where
  chars : Bytes
  filled : chars ≠ []
  plain : 0 ∉ chars
  deriving DecidableEq

inductive ArrayItem where
  | integer (value : UInt64)
  | reference (ref : Word)
  | label (label : Word)

inductive ByteItem where
  | byte (value : UInt8)
  | label (label : Word)

/-- A part of a value. What an included file holds is its content. -/
inductive PropPart where
  | label (label : Word)
  | string (text : Bytes)
  | array (bits : Option Nat) (items : List ArrayItem)
  | bytestring (items : List ByteItem)
  | reference (ref : Word)
  | incbin (content : Bytes)

inductive PropDef where
  | assign (name : Word) (parts : List PropPart)
  | empty (name : Word)
  | delete (name : Word)
  | label (label : Word) (prop : PropDef)

/-- A node below another one. One that is deleted has neither properties nor children. -/
structure SubnodeDef where
  labels : List Word
  name : Word
  deleted : Bool
  props : List PropDef

/-- `{ ... }` -/
structure NodeDef where
  props : List PropDef
  subnodes : Siblings SubnodeDef

inductive TreePart where
  | root (node : NodeDef)
  | labelled (label ref : Word) (node : NodeDef)
  | overlay (ref : Word) (node : NodeDef)
  | delete (ref : Word)

/-- A whole source. Without a root of its own the tree starts as an empty one. -/
structure DtSource where
  flags : Nat
  reserves : List ReserveInfo
  root : Option NodeDef
  parts : List TreePart

end Syntax
section Values

/-- `arrayprefix`. -/
def readArrayItem (bits : Nat) (data : Data) : ArrayItem → Exec Data
  | .integer value =>
    if bits < 64 ∧ 2 ^ bits - 1 < value.toNat ∧ value.toNat ||| (2 ^ bits - 1) ≠ 2 ^ 64 - 1 then .error .exited
    else dataAppendInteger data value.toNat bits
  | .reference ref =>
    if bits = 32 then dataAppendInteger (dataAddMarker data .refPhandle ref.chars) (2 ^ bits - 1) bits
    else .error .exited
  | .label label => .ok (dataAddMarker data .label label.chars)

def readArray (bits : Option Nat) (items : List ArrayItem) : Exec Data := do
  let bits := bits.getD 32
  if bits ≠ 8 ∧ bits ≠ 16 ∧ bits ≠ 32 ∧ bits ≠ 64 then throw .exited
  items.foldlM (readArrayItem bits) emptyData

def readByteItem (data : Data) : ByteItem → Exec Data
  | .byte value => dataAppendByte data value
  | .label label => .ok (dataAddMarker data .label label.chars)

/-- `propdata`. -/
def readPropPart (data : Data) : PropPart → Exec Data
  | .label label => .ok (dataAddMarker data .label label.chars)
  | .string text => dataMerge data ⟨text ++ [0], []⟩
  | .array bits items => do dataMerge data (← readArray bits items)
  | .bytestring items => do dataMerge data (← items.foldlM readByteItem emptyData)
  | .reference ref => .ok (dataAddMarker data .refPath ref.chars)
  | .incbin content => dataMerge data ⟨content, []⟩

def readPropDef : PropDef → Exec Property
  | .assign name parts => do return buildProperty name.chars (← parts.foldlM readPropPart emptyData)
  | .empty name => .ok (buildProperty name.chars emptyData)
  | .delete name => .ok (buildPropertyDelete name.chars)
  | .label label prop => do
    let prop ← readPropDef prop
    return { prop with labels := addLabel prop.labels label.chars }

end Values
section Nodes

def readSubnode (subnode : SubnodeDef) (children : Nodes) : Exec Node := do
  let node ←
    if subnode.deleted then pure buildNodeDelete
    else do pure (buildNode (← subnode.props.mapM readPropDef) children)
  let node := nameNode node subnode.name.chars
  -- the last label is read first
  return { node with
    value := { node.value with
      labels := subnode.labels.foldr (fun label labels => addLabel labels label.chars) node.value.labels } }

def readSubnodes : Siblings SubnodeDef → Exec Nodes
  | .nil => .ok .nil
  | .node subnode subnodes next => do
    let children ← readSubnodes subnodes
    let node ← readSubnode subnode children
    return .node node.value node.children (← readSubnodes next)

def readNodeDef (node : NodeDef) : Exec Node := do
  let props ← node.props.mapM readPropDef
  return buildNode props (← readSubnodes node.subnodes)

def addOrphanNode (dt : Node) (fragment : Nat) (newNode : Node) (ref : Bytes) : Exec Node := do
  let d ← dataAppendInteger (dataAddMarker emptyData .refPhandle ref) (2 ^ 32 - 1) 32
  let overlay := nameNode newNode (ascii "__overlay__")
  let node := buildNode [buildProperty (ascii "target") d] (.node overlay.value overlay.children .nil)
  return addChild dt (nameNode node (ascii "fragment@" ++ ascii (toString fragment)))

/-- The tree, and the number of the next fragment that has no target. -/
structure Parsed where
  dt : Node
  nextOrphanFragment : Nat

/-- `devicetree`. -/
def readTreePart (flags : Nat) (state : Parsed) : TreePart → Exec Parsed
  | .root node => do
    let new ← readNodeDef node
    return { state with dt := state.dt.alter (mergeNodes new) [] }
  | .labelled label ref node => do
    let new ← readNodeDef node
    match getNodeByRef state.dt ref.chars with
    | none => throw .exited
    | some target =>
      let dt := state.dt.modify (fun info => { info with labels := addLabel info.labels label.chars }) target
      return { state with dt := dt.alter (mergeNodes new) target }
  | .overlay ref node => do
    let new ← readNodeDef node
    match getNodeByRef state.dt ref.chars with
    | some target => return { state with dt := state.dt.alter (mergeNodes new) target }
    | none =>
      if flags &&& dtsfPlugin ≠ 0 then
        let dt ← addOrphanNode state.dt state.nextOrphanFragment new ref.chars
        return ⟨dt, state.nextOrphanFragment + 1⟩
      else throw .exited
  | .delete ref =>
    match getNodeByRef state.dt ref.chars with
    | none => .error .exited
    | some target =>
      .ok { state with dt := state.dt.alter (fun info children => (deleteInfo info, deleteChildren children)) target }

def readTree (source : DtSource) (nextOrphanFragment : Nat) : Exec Parsed := do
  let dt ← match source.root with
    | none => pure (nameNode (buildNode [] .nil) [])
    | some node => do pure (nameNode (← readNodeDef node) [])
  source.parts.foldlM (readTreePart source.flags) ⟨dt, nextOrphanFragment⟩

def dtFromSource (source : DtSource) (nextOrphanFragment : Nat) : Exec DtInfo := do
  let parsed ← readTree source nextOrphanFragment
  return ⟨source.flags, source.reserves, parsed.dt, ← guessBootCpuid parsed.dt⟩

end Nodes
end Bxxt
