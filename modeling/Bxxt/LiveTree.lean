import Bxxt.BootHeader
import Bxxt.Lib.SiblingTree
import Bxxt.Lib.BlobBytes

/-! `data.c` and `livetree.c` of the device tree compiler: values with their markers, and the trees that are built of
them. What is deleted stays in its list and is marked. -/

namespace Bxxt
open ByteLayout BlobBytes SiblingTree

section Data

inductive Markertype where
  | refPhandle
  | refPath
  | label
  deriving DecidableEq, Repr

structure Marker where
  type : Markertype
  offset : Nat
  ref : Bytes
  deriving DecidableEq, Repr

structure Data where
  val : Bytes
  markers : List Marker
  deriving DecidableEq, Repr

def emptyData : Data := ⟨[], []⟩

def growLoop : Nat → Nat → Nat → Exec Unit
  | 0, _, _ => .error .intOverflow
  | fuel + 1, wanted, newsize =>
    if intMax < newsize then .error .intOverflow
    else if wanted ≤ newsize then .ok ()
    else growLoop fuel wanted (2 * newsize)

/-- An `int` is not doubled more than 31 times. -/
def dataGrowFor (d : Data) (xlen : Nat) : Exec Unit :=
  if xlen = 0 then .ok () else growLoop 32 (d.val.length + xlen) xlen

def dataAppendData (d : Data) (p : Bytes) : Exec Data := do
  dataGrowFor d p.length
  return { d with val := d.val ++ p }

def dataCopyMem (mem : Bytes) : Exec Data := dataAppendData emptyData mem

def dataAppendMarkers (d : Data) (m : List Marker) : Data := { d with markers := d.markers ++ m }

def dataMerge (d1 d2 : Data) : Exec Data := do
  let d ← dataAppendData d1 d2.val
  return dataAppendMarkers d (d2.markers.map fun m => { m with offset := m.offset + d1.val.length })

def dataAppendInteger (d : Data) (value : Nat) (bits : Nat) : Exec Data :=
  if bits = 8 ∨ bits = 16 ∨ bits = 32 ∨ bits = 64 then dataAppendData d (beBytes (bits / 8) value)
  else .error .exited

def dataAppendCell (d : Data) (word : Nat) : Exec Data := dataAppendInteger d word 32

def dataAppendByte (d : Data) (byte : UInt8) : Exec Data := dataAppendData d [byte]

def dataAppendZeroes (d : Data) (len : Nat) : Exec Data := dataAppendData d (List.replicate len 0)

def dataAppendAlign (d : Data) (align : Nat) : Exec Data :=
  if intMax < d.val.length + align - 1 then .error .intOverflow
  else dataAppendZeroes d (PagedBytes.roundUp align d.val.length - d.val.length)

def dataAddMarker (d : Data) (type : Markertype) (ref : Bytes) : Data :=
  dataAppendMarkers d [⟨type, d.val.length, ref⟩]

end Data
section Trees

structure Label where
  deleted : Bool
  label : Bytes
  deriving DecidableEq, Repr

structure Property where
  deleted : Bool
  name : Bytes
  val : Data
  labels : List Label
  deriving DecidableEq, Repr

/-- `struct node` without its links. The full path is NULL until `fill_fullpaths` of `dtc.c`, which is not built
into this program, and so is the name until `name_node`. -/
structure NodeInfo where
  deleted : Bool
  name : Bytes
  proplist : List Property
  fullpath : Option Bytes
  basenamelen : Nat
  phandle : Nat
  labels : List Label
  deriving DecidableEq, Repr

abbrev Nodes := Siblings NodeInfo
abbrev Node := Rooted NodeInfo

structure ReserveInfo where
  address : UInt64
  size : UInt64
  deriving DecidableEq, Repr

structure DtInfo where
  dtsflags : Nat
  reservelist : List ReserveInfo
  dt : Node
  bootCpuidPhys : UInt32
  deriving DecidableEq, Repr

def dtsfV1 : Nat := 1
def dtsfPlugin : Nat := 2

/-- What a search of a list is for is changed where it is found first. -/
def updateFirst {α : Type} (hit : α → Bool) (change : α → α) : List α → Option (List α)
  | [] => none
  | item :: items => if hit item then some (change item :: items) else (updateFirst hit change items).map (item :: ·)

def addLabel (labels : List Label) (label : Bytes) : List Label :=
  match updateFirst (fun old => old.label = label) (fun old => { old with deleted := false }) labels with
  | some labels => labels
  | none => ⟨false, label⟩ :: labels

def deleteLabels (labels : List Label) : List Label := labels.map fun label => { label with deleted := true }

def buildProperty (name : Bytes) (val : Data) : Property := ⟨false, name, val, []⟩
def buildPropertyDelete (name : Bytes) : Property := ⟨true, name, emptyData, []⟩

def buildNode (proplist : List Property) (children : Nodes) : Node :=
  ⟨⟨false, [], proplist, none, 0, 0, []⟩, children⟩
def buildNodeDelete : Node := ⟨⟨true, [], [], none, 0, 0, []⟩, .nil⟩

def nameNode (node : Node) (name : Bytes) : Node := { node with value := { node.value with name } }

def deleteProperty (prop : Property) : Property := { prop with deleted := true, labels := deleteLabels prop.labels }

def deletePropertyByName (proplist : List Property) (name : Bytes) : List Property :=
  (updateFirst (fun prop => prop.name = name) deleteProperty proplist).getD proplist

/-- `delete_node`, for one of the nodes below. -/
def deleteInfo (info : NodeInfo) : NodeInfo :=
  { info with
    deleted := true
    proplist := info.proplist.map fun prop => if prop.deleted then prop else deleteProperty prop
    labels := deleteLabels info.labels }

def deleteChildren : Nodes → Nodes
  | .nil => .nil
  | .node info children next =>
    if info.deleted then .node info children (deleteChildren next)
    else .node (deleteInfo info) (deleteChildren children) (deleteChildren next)

/-- The first child with a name, deleted or not, is changed. -/
def updateChild (name : Bytes) (change : NodeInfo → Nodes → NodeInfo × Nodes) : Nodes → Option Nodes
  | .nil => none
  | .node info children next =>
    if info.name = name then some (.node (change info children).1 (change info children).2 next)
    else (updateChild name change next).map (.node info children ·)

def deleteNodeByName (children : Nodes) (name : Bytes) : Nodes :=
  (updateChild name (fun info children => (deleteInfo info, deleteChildren children)) children).getD children

def mergeProperty (proplist : List Property) (new : Property) : List Property :=
  if new.deleted then deletePropertyByName proplist new.name
  else
    let merge (old : Property) : Property :=
      { old with
        deleted := false
        val := new.val
        labels := new.labels.foldl (fun labels l => addLabel labels l.label) old.labels }
    match updateFirst (fun old => old.name = new.name) merge proplist with
    | some proplist => proplist
    | none => proplist ++ [new]

/-- `merge_nodes`, without the children. -/
def mergeInfo (old new : NodeInfo) : NodeInfo :=
  { old with
    deleted := false
    labels := new.labels.foldl (fun labels l => addLabel labels l.label) old.labels
    proplist := new.proplist.foldl mergeProperty old.proplist }

def mergeChildren : Nodes → Nodes → Nodes
  | .nil, old => old
  | .node info children next, old =>
    mergeChildren next
      (if info.deleted then deleteNodeByName old info.name
      else
        match updateChild info.name (fun own below => (mergeInfo own info, mergeChildren children below)) old with
        | some merged => merged
        | none => old.append (.node info children .nil))

def mergeNodes (new : Node) (old : NodeInfo) (children : Nodes) : NodeInfo × Nodes :=
  (mergeInfo old new.value, mergeChildren new.children children)

def addProperty (info : NodeInfo) (prop : Property) : NodeInfo := { info with proplist := info.proplist ++ [prop] }

/-- `build_and_name_child_node`, for a node without properties. -/
def addChild (parent : Node) (child : Node) : Node := parent.addChild child.value child.children

end Trees
section Accessors

def getProperty (info : NodeInfo) (propname : Bytes) : Option Property :=
  info.proplist.find? fun prop => !prop.deleted && prop.name = propname

/-- The address of a child. The first one that is not deleted is taken. -/
def subnodeAddress (nodename : Bytes) : Nodes → Option Address
  | .nil => none
  | .node info _ next =>
    if info.deleted = false ∧ info.name = nodename then some [] else (subnodeAddress nodename next).map (.next :: ·)

def getSubnode (node : Node) (nodename : Bytes) : Option Address :=
  (subnodeAddress nodename node.children).map (.down :: ·)

def slash : UInt8 := 47

def pathAddress : Nodes → Bytes → Option Address
  | .nil, _ => none
  | .node info children next, path =>
    let path := path.dropWhile (· = slash)
    if info.deleted = false ∧ info.name = path.takeWhile (· ≠ slash) then
      match path.dropWhile (· ≠ slash) with
      | [] => some []
      | _ :: rest => if rest = [] then some [] else (pathAddress children rest).map (.down :: ·)
    else (pathAddress next path).map (.next :: ·)

def getNodeByPath (tree : Node) (path : Bytes) : Option Address :=
  if path = [] then if tree.value.deleted then none else some []
  else (pathAddress tree.children path).map (.down :: ·)

def firstAddress (test : NodeInfo → Bool) : Nodes → Option Address
  | .nil => none
  | .node info children next =>
    if info.deleted then (firstAddress test next).map (.next :: ·)
    else if test info then some []
    else
      match firstAddress test children with
      | some address => some (.down :: address)
      | none => (firstAddress test next).map (.next :: ·)

def getNodeByLabel (tree : Node) (label : Bytes) : Option Address :=
  let test (info : NodeInfo) : Bool := info.labels.any fun l => !l.deleted && l.label = label
  if test tree.value then some [] else (firstAddress test tree.children).map (.down :: ·)

/-- A failed assertion ends the run. -/
def getNodeByPhandle (tree : Node) (phandle : Nat) : Exec (Option Address) :=
  if phandle = 0 ∨ phandle = 2 ^ 32 - 1 then .error .exited
  else if tree.value.phandle = phandle then .ok (if tree.value.deleted then none else some [])
  else .ok ((firstAddress (fun info => info.phandle = phandle) tree.children).map (.down :: ·))

def getNodeByRef (tree : Node) (ref : Bytes) : Option Address :=
  if ref = [slash] then some []
  else if ref.head? = some slash then getNodeByPath tree ref
  else getNodeByLabel tree ref

def propvalCell (prop : Property) : Exec UInt32 :=
  if prop.val.val.length = 4 then .ok (UInt32.ofNat (beValue prop.val.val)) else .error .exited

/-- The first child of `/cpus` is taken, deleted or not. -/
def guessBootCpuid (tree : Node) : Exec UInt32 :=
  match getNodeByPath tree (ascii "/cpus") with
  | none => .ok 0
  | some cpus =>
    match tree.get? (cpus ++ [.down]) with
    | none => .ok 0
    | some bootcpu =>
      match getProperty bootcpu (ascii "reg") with
      | none => .ok 0
      | some reg => if reg.val.val.length ≠ 4 then .ok 0 else propvalCell reg

end Accessors
section Labels

/-- `phandle_format`, and its bits. -/
def phandleLegacy : Nat := 1
def phandleEpapr : Nat := 2
def phandleFormat : Nat := phandleEpapr

/-- The tree, and the number of `get_node_phandle` that stays from one call to the next. -/
structure Numbering where
  dt : Node
  phandle : Nat

/-- The loop that looks for a number. The assertion stops it at the last one. -/
def freePhandle (root : Node) : Nat → Nat → Exec Nat
  | 0, _ => .error .exited
  | fuel + 1, phandle => do
    match ← getNodeByPhandle root phandle with
    | some _ => freePhandle root fuel (phandle + 1)
    | none => return phandle

/-- The property that holds a node's number, unless there is one of that name. -/
def addPhandle (name : Bytes) (format phandle : Nat) (info : NodeInfo) : Exec NodeInfo :=
  if getProperty info name = none ∧ phandleFormat &&& format ≠ 0 then do
    let val ← dataAppendCell emptyData phandle
    return addProperty info (buildProperty name val)
  else return info

def getNodePhandle (state : Numbering) (address : Address) : Exec Numbering :=
  match state.dt.get? address with
  | none => .error .nullPointer
  | some info =>
    if info.phandle ≠ 0 ∧ info.phandle ≠ 2 ^ 32 - 1 then return state
    else do
      let phandle ← freePhandle state.dt (2 ^ 32 - state.phandle) state.phandle
      let info ← addPhandle (ascii "linux,phandle") phandleLegacy phandle { info with phandle }
      let info ← addPhandle (ascii "phandle") phandleEpapr phandle info
      return ⟨state.dt.modify (fun _ => info) address, phandle⟩

/-- The root's child with a name, which is made if there is none. -/
def buildRootNode (dt : Node) (name : Bytes) : Node × Address :=
  match getSubnode dt name with
  | some address => (dt, address)
  | none => (addChild dt (nameNode (buildNode [] .nil) name), .down :: dt.children.endAddress)

def anyLabelChildren : Nodes → Bool
  | .nil => false
  | .node info children next =>
    if info.deleted then anyLabelChildren next
    else !info.labels.isEmpty || anyLabelChildren children || anyLabelChildren next

def anyLabelTree (node : Node) : Bool := !node.value.labels.isEmpty || anyLabelChildren node.children

/-- A label of a node becomes a property of the node `an` that has its path. -/
def insertLabel (an : Address) (fullpath : Option Bytes) (state : Numbering) (label : Label) : Exec Numbering :=
  if label.deleted then return state
  else
    match state.dt.get? an with
    | none => .error .nullPointer
    | some info =>
      match getProperty info label.label with
      | some _ => return state
      | none =>
        match fullpath with
        | none => .error .nullPointer
        | some path => do
          let val ← dataCopyMem (path ++ [0])
          return { state with dt := state.dt.modify (addProperty · (buildProperty label.label val)) an }

/-- `generate_label_tree_internal`, for the node itself. -/
def labelNode (an : Address) (allocph : Bool) (info : NodeInfo) (address : Address)
    (state : Numbering) : Exec Numbering :=
  if info.labels = [] then return state
  else do
    let state ← info.labels.foldlM (insertLabel an info.fullpath) state
    if allocph then getNodePhandle state address else return state

/-- The nodes, their labels and paths stay as they are, so that the walk may go through the tree as it was. -/
def labelChildren (an : Address) (allocph : Bool) : Nodes → Address → Numbering → Exec Numbering
  | .nil, _, state => return state
  | .node info children next, address, state =>
    if info.deleted then labelChildren an allocph next (address ++ [.next]) state
    else do
      let state ← labelNode an allocph info address state
      let state ← labelChildren an allocph children (address ++ [.down]) state
      labelChildren an allocph next (address ++ [.next]) state

def generateLabelTreeInternal (an : Address) (allocph : Bool) (node : Node) (state : Numbering) : Exec Numbering := do
  let state ← labelNode an allocph node.value [] state
  labelChildren an allocph node.children [.down] state

def generateLabelTree (state : Numbering) (name : Bytes) (allocph : Bool) : Exec Numbering :=
  if anyLabelTree state.dt then
    let (dt, an) := buildRootNode state.dt name
    generateLabelTreeInternal an allocph dt { state with dt }
  else return state

end Labels
end Bxxt
