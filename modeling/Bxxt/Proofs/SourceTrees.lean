import Bxxt.DtSource
import Bxxt.Proofs.BlobSize

/-! What all trees have in common that are read from a source: no node has a path or a number, and a reference to a
number is a cell of ones. -/

namespace Bxxt.Proofs
open Bxxt ByteLayout BlobBytes SiblingTree

section Loops
variable {α β : Type} {holds : β → Prop}

theorem foldlM_keeps {step : β → α → Exec β}
    (keeps : ∀ state item next, holds state → step state item = .ok next → holds next)
    {items : List α} {state last : β} (start : holds state) (run : items.foldlM step state = .ok last) :
    holds last := by
  induction items generalizing state with
  | nil =>
    cases run
    exact start
  | cons item items ih =>
    rw [List.foldlM_cons] at run
    obtain ⟨next, first, others⟩ := Exec.bind_eq_ok.mp run
    exact ih (keeps state item next start first) others

theorem mapM_forall {read : α → Exec β} (each : ∀ item value, read item = .ok value → holds value)
    {items : List α} {values : List β} (run : items.mapM read = .ok values) : ∀ value ∈ values, holds value := by
  induction items generalizing values with
  | nil =>
    cases run
    exact List.forall_mem_nil _
  | cons item items ih =>
    rw [List.mapM_cons] at run
    obtain ⟨value, first, others⟩ := Exec.bind_eq_ok.mp run
    obtain ⟨rest, later, same⟩ := Exec.bind_eq_ok.mp others
    cases same
    exact List.forall_mem_cons.mpr ⟨each item value first, ih later⟩

end Loops
section Values

def placeholder : Bytes := List.replicate 4 255

/-- What a reference to a number is until it is resolved. -/
def Placeholders (d : Data) : Prop := ∀ m ∈ d.markers, m.type = .refPhandle → placeholder <+: d.val.drop m.offset

variable {d d1 d2 result : Data}

theorem Placeholders.nothing : Placeholders emptyData := fun _ inside => absurd inside List.not_mem_nil

theorem Placeholders.append (waiting : Placeholders d) (bytes : Bytes) :
    Placeholders { d with val := d.val ++ bytes } := by
  intro m inside phandle
  dsimp only
  rw [List.drop_append]
  exact (waiting m inside phandle).trans (List.prefix_append ..)

theorem Placeholders.marker (waiting : Placeholders d) {type : Markertype}
    (other : type ≠ .refPhandle) (ref : Bytes) :
    Placeholders (dataAddMarker d type ref) := by
  intro m inside phandle
  rcases List.mem_append.mp inside with before | new
  · exact waiting m before phandle
  · rw [List.mem_singleton] at new
    subst new
    exact absurd phandle other

theorem Placeholders.reference (waiting : Placeholders d) {ref : Bytes}
    (run : dataAppendInteger (dataAddMarker d .refPhandle ref) (2 ^ 32 - 1) 32 = .ok result) : Placeholders result := by
  have ones : beBytes 4 (2 ^ 32 - 1) = placeholder := by decide
  obtain ⟨_, rfl⟩ := append_eq_ok.mp run
  intro m inside phandle
  have val : (dataAddMarker d .refPhandle ref).val ++ beBytes (32 / 8) (2 ^ 32 - 1) = d.val ++ placeholder := by
    rw [← ones]; rfl
  dsimp only
  rw [val]
  rcases List.mem_append.mp inside with before | new
  · exact waiting.append placeholder m before phandle
  · rw [List.mem_singleton] at new
    subst new
    rw [List.drop_left]

theorem Placeholders.merge (first : Placeholders d1) (second : Placeholders d2) (run : dataMerge d1 d2 = .ok result) :
    Placeholders result := by
  obtain ⟨_, rfl⟩ := merge_eq_ok.mp run
  intro m inside phandle
  rcases List.mem_append.mp inside with before | behind
  · exact first.append d2.val m before phandle
  · obtain ⟨own, member, rfl⟩ := List.mem_map.mp behind
    dsimp only
    rw [Nat.add_comm, List.drop_length_add_append]
    exact second own member phandle

theorem readArrayItem_placeholders {bits : Nat} {item : ArrayItem} (waiting : Placeholders d)
    (run : readArrayItem bits d item = .ok result) : Placeholders result := by
  cases item with
  | integer value =>
    rw [readArrayItem] at run
    split at run
    · cases run
    · rw [dataAppendInteger] at run
      split at run
      · obtain ⟨_, rfl⟩ := append_eq_ok.mp run
        exact waiting.append _
      · cases run
  | reference ref =>
    rw [readArrayItem] at run
    split at run
    · subst bits
      exact waiting.reference run
    · cases run
  | label label =>
    cases run
    exact waiting.marker (by simp) _

theorem readArray_placeholders {bits : Option Nat} {items : List ArrayItem} (run : readArray bits items = .ok result) :
    Placeholders result := by
  rw [readArray] at run
  split at run
  · cases run
  · exact foldlM_keeps (fun _ _ _ waiting run => readArrayItem_placeholders waiting run) Placeholders.nothing run

theorem readByteItem_placeholders {item : ByteItem} (waiting : Placeholders d)
    (run : readByteItem d item = .ok result) :
    Placeholders result := by
  cases item with
  | byte value =>
    obtain ⟨_, rfl⟩ := append_eq_ok.mp run
    exact waiting.append _
  | label label =>
    cases run
    exact waiting.marker (by simp) _

theorem Placeholders.unmarked (val : Bytes) : Placeholders ⟨val, []⟩ :=
  fun _ inside => absurd inside List.not_mem_nil

theorem readPropPart_placeholders {part : PropPart} (waiting : Placeholders d)
    (run : readPropPart d part = .ok result) :
    Placeholders result := by
  cases part with
  | label label =>
    cases run
    exact waiting.marker (by simp) _
  | string text => exact waiting.merge (.unmarked _) run
  | array bits items =>
    obtain ⟨array, read, merged⟩ := Exec.bind_eq_ok.mp run
    exact waiting.merge (readArray_placeholders read) merged
  | bytestring items =>
    obtain ⟨array, read, merged⟩ := Exec.bind_eq_ok.mp run
    exact waiting.merge (foldlM_keeps (fun _ _ _ waiting run => readByteItem_placeholders waiting run)
      Placeholders.nothing read) merged
  | reference ref =>
    cases run
    exact waiting.marker (by simp) _
  | incbin content => exact waiting.merge (.unmarked _) run

structure SourcedProp (prop : Property) : Prop where
  name : 0 ∉ prop.name
  val : Placeholders prop.val

theorem readPropDef_sourced {prop : PropDef} {built : Property} (run : readPropDef prop = .ok built) :
    SourcedProp built := by
  induction prop generalizing built with
  | assign name parts =>
    obtain ⟨val, read, same⟩ := Exec.bind_eq_ok.mp run
    cases same
    exact ⟨name.plain, foldlM_keeps (fun _ _ _ waiting run => readPropPart_placeholders waiting run)
      Placeholders.nothing read⟩
  | empty name =>
    cases run
    exact ⟨name.plain, .nothing⟩
  | delete name =>
    cases run
    exact ⟨name.plain, .nothing⟩
  | label label prop ih =>
    obtain ⟨below, read, same⟩ := Exec.bind_eq_ok.mp run
    cases same
    have own := ih read
    exact ⟨own.name, own.val⟩

end Values
section Lists
variable {α : Type} {holds : α → Prop}

theorem updateFirst_forall {hit : α → Bool} {change : α → α}
    (keeps : ∀ item, holds item → holds (change item)) {items result : List α}
    (all : ∀ item ∈ items, holds item) (run : updateFirst hit change items = some result) :
    ∀ item ∈ result, holds item := by
  induction items generalizing result with
  | nil => cases run
  | cons item items ih =>
    obtain ⟨own, others⟩ := List.forall_mem_cons.mp all
    rw [updateFirst] at run
    split at run
    · cases run
      exact List.forall_mem_cons.mpr ⟨keeps item own, others⟩
    · obtain ⟨rest, later, rfl⟩ := Option.map_eq_some_iff.mp run
      exact List.forall_mem_cons.mpr ⟨own, ih others later⟩

theorem updateChild_all {holds : NodeInfo → Prop} {name : Bytes} {change : NodeInfo → Nodes → NodeInfo × Nodes}
    (keeps : ∀ info children, holds info → children.All holds → holds (change info children).1 ∧
      (change info children).2.All holds)
    {nodes result : Nodes} (all : nodes.All holds) (run : updateChild name change nodes = some result) :
    result.All holds := by
  induction nodes generalizing result with
  | nil => cases run
  | node info children next _ ih =>
    obtain ⟨own, below, behind⟩ := all
    rw [updateChild] at run
    split at run
    · cases run
      have kept := keeps info children own below
      exact ⟨kept.1, kept.2, behind⟩
    · obtain ⟨rest, later, rfl⟩ := Option.map_eq_some_iff.mp run
      exact ⟨own, below, ih behind later⟩

end Lists
section Nodes

structure Sourced (info : NodeInfo) : Prop where
  path : info.fullpath = none
  number : info.phandle = 0
  name : 0 ∉ info.name
  props : ∀ prop ∈ info.proplist, SourcedProp prop

variable {info new : NodeInfo} {nodes children : Nodes}

theorem SourcedProp.delete {prop : Property} (sourced : SourcedProp prop) : SourcedProp (deleteProperty prop) :=
  ⟨sourced.name, sourced.val⟩

theorem mergeProperty_sourced {proplist : List Property} {prop : Property}
    (all : ∀ prop ∈ proplist, SourcedProp prop) (own : SourcedProp prop) : ∀ old ∈ mergeProperty proplist prop,
    SourcedProp old := by
  rw [mergeProperty]
  split
  · rw [deletePropertyByName]
    cases found : updateFirst (fun old => old.name = prop.name) deleteProperty proplist with
    | none => exact all
    | some result => exact updateFirst_forall (fun _ sourced => sourced.delete) all found
  · dsimp only
    split
    next result found =>
      exact updateFirst_forall (fun old sourced => ⟨sourced.name, own.val⟩) all found
    next =>
      intro other inside
      rcases List.mem_append.mp inside with before | last
      · exact all other before
      · rw [List.mem_singleton] at last
        exact last ▸ own

theorem mergeInfo_sourced (old : Sourced info) (more : Sourced new) : Sourced (mergeInfo info new) where
  path := old.path
  number := old.number
  name := old.name
  props := by
    have merged (props proplist : List Property) (all : ∀ prop ∈ proplist, SourcedProp prop)
      (others : ∀ prop ∈ props, SourcedProp prop) :
        ∀ prop ∈ props.foldl mergeProperty proplist, SourcedProp prop := by
      induction props generalizing proplist with
      | nil => exact all
      | cons prop props ih =>
        obtain ⟨own, later⟩ := List.forall_mem_cons.mp others
        exact ih (mergeProperty proplist prop) (mergeProperty_sourced all own) later
    exact merged _ _ old.props more.props

theorem deleteInfo_sourced (sourced : Sourced info) : Sourced (deleteInfo info) where
  path := sourced.path
  number := sourced.number
  name := sourced.name
  props := by
    intro prop inside
    obtain ⟨own, member, rfl⟩ := List.mem_map.mp inside
    have before := sourced.props own member
    split
    · exact before
    · exact before.delete

theorem deleteChildren_sourced (all : nodes.All Sourced) : (deleteChildren nodes).All Sourced := by
  induction nodes with
  | nil => trivial
  | node info children next ihDown ihNext =>
    obtain ⟨own, below, behind⟩ := all
    rw [deleteChildren]
    split
    · exact ⟨own, below, ihNext behind⟩
    · exact ⟨deleteInfo_sourced own, ihDown below, ihNext behind⟩

theorem mergeChildren_sourced {others : Nodes} (all : others.All Sourced) (old : nodes.All Sourced) :
    (mergeChildren others nodes).All Sourced := by
  induction others generalizing nodes with
  | nil => exact old
  | node info children next ihDown ihNext =>
    obtain ⟨own, below, behind⟩ := all
    rw [mergeChildren]
    refine ihNext behind ?_
    split
    · rw [deleteNodeByName]
      cases found : updateChild info.name (fun info children => (deleteInfo info, deleteChildren children)) nodes with
      | none => exact old
      | some result =>
        exact updateChild_all (fun _ _ sourced all => ⟨deleteInfo_sourced sourced, deleteChildren_sourced all⟩)
          old found
    · split
      next result found =>
        exact updateChild_all (fun _ _ sourced all => ⟨mergeInfo_sourced sourced own, ihDown below all⟩) old found
      next => exact old.append ⟨own, below, trivial⟩

abbrev SourcedTree (tree : Node) : Prop := tree.All Sourced

theorem buildNode_sourced {proplist : List Property} (props : ∀ prop ∈ proplist, SourcedProp prop)
    (below : children.All Sourced) {name : Bytes} (plain : 0 ∉ name) :
    SourcedTree (nameNode (buildNode proplist children) name) :=
  ⟨⟨rfl, rfl, plain, props⟩, below⟩

theorem readSubnode_sourced {subnode : SubnodeDef} {node : Node} (below : children.All Sourced)
    (run : readSubnode subnode children = .ok node) : SourcedTree node := by
  rw [readSubnode] at run
  split at run
  · cases run
    exact ⟨⟨rfl, rfl, subnode.name.plain, List.forall_mem_nil _⟩, trivial⟩
  · obtain ⟨props, read, same⟩ := Exec.bind_eq_ok.mp run
    cases same
    exact ⟨⟨rfl, rfl, subnode.name.plain, mapM_forall (fun _ _ run => readPropDef_sourced run) read⟩, below⟩

theorem readSubnodes_sourced {subnodes : Siblings SubnodeDef} (run : readSubnodes subnodes = .ok nodes) :
    nodes.All Sourced := by
  induction subnodes generalizing nodes with
  | nil =>
    cases run
    trivial
  | node subnode below next ihDown ihNext =>
    obtain ⟨children, down, run⟩ := Exec.bind_eq_ok.mp run
    obtain ⟨node, own, run⟩ := Exec.bind_eq_ok.mp run
    obtain ⟨others, later, same⟩ := Exec.bind_eq_ok.mp run
    cases same
    have sourced := readSubnode_sourced (ihDown down) own
    exact ⟨sourced.1, sourced.2, ihNext later⟩

theorem readNodeDef_sourced {definition : NodeDef} {node : Node} (run : readNodeDef definition = .ok node) :
    SourcedTree node := by
  obtain ⟨props, read, run⟩ := Exec.bind_eq_ok.mp run
  obtain ⟨children, below, same⟩ := Exec.bind_eq_ok.mp run
  cases same
  exact ⟨⟨rfl, rfl, List.not_mem_nil, mapM_forall (fun _ _ run => readPropDef_sourced run) read⟩,
    readSubnodes_sourced below⟩

theorem nameNode_sourced {node : Node} (sourced : SourcedTree node) {name : Bytes} (plain : 0 ∉ name) :
    SourcedTree (nameNode node name) :=
  ⟨⟨sourced.1.path, sourced.1.number, plain, sourced.1.props⟩, sourced.2⟩

theorem plain_number (number : Nat) : 0 ∉ ascii (toString number) := by
  intro inside
  obtain ⟨char, member, same⟩ := List.mem_map.mp inside
  have digits : (toString number).toList = Nat.toDigits 10 number := Nat.toList_repr
  rw [digits] at member
  have digit := Nat.isDigit_of_mem_toDigits (by decide) (by decide) member
  have bounds := Char.isDigit_iff_toNat.mp digit
  have least : '0'.toNat = 48 := rfl
  have last : '9'.toNat = 57 := rfl
  have zero : char.toNat % 2 ^ 8 = 0 := (UInt8.toNat_ofNat').symm.trans (congrArg UInt8.toNat same)
  omega

theorem addOrphanNode_sourced {dt node result : Node} {fragment : Nat} {ref : Bytes} (sourced : SourcedTree dt)
    (new : SourcedTree node) (run : addOrphanNode dt fragment node ref = .ok result) : SourcedTree result := by
  obtain ⟨d, target, same⟩ := Exec.bind_eq_ok.mp run
  cases same
  have overlay := nameNode_sourced new (show 0 ∉ ascii "__overlay__" by decide)
  refine sourced.addChild ⟨rfl, rfl, ?_, ?_⟩ ⟨overlay.1, overlay.2, trivial⟩
  · rw [nameNode, List.mem_append, not_or]
    exact ⟨by decide, plain_number fragment⟩
  · intro prop inside
    have only := List.mem_singleton.mp inside
    subst only
    have plain : 0 ∉ ascii "target" := by decide
    exact ⟨plain, Placeholders.nothing.reference target⟩

theorem mergeNodes_sourced {dt new : Node} (sourced : SourcedTree dt) (more : SourcedTree new) (target : Address) :
    SourcedTree (dt.alter (mergeNodes new) target) :=
  sourced.alter (fun _ _ own below => ⟨mergeInfo_sourced own more.1, mergeChildren_sourced more.2 below⟩) target

theorem readTreePart_sourced {flags : Nat} {state next : Parsed} {part : TreePart} (sourced : SourcedTree state.dt)
    (run : readTreePart flags state part = .ok next) : SourcedTree next.dt := by
  cases part with
  | root node =>
    obtain ⟨new, read, same⟩ := Exec.bind_eq_ok.mp run
    cases same
    exact mergeNodes_sourced sourced (readNodeDef_sourced read) []
  | labelled label ref node =>
    obtain ⟨new, read, run⟩ := Exec.bind_eq_ok.mp run
    split at run
    · cases run
    next target found =>
      cases run
      refine mergeNodes_sourced ?_ (readNodeDef_sourced read) target
      exact sourced.alter (fun _ _ own below => ⟨⟨own.path, own.number, own.name, own.props⟩, below⟩) target
  | overlay ref node =>
    obtain ⟨new, read, run⟩ := Exec.bind_eq_ok.mp run
    have sourcedNew := readNodeDef_sourced read
    split at run
    next target found =>
      cases run
      exact mergeNodes_sourced sourced sourcedNew target
    · split at run
      · obtain ⟨dt, added, same⟩ := Exec.bind_eq_ok.mp run
        cases same
        exact addOrphanNode_sourced sourced sourcedNew added
      · cases run
  | delete ref =>
    rw [readTreePart] at run
    split at run
    · cases run
    next target found =>
      cases run
      exact sourced.alter (fun _ _ own below => ⟨deleteInfo_sourced own, deleteChildren_sourced below⟩) target

theorem dtFromSource_sourced {source : DtSource} {nextOrphanFragment : Nat} {dti : DtInfo}
    (run : dtFromSource source nextOrphanFragment = .ok dti) : SourcedTree dti.dt := by
  obtain ⟨parsed, read, run⟩ := Exec.bind_eq_ok.mp run
  obtain ⟨cpu, _, same⟩ := Exec.bind_eq_ok.mp run
  cases same
  have walk (dt : Node) (sourced : SourcedTree dt)
      (parts : source.parts.foldlM (readTreePart source.flags) ⟨dt, nextOrphanFragment⟩ = .ok parsed) :
      SourcedTree parsed.dt :=
    @foldlM_keeps _ _ (fun state => SourcedTree state.dt) _ (fun _ _ _ sourced run => readTreePart_sourced sourced run)
      _ _ _ sourced parts
  rw [readTree] at read
  split at read
  · exact walk _ (@buildNode_sourced .nil [] (List.forall_mem_nil _) trivial [] List.not_mem_nil) read
  · obtain ⟨node, first, parts⟩ := Exec.bind_eq_ok.mp read
    exact walk _ (nameNode_sourced (readNodeDef_sourced first) List.not_mem_nil) parts

end Nodes
end Bxxt.Proofs
