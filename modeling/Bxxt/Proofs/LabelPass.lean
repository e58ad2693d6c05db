import Bxxt.Proofs.BlobReader
import Bxxt.Proofs.NodeNumbers
import Bxxt.Proofs.SourceTrees
import Bxxt.Dtcc

/-! The pass that makes symbols of labels. No node has a path when it runs, so that it has to find each symbol in the
tree, and all that it changes is the numbers of the nodes with labels. -/

namespace Bxxt.Proofs
open Bxxt ByteLayout BlobBytes SiblingTree

section Steps
variable {state result : Numbering} {an : Address} {first : Nat}

def symbolsName : Bytes := ascii "__symbols__"

def symbolsPath : Bytes := slash :: symbolsName

def liveLabels (info : NodeInfo) : List Bytes := (info.labels.filter fun l => !l.deleted).map (·.label)

/-- A node without a path cannot get a new symbol. -/
theorem insertLabels_ok {labels : List Label} : labels.foldlM (insertLabel an none) state = .ok result ↔
    (∀ label ∈ labels, label.deleted = false → ∃ symbols prop, state.dt.get? an = some symbols ∧
      getProperty symbols label.label = some prop) ∧
      result = state := by
  induction labels with
  | nil => exact ⟨fun same => ⟨List.forall_mem_nil _, (Except.ok.inj same).symm⟩,
      fun both => congrArg Except.ok both.2.symm⟩
  | cons label labels ih =>
    have step : insertLabel an none state label = .ok state ∧
          (label.deleted = false → ∃ symbols prop, state.dt.get? an = some symbols ∧
            getProperty symbols label.label = some prop) ∨
        (∃ fault, insertLabel an none state label = .error fault) ∧
          ¬ (label.deleted = false → ∃ symbols prop, state.dt.get? an = some symbols ∧
            getProperty symbols label.label = some prop) := by
      rw [insertLabel]
      by_cases gone : label.deleted = true
      · rw [if_pos gone]
        exact Or.inl ⟨rfl, fun alive => absurd (gone.symm.trans alive) (by simp)⟩
      · rw [if_neg gone]
        cases here : state.dt.get? an with
        | none =>
          refine Or.inr ⟨⟨_, rfl⟩, fun found => ?_⟩
          obtain ⟨_, _, impossible, _⟩ := found (by simpa using gone)
          cases impossible
        | some symbols =>
          dsimp only
          cases prop : getProperty symbols label.label with
          | some prop' => exact Or.inl ⟨rfl, fun _ => ⟨symbols, prop', rfl, prop⟩⟩
          | none =>
            refine Or.inr ⟨⟨_, rfl⟩, fun found => ?_⟩
            obtain ⟨_, _, same, impossible⟩ := found (by simpa using gone)
            cases same
            rw [prop] at impossible
            cases impossible
    rw [List.foldlM_cons, List.forall_mem_cons]
    rcases step with ⟨done, found⟩ | ⟨⟨fault, failed⟩, missing⟩
    · rw [done, Exec.ok_bind, ih, and_iff_right found]
    · rw [failed]
      exact iff_of_false (by rintro ⟨⟩) fun both => missing both.1.1

theorem mem_liveLabels {info : NodeInfo} {holds : Bytes → Prop} :
    (∀ label ∈ info.labels, label.deleted = false → holds label.label) ↔
      ∀ label ∈ liveLabels info, holds label := by
  rw [liveLabels, List.forall_mem_map]
  constructor
  · intro all label inside
    obtain ⟨member, alive⟩ := List.mem_filter.mp inside
    exact all label member (by simpa using alive)
  · intro all label member alive
    exact all label (List.mem_filter.mpr ⟨member, by simpa using alive⟩)

def labelStep (an : Address) (state : Numbering) (node : Visited NodeInfo Bytes) : Exec Numbering :=
  labelNode an true node.value node.address state

theorem labelChildren_visit (an : Address) (nodes : Nodes) (top : Bytes) (front : Address) (state : Numbering) :
    labelChildren an true nodes front state =
      (Siblings.visit live pathBelow top nodes).foldlM
        (fun state node => labelNode an true node.value (front ++ node.address) state) state := by
  induction nodes generalizing top front state with
  | nil => rfl
  | node info children next ihDown ihNext =>
    rw [labelChildren, Siblings.visit, List.foldlM_append]
    by_cases gone : info.deleted = true
    · have dead : ¬ live info = true := by simp [live, gone]
      rw [if_pos gone, if_neg dead, List.foldlM_nil, pure_bind, ihNext top, List.foldlM_map]
      simp only [Visited.behind, List.append_assoc, List.singleton_append]
    · have alive : live info = true := by simp [live, gone]
      rw [if_neg gone, if_pos alive, List.foldlM_cons, bind_assoc, List.append_nil]
      simp only [ihDown (pathBelow top info), ihNext top, List.foldlM_map, Visited.behind, List.append_assoc,
        List.singleton_append]

/-- The walk goes through the nodes that are not deleted. -/
theorem generateLabelTreeInternal_eq {dt : Node} (root : dt.value.deleted = false) (an : Address) (state : Numbering) :
    generateLabelTreeInternal an true dt state = (nodesOf dt).foldlM (labelStep an) state := by
  rw [generateLabelTreeInternal, nodesOf_root root, List.foldlM_cons]
  simp only [labelChildren_visit an dt.children [], List.foldlM_map, labelStep, Visited.behind, List.singleton_append]

/-- Where each labelled node has a property for its number, a blob does not show that it is numbered. -/
def Marked (nodes : List (Visited NodeInfo Bytes)) : Prop :=
  ∀ node ∈ nodes, node.value.labels ≠ [] → getProperty node.value phandleName ≠ none

/-- The invariant of a walk that labels a tree: the nodes in front have their numbers, those behind
are as they were, and the next number is known. -/
structure Walked (an : Address) (first : Nat) (dt : Node) (front back : List (Visited NodeInfo Bytes))
    (state : Numbering) : Prop where
  root : state.dt.value.deleted = false
  same : Marked front → plain state.dt = plain dt
  symbols : getSubnode state.dt symbolsName = some an
  nodes : nodesOf state.dt = numberNodes first front ++ back
  last : labelCount front = 0 ∧ state.phandle = first ∨
    labelCount front ≠ 0 ∧ 0 < first ∧ first + labelCount front < 2 ^ 32 ∧
      state.phandle = first + labelCount front - 1

/-- The symbols node has a property for each label of a node when the walk comes to it. The nodes in
front of it may be what put it there. -/
def Present (first : Nat) (front : List (Visited NodeInfo Bytes)) (node : Visited NodeInfo Bytes)
    (back : List (Visited NodeInfo Bytes)) (holds : Property → Prop) : Prop :=
  ∀ label ∈ liveLabels node.value, ∃ symbols prop,
    nodeAt (numberNodes first front ++ node :: back) symbolsPath = some symbols ∧
      getProperty symbols label = some prop ∧ holds prop

variable {dt : Node} {front back : List (Visited NodeInfo Bytes)} {node : Visited NodeInfo Bytes}

theorem Walked.handed (walked : Walked an first dt front back state)
    (bare : ∀ node ∈ front ++ back, node.value.phandle = 0) :
    Handed first (labelCount front) state where
  last := by
    refine walked.last.imp id ?_
    rintro ⟨some, positive, small, last⟩
    obtain ⟨node, inside, same⟩ := numberNodes_last some first
    refine ⟨some, positive, small, last, node, ?_, same.trans last.symm⟩
    rw [walked.nodes]
    exact List.mem_append_left _ inside
  others := by
    intro node inside
    rw [walked.nodes] at inside
    rcases List.mem_append.mp inside with before | behind
    · obtain ⟨k, found⟩ := List.mem_iff_getElem?.mp before
      obtain ⟨own, source, step⟩ := renumbered_of_after found
      rcases step.value with ⟨_, same⟩ | ⟨_, number, _, below, same⟩
      · exact Or.inl
          (by rw [same]; exact bare own (List.mem_append_left _ (List.mem_iff_getElem?.mpr ⟨k, source⟩)))
      · exact Or.inr (by rw [same, numbered_phandle]; exact below)
    · exact Or.inl (bare node (List.mem_append_right _ behind))

theorem getSubnode_congr {tree other : Node} (root : tree.value.deleted = false) (root' : other.value.deleted = false)
    (same : (nodesOf tree).map (fun node => (node.path, node.address)) = (nodesOf other).map fun node =>
      (node.path, node.address)) {name : Bytes}
    (plain : slash ∉ name) : getSubnode tree name = getSubnode other name := by
  have pairs (nodes : List (Visited NodeInfo Bytes)) :
    (nodes.find? fun node => node.path = slash :: name).map (·.address) =
      ((nodes.map fun node => (node.path, node.address)).find? fun pair => pair.1 = slash :: name).map (·.2) := by
    rw [List.find?_map, Option.map_map]
    rfl
  rw [getSubnode_eq root plain, getSubnode_eq root' plain, pairs, pairs, same]

theorem plainInfo_numbered {info : NodeInfo} (marked : getProperty info phandleName ≠ none) (number : Nat) :
    plainInfo (numbered number info) = plainInfo info := by
  rw [numbered, if_neg marked]
  rfl

theorem symbols_plain : slash ∉ symbolsName := by decide

theorem numberNodes_single (number : Nat) (node : Visited NodeInfo Bytes) : numberNodes number [node] =
    [if node.value.labels = [] then node else { node with value := numbered number node.value }] := by
  rw [numberNodes, numberNodes, numberNodes]
  split <;> rfl

def afterNode (first : Nat) (front : List (Visited NodeInfo Bytes)) (node : Visited NodeInfo Bytes)
    (state : Numbering) : Numbering :=
  if node.value.labels = [] then state
  else ⟨state.dt.modify (numbered (first + labelCount front)) node.address, first + labelCount front⟩

theorem Walked.here (walked : Walked an first dt front (node :: back) state) :
    state.dt.get? node.address = some node.value := by
  have inside : node ∈ nodesOf state.dt := by
    rw [walked.nodes]
    exact List.mem_append_right _ List.mem_cons_self
  exact Rooted.get?_of_visit inside

theorem Walked.next (walked : Walked an first dt front (node :: back) state)
    (room : node.value.labels ≠ [] → 0 < first ∧ first + (labelCount front + 1) < 2 ^ 32) :
    Walked an first dt (front ++ [node]) back (afterNode first front node state) := by
  have count : labelCount (front ++ [node]) = labelCount front + if node.value.labels = [] then 0 else 1 := by
    rw [labelCount_append, labelCount_cons]
    exact congrArg (labelCount front + ·) (Nat.zero_add _)
  have nodes := walked.nodes
  by_cases none : node.value.labels = []
  · rw [if_pos none, Nat.add_zero] at count
    rw [afterNode, if_pos none]
    refine ⟨walked.root, fun marked => walked.same fun node inside => marked node (List.mem_append_left _ inside),
      walked.symbols, ?_,
      by rw [count]; exact walked.last⟩
    rw [nodes, numberNodes_append, numberNodes_single, if_pos none, List.append_assoc]
    rfl
  · rw [if_neg none] at count
    rw [afterNode, if_neg none]
    have apart : ((nodesOf state.dt).map (·.address)).Nodup := Rooted.visit_nodup
    have here := walked.here
    have visit : nodesOf (state.dt.modify (numbered (first + labelCount front)) node.address) =
        numberNodes first front ++ { node with value := numbered (first + labelCount front) node.value } :: back := by
      rw [nodesOf, Rooted.visit_modify (fun info => by rw [live, live, numbered_deleted])
        (fun top info => by rw [pathBelow, pathBelow, numbered_name]),
        ← nodesOf, nodes]
      exact Visited.map_update_middle _ (nodes ▸ apart)
    have root : (state.dt.modify (numbered (first + labelCount front)) node.address).value.deleted = false := by
      have deleted := walked.root
      cases place : node.address with
      | nil => exact (numbered_deleted ..).trans deleted
      | cons step address => cases step <;> exact deleted
    refine ⟨root, fun marked => ?_, ?_, ?_, Or.inr ?_⟩
    · have before := walked.same fun node inside => marked node (List.mem_append_left _ inside)
      have own := marked node (List.mem_append_right _ List.mem_cons_self) none
      rw [← before, plain, plain]
      refine Rooted.prune_modify (fun info => by rw [live, live, numbered_deleted]) fun value same => ?_
      rw [here] at same
      cases same
      exact plainInfo_numbered own _
    · rw [← walked.symbols]
      refine getSubnode_congr root walked.root ?_ symbols_plain
      rw [visit, nodes, List.map_append, List.map_append, List.map_cons, List.map_cons]
    · rw [visit, numberNodes_append, numberNodes_single, if_neg none, List.append_assoc]
      rfl
    · obtain ⟨positive, small⟩ := room none
      rw [count]
      exact ⟨Nat.succ_ne_zero _, positive, small, rfl⟩

/-- When a node can be walked over, and what it leaves. -/
theorem labelStep_ok (walked : Walked an first dt front (node :: back) state)
    (bare : ∀ other ∈ front ++ node :: back, other.value.phandle = 0)
    (noPath : node.value.fullpath = none) : labelStep an state node = .ok result ↔
      (Present first front node back (fun _ => True) ∧
        (node.value.labels ≠ [] → 0 < first ∧ first + (labelCount front + 1) < 2 ^ 32)) ∧
        result = afterNode first front node state := by
  have symbols := get?_getSubnode walked.root symbols_plain walked.symbols
  rw [walked.nodes] at symbols
  have present : (∀ label ∈ node.value.labels, label.deleted = false →
    ∃ symbols prop, state.dt.get? an = some symbols ∧
      getProperty symbols label.label = some prop) ↔ Present first front node back fun _ => True := by
    rw [← symbols]
    refine (@mem_liveLabels node.value fun label => ∃ symbols prop,
      nodeAt (numberNodes first front ++ node :: back) symbolsPath = some symbols ∧
        getProperty symbols label = some prop).trans ?_
    simp only [Present, and_true]
  rw [labelStep, labelNode, afterNode]
  by_cases none : node.value.labels = []
  · have noLabels : liveLabels node.value = [] := by rw [liveLabels, none]; rfl
    rw [if_pos none, if_pos none]
    have settled : Present first front node back (fun _ => True) ∧
        (node.value.labels ≠ [] → 0 < first ∧ first + (labelCount front + 1) < 2 ^ 32) :=
      ⟨by rw [Present, noLabels]; exact List.forall_mem_nil _, fun labels => absurd none labels⟩
    rw [and_iff_right settled]
    exact ⟨fun same => (Except.ok.inj same).symm, fun same => congrArg Except.ok same.symm⟩
  · have here := walked.here
    have own : node.value.phandle = 0 := bare node (List.mem_append_right _ List.mem_cons_self)
    have phandle := @getNodePhandle_ok _ _ state result (walked.handed bare) walked.root _ _ here own
    rw [if_neg none, if_neg none, noPath, Exec.bind_eq_ok]
    constructor
    · rintro ⟨middle, inserted, numbered⟩
      obtain ⟨found, rfl⟩ := insertLabels_ok.mp inserted
      obtain ⟨room, same⟩ := phandle.mp numbered
      exact ⟨⟨present.mp found, fun _ => room⟩, same⟩
    · rintro ⟨⟨found, room⟩, same⟩
      exact ⟨state, insertLabels_ok.mpr ⟨present.mpr found, rfl⟩, phandle.mpr ⟨room none, same⟩⟩

def EnoughNumbers (first : Nat) (nodes : List (Visited NodeInfo Bytes)) : Prop := labelCount nodes ≠ 0 →
    0 < first ∧ first + labelCount nodes < 2 ^ 32

/-- What a walk is through with. -/
theorem walk_ok (bare : ∀ node ∈ front ++ back, node.value.phandle = 0)
    (noPath : ∀ node ∈ back, node.value.fullpath = none)
    (walked : Walked an first dt front back state) (run : back.foldlM (labelStep an) state = .ok result) :
    (∀ before node behind, back = before ++ node :: behind →
      Present first (front ++ before) node behind fun _ => True) ∧
      Walked an first dt (front ++ back) [] result := by
  induction back generalizing front state with
  | nil =>
    cases run
    rw [List.append_nil]
    refine ⟨fun before node behind whole => ?_, walked⟩
    cases before <;> cases whole
  | cons node back ih =>
    obtain ⟨own, others⟩ := List.forall_mem_cons.mp noPath
    rw [List.foldlM_cons] at run
    obtain ⟨middle, step, rest⟩ := Exec.bind_eq_ok.mp run
    obtain ⟨⟨present, room⟩, rfl⟩ := (labelStep_ok walked bare own).mp step
    have shape : front ++ node :: back = front ++ [node] ++ back := by simp
    obtain ⟨later, done⟩ := ih (by rwa [← shape]) others (walked.next room) rest
    rw [shape]
    refine ⟨fun before other behind whole => ?_, done⟩
    cases before with
    | nil =>
      cases whole
      rw [List.append_nil]
      exact present
    | cons first before =>
      rw [List.cons_append, List.cons.injEq] at whole
      obtain ⟨rfl, rest⟩ := whole
      have found := later before other behind rest
      rwa [List.append_assoc, List.singleton_append] at found

/-- When a walk comes to its end. -/
theorem walk_enough (bare : ∀ node ∈ front ++ back, node.value.phandle = 0)
    (noPath : ∀ node ∈ back, node.value.fullpath = none)
    (walked : Walked an first dt front back state) (room : EnoughNumbers first (front ++ back))
    (present : ∀ before node behind, back = before ++ node :: behind →
      Present first (front ++ before) node behind fun _ => True) :
    ∃ result, back.foldlM (labelStep an) state = .ok result := by
  induction back generalizing front state with
  | nil => exact ⟨state, rfl⟩
  | cons node back ih =>
    obtain ⟨own, others⟩ := List.forall_mem_cons.mp noPath
    have shape : front ++ node :: back = front ++ [node] ++ back := by simp
    have here := present [] node back rfl
    rw [List.append_nil] at here
    have next : node.value.labels ≠ [] → 0 < first ∧ first + (labelCount front + 1) < 2 ^ 32 := by
      intro labels
      have count : labelCount (front ++ node :: back) = labelCount front + (labelCount back + 1) := by
        rw [labelCount_append, labelCount_cons, if_neg labels]
      obtain ⟨positive, small⟩ := room (by rw [count]; exact Nat.succ_ne_zero _)
      rw [count] at small
      exact ⟨positive, by omega⟩
    obtain ⟨result, rest⟩ := ih (by rwa [← shape]) others (walked.next next)
        (by rwa [← shape]) fun before other behind whole => by
      have found := present (node :: before) other behind (by rw [whole, List.cons_append])
      rwa [List.append_assoc, List.singleton_append]
    exact ⟨result, by rw [List.foldlM_cons, (labelStep_ok walked bare own).mpr ⟨⟨here, next⟩, rfl⟩,
      Exec.ok_bind, rest]⟩

theorem Walked.room (walked : Walked an first dt front back state) : EnoughNumbers first front := by
  intro some
  rcases walked.last with ⟨none, _⟩ | ⟨_, positive, small, _⟩
  · exact absurd none some
  · exact ⟨positive, small⟩

end Steps
section Pass
variable {dt : Node} {first : Nat} {result : Numbering}

theorem anyLabelChildren_eq (nodes : Nodes) (top : Bytes) :
    anyLabelChildren nodes = false ↔ ∀ node ∈ Siblings.visit live pathBelow top nodes,
      node.value.labels = [] := by
  have moved (step : Step) (nodes : List (Visited NodeInfo Bytes)) :
    (∀ node ∈ nodes.map (·.behind step), node.value.labels = []) ↔
      ∀ node ∈ nodes, node.value.labels = [] := List.forall_mem_map
  induction nodes generalizing top with
  | nil => exact iff_of_true rfl (List.forall_mem_nil _)
  | node info children next ihDown ihNext =>
    have below : anyLabelChildren children = false ↔
      ∀ node ∈ Siblings.visit live pathBelow (pathBelow top info) children, node.value.labels = [] :=
        ihDown (pathBelow top info)
    have later : anyLabelChildren next = false ↔ ∀ node ∈ Siblings.visit live pathBelow top next,
      node.value.labels = [] := ihNext top
    rw [anyLabelChildren, Siblings.visit, List.forall_mem_append, moved]
    by_cases gone : info.deleted = true
    · have dead : ¬ live info = true := by simp [live, gone]
      rw [if_pos gone, if_neg dead, and_iff_right (List.forall_mem_nil _)]
      exact later
    · have alive : live info = true := by simp [live, gone]
      rw [if_neg gone, if_pos alive, List.forall_mem_cons, moved, Bool.or_eq_false_iff,
        Bool.or_eq_false_iff, below, later]
      simp

theorem anyLabelTree_eq (root : dt.value.deleted = false) : anyLabelTree dt = false ↔
    ∀ node ∈ nodesOf dt, node.value.labels = [] := by
  rw [anyLabelTree, nodesOf_root root, List.forall_mem_cons, List.forall_mem_map, Bool.or_eq_false_iff,
    anyLabelChildren_eq dt.children []]
  simp [Visited.behind]

theorem subnodeAddress_end {name : Bytes} {nodes : Nodes} (none : subnodeAddress name nodes = none) {info : NodeInfo}
    (alive : info.deleted = false) (same : info.name = name) (children : Nodes) :
    subnodeAddress name (nodes.append (.node info children .nil)) = some nodes.endAddress := by
  induction nodes with
  | nil => exact if_pos ⟨alive, same⟩
  | node own below next _ ih =>
    rw [subnodeAddress] at none
    split at none
    · cases none
    next other =>
      rw [Siblings.append, subnodeAddress, if_neg other, ih (Option.map_eq_none_iff.mp none)]
      rfl

/-- The node that symbols are added to. -/
def symbolsInfo : NodeInfo := (nameNode (buildNode [] .nil) symbolsName).value

def symbolsTree (dt : Node) : Node := (buildRootNode dt symbolsName).1

theorem symbolsTree_of_some {address : Address} (found : getSubnode dt symbolsName = some address) :
    symbolsTree dt = dt := by
  rw [symbolsTree, buildRootNode, found]

theorem symbolsTree_of_none (missing : getSubnode dt symbolsName = none) :
    symbolsTree dt = dt.addChild symbolsInfo .nil := by
  rw [symbolsTree, buildRootNode, missing]
  rfl

theorem symbolsTree_root (dt : Node) : (symbolsTree dt).value = dt.value := by
  cases found : getSubnode dt symbolsName with
  | some address => rw [symbolsTree_of_some found]
  | none =>
    rw [symbolsTree_of_none found]
    rfl

theorem symbolsTree_symbols (dt : Node) : getSubnode (symbolsTree dt) symbolsName =
    some (buildRootNode dt symbolsName).2 := by
  cases found : getSubnode dt symbolsName with
  | some address => rw [symbolsTree_of_some found, buildRootNode, found]
  | none =>
    have none := Option.map_eq_none_iff.mp found
    have added := subnodeAddress_end none (show symbolsInfo.deleted = false from rfl) rfl .nil
    rw [symbolsTree_of_none found, buildRootNode, found]
    exact congrArg (Option.map (.down :: ·)) added

theorem nodesOf_symbolsTree (root : dt.value.deleted = false) : nodesOf (symbolsTree dt) = nodesOf dt ++
    if getSubnode dt symbolsName = none then [⟨(buildRootNode dt symbolsName).2, symbolsPath, symbolsInfo⟩]
      else [] := by
  cases found : getSubnode dt symbolsName with
  | some address => rw [symbolsTree_of_some found, if_neg (by simp), List.append_nil]
  | none =>
    have added := @Rooted.visit_addChild _ _ live pathBelow [] dt (by simp [live, root]) symbolsInfo
    rw [symbolsTree_of_none found, if_pos rfl, buildRootNode, found]
    exact added

/-- The tree that is walked through, if there is anything to do. -/
def labelledTree (dt : Node) : Node := if anyLabelTree dt then symbolsTree dt else dt

theorem nodesOf_labelledTree (root : dt.value.deleted = false) : nodesOf (labelledTree dt) = nodesOf dt ++
    if anyLabelTree dt = true ∧ getSubnode dt symbolsName = none
      then [⟨(buildRootNode dt symbolsName).2, symbolsPath, symbolsInfo⟩] else [] := by
  rw [labelledTree]
  by_cases any : anyLabelTree dt = true
  · rw [if_pos any, nodesOf_symbolsTree root]
    simp only [any, true_and]
  · rw [if_neg any, if_neg (fun both => any both.1), List.append_nil]

theorem labelledTree_root (dt : Node) : (labelledTree dt).value = dt.value := by
  rw [labelledTree]
  split
  · exact symbolsTree_root dt
  · rfl

theorem labelCount_labelledTree (root : dt.value.deleted = false) :
    labelCount (nodesOf (labelledTree dt)) = labelCount (nodesOf dt) := by
  rw [nodesOf_labelledTree root, labelCount_append]
  split <;> rfl

theorem sourced_visit (sourced : SourcedTree dt) {node : Visited NodeInfo Bytes} (inside : node ∈ nodesOf dt) :
    Sourced node.value :=
  sourced.get? (Rooted.get?_of_visit inside)

theorem symbolsInfo_sourced : Sourced symbolsInfo := ⟨rfl, rfl, by decide, List.forall_mem_nil _⟩

theorem sourced_labelledTree (root : dt.value.deleted = false) (sourced : SourcedTree dt) :
    ∀ node ∈ nodesOf (labelledTree dt), Sourced node.value := by
  rw [nodesOf_labelledTree root, List.forall_mem_append]
  refine ⟨fun node inside => sourced_visit sourced inside, ?_⟩
  split
  · exact List.forall_mem_singleton.mpr symbolsInfo_sourced
  · exact List.forall_mem_nil _

theorem numberNodes_unlabelled {nodes : List (Visited NodeInfo Bytes)}
    (none : ∀ node ∈ nodes, node.value.labels = []) (number : Nat) :
    numberNodes number nodes = nodes ∧ labelCount nodes = 0 := by
  induction nodes with
  | nil => exact ⟨rfl, rfl⟩
  | cons node nodes ih =>
    obtain ⟨own, others⟩ := List.forall_mem_cons.mp none
    obtain ⟨same, count⟩ := ih others
    rw [numberNodes, if_pos own, same, labelCount_cons, if_pos own, count]
    exact ⟨rfl, rfl⟩

/-- Each label has its symbol when the pass comes to it, and the symbol holds what it should. -/
def Settled (first : Nat) (nodes : List (Visited NodeInfo Bytes))
    (holds : Visited NodeInfo Bytes → Property → Prop) : Prop :=
  ∀ front node back, nodes = front ++ node :: back → Present first front node back (holds node)

structure Relabelled (first : Nat) (dt after : Node) : Prop where
  root : after.value.deleted = false
  nodes : nodesOf after = numberNodes first (nodesOf (labelledTree dt))
  same : Marked (nodesOf dt) → plain after = plain (labelledTree dt)

theorem generateLabelTree_eq (root : dt.value.deleted = false) : generateLabelTree ⟨dt, first⟩ symbolsName true =
    if anyLabelTree dt then (nodesOf (labelledTree dt)).foldlM (labelStep (buildRootNode dt symbolsName).2)
      ⟨labelledTree dt, first⟩
    else .ok ⟨dt, first⟩ := by
  rw [generateLabelTree]
  by_cases any : anyLabelTree dt = true
  · have walk := @generateLabelTreeInternal_eq (symbolsTree dt) (by rw [symbolsTree_root]; exact root)
      (buildRootNode dt symbolsName).2
      ⟨symbolsTree dt, first⟩
    rw [if_pos any, if_pos any, labelledTree, if_pos any, ← walk]
    rfl
  · rw [if_neg any, if_neg any]
    rfl

theorem walked_start (root : dt.value.deleted = false) (any : anyLabelTree dt = true) :
    Walked (buildRootNode dt symbolsName).2 first (labelledTree dt) []
      (nodesOf (labelledTree dt)) ⟨labelledTree dt, first⟩ where
  root := by rw [labelledTree_root]; exact root
  same _ := rfl
  symbols := by
    rw [labelledTree, if_pos any]
    exact symbolsTree_symbols dt
  nodes := rfl
  last := Or.inl ⟨rfl, rfl⟩

theorem marked_labelledTree (root : dt.value.deleted = false) (marked : Marked (nodesOf dt)) :
    Marked (nodesOf (labelledTree dt)) := by
  rw [Marked, nodesOf_labelledTree root, List.forall_mem_append]
  refine ⟨marked, ?_⟩
  split
  · exact List.forall_mem_singleton.mpr fun labels => absurd rfl labels
  · exact List.forall_mem_nil _

/-- What the pass needs, and what it does. -/
theorem generateLabelTree_ok (root : dt.value.deleted = false) (sourced : SourcedTree dt)
    (run : generateLabelTree ⟨dt, first⟩ symbolsName true = .ok result) :
    EnoughNumbers first (nodesOf dt) ∧ Settled first (nodesOf (labelledTree dt)) (fun _ _ => True) ∧
      Relabelled first dt result.dt := by
  have all := sourced_labelledTree root sourced
  rw [generateLabelTree_eq root] at run
  rw [EnoughNumbers, ← labelCount_labelledTree root]
  by_cases any : anyLabelTree dt = true
  · rw [if_pos any] at run
    obtain ⟨present, walked⟩ := walk_ok (fun node inside => (all node inside).number)
      (fun node inside => (all node inside).path)
      (walked_start root any) run
    have nodes := walked.nodes
    rw [List.append_nil] at nodes
    exact ⟨walked.room, present, walked.root, nodes, fun marked => walked.same (marked_labelledTree root marked)⟩
  · rw [if_neg any] at run
    cases run
    have none := (anyLabelTree_eq root).mp (by simpa using any)
    have same : labelledTree dt = dt := if_neg any
    obtain ⟨unchanged, count⟩ := numberNodes_unlabelled none first
    rw [same]
    refine ⟨fun some => absurd count some, fun front node back whole => ?_, root, by rw [same, unchanged],
      fun _ => by rw [same]⟩
    have noLabels := none node (by rw [whole]; exact List.mem_append_right _ List.mem_cons_self)
    rw [Present, liveLabels, noLabels]
    exact List.forall_mem_nil _

theorem generateLabelTree_enough (root : dt.value.deleted = false) (sourced : SourcedTree dt)
    (room : EnoughNumbers first (nodesOf dt)) (settled : Settled first (nodesOf (labelledTree dt)) fun _ _ => True) :
    ∃ result, generateLabelTree ⟨dt, first⟩ symbolsName true = .ok result := by
  have all := sourced_labelledTree root sourced
  rw [EnoughNumbers, ← labelCount_labelledTree root] at room
  rw [generateLabelTree_eq root]
  by_cases any : anyLabelTree dt = true
  · rw [if_pos any]
    exact walk_enough (fun node inside => (all node inside).number) (fun node inside => (all node inside).path)
      (walked_start root any) room
      settled
  · rw [if_neg any]
    exact ⟨_, rfl⟩

end Pass
section Rootless
variable {dt : Node} {state result : Numbering} {an : Address} {first : Nat}

theorem modify_deleted {change : NodeInfo → NodeInfo} (keeps : ∀ info, (change info).deleted = info.deleted)
    (dt : Node) (address : Address) :
    (dt.modify change address).value.deleted = dt.value.deleted := by
  cases address with
  | nil => exact keeps dt.value
  | cons step address => cases step <;> rfl

theorem insertLabel_root {fullpath : Option Bytes} {label : Label}
    (run : insertLabel an fullpath state label = .ok result) :
    result.dt.value.deleted = state.dt.value.deleted := by
  unfold insertLabel at run
  split at run
  · cases run
    rfl
  · split at run
    · cases run
    · split at run
      · cases run
        rfl
      · split at run
        · cases run
        · obtain ⟨val, _, same⟩ := Exec.bind_eq_ok.mp run
          cases same
          exact @modify_deleted (addProperty · (buildProperty label.label val)) (fun _ => rfl) state.dt an

theorem getNodePhandle_root {address : Address} (run : getNodePhandle state address = .ok result) :
    result.dt.value.deleted = state.dt.value.deleted := by
  cases found : state.dt.get? address with
  | none =>
    rw [getNodePhandle, found] at run
    cases run
  | some info =>
    by_cases numbers : info.phandle ≠ 0 ∧ info.phandle ≠ 2 ^ 32 - 1
    · rw [getNodePhandle, found] at run
      dsimp only at run
      rw [if_pos numbers] at run
      cases run
      rfl
    · rw [getNodePhandle_eq found numbers] at run
      obtain ⟨number, _, same⟩ := Exec.bind_eq_ok.mp run
      cases same
      exact modify_deleted (numbered_deleted number) ..

theorem labelNode_root {allocph : Bool} {info : NodeInfo} {address : Address}
    (run : labelNode an allocph info address state = .ok result) :
    result.dt.value.deleted = state.dt.value.deleted := by
  rw [labelNode] at run
  split at run
  · cases run
    rfl
  · obtain ⟨middle, inserted, rest⟩ := Exec.bind_eq_ok.mp run
    have kept : middle.dt.value.deleted = state.dt.value.deleted :=
      @foldlM_keeps _ _ (fun next => next.dt.value.deleted = state.dt.value.deleted) _
        (fun _ _ _ same step => (insertLabel_root step).trans same) _ _ _ rfl inserted
    split at rest
    · exact (getNodePhandle_root rest).trans kept
    · cases rest
      exact kept

/-- The pass does not bring a root back. -/
theorem generateLabelTree_root (run : generateLabelTree state symbolsName true = .ok result) :
    result.dt.value.deleted = state.dt.value.deleted := by
  rw [generateLabelTree] at run
  split at run
  · obtain ⟨middle, own, below⟩ := Exec.bind_eq_ok.mp run
    have start := labelNode_root own
    rw [labelChildren_visit _ _ []] at below
    have kept : result.dt.value.deleted = middle.dt.value.deleted :=
      @foldlM_keeps _ _ (fun next => next.dt.value.deleted = middle.dt.value.deleted) _
        (fun _ _ _ same step => (labelNode_root step).trans same) _ _ _ rfl below
    exact kept.trans (start.trans (congrArg NodeInfo.deleted (symbolsTree_root state.dt)))
  · cases run
    rfl

end Rootless
section Compile
variable {dti : DtInfo} {first : Nat}

theorem dtbFromSource_eq {source : DtSource} {compiler : Compiler}
    (parsed : dtFromSource source compiler.nextOrphanFragment = .ok dti) :
    bxxtDtccDtbFromSource source compiler = dtbFromTree dti compiler.phandle := by
  rw [bxxtDtccDtbFromSource, parsed]
  rfl

structure Compiles (first : Nat) (dti : DtInfo) : Prop where
  root : dti.dt.value.deleted = false
  room : EnoughNumbers first (nodesOf dti.dt)
  symbols : Settled first (nodesOf (labelledTree dti.dt)) fun _ _ => True
  fits : BlobFits dti.reservelist.length ((numberNodes first (nodesOf (labelledTree dti.dt))).map (·.value))

structure Carried (first : Nat) (dt blob : Node) : Prop where
  nodes : (nodesOf blob).map Visited.named =
    (numberNodes first (nodesOf (labelledTree dt))).map fun node => (node.path, plainInfo node.value)
  same : Marked (nodesOf dt) → blob = plain (labelledTree dt)

theorem nodesOf_plain {tree : Node} (root : tree.value.deleted = false) :
    (nodesOf (plain tree)).map Visited.named = (nodesOf tree).map fun node => (node.path, plainInfo node.value) := by
  have kept (info : NodeInfo) : live (plainInfo info) = true := rfl
  have alive : live tree.value = true := by simp [live, root]
  have whole : ((plain tree).visit live pathBelow []).map Visited.named =
      ((tree.visit live pathBelow []).map Visited.named).map fun named => (named.1, plainInfo named.2) :=
    Rooted.visit_prune kept (fun _ _ => rfl) alive
  rw [List.map_map] at whole
  exact whole

theorem plainNames_numbered {info : NodeInfo} (sourced : Sourced info) (number : Nat) :
    PlainNames (numbered number info) := by
  refine ⟨by rw [numbered_name]; exact sourced.name, fun prop inside => ?_⟩
  have member := List.mem_of_mem_filter inside
  rw [numbered] at member
  split at member
  · rcases List.mem_append.mp member with own | new
    · exact (sourced.props prop own).name
    · rw [List.mem_singleton] at new
      subst new
      have plain : 0 ∉ phandleName := by decide
      exact plain
  · exact (sourced.props prop member).name

theorem plainNames_nodes {nodes : List (Visited NodeInfo Bytes)} (all : ∀ node ∈ nodes, Sourced node.value) :
    ∀ info ∈ (numberNodes first nodes).map (·.value), PlainNames info := by
  rw [List.forall_mem_map]
  intro after inside
  obtain ⟨k, found⟩ := List.mem_iff_getElem?.mp inside
  obtain ⟨node, here, step⟩ := renumbered_of_after found
  have sourced := all node (List.mem_iff_getElem?.mpr ⟨k, here⟩)
  rcases step.value with ⟨_, same⟩ | ⟨_, number, _, _, same⟩
  · rw [same]
    exact ⟨sourced.name, fun prop inside => (sourced.props prop (List.mem_of_mem_filter inside)).name⟩
  · rw [same]
    exact plainNames_numbered sourced number

theorem compiles_iff (sourced : SourcedTree dti.dt) : Compiles first dti ↔
    ∃ blob info, dtbFromTree dti first = .ok blob ∧ dtFromMem (Region.ofBuffer blob) = .ok info := by
  constructor
  · intro compiles
    have all := sourced_labelledTree compiles.root sourced
    obtain ⟨result, run⟩ := generateLabelTree_enough compiles.root sourced compiles.room compiles.symbols
    obtain ⟨_, _, passed⟩ := generateLabelTree_ok compiles.root sourced run
    have written : dtToMem { dti with dt := result.dt } defaultFdtVersion =
        .ok (blobBytes { dti with dt := result.dt }) := by
      refine dtToMem_eq_ok.mpr ⟨?_, rfl⟩
      rw [infosOf, passed.nodes]
      exact compiles.fits
    have names : ∀ info ∈ infosOf result.dt, PlainNames info := by
      rw [infosOf, passed.nodes]
      exact plainNames_nodes all
    have read := dtFromMem_dtToMem written names
    rw [passed.root] at read
    exact ⟨_, _, Exec.bind_eq_ok.mpr ⟨result, run, written⟩, read⟩
  · rintro ⟨blob, info, run, read⟩
    obtain ⟨result, pass, written⟩ := Exec.bind_eq_ok.mp run
    have root : dti.dt.value.deleted = false := by
      by_contra gone
      rw [Bool.not_eq_false] at gone
      have still : result.dt.value.deleted = true := (generateLabelTree_root pass).trans gone
      have none : infosOf result.dt = [] := by rw [infosOf_root, if_pos still]
      rw [dtFromMem_dtToMem written (by rw [none]; exact List.forall_mem_nil _), if_pos still] at read
      cases read
    obtain ⟨room, settled, passed⟩ := generateLabelTree_ok root sourced pass
    obtain ⟨fits, _⟩ := dtToMem_eq_ok.mp written
    rw [infosOf, passed.nodes] at fits
    exact ⟨root, room, settled, fits⟩

/-- What the blob of a source tree holds. -/
theorem carried (sourced : SourcedTree dti.dt) {blob : Bytes} {info : DtInfo} (run : dtbFromTree dti first = .ok blob)
    (read : dtFromMem (Region.ofBuffer blob) = .ok info) : Carried first dti.dt info.dt := by
  have compiles := (compiles_iff sourced).mpr ⟨blob, info, run, read⟩
  obtain ⟨result, pass, written⟩ := Exec.bind_eq_ok.mp run
  obtain ⟨_, _, passed⟩ := generateLabelTree_ok compiles.root sourced pass
  have names : ∀ info ∈ infosOf result.dt, PlainNames info := by
    rw [infosOf, passed.nodes]
    exact plainNames_nodes (sourced_labelledTree compiles.root sourced)
  rw [dtFromMem_dtToMem written names, passed.root] at read
  cases read
  refine ⟨?_, passed.same⟩
  rw [← passed.nodes]
  exact nodesOf_plain passed.root

end Compile
end Bxxt.Proofs
