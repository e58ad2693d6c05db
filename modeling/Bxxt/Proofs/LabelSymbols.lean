import Bxxt.Proofs.LabelPass

/-! What becomes of the labels of a source: no label gets a symbol that is not there before, so that
a tree with labels is only compiled if its source has their symbols. -/

namespace Bxxt.Proofs
open Bxxt ByteLayout BlobBytes SiblingTree

section Blobs
variable {info : NodeInfo} {name : Bytes}

theorem getProperty_live (info : NodeInfo) (name : Bytes) :
    getProperty info name = (liveProps info).find? fun prop => prop.name = name := by
  rw [getProperty, liveProps, List.find?_filter]
  exact congrArg (List.find? · info.proplist) (funext fun prop => by simp)

theorem liveProps_plain (info : NodeInfo) : liveProps (plainInfo info) = (liveProps info).map plainProp := by
  rw [liveProps, plainInfo, List.filter_map]
  exact congrArg _ (List.filter_eq_self.mpr fun _ _ => rfl)

theorem getProperty_plain (info : NodeInfo) (name : Bytes) : getProperty (plainInfo info) name =
    (getProperty info name).map plainProp := by
  rw [getProperty_live, getProperty_live, liveProps_plain, List.find?_map]
  rfl

/-- A property stays where it is when the node is numbered. -/
theorem getProperty_numbered {prop : Property} (found : getProperty info name = some prop) (number : Nat) :
    getProperty (numbered number info) name = some prop := by
  rw [numbered]
  split
  · have whole :
      getProperty (addProperty { info with phandle := number }
        (buildProperty phandleName ⟨beBytes 4 number, []⟩)) name =
        (getProperty info name).or _ := List.find?_append
    rw [whole, found]
    rfl
  · exact found

def fullPath (path : Bytes) : Bytes := if path = [] then [slash] else path

def cellOf (prop : Property) : Option Nat := if prop.val.val.length = 4 then some (beValue prop.val.val) else none

/-- The number that a node of a blob has. -/
def nodeNumber (info : NodeInfo) : Option Nat :=
  match getProperty info phandleName with
  | some prop => cellOf prop
  | none => (getProperty info (ascii "linux,phandle")).bind cellOf

theorem nodeNumber_plain (info : NodeInfo) : nodeNumber (plainInfo info) = nodeNumber info := by
  rw [nodeNumber, nodeNumber, getProperty_plain, getProperty_plain]
  cases getProperty info phandleName with
  | some prop => rfl
  | none => cases getProperty info (ascii "linux,phandle") <;> rfl

def UniqueNumber (infos : List NodeInfo) (k : Nat) : Prop :=
  ∃ info number, infos[k]? = some info ∧ nodeNumber info = some number ∧ ValidPhandle number ∧
    ∀ (j : Nat) other, infos[j]? = some other → nodeNumber other = some number → j = k

theorem uniqueNumber_plain (infos : List NodeInfo) (k : Nat) :
    UniqueNumber (infos.map plainInfo) k ↔ UniqueNumber infos k := by
  constructor
  · rintro ⟨_, number, found, own, valid, others⟩
    rw [List.getElem?_map] at found
    obtain ⟨info, here, rfl⟩ := Option.map_eq_some_iff.mp found
    refine ⟨info, number, here, (nodeNumber_plain info).symm.trans own, valid, fun j other inside same => ?_⟩
    exact others j (plainInfo other) (by rw [List.getElem?_map, inside]; rfl) ((nodeNumber_plain other).trans same)
  · rintro ⟨info, number, here, own, valid, others⟩
    refine ⟨plainInfo info, number, by rw [List.getElem?_map, here]; rfl, (nodeNumber_plain info).trans own, valid,
      fun j other inside same => ?_⟩
    rw [List.getElem?_map] at inside
    obtain ⟨source, there, rfl⟩ := Option.map_eq_some_iff.mp inside
    exact others j source there ((nodeNumber_plain source).symm.trans same)

end Blobs
section Symbols
variable {first : Nat} {dt blob : Node}

/-- The symbols node keeps its place, and what it has. -/
theorem nodeAt_numberNodes {nodes : List (Visited NodeInfo Bytes)} {path : Bytes} {info : NodeInfo}
    (found : nodeAt nodes path = some info) (number : Nat) : ∃ after, nodeAt (numberNodes number nodes) path =
    some after ∧ (after = info ∨ ∃ given, after = numbered given info) := by
  induction nodes generalizing number with
  | nil => cases found
  | cons node nodes ih =>
    rw [nodeAt, List.find?_cons] at found
    rw [numberNodes]
    by_cases here : node.path = path
    · rw [decide_eq_true here] at found
      cases found
      by_cases none : node.value.labels = []
      · rw [if_pos none, nodeAt, List.find?_cons, decide_eq_true here]
        exact ⟨_, rfl, Or.inl rfl⟩
      · rw [if_neg none, nodeAt, List.find?_cons, decide_eq_true here]
        exact ⟨_, rfl, Or.inr ⟨number, rfl⟩⟩
    · rw [decide_eq_false here] at found
      by_cases none : node.value.labels = []
      · rw [if_pos none, nodeAt, List.find?_cons, decide_eq_false here]
        exact ih found number
      · rw [if_neg none, nodeAt, List.find?_cons, decide_eq_false here]
        exact ih found (number + 1)

theorem nodeAt_append (nodes more : List (Visited NodeInfo Bytes)) (path : Bytes) :
    nodeAt (nodes ++ more) path = (nodeAt nodes path).or (nodeAt more path) := by
  rw [nodeAt, nodeAt, nodeAt, List.find?_append]
  cases nodes.find? fun node => node.path = path <;> rfl

theorem symbol_stays {front back : List (Visited NodeInfo Bytes)} {node : Visited NodeInfo Bytes}
    {symbols : NodeInfo} {label : Bytes} {prop : Property}
    (found : nodeAt (numberNodes first front ++ node :: back) symbolsPath = some symbols)
    (named : getProperty symbols label = some prop) :
    ∃ after, nodeAt (numberNodes first (front ++ node :: back)) symbolsPath = some after ∧
      getProperty after label = some prop := by
  rw [nodeAt_append] at found
  rw [numberNodes_append, nodeAt_append]
  cases before : nodeAt (numberNodes first front) symbolsPath with
  | some info =>
    rw [before] at found
    cases found
    exact ⟨_, rfl, named⟩
  | none =>
    rw [before] at found
    obtain ⟨after, there, same⟩ := nodeAt_numberNodes found (first + labelCount front)
    refine ⟨after, there, ?_⟩
    rcases same with rfl | ⟨given, rfl⟩
    · exact named
    · exact getProperty_numbered named given

theorem carried_root (carried : Carried first dt blob) (root : dt.value.deleted = false) :
    blob.value.deleted = false := by
  by_contra gone
  rw [Bool.not_eq_false] at gone
  have none : nodesOf blob = [] := by
    rw [nodesOf, Rooted.visit, if_neg (by simp [live, gone])]
  have length := congrArg List.length carried.nodes
  rw [none, List.length_map, List.length_map, ← (renumbered first _).length_eq, nodesOf_labelledTree root,
    nodesOf_root root] at length
  simp at length

theorem carried_symbols (carried : Carried first dt blob) (root : dt.value.deleted = false) {symbols : NodeInfo}
    (found : nodeAt (numberNodes first (nodesOf (labelledTree dt))) symbolsPath = some symbols) :
    ∃ address, getSubnode blob symbolsName = some address ∧ blob.get? address = some (plainInfo symbols) := by
  have named (nodes : List (Visited NodeInfo Bytes)) :
      nodeAt nodes symbolsPath = ((nodes.map Visited.named).find? fun named => named.1 = symbolsPath).map (·.2) := by
    rw [nodeAt, List.find?_map, Option.map_map]
    rfl
  have here : nodeAt (nodesOf blob) symbolsPath = some (plainInfo symbols) := by
    rw [named, carried.nodes, List.find?_map]
    obtain ⟨node, first, rfl⟩ := Option.map_eq_some_iff.mp found
    have same : List.find? ((fun named : Bytes × NodeInfo => decide (named.1 = symbolsPath)) ∘
        fun node : Visited NodeInfo Bytes =>
        (node.path, plainInfo node.value)) (numberNodes _ (nodesOf (labelledTree dt))) = some node := first
    rw [same]
    rfl
  have blobRoot := carried_root carried root
  have address := getSubnode_eq blobRoot symbols_plain
  cases place : getSubnode blob symbolsName with
  | some address => exact ⟨address, rfl, (get?_getSubnode blobRoot symbols_plain place).symm.trans here⟩
  | none =>
    rw [place] at address
    have missing : (nodesOf blob).find? (fun node => node.path = symbolsPath) = none :=
      Option.map_eq_none_iff.mp address.symm
    rw [nodeAt, missing] at here
    cases here

/-- What the labels of a tree are for: each is a symbol of the blob with the path of its node, and
each node with labels has a number of its own. A tree without labels is left as it is. -/
structure LabelsKept (tree blob : Node) : Prop where
  symbols : ∀ node ∈ nodesOf tree, ∀ label ∈ liveLabels node.value, ∃ address symbols prop,
    getSubnode blob symbolsName = some address ∧ blob.get? address = some symbols ∧
      getProperty symbols label = some prop ∧
      prop.val.val = fullPath node.path ++ [0]
  numbers : ∀ (k : Nat) node, (nodesOf tree)[k]? = some node → liveLabels node.value ≠ [] →
    (∃ own, (nodesOf blob)[k]? = some own ∧ own.path = node.path) ∧ UniqueNumber (infosOf blob) k
  unchanged : (∀ node ∈ nodesOf tree, liveLabels node.value = []) → blob = plain tree

def LabelsBecomeSymbols (tree : Node) (run : Exec Bytes) : Prop :=
  ∃ blob info, run = .ok blob ∧ dtFromMem (Region.ofBuffer blob) = .ok info ∧ LabelsKept tree info.dt

/-- The sources for which the pass has nothing to add: the labels are symbols with the right paths
before it is compiled. -/
structure LabelsSettled (first : Nat) (dti : DtInfo) : Prop where
  compiles : Compiles first dti
  symbols : Settled first (nodesOf (labelledTree dti.dt)) fun node prop => prop.val.val = fullPath node.path ++ [0]
  numbers : ∀ (k : Nat) node, (nodesOf dti.dt)[k]? = some node → liveLabels node.value ≠ [] →
    UniqueNumber ((numberNodes first (nodesOf (labelledTree dti.dt))).map (·.value)) k
  unchanged : (∀ node ∈ nodesOf dti.dt, liveLabels node.value = []) → anyLabelTree dti.dt = true →
    getSubnode dti.dt symbolsName ≠ none ∧ Marked (nodesOf dti.dt)

theorem infosOf_carried (carried : Carried first dt blob) :
    infosOf blob = ((numberNodes first (nodesOf (labelledTree dt))).map (·.value)).map plainInfo := by
  have values := congrArg (List.map Prod.snd) carried.nodes
  rw [List.map_map, List.map_map] at values
  rw [infosOf, List.map_map]
  exact values

theorem labels_of_nodes {dt : Node} {node : Visited NodeInfo Bytes} (root : dt.value.deleted = false)
    (inside : node ∈ nodesOf (labelledTree dt)) (labels : liveLabels node.value ≠ []) : node ∈ nodesOf dt := by
  rw [nodesOf_labelledTree root] at inside
  rcases List.mem_append.mp inside with own | new
  · exact own
  · split at new
    · rw [List.mem_singleton] at new
      subst new
      exact absurd rfl labels
    · cases new

theorem getElem?_labelledTree {dt : Node} {node : Visited NodeInfo Bytes} {k : Nat} (root : dt.value.deleted = false)
    (found : (nodesOf dt)[k]? = some node) : (nodesOf (labelledTree dt))[k]? = some node := by
  rw [nodesOf_labelledTree root, List.getElem?_append_left (List.getElem?_eq_some_iff.mp found).1, found]

/-- The labels of a source are symbols of its blob exactly when they are symbols of the source. -/
theorem labelsKept_iff {dti : DtInfo} (sourced : SourcedTree dti.dt) :
    LabelsBecomeSymbols dti.dt (dtbFromTree dti first) ↔ LabelsSettled first dti := by
  constructor
  · rintro ⟨blob, info, run, read, kept⟩
    have compiles := (compiles_iff sourced).mpr ⟨blob, info, run, read⟩
    have root := compiles.root
    have carried := carried sourced run read
    refine ⟨compiles, fun front node back whole label inside => ?_, fun k node found labels =>
      ?_, fun none any => ?_⟩
    · obtain ⟨symbols, prop, found, named, _⟩ := compiles.symbols front node back whole label inside
      refine ⟨symbols, prop, found, named, ?_⟩
      obtain ⟨after, there, stays⟩ := symbol_stays found named
      rw [← whole] at there
      obtain ⟨place, subnode, info'⟩ := carried_symbols carried root there
      have member : node ∈ nodesOf dti.dt := by
        refine labels_of_nodes root (by rw [whole]; exact List.mem_append_right _ List.mem_cons_self) fun none => ?_
        rw [none] at inside
        cases inside
      obtain ⟨address, own, value, subnode', info'', named', path⟩ := kept.symbols node member label inside
      rw [subnode] at subnode'
      cases subnode'
      rw [info'] at info''
      cases info''
      rw [getProperty_plain, stays] at named'
      cases named'
      exact path
    · have unique := (kept.numbers k node found labels).2
      rw [infosOf_carried carried] at unique
      exact (uniqueNumber_plain _ k).mp unique
    · have unchanged := kept.unchanged none
      have named := carried.nodes
      rw [unchanged, nodesOf_plain root] at named
      have length := congrArg List.length named
      have total := (renumbered first (nodesOf (labelledTree dti.dt))).length_eq
      rw [List.length_map, List.length_map, ← total, nodesOf_labelledTree root, List.length_append] at length
      have there : ¬ (anyLabelTree dti.dt = true ∧ getSubnode dti.dt symbolsName = Option.none) := by
        intro added
        rw [if_pos added, List.length_singleton] at length
        omega
      have same : nodesOf (labelledTree dti.dt) = nodesOf dti.dt := by
        rw [nodesOf_labelledTree root, if_neg there, List.append_nil]
      refine ⟨fun missing => there ⟨any, missing⟩, fun node inside labels bare => ?_⟩
      obtain ⟨k, found⟩ := List.mem_iff_getElem?.mp inside
      obtain ⟨after, later, step⟩ := @renumbered_of_node _ first k node found
      have both := congrArg (·[k]?) named
      rw [same, List.getElem?_map, List.getElem?_map, found, later] at both
      obtain ⟨_, equal⟩ := Prod.mk.inj (Option.some.inj both)
      rcases step.value with ⟨noLabels, _⟩ | ⟨_, number, _, _, value⟩
      · exact labels noLabels
      · have count := congrArg (fun info => info.proplist.length) equal
        have more : liveProps (numbered number node.value) = liveProps node.value ++
            [buildProperty phandleName ⟨beBytes 4 number, []⟩] := by
          rw [numbered, if_pos bare, liveProps, liveProps, addProperty, List.filter_append]
          rfl
        rw [value, plainInfo, plainInfo, more, List.length_map, List.length_map, List.length_append,
          List.length_singleton] at count
        omega
  · intro settled
    have root := settled.compiles.root
    obtain ⟨blob, info, run, read⟩ := (compiles_iff sourced).mp settled.compiles
    have carried := carried sourced run read
    refine ⟨blob, info, run, read, fun node inside label own => ?_, fun k node found labels =>
      ⟨?_, ?_⟩, fun none => ?_⟩
    · have member : node ∈ nodesOf (labelledTree dti.dt) := by
        rw [nodesOf_labelledTree root]
        exact List.mem_append_left _ inside
      obtain ⟨front, back, whole⟩ := List.append_of_mem member
      obtain ⟨symbols, prop, found, named, path⟩ := settled.symbols front node back whole label own
      obtain ⟨after, there, stays⟩ := symbol_stays found named
      rw [← whole] at there
      obtain ⟨address, subnode, info'⟩ := carried_symbols carried root there
      refine ⟨address, plainInfo after, plainProp prop, subnode, info', ?_, path⟩
      rw [getProperty_plain, stays]
      rfl
    · obtain ⟨after, later, step⟩ := @renumbered_of_node _ first k node (getElem?_labelledTree root found)
      have both := congrArg (·[k]?) carried.nodes
      rw [List.getElem?_map, List.getElem?_map, later] at both
      obtain ⟨own, here, same⟩ := Option.map_eq_some_iff.mp both
      exact ⟨own, here, (congrArg Prod.fst same).trans step.path⟩
    · rw [infosOf_carried carried]
      exact (uniqueNumber_plain _ k).mpr (settled.numbers k node found labels)
    · by_cases any : anyLabelTree dti.dt = true
      · obtain ⟨there, marked⟩ := settled.unchanged none any
        obtain ⟨address, found⟩ := Option.ne_none_iff_exists'.mp there
        rw [carried.same marked, labelledTree, if_pos any, symbolsTree_of_some found]
      · have noLabels := (anyLabelTree_eq root).mp (by simpa using any)
        rw [carried.same fun node inside labels => absurd (noLabels node inside) labels, labelledTree, if_neg any]

end Symbols
section Sources

/-- The labels of a source become symbols exactly when they are there before. -/
theorem labels_become_symbols_iff {source : DtSource} {compiler : Compiler} {dti : DtInfo}
    (parsed : dtFromSource source compiler.nextOrphanFragment = .ok dti) :
    LabelsBecomeSymbols dti.dt (bxxtDtccDtbFromSource source compiler) ↔ LabelsSettled compiler.phandle dti := by
  rw [dtbFromSource_eq parsed]
  exact labelsKept_iff (dtFromSource_sourced parsed)

def sourceWord (text : String) (filled : ascii text ≠ []) (plain : 0 ∉ ascii text) : Word :=
  ⟨ascii text, filled, plain⟩

def childWord : Word := sourceWord "a" (by decide) (by decide)

def childSource (labels : List Word) : DtSource :=
  ⟨dtsfV1, [], some ⟨[], .node ⟨labels, childWord, false, []⟩ .nil .nil⟩, []⟩

def childTree : Node :=
  ⟨⟨false, [], [], none, 0, 0, []⟩, .node ⟨false, ascii "a", [], none, 0, 0, []⟩ .nil .nil⟩

def symbolsWord : Word := ⟨symbolsName, by decide, by decide⟩

def labelWord : Word := sourceWord "l" (by decide) (by decide)

/-- `/ { l: a { }; __symbols__ { l = "/a"; }; };` -/
def settledSource : DtSource :=
  ⟨dtsfV1, [], some ⟨[], .node ⟨[labelWord], childWord, false, []⟩ .nil
    (.node ⟨[], symbolsWord, false, [.assign labelWord [.string (ascii "/a")]]⟩ .nil .nil)⟩, []⟩

def symbolProp : Property := ⟨false, ascii "l", ⟨ascii "/a" ++ [0], []⟩, []⟩

def settledTree : Node :=
  ⟨⟨false, [], [], none, 0, 0, []⟩, .node ⟨false, ascii "a", [], none, 0, 0, [⟨false, ascii "l"⟩]⟩ .nil
    (.node ⟨false, symbolsName, [symbolProp], none, 0, 0, []⟩ .nil .nil)⟩

theorem settled_present {holds : Visited NodeInfo Bytes → Property → Prop}
    (same : ∀ node, node.path = ascii "/a" → holds node symbolProp) :
    Settled 1 (nodesOf (labelledTree settledTree)) holds := by
  have nodes : ∃ root child symbols, nodesOf (labelledTree settledTree) = [root, child, symbols] ∧
    liveLabels root.value = [] ∧
      child.path = ascii "/a" ∧ liveLabels child.value = [ascii "l"] ∧ liveLabels symbols.value = [] ∧
      nodeAt (numberNodes 1 [root] ++ [child, symbols]) symbolsPath = some symbols.value ∧
      getProperty symbols.value (ascii "l") = some symbolProp := ⟨_, _, _, rfl, rfl, rfl, rfl, rfl, rfl, rfl⟩
  obtain ⟨root, child, symbols, whole, bare, path, labels, none, found, named⟩ := nodes
  rw [whole]
  intro front node back shape label inside
  obtain _ | ⟨_, _ | ⟨_, _ | ⟨_, front⟩⟩⟩ := front
  · cases shape
    rw [bare] at inside
    cases inside
  · cases shape
    rw [labels, List.mem_singleton] at inside
    exact ⟨_, symbolProp, found, inside ▸ named, same _ path⟩
  · cases shape
    rw [none] at inside
    cases inside
  · have short := congrArg List.length shape
    simp only [List.length_cons, List.length_append, List.length_nil] at short
    omega

/-- A child whose label is a symbol with its path. -/
theorem settled_label_kept : LabelsBecomeSymbols settledTree (bxxtDtccDtbFromSource settledSource Compiler.fresh) := by
  have parsed : dtFromSource settledSource Compiler.fresh.nextOrphanFragment = .ok ⟨dtsfV1, [], settledTree, 0⟩ :=
    by decide
  refine (labels_become_symbols_iff parsed).mpr ⟨⟨rfl, ?room, settled_present fun _ _ => trivial, ?fits⟩,
    settled_present ?path, ?numbers, ?unchanged⟩
  case room => exact fun _ => ⟨by decide, by decide⟩
  case fits =>
    have half {length more : Nat} (small : length + more ≤ 2 ^ 30) : CanGrow intMax length more :=
      canGrow_of_le_half (by decide) small
    have names : TableFits [phandleName, ascii "l"] [] :=
      ⟨fun _ => half (by decide), fun _ => half (by decide), trivial⟩
    exact ⟨by decide, names, Or.inl rfl, by decide, half (by decide), half (by decide)⟩
  case path =>
    intro node path
    rw [path]
    rfl
  case numbers =>
    intro k node found labels
    rcases k with _ | _ | _ | k
    · cases found
      exact absurd rfl labels
    · refine ⟨_, 1, rfl, by decide, ⟨by decide, by decide⟩, fun j other inside same => ?_⟩
      rcases j with _ | _ | _ | j
      · cases inside
        exact absurd same (by decide)
      · rfl
      · cases inside
        exact absurd same (by decide)
      · cases inside
    · cases found
      exact absurd rfl labels
    · cases found
  case unchanged =>
    intro none
    exact absurd (none _ (List.mem_cons_of_mem _ List.mem_cons_self)) (by decide)
/-- The label of a child ends the run. -/
theorem labelled_child_fails : ∃ dti, dtFromSource (childSource [labelWord]) Compiler.fresh.nextOrphanFragment =
    .ok dti ∧
    ¬ LabelsBecomeSymbols dti.dt (bxxtDtccDtbFromSource (childSource [labelWord]) Compiler.fresh) := by
  have fault : bxxtDtccDtbFromSource (childSource [labelWord]) Compiler.fresh = .error .nullPointer := rfl
  refine ⟨_, rfl, ?_⟩
  rintro ⟨blob, info, run, _⟩
  rw [fault] at run
  cases run

end Sources
end Bxxt.Proofs
