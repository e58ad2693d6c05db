import Bxxt.Proofs.BlobSize

/-! How nodes are looked up in a tree, and how they get their numbers. -/

namespace Bxxt.Proofs
open Bxxt ByteLayout BlobBytes SiblingTree

section Lookups

theorem path_of_visit {nodes : Nodes} {top : Bytes} {visited : Visited NodeInfo Bytes}
    (inside : visited ∈ Siblings.visit live pathBelow top nodes) :
    top ++ [slash] <+: visited.path := by
  induction nodes generalizing top visited with
  | nil => cases inside
  | node info children next ihDown ihNext =>
    rcases List.mem_append.mp inside with own | behind
    · split at own
      · have here : top ++ [slash] <+: pathBelow top info := ⟨info.name, by simp [pathBelow]⟩
        rcases List.mem_cons.mp own with rfl | below
        · exact here
        · obtain ⟨child, found, rfl⟩ := List.mem_map.mp below
          have behind := ihDown found
          exact here.trans ((List.prefix_append _ _).trans behind)
      · cases own
    · obtain ⟨later, found, rfl⟩ := List.mem_map.mp behind
      have later := ihNext found
      exact later

theorem subnodeAddress_eq {name : Bytes} (plain : slash ∉ name) (nodes : Nodes) : subnodeAddress name nodes =
    ((Siblings.visit live pathBelow [] nodes).find? fun node => node.path = slash :: name).map (·.address) := by
  have moved (step : Step) (nodes : List (Visited NodeInfo Bytes)) :
      ((nodes.map (·.behind step)).find? fun node => node.path = slash :: name).map (·.address) =
        ((nodes.find? fun node => node.path = slash :: name).map (·.address)).map (step :: ·) := by
    rw [List.find?_map, Option.map_map, Option.map_map]
    rfl
  induction nodes with
  | nil => rfl
  | node info children next _ ih =>
    rw [subnodeAddress, Siblings.visit, List.find?_append]
    by_cases gone : info.deleted = true
    · have dead : ¬ live info = true := by simp [live, gone]
      rw [if_neg (by simp [gone]), if_neg dead, List.find?_nil, Option.none_or, moved, ih]
    · have alive : live info = true := by simp [live, gone]
      rw [if_pos alive]
      by_cases same : info.name = name
      · subst same
        rw [if_pos ⟨by simpa using gone, rfl⟩, List.find?_cons_of_pos (by simp [pathBelow])]
        rfl
      · have below : ((Siblings.visit live pathBelow (pathBelow [] info) children).map (·.behind .down)).find?
            (fun node => node.path = slash :: name) = none := by
          refine List.find?_eq_none.mpr fun node inside => ?_
          obtain ⟨child, found, rfl⟩ := List.mem_map.mp inside
          have front := path_of_visit found
          intro equal
          have equal : child.path = slash :: name := of_decide_eq_true equal
          rw [equal] at front
          have member := front.subset (List.mem_append_right _ List.mem_cons_self)
          obtain ⟨rest, whole⟩ := front
          rw [pathBelow, List.nil_append, List.cons_append, List.cons_append, List.cons.injEq] at whole
          exact plain (whole.2 ▸ by simp)
        rw [if_neg fun both => same both.2, List.find?_cons_of_neg (by simpa [pathBelow] using same), below,
          Option.none_or, moved, ih]

theorem nodesOf_root {tree : Node} (root : tree.value.deleted = false) :
    nodesOf tree = ⟨[], [], tree.value⟩ :: (Siblings.visit live pathBelow [] tree.children).map
      (·.behind .down) := by
  rw [nodesOf, Rooted.visit, if_pos (by simp [live, root])]

theorem getSubnode_eq {tree : Node} (root : tree.value.deleted = false) {name : Bytes} (plain : slash ∉ name) :
    getSubnode tree name = ((nodesOf tree).find? fun node => node.path = slash :: name).map (·.address) := by
  rw [getSubnode, subnodeAddress_eq plain, nodesOf_root root, List.find?_cons_of_neg (by simp), List.find?_map,
    Option.map_map, Option.map_map]
  rfl

def nodeAt (nodes : List (Visited NodeInfo Bytes)) (path : Bytes) : Option NodeInfo :=
  (nodes.find? fun node => node.path = path).map (·.value)

theorem get?_getSubnode {tree : Node} (root : tree.value.deleted = false) {name : Bytes} (plain : slash ∉ name)
    {address : Address} (found : getSubnode tree name = some address) : nodeAt (nodesOf tree)
    (slash :: name) = tree.get? address := by
  rw [getSubnode_eq root plain] at found
  obtain ⟨node, first, rfl⟩ := Option.map_eq_some_iff.mp found
  rw [nodeAt, first, Rooted.get?_of_visit (List.mem_of_find?_eq_some first)]
  rfl

theorem firstAddress_none {test : NodeInfo → Bool} {nodes : Nodes} (top : Bytes) : firstAddress test nodes = none ↔
    ∀ node ∈ Siblings.visit live pathBelow top nodes, test node.value = false := by
  have moved (step : Step) (nodes : List (Visited NodeInfo Bytes)) :
    (∀ node ∈ nodes.map (·.behind step), test node.value = false) ↔
      ∀ node ∈ nodes, test node.value = false := List.forall_mem_map
  induction nodes generalizing top with
  | nil => exact iff_of_true rfl (List.forall_mem_nil _)
  | node info children next ihDown ihNext =>
    have later : firstAddress test next = none ↔ ∀ node ∈ Siblings.visit live pathBelow top next,
      test node.value = false := ihNext top
    rw [firstAddress, Siblings.visit, List.forall_mem_append, moved, ← later]
    by_cases gone : info.deleted = true
    · have dead : ¬ live info = true := by simp [live, gone]
      rw [if_pos gone, if_neg dead, Option.map_eq_none_iff]
      exact (and_iff_right (List.forall_mem_nil _)).symm
    · have alive : live info = true := by simp [live, gone]
      have below : firstAddress test children = none ↔
        ∀ node ∈ Siblings.visit live pathBelow (pathBelow top info) children, test node.value = false :=
          ihDown (pathBelow top info)
      rw [if_neg gone, if_pos alive, List.forall_mem_cons, moved, ← below]
      by_cases own : test info = true
      · simp [own]
      · rw [if_neg own]
        cases firstAddress test children <;> simp [own]

end Lookups
section Numbers
variable {dt : Node} {first count number phandle : Nat}

def phandleName : Bytes := ascii "phandle"

/-- A node with its number. A property of that name is kept. -/
def numbered (number : Nat) (info : NodeInfo) : NodeInfo :=
  if getProperty info phandleName = none then
    addProperty { info with phandle := number } (buildProperty phandleName ⟨beBytes 4 number, []⟩)
  else { info with phandle := number }

/-- The nodes with labels are numbered one after the other. -/
def numberNodes : Nat → List (Visited NodeInfo Bytes) → List (Visited NodeInfo Bytes)
  | _, [] => []
  | number, node :: nodes =>
    if node.value.labels = [] then node :: numberNodes number nodes
    else { node with value := numbered number node.value } :: numberNodes (number + 1) nodes

def labelCount (nodes : List (Visited NodeInfo Bytes)) : Nat := nodes.countP fun node => !node.value.labels.isEmpty

theorem labelCount_cons (node : Visited NodeInfo Bytes) (nodes : List (Visited NodeInfo Bytes)) :
    labelCount (node :: nodes) = labelCount nodes + if node.value.labels = [] then 0 else 1 := by
  rw [labelCount, List.countP_cons]
  cases labels : node.value.labels <;> simp [labelCount]

theorem labelCount_append (nodes more : List (Visited NodeInfo Bytes)) :
    labelCount (nodes ++ more) = labelCount nodes + labelCount more :=
  List.countP_append

theorem numberNodes_append (number : Nat) (nodes more : List (Visited NodeInfo Bytes)) :
    numberNodes number (nodes ++ more) = numberNodes number nodes ++ numberNodes (number + labelCount nodes) more := by
  induction nodes generalizing number with
  | nil => rfl
  | cons node nodes ih =>
    rw [List.cons_append, numberNodes, numberNodes, labelCount_cons]
    by_cases none : node.value.labels = []
    · rw [if_pos none, if_pos none, if_pos none, ih, List.cons_append]
      rfl
    · have count : number + 1 + labelCount nodes = number + (labelCount nodes + 1) := by omega
      rw [if_neg none, if_neg none, if_neg none, ih, List.cons_append, count]

@[simp] theorem numbered_deleted (number : Nat) (info : NodeInfo) : (numbered number info).deleted = info.deleted := by
  rw [numbered]
  split <;> rfl

@[simp] theorem numbered_name (number : Nat) (info : NodeInfo) : (numbered number info).name = info.name := by
  rw [numbered]
  split <;> rfl

@[simp] theorem numbered_phandle (number : Nat) (info : NodeInfo) : (numbered number info).phandle = number := by
  rw [numbered]
  split <;> rfl

/-- What becomes of a node: it stays in its place, and has a number of this range if it has labels.
-/
structure Renumbered (low high : Nat) (node after : Visited NodeInfo Bytes) : Prop where
  address : after.address = node.address
  path : after.path = node.path
  value : node.value.labels = [] ∧ after.value = node.value ∨
    node.value.labels ≠ [] ∧ ∃ number, low ≤ number ∧ number < high ∧
      after.value = numbered number node.value

theorem Renumbered.weaken {low high low' high' : Nat} {node after : Visited NodeInfo Bytes}
    (step : Renumbered low high node after) (down : low' ≤ low) (up : high ≤ high') :
    Renumbered low' high' node after := by
  refine ⟨step.address, step.path, step.value.imp id ?_⟩
  rintro ⟨labels, number, least, below, same⟩
  exact ⟨labels, number, Nat.le_trans down least, Nat.lt_of_lt_of_le below up, same⟩

theorem renumbered (number : Nat) (nodes : List (Visited NodeInfo Bytes)) :
    List.Forall₂ (Renumbered number (number + labelCount nodes)) nodes (numberNodes number nodes) := by
  induction nodes generalizing number with
  | nil => exact .nil
  | cons node nodes ih =>
    rw [numberNodes, labelCount_cons]
    by_cases none : node.value.labels = []
    · rw [if_pos none, if_pos none]
      exact .cons ⟨rfl, rfl, Or.inl ⟨none, rfl⟩⟩ (ih number)
    · rw [if_neg none, if_neg none]
      refine .cons ⟨rfl, rfl, Or.inr ⟨none, number, Nat.le_refl _, by omega, rfl⟩⟩ ?_
      exact (ih (number + 1)).imp fun _ _ step => step.weaken (by omega) (by omega)

theorem renumbered_of_after {nodes : List (Visited NodeInfo Bytes)} {number k : Nat} {after : Visited NodeInfo Bytes}
    (found : (numberNodes number nodes)[k]? = some after) :
    ∃ node, nodes[k]? = some node ∧ Renumbered number (number + labelCount nodes) node after := by
  obtain ⟨inside, rfl⟩ := List.getElem?_eq_some_iff.mp found
  have steps := renumbered number nodes
  have bound : k < nodes.length := steps.length_eq ▸ inside
  exact ⟨nodes[k], List.getElem?_eq_getElem bound, steps.get bound inside⟩

theorem renumbered_of_node {nodes : List (Visited NodeInfo Bytes)} {number k : Nat} {node : Visited NodeInfo Bytes}
    (found : nodes[k]? = some node) :
    ∃ after, (numberNodes number nodes)[k]? = some after ∧
      Renumbered number (number + labelCount nodes) node after := by
  obtain ⟨inside, rfl⟩ := List.getElem?_eq_some_iff.mp found
  have steps := renumbered number nodes
  have bound : k < (numberNodes number nodes).length := steps.length_eq ▸ inside
  exact ⟨(numberNodes number nodes)[k], List.getElem?_eq_getElem bound, steps.get inside bound⟩

theorem numberNodes_last {nodes : List (Visited NodeInfo Bytes)} (labelled : labelCount nodes ≠ 0) (number : Nat) :
    ∃ node ∈ numberNodes number nodes, node.value.phandle = number + labelCount nodes - 1 := by
  induction nodes generalizing number with
  | nil => exact absurd rfl labelled
  | cons node nodes ih =>
    rw [labelCount_cons] at labelled ⊢
    rw [numberNodes]
    by_cases none : node.value.labels = []
    · rw [if_pos none] at labelled ⊢
      obtain ⟨last, inside, same⟩ := ih labelled number
      rw [if_pos none]
      exact ⟨last, List.mem_cons_of_mem _ inside, same⟩
    · rw [if_neg none, if_neg none]
      by_cases only : labelCount nodes = 0
      · refine ⟨_, List.mem_cons_self, ?_⟩
        rw [numbered_phandle]
        omega
      · obtain ⟨last, inside, same⟩ := ih only (number + 1)
        exact ⟨last, List.mem_cons_of_mem _ inside, by omega⟩

def ValidPhandle (phandle : Nat) : Prop := phandle ≠ 0 ∧ phandle ≠ 2 ^ 32 - 1

theorem getNodeByPhandle_free (root : dt.value.deleted = false) (valid : ValidPhandle phandle)
    (free : ∀ node ∈ nodesOf dt, node.value.phandle ≠ phandle) : getNodeByPhandle dt phandle = .ok none := by
  rw [nodesOf_root root, List.forall_mem_cons] at free
  have below : firstAddress (fun info => info.phandle = phandle) dt.children = none := by
    refine (firstAddress_none []).mpr fun node inside => decide_eq_false ?_
    have other := free.2 _ (List.mem_map_of_mem inside)
    exact other
  rw [getNodeByPhandle, if_neg (not_or.mpr valid), if_neg free.1, below]
  rfl

theorem getNodeByPhandle_taken (root : dt.value.deleted = false) (valid : ValidPhandle phandle)
    (taken : ∃ node ∈ nodesOf dt, node.value.phandle = phandle) : ∃ address, getNodeByPhandle dt phandle =
    .ok (some address) := by
  rw [getNodeByPhandle, if_neg (not_or.mpr valid), root]
  by_cases own : dt.value.phandle = phandle
  · exact ⟨[], if_pos own⟩
  · rw [if_neg own]
    cases found : firstAddress (fun info => info.phandle = phandle) dt.children with
    | some address => exact ⟨_, rfl⟩
    | none =>
      obtain ⟨node, inside, same⟩ := taken
      rw [nodesOf_root root] at inside
      rcases List.mem_cons.mp inside with rfl | below
      · exact absurd same own
      · obtain ⟨child, member, rfl⟩ := List.mem_map.mp below
        have other := (firstAddress_none []).mp found child member
        exact absurd same (of_decide_eq_false other)

theorem freePhandle_free (root : dt.value.deleted = false)
    (free : ∀ node ∈ nodesOf dt, node.value.phandle ≠ phandle) :
    freePhandle dt (2 ^ 32 - phandle) phandle = .ok number ↔ number = phandle ∧ 0 < phandle ∧
      phandle + 1 < 2 ^ 32 := by
  by_cases small : phandle < 2 ^ 32
  · obtain ⟨fuel, same⟩ := Nat.exists_eq_add_one_of_ne_zero (Nat.sub_ne_zero_of_lt small)
    rw [same, freePhandle]
    by_cases valid : ValidPhandle phandle
    · have bounds : 0 < phandle ∧ phandle + 1 < 2 ^ 32 := by
        obtain ⟨positive, below⟩ := valid
        omega
      rw [getNodeByPhandle_free root valid free, Exec.ok_bind, and_iff_left bounds]
      exact ⟨fun same => (Except.ok.inj same).symm, fun same => congrArg Except.ok same.symm⟩
    · have fault : getNodeByPhandle dt phandle = .error .exited := by
        rw [getNodeByPhandle, if_pos (by rw [ValidPhandle] at valid; tauto)]
      rw [fault]
      refine iff_of_false (by rintro ⟨⟩) fun both => valid ⟨?_, ?_⟩ <;> omega
  · have none : 2 ^ 32 - phandle = 0 := by omega
    rw [none, freePhandle]
    exact iff_of_false (by simp) fun both => by omega

theorem freePhandle_taken (root : dt.value.deleted = false) (valid : ValidPhandle phandle) (small : phandle < 2 ^ 32)
    (taken : ∃ node ∈ nodesOf dt, node.value.phandle = phandle) :
    freePhandle dt (2 ^ 32 - phandle) phandle = freePhandle dt (2 ^ 32 - (phandle + 1)) (phandle + 1) := by
  obtain ⟨address, found⟩ := getNodeByPhandle_taken root valid taken
  have fuel : 2 ^ 32 - phandle = 2 ^ 32 - (phandle + 1) + 1 := by omega
  rw [fuel, freePhandle, found, Exec.ok_bind]

/-- The numbers from `first` on that have been handed out, of which the last is kept in `phandle`,
and no node has one that is still to come. -/
structure Handed (first count : Nat) (state : Numbering) : Prop where
  last : count = 0 ∧ state.phandle = first ∨
    count ≠ 0 ∧ 0 < first ∧ first + count < 2 ^ 32 ∧ state.phandle = first + count - 1 ∧
      ∃ node ∈ nodesOf state.dt, node.value.phandle = state.phandle
  others : ∀ node ∈ nodesOf state.dt, node.value.phandle = 0 ∨ node.value.phandle < first + count

theorem Handed.next {state : Numbering} (handed : Handed first count state) (root : state.dt.value.deleted = false) :
    freePhandle state.dt (2 ^ 32 - state.phandle) state.phandle = .ok number ↔
      number = first + count ∧ 0 < first ∧ first + (count + 1) < 2 ^ 32 := by
  have free (positive : 0 < first + count) : ∀ node ∈ nodesOf state.dt, node.value.phandle ≠ first + count := by
    intro node inside same
    rcases handed.others node inside with none | below <;> omega
  rcases handed.last with ⟨rfl, start⟩ | ⟨some, positive, small, last, taken⟩
  · rw [start]
    rcases Nat.eq_zero_or_pos first with rfl | positive
    · have fault : getNodeByPhandle state.dt 0 = .error .exited := if_pos (Or.inl rfl)
      have fuel : 2 ^ 32 - 0 = 2 ^ 32 - 1 + 1 := by omega
      rw [fuel, freePhandle, fault]
      exact iff_of_false (by rintro ⟨⟩) fun both => absurd both.2.1 (Nat.lt_irrefl 0)
    · exact freePhandle_free root (free positive)
  · have valid : ValidPhandle state.phandle := ⟨by omega, by omega⟩
    have next : state.phandle + 1 = first + count := by omega
    rw [freePhandle_taken root valid (by omega) taken, next, freePhandle_free root (free (by omega))]
    constructor
    · rintro ⟨same, _, bound⟩
      exact ⟨same, positive, by omega⟩
    · rintro ⟨same, _, bound⟩
      exact ⟨same, by omega, by omega⟩

theorem addPhandles_eq (number : Nat) (info : NodeInfo) : (do
    let info ← addPhandle (ascii "linux,phandle") phandleLegacy number { info with phandle := number }
    addPhandle (ascii "phandle") phandleEpapr number info) = .ok (numbered number info) := by
  have legacy : addPhandle (ascii "linux,phandle") phandleLegacy number { info with phandle := number } =
      .ok { info with phandle := number } := if_neg fun both => both.2 rfl
  have cell : dataAppendCell emptyData number = .ok ⟨beBytes 4 number, []⟩ := cell_eq_ok.mpr ⟨by decide, rfl⟩
  rw [legacy, Exec.ok_bind, addPhandle, cell, numbered]
  by_cases none : getProperty info phandleName = none
  · rw [if_pos none]
    exact if_pos ⟨none, by decide⟩
  · rw [if_neg none]
    exact if_neg fun both => none both.1

theorem getNodePhandle_eq {state : Numbering} {address : Address} {info : NodeInfo}
    (found : state.dt.get? address = some info) (bare : ¬ (info.phandle ≠ 0 ∧ info.phandle ≠ 2 ^ 32 - 1)) :
    getNodePhandle state address = (do
      let number ← freePhandle state.dt (2 ^ 32 - state.phandle) state.phandle
      return ⟨state.dt.modify (numbered number) address, number⟩) := by
  have own (number : Nat) : state.dt.modify (fun _ => numbered number info) address =
      state.dt.modify (numbered number) address := by
    refine Rooted.modify_congr fun value same => ?_
    rw [found] at same
    cases same
    rfl
  have whole (number : Nat) : (do
      let info ← addPhandle (ascii "linux,phandle") phandleLegacy number { info with phandle := number }
      let info ← addPhandle (ascii "phandle") phandleEpapr number info
      return ⟨state.dt.modify (fun _ => info) address, number⟩ : Exec Numbering) =
        .ok ⟨state.dt.modify (numbered number) address, number⟩ := by
    rw [← bind_assoc, addPhandles_eq, Exec.ok_bind, own]
    rfl
  rw [getNodePhandle, found]
  dsimp only
  rw [if_neg bare]
  exact congrArg (_ >>= ·) (funext whole)

/-- A node without a number gets the next one. -/
theorem getNodePhandle_ok {state result : Numbering} (handed : Handed first count state)
    (root : state.dt.value.deleted = false) {address : Address} {info : NodeInfo}
    (found : state.dt.get? address = some info) (bare : info.phandle = 0) :
    getNodePhandle state address = .ok result ↔ (0 < first ∧ first + (count + 1) < 2 ^ 32) ∧
      result = ⟨state.dt.modify (numbered (first + count)) address, first + count⟩ := by
  rw [getNodePhandle_eq found (fun both => both.1 bare), Exec.bind_eq_ok]
  constructor
  · rintro ⟨number, free, same⟩
    obtain ⟨rfl, bounds⟩ := (handed.next root).mp free
    exact ⟨bounds, (Except.ok.inj same).symm⟩
  · rintro ⟨bounds, rfl⟩
    exact ⟨_, (handed.next root).mpr ⟨rfl, bounds⟩, rfl⟩

end Numbers

end Bxxt.Proofs
