import Mathlib

/-! Trees whose nodes have a first child and a next sibling. A node is known by the steps that lead to it. -/

namespace SiblingTree
universe u v w

inductive Siblings (α : Type u) where
  | nil
  | node (value : α) (children next : Siblings α)
  deriving DecidableEq, Repr

inductive Step where
  | down
  | next
  deriving DecidableEq, Repr

abbrev Address := List Step

/-- A node on a walk through a tree, with what is known from the nodes above it. -/
structure Visited (α : Type u) (β : Type v) where
  address : Address
  path : β
  value : α

namespace Visited
variable {α : Type u} {β : Type v}

/-- The node, as it is seen from one step further up. -/
def behind (step : Step) (visited : Visited α β) : Visited α β :=
  { visited with address := step :: visited.address }

def named (visited : Visited α β) : β × α := (visited.path, visited.value)

@[simp] theorem behind_named (step : Step) (visited : Visited α β) :
    (visited.behind step).named = visited.named := rfl

def update (change : α → α) (address : Address) (visited : Visited α β) : Visited α β :=
  if visited.address = address then { visited with value := change visited.value } else visited

@[simp] theorem update_address (change : α → α) (address : Address) (visited : Visited α β) :
    (visited.update change address).address = visited.address := by
  unfold update
  split <;> rfl

theorem update_behind (change : α → α) (step : Step) (address : Address) (visited : Visited α β) :
    (visited.behind step).update change (step :: address) = (visited.update change address).behind step := by
  by_cases same : visited.address = address <;> simp [update, behind, same]

theorem update_other {change : α → α} {address : Address} {visited : Visited α β}
    (other : visited.address ≠ address) :
    visited.update change address = visited := if_neg other

/-- Where the addresses are different, a change of one node is a change of one item. -/
theorem map_update_middle (change : α → α) {front back : List (Visited α β)} {visited : Visited α β}
    (apart : ((front ++ visited :: back).map (·.address)).Nodup) :
    (front ++ visited :: back).map (·.update change visited.address) =
      front ++ { visited with value := change visited.value } :: back := by
  rw [List.map_append, List.map_cons] at apart
  obtain ⟨_, behind, between⟩ := List.nodup_append.mp apart
  have others (nodes : List (Visited α β)) (other : ∀ node ∈ nodes, node.address ≠ visited.address) :
      nodes.map (·.update change visited.address) = nodes :=
    (List.map_congr_left fun node inside => update_other (other node inside)).trans (List.map_id _)
  rw [List.map_append, List.map_cons, others front, others back, update, if_pos rfl]
  · intro node inside same
    exact (List.nodup_cons.mp behind).1 (same ▸ List.mem_map_of_mem inside)
  · intro node inside
    exact between _ (List.mem_map_of_mem inside) _ List.mem_cons_self

end Visited
namespace Siblings
variable {α : Type u} {β : Type v} {γ : Type w}

def get? : Siblings α → Address → Option α
  | nil, _ => none
  | node value _ _, [] => some value
  | node _ children _, .down :: address => children.get? address
  | node _ _ next, .next :: address => next.get? address

def alter (change : α → Siblings α → α × Siblings α) : Siblings α → Address → Siblings α
  | nil, _ => nil
  | node value children next, [] => node (change value children).1 (change value children).2 next
  | node value children next, .down :: address => node value (children.alter change address) next
  | node value children next, .next :: address => node value children (next.alter change address)

def modify (change : α → α) : Siblings α → Address → Siblings α :=
  alter fun value children => (change value, children)

def append : Siblings α → Siblings α → Siblings α
  | nil, more => more
  | node value children next, more => node value children (next.append more)

def All (holds : α → Prop) : Siblings α → Prop
  | nil => True
  | node value children next => holds value ∧ children.All holds ∧ next.All holds

theorem append_nil (siblings : Siblings α) : siblings.append nil = siblings := by
  induction siblings with
  | nil => rfl
  | node value children next _ ih => rw [append, ih]

theorem append_assoc (first second third : Siblings α) :
    (first.append second).append third = first.append (second.append third) := by
  induction first with
  | nil => rfl
  | node value children next _ ih => rw [append, append, append, ih]

section All
variable {holds : α → Prop} {siblings more : Siblings α}

theorem All.append (all : siblings.All holds) (others : more.All holds) : (siblings.append more).All holds := by
  induction siblings with
  | nil => exact others
  | node value children next _ ih => exact ⟨all.1, all.2.1, ih all.2.2⟩

theorem All.alter (all : siblings.All holds) {change : α → Siblings α → α × Siblings α}
    (keeps : ∀ value children, holds value → children.All holds → holds (change value children).1 ∧
      (change value children).2.All holds)
    (address : Address) : (siblings.alter change address).All holds := by
  induction siblings generalizing address with
  | nil => trivial
  | node value children next ihDown ihNext =>
    obtain ⟨own, below, behind⟩ := all
    cases address with
    | nil =>
      have kept := keeps value children own below
      exact ⟨kept.1, kept.2, behind⟩
    | cons step address =>
      cases step with
      | down => exact ⟨own, ihDown below address, behind⟩
      | next => exact ⟨own, below, ihNext behind address⟩

theorem All.imp {weaker : α → Prop} (all : siblings.All holds) (implies : ∀ value, holds value → weaker value) :
    siblings.All weaker := by
  induction siblings with
  | nil => trivial
  | node value children next ihDown ihNext => exact ⟨implies value all.1, ihDown all.2.1, ihNext all.2.2⟩

theorem All.get? (all : siblings.All holds) {address : Address} {value : α}
    (found : siblings.get? address = some value) :
    holds value := by
  induction siblings generalizing address with
  | nil => cases found
  | node own children next ihDown ihNext =>
    cases address with
    | nil => exact Option.some.inj found ▸ all.1
    | cons step address =>
      cases step with
      | down => exact ihDown all.2.1 found
      | next => exact ihNext all.2.2 found

end All
section Modify
variable {change : α → α}

@[simp] theorem get?_nil (address : Address) : (nil : Siblings α).get? address = none := by
  cases address <;> rfl

theorem get?_modify (siblings : Siblings α) (address other : Address) :
    (siblings.modify change address).get? other = if other = address
      then (siblings.get? other).map change else siblings.get? other := by
  unfold modify
  induction siblings generalizing address other with
  | nil =>
    rw [alter]
    simp
  | node value children next ihDown ihNext =>
    cases address with
    | nil =>
      cases other with
      | nil => rfl
      | cons step other => cases step <;> rfl
    | cons step address =>
      cases step with
      | down =>
        cases other with
        | nil => rfl
        | cons turn other =>
          cases turn with
          | down => simpa [alter, get?] using ihDown address other
          | next => rfl
      | next =>
        cases other with
        | nil => rfl
        | cons turn other =>
          cases turn with
          | down => rfl
          | next => simpa [alter, get?] using ihNext address other

theorem modify_congr {other : α → α} {siblings : Siblings α} {address : Address}
    (same : ∀ value, siblings.get? address = some value → change value = other value) :
    siblings.modify change address = siblings.modify other address := by
  unfold modify
  induction siblings generalizing address with
  | nil => rfl
  | node value children next ihDown ihNext =>
    cases address with
    | nil => rw [alter, alter, same value rfl]
    | cons step address =>
      cases step with
      | down => rw [alter, alter, ihDown same]
      | next => rw [alter, alter, ihNext same]

end Modify
section Visit
variable (keep : α → Bool) (extend : β → α → β)

/-- The nodes that are kept and have only such nodes above them, each before its children. -/
def visit : β → Siblings α → List (Visited α β)
  | _, nil => []
  | top, node value children next =>
    (if keep value then ⟨[], extend top value, value⟩ :: (visit (extend top value) children).map (·.behind .down)
      else []) ++
      (visit top next).map (·.behind .next)

/-- The nodes that are visited, with other values. -/
def prune (view : α → γ) : Siblings α → Siblings γ
  | nil => nil
  | node value children next =>
    if keep value then node (view value) (children.prune view) (next.prune view) else next.prune view

variable {keep extend} {top : β} {siblings : Siblings α}

theorem get?_of_visit {visited : Visited α β} (inside : visited ∈ visit keep extend top siblings) :
    siblings.get? visited.address = some visited.value := by
  induction siblings generalizing top visited with
  | nil => cases inside
  | node value children next ihDown ihNext =>
    rcases List.mem_append.mp inside with own | behind
    · by_cases kept : keep value = true
      · rw [if_pos kept] at own
        rcases List.mem_cons.mp own with rfl | below
        · rfl
        · obtain ⟨child, found, rfl⟩ := List.mem_map.mp below
          exact ihDown found
      · rw [if_neg kept] at own
        cases own
    · obtain ⟨later, found, rfl⟩ := List.mem_map.mp behind
      exact ihNext found

theorem keep_of_visit {visited : Visited α β} (inside : visited ∈ visit keep extend top siblings) :
    keep visited.value = true := by
  induction siblings generalizing top visited with
  | nil => cases inside
  | node value children next ihDown ihNext =>
    rcases List.mem_append.mp inside with own | behind
    · by_cases kept : keep value = true
      · rw [if_pos kept] at own
        rcases List.mem_cons.mp own with rfl | below
        · exact kept
        · obtain ⟨child, found, rfl⟩ := List.mem_map.mp below
          have kept := ihDown found
          exact kept
      · rw [if_neg kept] at own
        cases own
    · obtain ⟨sibling, found, rfl⟩ := List.mem_map.mp behind
      have later := ihNext found
      exact later

theorem addresses_behind (step : Step) (nodes : List (Visited α β)) :
    (nodes.map (·.behind step)).map (·.address) = (nodes.map (·.address)).map (step :: ·) := by
  rw [List.map_map, List.map_map]
  rfl

theorem visit_nodup : ((visit keep extend top siblings).map (·.address)).Nodup := by
  induction siblings generalizing top with
  | nil => exact List.nodup_nil
  | node value children next ihDown ihNext =>
    have later : (((visit keep extend top next).map (·.behind .next)).map (·.address)).Nodup := by
      rw [addresses_behind]
      exact ihNext.map fun _ _ same => (List.cons.inj same).2
    rw [visit, List.map_append]
    refine List.nodup_append.mpr ⟨?_, later, ?_⟩
    · by_cases kept : keep value = true
      · rw [if_pos kept, List.map_cons, addresses_behind]
        refine List.nodup_cons.mpr ⟨?_, ihDown.map fun _ _ same => (List.cons.inj same).2⟩
        intro inside
        obtain ⟨address, _, same⟩ := List.mem_map.mp inside
        cases same
      · rw [if_neg kept]
        exact List.nodup_nil
    · intro address own other behind same
      rw [addresses_behind] at behind
      obtain ⟨rest, _, rfl⟩ := List.mem_map.mp behind
      subst same
      by_cases kept : keep value = true
      · rw [if_pos kept, List.map_cons, addresses_behind] at own
        rcases List.mem_cons.mp own with first | below
        · cases first
        · obtain ⟨address, _, equal⟩ := List.mem_map.mp below
          cases equal
      · rw [if_neg kept] at own
        cases own

theorem map_update_behind (change : α → α) (step : Step) (address : Address) (nodes : List (Visited α β)) :
    (nodes.map (·.behind step)).map (·.update change (step :: address)) = (nodes.map (·.update change address)).map
      (·.behind step) := by
  rw [List.map_map, List.map_map]
  exact List.map_congr_left fun visited _ => Visited.update_behind change step address visited

theorem map_update_apart (change : α → α) {step : Step} {address : Address} (apart : address.head? ≠ some step)
    (nodes : List (Visited α β)) : (nodes.map (·.behind step)).map (·.update change address) =
    nodes.map (·.behind step) := by
  rw [List.map_map]
  refine List.map_congr_left fun visited _ => Visited.update_other ?_
  rintro rfl
  exact apart rfl

/-- A change of one value that keeps it in its place is seen in that place only. -/
theorem visit_modify {change : α → α} (keeps : ∀ value, keep (change value) = keep value)
    (places : ∀ top value, extend top (change value) = extend top value) (top : β) (siblings : Siblings α)
    (address : Address) :
    visit keep extend top (siblings.modify change address) = (visit keep extend top siblings).map
      (·.update change address) := by
  unfold modify
  induction siblings generalizing top address with
  | nil => rfl
  | node value children next ihDown ihNext =>
    cases address with
    | nil =>
      rw [alter, visit, visit, keeps, places, List.map_append, map_update_apart change (by simp)]
      by_cases kept : keep value = true
      · rw [if_pos kept, if_pos kept, List.map_cons, map_update_apart change (by simp)]
        rfl
      · rw [if_neg kept, if_neg kept]
        rfl
    | cons step address =>
      cases step with
      | down =>
        rw [alter, visit, visit, ihDown, List.map_append,
          map_update_apart change (show (Step.down :: address).head? ≠ some .next by simp)]
        by_cases kept : keep value = true
        · rw [if_pos kept, if_pos kept, List.map_cons, map_update_behind]
          rfl
        · rw [if_neg kept, if_neg kept]
          rfl
      | next =>
        rw [alter, visit, visit, ihNext, List.map_append, map_update_behind]
        by_cases kept : keep value = true
        · rw [if_pos kept, List.map_cons, map_update_apart change (show (Step.next :: address).head? ≠
            some .down by simp)]
          rfl
        · rw [if_neg kept]
          rfl

theorem named_behind (step : Step) (nodes : List (Visited α β)) :
    (nodes.map (·.behind step)).map Visited.named = nodes.map Visited.named := by
  rw [List.map_map]
  rfl

theorem visit_prune {keep' : γ → Bool} {extend' : β → γ → β} {view : α → γ}
    (kept : ∀ value, keep' (view value) = true) (places : ∀ top value, extend' top (view value) = extend top value)
    (top : β) (siblings : Siblings α) :
    (visit keep' extend' top (siblings.prune keep view)).map Visited.named =
      ((visit keep extend top siblings).map Visited.named).map fun named => (named.1, view named.2) := by
  induction siblings generalizing top with
  | nil => rfl
  | node value children next ihDown ihNext =>
    rw [prune, visit]
    by_cases stays : keep value = true
    · rw [if_pos stays, if_pos stays, visit, if_pos (kept value), List.map_append, List.map_append, named_behind,
        named_behind, ihNext,
        List.map_append, List.map_cons, List.map_cons, named_behind, named_behind, places, ihDown, List.map_cons]
      simp only [Visited.named, List.cons_append]
    · rw [if_neg stays, if_neg stays, ihNext, List.nil_append, named_behind]

theorem prune_self {view : α → α} (all : siblings.All fun value => keep value = true ∧ view value = value) :
    siblings.prune keep view = siblings := by
  induction siblings with
  | nil => rfl
  | node value children next ihDown ihNext =>
    obtain ⟨⟨kept, same⟩, below, behind⟩ := all
    rw [prune, if_pos kept, same, ihDown below, ihNext behind]

theorem prune_modify {view : α → γ} {change : α → α} (keeps : ∀ value, keep (change value) = keep value)
    {address : Address} (same : ∀ value, siblings.get? address = some value → view (change value) = view value) :
    (siblings.modify change address).prune keep view = siblings.prune keep view := by
  unfold modify
  induction siblings generalizing address with
  | nil => rfl
  | node value children next ihDown ihNext =>
    cases address with
    | nil =>
      rw [alter, prune, prune, keeps, same value rfl]
    | cons step address =>
      cases step with
      | down => rw [alter, prune, prune, ihDown same]
      | next => rw [alter, prune, prune, ihNext same]

end Visit
section Ends

/-- Where a node is that is added behind the last one. -/
def endAddress : Siblings α → Address
  | nil => []
  | node _ _ next => .next :: next.endAddress

theorem visit_append_end (keep : α → Bool) (extend : β → α → β) (top : β)
    (siblings : Siblings α) (value : α) :
    visit keep extend top (siblings.append (node value nil nil)) =
      visit keep extend top siblings ++ if keep value then [⟨siblings.endAddress, extend top value, value⟩]
        else [] := by
  induction siblings with
  | nil => by_cases kept : keep value = true <;> simp [append, visit, endAddress, kept]
  | node own below next _ ih =>
    rw [append, visit, visit, ih, List.map_append, List.append_assoc, endAddress]
    by_cases kept : keep value = true
    · rw [if_pos kept, if_pos kept]
      rfl
    · rw [if_neg kept, if_neg kept]
      rfl

end Ends
end Siblings

/-- A tree with one root. Only the root has no siblings. -/
structure Rooted (α : Type u) where
  value : α
  children : Siblings α
  deriving DecidableEq, Repr

namespace Rooted
variable {α : Type u} {β : Type v} {γ : Type w}

def get? (tree : Rooted α) : Address → Option α
  | [] => some tree.value
  | .down :: address => tree.children.get? address
  | .next :: _ => none

def alter (change : α → Siblings α → α × Siblings α) (tree : Rooted α) : Address → Rooted α
  | [] => ⟨(change tree.value tree.children).1, (change tree.value tree.children).2⟩
  | .down :: address => { tree with children := tree.children.alter change address }
  | .next :: _ => tree

def modify (change : α → α) (tree : Rooted α) (address : Address) : Rooted α :=
  tree.alter (fun value children => (change value, children)) address

def addChild (tree : Rooted α) (value : α) (children : Siblings α) : Rooted α :=
  { tree with children := tree.children.append (.node value children .nil) }

def All (holds : α → Prop) (tree : Rooted α) : Prop := holds tree.value ∧ tree.children.All holds

def visit (keep : α → Bool) (extend : β → α → β) (top : β) (tree : Rooted α) : List (Visited α β) :=
  if keep tree.value then ⟨[], top, tree.value⟩ :: (Siblings.visit keep extend top tree.children).map
    (·.behind .down) else []

def prune (keep : α → Bool) (view : α → γ) (tree : Rooted α) : Rooted γ :=
  ⟨view tree.value, tree.children.prune keep view⟩

section Changes
variable {holds : α → Prop} {tree : Rooted α}

theorem All.alter (all : tree.All holds) {change : α → Siblings α → α × Siblings α}
    (keeps : ∀ value children, holds value → children.All holds → holds (change value children).1 ∧
      (change value children).2.All holds)
    (address : Address) : (tree.alter change address).All holds := by
  cases address with
  | nil => exact keeps tree.value tree.children all.1 all.2
  | cons step address =>
    cases step with
    | down => exact ⟨all.1, Siblings.All.alter all.2 keeps address⟩
    | next => exact all

theorem All.addChild (all : tree.All holds) {value : α} {children : Siblings α} (own : holds value)
    (below : children.All holds) :
    (tree.addChild value children).All holds := ⟨all.1, all.2.append ⟨own, below, trivial⟩⟩

theorem All.imp {weaker : α → Prop} (all : tree.All holds) (implies : ∀ value, holds value → weaker value) :
    tree.All weaker :=
  ⟨implies _ all.1, all.2.imp implies⟩

theorem All.get? (all : tree.All holds) {address : Address} {value : α} (found : tree.get? address = some value) :
    holds value := by
  cases address with
  | nil => exact Option.some.inj found ▸ all.1
  | cons step address =>
    cases step with
    | down => exact all.2.get? found
    | next => cases found

theorem get?_modify (change : α → α) (tree : Rooted α) (address other : Address) :
    (tree.modify change address).get? other = if other = address
      then (tree.get? other).map change else tree.get? other := by
  cases address with
  | nil =>
    cases other with
    | nil => rfl
    | cons step other => cases step <;> rfl
  | cons step address =>
    cases step with
    | down =>
      cases other with
      | nil => rfl
      | cons turn other =>
        cases turn with
        | down =>
          have below := @Siblings.get?_modify _ change tree.children address other
          rw [Siblings.modify] at below
          simpa [modify, alter, get?] using below
        | next => simp [get?]
    | next =>
      cases other with
      | nil => rfl
      | cons turn other => cases turn <;> simp [modify, alter, get?]

theorem modify_congr {change other : α → α} {address : Address}
    (same : ∀ value, tree.get? address = some value → change value = other value) :
    tree.modify change address = tree.modify other address := by
  cases address with
  | nil => rw [modify, modify, alter, alter, same tree.value rfl]
  | cons step address =>
    cases step with
    | down =>
      have below : tree.children.modify change address = tree.children.modify other address :=
        Siblings.modify_congr same
      rw [Siblings.modify, Siblings.modify] at below
      rw [modify, modify, alter, alter, below]
    | next => rfl

end Changes
section Visit
variable {keep : α → Bool} {extend : β → α → β} {top : β} {tree : Rooted α}

theorem get?_of_visit {visited : Visited α β} (inside : visited ∈ visit keep extend top tree) :
    tree.get? visited.address = some visited.value := by
  by_cases kept : keep tree.value = true
  · rw [visit, if_pos kept] at inside
    rcases List.mem_cons.mp inside with rfl | below
    · rfl
    · obtain ⟨child, found, rfl⟩ := List.mem_map.mp below
      exact Siblings.get?_of_visit found
  · rw [visit, if_neg kept] at inside
    cases inside

theorem keep_of_visit {visited : Visited α β} (inside : visited ∈ visit keep extend top tree) :
    keep visited.value = true := by
  by_cases kept : keep tree.value = true
  · rw [visit, if_pos kept] at inside
    rcases List.mem_cons.mp inside with rfl | below
    · exact kept
    · obtain ⟨child, found, rfl⟩ := List.mem_map.mp below
      have kept := Siblings.keep_of_visit found
      exact kept
  · rw [visit, if_neg kept] at inside
    cases inside

theorem visit_nodup : ((visit keep extend top tree).map (·.address)).Nodup := by
  by_cases kept : keep tree.value = true
  · rw [visit, if_pos kept, List.map_cons, Siblings.addresses_behind]
    refine List.nodup_cons.mpr ⟨?_, Siblings.visit_nodup.map fun _ _ same => (List.cons.inj same).2⟩
    intro inside
    obtain ⟨address, _, same⟩ := List.mem_map.mp inside
    cases same
  · rw [visit, if_neg kept]
    exact List.nodup_nil

theorem visit_modify {change : α → α} (keeps : ∀ value, keep (change value) = keep value)
    (places : ∀ top value, extend top (change value) = extend top value) (tree : Rooted α) (address : Address) :
    visit keep extend top (tree.modify change address) = (visit keep extend top tree).map
      (·.update change address) := by
  cases address with
  | nil =>
    rw [visit, visit, modify, alter, keeps]
    by_cases kept : keep tree.value = true
    · rw [if_pos kept, if_pos kept, List.map_cons, Siblings.map_update_apart change (by simp)]
      rfl
    · rw [if_neg kept, if_neg kept]
      rfl
  | cons step address =>
    cases step with
    | down =>
      have below := Siblings.visit_modify keeps places top tree.children address
      rw [Siblings.modify] at below
      rw [visit, visit, modify, alter]
      by_cases kept : keep tree.value = true
      · rw [if_pos kept, if_pos kept, List.map_cons, below, Siblings.map_update_behind]
        rfl
      · rw [if_neg kept, if_neg kept]
        rfl
    | next =>
      have same (visited : Visited α β) (inside : visited ∈ visit keep extend top tree) :
          visited.address ≠ .next :: address := by
        intro beside
        have found := get?_of_visit inside
        rw [beside] at found
        cases found
      rw [modify, alter]
      exact (List.map_id _).symm.trans (List.map_congr_left fun visited inside =>
        (Visited.update_other (same visited inside)).symm)

theorem visit_addChild (kept : keep tree.value = true) (value : α) :
    visit keep extend top (tree.addChild value .nil) = visit keep extend top tree ++
      if keep value then [⟨.down :: tree.children.endAddress, extend top value, value⟩] else [] := by
  rw [visit, visit, addChild, if_pos kept, if_pos kept, Siblings.visit_append_end, List.map_append, List.cons_append]
  by_cases own : keep value = true
  · rw [if_pos own, if_pos own]
    rfl
  · rw [if_neg own, if_neg own]
    rfl

theorem visit_prune {keep' : γ → Bool} {extend' : β → γ → β} {view : α → γ}
    (kept : ∀ value, keep' (view value) = true) (places : ∀ top value, extend' top (view value) = extend top value)
    (root : keep tree.value = true) :
    (visit keep' extend' top (tree.prune keep view)).map Visited.named =
      ((visit keep extend top tree).map Visited.named).map fun named => (named.1, view named.2) := by
  rw [visit, prune, visit, if_pos (kept _), if_pos root, List.map_cons, List.map_cons, List.map_cons,
    Siblings.named_behind, Siblings.named_behind, Siblings.visit_prune kept places]
  rfl

theorem prune_self {view : α → α} (all : tree.All fun value => keep value = true ∧ view value = value) :
    tree.prune keep view = tree := by
  rw [prune, all.1.2, Siblings.prune_self all.2]

theorem prune_modify {view : α → γ} {change : α → α} (keeps : ∀ value, keep (change value) = keep value)
    {address : Address} (same : ∀ value, tree.get? address = some value → view (change value) = view value) :
    (tree.modify change address).prune keep view = tree.prune keep view := by
  cases address with
  | nil => rw [prune, prune, modify, alter, same tree.value rfl]
  | cons step address =>
    cases step with
    | down =>
      have below : (tree.children.modify change address).prune keep view = tree.children.prune keep view :=
        Siblings.prune_modify keeps same
      rw [Siblings.modify] at below
      rw [prune, prune, modify, alter, below]
    | next => rfl

end Visit
end Rooted
end SiblingTree
