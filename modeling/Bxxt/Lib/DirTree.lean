import Mathlib.Data.List.Basic
import Mathlib.Data.List.Infix

/-! Trees of directories with symbolic links, and the walks of paths through them. What is at a
place is up to a function, so that a tree can be kept in any form. -/

namespace DirTree

/-- A part of a path: no step (as in `a//b` or `a/./b`), a step up, or a name. -/
inductive PathPart (ν : Type) where
  | here
  | up
  | name (name : ν)
  deriving DecidableEq

/-- A link has its target, which begins at the top or where the link is. -/
inductive Object (ν φ : Type) where
  | dir
  | link (absolute : Bool) (target : List (PathPart ν))
  | leaf (content : φ)
  deriving DecidableEq

/-- The names that lead from the top to an object, without links. -/
abbrev Place (ν : Type) := List ν

inductive WalkError where
  | missing
  | notDir
  | loop
  deriving DecidableEq

section Walks
variable {ν φ : Type} (find : Place ν → Option (Object ν φ))

/-- A walk that leaves links to `jump`. -/
def walkWith (jump : Place ν → List (PathPart ν) → Except WalkError (Place ν)) :
    Place ν → List (PathPart ν) → Except WalkError (Place ν)
  | base, [] => .ok base
  | base, part :: rest =>
    match find base with
    | none => .error .missing
    | some (.link _ _) | some (.leaf _) => .error .notDir
    | some .dir =>
      match part with
      | .here => walkWith jump base rest
      | .up => walkWith jump base.dropLast rest
      | .name name =>
        match find (base ++ [name]) with
        | none => .error .missing
        | some (.link absolute target) => jump (if absolute then [] else base) (target ++ rest)
        | some .dir | some (.leaf _) => walkWith jump (base ++ [name]) rest

/-- The object that a path leads to, through at most that many links. -/
def walk : Nat → Place ν → List (PathPart ν) → Except WalkError (Place ν)
  | 0 => walkWith find fun _ _ => .error .loop
  | links + 1 => walkWith find (walk links)

def isDir (place : Place ν) : Bool :=
  match find place with
  | some .dir => true
  | some (.link _ _) | some (.leaf _) | none => false

/-- Where the directories of a path lead, those that are missing taken as made where they are named.
Nothing else may be on the way. -/
def way (links : Nat) : Place ν → List (PathPart ν) → Option (Place ν)
  | base, [] => some base
  | base, .here :: rest => way links base rest
  | base, .up :: rest => way links base.dropLast rest
  | base, .name name :: rest =>
    match find (base ++ [name]) with
    | none | some .dir => way links (base ++ [name]) rest
    | some (.leaf _) => none
    | some (.link _ _) =>
      match walk find links base [.name name] with
      | .error _ => none
      | .ok place => if isDir find place then way links place rest else none

end Walks
section Growth
variable {ν φ : Type} {find grown : Place ν → Option (Object ν φ)}

def SubTree (find grown : Place ν → Option (Object ν φ)) : Prop :=
  ∀ place object, find place = some object → grown place = some object

/-- More directories, and nothing else. -/
structure Grows (find grown : Place ν → Option (Object ν φ)) : Prop where
  keeps : SubTree find grown
  fresh : ∀ place, find place = none → grown place = none ∨ grown place = some .dir

theorem isDir_iff {place : Place ν} : isDir find place = true ↔ find place = some .dir := by
  unfold isDir
  split
  next dir => exact iff_of_true rfl dir
  next link => exact iff_of_false Bool.false_ne_true (by simp [link])
  next leaf => exact iff_of_false Bool.false_ne_true (by simp [leaf])
  next none => exact iff_of_false Bool.false_ne_true (by simp [none])

theorem SubTree.refl (find : Place ν → Option (Object ν φ)) : SubTree find find := fun _ _ same => same

theorem Grows.refl (find : Place ν → Option (Object ν φ)) : Grows find find :=
  ⟨.refl find, fun _ none => Or.inl none⟩

theorem Grows.trans {middle : Place ν → Option (Object ν φ)} (first : Grows find middle)
    (second : Grows middle grown) :
    Grows find grown := by
  constructor
  · exact fun place object found => second.keeps place object (first.keeps place object found)
  · intro place none
    rcases first.fresh place none with still | made
    · exact second.fresh place still
    · exact Or.inr (second.keeps place .dir made)

theorem walkWith_mono {jump leap : Place ν → List (PathPart ν) → Except WalkError (Place ν)}
    (keeps : SubTree find grown)
    (jumps : ∀ base todo place, jump base todo = .ok place → leap base todo = .ok place) {base place : Place ν}
    {todo : List (PathPart ν)} (walked : walkWith find jump base todo = .ok place) :
    walkWith grown leap base todo = .ok place := by
  induction todo generalizing base with
  | nil => exact walked
  | cons part rest ih =>
    unfold walkWith at walked ⊢
    cases here : find base with
    | none =>
      rw [here] at walked
      cases walked
    | some object =>
      rw [here] at walked
      rw [keeps base object here]
      cases object with
      | link absolute target => cases walked
      | leaf content => cases walked
      | dir =>
        cases part with
        | here => exact ih walked
        | up => exact ih walked
        | name name =>
          dsimp only at walked ⊢
          cases there : find (base ++ [name]) with
          | none =>
            rw [there] at walked
            cases walked
          | some object =>
            rw [there] at walked
            rw [keeps _ object there]
            cases object with
            | dir => exact ih walked
            | leaf content => exact ih walked
            | link absolute target => exact jumps _ _ _ walked

/-- A walk that comes through does so in every larger tree, and with more links to spare. -/
theorem walk_mono (keeps : SubTree find grown) {few many : Nat} (more : few ≤ many) {base place : Place ν}
    {todo : List (PathPart ν)} (walked : walk find few base todo = .ok place) :
    walk grown many base todo = .ok place := by
  induction few generalizing many base place todo with
  | zero =>
    have never : ∀ leap : Place ν → List (PathPart ν) → Except WalkError (Place ν),
        walkWith grown leap base todo = .ok place := fun leap =>
      walkWith_mono keeps (fun _ _ _ jumped => by cases jumped) walked
    cases many <;> exact never _
  | succ few ih =>
    cases many with
    | zero => exact absurd more (Nat.not_succ_le_zero few)
    | succ many =>
      exact walkWith_mono keeps (fun base todo place jumped => ih (Nat.le_of_succ_le_succ more) jumped) walked

end Growth
section Ways
variable {ν φ : Type} {find grown : Place ν → Option (Object ν φ)}

theorem walkWith_append {jump : Place ν → List (PathPart ν) → Except WalkError (Place ν)} {links : Nat}
    {back : List (PathPart ν)} (jumps : ∀ base front place, jump base (front ++ back) = .ok place →
      ∃ next, jump base front = .ok next ∧ walk find links next back = .ok place)
    (inner : ∀ base place, walkWith find jump base back = .ok place → walk find links base back = .ok place)
    {base place : Place ν} {front : List (PathPart ν)}
    (walked : walkWith find jump base (front ++ back) = .ok place) :
    ∃ next, walkWith find jump base front = .ok next ∧ walk find links next back = .ok place := by
  induction front generalizing base with
  | nil => exact ⟨base, rfl, inner base place walked⟩
  | cons part front ih =>
    rw [List.cons_append] at walked
    unfold walkWith at walked ⊢
    cases here : find base with
    | none =>
      rw [here] at walked
      cases walked
    | some object =>
      rw [here] at walked
      cases object with
      | link absolute target => cases walked
      | leaf content => cases walked
      | dir =>
        cases part with
        | here => exact ih walked
        | up => exact ih walked
        | name name =>
          dsimp only at walked ⊢
          cases there : find (base ++ [name]) with
          | none =>
            rw [there] at walked
            cases walked
          | some object =>
            rw [there] at walked
            cases object with
            | dir => exact ih walked
            | leaf content => exact ih walked
            | link absolute target =>
              dsimp only at walked ⊢
              rw [← List.append_assoc] at walked
              exact jumps _ _ _ walked

theorem walk_append {links : Nat} {base place : Place ν} {front back : List (PathPart ν)}
    (walked : walk find links base (front ++ back) = .ok place) :
    ∃ next, walk find links base front = .ok next ∧ walk find links next back = .ok place := by
  induction links generalizing base place front with
  | zero => exact @walkWith_append _ _ _ _ 0 _ (fun _ _ _ jumped => by cases jumped) (fun _ _ same => same) _ _ _ walked
  | succ links ih =>
    refine @walkWith_append _ _ _ _ (links + 1) _ (fun base front place jumped => ?_)
      (fun _ _ same => same) _ _ _ walked
    obtain ⟨next, first, second⟩ := ih jumped
    exact ⟨next, first, walk_mono (.refl find) (Nat.le_succ links) second⟩

theorem walk_nil {links : Nat} {base place : Place ν} (walked : walk find links base [] = .ok place) :
    place = base := by
  cases links <;> exact (Except.ok.inj walked).symm

theorem walk_here {links : Nat} {base place : Place ν} (walked : walk find links base [.here] = .ok place) :
    place = base := by
  cases links
  all_goals
    unfold walk walkWith at walked
    split at walked
    next => cases walked
    next => cases walked
    next => cases walked
    next => exact (Except.ok.inj walked).symm

theorem walk_up {links : Nat} {base place : Place ν} (walked : walk find links base [.up] = .ok place) :
    place = base.dropLast := by
  cases links
  all_goals
    unfold walk walkWith at walked
    split at walked
    next => cases walked
    next => cases walked
    next => cases walked
    next => exact (Except.ok.inj walked).symm

theorem walk_name {links : Nat} {base place : Place ν} {name : ν}
    (walked : walk find links base [.name name] = .ok place) :
    find base = some .dir ∧ ∃ object, find (base ++ [name]) = some object ∧
      ((∃ absolute target, object = .link absolute target) ∨ place = base ++ [name]) := by
  cases links
  all_goals
    unfold walk walkWith at walked
    split at walked
    next => cases walked
    next => cases walked
    next => cases walked
    next here =>
      refine ⟨here, ?_⟩
      dsimp only at walked
      split at walked
      next => cases walked
      next absolute target there => exact ⟨_, there, Or.inl ⟨absolute, target, rfl⟩⟩
      next there => exact ⟨_, there, Or.inr (Except.ok.inj walked).symm⟩
      next there => exact ⟨_, there, Or.inr (Except.ok.inj walked).symm⟩

/-- Only a directory is left by a walk, or reached by one that ends in a directory. -/
theorem walk_start {links : Nat} {base place : Place ν} {todo : List (PathPart ν)}
    (walked : walk find links base todo = .ok place) (ends : find place = some .dir) : find base = some .dir := by
  cases todo with
  | nil => rw [← walk_nil walked, ends]
  | cons part rest =>
    cases links
    all_goals
      unfold walk walkWith at walked
      split at walked
      next => cases walked
      next => cases walked
      next => cases walked
      next here => exact here

theorem walk_names {links : Nat} {base : Place ν} {names : List ν}
    (dirs : ∀ front, front <+: names → find (base ++ front) = some .dir) :
    walk find links base (names.map .name) = .ok (base ++ names) := by
  induction names generalizing base with
  | nil => cases links <;> exact congrArg Except.ok (List.append_nil base).symm
  | cons name rest ih =>
    have here : find base = some .dir := by
      rw [← List.append_nil base]
      exact dirs [] List.nil_prefix
    have there : find (base ++ [name]) = some .dir := dirs [name] (by simp)
    have later := ih (fun front inside => by
      rw [List.append_assoc]
      exact dirs (name :: front) (List.cons_prefix_cons.mpr ⟨rfl, inside⟩) : ∀ front, front <+: rest →
        find (base ++ [name] ++ front) = some .dir)
    rw [List.append_assoc] at later
    rw [List.map_cons]
    cases links
    all_goals
      unfold walk walkWith
      rw [here]
      dsimp only
      rw [there]
      exact later

theorem way_append {links : Nat} {base : Place ν} {front back : List (PathPart ν)} :
    way find links base (front ++ back) = (way find links base front).bind fun next => way find links next back := by
  induction front generalizing base with
  | nil => rfl
  | cons part front ih =>
    cases part with
    | here => exact ih
    | up => exact ih
    | name name =>
      rw [List.cons_append, way, way]
      cases there : find (base ++ [name]) with
      | none => exact ih
      | some object =>
        cases object with
        | dir => exact ih
        | leaf content => rfl
        | link absolute target =>
          dsimp only
          cases walk find links base [.name name] with
          | error failure => rfl
          | ok place =>
            dsimp only
            split
            next => exact ih
            next => rfl

/-- The way of a path with a name at its end leads to a directory, or to where one would be made. -/
theorem way_name {links : Nat} {base place : Place ν} {front : List (PathPart ν)} {name : ν}
    (goes : way find links base (front ++ [.name name]) = some place) : find place = none ∨
    find place = some .dir := by
  rw [way_append] at goes
  obtain ⟨next, _, last⟩ := Option.bind_eq_some_iff.mp goes
  rw [way] at last
  cases there : find (next ++ [name]) with
  | none =>
    rw [there] at last
    cases last
    exact Or.inl there
  | some object =>
    rw [there] at last
    cases object with
    | leaf content => cases last
    | dir =>
      cases last
      exact Or.inr there
    | link absolute target =>
      dsimp only at last
      cases walked : walk find links next [.name name] with
      | error failure =>
        rw [walked] at last
        cases last
      | ok place =>
        rw [walked] at last
        dsimp only at last
        split at last
        next leads =>
          cases last
          exact Or.inr (isDir_iff.mp leads)
        next => cases last

theorem way_of_walk {links : Nat} {base place next : Place ν} {todo : List (PathPart ν)}
    (walked : walk find links base todo = .ok place) (goes : way find links base todo = some next) : place = next := by
  induction todo generalizing base with
  | nil => exact (walk_nil walked).trans (Option.some.inj goes)
  | cons part rest ih =>
    obtain ⟨middle, first, later⟩ := walk_append (show walk find links base ([part] ++ rest) =
      .ok place from walked)
    cases part with
    | here =>
      obtain rfl := walk_here first
      exact ih later goes
    | up =>
      obtain rfl := walk_up first
      exact ih later goes
    | name name =>
      obtain ⟨_, object, there, leads⟩ := walk_name first
      rw [way, there] at goes
      cases object with
      | leaf content => cases goes
      | dir =>
        rcases leads with ⟨_, _, other⟩ | rfl
        · cases other
        · exact ih later goes
      | link absolute target =>
        dsimp only at goes
        rw [first] at goes
        dsimp only at goes
        split at goes
        next => exact ih later goes
        next => cases goes

/-- The way of a path is the same in a tree with more directories. -/
theorem way_grows (grows : Grows find grown) {links : Nat} {base place : Place ν} {todo : List (PathPart ν)}
    (goes : way find links base todo = some place) : way grown links base todo = some place := by
  induction todo generalizing base with
  | nil => exact goes
  | cons part rest ih =>
    cases part with
    | here => exact ih goes
    | up => exact ih goes
    | name name =>
      rw [way] at goes ⊢
      cases there : find (base ++ [name]) with
      | none =>
        rw [there] at goes
        rcases grows.fresh _ there with still | made
        · rw [still]
          exact ih goes
        · rw [made]
          exact ih goes
      | some object =>
        rw [there] at goes
        rw [grows.keeps _ object there]
        cases object with
        | dir => exact ih goes
        | leaf content => cases goes
        | link absolute target =>
          dsimp only at goes ⊢
          cases walked : walk find links base [.name name] with
          | error failure =>
            rw [walked] at goes
            cases goes
          | ok place =>
            rw [walked] at goes
            dsimp only at goes
            split at goes
            next leads =>
              rw [walk_mono grows.keeps (Nat.le_refl links) walked]
              dsimp only
              rw [if_pos (isDir_iff.mpr (grows.keeps _ _ (isDir_iff.mp leads)))]
              exact ih goes
            next => cases goes

end Ways
section Reaching
variable {ν φ : Type} {find : Place ν → Option (Object ν φ)} {links : Nat} {there missing : Place ν}

/-- Directories lead down to `there`, and nothing is at the names behind it: the place that a path
names has not been made yet. -/
structure Descends (find : Place ν → Option (Object ν φ)) (there missing : Place ν) : Prop where
  dirs : ∀ front, front <+: there → find front = some .dir
  nothing : ∀ front, front <+: missing → front ≠ [] → find (there ++ front) = none

theorem walk_to_missing {base names : Place ν} {name : ν} {rest : List (PathPart ν)}
    (dirs : ∀ front, front <+: names → find (base ++ front) = some .dir)
    (none : find (base ++ (names ++ [name])) = none) :
    walk find links base (names.map .name ++ .name name :: rest) = .error .missing := by
  induction names generalizing base with
  | nil =>
    have here : find base = some .dir := by
      rw [← List.append_nil base]
      exact dirs [] List.nil_prefix
    cases links
    all_goals
      unfold walk
      rw [List.map_nil, List.nil_append, walkWith, here]
      dsimp only
      rw [show find (base ++ [name]) = Option.none from none]
  | cons first names ih =>
    have here : find base = some .dir := by
      rw [← List.append_nil base]
      exact dirs [] List.nil_prefix
    have next : find (base ++ [first]) = some .dir := dirs [first] (by simp)
    have later : walk find links (base ++ [first]) (names.map .name ++ .name name :: rest) = .error .missing := by
      apply ih
      · intro front inside
        rw [List.append_assoc]
        exact dirs (first :: front) (List.cons_prefix_cons.mpr ⟨rfl, inside⟩)
      · rw [List.append_assoc]
        exact none
    rw [List.map_cons, List.cons_append]
    cases links
    all_goals
      unfold walk at later ⊢
      rw [walkWith, here]
      dsimp only
      rw [next]
      exact later

theorem Descends.walk_missing (reaches : Descends find there missing) (some : missing ≠ []) :
    walk find links [] ((there ++ missing).map .name) = .error .missing := by
  cases missing with
  | nil => exact absurd rfl some
  | cons name rest =>
    rw [List.map_append, List.map_cons]
    refine walk_to_missing reaches.dirs ?_
    exact reaches.nothing [name] (by simp) (by simp)

variable [DecidableEq ν]

/-- The tree with all the directories down to a place. -/
def withDirs (find : Place ν → Option (Object ν φ)) (place : Place ν) : Place ν → Option (Object ν φ) :=
  fun other => if other <+: place then some .dir else find other

theorem withDirs_there (dirs : ∀ front, front <+: there → find front = some .dir) : withDirs find there = find := by
  funext other
  rw [withDirs]
  split
  next inside => exact (dirs other inside).symm
  next => rfl

theorem withDirs_append (name : ν) (other : Place ν) : withDirs find (there ++ [name]) other =
    if other = there ++ [name] then some .dir else withDirs find there other := by
  by_cases same : other = there ++ [name]
  · rw [if_pos same, withDirs, if_pos (same ▸ List.prefix_refl _)]
  · rw [if_neg same, withDirs, withDirs]
    simp only [List.prefix_concat_iff, same, false_or]

theorem withDirs_reaches {place : Place ν} : Descends (withDirs find place) place [] where
  dirs _ inside := if_pos inside
  nothing _ inside filled := absurd (List.prefix_nil.mp inside) filled

theorem Descends.subTree (reaches : Descends find there missing) : SubTree find (withDirs find (there ++ missing)) := by
  intro other object found
  rw [withDirs]
  split
  next inside =>
    have dir : find other = some .dir := by
      rcases List.prefix_or_prefix_of_prefix inside (List.prefix_append there missing) with before | ⟨front, rfl⟩
      · exact reaches.dirs other before
      · cases front with
        | nil => exact reaches.dirs _ (by simp)
        | cons name front =>
          have none := reaches.nothing (name :: front) ((List.prefix_append_right_inj there).mp inside) (by simp)
          rw [none] at found
          cases found
    exact dir.symm.trans found
  next => exact found

theorem withDirs_beyond {place : Place ν} (more : ¬ there <+: place) : withDirs find place there = find there :=
  if_neg more

end Reaching
section Laying
variable {ν φ : Type} {find after : Place ν → Option (Object ν φ)} {place goal : Place ν} {dir isDir : Prop}

/-- What can be made at a place: on the way there are directories and then nothing. If something is
at the place itself it is a directory, and a directory is what belongs there. -/
structure Vacant (find : Place ν → Option (Object ν φ)) (place : Place ν) (dir : Prop) : Prop where
  steps : ∀ front, front <+: place → find front = some .dir ∨ find front = none
  closed : ∀ front back, front <+: back → back <+: place → find back = some .dir → find front = some .dir
  fits : find place = some .dir → dir

theorem Vacant.front (vacant : Vacant find place dir) {front : Place ν} (inside : front <+: place) :
    Vacant find front True where
  steps _ before := vacant.steps _ (before.trans inside)
  closed _ _ before back := vacant.closed _ _ before (back.trans inside)
  fits _ := trivial

theorem Vacant.split (vacant : Vacant find place dir) (top : find [] = some .dir) :
    ∃ there missing, place = there ++ missing ∧ Descends find there missing := by
  replace vacant := vacant.front (List.prefix_refl place)
  induction place using List.reverseRecOn with
  | nil =>
    refine ⟨[], [], rfl, ?_, ?_⟩
    · intro front inside
      rw [List.prefix_nil.mp inside, top]
    · intro front inside filled
      exact absurd (List.prefix_nil.mp inside) filled
  | append_singleton place name ih =>
    rcases vacant.steps _ (List.prefix_refl _) with found | none
    · refine ⟨place ++ [name], [], (List.append_nil _).symm, ?_, ?_⟩
      · intro front inside
        exact vacant.closed front _ inside (List.prefix_refl _) found
      · intro front inside filled
        exact absurd (List.prefix_nil.mp inside) filled
    · obtain ⟨there, missing, rfl, reaches⟩ := ih (vacant.front (List.prefix_append place [name]))
      refine ⟨there, missing ++ [name], List.append_assoc _ _ _, reaches.dirs, ?_⟩
      intro front inside filled
      rcases List.prefix_concat_iff.mp inside with rfl | before
      · rw [← List.append_assoc]
        exact none
      · exact reaches.nothing front before filled

variable [DecidableEq ν]

/-- The frame of making an object: only directories of the path to a place are new, but for what
comes to the place itself where no directory belongs. -/
def Laid (find after : Place ν → Option (Object ν φ)) (place : Place ν) (dir : Prop) : Prop :=
  ∃ target, target <+: place ∧ (target = place → dir) ∧
    ∀ other, (other = place → dir) → after other = withDirs find target other

theorem Laid.refl (top : find [] = some .dir) (named : place = [] → dir) : Laid find find place dir := by
  refine ⟨[], List.nil_prefix, fun same => named same.symm, fun other _ => ?_⟩
  rw [withDirs_there]
  intro front inside
  rw [List.prefix_nil.mp inside, top]

theorem Laid.beyond (laid : Laid find after place dir) {other : Place ν} (more : ¬ other <+: place) :
    after other = find other := by
  obtain ⟨target, inside, _, same⟩ := laid
  rw [same other fun other_eq => absurd (other_eq ▸ List.prefix_refl _) more]
  exact withDirs_beyond fun before => more (before.trans inside)

theorem Vacant.subTree (vacant : Vacant find place dir) (laid : Laid find after place dir) : SubTree find after := by
  obtain ⟨target, inside, _, same⟩ := laid
  intro other object found
  have belongs : other = place → dir := by
    rintro rfl
    rcases vacant.steps other (List.prefix_refl other) with there | none
    · exact vacant.fits there
    · rw [none] at found
      cases found
  rw [same other belongs, withDirs]
  split
  next before =>
    rcases vacant.steps other (before.trans inside) with there | none
    · exact there.symm.trans found
    · rw [none] at found
      cases found
  next => exact found

/-- Two places of which neither is in the way of the other. -/
theorem Vacant.laid (vacant : Vacant find place dir) (laid : Laid find after goal isDir)
    (above : goal <+: place → isDir) (below : place <+: goal → dir) : Vacant after place dir := by
  obtain ⟨target, inside, _, same⟩ := laid
  have known {front : Place ν} (before : front <+: place) : after front = withDirs find target front :=
    same front fun reached => above (reached ▸ before)
  constructor
  · intro front before
    rw [known before, withDirs]
    split
    next => exact Or.inl rfl
    next => exact vacant.steps front before
  · intro front back first second found
    rw [known second, withDirs] at found
    rw [known (first.trans second), withDirs]
    split at found
    next passed => exact if_pos (first.trans passed)
    next =>
      split
      next => rfl
      next => exact vacant.closed front back first second found
  · intro found
    rw [known (List.prefix_refl place), withDirs] at found
    split at found
    next passed => exact below (passed.trans inside)
    next => exact vacant.fits found

end Laying
end DirTree
