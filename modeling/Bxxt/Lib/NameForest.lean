import Mathlib

/-! Directories as forests of named objects, and the paths that lead to their objects. -/

namespace NameForest
universe u

inductive Forest (α : Type u) where
  | done
  | file (name : List α) (rest : Forest α)
  | dir (name : List α) (inner rest : Forest α)

namespace Forest
variable {α : Type u} (sep : α)

/-- The names in a directory, with whether each is one of a directory. -/
def entries : Forest α → List (List α × Bool)
  | done => []
  | file name rest => (name, false) :: rest.entries
  | dir name _ rest => (name, true) :: rest.entries

def paths : Forest α → List (List α)
  | done => []
  | file name rest => name :: rest.paths
  | dir name inner rest => (inner.paths.map (name ++ sep :: ·) ++ [name]) ++ rest.paths

/-- How many directories there are inside each other. -/
def depth : Forest α → Nat
  | done => 0
  | file _ rest => rest.depth
  | dir _ inner rest => max (inner.depth + 1) rest.depth

/-- No directory has a name twice, and each name is allowed. -/
def Named (allowed : List α → Prop) : Forest α → Prop
  | done => True
  | file name rest => allowed name ∧ (∀ isDir, (name, isDir) ∉ rest.entries) ∧ rest.Named allowed
  | dir name inner rest =>
    allowed name ∧ (∀ isDir, (name, isDir) ∉ rest.entries) ∧ inner.Named allowed ∧ rest.Named allowed

theorem Named.mono {allowed other : List α → Prop} (weaker : ∀ name, allowed name → other name)
    {forest : Forest α} (named : forest.Named allowed) : forest.Named other := by
  induction forest with
  | done => trivial
  | file name rest ih => exact ⟨weaker _ named.1, named.2.1, ih named.2.2⟩
  | dir name inner rest ihInner ih => exact ⟨weaker _ named.1, named.2.1, ihInner named.2.2.1, ih named.2.2.2⟩

section Distinct
variable {sep} [DecidableEq α]

def firstPart (sep : α) (path : List α) : List α := path.takeWhile (· ≠ sep)

theorem firstPart_name {name : List α} (plain : sep ∉ name) : firstPart sep name = name :=
  List.takeWhile_eq_self_iff.mpr fun _ inside => decide_eq_true fun same => plain (same ▸ inside)

theorem firstPart_below {name : List α} (plain : sep ∉ name) (path : List α) :
    firstPart sep (name ++ sep :: path) = name := by
  have whole : ∀ letter ∈ name, decide (letter ≠ sep) = true := fun letter inside =>
    decide_eq_true fun same => plain (same ▸ inside)
  rw [firstPart, List.takeWhile_append_of_pos whole, List.takeWhile_cons_of_neg (by simp), List.append_nil]

theorem firstPart_mem {forest : Forest α} (named : forest.Named (sep ∉ ·)) {path : List α}
    (inside : path ∈ forest.paths sep) :
    ∃ isDir, (firstPart sep path, isDir) ∈ forest.entries := by
  induction forest with
  | done => cases inside
  | file name rest ih =>
    rcases List.mem_cons.mp inside with rfl | inside
    · exact ⟨false, by rw [firstPart_name named.1]; exact List.mem_cons_self⟩
    · obtain ⟨isDir, found⟩ := ih named.2.2 inside
      exact ⟨isDir, List.mem_cons_of_mem _ found⟩
  | dir name inner rest _ ih =>
    rcases List.mem_append.mp inside with here | inside
    · refine ⟨true, ?_⟩
      have first : firstPart sep path = name := by
        rcases List.mem_append.mp here with below | here
        · obtain ⟨path, _, rfl⟩ := List.mem_map.mp below
          exact firstPart_below named.1 path
        · rw [List.mem_singleton.mp here]
          exact firstPart_name named.1
      rw [first]
      exact List.mem_cons_self
    · obtain ⟨isDir, found⟩ := ih named.2.2.2 inside
      exact ⟨isDir, List.mem_cons_of_mem _ found⟩

theorem paths_nodup {forest : Forest α} (named : forest.Named (sep ∉ ·)) : (forest.paths sep).Nodup := by
  induction forest with
  | done => exact List.nodup_nil
  | file name rest ih =>
    refine List.nodup_cons.mpr ⟨fun twice => ?_, ih named.2.2⟩
    obtain ⟨isDir, found⟩ := firstPart_mem named.2.2 twice
    rw [firstPart_name named.1] at found
    exact named.2.1 isDir found
  | dir name inner rest ihInner ih =>
    have below : ((inner.paths sep).map (name ++ sep :: ·)).Nodup :=
      (ihInner named.2.2.1).map fun first second same => by simpa using same
    have first {path : List α} (here : path ∈ (inner.paths sep).map (name ++ sep :: ·) ++ [name]) :
        firstPart sep path = name := by
      rcases List.mem_append.mp here with below | here
      · obtain ⟨path, _, rfl⟩ := List.mem_map.mp below
        exact firstPart_below named.1 path
      · rw [List.mem_singleton.mp here]
        exact firstPart_name named.1
    refine List.nodup_append.mpr ⟨List.nodup_append.mpr ⟨below, List.nodup_singleton _, ?_⟩, ih named.2.2.2, ?_⟩
    · rintro path inside other same rfl
      obtain ⟨inner, _, rfl⟩ := List.mem_map.mp inside
      have shorter := congrArg List.length (List.mem_singleton.mp same)
      simp at shorter
    · rintro path here other inside rfl
      obtain ⟨isDir, found⟩ := firstPart_mem named.2.2.2 inside
      rw [first here] at found
      exact named.2.1 isDir found

end Distinct

theorem paths_ne_nil {forest : Forest α} (named : forest.Named (· ≠ [])) : [] ∉ forest.paths sep := by
  induction forest with
  | done => exact List.not_mem_nil
  | file name rest ih =>
    rintro (_ | ⟨_, inside⟩)
    · exact named.1 rfl
    · exact ih named.2.2 inside
  | dir name inner rest _ ih =>
    intro inside
    rcases List.mem_append.mp inside with here | inside
    · rcases List.mem_append.mp here with below | here
      · obtain ⟨path, _, same⟩ := List.mem_map.mp below
        simp at same
      · exact named.1 (List.mem_singleton.mp here).symm
    · exact ih named.2.2.2 inside

theorem parent_mem {forest : Forest α} (named : forest.Named (sep ∉ ·)) {front path : List α}
    (inside : front ++ sep :: path ∈ forest.paths sep) : front ∈ forest.paths sep := by
  induction forest generalizing front with
  | done => cases inside
  | file name rest ih =>
    rcases List.mem_cons.mp inside with here | inside
    · exact absurd (here ▸ List.mem_append_right _ List.mem_cons_self) named.1
    · exact List.mem_cons_of_mem _ (ih named.2.2 inside)
  | dir name inner rest ihInner ih =>
    rcases List.mem_append.mp inside with here | inside
    · rcases List.mem_append.mp here with below | here
      · obtain ⟨other, below, same⟩ := List.mem_map.mp below
        rcases List.append_eq_append_iff.mp same with ⟨more, rfl, rest⟩ | ⟨more, rfl, rest⟩
        · cases more with
          | nil => exact List.mem_append_left _ (List.mem_append_right _ (by simp))
          | cons letter more =>
            simp only [List.cons_append, List.cons.injEq] at rest
            obtain ⟨rfl, rfl⟩ := rest
            exact List.mem_append_left _ (List.mem_append_left _
              (List.mem_map.mpr ⟨more, ihInner named.2.2.1 below, rfl⟩))
        · cases more with
          | nil => exact List.mem_append_left _ (List.mem_append_right _ (by simp))
          | cons letter more =>
            simp only [List.cons_append, List.cons.injEq] at rest
            exact absurd (rest.1 ▸ List.mem_append_right _ List.mem_cons_self) named.1
      · rw [← List.mem_singleton.mp here] at named
        exact absurd (List.mem_append_right _ List.mem_cons_self) named.1
    · exact List.mem_append_right _ (ih named.2.2.2 inside)

section Parts
variable {sep} [BEq α] [LawfulBEq α]

theorem parts_allowed {allowed : List α → Prop} (plain : ∀ name, allowed name → sep ∉ name)
    {forest : Forest α} (named : forest.Named allowed) {path : List α} (inside : path ∈ forest.paths sep) :
    ∀ part ∈ path.splitOn sep, allowed part := by
  have single {name : List α} (allows : allowed name) : ∀ part ∈ name.splitOn sep, allowed part := by
    rw [List.splitOn_eq_singleton (plain name allows)]
    exact fun part same => List.mem_singleton.mp same ▸ allows
  induction forest generalizing path with
  | done => cases inside
  | file name rest ih =>
    rcases List.mem_cons.mp inside with rfl | inside
    · exact single named.1
    · exact ih named.2.2 inside
  | dir name inner rest ihInner ih =>
    rcases List.mem_append.mp inside with here | inside
    · rcases List.mem_append.mp here with below | here
      · obtain ⟨path, within, rfl⟩ := List.mem_map.mp below
        rw [List.splitOn_append_cons_self_of_not_mem (plain name named.1)]
        exact List.forall_mem_cons.mpr ⟨named.1, ihInner named.2.2.1 within⟩
      · rw [List.mem_singleton.mp here]
        exact single named.1
    · exact ih named.2.2.2 inside

omit [BEq α] [LawfulBEq α] in
theorem intercalate_append {front back : List (List α)} (some : front ≠ []) (more : back ≠ []) :
    [sep].intercalate (front ++ back) = [sep].intercalate front ++ sep :: [sep].intercalate back := by
  induction front with
  | nil => exact absurd rfl some
  | cons part front ih =>
    cases front with
    | nil =>
      cases back with
      | nil => exact absurd rfl more
      | cons next back => simp
    | cons next front =>
      have later := ih (List.cons_ne_nil next front)
      simp only [List.cons_append, List.intercalate_cons_cons] at later ⊢
      rw [later]
      simp only [List.append_assoc]

/-- A path whose parts are the first of another one is that one or leads to it. -/
theorem below_of_parts {first second : List α} (front : first.splitOn sep <+: second.splitOn sep) :
    first = second ∨ ∃ below, second = first ++ sep :: below := by
  obtain ⟨rest, parts⟩ := front
  have path : [sep].intercalate (second.splitOn sep) = second := List.intercalate_splitOn sep
  rw [← parts] at path
  by_cases more : rest = []
  · subst more
    rw [List.append_nil, List.intercalate_splitOn] at path
    exact Or.inl path
  · rw [intercalate_append (List.splitOn_ne_nil sep first) more, List.intercalate_splitOn] at path
    exact Or.inr ⟨_, path.symm⟩

end Parts
end Forest
end NameForest
