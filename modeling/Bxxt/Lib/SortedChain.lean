import Mathlib.Data.List.Perm.Basic
import Mathlib.Data.List.Pairwise
import Mathlib.Data.List.TakeWhile

/-! Chains of a hash table, kept in order. A search walks a chain until it meets its item
or a place behind which the item cannot be; an insertion splits the chain at the first
place that is not before the new item. -/

namespace SortedChain
variable {α : Type}

/-- The first item that is hit, unless the walk has to stop before. -/
def scan (hit stop : α → Bool) : List α → Option α
  | [] => none
  | item :: rest => if hit item then some item else if stop item then none else scan hit stop rest

def scanModify (hit stop : α → Bool) (change : α → α) : List α → List α
  | [] => []
  | item :: rest =>
    if hit item then change item :: rest else if stop item then item :: rest
      else item :: scanModify hit stop change rest

/-- Every item that is hit before the walk has to stop. -/
def scanAll (hit stop : α → Bool) : List α → List α
  | [] => []
  | item :: rest =>
    if hit item then item :: scanAll hit stop rest else if stop item then [] else scanAll hit stop rest

def insertBehind (before : α → Bool) (item : α) (chain : List α) : List α :=
  chain.takeWhile before ++ item :: chain.dropWhile before

/-- A walk that stops only where nothing behind is hit misses nothing. -/
theorem scan_eq_find? {hit stop : α → Bool} {chain : List α}
    (guarded : chain.Pairwise fun first second => stop first = true → hit second = false) :
    scan hit stop chain = chain.find? hit := by
  induction chain with
  | nil => rfl
  | cons item rest ih =>
    obtain ⟨here, behind⟩ := List.pairwise_cons.mp guarded
    rw [scan, List.find?_cons]
    cases hits : hit item with
    | true => rfl
    | false =>
      rw [if_neg (by simp)]
      cases stops : stop item with
      | false => simpa using ih behind
      | true =>
        have nothing : ∀ other ∈ rest, ¬ hit other = true := fun other member => by simp [here other member stops]
        rw [if_pos rfl]
        exact (List.find?_eq_none.mpr nothing).symm

theorem scanAll_eq_filter {hit stop : α → Bool} {chain : List α}
    (guarded : chain.Pairwise fun first second => stop first = true → hit second = false) :
    scanAll hit stop chain = chain.filter hit := by
  induction chain with
  | nil => rfl
  | cons item rest ih =>
    obtain ⟨here, behind⟩ := List.pairwise_cons.mp guarded
    rw [scanAll, List.filter_cons, ih behind]
    cases hits : hit item with
    | true => rfl
    | false =>
      cases stops : stop item with
      | false => rfl
      | true =>
        have nothing : rest.filter hit = [] :=
          List.filter_eq_nil_iff.mpr fun other member => by simp [here other member stops]
        simp [nothing]

theorem split_unique {hit : α → Bool} {front back front' back' : List α} {item item' : α}
    (before : ∀ other ∈ front, hit other = false) (hits : hit item = true)
    (before' : ∀ other ∈ front', hit other = false) (hits' : hit item' = true)
    (same : front ++ item :: back = front' ++ item' :: back') : front = front' ∧ item = item' ∧ back = back' := by
  induction front generalizing front' with
  | nil =>
    cases front' with
    | nil => simpa using same
    | cons first rest =>
      cases same
      rw [before' _ List.mem_cons_self] at hits
      cases hits
  | cons first rest ih =>
    cases front' with
    | nil =>
      cases same
      rw [before _ List.mem_cons_self] at hits'
      cases hits'
    | cons first' rest' =>
      obtain ⟨rfl, tails⟩ := List.cons.inj same
      obtain ⟨rfl, inner⟩ := ih (List.forall_mem_cons.mp before).2 (List.forall_mem_cons.mp before').2 tails
      exact ⟨rfl, inner⟩

section Modify
variable {hit stop : α → Bool} {change : α → α} {chain : List α} {item : α}

/-- A change happens in one place, and the places around it stay. -/
theorem scanModify_split (found : scan hit stop chain = some item) : ∃ front back,
    chain = front ++ item :: back ∧ scanModify hit stop change chain = front ++ change item :: back ∧
      hit item = true ∧ ∀ other ∈ front, hit other = false ∧ stop other = false := by
  induction chain with
  | nil => cases found
  | cons first rest ih =>
    rw [scan] at found
    rw [scanModify]
    split at found
    next hits =>
      cases found
      exact ⟨[], rest, rfl, by rw [if_pos hits]; rfl, hits, by simp⟩
    next misses =>
      split at found
      next => cases found
      next goes =>
        obtain ⟨front, back, shape, modified, hits, before⟩ := ih found
        refine ⟨first :: front, back, by rw [shape]; rfl, ?_, hits, ?_⟩
        · rw [if_neg misses, if_neg goes, modified]
          rfl
        · exact List.forall_mem_cons.mpr ⟨⟨by simpa using misses, by simpa using goes⟩, before⟩

theorem length_scanModify (hit stop : α → Bool) (change : α → α) (chain : List α) :
    (scanModify hit stop change chain).length = chain.length := by
  induction chain with
  | nil => rfl
  | cons item rest ih =>
    rw [scanModify]
    split
    · rfl
    · split
      · rfl
      · rw [List.length_cons, List.length_cons, ih]

end Modify

section Insert
variable (before : α → Bool) (item : α) (chain : List α)

theorem insertBehind_perm : (insertBehind before item chain).Perm (item :: chain) := by
  have split := List.takeWhile_append_dropWhile (p := before) (l := chain)
  refine List.perm_middle.trans ?_
  rw [split]

@[simp] theorem mem_insertBehind {other : α} : other ∈ insertBehind before item chain ↔ other = item ∨
    other ∈ chain := by
  rw [(insertBehind_perm before item chain).mem_iff, List.mem_cons]

variable {before item chain}

theorem not_before_of_mem_dropWhile (closed : chain.Pairwise fun first second => before second = true →
    before first = true)
    {other : α} (member : other ∈ chain.dropWhile before) : before other = false := by
  induction chain with
  | nil => simp at member
  | cons first rest ih =>
    obtain ⟨here, behind⟩ := List.pairwise_cons.mp closed
    rw [List.dropWhile_cons] at member
    split at member
    next => exact ih behind member
    next other_first =>
      rcases List.mem_cons.mp member with rfl | later
      · simpa using other_first
      · by_contra is
        exact other_first (here other later (by simpa using is))

theorem insertBehind_pairwise {order : α → α → Prop} (sorted : chain.Pairwise order)
    (closed : chain.Pairwise fun first second => before second = true → before first = true)
    (front : ∀ other ∈ chain, before other = true → order other item)
    (back : ∀ other ∈ chain, before other = false → order item other) :
    (insertBehind before item chain).Pairwise order := by
  have whole := sorted
  rw [← List.takeWhile_append_dropWhile (p := before) (l := chain), List.pairwise_append] at whole
  obtain ⟨first, second, across⟩ := whole
  rw [insertBehind, List.pairwise_append, List.pairwise_cons]
  refine ⟨first, ⟨?_, second⟩, ?_⟩
  · intro other member
    exact back other ((List.dropWhile_sublist before).subset member) (not_before_of_mem_dropWhile closed member)
  · intro one inFront other member
    rcases List.mem_cons.mp member with rfl | behind
    · exact front one ((List.takeWhile_sublist before).subset inFront) (List.mem_takeWhile_imp inFront)
    · exact across one inFront other behind

variable {hit : α → Bool}

theorem find?_insertBehind_of_hit (hits : hit item = true) (fresh : chain.find? hit = none) :
    (insertBehind before item chain).find? hit = some item := by
  have front : (chain.takeWhile before).find? hit = none := by
    rw [List.find?_eq_none] at fresh ⊢
    exact fun other member => fresh other ((List.takeWhile_sublist before).subset member)
  rw [insertBehind, List.find?_append, front, List.find?_cons, hits]
  rfl

end Insert
end SortedChain
