import Bxxt.Policydb

/-! Indexing a symbol table succeeds exactly if its values are in range and of one symbol
each, and then the names lead back to the symbols. -/

namespace Bxxt.Proofs
open Bxxt

variable {α : Type}

/-- An index function: a listed symbol takes the place of its value. -/
def Indexes (apply : CString → α → Names → Exec (Int × Names)) (listed : α → Option UInt32)
    (nprim : UInt32) : Prop :=
  ∀ key datum names, apply key datum names =
    match listed datum with
    | some value => indexValue value nprim key names
    | none => .ok (0, names)

def listedRole (role : RoleDatum) : Option UInt32 := some role.value

def listedType (type : TypeDatum) : Option UInt32 := if type.primary ≠ 0 then some type.value else none

theorem roleIndex_indexes (p : Policydb) : Indexes (roleIndex p) listedRole p.pRoles.nprim := fun _ _ _ => rfl

theorem typeIndex_indexes (p : Policydb) : Indexes (typeIndex p) listedType p.pTypes.nprim := by
  intro key datum names
  rw [typeIndex, listedType]
  split <;> rfl

/-- The listed values of a table are in range, and no two symbols share one. -/
structure Indexable (h : Hashtab CString α) (listed : α → Option UInt32) (nprim : UInt32) : Prop where
  range : ∀ {key datum value}, hashtabSearch h key = some datum → listed datum = some value →
    value ≠ 0 ∧ value ≤ nprim
  unique : ∀ {key datum value key' datum'}, hashtabSearch h key = some datum → listed datum = some value →
    hashtabSearch h key' = some datum' → listed datum' = some value → key = key'

variable {apply : CString → α → Names → Exec (Int × Names)} {listed : α → Option UInt32} {nprim : UInt32}

theorem indexValue_ok {value : UInt32} {key : CString} {names : Names} (positive : value ≠ 0)
    (inside : value ≤ nprim) (free : names (value.toNat - 1) = none) :
    indexValue value nprim key names = .ok (0, Function.update names (value.toNat - 1) (some key)) := by
  rw [indexValue, if_neg (by simp [positive, inside]), if_neg (by simp [free])]

theorem of_indexValue {value : UInt32} {key : CString} {names after : Names}
    (indexed : indexValue value nprim key names = .ok (0, after)) :
    value ≠ 0 ∧ value ≤ nprim ∧ names (value.toNat - 1) = none ∧
      after = Function.update names (value.toNat - 1) (some key) := by
  rw [indexValue] at indexed
  split at indexed
  next => cases indexed
  next inside =>
    split at indexed
    next => cases indexed
    next free =>
      cases indexed
      simp only [not_or] at inside
      exact ⟨inside.1, UInt32.not_lt.mp inside.2, by simpa using free, rfl⟩

theorem value_eq_of_slot {first second : UInt32} (positive : first ≠ 0) (positive' : second ≠ 0)
    (slot : first.toNat - 1 = second.toNat - 1) : first = second := by
  have nonzero : first.toNat ≠ 0 := fun zero => positive (UInt32.toNat_inj.mp zero)
  have nonzero' : second.toNat ≠ 0 := fun zero => positive' (UInt32.toNat_inj.mp zero)
  exact UInt32.toNat_inj.mp (by omega)

theorem index_nodes (indexes : Indexes apply listed nprim) {nodes : List (CString × α)} {names : Names}
    (range : ∀ node ∈ nodes, ∀ value, listed node.2 = some value → value ≠ 0 ∧ value ≤ nprim)
    (apart : nodes.Pairwise fun first second => ∀ value, listed first.2 = some value →
      listed second.2 ≠ some value)
    (free : ∀ node ∈ nodes, ∀ value, listed node.2 = some value → names (value.toNat - 1) = none) :
    ∃ after, hashtabMap apply nodes names = .ok (0, after) ∧ ∀ i key, after i = some key ↔
      names i = some key ∨ ∃ datum value, (key, datum) ∈ nodes ∧ listed datum = some value ∧
        value.toNat - 1 = i := by
  induction nodes generalizing names with
  | nil => exact ⟨names, rfl, by simp⟩
  | cons node rest ih =>
    obtain ⟨first, datum⟩ := node
    obtain ⟨here, range⟩ := List.forall_mem_cons.mp range
    obtain ⟨freeHere, free⟩ := List.forall_mem_cons.mp free
    obtain ⟨apartHere, apart⟩ := List.pairwise_cons.mp apart
    cases lists : listed datum with
    | none =>
      have step : apply first datum names = .ok (0, names) := by rw [indexes, lists]
      obtain ⟨after, walked, spec⟩ := ih range apart free
      refine ⟨after, ?_, ?_⟩
      · rw [hashtabMap, step]
        exact walked
      · intro i key
        rw [spec]
        refine or_congr_right ⟨?_, ?_⟩
        · rintro ⟨other, value, member, is, slot⟩
          exact ⟨other, value, List.mem_cons_of_mem _ member, is, slot⟩
        · rintro ⟨other, value, member, is, slot⟩
          rcases List.mem_cons.mp member with same | later
          · cases same
            rw [lists] at is
            cases is
          · exact ⟨other, value, later, is, slot⟩
    | some value =>
      obtain ⟨positive, inside⟩ := here value lists
      have step : apply first datum names = .ok (0, Function.update names (value.toNat - 1) (some first)) := by
        rw [indexes, lists]
        exact indexValue_ok positive inside (freeHere value lists)
      obtain ⟨after, walked, spec⟩ := @ih (Function.update names (value.toNat - 1) (some first)) range apart (by
        intro node member other is
        have differs : other.toNat - 1 ≠ value.toNat - 1 := by
          intro slot
          rw [value_eq_of_slot (range node member other is).1 positive slot] at is
          exact apartHere node member value lists is
        rw [Function.update_of_ne differs]
        exact free node member other is)
      refine ⟨after, ?_, ?_⟩
      · rw [hashtabMap, step]
        exact walked
      · intro i key
        rw [spec, Function.update_apply]
        constructor
        · rintro (known | ⟨other, found, member, is, slot⟩)
          · split at known
            next slot =>
              cases known
              exact Or.inr ⟨datum, value, List.mem_cons_self, lists, slot.symm⟩
            next => exact Or.inl known
          · exact Or.inr ⟨other, found, List.mem_cons_of_mem _ member, is, slot⟩
        · rintro (known | ⟨other, found, member, is, slot⟩)
          · left
            rw [if_neg, known]
            rintro rfl
            rw [freeHere value lists] at known
            cases known
          · rcases List.mem_cons.mp member with same | later
            · cases same
              rw [lists] at is
              cases is
              left
              rw [if_pos slot.symm]
            · exact Or.inr ⟨other, found, later, is, slot⟩

/-- A walk to the end has found every value in range, and each place free. -/
theorem nodes_of_index (indexes : Indexes apply listed nprim) {nodes : List (CString × α)} {names after : Names}
    (walked : hashtabMap apply nodes names = .ok (0, after)) :
    (∀ node ∈ nodes, ∀ value, listed node.2 = some value → value ≠ 0 ∧ value ≤ nprim ∧
      names (value.toNat - 1) = none) ∧
      nodes.Pairwise fun first second => ∀ value, listed first.2 = some value → listed second.2 ≠ some value := by
  induction nodes generalizing names with
  | nil => exact ⟨by simp, List.Pairwise.nil⟩
  | cons node rest ih =>
    obtain ⟨first, datum⟩ := node
    rw [hashtabMap, indexes] at walked
    cases lists : listed datum with
    | none =>
      rw [lists] at walked
      obtain ⟨range, apart⟩ := ih walked
      exact ⟨List.forall_mem_cons.mpr ⟨by simp [lists], range⟩,
        List.pairwise_cons.mpr ⟨by simp [lists], apart⟩⟩
    | some value =>
      rw [lists] at walked
      obtain ⟨⟨rc, between⟩, step, walked⟩ := Exec.bind_eq_ok.mp walked
      dsimp only at step walked
      split at walked
      next failed => cases walked; exact absurd rfl failed
      next passed =>
        simp only [ne_eq, not_not] at passed
        subst passed
        obtain ⟨positive, inside, free, rfl⟩ := of_indexValue step
        obtain ⟨range, apart⟩ := ih walked
        refine ⟨List.forall_mem_cons.mpr ⟨?_, ?_⟩, List.pairwise_cons.mpr ⟨?_, apart⟩⟩
        · intro other is
          rw [lists] at is
          cases is
          exact ⟨positive, inside, free⟩
        · intro node member other is
          obtain ⟨positive', inside', free'⟩ := range node member other is
          refine ⟨positive', inside', ?_⟩
          rw [Function.update_apply] at free'
          split at free'
          next => cases free'
          next => exact free'
        · intro node member other is again
          rw [lists] at is
          cases is
          have taken := (range node member value again).2.2
          rw [Function.update_self] at taken
          cases taken

section Table
variable {h : Hashtab CString α}

theorem indexTable_ok (formed : h.WellFormed) (indexes : Indexes apply listed nprim)
    (indexable : Indexable h listed nprim) :
    ∃ names, indexTable apply h = .ok (0, names) ∧ ∀ i key, names i = some key ↔
      ∃ datum value, hashtabSearch h key = some datum ∧ listed datum = some value ∧ value.toNat - 1 = i := by
  obtain ⟨names, walked, spec⟩ := @index_nodes _ _ _ _ indexes h.nodes (fun _ => none)
      (fun node member value is => indexable.range ((Hashtab.mem_nodes formed).mp member) is) (by
      have distinct := Hashtab.nodes_nodup formed
      rw [List.Nodup, List.pairwise_map] at distinct
      refine distinct.imp_of_mem ?_
      intro first second inFirst inSecond differ value is again
      exact differ (indexable.unique ((Hashtab.mem_nodes formed).mp inFirst) is
        ((Hashtab.mem_nodes formed).mp inSecond) again)) (by simp)
  refine ⟨names, walked, ?_⟩
  intro i key
  rw [spec]
  simp only [reduceCtorEq, false_or, Hashtab.mem_nodes formed]

theorem indexable_of_indexTable (formed : h.WellFormed) (indexes : Indexes apply listed nprim) {names : Names}
    (indexed : indexTable apply h = .ok (0, names)) : Indexable h listed nprim := by
  obtain ⟨range, apart⟩ := nodes_of_index indexes indexed
  constructor
  case range =>
    intro key datum value found is
    have := range (key, datum) ((Hashtab.mem_nodes formed).mpr found) value is
    exact ⟨this.1, this.2.1⟩
  case unique =>
    intro key datum value key' datum' found is found' is'
    by_contra differ
    have symmetric : Std.Symm fun first second : CString × α => ∀ value, listed first.2 = some value →
      listed second.2 ≠ some value :=
      ⟨fun first second apart value second_is first_is => apart value first_is second_is⟩
    exact apart.forall ((Hashtab.mem_nodes formed).mpr found) ((Hashtab.mem_nodes formed).mpr found')
      (fun same => differ (Prod.mk.inj same).1) value is is'

theorem Indexable.map {h' : Hashtab CString α} {change : α → α} (indexable : Indexable h listed nprim)
    (search : ∀ key, hashtabSearch h' key = (hashtabSearch h key).map change)
    (same : ∀ datum, listed (change datum) = listed datum) : Indexable h' listed nprim := by
  constructor
  case range =>
    intro key datum value found is
    rw [search, Option.map_eq_some_iff] at found
    obtain ⟨old, found, rfl⟩ := found
    exact indexable.range found (same old ▸ is)
  case unique =>
    intro key datum value key' datum' found is found' is'
    rw [search, Option.map_eq_some_iff] at found found'
    obtain ⟨old, found, rfl⟩ := found
    obtain ⟨old', found', rfl⟩ := found'
    exact indexable.unique found (same old ▸ is) found' (same old' ▸ is')

end Table
end Bxxt.Proofs
