import Bxxt.Memory
import Bxxt.Lib.SortedChain
import Mathlib.Data.List.Lex
import Mathlib.Data.List.Nodup

/-! The hash tables of libsepol (`hashtab.c`) and their use for names (`symtab.c`). A
chain is kept in the order of its keys, so the first key that is not smaller decides. -/

namespace Bxxt
open ByteLayout SortedChain

def sepolOk : Int := 0
def sepolEnomem : Int := -12
def sepolEexist : Int := -17

/-- A table with its hash function. A node is known by its key: a pointer to a datum is
modelled as the key that it is stored under. -/
structure Hashtab (κ α : Type) where
  size : Nat
  hashValue : κ → Nat
  htable : Nat → List (κ × α)

section Hashtab
variable {κ α : Type} [LinearOrder κ]

def hashtabCreate (hashValue : κ → Nat) (size : Nat) : Hashtab κ α := ⟨size, hashValue, fun _ => []⟩

def hashtabSearch (h : Hashtab κ α) (key : κ) : Option α :=
  match (h.htable (h.hashValue key)).dropWhile fun cur => cur.1 < key with
  | [] => none
  | cur :: _ => if cur.1 = key then some cur.2 else none

/-- The table with a new node, linked in front of the first key that is not smaller. -/
def Hashtab.linked (h : Hashtab κ α) (key : κ) (datum : α) : Hashtab κ α :=
  let chain := h.htable (h.hashValue key)
  { h with
    htable := Function.update h.htable (h.hashValue key) (insertBehind (fun cur => cur.1 < key) (key, datum) chain) }

def hashtabInsert (h : Hashtab κ α) (key : κ) (datum : α) : Int × Hashtab κ α :=
  match (h.htable (h.hashValue key)).dropWhile fun cur => cur.1 < key with
  | [] => (sepolOk, h.linked key datum)
  | cur :: _ => if cur.1 = key then (sepolEexist, h) else (sepolOk, h.linked key datum)

/-- The nodes in the order in which `hashtab_map` visits them. -/
def Hashtab.nodes (h : Hashtab κ α) : List (κ × α) := (List.range h.size).flatMap h.htable

/-- `hashtab_map` over the nodes, until a call does not return 0. -/
def hashtabMap {σ : Type} (apply : κ → α → σ → Exec (Int × σ)) : List (κ × α) → σ → Exec (Int × σ)
  | [], args => .ok (sepolOk, args)
  | (key, datum) :: rest, args => do
    let (ret, args) ← apply key datum args
    if ret ≠ 0 then .ok (ret, args) else hashtabMap apply rest args

/-- A write through a pointer to the datum of `key`. -/
def Hashtab.store (h : Hashtab κ α) (key : κ) (change : α → α) : Hashtab κ α :=
  { h with
    htable := fun slot => (h.htable slot).map fun node => if node.1 = key then (node.1, change node.2) else node }

def Hashtab.storeAll (h : Hashtab κ α) (keys : List κ) (change : κ → α → α) : Hashtab κ α :=
  keys.foldl (fun h key => h.store key (change key)) h

/-- Every node is in the chain of its key, and the chains are in order. -/
structure Hashtab.WellFormed (h : Hashtab κ α) : Prop where
  sorted : ∀ slot, (h.htable slot).Pairwise fun first second => first.1 < second.1
  placed : ∀ slot, ∀ node ∈ h.htable slot, h.hashValue node.1 = slot
  inside : ∀ key, h.hashValue key < h.size

theorem Hashtab.WellFormed.empty {hashValue : κ → Nat} {size : Nat} (inside : ∀ key, hashValue key < size) :
    (hashtabCreate (α := α) hashValue size).WellFormed :=
  ⟨fun _ => List.Pairwise.nil, fun _ _ member => absurd member List.not_mem_nil, inside⟩

section Chain
variable {chain : List (κ × α)} {key : κ}

theorem chain_closed (sorted : chain.Pairwise fun first second => first.1 < second.1) :
    chain.Pairwise fun first second => decide (second.1 < key) = true → decide (first.1 < key) = true :=
  sorted.imp fun less before => decide_eq_true (less.trans (of_decide_eq_true before))

theorem dropWhile_head_iff (sorted : chain.Pairwise fun first second => first.1 < second.1) {datum : α} :
    (key, datum) ∈ chain ↔ ∃ rest, (chain.dropWhile fun cur => cur.1 < key) = (key, datum) :: rest := by
  constructor
  · intro member
    induction chain with
    | nil => simp at member
    | cons first rest ih =>
      obtain ⟨here, behind⟩ := List.pairwise_cons.mp sorted
      rcases List.mem_cons.mp member with rfl | later
      · exact ⟨rest, by rw [List.dropWhile_cons, if_neg (by simp)]⟩
      · obtain ⟨back, found⟩ := ih behind later
        have smaller : first.1 < key := here _ later
        exact ⟨back, by rw [List.dropWhile_cons, if_pos (by simpa using smaller), found]⟩
  · intro ⟨rest, found⟩
    exact (List.dropWhile_sublist _).subset (found ▸ List.mem_cons_self)

end Chain

namespace Hashtab
variable {h : Hashtab κ α} {key : κ} {datum : α}

theorem search_eq_some (formed : h.WellFormed) :
    hashtabSearch h key = some datum ↔ (key, datum) ∈ h.htable (h.hashValue key) := by
  rw [dropWhile_head_iff (formed.sorted _), hashtabSearch]
  split
  next none => simp [none]
  next cur rest found =>
    rw [found]
    split
    next same =>
      subst same
      simp [Prod.ext_iff]
    next other =>
      simp only [reduceCtorEq, List.cons.injEq, exists_and_left, exists_eq', and_true, false_iff]
      rintro rfl
      exact other rfl

theorem mem_nodes (formed : h.WellFormed) : (key, datum) ∈ h.nodes ↔ hashtabSearch h key = some datum := by
  rw [search_eq_some formed, nodes, List.mem_flatMap]
  constructor
  · intro ⟨slot, _, member⟩
    exact formed.placed slot _ member ▸ member
  · exact fun member => ⟨h.hashValue key, List.mem_range.mpr (formed.inside key), member⟩

theorem insert_exists (formed : h.WellFormed) (found : hashtabSearch h key = some datum) (other : α) :
    hashtabInsert h key other = (sepolEexist, h) := by
  obtain ⟨rest, walked⟩ := (dropWhile_head_iff (formed.sorted _)).mp ((search_eq_some formed).mp found)
  rw [hashtabInsert]
  simp [walked]

theorem insert_fresh (fresh : hashtabSearch h key = none) (datum : α) :
    hashtabInsert h key datum = (sepolOk, h.linked key datum) := by
  rw [hashtabSearch] at fresh
  rw [hashtabInsert]
  split at fresh
  next => rfl
  next cur rest found =>
    split at fresh
    next => cases fresh
    next other => simp [other]

theorem linked_chain (slot : Nat) : (h.linked key datum).htable slot =
    if slot = h.hashValue key then insertBehind (fun cur => cur.1 < key) (key, datum) (h.htable slot)
      else h.htable slot := by
  change Function.update h.htable (h.hashValue key) _ slot = _
  split
  next same => rw [same, Function.update_self]
  next other => rw [Function.update_of_ne other]

theorem linked_wellFormed (formed : h.WellFormed) (fresh : hashtabSearch h key = none) :
    (h.linked key datum).WellFormed where
  sorted slot := by
    rw [linked_chain]
    split
    next same =>
      subst same
      have sorted := formed.sorted (h.hashValue key)
      refine insertBehind_pairwise sorted (chain_closed sorted) ?_ ?_
      · exact fun other _ before => of_decide_eq_true before
      · intro other member behind
        have notLess : ¬ other.1 < key := of_decide_eq_false behind
        refine lt_of_le_of_ne (not_lt.mp notLess) ?_
        rintro rfl
        rw [(search_eq_some formed).mpr member] at fresh
        cases fresh
    next => exact formed.sorted slot
  placed slot node member := by
    rw [linked_chain] at member
    split at member
    next same =>
      rcases (mem_insertBehind ..).mp member with rfl | old
      · exact same.symm
      · exact formed.placed slot node old
    next => exact formed.placed slot node member
  inside := formed.inside

theorem search_linked (formed : h.WellFormed) (fresh : hashtabSearch h key = none) (other : κ) :
    hashtabSearch (h.linked key datum) other = if other = key then some datum else hashtabSearch h other := by
  have after := @linked_wellFormed _ _ _ _ _ datum formed fresh
  apply Option.ext
  intro found
  have chain : (h.linked key datum).hashValue other = h.hashValue other := rfl
  rw [search_eq_some after, linked_chain, chain]
  by_cases same : other = key
  · subst same
    rw [if_pos rfl, if_pos rfl, mem_insertBehind]
    have absent : (other, found) ∉ h.htable (h.hashValue other) := fun member => by
      rw [(search_eq_some formed).mpr member] at fresh
      cases fresh
    simp [absent, eq_comm]
  · rw [if_neg same, search_eq_some formed]
    split
    next => rw [mem_insertBehind, Prod.mk.injEq, or_iff_right (fun both => same both.1)]
    next => exact Iff.rfl

theorem store_wellFormed (formed : h.WellFormed) (change : α → α) : (h.store key change).WellFormed where
  sorted slot := by
    refine List.pairwise_map.mpr ((formed.sorted slot).imp ?_)
    intro first second less
    split <;> split <;> exact less
  placed slot node member := by
    obtain ⟨old, inChain, rfl⟩ := List.mem_map.mp member
    have place := formed.placed slot old inChain
    split <;> exact place
  inside := formed.inside

theorem search_store (formed : h.WellFormed) (change : α → α) (other : κ) :
    hashtabSearch (h.store key change) other =
      if other = key then (hashtabSearch h other).map change else hashtabSearch h other := by
  apply Option.ext
  intro found
  rw [search_eq_some (store_wellFormed formed change)]
  change _ ∈ (h.htable (h.hashValue other)).map _ ↔ _
  rw [List.mem_map]
  split
  next same =>
    simp only [Option.map_eq_some_iff, search_eq_some formed]
    constructor
    · intro ⟨node, member, image⟩
      split at image
      next => cases image; exact ⟨node.2, member, rfl⟩
      next away => cases image; exact absurd same away
    · intro ⟨old, member, image⟩
      exact ⟨(other, old), member, by rw [if_pos same, image]⟩
  next away =>
    rw [search_eq_some formed]
    constructor
    · intro ⟨node, member, image⟩
      split at image
      next same => cases image; exact absurd same away
      next => cases image; exact member
    · exact fun member => ⟨(other, found), member, by rw [if_neg away]⟩

theorem storeAll_wellFormed (formed : h.WellFormed) (keys : List κ) (change : κ → α → α) :
    (h.storeAll keys change).WellFormed := by
  induction keys generalizing h with
  | nil => exact formed
  | cons key rest ih => exact ih (store_wellFormed formed (change key))

theorem search_storeAll (formed : h.WellFormed) {keys : List κ} (distinct : keys.Nodup)
    (change : κ → α → α) (other : κ) :
    hashtabSearch (h.storeAll keys change) other =
      if other ∈ keys then (hashtabSearch h other).map (change other) else hashtabSearch h other := by
  induction keys generalizing h with
  | nil => simp [storeAll]
  | cons key rest ih =>
    obtain ⟨absent, distinct⟩ := List.nodup_cons.mp distinct
    change hashtabSearch ((h.store key (change key)).storeAll rest change) other = _
    rw [ih (store_wellFormed formed (change key)) distinct, search_store formed]
    by_cases same : other = key
    · subst same
      simp [absent]
    · simp [same]

theorem map_store {apply : κ → α → Hashtab κ α → Exec (Int × Hashtab κ α)} {nodes : List (κ × α)}
    {change : κ → α → α} (step : ∀ node ∈ nodes, ∀ h, apply node.1 node.2 h =
      .ok (0, h.store node.1 (change node.1)))
    (h : Hashtab κ α) : hashtabMap apply nodes h = .ok (0, h.storeAll (nodes.map Prod.fst) change) := by
  induction nodes generalizing h with
  | nil => rfl
  | cons node rest ih =>
    obtain ⟨here, step⟩ := List.forall_mem_cons.mp step
    rw [hashtabMap, here, Exec.ok_bind]
    exact ih step _

theorem nodes_nodup (formed : h.WellFormed) : (h.nodes.map Prod.fst).Nodup := by
  rw [nodes, List.map_flatMap, List.nodup_flatMap]
  constructor
  · exact fun slot _ => List.Pairwise.map _ (fun _ _ less => ne_of_lt less) (formed.sorted slot)
  · refine List.Pairwise.imp ?_ (List.nodup_range (n := h.size))
    intro first second distinct
    rw [Function.onFun, List.disjoint_left]
    intro name inFirst inSecond
    obtain ⟨one, member, rfl⟩ := List.mem_map.mp inFirst
    obtain ⟨two, memberToo, same⟩ := List.mem_map.mp inSecond
    exact distinct ((formed.placed first one member).symm.trans (same ▸ formed.placed second two memberToo))

end Hashtab
end Hashtab

section Symtab

/-- A string up to its terminating zero, in the order of `strcmp`. -/
def CString : Type := Bytes

instance : LinearOrder CString :=
  LinearOrder.lift' (fun string : Bytes => string.map UInt8.toNat)
    (List.map_injective_iff.mpr fun _ _ => UInt8.toNat_inj.mp)

/-- `symhash`, with the `unsigned char` of the ARM targets. The size is a power of two. -/
def symhash (size : UInt32) (key : CString) : Nat :=
  let val := List.foldl (fun (val : UInt32) char => (val <<< 4 ||| val >>> 28) ^^^ UInt8.toUInt32 char) 0 key
  (val &&& (size - 1)).toNat

theorem symhash_lt {size : UInt32} (positive : size ≠ 0) (key : CString) : symhash size key < size.toNat := by
  have small : (size - 1).toNat < size.toNat := by
    have zero : size.toNat ≠ 0 := fun none => positive (UInt32.toNat_inj.mp none)
    have bound := size.toNat_lt
    rw [UInt32.toNat_sub, UInt32.toNat_one]
    omega
  refine lt_of_le_of_lt ?_ small
  rw [symhash, UInt32.toNat_and]
  exact Nat.and_le_right

structure Symtab (α : Type) where
  table : Hashtab CString α
  nprim : UInt32

def symtabInit (α : Type) (size : UInt32) : Symtab α := ⟨hashtabCreate (symhash size) size.toNat, 0⟩

theorem symtabInit_wellFormed {α : Type} {size : UInt32} (positive : size ≠ 0) :
    (symtabInit α size).table.WellFormed :=
  .empty (symhash_lt positive)

end Symtab
end Bxxt
