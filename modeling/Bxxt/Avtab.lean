import Bxxt.Hashtab

/-! The access vector table of libsepol (`avtab.c`): rules in the chains of a hash table,
each chain in the order of source type, target type and class. -/

namespace Bxxt
open SortedChain

def avtabAllowed : UInt16 := 0x0001
def avtabAuditallow : UInt16 := 0x0002
def avtabAuditdeny : UInt16 := 0x0004
def avtabTransition : UInt16 := 0x0010
def avtabMember : UInt16 := 0x0020
def avtabChange : UInt16 := 0x0040
def avtabXpermsAllowed : UInt16 := 0x0100
def avtabXpermsAuditallow : UInt16 := 0x0200
def avtabXpermsDontaudit : UInt16 := 0x0400
def avtabEnabled : UInt16 := 0x8000

def avtabAv : UInt16 := avtabAllowed ||| avtabAuditallow ||| avtabAuditdeny
def avtabXperms : UInt16 := avtabXpermsAllowed ||| avtabXpermsAuditallow ||| avtabXpermsDontaudit

structure AvtabKey where
  sourceType : UInt16
  targetType : UInt16
  targetClass : UInt16
  specified : UInt16
  deriving DecidableEq, Repr

structure AvtabExtendedPerms where
  specified : UInt8
  driver : UInt8
  perms : Vector UInt32 8
  deriving DecidableEq, Repr

structure AvtabDatum where
  data : UInt32
  xperms : Option AvtabExtendedPerms
  deriving DecidableEq, Repr

structure AvtabNode where
  key : AvtabKey
  datum : AvtabDatum
  deriving DecidableEq, Repr

/-- `avtab_t`. A table that was never allocated has no chains. -/
structure Avtab where
  htable : Option (Nat → List AvtabNode)
  nel : UInt32
  nslot : UInt32
  mask : UInt32

def avtabMix (hash input : UInt32) : UInt32 :=
  let v := input * 0xcc9e2d51
  let v := v <<< 15 ||| v >>> 17
  let v := v * 0x1b873593
  let hash := hash ^^^ v
  let hash := hash <<< 13 ||| hash >>> 19
  hash * 5 + 0xe6546b64

def avtabHash (key : AvtabKey) (mask : UInt32) : Nat :=
  let hash := avtabMix (avtabMix (avtabMix 0 key.targetClass.toUInt32) key.targetType.toUInt32) key.sourceType.toUInt32
  let hash := hash ^^^ hash >>> 16
  let hash := hash * 0x85ebca6b
  let hash := hash ^^^ hash >>> 13
  let hash := hash * 0xc2b2ae35
  let hash := hash ^^^ hash >>> 16
  (hash &&& mask).toNat

namespace AvtabKey

/-- The three comparisons at which a walk ends: this key is before the other. -/
def precedes (key cur : AvtabKey) : Bool :=
  key.sourceType < cur.sourceType ||
    (key.sourceType == cur.sourceType && key.targetType < cur.targetType) ||
    (key.sourceType == cur.sourceType && key.targetType == cur.targetType && key.targetClass < cur.targetClass)

def sameTriple (key cur : AvtabKey) : Bool :=
  key.sourceType == cur.sourceType && key.targetType == cur.targetType && key.targetClass == cur.targetClass

def specifiedBits (key : AvtabKey) : UInt16 := key.specified &&& ~~~avtabEnabled

/-- A search finds the rules of its own triple that have a specifier in common with it. Extended
permissions share a triple with ordinary rules, so that the triple alone is not enough. -/
def hits (key cur : AvtabKey) : Bool := key.sameTriple cur && (key.specifiedBits &&& cur.specified) != 0

end AvtabKey

def avtabAlloc (nrules : UInt32) : Avtab :=
  if nrules = 0 then ⟨none, 0, 0, 0⟩
  else
    let bits := nrules.toNat.log2 + 1
    let shift := if bits > 2 then bits - 2 else bits
    let nslot := if shift > 20 then 2 ^ 20 else 2 ^ shift
    ⟨some fun _ => [], 0, UInt32.ofNat nslot, UInt32.ofNat (nslot - 1)⟩

def Avtab.chain (h : Avtab) (key : AvtabKey) : List AvtabNode :=
  match h.htable with
  | none => []
  | some htable => htable (avtabHash key h.mask)

/-- `avtab_search`, with the node whose datum it returns. -/
def avtabSearch (h : Avtab) (key : AvtabKey) : Option AvtabNode :=
  scan (fun cur => key.hits cur.key) (fun cur => key.precedes cur.key) (h.chain key)

/-- A write through the pointer that `avtab_search` returned. -/
def avtabModify (h : Avtab) (key : AvtabKey) (change : AvtabDatum → AvtabDatum) : Avtab :=
  let chain := scanModify (fun cur => key.hits cur.key) (fun cur => key.precedes cur.key)
    (fun cur => { cur with datum := change cur.datum }) (h.chain key)
  { h with htable := h.htable.map fun htable => Function.update htable (avtabHash key h.mask) chain }

/-- The nodes from `avtab_search_node` on, one `avtab_search_node_next` after the other. -/
def avtabSearchNodes (h : Avtab) (key : AvtabKey) : List AvtabNode :=
  scanAll (fun cur => key.hits cur.key) (fun cur => key.precedes cur.key) (h.chain key)

/-- Where `avtab_insert` links a new node: what is in front of it and behind it. There is
no place if the rule exists, unless it is one of extended permissions. -/
def avtabPlace (key : AvtabKey) : List AvtabNode → Option (List AvtabNode × List AvtabNode)
  | [] => some ([], [])
  | cur :: next =>
    if key.hits cur.key then
      if key.specifiedBits &&& avtabXperms != 0 then some ([], cur :: next) else none
    else if key.precedes cur.key then some ([], cur :: next)
    else (avtabPlace key next).map fun (front, back) => (cur :: front, back)

def avtabNewnode (key : AvtabKey) (datum : AvtabDatum) : AvtabNode :=
  if key.specified &&& avtabXperms != 0 then
    ⟨key, datum.data, some (datum.xperms.getD ⟨0, 0, Vector.replicate 8 0⟩)⟩
  else ⟨key, datum⟩

def avtabInsert (h : Avtab) (key : AvtabKey) (datum : AvtabDatum) : Int × Avtab :=
  match h.htable with
  | none => (sepolEnomem, h)
  | some htable =>
    match avtabPlace key (htable (avtabHash key h.mask)) with
    | none => (sepolEexist, h)
    | some (front, back) =>
      let chain := front ++ avtabNewnode key datum :: back
      (0, { h with htable := some (Function.update htable (avtabHash key h.mask) chain), nel := h.nel + 1 })

/-- The order of the chains as one number. -/
def AvtabKey.rank (key : AvtabKey) : Nat :=
  key.sourceType.toNat * 2 ^ 32 + key.targetType.toNat * 2 ^ 16 + key.targetClass.toNat

/-- The chains are in the order that the walks of `avtab_search` rely on, and each node is in the
chain of its key. -/
structure Avtab.WellFormed (h : Avtab) : Prop where
  sorted : ∀ key, (h.chain key).Pairwise fun first second => first.key.rank ≤ second.key.rank
  placed : ∀ key, ∀ node ∈ h.chain key, avtabHash node.key h.mask = avtabHash key h.mask

section Order
variable {key cur : AvtabKey}

theorem precedes_iff : key.precedes cur = true ↔ key.rank < cur.rank := by
  have := key.sourceType.toNat_lt
  have := key.targetType.toNat_lt
  have := key.targetClass.toNat_lt
  have := cur.sourceType.toNat_lt
  have := cur.targetType.toNat_lt
  have := cur.targetClass.toNat_lt
  simp only [AvtabKey.precedes, AvtabKey.rank, Bool.or_eq_true, Bool.and_eq_true, decide_eq_true_eq, beq_iff_eq,
    UInt16.lt_iff_toNat_lt, ← UInt16.toNat_inj]
  omega

theorem sameTriple_iff : key.sameTriple cur = true ↔ key.rank = cur.rank := by
  have := key.sourceType.toNat_lt
  have := key.targetType.toNat_lt
  have := key.targetClass.toNat_lt
  have := cur.sourceType.toNat_lt
  have := cur.targetType.toNat_lt
  have := cur.targetClass.toNat_lt
  simp only [AvtabKey.sameTriple, AvtabKey.rank, Bool.and_eq_true, beq_iff_eq, ← UInt16.toNat_inj]
  omega

theorem not_hits_of_rank_ne (distinct : key.rank ≠ cur.rank) : key.hits cur = false := by
  rw [AvtabKey.hits, Bool.and_eq_false_iff]
  exact Or.inl (by rw [Bool.eq_false_iff, ne_eq, sameTriple_iff]; exact distinct)

theorem rank_inj (same : key.rank = cur.rank) :
    key.sourceType = cur.sourceType ∧ key.targetType = cur.targetType ∧ key.targetClass = cur.targetClass := by
  rw [← sameTriple_iff] at same
  simpa [AvtabKey.sameTriple, and_assoc] using same

theorem avtabHash_eq_of_rank (same : key.rank = cur.rank) (mask : UInt32) :
    avtabHash key mask = avtabHash cur mask := by
  obtain ⟨source, target, cls⟩ := rank_inj same
  rw [avtabHash, avtabHash, source, target, cls]

/-- Behind a greater triple there is no hit. -/
theorem hits_guarded {chain : List AvtabNode}
    (sorted : chain.Pairwise fun first second => first.key.rank ≤ second.key.rank) :
    chain.Pairwise fun first second => key.precedes first.key = true → key.hits second.key = false :=
  sorted.imp fun ordered before => not_hits_of_rank_ne (by have := precedes_iff.mp before; omega)

end Order

namespace Avtab
variable {h : Avtab} {key other : AvtabKey} {datum : AvtabDatum} {node : AvtabNode}

theorem search_eq (formed : h.WellFormed) (key : AvtabKey) :
    avtabSearch h key = (h.chain key).find? fun cur => key.hits cur.key :=
  scan_eq_find? (hits_guarded (formed.sorted key))

theorem searchNodes_eq (formed : h.WellFormed) (key : AvtabKey) :
    avtabSearchNodes h key = (h.chain key).filter fun cur => key.hits cur.key :=
  scanAll_eq_filter (hits_guarded (formed.sorted key))

theorem chain_update {htable : Nat → List AvtabNode} {nel nslot mask : UInt32} {chain : List AvtabNode} :
    Avtab.chain ⟨some (Function.update htable (avtabHash key mask) chain), nel, nslot, mask⟩ other =
      if avtabHash other mask = avtabHash key mask then chain else htable (avtabHash other mask) := by
  rw [Avtab.chain]
  dsimp only
  split
  next same => rw [same, Function.update_self]
  next away => rw [Function.update_of_ne away]

/-- A fresh rule is linked behind the last one that is not greater. -/
theorem place_fresh {chain : List AvtabNode} (fresh : ∀ cur ∈ chain, key.hits cur.key = false) :
    avtabPlace key chain =
      some (chain.takeWhile fun cur => !key.precedes cur.key, chain.dropWhile fun cur => !key.precedes cur.key) := by
  induction chain with
  | nil => rfl
  | cons cur next ih =>
    obtain ⟨here, behind⟩ := List.forall_mem_cons.mp fresh
    rw [avtabPlace, if_neg (by simp [here]), List.takeWhile_cons, List.dropWhile_cons]
    cases before : key.precedes cur.key with
    | true => simp
    | false => simp [ih behind]

theorem place_exists {chain : List AvtabNode} (plain : key.specifiedBits &&& avtabXperms = 0)
    (sorted : chain.Pairwise fun first second => first.key.rank ≤ second.key.rank) (member : node ∈ chain)
    (hits : key.hits node.key = true) : avtabPlace key chain = none := by
  induction chain with
  | nil => exact absurd member List.not_mem_nil
  | cons cur next ih =>
    obtain ⟨ordered, behind⟩ := List.pairwise_cons.mp sorted
    rw [avtabPlace]
    split
    next => rw [if_neg (by simp [plain])]
    next misses =>
      rcases List.mem_cons.mp member with rfl | later
      · exact absurd hits misses
      · have ranks := sameTriple_iff.mp (Bool.and_eq_true_iff.mp hits).1
        have before : ¬ key.precedes cur.key = true := by
          rw [precedes_iff]
          have := ordered node later
          omega
        rw [if_neg before, ih behind later, Option.map_none]

theorem place_spec {chain front back : List AvtabNode}
    (sorted : chain.Pairwise fun first second => first.key.rank ≤ second.key.rank)
    (place : avtabPlace key chain = some (front, back)) :
    chain = front ++ back ∧ (∀ cur ∈ front, cur.key.rank ≤ key.rank) ∧
      ∀ cur ∈ back, key.rank ≤ cur.key.rank := by
  induction chain generalizing front with
  | nil => cases place; simp
  | cons cur next ih =>
    obtain ⟨ordered, behind⟩ := List.pairwise_cons.mp sorted
    have greater (low : key.rank ≤ cur.key.rank) : ∀ other ∈ cur :: next, key.rank ≤ other.key.rank :=
      List.forall_mem_cons.mpr ⟨low, fun other member => low.trans (ordered other member)⟩
    rw [avtabPlace] at place
    split at place
    next hits =>
      split at place
      next =>
        cases place
        have same := sameTriple_iff.mp (Bool.and_eq_true_iff.mp hits).1
        exact ⟨rfl, by simp, greater same.le⟩
      next => cases place
    next =>
      split at place
      next before =>
        cases place
        exact ⟨rfl, by simp, greater (precedes_iff.mp before).le⟩
      next after =>
        obtain ⟨⟨first, second⟩, inner, result⟩ := Option.map_eq_some_iff.mp place
        cases result
        obtain ⟨rfl, smaller, larger⟩ := ih behind inner
        refine ⟨rfl, List.forall_mem_cons.mpr ⟨?_, smaller⟩, larger⟩
        rw [precedes_iff] at after
        omega

def linkedChain (h : Avtab) (key : AvtabKey) (datum : AvtabDatum) : List AvtabNode :=
  insertBehind (fun cur => !key.precedes cur.key) (avtabNewnode key datum) (h.chain key)

@[simp] theorem newnode_key (key : AvtabKey) (datum : AvtabDatum) : (avtabNewnode key datum).key = key := by
  rw [avtabNewnode]
  split <;> rfl

theorem newnode_data (key : AvtabKey) (datum : AvtabDatum) : (avtabNewnode key datum).datum.data = datum.data := by
  rw [avtabNewnode]
  split <;> rfl

theorem linkedChain_sorted (formed : h.WellFormed) (key : AvtabKey) (datum : AvtabDatum) :
    (h.linkedChain key datum).Pairwise fun first second => first.key.rank ≤ second.key.rank := by
  have before (cur : AvtabNode) : (!key.precedes cur.key) = true ↔ cur.key.rank ≤ key.rank := by
    rw [Bool.not_eq_true', Bool.eq_false_iff, ne_eq, precedes_iff, not_lt]
  refine insertBehind_pairwise (formed.sorted key) ((formed.sorted key).imp ?_) ?_ ?_
  · intro first second ordered inFront
    rw [before] at inFront ⊢
    omega
  · intro cur _ inFront
    rw [newnode_key]
    exact (before cur).mp inFront
  · intro cur _ behind
    rw [newnode_key]
    rw [Bool.not_eq_false', precedes_iff] at behind
    omega

theorem insert_fresh (formed : h.WellFormed) (allocated : h.htable ≠ none) (fresh : avtabSearch h key = none)
    (datum : AvtabDatum) : ∃ after, avtabInsert h key datum = (0, after) ∧ after.WellFormed ∧
    after.htable ≠ none ∧
      after.mask = h.mask ∧ after.nel = h.nel + 1 ∧ ∀ other, after.chain other =
        if avtabHash other h.mask = avtabHash key h.mask then h.linkedChain key datum else h.chain other := by
  obtain ⟨htable, same⟩ := Option.ne_none_iff_exists'.mp allocated
  have chains (other : AvtabKey) : h.chain other = htable (avtabHash other h.mask) := by rw [Avtab.chain, same]
  rw [search_eq formed, List.find?_eq_none] at fresh
  have place := @place_fresh key (htable (avtabHash key h.mask)) fun cur member => by
    simpa using fresh cur (chains key ▸ member)
  have shape : (htable (avtabHash key h.mask)).takeWhile (fun cur => !key.precedes cur.key) ++ avtabNewnode key datum ::
      (htable (avtabHash key h.mask)).dropWhile (fun cur => !key.precedes cur.key) = h.linkedChain key datum := by
    rw [linkedChain, chains, insertBehind]
  have after (other : AvtabKey) : Avtab.chain
    ⟨some (Function.update htable (avtabHash key h.mask) (h.linkedChain key datum)),
      h.nel + 1, h.nslot, h.mask⟩ other =
        if avtabHash other h.mask = avtabHash key h.mask then h.linkedChain key datum else h.chain other := by
    rw [chain_update, chains]
  refine ⟨⟨some (Function.update htable (avtabHash key h.mask) (h.linkedChain key datum)), h.nel + 1,
    h.nslot, h.mask⟩,
    by simp only [avtabInsert, same, place, shape], ?_, by simp, rfl, rfl, after⟩
  constructor
  case sorted =>
    intro other
    rw [after]
    split
    next => exact linkedChain_sorted formed key datum
    next => exact formed.sorted other
  case placed =>
    intro other node member
    rw [after] at member
    split at member
    next slot =>
      rcases (mem_insertBehind ..).mp member with rfl | old
      · rw [newnode_key]
        exact slot.symm
      · exact (formed.placed key node old).trans slot.symm
    next => exact formed.placed other node member

theorem insert_wellFormed (formed : h.WellFormed) (key : AvtabKey) (datum : AvtabDatum) :
    (avtabInsert h key datum).2.WellFormed := by
  rw [avtabInsert]
  split
  next => exact formed
  next htable allocated =>
    have chains (other : AvtabKey) : h.chain other = htable (avtabHash other h.mask) := by rw [Avtab.chain, allocated]
    split
    next => exact formed
    next front back place =>
      obtain ⟨shape, smaller, larger⟩ := place_spec (chains key ▸ formed.sorted key) place
      have sorted := formed.sorted key
      rw [chains, shape, List.pairwise_append] at sorted
      constructor
      case sorted =>
        intro other
        rw [chain_update]
        split
        next =>
          rw [List.pairwise_append, List.pairwise_cons]
          refine ⟨sorted.1, ⟨fun cur member => ?_, sorted.2.1⟩, fun first inFront second member => ?_⟩
          · rw [newnode_key]
            exact larger cur member
          · rcases List.mem_cons.mp member with rfl | behind
            · rw [newnode_key]
              exact smaller first inFront
            · exact sorted.2.2 first inFront second behind
        next =>
          rw [← chains]
          exact formed.sorted other
      case placed =>
        intro other node member
        rw [chain_update] at member
        split at member
        next slot =>
          have old : node = avtabNewnode key datum ∨ node ∈ h.chain key := by
            rw [chains, shape]
            simpa [or_left_comm] using member
          rcases old with rfl | old
          · rw [newnode_key]
            exact slot.symm
          · exact (formed.placed key node old).trans slot.symm
        next =>
          rw [← chains] at member
          exact formed.placed other node member

theorem insert_exists (formed : h.WellFormed) (plain : key.specifiedBits &&& avtabXperms = 0)
    (found : avtabSearch h key = some node) (datum : AvtabDatum) : avtabInsert h key datum = (sepolEexist, h) := by
  rw [search_eq formed] at found
  have member := List.mem_of_find?_eq_some found
  have hits := List.find?_some found
  have sorted := formed.sorted key
  rw [Avtab.chain] at member sorted
  rw [avtabInsert]
  split
  next none => simp [none] at member
  next htable same =>
    simp only [same] at member sorted
    rw [place_exists plain sorted member hits]

theorem find?_linkedChain_fresh (formed : h.WellFormed) (fresh : avtabSearch h key = none) (datum : AvtabDatum)
    (self : key.specifiedBits &&& key.specified ≠ 0) :
    (h.linkedChain key datum).find? (fun cur => key.hits cur.key) = some (avtabNewnode key datum) := by
  rw [search_eq formed] at fresh
  refine find?_insertBehind_of_hit ?_ fresh
  rw [newnode_key, AvtabKey.hits, Bool.and_eq_true, sameTriple_iff]
  exact ⟨rfl, by simpa using self⟩

/-- The datum that a search finds is changed, and every other node stays. All edits of a policy's
rules come down to this and to `insert_fresh`. -/
theorem modify_spec (formed : h.WellFormed) (found : avtabSearch h key = some node)
    (change : AvtabDatum → AvtabDatum) :
    (avtabModify h key change).WellFormed ∧ (avtabModify h key change).htable ≠ none ∧
      (avtabModify h key change).mask = h.mask ∧ (avtabModify h key change).nel = h.nel ∧
      ∃ front back, h.chain key = front ++ node :: back ∧ (∀ cur ∈ front, key.hits cur.key = false) ∧
        key.hits node.key = true ∧ ∀ other, (avtabModify h key change).chain other =
          if avtabHash other h.mask = avtabHash key h.mask
            then front ++ { node with datum := change node.datum } :: back
          else h.chain other := by
  obtain ⟨front, back, shape, modified, hits, before⟩ := @scanModify_split _ _ _
      (fun cur : AvtabNode => { cur with datum := change cur.datum }) _ _ found
  cases allocated : h.htable with
  | none => simp [Avtab.chain, allocated] at shape
  | some htable =>
    have chains (other : AvtabKey) : h.chain other = htable (avtabHash other h.mask) := by rw [Avtab.chain, allocated]
    have shape' : avtabModify h key change = { h with htable := some (Function.update htable (avtabHash key h.mask)
        (front ++ { node with datum := change node.datum } :: back)) } := by
      rw [avtabModify, modified, allocated]
      rfl
    have after (other : AvtabKey) : (avtabModify h key change).chain other =
        if avtabHash other h.mask = avtabHash key h.mask then front ++ { node with datum := change node.datum } :: back
        else h.chain other := by
      rw [shape', chain_update, chains]
    refine ⟨?_, by rw [shape']; simp, by rw [shape'], by rw [shape'], front, back, shape, fun cur member =>
      (before cur member).1,
      hits, after⟩
    -- a write does not touch the keys, and the order and the places are about keys only
    have keys : (front ++ { node with datum := change node.datum } :: back).map AvtabNode.key =
        (h.chain key).map AvtabNode.key := by
      rw [shape]
      simp
    constructor
    case sorted =>
      intro other
      rw [after]
      split
      next =>
        have ordered := formed.sorted key
        rw [← List.pairwise_map (R := fun first second : AvtabKey => first.rank ≤ second.rank)] at ordered ⊢
        rw [keys]
        exact ordered
      next => exact formed.sorted other
    case placed =>
      intro other cur member
      have mask : (avtabModify h key change).mask = h.mask := by rw [shape']
      rw [after] at member
      rw [mask]
      split at member
      next slot =>
        have listed := List.mem_map_of_mem (f := AvtabNode.key) member
        rw [keys] at listed
        obtain ⟨old, inside, same⟩ := List.mem_map.mp listed
        rw [← same]
        exact (formed.placed key old inside).trans slot.symm
      next => exact formed.placed other cur member

end Avtab
end Bxxt
