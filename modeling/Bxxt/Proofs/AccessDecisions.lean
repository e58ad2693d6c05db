import Bxxt.AccessVector
import Bxxt.Lib.MaskUnion
import Bxxt.Proofs.RuleEdits

/-! Which permissions the type enforcement part of a decision allows: the union of what the
rules of all pairs of attributes allow. An edit changes the rule of one pair. -/

namespace Bxxt.Proofs
open Bxxt MaskUnion SortedChain

/-- What a rule of `te_avtab` adds to the allowed permissions. -/
def teAllows (node : AvtabNode) : UInt32 := if node.key.specified = avtabAllowed then node.datum.data else 0

def condAllows (node : AvtabNode) : UInt32 :=
  if node.key.specified &&& (avtabAllowed ||| avtabEnabled) = avtabAllowed ||| avtabEnabled then node.datum.data else 0

section Decisions
variable {pdb : Policydb} {tclass : UInt16} {sattr tattr : Ebitmap} {stype ttype : UInt32}

def pairAllows (pdb : Policydb) (tclass : UInt16) (i j : Nat) : UInt32 :=
  unionAll ((avtabSearchNodes pdb.teAvtab (avKey tclass i j)).map teAllows) |||
    unionAll ((avtabSearchNodes pdb.teCondAvtab (avKey tclass i j)).map condAllows)

theorem teRound_allowed (i : Nat) (avd : AvDecision) (j : Nat) :
    (teRound pdb tclass i avd j).allowed = avd.allowed ||| pairAllows pdb tclass i j := by
  have te (avd : AvDecision) (node : AvtabNode) : (teRule avd node).allowed = avd.allowed ||| teAllows node := by
    rw [teRule, teAllows]
    split
    next => rfl
    next =>
      rw [UInt32.or_zero]
      split
      next => rfl
      next => split <;> rfl
  have cond (avd : AvDecision) (node : AvtabNode) : (condRule avd node).allowed = avd.allowed ||| condAllows node := by
    simp only [condRule, condAllows, beq_iff_eq]
    by_cases enabled : node.key.specified &&& (avtabAllowed ||| avtabEnabled) = avtabAllowed ||| avtabEnabled
    · simp only [enabled, if_true]
      split <;> split <;> rfl
    · simp only [enabled, if_false, UInt32.or_zero]
      split <;> split <;> rfl
  rw [teRound, condComputeAv, foldl_union AvDecision.allowed condRule condAllows cond,
    foldl_union AvDecision.allowed teRule teAllows te, pairAllows, UInt32.or_assoc]

/-- A decision is the union over the pairs. -/
theorem compute_allowed (isClass : tclass ≠ 0 ∧ tclass.toUInt32 ≤ pdb.pClasses.nprim)
    (source : pdb.typeAttrMap (stype - 1).toNat = some sattr)
    (target : pdb.typeAttrMap (ttype - 1).toNat = some tattr) :
    ∃ avd, contextStructComputeAv pdb stype ttype tclass = .ok (some avd) ∧
      avd.allowed = unionAll ((ebitmapPositiveBits sattr).map fun i =>
        unionAll ((ebitmapPositiveBits tattr).map (pairAllows pdb tclass i))) := by
  have computed : contextStructComputeAv pdb stype ttype tclass = .ok (some ((ebitmapPositiveBits sattr).foldl
      (fun avd i => (ebitmapPositiveBits tattr).foldl (teRound pdb tclass i) avd)
        ⟨0, 0xffffffff, 0, 0xffffffff⟩)) := by
    rw [contextStructComputeAv, if_neg (by simp [isClass.1, UInt32.not_lt.mpr isClass.2]), HeapArray.load,
      HeapArray.load, source, target]
    rfl
  refine ⟨_, computed, ?_⟩
  rw [foldl_union AvDecision.allowed _ fun i => unionAll ((ebitmapPositiveBits tattr).map (pairAllows pdb tclass i))]
  · exact UInt32.zero_or
  · intro avd i
    exact foldl_union AvDecision.allowed _ _ (teRound_allowed i) _ avd

theorem decision_includes {avd : AvDecision} (decided : avd.allowed = unionAll ((ebitmapPositiveBits sattr).map fun i =>
      unionAll ((ebitmapPositiveBits tattr).map (pairAllows pdb tclass i))))
    {i j : Nat} (source : i ∈ ebitmapPositiveBits sattr) (target : j ∈ ebitmapPositiveBits tattr) {bits : UInt32}
    (includes : Includes (pairAllows pdb tclass i j) bits) : Includes avd.allowed bits := by
  rw [decided]
  apply includes_unionAll (List.mem_map_of_mem source)
  exact includes_unionAll (List.mem_map_of_mem target) includes

theorem decision_disjoint {avd : AvDecision} (decided : avd.allowed = unionAll ((ebitmapPositiveBits sattr).map fun i =>
      unionAll ((ebitmapPositiveBits tattr).map (pairAllows pdb tclass i)))) {bits : UInt32} :
    avd.allowed &&& bits = 0 ↔ ∀ i ∈ ebitmapPositiveBits sattr, ∀ j ∈ ebitmapPositiveBits tattr,
      pairAllows pdb tclass i j &&& bits = 0 := by
  rw [decided, disjoint_unionAll]
  simp only [List.forall_mem_map, disjoint_unionAll]

theorem pairAllows_disjoint {i j : Nat} {bits : UInt32} : pairAllows pdb tclass i j &&& bits = 0 ↔
    (∀ node ∈ avtabSearchNodes pdb.teAvtab (avKey tclass i j), teAllows node &&& bits = 0) ∧
      ∀ node ∈ avtabSearchNodes pdb.teCondAvtab (avKey tclass i j), condAllows node &&& bits = 0 := by
  rw [pairAllows, disjoint_iff]
  simp only [has_or, not_or, forall_and, ← disjoint_iff, disjoint_unionAll, List.forall_mem_map]

theorem pairAllows_includes {i j : Nat} {bits : UInt32} {node : AvtabNode}
    (member : node ∈ avtabSearchNodes pdb.teAvtab (avKey tclass i j)) (plain : node.key.specified = avtabAllowed)
    (includes : Includes node.datum.data bits) : Includes (pairAllows pdb tclass i j) bits := by
  have all : Includes (unionAll ((avtabSearchNodes pdb.teAvtab (avKey tclass i j)).map teAllows)) bits := by
    apply includes_unionAll (List.mem_map_of_mem member)
    rw [teAllows, if_pos plain]
    exact includes
  rw [includes_iff] at *
  rw [pairAllows]
  exact fun bit has => has_or.mpr (Or.inl (all bit has))

end Decisions
section SingleRules

/-- At most one rule of a triple allows. -/
def Single (chain : List AvtabNode) : Prop :=
  chain.Pairwise fun first second => first.key.rank = second.key.rank →
    first.key.specified &&& avtabAllowed = 0 ∨ second.key.specified &&& avtabAllowed = 0

theorem hits_of_allowed {key cur : AvtabKey} (same : key.rank = cur.rank) (first : key.specified &&& avtabAllowed ≠ 0)
    (second : cur.specified &&& avtabAllowed ≠ 0) : key.hits cur = true := by
  have bit {word : UInt16} (allowed : word &&& avtabAllowed ≠ 0) : word.toBitVec[0] = true := by
    have odd : word.toNat % 2 = 1 := by
      simpa [← UInt16.toNat_inj, avtabAllowed, Nat.and_one_is_mod] using allowed
    rw [← BitVec.getLsbD_eq_getElem, BitVec.getLsbD, UInt16.toNat_toBitVec, Nat.testBit_zero, odd]
    rfl
  rw [AvtabKey.hits, Bool.and_eq_true, sameTriple_iff]
  refine ⟨same, bne_iff_ne.mpr fun none => ?_⟩
  have zero := congrArg (fun word : UInt16 => word.toBitVec.getLsbD 0) none
  simp [AvtabKey.specifiedBits, bit first, bit second, avtabEnabled] at zero

theorem noXperms {key : AvtabKey} (first : key.specified &&& avtabXpermsAllowed = 0)
    (second : key.specified &&& avtabXpermsAuditallow = 0) (third : key.specified &&& avtabXpermsDontaudit = 0) :
    key.specifiedBits &&& avtabXperms = 0 := by
  rw [← UInt16.toBitVec_inj, UInt16.toBitVec_and] at first second third
  have all : key.specified.toBitVec &&& avtabXperms.toBitVec = 0#16 := by
    rw [avtabXperms, UInt16.toBitVec_or, UInt16.toBitVec_or, BitVec.and_or_distrib_left,
      BitVec.and_or_distrib_left, first, second, third]
    rfl
  rw [← UInt16.toBitVec_inj, UInt16.toBitVec_and, AvtabKey.specifiedBits, UInt16.toBitVec_and, BitVec.and_assoc,
    BitVec.and_comm (~~~avtabEnabled).toBitVec, ← BitVec.and_assoc, all]
  exact BitVec.zero_and

theorem insert_single {a : Avtab} {key : AvtabKey} {datum : AvtabDatum} (formed : a.WellFormed)
    (single : ∀ key, Single (a.chain key))
    (plain : key.specified &&& avtabAllowed ≠ 0 → key.specifiedBits &&& avtabXperms = 0)
    (inserted : (avtabInsert a key datum).1 = 0) : ∀ other, Single ((avtabInsert a key datum).2.chain other) := by
  rw [avtabInsert] at inserted ⊢
  split at inserted
  next => cases inserted
  next htable allocated =>
    have chains (other : AvtabKey) : a.chain other = htable (avtabHash other a.mask) := by rw [Avtab.chain, allocated]
    split at inserted
    next => cases inserted
    next front back place =>
      rw [← chains] at place
      intro other
      dsimp only
      rw [Avtab.chain_update]
      split
      next =>
        obtain ⟨shape, _⟩ := Avtab.place_spec (formed.sorted key) place
        -- a rule of the triple that allows would have been hit
        have apart (cur : AvtabNode) (member : cur ∈ a.chain key) (same : key.rank = cur.key.rank) :
            key.specified &&& avtabAllowed = 0 ∨ cur.key.specified &&& avtabAllowed = 0 := by
          by_contra both
          rw [not_or] at both
          rw [Avtab.place_exists (plain both.1) (formed.sorted key) member (hits_of_allowed same both.1 both.2)]
            at place
          cases place
        have old := single key
        rw [shape, Single, List.pairwise_append] at old
        rw [Single, List.pairwise_append, List.pairwise_cons]
        refine ⟨old.1, ⟨fun cur member same => ?_, old.2.1⟩, fun cur inFront later member same => ?_⟩
        · rw [Avtab.newnode_key] at same ⊢
          exact apart cur (by rw [shape]; simp [member]) same
        · rcases List.mem_cons.mp member with rfl | behind
          · rw [Avtab.newnode_key] at same ⊢
            exact (apart cur (by rw [shape]; simp [inFront]) same.symm).symm
          · exact old.2.2 cur inFront later behind same
      next =>
        rw [← chains]
        exact single other

/-- Rules are read one by one, and a second one for a triple that allows is refused. -/
theorem readItem_single {a after : Avtab} {item : AvtabKey × AvtabDatum} (formed : a.WellFormed)
    (single : ∀ key, Single (a.chain key)) (read : avtabReadItem a item = some after) :
    ∀ key, Single (after.chain key) := by
  rw [avtabReadItem] at read
  split at read
  next => cases read
  next one =>
    split at read
    next => cases read
    next =>
      dsimp only at read
      split at read
      next => cases read
      next inserted =>
        cases read
        refine insert_single formed single ?_ (not_not.mp inserted)
        intro allows
        rw [ne_eq, not_not, specOrder, List.filter_cons_of_pos (by simpa using allows), List.length_cons] at one
        have none := List.length_eq_zero_iff.mp (Nat.succ.inj one)
        rw [List.filter_eq_nil_iff] at none
        have first := none avtabXpermsAllowed (by simp)
        have second := none avtabXpermsAuditallow (by simp)
        have third := none avtabXpermsDontaudit (by simp)
        simp only [bne_iff_ne, ne_eq, not_not] at first second third
        exact noXperms first second third

theorem avtabRead_single {items : List (AvtabKey × AvtabDatum)} {a : Avtab} (read : avtabRead items = some a) :
    ∀ key, Single (a.chain key) := by
  have step {a after : Avtab} {items : List (AvtabKey × AvtabDatum)} (formed : a.WellFormed)
    (single : ∀ key, Single (a.chain key))
      (walked : items.foldlM avtabReadItem a = some after) : ∀ key, Single (after.chain key) := by
    induction items generalizing a with
    | nil => cases walked; exact single
    | cons item rest ih =>
      rw [List.foldlM_cons] at walked
      obtain ⟨between, first, walked⟩ := Option.bind_eq_some_iff.mp walked
      exact ih (readItem_wellFormed formed first) (readItem_single formed single first) walked
  rw [avtabRead] at read
  split at read
  next => cases read
  next =>
    refine step (avtabAlloc_wellFormed _) ?_ read
    intro key
    have empty : (avtabAlloc (UInt32.ofNat items.length)).chain key = [] := by
      rw [avtabAlloc]
      split <;> rfl
    rw [empty]
    exact .nil

theorem loaded_single {p : Policydb} (loaded : Loaded p) : ∀ key, Single (p.teAvtab.chain key) := by
  obtain ⟨image, tables, indexed, tablesRead, _, done, read⟩ := loaded_stages loaded
  obtain ⟨_, _, _, _, _, _, _, _, _, _, rfl⟩ := indexOthers_iff.mp done
  obtain ⟨⟨_, _, rfl⟩, _⟩ := readTypeMaps_spec range_small read
  simp only [readTables, Option.bind_eq_bind, Option.bind_eq_some_iff, Option.some.injEq] at tablesRead
  obtain ⟨_, _, _, _, _, _, _, _, _, _, _, _, _, _, _, _, _, _, teAvtab, rules, rfl⟩ := tablesRead
  exact avtabRead_single rules

end SingleRules
end Bxxt.Proofs
