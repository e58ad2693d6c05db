import Bxxt.Proofs.AccessDecisions
import Bxxt.Proofs.Statements

/-! What a decision still allows behind a `disallow`. The rule of the two types has lost the
permission, and the rules of their other attributes have not. -/

namespace Bxxt.Proofs
open Bxxt ByteLayout MaskUnion ScanFormat

theorem chain_congr {te : Avtab} {key k : AvtabKey} (same : avtabHash key te.mask = avtabHash k te.mask) :
    te.chain key = te.chain k := by
  rw [Avtab.chain, Avtab.chain, same]

section Edited
variable {te after : Avtab} {k key : AvtabKey} {start : AvtabNode} {change : AvtabDatum → AvtabDatum}

/-- An edit is not seen by a search for another triple. -/
theorem RuleEdited.searchNodes_other (edited : RuleEdited te after k start change) (formed : te.WellFormed)
    (distinct : key.rank ≠ k.rank) : avtabSearchNodes after key = avtabSearchNodes te key := by
  obtain ⟨front, back, _, hits, before, chains⟩ := edited.chains
  have rank : k.rank = start.key.rank := sameTriple_iff.mp (Bool.and_eq_true_iff.mp hits).1
  have missed : key.hits start.key = false := not_hits_of_rank_ne (by rw [← rank]; exact distinct)
  rw [Avtab.searchNodes_eq edited.formed, Avtab.searchNodes_eq formed, chains]
  split
  next same =>
    rw [chain_congr same]
    obtain shape | ⟨shape, _⟩ := before
    · rw [shape, List.filter_append, List.filter_append, List.filter_cons_of_neg (by simp [missed]),
        List.filter_cons_of_neg (by simp [missed])]
    · rw [shape, List.filter_append, List.filter_append, List.filter_cons_of_neg (by simp [missed])]
  next => rfl

/-- Only the edited rule allows anything to the two types themselves. -/
theorem RuleEdited.allows_same (edited : RuleEdited te after k start change) (formed : te.WellFormed)
    (single : Single (te.chain k)) (allowed : k.specified = avtabAllowed) (same : key.rank = k.rank) {node : AvtabNode}
    (member : node ∈ avtabSearchNodes after key) (allows : teAllows node ≠ 0) :
    node = { start with datum := change start.datum } := by
  obtain ⟨front, back, missed, hits, before, chains⟩ := edited.chains
  rw [Avtab.searchNodes_eq edited.formed, chains, if_pos (avtabHash_eq_of_rank same _), List.mem_filter] at member
  obtain ⟨inChain, found⟩ := member
  have rank : k.rank = node.key.rank := same.symm.trans (sameTriple_iff.mp (Bool.and_eq_true_iff.mp found).1)
  have plain : node.key.specified = avtabAllowed := by
    by_contra other
    rw [teAllows, if_neg other] at allows
    exact allows rfl
  have bit : avtabAllowed &&& avtabAllowed ≠ 0 := by decide
  -- a second rule of the triple that allows would be hit as well
  have hit : k.hits node.key = true := hits_of_allowed rank (allowed ▸ bit) (plain ▸ bit)
  obtain inFront | rfl | behind := by simpa using inChain
  · rw [missed node inFront] at hit
    cases hit
  · rfl
  · obtain shape | ⟨shape, fresh, _⟩ := before
    · rw [shape, Single, List.pairwise_append, List.pairwise_cons] at single
      have startRank : k.rank = start.key.rank := sameTriple_iff.mp (Bool.and_eq_true_iff.mp hits).1
      have apart := single.2.1.1 node behind (startRank.symm.trans rank)
      have startAllows : start.key.specified &&& avtabAllowed ≠ 0 := by
        intro none
        have common := bne_iff_ne.mp (Bool.and_eq_true_iff.mp hits).2
        have bits : k.specifiedBits = avtabAllowed := by
          rw [AvtabKey.specifiedBits, allowed]
          decide
        rw [bits, UInt16.and_comm] at common
        exact common none
      exact absurd (apart.resolve_left startAllows) (plain ▸ bit)
    · rw [Avtab.search_eq formed, List.find?_eq_none] at fresh
      exact absurd hit (fresh node (by rw [shape]; exact List.mem_append_right _ behind))

end Edited
section Disallow
variable {pdb after : Policydb} {src tgt cls perm : CString} {malloc : AvtabDatum} {s t : TypeDatum} {c : ClassDatum}
  {p : PermDatum}

structure RegularType (type : TypeDatum) : Prop where
  primary : type.primary ≠ 0
  flavor : type.flavor ≠ typeAttrib

/-- A rule of two attributes other than the triple itself, or an enabled conditional rule of any
two, has some of the bits. -/
def GrantedApart (pdb : Policydb) (triple : AvtabKey) (sattr tattr : Ebitmap) (bits : UInt32) : Prop :=
  ∃ i ∈ ebitmapPositiveBits sattr, ∃ j ∈ ebitmapPositiveBits tattr,
    ((avKey triple.targetClass i j).rank ≠ triple.rank ∧
        ∃ node ∈ avtabSearchNodes pdb.teAvtab (avKey triple.targetClass i j), teAllows node &&& bits ≠ 0) ∨
      ∃ node ∈ avtabSearchNodes pdb.teCondAvtab (avKey triple.targetClass i j), condAllows node &&& bits ≠ 0

theorem cleared_disjoint {word mask bits : UInt32} (covered : Includes mask bits) : word &&& ~~~mask &&& bits = 0 := by
  rw [disjoint_iff]
  intro i has
  rw [has_and, has_not]
  exact fun both => both.2.2 (includes_iff.mp covered i has)

/-- The pair of the two types themselves allows nothing of what was taken. -/
theorem disallowed_pair {te edited : Avtab} {k : AvtabKey} {mask bits : UInt32} (formed : te.WellFormed)
    (single : Single (te.chain k)) (allowed : k.specified = avtabAllowed) (covered : Includes mask bits)
    (run : editRule te k true mask malloc = .ok (bxxtSuccess, edited)) {key : AvtabKey} (same : key.rank = k.rank) :
    ∀ node ∈ avtabSearchNodes edited key, teAllows node &&& bits = 0 := by
  have self : SelfHit k := by
    rw [SelfHit, AvtabKey.specifiedBits, allowed]
    decide
  intro node member
  by_cases allows : teAllows node = 0
  · rw [allows]
    exact UInt32.zero_and
  · rw [(editRule_edited formed self run).allows_same formed single allowed same member allows, teAllows]
    split
    next => exact cleared_disjoint covered
    next => exact UInt32.zero_and

theorem slot_toNat {value : UInt32} (nonzero : value ≠ 0) : (value - 1).toNat + 1 = value.toNat := by
  have one : 1 ≤ value.toNat := Nat.one_le_iff_ne_zero.mpr fun zero => nonzero (UInt32.toNat_inj.mp zero)
  have slot : (value - 1).toNat = value.toNat - 1 := UInt32.toNat_sub_of_le _ _ (UInt32.le_iff_toNat_le.mpr one)
  rw [slot, Nat.sub_add_cancel one]

theorem attributes_of_type (consistent : Consistent pdb) (own : SelfAttributes pdb)
    (isType : hashtabSearch pdb.pTypes.table src = some s) (regular : RegularType s) :
    ∃ attrs, pdb.typeAttrMap (s.value - 1).toNat = some attrs ∧ attrs.WellFormed ∧
      attrs.Holds (s.value - 1).toNat := by
  have listed : listedType s = some s.value := listedType_eq_some.mpr ⟨regular.primary, rfl⟩
  obtain ⟨positive, inside⟩ := consistent.typeValues.range isType listed
  have slot := slot_toNat positive
  rw [UInt32.le_iff_toNat_le] at inside
  exact own _ (by omega)

/-- No pair has any of the bits unless they are granted apart. -/
theorem edited_pairs {teAvtab : Avtab} {k : AvtabKey} {mask bits : UInt32} (formed : pdb.teAvtab.WellFormed)
    (single : Single (pdb.teAvtab.chain k)) (allowed : k.specified = avtabAllowed) (covered : Includes mask bits)
    (run : editRule pdb.teAvtab k true mask malloc = .ok (bxxtSuccess, teAvtab)) (sattr tattr : Ebitmap) :
    (∀ i ∈ ebitmapPositiveBits sattr, ∀ j ∈ ebitmapPositiveBits tattr,
      pairAllows { pdb with teAvtab } k.targetClass i j &&& bits = 0) ↔ ¬ GrantedApart pdb k sattr tattr bits := by
  have self : SelfHit k := by
    rw [SelfHit, AvtabKey.specifiedBits, allowed]
    decide
  have edited := editRule_edited formed self run
  have pair (i j : Nat) : pairAllows { pdb with teAvtab } k.targetClass i j &&& bits = 0 ↔
      ¬ (((avKey k.targetClass i j).rank ≠ k.rank ∧
          ∃ node ∈ avtabSearchNodes pdb.teAvtab (avKey k.targetClass i j), teAllows node &&& bits ≠ 0) ∨
        ∃ node ∈ avtabSearchNodes pdb.teCondAvtab (avKey k.targetClass i j), condAllows node &&& bits ≠ 0) := by
    rw [pairAllows_disjoint]
    by_cases same : (avKey k.targetClass i j).rank = k.rank
    · have none := disallowed_pair formed single allowed covered run same
      simp only [same, ne_eq, not_true_eq_false, false_and, false_or, not_exists, not_and, not_not]
      exact ⟨And.right, fun cond => ⟨none, cond⟩⟩
    · rw [edited.searchNodes_other formed same]
      simp only [same, ne_eq, not_false_eq_true, true_and, not_or, not_exists, not_and, not_not]
  simp only [pair, GrantedApart, not_exists, not_and]

theorem covered_mask (perm : CString) (value : UInt32) :
    Includes (if isStar perm then ~~~0 else permBit value) (permBit value) := by
  split
  next =>
    rw [includes_iff]
    exact fun i has => has_not.mpr ⟨has_lt has, not_has_zero⟩
  next => exact UInt32.and_self

def Decides (pdb : Policydb) (stype ttype : UInt32) (tclass : UInt16) (bits : UInt32) : Prop :=
  ∃ avd, contextStructComputeAv pdb stype ttype tclass = .ok (some avd) ∧ avd.allowed &&& bits ≠ 0

/-- Behind a `disallow` the permission is decided for exactly where another rule grants it. No rule of the two types
themselves does. -/
theorem disallowed_decision_iff (hyphen : Bool) {text : CString} (loaded : Loaded pdb)
    (scanned : scan (Form.disallow.format hyphen) text = [src, tgt, cls, perm])
    (isClass : hashtabSearch pdb.pClasses.table cls = some c) (isSource : hashtabSearch pdb.pTypes.table src = some s)
    (isTarget : hashtabSearch pdb.pTypes.table tgt = some t) (isPerm : findPerm c perm = some p)
    (regularSource : RegularType s) (regularTarget : RegularType t)
    (run : bxxtSepolExecuteStmt hyphen pdb text malloc = .ok (bxxtSuccess, after)) :
    (∃ sattr tattr, pdb.typeAttrMap (s.value - 1).toNat = some sattr ∧
      pdb.typeAttrMap (t.value - 1).toNat = some tattr ∧
      (Decides after s.value t.value c.value.toUInt16 (permBit p.value) ↔
        (c.value.toUInt16 ≠ 0 ∧ c.value.toUInt16.toUInt32 ≤ pdb.pClasses.nprim) ∧
          GrantedApart pdb (allowKey s t c) sattr tattr (permBit p.value))) ∧
      ∀ key : AvtabKey, key.rank = (allowKey s t c).rank → ∀ node ∈ avtabSearchNodes after.teAvtab key,
        teAllows node &&& permBit p.value = 0 := by
  obtain ⟨consistent, own, _⟩ := loaded_consistent loaded
  obtain ⟨sattr, source, _⟩ := attributes_of_type consistent own isSource regularSource
  obtain ⟨tattr, target, _⟩ := attributes_of_type consistent own isTarget regularTarget
  have fits : ∀ field ∈ [src, tgt, cls, perm], field.length < 256 := by
    intro field member
    by_contra long
    rw [execute_overrun (by rw [scanned]; exact member) (by omega)] at run
    cases run
  rw [execute_of_scan scanned (List.cons_ne_nil _ _) fits] at run
  obtain ⟨teAvtab, rfl, edit⟩ := allowExt_edited isClass isSource isTarget isPerm run
  refine ⟨⟨sattr, tattr, source, target, ?_⟩, fun key same =>
    disallowed_pair consistent.rules (loaded_single loaded _) rfl (covered_mask _ _) edit same⟩
  by_cases known : c.value.toUInt16 ≠ 0 ∧ c.value.toUInt16.toUInt32 ≤ pdb.pClasses.nprim
  · obtain ⟨avd, computed, decided⟩ := @compute_allowed { pdb with teAvtab } _ _ _ _ _ known source target
    have granted := edited_pairs consistent.rules (loaded_single loaded _) rfl (covered_mask _ _) edit sattr tattr
    have granted := (decision_disjoint decided).trans granted
    rw [← not_iff_not, not_not] at granted
    constructor
    · intro ⟨other, again, has⟩
      cases computed.symm.trans again
      exact ⟨known, granted.mp has⟩
    · intro ⟨_, has⟩
      exact ⟨avd, computed, granted.mpr has⟩
  · refine iff_of_false ?_ fun both => known both.1
    intro ⟨avd, computed, _⟩
    rw [contextStructComputeAv, if_pos] at computed
    · cases computed
    · rw [not_and_or, not_not, UInt32.not_le] at known
      exact known

end Disallow
section DomainRule

/-- Two types, the first of them with an attribute that has a rule on the second. -/
def domainImage : PolicyImage :=
  { smallImage [⟨ascii "file", [], 1, 1, [⟨ascii "read", 1⟩]⟩]
      [⟨ascii "init", 1, 1⟩, ⟨ascii "kernel", 2, 1⟩, ⟨ascii "domain", 3, 3⟩]
        [(⟨3, 2, 1, avtabAllowed⟩, ⟨1, none⟩)] with
    typeAttr := fun i => if i = 0 then ⟨64, [(0, 4#64)]⟩ else ⟨0, []⟩ }

/-- A `disallow` of reading the files of `kernel` to `init`, if it leaves a decision with the permission. -/
def disallowedRead (pdb : Policydb) : Bool :=
  (hashtabSearch pdb.pClasses.table (ascii "file")).any fun c =>
    (hashtabSearch pdb.pTypes.table (ascii "init")).any fun s =>
      (hashtabSearch pdb.pTypes.table (ascii "kernel")).any fun t =>
        (findPerm c (ascii "read")).any fun p =>
          (s.primary != 0 && s.flavor != typeAttrib) && (t.primary != 0 && t.flavor != typeAttrib) &&
            passes (bxxtSepolExecuteStmt false pdb (ascii "disallow init kernel:file read") ⟨0, none⟩) fun result =>
              result.1 == bxxtSuccess &&
                passes (contextStructComputeAv result.2 s.value t.value c.value.toUInt16) fun decision =>
                  decision.any fun avd => avd.allowed &&& permBit p.value != 0

theorem disallowedRead_run : ∃ pdb c s t p after, Loaded pdb ∧
    hashtabSearch pdb.pClasses.table (ascii "file") = some c ∧
    hashtabSearch pdb.pTypes.table (ascii "init") = some s ∧
      hashtabSearch pdb.pTypes.table (ascii "kernel") = some t ∧
    findPerm c (ascii "read") = some p ∧ RegularType s ∧ RegularType t ∧
    bxxtSepolExecuteStmt false pdb (ascii "disallow init kernel:file read") ⟨0, none⟩ = .ok (bxxtSuccess, after) ∧
    Decides after s.value t.value c.value.toUInt16 (permBit p.value) := by
  obtain ⟨pdb, loaded, tested⟩ := loaded_of_readsTo (by decide +kernel : readsTo domainImage disallowedRead = true)
  simp only [disallowedRead, Option.any_eq_true, passes_iff, Bool.and_eq_true, beq_iff_eq, bne_iff_ne] at tested
  obtain ⟨c, isClass, s, isSource, t, isTarget, p, isPerm, ⟨⟨primary, flavor⟩, primary', flavor'⟩,
    ⟨r, after⟩, run, rfl, _,
    computed, avd, rfl, has⟩ := tested
  exact ⟨pdb, c, s, t, p, after, loaded, isClass, isSource, isTarget, isPerm, ⟨primary, flavor⟩,
    ⟨primary', flavor'⟩, run, avd,
    computed, has⟩

theorem disallowed_read_granted_apart : ∃ pdb c s t p sattr tattr, Loaded pdb ∧
    hashtabSearch pdb.pTypes.table (ascii "init") = some s ∧
      hashtabSearch pdb.pTypes.table (ascii "kernel") = some t ∧
    findPerm c (ascii "read") = some p ∧ GrantedApart pdb (allowKey s t c) sattr tattr (permBit p.value) := by
  obtain ⟨pdb, c, s, t, p, after, loaded, isClass, isSource, isTarget, isPerm, regularSource, regularTarget,
    run, decides⟩ :=
    disallowedRead_run
  obtain ⟨⟨sattr, tattr, _, _, decided⟩, _⟩ :=
    disallowed_decision_iff false loaded rfl isClass isSource isTarget isPerm
    regularSource regularTarget run
  exact ⟨pdb, c, s, t, p, sattr, tattr, loaded, isSource, isTarget, isPerm, (decided.mp decides).2⟩

theorem disallowed_read_decided : ∃ pdb c s t p after, Loaded pdb ∧ RegularType s ∧ RegularType t ∧
    hashtabSearch pdb.pClasses.table (ascii "file") = some c ∧
      hashtabSearch pdb.pTypes.table (ascii "init") = some s ∧
    hashtabSearch pdb.pTypes.table (ascii "kernel") = some t ∧ findPerm c (ascii "read") = some p ∧
    bxxtSepolExecuteStmt false pdb (ascii "disallow init kernel:file read") ⟨0, none⟩ = .ok (bxxtSuccess, after) ∧
    Decides after s.value t.value c.value.toUInt16 (permBit p.value) := by
  obtain ⟨pdb, c, s, t, p, after, loaded, isClass, isSource, isTarget, isPerm, regularSource, regularTarget,
    run, decides⟩ :=
    disallowedRead_run
  exact ⟨pdb, c, s, t, p, after, loaded, regularSource, regularTarget, isClass, isSource, isTarget,
    isPerm, run, decides⟩

end DomainRule
end Bxxt.Proofs
