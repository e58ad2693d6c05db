import Bxxt.Proofs.RuleEdits
import Bxxt.Lib.TracedRun

/-! What `allow` and `disallow` leave alone: the form of the access vector table, and every rule but
the one of their key. -/

namespace Bxxt.Proofs
open SortedChain TracedRun

def isXperms (key : AvtabKey) : Bool := key.specified &&& avtabXperms != 0

/-- No two rules with the same triple and a specifier in common, extended permissions apart. -/
def Distinct (chain : List AvtabNode) : Prop :=
  chain.Pairwise fun first second => first.key.hits second.key = true → isXperms first.key ∨ isXperms second.key

def OneKind (key : AvtabKey) : Prop := (specOrder.filter fun spec => key.specified &&& spec != 0).length = 1

def nodeCount (h : Avtab) : Nat :=
  match h.htable with
  | none => 0
  | some htable => ∑ i ∈ Finset.range h.nslot.toNat, (htable i).length

structure RuleTable (h : Avtab) : Prop where
  formed : h.WellFormed
  distinct : ∀ key, Distinct (h.chain key)
  oneKind : ∀ key, ∀ node ∈ h.chain key, OneKind node.key
  slots : h.htable ≠ none → ∀ key, avtabHash key h.mask < h.nslot.toNat
  counted : h.nel = UInt32.ofNat (nodeCount h)

section Table
variable {h after : Avtab} {key : AvtabKey} {datum : AvtabDatum}

theorem hits_comm (first second : AvtabKey) : first.hits second = second.hits first := by
  have triple : first.sameTriple second = second.sameTriple first := by
    rw [Bool.eq_iff_iff, sameTriple_iff, sameTriple_iff, eq_comm]
  have bits : first.specifiedBits &&& second.specified = second.specifiedBits &&& first.specified := by
    simp only [AvtabKey.specifiedBits]
    rw [UInt16.and_assoc, UInt16.and_comm first.specified, UInt16.and_comm (~~~avtabEnabled)]
  rw [AvtabKey.hits, AvtabKey.hits, triple, bits]

theorem specifiedBits_xperms (key : AvtabKey) : key.specifiedBits &&& avtabXperms = key.specified &&& avtabXperms := by
  rw [AvtabKey.specifiedBits, UInt16.and_assoc]
  rfl

/-- Where a rule is inserted, it is not among those that are no extended permissions. -/
theorem place_distinct {chain front back : List AvtabNode}
    (sorted : chain.Pairwise fun first second => first.key.rank ≤ second.key.rank) (distinct : Distinct chain)
    (place : avtabPlace key chain = some (front, back)) : Distinct (front ++ avtabNewnode key datum :: back) := by
  obtain ⟨rfl, _, _⟩ := Avtab.place_spec sorted place
  rw [Distinct, List.pairwise_middle, List.pairwise_cons]
  · refine ⟨fun cur member hits => ?_, distinct⟩
    rw [Avtab.newnode_key] at hits ⊢
    by_cases xperms : isXperms key
    · exact .inl xperms
    · have plain : key.specifiedBits &&& avtabXperms = 0 := by
        rw [specifiedBits_xperms]
        simpa [isXperms] using xperms
      rw [Avtab.place_exists plain sorted member hits] at place
      cases place
  · intro first second apart hits
    rw [hits_comm] at hits
    exact (apart hits).symm

theorem sum_update {slots slot : Nat} (inside : slot < slots) (htable : Nat → List AvtabNode)
    (chain : List AvtabNode) :
    (∑ i ∈ Finset.range slots, (Function.update htable slot chain i).length) + (htable slot).length =
      (∑ i ∈ Finset.range slots, (htable i).length) + chain.length := by
  have member := Finset.mem_range.mpr inside
  rw [← Finset.add_sum_erase _ _ member, ← Finset.add_sum_erase _ (fun i => (htable i).length) member,
    Function.update_self]
  have others : ∑ i ∈ (Finset.range slots).erase slot, (Function.update htable slot chain i).length =
      ∑ i ∈ (Finset.range slots).erase slot, (htable i).length :=
    Finset.sum_congr rfl fun i other => by rw [Function.update_of_ne (Finset.ne_of_mem_erase other)]
  omega

theorem insert_ruleTable (table : RuleTable h) (kind : OneKind key) (inserted : avtabInsert h key datum = (0, after)) :
    RuleTable after := by
  have formed := Avtab.insert_wellFormed table.formed key datum
  rw [inserted] at formed
  rw [avtabInsert] at inserted
  split at inserted
  next => cases inserted
  next htable allocated =>
    have chains (other : AvtabKey) : h.chain other = htable (avtabHash other h.mask) := by rw [Avtab.chain, allocated]
    have inside := table.slots (by simp [allocated])
    split at inserted
    next => cases inserted
    next front back place =>
      obtain ⟨shape, _, _⟩ := Avtab.place_spec (chains key ▸ table.formed.sorted key) place
      cases inserted
      refine ⟨formed, fun other => ?_, fun other => ?_, fun _ => inside, ?_⟩
      · rw [Avtab.chain_update]
        split
        · exact place_distinct (chains key ▸ table.formed.sorted key) (chains key ▸ table.distinct key) place
        · exact chains other ▸ table.distinct other
      · rw [Avtab.chain_update]
        split
        · have old := table.oneKind key
          rw [chains, shape, List.forall_mem_append] at old
          rw [List.forall_mem_append, List.forall_mem_cons, Avtab.newnode_key]
          exact ⟨old.1, kind, old.2⟩
        · exact chains other ▸ table.oneKind other
      · have count := sum_update (inside key) htable (front ++ avtabNewnode key datum :: back)
        rw [shape, List.length_append, List.length_append, List.length_cons] at count
        rw [table.counted, nodeCount, nodeCount, allocated]
        simp only
        rw [show (1 : UInt32) = UInt32.ofNat 1 from rfl, ← UInt32.ofNat_add]
        exact congrArg UInt32.ofNat (by omega)

theorem modify_ruleTable {node : AvtabNode} (table : RuleTable h) (found : avtabSearch h key = some node)
    (change : AvtabDatum → AvtabDatum) : RuleTable (avtabModify h key change) := by
  obtain ⟨formed, _, mask, nel, front, back, shape, _, _, chains⟩ := Avtab.modify_spec table.formed found change
  refine ⟨formed, fun other => ?_, fun other => ?_, fun allocated other => ?_, ?_⟩
  · rw [chains]
    split
    · have old := table.distinct key
      rw [shape] at old
      rw [Distinct, ← List.pairwise_map (f := AvtabNode.key) (R := fun first second : AvtabKey =>
        first.hits second = true → isXperms first ∨ isXperms second)] at old ⊢
      simpa using old
    · exact table.distinct other
  · rw [chains]
    split
    · have old := table.oneKind key
      rw [shape, List.forall_mem_append, List.forall_mem_cons] at old
      rw [List.forall_mem_append, List.forall_mem_cons]
      exact old
    · exact table.oneKind other
  · rw [mask]
    refine table.slots (fun none => allocated ?_) other
    rw [avtabModify, none]
    rfl
  · rw [nel, table.counted]
    refine congrArg UInt32.ofNat ?_
    rw [nodeCount, nodeCount, avtabModify]
    cases allocated : h.htable with
    | none => rfl
    | some htable =>
      refine Finset.sum_congr rfl fun i _ => ?_
      by_cases slot : i = avtabHash key h.mask
      · subst slot
        simp only [Function.update_self, length_scanModify, Avtab.chain, allocated]
      · simp only [Function.update_of_ne slot]

end Table

section Read

theorem slots_bound (shift : Nat) :
    1 ≤ (if shift > 20 then 2 ^ 20 else 2 ^ shift) ∧ (if shift > 20 then 2 ^ 20 else 2 ^ shift) ≤ 2 ^ 20 := by
  split
  · exact ⟨Nat.one_le_two_pow, Nat.le_refl _⟩
  · exact ⟨Nat.one_le_two_pow, Nat.pow_le_pow_right (by omega) (by omega)⟩

theorem avtabAlloc_ruleTable (nrules : UInt32) : RuleTable (avtabAlloc nrules) := by
  have empty : ∀ key, (avtabAlloc nrules).chain key = [] := by
    intro key
    rw [avtabAlloc]
    split <;> rfl
  refine ⟨avtabAlloc_wellFormed nrules, fun key => by rw [empty]; exact .nil, fun key => by simp [empty], ?_, ?_⟩
  · intro allocated key
    rw [avtabAlloc] at allocated ⊢
    split at allocated
    · exact absurd rfl allocated
    · rename_i some
      rw [if_neg some]
      simp only
      have bound := slots_bound (if nrules.toNat.log2 + 1 > 2 then nrules.toNat.log2 + 1 - 2 else nrules.toNat.log2 + 1)
      generalize (if (if nrules.toNat.log2 + 1 > 2 then nrules.toNat.log2 + 1 - 2 else nrules.toNat.log2 + 1) > 20
        then 2 ^ 20
        else 2 ^ (if nrules.toNat.log2 + 1 > 2 then nrules.toNat.log2 + 1 - 2 else nrules.toNat.log2 + 1)) =
          nslot at bound ⊢
      have last : (UInt32.ofNat (nslot - 1)).toNat + 1 = (UInt32.ofNat nslot).toNat := by
        rw [UInt32.toNat_ofNat', UInt32.toNat_ofNat']
        omega
      have low : avtabHash key (UInt32.ofNat (nslot - 1)) ≤ (UInt32.ofNat (nslot - 1)).toNat := by
        rw [avtabHash, UInt32.toNat_and]
        exact Nat.and_le_right
      omega
  · rw [avtabAlloc]
    split
    · rfl
    · simp [nodeCount]

theorem avtabReadItem_ruleTable {a after : Avtab} {item : AvtabKey × AvtabDatum} (table : RuleTable a)
    (read : avtabReadItem a item = some after) : RuleTable after := by
  rw [avtabReadItem] at read
  split at read
  next => cases read
  next kind =>
    split at read
    next => cases read
    next =>
      cases result : avtabInsert a item.1 item.2 with
      | mk rc inserted =>
        simp only [result] at read
        split at read
        next => cases read
        next passed =>
          cases read
          rw [not_not.mp passed] at result
          exact insert_ruleTable table (not_not.mp kind) result

theorem avtabRead_ruleTable {items : List (AvtabKey × AvtabDatum)} {a : Avtab} (read : avtabRead items = some a) :
    RuleTable a := by
  have step {a after : Avtab} {items : List (AvtabKey × AvtabDatum)} (table : RuleTable a)
      (walked : items.foldlM avtabReadItem a = some after) : RuleTable after := by
    induction items generalizing a with
    | nil => cases walked; exact table
    | cons item rest ih =>
      rw [List.foldlM_cons] at walked
      obtain ⟨between, first, walked⟩ := Option.bind_eq_some_iff.mp walked
      exact ih (avtabReadItem_ruleTable table first) walked
  rw [avtabRead] at read
  split at read
  next => cases read
  next => exact step (avtabAlloc_ruleTable _) read

end Read

section Edits

/-- The key of the rule that an edit of `k` changes: of the one that is found, or of a new one. -/
def ruleKey (te : Avtab) (k : AvtabKey) : AvtabKey := ((avtabSearch te k).map AvtabNode.key).getD k

/-- A search that does not hit the rule that is edited finds what it found before. -/
theorem RuleEdited.search_other {te after : Avtab} {k key : AvtabKey} {start : AvtabNode}
    {change : AvtabDatum → AvtabDatum} (formed : te.WellFormed) (edited : RuleEdited te after k start change)
    (misses : key.hits start.key = false) :
    avtabSearch after key = avtabSearch te key := by
  obtain ⟨front, back, _, _, before, chains⟩ := edited.chains
  rw [Avtab.search_eq edited.formed, Avtab.search_eq formed, chains]
  split
  next slot =>
    have same : te.chain key = te.chain k := by
      rw [Avtab.chain, Avtab.chain, slot]
    have skip (datum : AvtabDatum) : (front ++ { start with datum } :: back).find? (fun cur => key.hits cur.key) =
        (front ++ back).find? fun cur => key.hits cur.key := by
      rw [List.find?_append, List.find?_append, List.find?_cons, misses]
    rw [same, skip]
    rcases before with whole | ⟨whole, _⟩
    · rw [whole]
      exact (skip start.datum).symm
    · rw [whole]
  next => rfl

/-- What an edit of a rule does to a table: nothing, or a change of one rule. -/
theorem editRule_cases {te after : Avtab} {k : AvtabKey} {disallow : Bool} {mask : UInt32}
    {malloc : AvtabDatum} {r : Int} (table : RuleTable te) (self : SelfHit k) (kind : OneKind k)
    (edited : editRule te k disallow mask malloc = .ok (r, after)) :
    after = te ∨ RuleTable after ∧ ∃ start, start.key = ruleKey te k ∧
      RuleEdited te after k start (editVector disallow mask) := by
  have run := edited
  rw [editRule] at edited
  split at edited
  next node found =>
    cases edited
    exact .inr ⟨modify_ruleTable table found _, node, by rw [ruleKey, found]; rfl, modify_edited table.formed found⟩
  next fresh =>
    by_cases allocated : te.htable = none
    · simp only [avtabInsert, allocated, sepolEnomem] at edited
      cases edited
      exact .inl rfl
    · obtain ⟨inserted, result, found, spec⟩ :=
        @insert_modify_edited _ _ (editVector disallow mask) table.formed allocated fresh self malloc
      simp only [result, found, ne_eq, not_true_eq_false, if_false] at edited
      cases edited
      have grown := insert_ruleTable table kind result
      exact .inr ⟨modify_ruleTable grown found _, _, by rw [ruleKey, fresh, Avtab.newnode_key]; rfl, spec⟩

def otherKinds : UInt16 :=
  avtabAuditdeny ||| avtabAuditallow ||| avtabTransition ||| avtabChange ||| avtabMember ||| avtabXperms

def OtherKind (key : AvtabKey) : Prop := key.specifiedBits &&& otherKinds = key.specifiedBits

theorem or_and_eq_zero {first second kind : UInt16} (one : first &&& kind = 0) (two : second &&& kind = 0) :
    (first ||| second) &&& kind = 0 := by
  rw [← UInt16.toNat_inj] at one two ⊢
  rw [UInt16.toNat_and] at one two
  rw [UInt16.toNat_and, UInt16.toNat_or, Nat.and_or_distrib_right, one, two]
  rfl

/-- A rule of one kind that is found as `AVTAB_ALLOWED` has no other kind. -/
theorem allowed_only {key : AvtabKey} (kind : OneKind key) (allowed : key.specified &&& avtabAllowed ≠ 0) :
    otherKinds &&& key.specified = 0 := by
  rw [OneKind, specOrder, List.filter_cons_of_pos (by simpa using allowed), List.length_cons, Nat.add_eq_right,
    List.length_eq_zero_iff, List.filter_eq_nil_iff] at kind
  have none {spec : UInt16} (inside : spec ∈ specOrder.tail) : spec &&& key.specified = 0 := by
    rw [UInt16.and_comm]
    simpa using kind spec inside
  have xperms : avtabXperms &&& key.specified = 0 :=
    or_and_eq_zero (or_and_eq_zero (none (by decide)) (none (by decide))) (none (by decide))
  exact or_and_eq_zero
    (or_and_eq_zero (or_and_eq_zero (or_and_eq_zero (or_and_eq_zero (none (by decide)) (none (by decide)))
    (none (by decide))) (none (by decide))) (none (by decide))) xperms

theorem ruleKey_allowed {te : Avtab} (table : RuleTable te) {k : AvtabKey} (self : k.specified = avtabAllowed)
    (kind : OneKind k) :
    otherKinds &&& (ruleKey te k).specified = 0 ∧ (ruleKey te k).rank = k.rank := by
  cases found : avtabSearch te k with
  | none =>
    rw [ruleKey, found]
    exact ⟨allowed_only kind (by rw [Option.map_none, Option.getD_none, self]; decide), rfl⟩
  | some node =>
    rw [Avtab.search_eq table.formed] at found
    have hit := List.find?_some (p := fun cur : AvtabNode => k.hits cur.key) found
    have hits := Bool.and_eq_true_iff.mp hit
    have allowed : node.key.specified &&& avtabAllowed ≠ 0 := by
      have bits : k.specifiedBits = avtabAllowed := by
        rw [AvtabKey.specifiedBits, self]
        rfl
      rw [UInt16.and_comm, ← bits]
      exact bne_iff_ne.mp hits.2
    rw [ruleKey, Avtab.search_eq table.formed, found]
    exact ⟨allowed_only (table.oneKind k node (List.mem_of_find?_eq_some found)) allowed,
      (sameTriple_iff.mp hits.1).symm⟩

theorem otherKind_misses {key rule : AvtabKey} (other : OtherKind key) (allowed : otherKinds &&& rule.specified = 0) :
    key.hits rule = false := by
  have apart : key.specifiedBits &&& rule.specified = 0 := by
    rw [← other, UInt16.and_assoc, allowed]
    simp
  simp [AvtabKey.hits, apart]

end Edits

structure RuleStmt where
  src : CString
  tgt : CString
  cls : CString
  perm : CString
  disallow : Bool
  malloc : AvtabDatum

def ruleStep (before : Policydb) (stmt : RuleStmt) (after : Policydb) : Prop :=
  ∃ r, bxxtSepolAllowExt before stmt.src stmt.tgt stmt.cls stmt.perm stmt.disallow stmt.malloc = .ok (r, after)

/-- The names of a statement stand for the types and the class of a key. -/
def RuleStmt.Names (stmt : RuleStmt) (pdb : Policydb) (k : AvtabKey) : Prop :=
  ∃ s t c, hashtabSearch pdb.pTypes.table stmt.src = some s ∧ hashtabSearch pdb.pTypes.table stmt.tgt = some t ∧
    hashtabSearch pdb.pClasses.table stmt.cls = some c ∧ k = allowKey s t c

/-- The frame of one statement: the table keeps its form, and only a search that hits the edited
rule can find something else. A search for another triple cannot, and none for other kinds of rules.
-/
structure TouchesOne (before : Policydb) (stmt : RuleStmt) (after : Policydb) : Prop where
  table : RuleTable after.teAvtab
  searches : ∀ key, (∀ k, stmt.Names before k → key.hits (ruleKey before.teAvtab k) = false) →
    avtabSearch after.teAvtab key = avtabSearch before.teAvtab key
  triples : ∀ key, (∀ k, stmt.Names before k → key.sameTriple k = false) →
    avtabSearch after.teAvtab key = avtabSearch before.teAvtab key
  kinds : ∀ key, OtherKind key → avtabSearch after.teAvtab key = avtabSearch before.teAvtab key

theorem ruleStep_touches {before after : Policydb} {stmt : RuleStmt} (table : RuleTable before.teAvtab)
    (step : ruleStep before stmt after) : TouchesOne before stmt after := by
  obtain ⟨r, run⟩ := step
  have kind (s t : TypeDatum) (c : ClassDatum) : OneKind (allowKey s t c) := by
    rw [OneKind, show (allowKey s t c).specified = avtabAllowed from rfl]
    decide
  rcases allowExt_cases run with rfl | ⟨s, t, c, mask, teAvtab, isSource, isTarget, isClass, rfl, edited⟩
  · exact ⟨table, fun _ _ => rfl, fun _ _ => rfl, fun _ _ => rfl⟩
  · have names : stmt.Names before (allowKey s t c) := ⟨s, t, c, isSource, isTarget, isClass, rfl⟩
    rcases editRule_cases table (allowKey_selfHit s t c) (kind s t c) edited with rfl | ⟨grown, start, same, edited⟩
    · exact ⟨table, fun _ _ => rfl, fun _ _ => rfl, fun _ _ => rfl⟩
    · have misses (key : AvtabKey) (miss : key.hits (ruleKey before.teAvtab (allowKey s t c)) = false) :
          avtabSearch teAvtab key = avtabSearch before.teAvtab key :=
        edited.search_other table.formed (same ▸ miss)
      obtain ⟨allowed, rank⟩ := ruleKey_allowed table (k := allowKey s t c) rfl (kind s t c)
      refine ⟨grown, fun key away => misses key (away _ names), fun key away => misses key ?_, fun key other => ?_⟩
      · refine not_hits_of_rank_ne fun equal => ?_
        have triple := away _ names
        rw [sameTriple_iff.mpr (equal.trans rank)] at triple
        cases triple
      · exact misses key (otherKind_misses other allowed)

/-- In every run of `allow` and `disallow` statements from a table that was read, each statement keeps the form of the
table and leaves every search alone that does not hit the rule it edits. -/
theorem statements_touch_one {items : List (AvtabKey × AvtabDatum)} {start last : Policydb}
    {trace : List (Step Policydb RuleStmt)} (read : avtabRead items = some start.teAvtab)
    (run : Run ruleStep start trace last) : ∀ taken ∈ trace, TouchesOne taken.before taken.event taken.after := by
  obtain ⟨_, tables⟩ := @Run.invariant _ _ _ _ _ _ (fun pdb => RuleTable pdb.teAvtab) (fun _ => True)
    (fun _ _ _ step _ table => (ruleStep_touches table step).table) run (fun _ _ => trivial) (avtabRead_ruleTable read)
  intro taken inside
  obtain ⟨front, back, rfl⟩ := List.append_of_mem inside
  exact ruleStep_touches (tables taken inside).1 run.at_step.2.1

theorem loaded_rules {pdb : Policydb} (loaded : Loaded pdb) : ∃ items, avtabRead items = some pdb.teAvtab := by
  obtain ⟨image, tables, indexed, tablesRead, _, done, read⟩ := loaded_stages loaded
  simp only [readTables, Option.bind_eq_bind, Option.bind_eq_some_iff, Option.some.injEq] at tablesRead
  obtain ⟨_, _, _, _, _, _, _, _, _, _, _, _, _, _, _, _, _, _, teAvtab, rules, rfl⟩ := tablesRead
  obtain ⟨roles, types, table, _, _, _, _, _, _, _, rfl⟩ := indexOthers_iff.mp done
  obtain ⟨⟨typeAttrMap, attrTypeMap, rfl⟩, _⟩ := readTypeMaps_spec range_small read
  exact ⟨image.rules, rules⟩

def readStmt : RuleStmt := ⟨ascii "init", ascii "kernel", ascii "file", ascii "read", false, ⟨0, none⟩⟩

theorem read_touches_one : ∃ before after, Loaded before ∧ TouchesOne before readStmt after := by
  obtain ⟨pdb, c, s, t, p, after, loaded, _, _, _, _, run, _⟩ :=
    @fileEdit_run (ascii "read") false ⟨0, none⟩ (fun _ _ _ _ => true) (by decide +kernel)
  obtain ⟨items, read⟩ := loaded_rules loaded
  have one : Run ruleStep pdb [⟨pdb, readStmt, after⟩] after := .cons ⟨_, run⟩ .nil
  exact ⟨pdb, after, loaded, statements_touch_one read one ⟨pdb, readStmt, after⟩ List.mem_cons_self⟩

/-- A search for allowed and audited permissions together is another key, and finds the rule that is new. -/
theorem wide_search_changes : ∃ items before after k, avtabRead items = some before.teAvtab ∧
    ruleStep before readStmt after ∧
    readStmt.Names before k ∧ k.specified ≠ avtabAllowed ||| avtabAuditallow ∧
    avtabSearch after.teAvtab { k with specified := avtabAllowed ||| avtabAuditallow } ≠
      avtabSearch before.teAvtab { k with specified := avtabAllowed ||| avtabAuditallow } := by
  obtain ⟨pdb, c, s, t, p, after, loaded, isClass, isSource, isTarget, _, run, passed⟩ :=
    @fileEdit_run (ascii "read") false ⟨0, none⟩ (fun k _ pdb after =>
      avtabSearch after.teAvtab { k with specified := avtabAllowed ||| avtabAuditallow } !=
        avtabSearch pdb.teAvtab { k with specified := avtabAllowed ||| avtabAuditallow }) (by decide +kernel)
  obtain ⟨items, read⟩ := loaded_rules loaded
  have other : avtabAllowed ≠ avtabAllowed ||| avtabAuditallow := by decide
  exact ⟨items, pdb, after, allowKey s t c, read, ⟨_, run⟩, ⟨s, t, c, isSource, isTarget, isClass, rfl⟩,
    other, bne_iff_ne.mp passed⟩

end Bxxt.Proofs
