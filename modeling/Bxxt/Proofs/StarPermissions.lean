import Bxxt.Proofs.RuleEdits
import Bxxt.Lib.MaskUnion

/-! The name that stands for all permissions, beside the names of all permissions of a class one after
the other. -/

namespace Bxxt.Proofs
open SortedChain MaskUnion

structure Lists (c : ClassDatum) (perms : List CString) : Prop where
  once : perms.Nodup
  all : ∀ name, name ∈ perms ↔ ∃ p, findPerm c name = some p

/-- A permission of the class or of its common, also one of the common that is hidden behind a
permission of the class with the same name. -/
def IsPermission (c : ClassDatum) (p : PermDatum) : Prop :=
  (∃ name, hashtabSearch c.permissions.table name = some p) ∨
    ∃ comdatum name, c.comdatum = some comdatum ∧ hashtabSearch comdatum.permissions.table name = some p

def PermissionBit (c : ClassDatum) (i : Nat) : Prop := ∃ p, IsPermission c p ∧ Has (permBit p.value) i

/-- The bit of a permission that a statement can name. -/
def NamedBit (c : ClassDatum) (i : Nat) : Prop := ∃ name p, findPerm c name = some p ∧ Has (permBit p.value) i

/-- A permission whose own name stands for all. -/
def StarNamed (c : ClassDatum) : Prop := ∃ name p, findPerm c name = some p ∧ isStar name

def runNamed (src tgt cls : CString) (disallow : Bool) (malloc : AvtabDatum) : Policydb →
    List CString → Exec Policydb
  | pdb, [] => .ok pdb
  | pdb, perm :: rest => do
    let (_, pdb) ← bxxtSepolAllowExt pdb src tgt cls perm disallow malloc
    runNamed src tgt cls disallow malloc pdb rest

/-- A star leaves the vector of the statements for all names, and sets only bits of permissions. -/
def StarExact (pdb : Policydb) (src tgt cls : CString) (k : AvtabKey) (c : ClassDatum) (disallow : Bool)
    (malloc : AvtabDatum) (perms : List CString) : Prop :=
  ∃ star named, bxxtSepolAllowExt pdb src tgt cls (ascii "*") disallow malloc = .ok (bxxtSuccess, star) ∧
    runNamed src tgt cls disallow malloc pdb perms = .ok named ∧
    allowedVector star.teAvtab k = allowedVector named.teAvtab k ∧
    ∀ i, Has (allowedVector star.teAvtab k) i → Has (allowedVector pdb.teAvtab k) i ∨ PermissionBit c i

/-- Where a star is exact: every permission has a bit, and all bits are those of permissions or set
already, or for `disallow` those that are set are of permissions. -/
structure StarCovered (c : ClassDatum) (old : UInt32) (disallow : Bool) : Prop where
  values : ∀ name p, findPerm c name = some p → isStar name ∨ 1 ≤ p.value ∧ p.value ≤ 32
  allowed : disallow = false →
    (StarNamed c ∨ ∀ i < 32, Has old i ∨ NamedBit c i) ∧ ∀ i < 32, Has old i ∨ PermissionBit c i
  disallowed : disallow = true → StarNamed c ∨ ∀ i, Has old i → NamedBit c i

section Star
variable {pdb : Policydb} {src tgt cls perm : CString} {disallow : Bool} {malloc : AvtabDatum}
  {s t : TypeDatum} {c : ClassDatum} {p : PermDatum}

def stmtMask (c : ClassDatum) (perm : CString) : Exec UInt32 :=
  if isStar perm then .ok (~~~0)
  else
    match findPerm c perm with
    | none => .ok 0
    | some p => permMask p.value

theorem has_all {i : Nat} : Has (~~~(0 : UInt32)) i ↔ i < 32 := by
  rw [has_not]
  exact and_iff_left not_has_zero

structure EditsRule (before after : Policydb) (k : AvtabKey) (disallow : Bool) (mask : UInt32) : Prop where
  others : after = { before with teAvtab := after.teAvtab }
  formed : after.teAvtab.WellFormed
  found : avtabSearch after.teAvtab k ≠ none
  vector : allowedVector after.teAvtab k =
    if disallow then allowedVector before.teAvtab k &&& ~~~mask else allowedVector before.teAvtab k ||| mask

variable (disallow malloc) in
theorem allowExt_edits (formed : pdb.teAvtab.WellFormed) (isClass : hashtabSearch pdb.pClasses.table cls = some c)
    (isSource : hashtabSearch pdb.pTypes.table src = some s) (isTarget : hashtabSearch pdb.pTypes.table tgt = some t)
    (rule : avtabSearch pdb.teAvtab (allowKey s t c) ≠ none)
    (known : isStar perm ∨ ∃ p, findPerm c perm = some p) :
    (∃ fault, stmtMask c perm = .error fault ∧
      bxxtSepolAllowExt pdb src tgt cls perm disallow malloc = .error fault) ∨
      ∃ mask after, stmtMask c perm = .ok mask ∧
        bxxtSepolAllowExt pdb src tgt cls perm disallow malloc = .ok (bxxtSuccess, after) ∧
        EditsRule pdb after (allowKey s t c) disallow mask := by
  obtain ⟨node, found⟩ := Option.ne_none_iff_exists'.mp rule
  have edits (mask : UInt32) : EditsRule pdb
      { pdb with teAvtab := avtabModify pdb.teAvtab (allowKey s t c) (editVector disallow mask) }
      (allowKey s t c) disallow mask := by
    have edited := @modify_edited _ _ _ (editVector disallow mask) formed found
    refine ⟨rfl, edited.formed, by simp [edited.search], ?_⟩
    rw [allowedVector, edited.search, allowedVector, found]
    cases disallow <;> rfl
  by_cases star : isStar perm
  · refine .inr ⟨~~~0, _, if_pos star, ?_, edits _⟩
    simp only [bxxtSepolAllowExt, isClass, isSource, isTarget, if_pos star, editRule, found, Exec.ok_bind]
  · obtain ⟨p, isPerm⟩ := known.resolve_left star
    have mask : stmtMask c perm = permMask p.value := by rw [stmtMask, if_neg star, isPerm]
    cases defined : permMask p.value with
    | error fault =>
      refine .inl ⟨fault, mask.trans defined, ?_⟩
      simp only [bxxtSepolAllowExt, isClass, isSource, isTarget, if_neg star, isPerm, defined]
      rfl
    | ok bits =>
      refine .inr ⟨bits, _, mask.trans defined, ?_, edits _⟩
      simp only [bxxtSepolAllowExt, isClass, isSource, isTarget, if_neg star, isPerm, defined,
        Exec.ok_bind, editRule, found]

def StmtHas (c : ClassDatum) (perm : CString) (i : Nat) : Prop := ∃ mask, stmtMask c perm = .ok mask ∧ Has mask i

theorem stmtHas_iff (isPerm : findPerm c perm = some p) (defined : ∃ mask, stmtMask c perm = .ok mask) {i : Nat} :
    StmtHas c perm i ↔ if isStar perm then i < 32 else Has (permBit p.value) i := by
  obtain ⟨mask, same⟩ := defined
  have only : StmtHas c perm i ↔ Has mask i := by
    constructor
    · rintro ⟨other, again, has⟩
      rw [same] at again
      cases again
      exact has
    · exact fun has => ⟨mask, same, has⟩
  rw [only]
  by_cases star : isStar perm
  · rw [stmtMask, if_pos star] at same
    cases same
    rw [if_pos star]
    exact has_all
  · rw [stmtMask, if_neg star, isPerm] at same
    rw [if_neg star, permMask_ok same]

theorem stmtMask_defined (isPerm : findPerm c perm = some p) :
    (∃ mask, stmtMask c perm = .ok mask) ↔ isStar perm ∨ 1 ≤ p.value ∧ p.value ≤ 32 := by
  have positive : 1 ≤ p.value ↔ ¬ p.value = 0 := by
    rw [UInt32.le_iff_toNat_le, ← UInt32.toNat_inj]
    exact Nat.one_le_iff_ne_zero
  by_cases star : isStar perm
  · exact iff_of_true ⟨_, if_pos star⟩ (.inl star)
  · rw [stmtMask, if_neg star, isPerm, positive]
    simp only [permMask, star, false_or, Bool.false_eq_true]
    split
    next outside =>
      apply iff_of_false
      · rintro ⟨mask, same⟩
        cases same
      · rintro ⟨low, high⟩
        exact outside.elim low fun large => absurd high (UInt32.not_le.mpr large)
    next inside =>
      rw [not_or, UInt32.not_lt] at inside
      exact iff_of_true ⟨_, rfl⟩ inside

/-- The statements one after the other, each with its mask, unless one of them is undefined. -/
theorem runNamed_spec (formed : pdb.teAvtab.WellFormed) (isClass : hashtabSearch pdb.pClasses.table cls = some c)
    (isSource : hashtabSearch pdb.pTypes.table src = some s) (isTarget : hashtabSearch pdb.pTypes.table tgt = some t)
    (rule : avtabSearch pdb.teAvtab (allowKey s t c) ≠ none) {perms : List CString}
    (known : ∀ perm ∈ perms, ∃ p, findPerm c perm = some p) :
    ((∃ named, runNamed src tgt cls disallow malloc pdb perms = .ok named) ↔ ∀ perm ∈ perms, ∃ mask,
      stmtMask c perm = .ok mask) ∧
      ∀ named, runNamed src tgt cls disallow malloc pdb perms = .ok named →
        ∀ i, Has (allowedVector named.teAvtab (allowKey s t c)) i ↔
        if disallow then Has (allowedVector pdb.teAvtab (allowKey s t c)) i ∧ ∀ perm ∈ perms, ¬ StmtHas c perm i
        else Has (allowedVector pdb.teAvtab (allowKey s t c)) i ∨ ∃ perm ∈ perms, StmtHas c perm i := by
  induction perms generalizing pdb with
  | nil =>
    refine ⟨iff_of_true ⟨pdb, rfl⟩ (by simp), ?_⟩
    intro named run i
    cases run
    cases disallow <;> simp
  | cons perm rest ih =>
    obtain ⟨here, others⟩ := List.forall_mem_cons.mp known
    rcases allowExt_edits disallow malloc formed isClass isSource isTarget rule (.inr here) with
      ⟨fault, undefined, run⟩ | ⟨mask, after, same, run, edits⟩
    · have failed : runNamed src tgt cls disallow malloc pdb (perm :: rest) = .error fault := by
        rw [runNamed, run]
        rfl
      rw [failed]
      refine ⟨iff_of_false (by simp) fun all => ?_, by simp⟩
      obtain ⟨mask, same⟩ := all perm List.mem_cons_self
      rw [undefined] at same
      cases same
    · have next : runNamed src tgt cls disallow malloc pdb (perm :: rest) = runNamed src tgt cls disallow
        malloc after rest := by
        rw [runNamed, run]
        rfl
      obtain ⟨defined, vectors⟩ := ih edits.formed (by rw [edits.others]; exact isClass)
        (by rw [edits.others]; exact isSource)
        (by rw [edits.others]; exact isTarget) edits.found others
      have has (i : Nat) : StmtHas c perm i ↔ Has mask i := by
        constructor
        · rintro ⟨other, again, has⟩
          rw [same] at again
          cases again
          exact has
        · exact fun has => ⟨mask, same, has⟩
      rw [next, defined]
      refine ⟨?_, fun named run i => ?_⟩
      · rw [List.forall_mem_cons]
        exact (and_iff_right ⟨mask, same⟩).symm
      · rw [vectors named run i, edits.vector]
        cases disallow with
        | false =>
          simp only [Bool.false_eq_true, if_false, has_or, List.exists_mem_cons_iff, has, or_assoc]
        | true =>
          simp only [if_true, has_and, has_not, List.forall_mem_cons, has]
          constructor
          · rintro ⟨⟨old, _, misses⟩, rest⟩
            exact ⟨old, misses, rest⟩
          · rintro ⟨old, misses, rest⟩
            exact ⟨⟨old, has_lt old, misses⟩, rest⟩

theorem stmts_have {perms : List CString} (order : Lists c perms)
    (values : ∀ perm ∈ perms, ∃ mask, stmtMask c perm = .ok mask)
    {i : Nat} (inside : i < 32) : (∃ perm ∈ perms, StmtHas c perm i) ↔ StarNamed c ∨ NamedBit c i := by
  constructor
  · rintro ⟨perm, member, has⟩
    obtain ⟨p, isPerm⟩ := (order.all perm).mp member
    rw [stmtHas_iff isPerm (values perm member)] at has
    by_cases star : isStar perm
    · exact .inl ⟨perm, p, isPerm, star⟩
    · rw [if_neg star] at has
      exact .inr ⟨perm, p, isPerm, has⟩
  · have named {perm : CString} {p : PermDatum} (isPerm : findPerm c perm = some p)
        (has : if isStar perm then i < 32 else Has (permBit p.value) i) : ∃ perm ∈ perms, StmtHas c perm i := by
      have member := (order.all perm).mpr ⟨p, isPerm⟩
      exact ⟨perm, member, (stmtHas_iff isPerm (values perm member)).mpr has⟩
    rintro (⟨perm, p, isPerm, star⟩ | ⟨perm, p, isPerm, has⟩)
    · exact named isPerm (by rwa [if_pos star])
    · by_cases star : isStar perm
      · exact named isPerm (by rwa [if_pos star])
      · exact named isPerm (by rwa [if_neg star])

variable (disallow malloc) in
/-- The statement with the star sets all bits, or clears them. -/
theorem star_runs (formed : pdb.teAvtab.WellFormed) (isClass : hashtabSearch pdb.pClasses.table cls = some c)
    (isSource : hashtabSearch pdb.pTypes.table src = some s) (isTarget : hashtabSearch pdb.pTypes.table tgt = some t)
    (rule : avtabSearch pdb.teAvtab (allowKey s t c) ≠ none) :
    ∃ after, bxxtSepolAllowExt pdb src tgt cls (ascii "*") disallow malloc = .ok (bxxtSuccess, after) ∧
      ∀ i, Has (allowedVector after.teAvtab (allowKey s t c)) i ↔ disallow = false ∧ i < 32 := by
  have star : isStar (ascii "*") := by decide
  have all : stmtMask c (ascii "*") = .ok (~~~0) := if_pos star
  rcases allowExt_edits disallow malloc formed isClass isSource isTarget rule (.inl star) with
    ⟨fault, undefined, _⟩ | ⟨mask, after, same, run, edits⟩
  · rw [all] at undefined
    cases undefined
  · rw [all] at same
    cases same
    refine ⟨after, run, fun i => ?_⟩
    rw [edits.vector]
    cases disallow with
    | false =>
      simp only [Bool.false_eq_true, if_false, has_or, has_all, true_and]
      exact or_iff_right_of_imp has_lt
    | true =>
      simp only [if_true, has_and, has_not, Bool.true_eq_false, false_and, iff_false]
      rintro ⟨old, _, beyond⟩
      exact beyond ⟨has_lt old, not_has_zero⟩

theorem named_defined {perms : List CString} (order : Lists c perms) :
    (∀ perm ∈ perms, ∃ mask, stmtMask c perm = .ok mask) ↔
    ∀ name p, findPerm c name = some p → isStar name ∨ 1 ≤ p.value ∧ p.value ≤ 32 := by
  constructor
  · intro all name p isPerm
    exact (stmtMask_defined isPerm).mp (all name ((order.all name).mpr ⟨p, isPerm⟩))
  · intro all name member
    obtain ⟨p, isPerm⟩ := (order.all name).mp member
    exact (stmtMask_defined isPerm).mpr (all name p isPerm)

/-- The two vectors are the same, for `allow`, if all the bits come together without the star. -/
theorem allow_same_iff {old : UInt32} {perms : List CString} (order : Lists c perms)
    (ok : ∀ perm ∈ perms, ∃ mask, stmtMask c perm = .ok mask) :
    (∀ i, i < 32 ↔ Has old i ∨ ∃ perm ∈ perms, StmtHas c perm i) ↔ StarNamed c ∨ ∀ i < 32, Has old i ∨
      NamedBit c i := by
  constructor
  · intro same
    by_cases any : StarNamed c
    · exact .inl any
    · refine .inr fun i inside => ((same i).mp inside).imp_right fun has => ?_
      exact ((stmts_have order ok inside).mp has).resolve_left any
  · intro covered i
    constructor
    · intro inside
      rw [stmts_have order ok inside]
      rcases covered with any | covered
      · exact .inr (.inl any)
      · exact (covered i inside).imp_right .inr
    · rintro (has | ⟨perm, _, mask, _, has⟩)
      · exact has_lt has
      · exact has_lt has

/-- For `disallow`, the two vectors are the same if no bit is left without the star. -/
theorem disallow_same_iff {old : UInt32} {perms : List CString} (order : Lists c perms)
    (ok : ∀ perm ∈ perms, ∃ mask, stmtMask c perm = .ok mask) :
    (∀ i, ¬ (Has old i ∧ ∀ perm ∈ perms, ¬ StmtHas c perm i)) ↔ StarNamed c ∨ ∀ i, Has old i →
      NamedBit c i := by
  constructor
  · intro none
    by_cases any : StarNamed c
    · exact .inl any
    · refine .inr fun i has => ?_
      by_contra missing
      refine none i ⟨has, fun perm member stmt => missing ?_⟩
      exact ((stmts_have order ok (has_lt has)).mp ⟨perm, member, stmt⟩).resolve_left any
  · rintro covered i ⟨has, none⟩
    obtain ⟨perm, member, stmt⟩ := (stmts_have order ok (has_lt has)).mpr
      (covered.imp_right fun covered => covered i has)
    exact none perm member stmt

end Star

/-- A star stands for the permissions of a class, in any order, exactly where these and the bits that are set already
make up the whole vector, or for `disallow` where no bit is set but theirs. -/
theorem star_exact_iff {pdb : Policydb} {src tgt cls : CString} (disallow : Bool)
    (malloc : AvtabDatum) {s t : TypeDatum} {c : ClassDatum} {perms : List CString} (formed : pdb.teAvtab.WellFormed)
    (isClass : hashtabSearch pdb.pClasses.table cls = some c) (isSource : hashtabSearch pdb.pTypes.table src = some s)
    (isTarget : hashtabSearch pdb.pTypes.table tgt = some t) (rule : avtabSearch pdb.teAvtab (allowKey s t c) ≠ none)
    (order : Lists c perms) : StarExact pdb src tgt cls (allowKey s t c) c disallow malloc perms ↔
      StarCovered c (allowedVector pdb.teAvtab (allowKey s t c)) disallow := by
  obtain ⟨defined, vectors⟩ := @runNamed_spec pdb src tgt cls disallow malloc s t c formed isClass isSource
    isTarget rule perms
    fun perm member => (order.all perm).mp member
  obtain ⟨after, run, whole⟩ := star_runs disallow malloc formed isClass isSource isTarget rule
  constructor
  · rintro ⟨star, named, again, runs, equal, bits⟩
    rw [run] at again
    cases again
    have ok := defined.mp ⟨named, runs⟩
    have same := eq_iff.mp equal
    simp only [whole, vectors named runs] at same bits
    refine ⟨(named_defined order).mp ok, ?_, ?_⟩
    · rintro rfl
      refine ⟨(allow_same_iff order ok).mp ?_, fun i inside => bits i ⟨rfl, inside⟩⟩
      simpa using same
    · rintro rfl
      refine (disallow_same_iff order ok).mp ?_
      simpa using same
  · rintro ⟨valid, allowed, disallowed⟩
    have ok := (named_defined order).mpr valid
    obtain ⟨named, runs⟩ := defined.mpr ok
    refine ⟨after, named, run, runs, eq_iff.mpr ?_, fun i has => ?_⟩
    · simp only [whole, vectors named runs]
      cases disallow with
      | false => simpa using (allow_same_iff order ok).mpr (allowed rfl).1
      | true => simpa using (disallow_same_iff order ok).mpr (disallowed rfl)
    · obtain ⟨rfl, inside⟩ := (whole i).mp has
      exact (allowed rfl).2 i inside

section Samples

/-- The permissions of a class that was read are in order, and so are those of its common. -/
theorem readPerms_wellFormed {nprim : UInt32} {perms : List PermRecord} {permissions : Symtab PermDatum}
    (read : readPerms nprim perms = some permissions) : permissions.table.WellFormed := by
  obtain ⟨table, walked, same⟩ := Option.bind_eq_some_iff.mp read
  cases same
  have filled : Filled (fun _ : PermDatum => True) table :=
    foldlM_filled (fun filled read => insertSymbol_filled filled trivial read) (symtabInit_filled (by decide)) walked
  exact filled.1

theorem loaded_permissions {pdb : Policydb} (loaded : Loaded pdb) {cls : CString} {c : ClassDatum}
    (isClass : hashtabSearch pdb.pClasses.table cls = some c) : c.permissions.table.WellFormed := by
  obtain ⟨image, tables, indexed, tablesRead, _, done, read⟩ := loaded_stages loaded
  simp only [readTables, Option.bind_eq_bind, Option.bind_eq_some_iff, Option.some.injEq] at tablesRead
  obtain ⟨_, _, _, _, pClasses, classes, _, _, _, _, _, _, _, _, _, _, _, _, _, _, rfl⟩ := tablesRead
  obtain ⟨roles, types, table, _, _, _, _, _, _, _, rfl⟩ := indexOthers_iff.mp done
  obtain ⟨⟨typeAttrMap, attrTypeMap, rfl⟩, _⟩ := readTypeMaps_spec range_small read
  have filled : Filled (fun c : ClassDatum => c.permissions.table.WellFormed) pClasses.table := by
    refine readSection_filled (fun filled read => ?_) (symtabInit_filled (by decide)) classes
    obtain ⟨comdatum, _, read⟩ := Option.bind_eq_some_iff.mp read
    obtain ⟨permissions, perms, read⟩ := Option.bind_eq_some_iff.mp read
    exact insertSymbol_filled filled (readPerms_wellFormed perms) read
  exact filled.2 cls c isClass

theorem findPerm_alone {c : ClassDatum} (alone : c.comdatum = none) (name : CString) :
    findPerm c name = hashtabSearch c.permissions.table name := by
  rw [findPerm, alone]
  cases hashtabSearch c.permissions.table name <;> rfl

theorem lists_own {c : ClassDatum} (formed : c.permissions.table.WellFormed) (alone : c.comdatum = none) :
    Lists c (c.permissions.table.nodes.map Prod.fst) := by
  refine ⟨Hashtab.nodes_nodup formed, fun name => ?_⟩
  rw [findPerm_alone alone, List.mem_map]
  constructor
  · rintro ⟨⟨key, p⟩, member, rfl⟩
    exact ⟨p, (Hashtab.mem_nodes formed).mp member⟩
  · rintro ⟨p, found⟩
    exact ⟨(name, p), (Hashtab.mem_nodes formed).mpr found, rfl⟩

/-- What the policy of `fileImage` has for the rule of `kernel` on its own files. -/
def kernelRule (pdb : Policydb) : Bool :=
  (hashtabSearch pdb.pClasses.table (ascii "file")).any fun c =>
    (hashtabSearch pdb.pTypes.table (ascii "kernel")).any fun t =>
      (findPerm c (ascii "read")).any fun _ =>
        c.comdatum.isNone && c.permissions.table.nodes.map (fun node => node.2.value) == [1] &&
          (avtabSearch pdb.teAvtab (allowKey t t c)).isSome && allowedVector pdb.teAvtab (allowKey t t c) == 1

theorem kernelRule_loaded : ∃ pdb c t p, Loaded pdb ∧ hashtabSearch pdb.pClasses.table (ascii "file") = some c ∧
    hashtabSearch pdb.pTypes.table (ascii "kernel") = some t ∧ avtabSearch pdb.teAvtab (allowKey t t c) ≠ none ∧
    allowedVector pdb.teAvtab (allowKey t t c) = 1 ∧ Lists c (c.permissions.table.nodes.map Prod.fst) ∧
    findPerm c (ascii "read") = some p ∧ ∀ name p, IsPermission c p ∨
      findPerm c name = some p → p.value = 1 := by
  obtain ⟨pdb, loaded, tested⟩ := @loaded_of_readsTo fileImage kernelRule (by decide +kernel)
  simp only [kernelRule, Option.any_eq_true, Bool.and_eq_true, beq_iff_eq, Option.isNone_iff_eq_none] at tested
  obtain ⟨c, isClass, t, isType, p, isPerm, ⟨⟨alone, nodes⟩, rule⟩, vector⟩ := tested
  have formed := loaded_permissions loaded isClass
  have value {name : CString} {p : PermDatum} (found : hashtabSearch c.permissions.table name = some p) :
      p.value = 1 := by
    have member := (Hashtab.mem_nodes formed).mpr found
    have listed := List.mem_map_of_mem (f := fun node : CString × PermDatum => node.2.value) member
    rw [nodes] at listed
    exact List.mem_singleton.mp listed
  refine ⟨pdb, c, t, p, loaded, isClass, isType, ?_, vector, lists_own formed alone, isPerm, ?_⟩
  · intro none
    rw [none] at rule
    cases rule
  · rintro name p ((⟨key, found⟩ | ⟨comdatum, key, common, _⟩) | found)
    · exact value found
    · rw [alone] at common
      cases common
    · rw [findPerm_alone alone] at found
      exact value found

/-- A rule with the one permission of the class: without it nothing is left, by either way. -/
theorem read_star_cleared : ∃ pdb c t perms, Loaded pdb ∧
    StarExact pdb (ascii "kernel") (ascii "kernel") (ascii "file") (allowKey t t c) c true ⟨0, none⟩ perms := by
  obtain ⟨pdb, c, t, p, loaded, isClass, isType, rule, vector, order, isPerm, values⟩ := kernelRule_loaded
  refine ⟨pdb, c, t, _, loaded, (star_exact_iff true ⟨0, none⟩ (loaded_consistent loaded).1.rules isClass isType
    isType rule order).mpr ?_⟩
  constructor
  · intro name p isPerm
    rw [values name p (.inr isPerm)]
    exact .inr (by decide)
  · intro same
    cases same
  · intro _
    refine .inr fun i old => ⟨_, p, isPerm, ?_⟩
    rw [vector] at old
    rw [values _ p (.inr isPerm)]
    exact old

/-- A star sets the bits that no permission has. -/
theorem star_sets_more : ∃ pdb c t perms, Loaded pdb ∧ hashtabSearch pdb.pClasses.table (ascii "file") = some c ∧
    hashtabSearch pdb.pTypes.table (ascii "kernel") = some t ∧ avtabSearch pdb.teAvtab (allowKey t t c) ≠
      none ∧ Lists c perms ∧
    ¬ StarExact pdb (ascii "kernel") (ascii "kernel") (ascii "file") (allowKey t t c) c false ⟨0, none⟩ perms := by
  obtain ⟨pdb, c, t, p, loaded, isClass, isType, rule, vector, order, isPerm, values⟩ := kernelRule_loaded
  refine ⟨pdb, c, t, _, loaded, isClass, isType, rule, order, ?_⟩
  rintro ⟨star, named, run, _, _, bits⟩
  obtain ⟨after, again, whole⟩ :=
    star_runs false ⟨0, none⟩ (loaded_consistent loaded).1.rules isClass isType isType rule
  rw [run] at again
  cases again
  have second : ¬ Has 1 1 := show ¬ (1 : UInt32).toBitVec.getLsbD 1 = true by decide
  rcases bits 1 ((whole 1).mpr ⟨rfl, by omega⟩) with old | ⟨p, is, has⟩
  · rw [vector] at old
    exact second old
  · rw [values (ascii "read") p (.inl is)] at has
    exact second has

end Samples

end Bxxt.Proofs
