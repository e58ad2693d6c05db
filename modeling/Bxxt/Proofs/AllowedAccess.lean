import Bxxt.Proofs.DisallowedAccess
import Bxxt.Proofs.StatementRuns

/-! What decisions allow behind an `allow`, and behind the statements that follow it. The rule is
stored for the two types themselves, and each of them is an attribute of its own. -/

namespace Bxxt.Proofs
open Bxxt ByteLayout MaskUnion ScanFormat TextScan TracedRun

/-- A rule for this very triple that allows all of the bits. Of the rules that a search may hit only
those of the one specifier `AVTAB_ALLOWED` are looked at by a decision. -/
def Grants (te : Avtab) (key : AvtabKey) (bits : UInt32) : Prop :=
  ∃ node ∈ te.chain key, key.rank = node.key.rank ∧ node.key.specified = avtabAllowed ∧
    Includes node.datum.data bits

/-- The frame of a statement that takes no permission away: the classes and the attributes of old
types stay, the types may become more, and what a rule grants is still granted. -/
structure Keeps (p q : Policydb) : Prop where
  classes : q.pClasses = p.pClasses
  nprim : p.pTypes.nprim.toNat ≤ q.pTypes.nprim.toNat
  attrs : ∀ i < p.pTypes.nprim.toNat, q.typeAttrMap i = p.typeAttrMap i
  rules : ∀ key bits, Grants p.teAvtab key bits → Grants q.teAvtab key bits

theorem Keeps.refl (p : Policydb) : Keeps p p := ⟨rfl, Nat.le_refl _, fun _ _ => rfl, fun _ _ => id⟩

theorem Keeps.trans {p q r : Policydb} (first : Keeps p q) (second : Keeps q r) : Keeps p r where
  classes := second.classes.trans first.classes
  nprim := Nat.le_trans first.nprim second.nprim
  attrs i below := (second.attrs i (Nat.lt_of_lt_of_le below first.nprim)).trans (first.attrs i below)
  rules key bits grants := second.rules key bits (first.rules key bits grants)

/-- What holds of a policy all along a run of statements: new types can be declared, and every type
is an attribute of its own. -/
structure Prepared (p : Policydb) : Prop where
  types : p.pTypes.table.WellFormed
  scope : p.scope.WellFormed
  unscoped : ∀ {key}, hashtabSearch p.pTypes.table key = none → hashtabSearch p.scope key = none
  declared : p.declared.WellFormed
  rules : p.teAvtab.WellFormed
  own : SelfAttributes p
  values : ∀ {key type}, hashtabSearch p.pTypes.table key = some type → type.primary ≠ 0 →
    type.value ≠ 0 ∧ type.value ≤ p.pTypes.nprim

theorem loaded_prepared {p : Policydb} (loaded : Loaded p) : Prepared p := by
  obtain ⟨consistent, own, _⟩ := loaded_consistent loaded
  refine ⟨consistent.types, consistent.scope, consistent.unscoped, consistent.declared, consistent.rules, own, ?_⟩
  intro key type found primary
  exact consistent.typeValues.range found (listedType_eq_some.mpr ⟨primary, rfl⟩)

section Steps
variable {p q : Policydb}

theorem create_keeps {domain : CString} (prepared : Prepared p) (room : p.pTypes.nprim.toNat ≤ Ebitmap.maxBit)
    {r : Int} (run : bxxtSepolCreateDomain p domain = .ok (r, q)) : Prepared q ∧ Keeps p q := by
  cases found : hashtabSearch p.pTypes.table domain with
  | some sd =>
    rw [bxxtSepolCreateDomain, found] at run
    cases run
    exact ⟨prepared, .refl p⟩
  | none =>
    have next := (value_toNat room).1
    obtain ⟨tableFormed, types⟩ := createdTable prepared.types found
    obtain ⟨scope, declared, _, _, _, scopeFormed, unscoped, declaredFormed, rfl⟩ :=
      create_lands prepared.types prepared.scope (prepared.unscoped found) prepared.declared room found run
    obtain ⟨own, attrs⟩ := @withType_attributes p domain prepared.own room scope declared
    refine ⟨⟨tableFormed, scopeFormed, ?_, declaredFormed, prepared.rules, own, ?_⟩, rfl, ?_,
      attrs, fun _ _ => id⟩
    · intro key absent
      have absent := (types key).symm.trans absent
      split at absent
      next => cases absent
      next other => exact (unscoped key other).trans (prepared.unscoped absent)
    · intro key type isType primary
      have isType := (types key).symm.trans isType
      change type.value ≠ 0 ∧ type.value ≤ p.pTypes.nprim + 1
      rw [ne_eq, ← UInt32.toNat_inj, UInt32.le_iff_toNat_le, next]
      split at isType
      next =>
        cases isType
        exact ⟨by change (p.pTypes.nprim + 1).toNat ≠ 0; omega, Nat.le_of_eq next⟩
      next =>
        obtain ⟨positive, inside⟩ := prepared.values isType primary
        rw [UInt32.le_iff_toNat_le] at inside
        exact ⟨fun zero => positive (UInt32.toNat_inj.mp zero), by omega⟩
    · change p.pTypes.nprim.toNat ≤ (p.pTypes.nprim + 1).toNat
      omega

theorem permissive_keeps {domain : CString} {on : Bool} (prepared : Prepared p)
    (room : p.pTypes.nprim.toNat ≤ Ebitmap.maxBit) {r : Int} (run : bxxtSepolSetPermissive p domain on = .ok (r, q)) :
    Prepared q ∧ Keeps p q := by
  rw [setPermissive_eq] at run
  obtain ⟨⟨created, between⟩, creates, done⟩ := Exec.bind_eq_ok.mp run
  obtain ⟨next, keeps⟩ := create_keeps prepared room creates
  cases done
  exact ⟨⟨next.types, next.scope, next.unscoped, next.declared, next.rules, next.own, next.values⟩,
    ⟨keeps.classes, keeps.nprim, keeps.attrs, keeps.rules⟩⟩

section Rules
variable {te after : Avtab} {k key : AvtabKey} {mask bits : UInt32} {malloc : AvtabDatum}

theorem includes_or {word : UInt32} (includes : Includes word bits) : Includes (word ||| mask) bits := by
  rw [includes_iff] at *
  exact fun i has => has_or.mpr (Or.inl (includes i has))

theorem insert_failed (failed : (avtabInsert te k malloc).1 ≠ 0) : (avtabInsert te k malloc).2 = te := by
  cases allocated : te.htable with
  | none => rw [avtabInsert, allocated]
  | some htable =>
    cases place : avtabPlace k (htable (avtabHash k te.mask)) with
    | none => simp only [avtabInsert, allocated, place]
    | some parts =>
      simp only [avtabInsert, allocated, place] at failed
      exact absurd rfl failed

theorem editRule_failed {disallow : Bool} {r : Int} (run : editRule te k disallow mask malloc = .ok (r, after))
    (failed : r ≠ bxxtSuccess) : after = te := by
  rw [editRule] at run
  split at run
  next =>
    cases run
    exact absurd rfl failed
  next =>
    dsimp only at run
    split at run
    next refused =>
      cases run
      exact insert_failed refused
    next =>
      split at run
      next =>
        cases run
        exact absurd rfl failed
      next => cases run

/-- More is allowed by the edited rule, and the same by the others. -/
theorem allow_keeps_rules (formed : te.WellFormed) (self : SelfHit k) {r : Int}
    (run : editRule te k false mask malloc = .ok (r, after)) :
    after.WellFormed ∧ ∀ key bits, Grants te key bits → Grants after key bits := by
  by_cases succeeded : r = bxxtSuccess
  · subst succeeded
    have edited := editRule_edited formed self run
    refine ⟨edited.formed, ?_⟩
    intro key bits ⟨node, member, rank, plain, includes⟩
    obtain ⟨front, back, _, _, before, chains⟩ := edited.chains
    rw [Grants, chains]
    split
    next same =>
      rw [chain_congr same] at member
      obtain shape | ⟨shape, _⟩ := before
      · rw [shape, List.mem_append, List.mem_cons] at member
        obtain inFront | rfl | behind := member
        · exact ⟨node, List.mem_append_left _ inFront, rank, plain, includes⟩
        · exact ⟨_, List.mem_append_right _ List.mem_cons_self, rank, plain, includes_or includes⟩
        · exact ⟨node, List.mem_append_right _ (List.mem_cons_of_mem _ behind), rank, plain, includes⟩
      · rw [shape, List.mem_append] at member
        obtain inFront | behind := member
        · exact ⟨node, List.mem_append_left _ inFront, rank, plain, includes⟩
        · exact ⟨node, List.mem_append_right _ (List.mem_cons_of_mem _ behind), rank, plain, includes⟩
    next => exact ⟨node, member, rank, plain, includes⟩
  · cases editRule_failed run succeeded
    exact ⟨formed, fun _ _ => id⟩

/-- The rule that is edited is one that decisions look at, unless it has another specifier. -/
theorem allow_grants (formed : te.WellFormed) (allowed : k.specified = avtabAllowed)
    (plain : ∀ node, avtabSearch te k = some node → node.key.specified = avtabAllowed)
    (run : editRule te k false mask malloc = .ok (bxxtSuccess, after)) (covered : Includes mask bits) :
    Grants after k bits := by
  have self : SelfHit k := by
    rw [SelfHit, AvtabKey.specifiedBits, allowed]
    decide
  have edited := editRule_edited formed self run
  obtain ⟨front, back, _, hits, _, chains⟩ := edited.chains
  have rank := sameTriple_iff.mp (Bool.and_eq_true_iff.mp hits).1
  rw [Grants, chains, if_pos rfl]
  refine ⟨_, List.mem_append_right _ List.mem_cons_self, rank, ?_, ?_⟩
  · cases found : avtabSearch te k with
    | none => exact (congrArg AvtabKey.specified (Avtab.newnode_key k malloc)).trans allowed
    | some node => exact plain node found
  · rw [includes_iff] at *
    exact fun i has => has_or.mpr (Or.inr (covered i has))

end Rules

theorem allowExt_keeps {src tgt cls perm : CString} {malloc : AvtabDatum} (prepared : Prepared p) {r : Int}
    (run : bxxtSepolAllowExt p src tgt cls perm false malloc = .ok (r, q)) : Prepared q ∧ Keeps p q := by
  obtain rfl | ⟨teAvtab, k, mask, self, edit, rfl⟩ := allowExt_frame run
  · exact ⟨prepared, .refl q⟩
  · obtain ⟨formed, kept⟩ := allow_keeps_rules prepared.rules self edit
    exact ⟨⟨prepared.types, prepared.scope, prepared.unscoped, prepared.declared, formed, prepared.own,
      prepared.values⟩,
      ⟨rfl, Nat.le_refl _, fun _ _ => rfl, kept⟩⟩

/-- A statement that is no `disallow`, in a policy with room for a type. -/
theorem statement_keeps {hyphen : Bool} {event : Event} {form : Form} {names : List Bytes} (prepared : Prepared p)
    (room : p.pTypes.nprim.toNat ≤ Ebitmap.maxBit) (documented : Documented form names event.text)
    (other : form ≠ .disallow) (run : Executes hyphen p event q) : Prepared q ∧ Keeps p q := by
  have returns := form_returns (run_of_execute (documented_starts documented) run)
  generalize scan (form.format hyphen) event.text = fields at returns
  generalize event.result = result at returns
  cases returns with
  | refused => exact ⟨prepared, .refl p⟩
  | rule _ run =>
    rw [decide_eq_false other] at run
    exact allowExt_keeps prepared run
  | permissive _ run => exact permissive_keeps prepared room run
  | create run => exact create_keeps prepared room run

end Steps
section Runs
variable {hyphen : Bool} {p q : Policydb} {src tgt cls : CString} {perm : Bytes} {s t : TypeDatum}
  {c : ClassDatum} {pd : PermDatum}

/-- What a decision takes from a rule for two types that are attributes of their own. -/
theorem decides_granted (prepared : Prepared q) (classes : q.pClasses = p.pClasses)
    (below : (s.value - 1).toNat < q.pTypes.nprim.toNat) (below' : (t.value - 1).toNat < q.pTypes.nprim.toNat)
    (positive : s.value ≠ 0) (positive' : t.value ≠ 0)
    (known : c.value.toUInt16 ≠ 0 ∧ c.value.toUInt16.toUInt32 ≤ p.pClasses.nprim) {bits : UInt32}
    (grants : Grants q.teAvtab (allowKey s t c) bits) :
    ∃ avd, contextStructComputeAv q s.value t.value c.value.toUInt16 = .ok (some avd) ∧
      Includes avd.allowed bits := by
  obtain ⟨sattr, source, sourceFormed, own⟩ := prepared.own _ below
  obtain ⟨tattr, target, targetFormed, own'⟩ := prepared.own _ below'
  obtain ⟨avd, computed, decided⟩ := compute_allowed (classes ▸ known) source target
  obtain ⟨node, member, rank, plain, includes⟩ := grants
  have word (value : UInt32) (nonzero : value ≠ 0) : UInt16.ofNat ((value - 1).toNat + 1) = value.toUInt16 := by
    rw [slot_toNat nonzero]
    exact UInt16.ofNat_uInt32ToNat _
  have key : (avKey c.value.toUInt16 (s.value - 1).toNat (t.value - 1).toNat).rank = (allowKey s t c).rank := by
    rw [avKey, word _ positive, word _ positive']
    rfl
  have visited : node ∈ avtabSearchNodes q.teAvtab
      (avKey c.value.toUInt16 (s.value - 1).toNat (t.value - 1).toNat) := by
    rw [Avtab.searchNodes_eq prepared.rules, List.mem_filter, chain_congr (avtabHash_eq_of_rank key _), AvtabKey.hits,
      Bool.and_eq_true, sameTriple_iff]
    refine ⟨member, key.trans rank, ?_⟩
    have bits : (avKey c.value.toUInt16 (s.value - 1).toNat (t.value - 1).toNat).specifiedBits =
      avtabAv &&& ~~~avtabEnabled := rfl
    rw [bits, plain]
    decide
  refine ⟨avd, computed, ?_⟩
  apply decision_includes decided ((Ebitmap.mem_positiveBits sourceFormed).mpr own)
    ((Ebitmap.mem_positiveBits targetFormed).mpr own')
  exact pairAllows_includes visited plain includes

/-- A policy with room for a type, and of an `allow`: the permission is read to its end, the class has
a number of 16 bits, and the rule that is there already is one that decisions look at. -/
structure Effective (hyphen : Bool) (taken : Step Policydb Event) : Prop where
  room : taken.before.pTypes.nprim.toNat ≤ Ebitmap.maxBit
  whole : ∀ src tgt cls perm, Documented .allow [src, tgt, cls, perm] taken.event.text →
    ∀ char ∈ perm, permSet hyphen char = true
  narrow : ∀ src tgt cls perm c, Documented .allow [src, tgt, cls, perm] taken.event.text →
    hashtabSearch taken.before.pClasses.table cls = some c → c.value.toUInt16 ≠ 0
  plain : ∀ src tgt cls perm s t c node, Documented .allow [src, tgt, cls, perm] taken.event.text →
    hashtabSearch taken.before.pTypes.table src = some s → hashtabSearch taken.before.pTypes.table tgt = some t →
    hashtabSearch taken.before.pClasses.table cls = some c →
    avtabSearch taken.before.teAvtab (allowKey s t c) = some node → node.key.specified = avtabAllowed

theorem run_keeps {trace : List (Step Policydb Event)} (prepared : Prepared p) (run : Run (Executes hyphen) p trace q)
    (statements : ∀ taken ∈ trace, ∃ form names, form ≠ .disallow ∧ Documented form names taken.event.text)
    (room : ∀ taken ∈ trace, taken.before.pTypes.nprim.toNat ≤ Ebitmap.maxBit) : Prepared q ∧ Keeps p q := by
  induction run with
  | nil => exact ⟨prepared, .refl _⟩
  | cons step rest ih =>
    obtain ⟨⟨form, names, other, documented⟩, statements⟩ := List.forall_mem_cons.mp statements
    obtain ⟨here, room⟩ := List.forall_mem_cons.mp room
    obtain ⟨next, kept⟩ := statement_keeps prepared here documented other step
    obtain ⟨last, later⟩ := ih next statements room
    exact ⟨last, kept.trans later⟩

theorem allow_step {event : Event} (prepared : Prepared p)
    (documented : Documented .allow [src, tgt, cls, perm] event.text)
    (whole : ∀ char ∈ perm, permSet hyphen char = true) (run : Executes hyphen p event q)
    (succeeded : event.result = bxxtSuccess)
    (isClass : hashtabSearch p.pClasses.table cls = some c) (isSource : hashtabSearch p.pTypes.table src = some s)
    (isTarget : hashtabSearch p.pTypes.table tgt = some t) (isPerm : findPerm c perm = some pd)
    (plain : ∀ node, avtabSearch p.teAvtab (allowKey s t c) = some node → node.key.specified = avtabAllowed) :
    Grants q.teAvtab (allowKey s t c) (permBit pd.value) := by
  have scanned : scan (Form.allow.format hyphen) event.text = [src, tgt, cls, perm] := by
    obtain ⟨front, last, shape, fits, scanned⟩ := @documented_scan hyphen _ _ _ documented
    obtain ⟨rfl, last_eq⟩ := @List.append_inj' _ [src, tgt, cls] _ _ _ shape rfl
    cases last_eq
    have read : List.takeWhile (Form.allow.lastSet hyphen) perm = perm := List.takeWhile_eq_self_iff.mpr whole
    split at scanned
    next =>
      rw [scanned, read]
      rfl
    next =>
      have refused := execute_short (documented_starts documented) scanned fits p event.malloc
      rw [Executes, refused] at run
      cases succeeded.symm.trans (Prod.mk.inj (Except.ok.inj run)).1.symm
  have ran := run_of_execute (documented_starts documented) run
  rw [scanned, succeeded] at ran
  obtain ⟨teAvtab, rfl, edit⟩ := allowExt_edited isClass isSource isTarget isPerm ran
  exact allow_grants prepared.rules rfl plain edit (covered_mask _ _)

theorem classRead_filled {commons : Hashtab CString CommonDatum} {h after : Hashtab CString ClassDatum}
    {record : ClassRecord} (filled : Filled (fun _ => True) h) (read : classRead commons h record = some after) :
    Filled (fun _ => True) after := by
  simp only [classRead, Option.bind_eq_bind, Option.bind_eq_some_iff] at read
  obtain ⟨_, _, _, _, inserted⟩ := read
  exact insertSymbol_filled filled trivial inserted

theorem classes_indexed {tables : Policydb} (done : policydbIndexClasses tables = .ok 0) :
    ∃ names, indexTable (classIndex tables) tables.pClasses.table = .ok (0, names) := by
  obtain ⟨⟨rc, _⟩, _, done⟩ := Exec.bind_eq_ok.mp done
  dsimp only at done
  split at done
  next => cases done
  next =>
    obtain ⟨⟨rc, names⟩, indexed, done⟩ := Exec.bind_eq_ok.mp done
    dsimp only at done
    split at done
    next => cases done
    next passed =>
      rw [not_not.mp passed] at indexed
      exact ⟨names, indexed⟩

/-- The classes that were read have the values of the policy. -/
theorem loaded_classes (loaded : Loaded p) (isClass : hashtabSearch p.pClasses.table cls = some c) :
    c.value ≤ p.pClasses.nprim := by
  obtain ⟨image, tables, indexed, tablesRead, classes, done, read⟩ := loaded_stages loaded
  obtain ⟨_, _, _, _, _, _, _, _, _, _, rfl⟩ := indexOthers_iff.mp done
  obtain ⟨⟨_, _, rfl⟩, _⟩ := readTypeMaps_spec range_small read
  obtain ⟨names, classesIndexed⟩ := classes_indexed classes
  have indexes : Indexes (classIndex tables) (fun datum => some datum.value) tables.pClasses.nprim := fun _ _ _ => rfl
  simp only [readTables, Option.bind_eq_bind, Option.bind_eq_some_iff, Option.some.injEq] at tablesRead
  obtain ⟨_, _, _, _, pClasses, classesRead, _, _, _, _, _, _, _, _, _, _, _, _, _, _, rfl⟩ := tablesRead
  have formed : pClasses.table.WellFormed :=
    (readSection_filled classRead_filled (symtabInit_filled (by decide)) classesRead).1
  exact ((indexable_of_indexTable formed indexes classesIndexed).range isClass rfl).2

/-- In a run of effective statements without a `disallow`, what an `allow` grants is in every decision behind it. -/
theorem allow_reaches_decisions (hyphen : Bool) (loaded : Loaded p) {trace : List (Step Policydb Event)}
    (run : Run (Executes hyphen) p trace q)
    (statements : ∀ taken ∈ trace, ∃ form names, form ≠ .disallow ∧ Documented form names taken.event.text)
    (effective : ∀ taken ∈ trace, Effective hyphen taken) :
    ∀ front taken back (src tgt cls : CString) (perm : Bytes) s t c pd, trace = front ++ taken :: back →
      Documented .allow [src, tgt, cls, perm] taken.event.text → taken.event.result = bxxtSuccess →
      hashtabSearch taken.before.pTypes.table src = some s → hashtabSearch taken.before.pTypes.table tgt = some t →
      hashtabSearch taken.before.pClasses.table cls = some c → findPerm c perm = some pd →
        RegularType s → RegularType t →
      ∃ avd, contextStructComputeAv q s.value t.value c.value.toUInt16 = .ok (some avd) ∧
        Includes avd.allowed (permBit pd.value) := by
  rintro front taken back src tgt cls perm s t c pd rfl documented succeeded isSource isTarget isClass
    isPerm regular regular'
  obtain ⟨before, step, behind⟩ := run.at_step
  have member : taken ∈ front ++ taken :: back := List.mem_append_right _ List.mem_cons_self
  have here := effective taken member
  obtain ⟨preparedBefore, keptBefore⟩ := run_keeps (loaded_prepared loaded) before
    (fun other inFront => statements other (List.mem_append_left _ inFront))
    (fun other inFront => (effective other (List.mem_append_left _ inFront)).room)
  obtain ⟨form, names, other, shape⟩ := statements taken member
  obtain ⟨preparedAfter, keptStep⟩ := statement_keeps preparedBefore here.room shape other step
  obtain ⟨preparedLast, keptBehind⟩ := run_keeps preparedAfter behind
    (fun other inBack => statements other (List.mem_append_right _ (List.mem_cons_of_mem _ inBack)))
    (fun other inBack => (effective other (List.mem_append_right _ (List.mem_cons_of_mem _ inBack))).room)
  have kept := keptStep.trans keptBehind
  have grants := keptBehind.rules _ _ (allow_step preparedBefore documented (here.whole _ _ _ _ documented)
    step succeeded isClass
    isSource isTarget isPerm fun node => here.plain _ _ _ _ s t c node documented isSource isTarget isClass)
  obtain ⟨positive, inside⟩ := preparedBefore.values isSource regular.primary
  obtain ⟨positive', inside'⟩ := preparedBefore.values isTarget regular'.primary
  have slot := slot_toNat positive
  have slot' := slot_toNat positive'
  have more := kept.nprim
  rw [UInt32.le_iff_toNat_le] at inside inside'
  rw [keptBefore.classes] at isClass
  have known := loaded_classes loaded isClass
  have narrow : c.value.toUInt16.toUInt32 ≤ c.value := by
    rw [UInt32.le_iff_toNat_le, UInt16.toNat_toUInt32, UInt32.toNat_toUInt16]
    exact Nat.mod_le _ _
  exact decides_granted preparedLast (kept.classes.trans keptBefore.classes) (by omega) (by omega) positive positive'
    ⟨here.narrow _ _ _ _ c documented (keptBefore.classes ▸ isClass), UInt32.le_trans narrow known⟩ grants

end Runs
section ReadRule

/-- A text that is no longer than the names that are read of it is a statement with these names only. -/
theorem documented_tight {hyphen : Bool} {form : Form} {src tgt cls perm src' tgt' cls' perm' : Bytes} {text : Bytes}
    (documented : Documented form [src, tgt, cls, perm] text)
    (scanned : scan (form.format hyphen) text = [src', tgt', cls', perm'])
    (tight : text.length ≤ (ascii form.keyword).length + src'.length + tgt'.length + cls'.length + perm'.length + 4) :
    src = src' ∧ tgt = tgt' ∧ cls = cls' ∧ perm = perm' := by
  obtain ⟨front, last, shape, _, read⟩ := @documented_scan hyphen _ _ _ documented
  obtain ⟨rfl, last_eq⟩ := @List.append_inj' _ [src, tgt, cls] _ _ _ shape rfl
  cases last_eq
  rw [scanned] at read
  split at read
  next =>
    simp only [List.cons_append, List.nil_append, List.cons.injEq, and_true] at read
    obtain ⟨rfl, rfl, rfl, rfl⟩ := read
    refine ⟨rfl, rfl, rfl, ?_⟩
    cases documented with
    | @rule _ _ _ _ gap between last stop _ first _ second _ _ third _ ends =>
      have gapLength := List.length_pos_of_ne_nil first.1
      have betweenLength := List.length_pos_of_ne_nil second.1
      have lastLength := List.length_pos_of_ne_nil third.1
      simp only [List.length_append, List.length_cons] at tight
      have pre := List.takeWhile_prefix (form.lastSet hyphen) (l := perm)
      exact (pre.eq_of_length_le (by omega)).symm
  next =>
    rw [fieldCount_format] at read
    split at read
    · exact absurd read (by simp)
    · exact absurd read (by simp)

/-- Two types and a class whose second permission begins with the name of the first. -/
def readImage : PolicyImage :=
  smallImage [⟨ascii "file", [], 1, 2, [⟨ascii "read", 1⟩, ⟨ascii "read0", 2⟩]⟩]
    [⟨ascii "init", 1, 1⟩, ⟨ascii "kernel", 2, 1⟩] [(⟨2, 2, 1, avtabAllowed⟩, ⟨1, none⟩)]

def allowText (perm : Bytes) : CString := ascii "allow init kernel:file " ++ perm

def allowedRead (perm : Bytes) (grants : Bool) (pdb : Policydb) : Bool :=
  (hashtabSearch pdb.pClasses.table (ascii "file")).any fun c =>
    (hashtabSearch pdb.pTypes.table (ascii "init")).any fun s =>
      (hashtabSearch pdb.pTypes.table (ascii "kernel")).any fun t =>
        (findPerm c perm).any fun p =>
          (s.primary != 0 && s.flavor != typeAttrib) && (t.primary != 0 && t.flavor != typeAttrib) &&
            (decide (pdb.pTypes.nprim.toNat ≤ Ebitmap.maxBit) && c.value == 1 &&
              (avtabSearch pdb.teAvtab (allowKey s t c)).isNone) &&
            passes (bxxtSepolExecuteStmt false pdb (allowText perm) ⟨0, none⟩) fun result =>
              result.1 == bxxtSuccess &&
                passes (contextStructComputeAv result.2 s.value t.value c.value.toUInt16) fun decision =>
                  decision.any fun avd => (avd.allowed &&& permBit p.value == permBit p.value) == grants

structure AllowedRead (perm : Bytes) (grants : Bool) (p : Policydb) (c : ClassDatum) (s t : TypeDatum) (pd : PermDatum)
    (q : Policydb) : Prop where
  isClass : hashtabSearch p.pClasses.table (ascii "file") = some c
  isSource : hashtabSearch p.pTypes.table (ascii "init") = some s
  isTarget : hashtabSearch p.pTypes.table (ascii "kernel") = some t
  isPerm : findPerm c perm = some pd
  regular : RegularType s ∧ RegularType t
  small : p.pTypes.nprim.toNat ≤ Ebitmap.maxBit ∧ c.value = 1
  fresh : avtabSearch p.teAvtab (allowKey s t c) = none
  run : bxxtSepolExecuteStmt false p (allowText perm) ⟨0, none⟩ = .ok (bxxtSuccess, q)
  decided : ∃ avd, contextStructComputeAv q s.value t.value c.value.toUInt16 = .ok (some avd) ∧
    (avd.allowed &&& permBit pd.value == permBit pd.value) = grants

theorem allowedRead_run {perm : Bytes} {grants : Bool} {p : Policydb} (tested : allowedRead perm grants p = true) :
    ∃ c s t pd q, AllowedRead perm grants p c s t pd q := by
  simp only [allowedRead, Option.any_eq_true, passes_iff, Bool.and_eq_true, beq_iff_eq (α := UInt32),
    beq_iff_eq (α := Int), beq_iff_eq (α := Bool), bne_iff_ne, Option.isNone_iff_eq_none, decide_eq_true_eq] at tested
  obtain ⟨c, isClass, s, isSource, t, isTarget, pd, isPerm,
    ⟨⟨⟨primary, flavor⟩, primary', flavor'⟩, ⟨room, one⟩, fresh⟩,
    ⟨r, q⟩, run, rfl, _, computed, avd, rfl, has⟩ := tested
  exact ⟨c, s, t, pd, q, isClass, isSource, isTarget, isPerm, ⟨⟨primary, flavor⟩, ⟨primary', flavor'⟩⟩,
    ⟨room, one⟩, fresh, run,
    avd, computed, has⟩

theorem allowText_documented {perm : Bytes} (word : Identifier perm) :
    Documented .allow [ascii "init", ascii "kernel", ascii "file", perm] (allowText perm) := by
  have gap : Gap [32] := ⟨by simp, by simp [isSpace]⟩
  have shape : allowText perm = ascii "allow" ++ ([32] ++ (ascii "init" ++ ([32] ++ (ascii "kernel" ++ 58 ::
      (ascii "file" ++ ([32] ++ (perm ++ []))))))) := by
    rw [List.append_nil]
    rfl
  rw [shape]
  have init : Identifier (ascii "init") := .of_all (by decide) (by decide) (by decide)
  have kernel : Identifier (ascii "kernel") := .of_all (by decide) (by decide) (by decide)
  have file : Identifier (ascii "file") := .of_all (by decide) (by decide) (by decide)
  exact .rule rfl gap init gap kernel file gap (Or.inl word) (Or.inl rfl)

theorem AllowedRead.effective {p q : Policydb} {c : ClassDatum} {s t : TypeDatum} {pd : PermDatum}
    (case : AllowedRead (ascii "read") true p c s t pd q) :
    Effective false ⟨p, ⟨allowText (ascii "read"), ⟨0, none⟩, bxxtSuccess⟩, q⟩ := by
  have names {src tgt cls perm : Bytes} (again : Documented .allow [src, tgt, cls, perm] (allowText (ascii "read"))) :
      src = ascii "init" ∧ tgt = ascii "kernel" ∧ cls = ascii "file" ∧ perm = ascii "read" :=
    @documented_tight false _ _ _ _ _ _ _ _ _ _ again rfl (by decide)
  constructor
  case room => exact case.small.1
  case whole =>
    intro src tgt cls perm again
    rw [(names again).2.2.2]
    exact List.all_eq_true.mp (by decide)
  case narrow =>
    intro src tgt cls perm c' again isClass
    rw [(names again).2.2.1] at isClass
    cases case.isClass.symm.trans isClass
    rw [case.small.2]
    decide
  case plain =>
    intro src tgt cls perm s' t' c' node again isSource isTarget isClass found
    obtain ⟨rfl, rfl, rfl, rfl⟩ := names again
    cases case.isClass.symm.trans isClass
    cases case.isSource.symm.trans isSource
    cases case.isTarget.symm.trans isTarget
    cases case.fresh.symm.trans found

theorem effective_other {hyphen : Bool} {taken : Step Policydb Event} {form : Form}
    (starts : List.head? taken.event.text = (ascii form.keyword).head?) (other : form ≠ .allow)
    (room : taken.before.pTypes.nprim.toNat ≤ Ebitmap.maxBit) : Effective hyphen taken where
  room := room
  whole := fun _ _ _ _ documented => absurd (documented_form documented starts).symm other
  narrow := fun _ _ _ _ _ documented => absurd (documented_form documented starts).symm other
  plain := fun _ _ _ _ _ _ _ _ documented => absurd (documented_form documented starts).symm other

def allowsBetween (p : Policydb) : Bool :=
  decide (p.pTypes.nprim.toNat ≤ Ebitmap.maxBit) &&
    passes (bxxtSepolExecuteStmt false p (ascii "create bxxt") ⟨0, none⟩) fun created =>
      allowedRead (ascii "read") true created.2 &&
        passes (bxxtSepolExecuteStmt false created.2 (allowText (ascii "read")) ⟨0, none⟩) fun allowed =>
          decide (allowed.2.pTypes.nprim.toNat ≤ Ebitmap.maxBit) &&
            passes (bxxtSepolExecuteStmt false allowed.2 (ascii "enforce bxxt") ⟨0, none⟩) fun _ => true

/-- A new rule is in the decisions, also behind the statements that follow. -/
theorem allowed_read_is_decided : ∃ p created allowed q first third s t c pd avd, Loaded p ∧
    Run (Executes false) p [⟨p, ⟨ascii "create bxxt", ⟨0, none⟩, first⟩, created⟩,
      ⟨created, ⟨allowText (ascii "read"), ⟨0, none⟩, bxxtSuccess⟩, allowed⟩,
      ⟨allowed, ⟨ascii "enforce bxxt", ⟨0, none⟩, third⟩, q⟩] q ∧
    hashtabSearch created.pTypes.table (ascii "init") = some s ∧
      hashtabSearch created.pTypes.table (ascii "kernel") = some t ∧
    hashtabSearch created.pClasses.table (ascii "file") = some c ∧ findPerm c (ascii "read") = some pd ∧
    contextStructComputeAv q s.value t.value c.value.toUInt16 = .ok (some avd) ∧
      Includes avd.allowed (permBit pd.value) := by
  obtain ⟨p, loaded, tested⟩ := @loaded_of_readsTo readImage allowsBetween (by decide +kernel)
  simp only [allowsBetween, passes_iff, Bool.and_eq_true, decide_eq_true_eq] at tested
  obtain ⟨room, ⟨first, created⟩, creates, reads, ⟨second, allowed⟩, allows, roomBehind, ⟨third, q⟩,
    enforces, -⟩ := tested
  obtain ⟨c, s, t, pd, between, case⟩ := allowedRead_run reads
  obtain ⟨rfl, rfl⟩ := Prod.mk.inj (Except.ok.inj (case.run.symm.trans allows))
  have isBxxt : Identifier (ascii "bxxt") := .of_all (by decide) (by decide) (by decide)
  have documented := @allowText_documented (ascii "read") (.of_all (by decide) (by decide) (by decide))
  have trace : Run (Executes false) p [⟨p, ⟨ascii "create bxxt", ⟨0, none⟩, first⟩, created⟩,
      ⟨created, ⟨allowText (ascii "read"), ⟨0, none⟩, bxxtSuccess⟩, between⟩,
      ⟨between, ⟨ascii "enforce bxxt", ⟨0, none⟩, third⟩, q⟩] q :=
        .cons creates (.cons case.run (.cons enforces .nil))
  have decisions := allow_reaches_decisions false loaded trace (by
    simp only [List.forall_mem_cons, List.not_mem_nil, false_implies, implies_true, and_true]
    exact ⟨⟨.create, _, by decide, single_documented rfl isBxxt⟩, ⟨.allow, _, by decide, documented⟩,
      ⟨.enforce, _, by decide, single_documented rfl isBxxt⟩⟩) (by
    simp only [List.forall_mem_cons, List.not_mem_nil, false_implies, implies_true, and_true]
    exact ⟨@effective_other _ _ .create rfl (by decide) room, case.effective,
      @effective_other _ _ .enforce rfl (by decide) roomBehind⟩)
  obtain ⟨avd, computed, includes⟩ := decisions [_] _ [_] _ _ _ _ s t c pd rfl documented rfl
    case.isSource case.isTarget
    case.isClass case.isPerm case.regular.1 case.regular.2
  exact ⟨p, created, between, q, first, third, s, t, c, pd, avd, loaded, trace, case.isSource, case.isTarget,
    case.isClass, case.isPerm,
    computed, includes⟩

/-- An `allow` that succeeds, of a permission that no decision has behind it. -/
theorem allowed_read0_is_not_decided : ∃ p q text s t c pd avd, Loaded p ∧
    Documented .allow [ascii "init", ascii "kernel", ascii "file", ascii "read0"] text ∧
    Run (Executes false) p [⟨p, ⟨text, ⟨0, none⟩, bxxtSuccess⟩, q⟩] q ∧
    hashtabSearch p.pTypes.table (ascii "init") = some s ∧ hashtabSearch p.pTypes.table (ascii "kernel") = some t ∧
    hashtabSearch p.pClasses.table (ascii "file") = some c ∧ findPerm c (ascii "read0") = some pd ∧
    RegularType s ∧ RegularType t ∧
    contextStructComputeAv q s.value t.value c.value.toUInt16 = .ok (some avd) ∧
      ¬ Includes avd.allowed (permBit pd.value) := by
  obtain ⟨p, loaded, tested⟩ := @loaded_of_readsTo readImage (allowedRead (ascii "read0") false) (by decide +kernel)
  obtain ⟨c, s, t, pd, q, case⟩ := allowedRead_run tested
  have run : Executes false p ⟨allowText (ascii "read0"), ⟨0, none⟩, bxxtSuccess⟩ q := case.run
  obtain ⟨avd, computed, lacks⟩ := case.decided
  exact ⟨p, q, _, s, t, c, pd, avd, loaded, allowText_documented (.of_all (by decide) (by decide) (by decide)),
    .cons run .nil, case.isSource, case.isTarget, case.isClass, case.isPerm, case.regular.1, case.regular.2, computed,
    beq_eq_false_iff_ne.mp lacks⟩

end ReadRule
end Bxxt.Proofs
