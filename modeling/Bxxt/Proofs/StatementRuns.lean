import Bxxt.Lib.TracedRun
import Bxxt.Proofs.StatementNames

/-! What any statement can do to a policy, however it ends, and what a run of statements does
to the permissive domains. -/

namespace Bxxt.Proofs
open Bxxt ByteLayout ScanFormat TracedRun

section Frames
variable {p q : Policydb} {domain : CString}

/-- The index is about arrays and roles, whatever comes of it. -/
theorem indexOthers_frame {rc : Int} (done : policydbIndexOthers p = .ok (rc, q)) :
    ∃ roleValToStruct typeValToStruct pRoles, q = { p with roleValToStruct, typeValToStruct, pRoles } := by
  have stop {failed : Int} {q' : Policydb} {next : Exec (Int × Policydb)} {cond : Prop} [Decidable cond]
      (either : (if cond then return (failed, q') else next) = (.ok (rc, q) : Exec (Int × Policydb)))
      (shape : ∃ roleValToStruct typeValToStruct pRoles, q' = { p with roleValToStruct, typeValToStruct, pRoles })
      (later : next = .ok (rc, q) → ∃ roleValToStruct typeValToStruct pRoles,
        q = { p with roleValToStruct, typeValToStruct, pRoles }) :
      ∃ roleValToStruct typeValToStruct pRoles, q = { p with roleValToStruct, typeValToStruct, pRoles } := by
    split at either
    next => cases either; exact shape
    next => exact later either
  rw [policydbIndexOthers] at done
  obtain ⟨⟨_, roles⟩, _, done⟩ := Exec.bind_eq_ok.mp done
  refine stop done ⟨_, _, _, rfl⟩ fun done => ?_
  obtain ⟨⟨_, types⟩, _, done⟩ := Exec.bind_eq_ok.mp done
  refine stop done ⟨_, _, _, rfl⟩ fun done => ?_
  obtain ⟨⟨_, users⟩, _, done⟩ := Exec.bind_eq_ok.mp done
  refine stop done ⟨_, _, _, rfl⟩ fun done => ?_
  obtain ⟨⟨_, bools⟩, _, done⟩ := Exec.bind_eq_ok.mp done
  refine stop done ⟨_, _, _, rfl⟩ fun done => ?_
  obtain ⟨⟨_, levels⟩, _, done⟩ := Exec.bind_eq_ok.mp done
  refine stop done ⟨_, _, _, rfl⟩ fun done => ?_
  obtain ⟨⟨_, cats⟩, _, done⟩ := Exec.bind_eq_ok.mp done
  refine stop done ⟨_, _, _, rfl⟩ fun done => ?_
  obtain ⟨⟨_, table⟩, _, done⟩ := Exec.bind_eq_ok.mp done
  cases done
  exact ⟨_, _, _, rfl⟩

inductive CreateReturns (p : Policydb) (domain : CString) : Int → Policydb → Prop
  | known {sd} (found : hashtabSearch p.pTypes.table domain = some sd) : CreateReturns p domain (asInt sd.value.toNat) p
  | failed {types scope declared} (fresh : hashtabSearch p.pTypes.table domain = none)
      (formed : types.table.WellFormed) :
      CreateReturns p domain bxxtFailed { p with pTypes := types, scope, declared }
  | created {scope declared roleValToStruct typeValToStruct pRoles} (fresh : hashtabSearch p.pTypes.table domain = none)
      (room : (p.pTypes.nprim + 1 - 1).toNat ≤ Ebitmap.maxBit) :
      CreateReturns p domain (asInt (p.pTypes.nprim + 1).toNat)
        { withType p domain scope declared with roleValToStruct, typeValToStruct, pRoles }

/-- A new type is declared in its scope and in the declarations, or the creation stops there. -/
theorem create_parts (formed : p.pTypes.table.WellFormed) (fresh : hashtabSearch p.pTypes.table domain = none) {r : Int}
    (run : bxxtSepolCreateDomain p domain = .ok (r, q)) :
    (((insertScope p.scope domain scopeDecl 1).1 ≠ 0 ∨
      (ebitmapSetBit p.declared (p.pTypes.nprim + 1 - 1) true).1 ≠ 0) ∧
        r = bxxtFailed ∧ ∃ types scope declared, types.table.WellFormed ∧ types.nprim = p.pTypes.nprim + 1 ∧
          q = { p with pTypes := types, scope, declared }) ∨
      ((insertScope p.scope domain scopeDecl 1).1 = 0 ∧
        (ebitmapSetBit p.declared (p.pTypes.nprim + 1 - 1) true).1 = 0 ∧
        r = asInt (p.pTypes.nprim + 1).toNat ∧ ∃ roleValToStruct typeValToStruct pRoles,
          q = { withType p domain (insertScope p.scope domain scopeDecl 1).2
            (ebitmapSetBit p.declared (p.pTypes.nprim + 1 - 1) true).2 with
              roleValToStruct, typeValToStruct, pRoles }) := by
  have linked : (p.pTypes.table.linked domain newType).WellFormed := Hashtab.linked_wellFormed formed fresh
  obtain ⟨tableFormed, types⟩ := createdTable formed fresh
  have inserted : symtabInsert p domain newType scopeDecl 1 0 =
    ((insertScope p.scope domain scopeDecl 1).1, p.pTypes.nprim + 1,
      { p with
        pTypes := ⟨p.pTypes.table.linked domain newType, p.pTypes.nprim + 1⟩
        scope := (insertScope p.scope domain scopeDecl 1).2 }) := by
    rw [symtabInsert, Hashtab.insert_fresh fresh]
    rfl
  rw [bxxtSepolCreateDomain, fresh] at run
  dsimp only at run
  rw [inserted] at run
  dsimp only at run
  split at run
  next unscoped =>
    cases run
    exact Or.inl ⟨Or.inl unscoped, rfl, ⟨_, _⟩, _, _, linked, rfl, rfl⟩
  next inScope =>
    split at run
    next undeclared =>
      cases run
      exact Or.inl ⟨Or.inr undeclared, rfl, ⟨_, _⟩, _, _, tableFormed, rfl, rfl⟩
    next declared =>
      obtain ⟨roles, _, run⟩ := Exec.bind_eq_ok.mp run
      split at run
      next absent => exact absurd ((types domain).symm.trans absent) (by simp)
      next =>
        obtain ⟨⟨rc, indexed⟩, done, run⟩ := Exec.bind_eq_ok.mp run
        obtain ⟨_, _, _, rfl⟩ := indexOthers_frame done
        dsimp only at run
        split at run
        next absent => exact absurd ((types domain).symm.trans absent) (by simp)
        next attr named =>
          have same := (types domain).symm.trans named
          rw [if_pos rfl] at same
          cases same
          cases run
          exact Or.inr ⟨not_not.mp inScope, not_not.mp declared, rfl, _, _, _, rfl⟩

/-- Where there is a value left, the new type is there. -/
theorem create_lands (formed : p.pTypes.table.WellFormed) (scopes : p.scope.WellFormed)
    (unscoped : hashtabSearch p.scope domain = none) (declarations : p.declared.WellFormed)
    (room : p.pTypes.nprim.toNat ≤ Ebitmap.maxBit) (fresh : hashtabSearch p.pTypes.table domain = none) {r : Int}
    (run : bxxtSepolCreateDomain p domain = .ok (r, q)) :
    ∃ scope declared roleValToStruct typeValToStruct pRoles, scope.WellFormed ∧
      (∀ other, other ≠ domain → hashtabSearch scope other = hashtabSearch p.scope other) ∧
        declared.WellFormed ∧
      q = { withType p domain scope declared with roleValToStruct, typeValToStruct, pRoles } := by
  obtain ⟨scope, inserted, scopeFormed, others⟩ := insertScope_fresh scopes unscoped
  obtain ⟨declared, declares, declaredFormed, _⟩ := @Ebitmap.setBit_spec _ declarations (p.pTypes.nprim + 1 - 1)
    (by rw [(value_toNat room).2]; exact room) true
  obtain ⟨stuck, _⟩ | ⟨_, _, _, _, _, _, rfl⟩ := create_parts formed fresh run
  · rw [inserted, declares] at stuck
    exact absurd stuck (by simp)
  · rw [inserted, declares]
    exact ⟨scope, declared, _, _, _, scopeFormed, others, declaredFormed, rfl⟩

theorem create_returns (formed : p.pTypes.table.WellFormed) {r : Int}
    (run : bxxtSepolCreateDomain p domain = .ok (r, q)) :
    CreateReturns p domain r q := by
  cases found : hashtabSearch p.pTypes.table domain with
  | some sd =>
    rw [bxxtSepolCreateDomain, found] at run
    cases run
    exact .known found
  | none =>
    obtain ⟨_, rfl, types, scope, declared, tableFormed, _, rfl⟩ | ⟨_, set, rfl, _, _, _, rfl⟩ :=
      create_parts formed found run
    · exact .failed found tableFormed
    · exact .created found (room_of_setBit set)

theorem allowExt_frame {src tgt cls perm : CString} {disallow : Bool} {malloc : AvtabDatum} {r : Int}
    (run : bxxtSepolAllowExt p src tgt cls perm disallow malloc = .ok (r, q)) :
    q = p ∨ ∃ teAvtab k mask, SelfHit k ∧ editRule p.teAvtab k disallow mask malloc = .ok (r, teAvtab) ∧
      q = { p with teAvtab } := by
  rcases allowExt_cases run with same | ⟨s, t, c, mask, teAvtab, _, _, _, shape, edited⟩
  · exact Or.inl same
  · exact Or.inr ⟨teAvtab, _, mask, allowKey_selfHit s t c, edited, shape⟩

inductive FormReturns (p : Policydb) (malloc : AvtabDatum) : Form → List Bytes → Int → Policydb → Prop
  | refused {form fields} : FormReturns p malloc form fields (-1) p
  | rule {form r q} {src tgt cls perm : CString} (isRule : form.isRule = true)
      (run : bxxtSepolAllowExt p src tgt cls perm (form = .disallow) malloc = .ok (r, q)) :
      FormReturns p malloc form [src, tgt, cls, perm] r q
  | permissive {form r q} {domain : CString} (sets : form = .permissive ∨ form = .enforce)
      (run : bxxtSepolSetPermissive p domain (form = .permissive) = .ok (r, q)) : FormReturns p malloc form [domain] r q
  | create {r q} {domain : CString} (run : bxxtSepolCreateDomain p domain = .ok (r, q)) :
      FormReturns p malloc .create [domain] (if r < 0 then 1 else 0) q

theorem form_returns {form : Form} {fields : List Bytes} {malloc : AvtabDatum} {r : Int}
    (run : form.run p malloc fields = .ok (r, q)) : FormReturns p malloc form fields r q := by
  cases form
  case allow =>
    rcases fields with _ | ⟨src, _ | ⟨tgt, _ | ⟨cls, _ | ⟨perm, _ | _⟩⟩⟩⟩
    all_goals first | exact .rule rfl run | cases run; exact .refused
  case disallow =>
    rcases fields with _ | ⟨src, _ | ⟨tgt, _ | ⟨cls, _ | ⟨perm, _ | _⟩⟩⟩⟩
    all_goals first | exact .rule rfl run | cases run; exact .refused
  case permissive =>
    rcases fields with _ | ⟨src, _ | _⟩
    all_goals first | exact .permissive (Or.inl rfl) run | cases run; exact .refused
  case enforce =>
    rcases fields with _ | ⟨src, _ | _⟩
    all_goals first | exact .permissive (Or.inr rfl) run | cases run; exact .refused
  case create =>
    rcases fields with _ | ⟨src, _ | _⟩
    case cons.nil =>
      obtain ⟨⟨r, q⟩, created, result⟩ := Exec.bind_eq_ok.mp run
      cases result
      exact .create created
    all_goals cases run; exact .refused

/-- What is executed of a text that begins as a form does. -/
theorem run_of_execute {hyphen : Bool} {form : Form} {text : CString} {malloc : AvtabDatum} {r : Int}
    (starts : List.head? text = (ascii form.keyword).head?)
    (run : bxxtSepolExecuteStmt hyphen p text malloc = .ok (r, q)) :
    form.run p malloc (scan (form.format hyphen) text) = .ok (r, q) := by
  obtain ⟨is, others, executed⟩ := execute_form hyphen text
  rw [executed] at run
  obtain ⟨fields, scanned, run⟩ := Exec.bind_eq_ok.mp run
  rw [sscanf] at scanned
  split at scanned
  next => cases scanned
  next =>
    cases scanned
    by_cases same : form = is
    · subst same
      exact run
    · rw [form_of_head starts (Ne.symm same)] at run
      rw [others form same]
      have silent (form : Form) : form.run p malloc [] = .ok (-1, p) := by cases form <;> rfl
      rw [silent] at run ⊢
      exact run

end Frames
section Permissive
variable {hyphen : Bool} {p q : Policydb} {name : CString} {v : UInt32}

structure Mapped (p : Policydb) : Prop where
  types : p.pTypes.table.WellFormed
  permissive : p.permissiveMap.WellFormed

/-- The value of a name: of the type that has it, or of the one that is created for it. -/
inductive Resolves (p : Policydb) (name : CString) : UInt32 → Prop
  | known {sd} (found : hashtabSearch p.pTypes.table name = some sd) : Resolves p name sd.value
  | created {r q td} (fresh : hashtabSearch p.pTypes.table name = none)
      (run : bxxtSepolCreateDomain p name = .ok (r, q)) (succeeded : r ≠ bxxtFailed)
      (found : hashtabSearch q.pTypes.table name = some td) : Resolves p name td.value

theorem Resolves.unique {w : UInt32} (first : Resolves p name v) (second : Resolves p name w) : v = w := by
  cases first with
  | known found =>
    cases second with
    | known found' => rw [found] at found'; cases found'; rfl
    | created fresh => rw [found] at fresh; cases fresh
  | created fresh run _ found =>
    cases second with
    | known found' => rw [fresh] at found'; cases found'
    | created _ run' _ found' =>
      rw [run] at run'
      cases run'
      rw [found] at found'
      cases found'
      rfl

/-- The bit that is asked for, unless the creation failed and there is none. -/
theorem resolves_bit (mapped : Mapped p) {r : Int} (run : bxxtSepolCreateDomain p name = .ok (r, q)) :
    q.permissiveMap = p.permissiveMap ∧ q.pTypes.table.WellFormed ∧
      (Resolves p name (UInt32.ofInt r) ∨ r = bxxtFailed ∧ ∀ v, ¬ Resolves p name v) := by
  cases create_returns mapped.types run with
  | known found => exact ⟨rfl, mapped.types, Or.inl (by rw [ofInt_asInt]; exact .known found)⟩
  | failed fresh formed =>
    refine ⟨rfl, formed, Or.inr ⟨rfl, ?_⟩⟩
    rintro v (found | ⟨_, run', succeeded, _⟩)
    · rw [fresh] at found
      cases found
    · rw [run] at run'
      cases run'
      exact succeeded rfl
  | created fresh room =>
    obtain ⟨formed, types⟩ := createdTable mapped.types fresh
    refine ⟨rfl, formed, Or.inl ?_⟩
    rw [ofInt_asInt]
    refine .created fresh run ?_ ((types name).trans (if_pos rfl))
    intro failed
    have bit := congrArg UInt32.ofInt failed
    rw [ofInt_asInt] at bit
    rw [bit] at room
    exact absurd room (by decide)

theorem setPermissive_spec (mapped : Mapped p) {on : Bool} {r : Int}
    (run : bxxtSepolSetPermissive p name on = .ok (r, q)) :
    Mapped q ∧ ((∀ v, ¬ Resolves p name v) → q.permissiveMap = p.permissiveMap) ∧
      ∀ v : UInt32, v.toNat ≤ Ebitmap.maxBit →
        (Resolves p name v → (q.permissiveMap.Holds v.toNat ↔ on = true)) ∧
        (¬ Resolves p name v → (q.permissiveMap.Holds v.toNat ↔ p.permissiveMap.Holds v.toNat)) := by
  rw [setPermissive_eq] at run
  obtain ⟨⟨created, between⟩, creates, done⟩ := Exec.bind_eq_ok.mp run
  cases done
  obtain ⟨same, formed, bit⟩ := resolves_bit mapped creates
  dsimp only
  rw [same]
  by_cases room : (UInt32.ofInt created).toNat ≤ Ebitmap.maxBit
  · have resolved : Resolves p name (UInt32.ofInt created) := by
      rcases bit with resolved | ⟨rfl, _⟩
      · exact resolved
      · exact absurd room (by decide)
    obtain ⟨map, set, wellFormed, holds⟩ := Ebitmap.setBit_spec mapped.permissive room on
    rw [set]
    refine ⟨⟨formed, wellFormed⟩, fun none => absurd resolved (none _), fun v _ => ⟨?_, ?_⟩⟩
    · intro resolves
      rw [holds, if_pos (by rw [resolves.unique resolved])]
    · intro other
      rw [holds, if_neg]
      intro slot
      rw [UInt32.toNat_inj.mp slot] at other
      exact other resolved
  · rw [Ebitmap.setBit_overflow (by omega)]
    refine ⟨⟨formed, mapped.permissive⟩, fun _ => rfl, fun v small => ⟨?_, fun _ => Iff.rfl⟩⟩
    intro resolves
    rcases bit with resolved | ⟨_, none⟩
    · rw [resolves.unique resolved] at small
      exact absurd small room
    · exact absurd resolves (none v)

structure Event where
  text : CString
  malloc : AvtabDatum
  result : Int

def Executes (hyphen : Bool) (p : Policydb) (event : Event) (q : Policydb) : Prop :=
  bxxtSepolExecuteStmt hyphen p event.text event.malloc = .ok (event.result, q)

def Form.isPermissive : Form → Bool
  | .permissive | .enforce => true
  | .allow | .disallow | .create => false

/-- A statement about permissive domains whose name has the value. -/
def Targets (taken : Step Policydb Event) (v : UInt32) : Prop :=
  ∃ (form : Form) (name : CString), form.isPermissive = true ∧ Documented form [name] taken.event.text ∧
    Resolves taken.before name v

def Whole (name : Bytes) : Prop := ∀ char ∈ name, nameSet char = true

/-- A statement that is read to the end of its name, and asks for a bit that a bitmap can have. -/
def Plain (taken : Step Policydb Event) : Prop :=
  ∀ (form : Form) (name : CString), form.isPermissive = true → Documented form [name] taken.event.text →
    Whole name ∧ (form = .permissive → ∀ v, Resolves taken.before name v → v.toNat ≤ Ebitmap.maxBit)

theorem scan_permissive {form : Form} {text : CString} (is : form.isPermissive = true)
    (documented : Documented form [name] text) (whole : Whole name) : scan (form.format hyphen) text = [name] := by
  obtain ⟨front, last, shape, _, scanned⟩ := @documented_scan hyphen _ _ _ documented
  obtain ⟨rfl, last_eq⟩ := @List.append_inj' _ [] _ _ _ shape rfl
  cases last_eq
  have set : form.lastSet hyphen = nameSet := by cases form <;> first | rfl | cases is
  have taken : List.takeWhile (form.lastSet hyphen) name = name := by
    rw [set]
    exact List.takeWhile_eq_self_iff.mpr whole
  have some : name ≠ ([] : Bytes) := by
    cases documented with
    | name _ _ word => exact word.some
  rw [taken, if_pos ⟨by simp, some⟩] at scanned
  exact scanned

theorem execute_permissive {form : Form} {text : CString} {malloc : AvtabDatum} {r : Int}
    (is : form.isPermissive = true) (documented : Documented form [name] text) (whole : Whole name)
    (run : bxxtSepolExecuteStmt hyphen p text malloc = .ok (r, q)) :
    bxxtSepolSetPermissive p name (form = .permissive) = .ok (r, q) := by
  have run := run_of_execute (documented_starts documented) run
  rw [scan_permissive is documented whole] at run
  cases form <;> first | exact run | cases is

theorem not_holds_beyond {map : Ebitmap} (formed : map.WellFormed) (beyond : ¬ v.toNat ≤ Ebitmap.maxBit) :
    ¬ map.Holds v.toNat :=
  fun holds => beyond (Ebitmap.holds_bounded formed holds)

/-- Bits that a statement is not about stay as they are. -/
theorem step_bits {taken : Step Policydb Event} (mapped : Mapped taken.before)
    (statement : ∃ form names, Documented form names taken.event.text) (plain : Plain taken)
    (step : Executes hyphen taken.before taken.event taken.after) : Mapped taken.after ∧
      ∀ v, ¬ Targets taken v → (taken.after.permissiveMap.Holds v.toNat ↔
        taken.before.permissiveMap.Holds v.toNat) := by
  obtain ⟨form, names, documented⟩ := statement
  have returns := form_returns (run_of_execute (documented_starts documented) step)
  obtain ⟨before, ⟨text, malloc, r⟩, after⟩ := taken
  dsimp only at *
  generalize fields_eq : scan (form.format hyphen) text = fields at returns
  generalize result_eq : r = result at returns
  cases returns with
  | refused => exact ⟨mapped, fun _ _ => Iff.rfl⟩
  | rule _ run =>
    rcases allowExt_frame run with rfl | ⟨_, _, _, _, _, rfl⟩
    · exact ⟨mapped, fun _ _ => Iff.rfl⟩
    · exact ⟨⟨mapped.types, mapped.permissive⟩, fun _ _ => Iff.rfl⟩
  | create run =>
    obtain ⟨same, formed, _⟩ := resolves_bit mapped run
    exact ⟨⟨formed, same ▸ mapped.permissive⟩, fun _ _ => by rw [same]⟩
  | @permissive _ _ _ domain sets =>
    have is : form.isPermissive = true := by rcases sets with rfl | rfl <;> rfl
    obtain ⟨name, rfl⟩ : ∃ name : CString, names = [name] := by
      cases documented with
      | name => exact ⟨_, rfl⟩
      | rule rule => rcases sets with rfl | rfl <;> cases rule
    have run := execute_permissive is documented (plain form name is documented).1 step
    obtain ⟨mappedAfter, _, bits⟩ := setPermissive_spec mapped run
    refine ⟨mappedAfter, fun v other => ?_⟩
    by_cases small : v.toNat ≤ Ebitmap.maxBit
    · exact (bits v small).2 fun resolves => other ⟨form, name, is, documented, resolves⟩
    · exact iff_of_false (not_holds_beyond mappedAfter.permissive small) (not_holds_beyond mapped.permissive small)

/-- What a statement is about gets the bit it asks for. -/
theorem target_bit {taken : Step Policydb Event} (mapped : Mapped taken.before) (plain : Plain taken)
    (step : Executes hyphen taken.before taken.event taken.after) {form : Form} (is : form.isPermissive = true)
    (documented : Documented form [name] taken.event.text) :
    (Resolves taken.before name v → (taken.after.permissiveMap.Holds v.toNat ↔ form = .permissive)) ∧
      ((∀ v, ¬ Resolves taken.before name v) → taken.after.permissiveMap = taken.before.permissiveMap) := by
  obtain ⟨whole, small⟩ := plain form name is documented
  obtain ⟨mappedAfter, unresolved, bits⟩ := setPermissive_spec mapped (execute_permissive is documented whole step)
  refine ⟨fun resolves => ?_, unresolved⟩
  by_cases fits : v.toNat ≤ Ebitmap.maxBit
  · rw [(bits v fits).1 resolves, decide_eq_true_eq]
  · refine iff_of_false (not_holds_beyond mappedAfter.permissive fits) ?_
    intro permissive
    exact fits (small permissive v resolves)

/-- In a run of plain statements the last one about a value decides about its bit. -/
theorem run_bits {trace : List (Step Policydb Event)} (mapped : Mapped p) (run : Run (Executes hyphen) p trace q)
    (statements : ∀ taken ∈ trace, ∃ form names, Documented form names taken.event.text)
    (plain : ∀ taken ∈ trace, Plain taken) :
    Mapped q ∧ (∀ taken ∈ trace, Mapped taken.before) ∧
      ∀ v, (∀ taken ∈ trace, ¬ Targets taken v) →
        (q.permissiveMap.Holds v.toNat ↔ p.permissiveMap.Holds v.toNat) := by
  induction run with
  | nil => exact ⟨mapped, by simp, fun _ _ => Iff.rfl⟩
  | cons step rest ih =>
    obtain ⟨statement, statements⟩ := List.forall_mem_cons.mp statements
    obtain ⟨here, plain⟩ := List.forall_mem_cons.mp plain
    obtain ⟨mappedNext, kept⟩ := step_bits mapped statement here step
    obtain ⟨mappedLast, mappedTrace, later⟩ := ih mappedNext statements plain
    refine ⟨mappedLast, List.forall_mem_cons.mpr ⟨mapped, mappedTrace⟩, fun v untouched => ?_⟩
    obtain ⟨first, others⟩ := List.forall_mem_cons.mp untouched
    exact (later v others).trans (kept v first)

/-- The bit of a value behind a run: that of the last statement whose name has the value, or
the one that was loaded. A statement whose creation fails changes none. -/
theorem last_statement_wins (loaded : Loaded p) {trace : List (Step Policydb Event)}
    (run : Run (Executes hyphen) p trace q)
    (statements : ∀ taken ∈ trace, ∃ form names, Documented form names taken.event.text)
    (plain : ∀ taken ∈ trace, Plain taken) (v : UInt32) :
    (∀ front taken back form name, trace = front ++ taken :: back → Form.isPermissive form = true →
      Documented form [name] taken.event.text → Resolves taken.before name v →
        (∀ later ∈ back, ¬ Targets later v) →
      (q.permissiveMap.Holds v.toNat ↔ form = .permissive)) ∧
    ((∀ taken ∈ trace, ¬ Targets taken v) →
      (q.permissiveMap.Holds v.toNat ↔ p.permissiveMap.Holds v.toNat)) ∧
    ∀ taken ∈ trace, ∀ form name, Form.isPermissive form = true → Documented form [name] taken.event.text →
      (∀ w, ¬ Resolves taken.before name w) → taken.after.permissiveMap = taken.before.permissiveMap := by
  have consistent := (loaded_consistent loaded).1
  obtain ⟨_, mapped, untouched⟩ := run_bits ⟨consistent.types, consistent.permissive⟩ run statements plain
  refine ⟨?_, untouched v, ?_⟩
  · rintro front taken back form name rfl is documented resolves none
    obtain ⟨_, step, rest⟩ := run.at_step
    have here := mapped taken (by simp)
    have plainHere := plain taken (by simp)
    have mappedAfter := (step_bits here (statements taken (by simp)) plainHere step).1
    obtain ⟨_, _, kept⟩ := run_bits mappedAfter rest (fun later member => statements later (by simp [member]))
      (fun later member => plain later (by simp [member]))
    exact (kept v none).trans ((target_bit here plainHere step is documented).1 resolves)
  · intro taken member form name is documented unresolved
    obtain ⟨front, back, rfl⟩ := List.append_of_mem member
    obtain ⟨_, step, _⟩ := run.at_step
    exact (@target_bit _ _ 0 _ (mapped taken member) (plain taken member) step _ is documented).2 unresolved

theorem permit_init (hyphen : Bool) {text : CString}
    (scanned : scan (Form.permissive.format hyphen) text = [ascii "init"]) :
    ∃ p q type, FilePolicy p ∧ hashtabSearch p.pTypes.table (cstring (ascii "init")) = some type ∧
      Executes hyphen p ⟨text, ⟨0, none⟩, 0⟩ q ∧ ¬ p.permissiveMap.Holds type.value.toNat ∧
        q.permissiveMap.Holds type.value.toNat := by
  obtain ⟨p, file⟩ := filePolicy_exists
  obtain ⟨type, found⟩ := file.init
  have consistent := (loaded_consistent file.loaded).1
  have fits : type.value.toNat ≤ Ebitmap.maxBit := by
    have := (file.known found).2
    rw [Ebitmap.maxBit, mapsize]
    omega
  obtain ⟨q, run, _⟩ := @name_succeeds p file .permissive rfl ⟨0, none⟩ (cstring (ascii "init"))
  obtain ⟨_, _, bits⟩ := setPermissive_spec ⟨consistent.types, consistent.permissive⟩ run
  refine ⟨p, q, type, file, found, ?_, ?_, ((bits _ fits).1 (.known found)).mpr rfl⟩
  · rw [Executes, execute_of_scan scanned (by simp) (by decide)]
    exact run
  · rw [Ebitmap.Holds, file.noPermissive]
    rintro ⟨node, member, _⟩
    cases member

theorem single_documented {form : Form} {name : Bytes} (single : form.isRule = false) (word : Identifier name) :
    Documented form [name] (ascii form.keyword ++ ([32] ++ (name ++ []))) :=
  .name single ⟨by simp, by simp [TextScan.isSpace]⟩ word (Or.inl rfl)

/-- A new domain, a permissive one behind it, and the new one enforced at the end. The values stay apart. -/
def permitsInit (p : Policydb) : Bool :=
  passes (bxxtSepolExecuteStmt false p (ascii "create bxxt") ⟨0, none⟩) fun created =>
    (hashtabSearch created.2.pTypes.table (ascii "init")).any fun init => init.value.toNat ≤ Ebitmap.maxBit &&
      passes (bxxtSepolExecuteStmt false created.2 (ascii "permissive init") ⟨0, none⟩) fun permitted =>
        ((hashtabSearch permitted.2.pTypes.table (ascii "bxxt")).any fun bxxt => bxxt.value != init.value) &&
          passes (bxxtSepolExecuteStmt false permitted.2 (ascii "enforce bxxt") ⟨0, none⟩) fun _ => true

theorem permissive_init_is_set : ∃ p created permitted q first second third init, Loaded p ∧
    Run (Executes false) p [⟨p, ⟨ascii "create bxxt", ⟨0, none⟩, first⟩, created⟩,
      ⟨created, ⟨ascii "permissive init", ⟨0, none⟩, second⟩, permitted⟩,
      ⟨permitted, ⟨ascii "enforce bxxt", ⟨0, none⟩, third⟩, q⟩] q ∧
    hashtabSearch created.pTypes.table (ascii "init") = some init ∧ q.permissiveMap.Holds init.value.toNat := by
  obtain ⟨p, loaded, tested⟩ := @loaded_of_readsTo fileImage permitsInit (by decide +kernel)
  simp only [permitsInit, passes_iff, Option.any_eq_true, Bool.and_eq_true, decide_eq_true_eq, bne_iff_ne] at tested
  obtain ⟨⟨first, created⟩, creates, init, found, small, ⟨second, permitted⟩, permits,
    ⟨bxxt, fresh, apart⟩, ⟨third, q⟩, enforces, -⟩ :=
    tested
  have isInit : Identifier (ascii "init") := .of_all (by decide) (by decide) (by decide)
  have isBxxt : Identifier (ascii "bxxt") := .of_all (by decide) (by decide) (by decide)
  have trace : Run (Executes false) p [⟨p, ⟨ascii "create bxxt", ⟨0, none⟩, first⟩, created⟩,
      ⟨created, ⟨ascii "permissive init", ⟨0, none⟩, second⟩, permitted⟩,
      ⟨permitted, ⟨ascii "enforce bxxt", ⟨0, none⟩, third⟩, q⟩] q :=
        .cons creates (.cons permits (.cons enforces .nil))
  have onlyInit {form : Form} {name : CString} (documented : Documented form [name] (ascii "permissive init")) :
      form = .permissive ∧ name = ascii "init" := @documented_unique .permissive _ _ _ isInit documented
  have onlyBxxt {form : Form} {name : CString} (documented : Documented form [name] (ascii "enforce bxxt")) :
      form = .enforce ∧ name = ascii "bxxt" := @documented_unique .enforce _ _ _ isBxxt documented
  refine ⟨p, created, permitted, q, first, second, third, init, loaded, trace, found, ?_⟩
  refine ((last_statement_wins loaded trace ?statements ?plain init.value).1 [_] _ [_] .permissive
    (ascii "init") rfl rfl
    (@single_documented .permissive _ rfl isInit) (.known found) ?others).mpr rfl
  case statements =>
    simp only [List.forall_mem_cons, List.not_mem_nil, false_implies, implies_true, and_true]
    exact ⟨⟨.create, _, single_documented rfl isBxxt⟩, ⟨.permissive, _, single_documented rfl isInit⟩,
      ⟨.enforce, _, single_documented rfl isBxxt⟩⟩
  case plain =>
    simp only [List.forall_mem_cons, List.not_mem_nil, false_implies, implies_true, and_true]
    refine ⟨fun form name is documented => ?_, fun form name is documented => ?_, fun form name is documented => ?_⟩
    · cases @documented_form .create _ _ _ documented rfl
      cases is
    · obtain ⟨rfl, rfl⟩ := onlyInit documented
      refine ⟨List.all_eq_true.mp (by decide), fun _ v resolves => ?_⟩
      rw [resolves.unique (.known found)]
      exact small
    · obtain ⟨rfl, rfl⟩ := onlyBxxt documented
      exact ⟨List.all_eq_true.mp (by decide), fun is => by cases is⟩
  case others =>
    rw [List.forall_mem_singleton]
    rintro ⟨form, name, is, documented, resolves⟩
    obtain ⟨rfl, rfl⟩ := onlyBxxt documented
    exact apart (resolves.unique (.known fresh)).symm

/-- A statement about one name sets the bit of another. -/
theorem permissive_sets_other_bit : ∃ p q trace v, Loaded p ∧ Run (Executes false) p trace q ∧
    (∀ taken ∈ trace, ∃ form names, Documented form names taken.event.text) ∧
      (∀ taken ∈ trace, ¬ Targets taken v) ∧
    ¬ (q.permissiveMap.Holds v.toNat ↔ p.permissiveMap.Holds v.toNat) := by
  obtain ⟨p, q, type, file, found, run, unset, set⟩ := @permit_init false (ascii "permissive init0") rfl
  have word : Identifier (ascii "init0") := .of_all (by decide) (by decide) (by decide)
  have only {form : Form} {name : CString} : Documented form [name] (ascii "permissive init0") →
    form = .permissive ∧ name = ascii "init0" :=
    fun documented => @documented_unique .permissive _ _ _ word documented
  refine ⟨p, q, [⟨p, ⟨ascii "permissive init0", ⟨0, none⟩, 0⟩, q⟩], type.value,
    file.loaded, .cons run .nil,
    by simp; exact ⟨_, _, @single_documented .permissive _ rfl word⟩, ?_, fun same => unset (same.mp set)⟩
  rw [List.forall_mem_singleton]
  rintro ⟨form, name, _, documented, resolves⟩
  obtain ⟨rfl, rfl⟩ := only documented
  have small := (file.known found).2
  generalize same : type.value = v at resolves
  cases resolves with
  | known found' => 
    rcases (file.known found').1 with named | named
    · exact absurd named (by decide : ascii "init0" ≠ ascii "init")
    · exact absurd named (by decide : ascii "init0" ≠ ascii "kernel")
  | created fresh creates _ found' =>
    obtain ⟨consistent, attributes, _⟩ := loaded_consistent file.loaded
    obtain ⟨_, run', created⟩ := create_fresh consistent attributes file.full file.room fresh
    rw [creates] at run'
    cases run'
    have found' := ((created.types (ascii "init0")).trans (if_pos rfl)).symm.trans found'
    cases found'
    rw [same, createdType, file.types] at small
    exact absurd small (by decide)

end Permissive
end Bxxt.Proofs
