import Bxxt.Proofs.StatementNames
import Bxxt.SepolMain

/-! Edits that fail. `sepol_main` looks at no result but to print a message: what follows a failure
is what follows a success, with a database that may be gone. -/

namespace Bxxt.Proofs
open Bxxt ByteLayout EventLog ScanFormat

section Search
variable {hyphen : Bool} {text : CString} {form : Form} {forms : List Form}

def Form.formats (hyphen : Bool) (forms : List Form) : List (List Directive × Nat) :=
  forms.map fun form => (form.format hyphen, fieldCount (form.format hyphen))

theorem stmtFormats_eq (hyphen : Bool) :
    stmtFormats hyphen = Form.formats hyphen [.allow, .disallow, .permissive, .enforce, .create] := rfl

theorem sscanf_silent (silent : scan (form.format hyphen) text = []) : sscanf text (form.format hyphen) = .ok [] := by
  rw [sscanf, silent]
  rfl

theorem searches_none (silent : ∀ form ∈ forms, scan (form.format hyphen) text = []) :
    searchesTables hyphen text (Form.formats hyphen forms) = .ok false := by
  induction forms with
  | nil => rfl
  | cons form rest ih =>
    obtain ⟨first, later⟩ := List.forall_mem_cons.mp silent
    have count := fieldCount_format hyphen form
    rw [Form.formats, List.map_cons, searchesTables, sscanf_silent first, Exec.ok_bind, if_neg]
    · exact ih later
    · rw [count, List.length_nil]
      split <;> decide

/-- The one form that is not silent decides. -/
theorem searches_form (member : form ∈ forms) (distinct : forms.Nodup)
    (others : ∀ other, other ≠ form → scan (other.format hyphen) text = []) :
    searchesTables hyphen text (Form.formats hyphen forms) =
      sscanf text (form.format hyphen) >>= fun names =>
        .ok (decide (names.length = fieldCount (form.format hyphen))) := by
  induction forms with
  | nil => cases member
  | cons first rest ih =>
    obtain ⟨fresh, distinct⟩ := List.nodup_cons.mp distinct
    rw [Form.formats, List.map_cons, searchesTables]
    rcases List.mem_cons.mp member with rfl | later
    · refine bind_congr fun names => ?_
      split
      next counted => rw [decide_eq_true counted]
      next miscounted =>
        rw [decide_eq_false miscounted]
        apply searches_none
        intro other inside
        exact others other fun same => fresh (same ▸ inside)
    · have away : first ≠ form := fun same => fresh (same ▸ later)
      rw [sscanf_silent (others first away), Exec.ok_bind, if_neg]
      · exact ih later distinct
      · rw [fieldCount_format, List.length_nil]
        split <;> decide

/-- Looking for an edit and executing a text are one scan. -/
theorem searches_execute (hyphen : Bool) (text : CString) : ∃ form : Form,
    (∀ other, other ≠ form → scan (other.format hyphen) text = []) ∧
    (searchesTables hyphen text (stmtFormats hyphen) =
      sscanf text (form.format hyphen) >>= fun names =>
        .ok (decide (names.length = fieldCount (form.format hyphen)))) ∧
    ∀ pdb malloc, bxxtSepolExecuteStmt hyphen pdb text malloc =
      sscanf text (form.format hyphen) >>= form.run pdb malloc := by
  obtain ⟨form, others, executed⟩ := execute_form hyphen text
  refine ⟨form, others, ?_, executed⟩
  rw [stmtFormats_eq]
  apply searches_form _ (by decide) others
  cases form <;> decide

theorem searches_fault_iff :
    (∃ fault, searchesTables hyphen text (stmtFormats hyphen) = .error fault) ↔ Overlong hyphen text := by
  obtain ⟨form, others, searched, _⟩ := searches_execute hyphen text
  rw [searched]
  constructor
  · rintro ⟨fault, failed⟩
    by_contra fits
    rw [sscanf_fits] at failed
    · cases failed
    · intro field member
      by_contra long
      exact fits ⟨form, field, member, Nat.le_of_not_lt long⟩
  · rintro ⟨other, field, member, long⟩
    have same : other = form := by
      by_contra distinct
      rw [others other distinct] at member
      cases member
    subst same
    refine ⟨.stackOverflow, ?_⟩
    rw [sscanf, if_pos (List.any_eq_true.mpr ⟨field, member, decide_eq_true long⟩)]
    rfl

end Search
section Unread

theorem grantRoles_unread {value : UInt32} {pdb : Policydb} {table : Hashtab CString RoleDatum}
    (unset : pdb.roleValToStruct = fun _ => none) (counted : pdb.pRoles.nprim = 1) :
    grantRoles value pdb (List.range pdb.pRoles.nprim.toNat) table = .error .outOfBounds := by
  rw [counted]
  change grantRoles value pdb [0] table = _
  rw [grantRoles, HeapArray.load, unset]
  rfl

/-- In a database without a policy there is nothing to edit, and no role that a new type could go to. -/
theorem create_unread (domain : CString) : ∃ fault, bxxtSepolCreateDomain policydbInit domain = .error fault := by
  have fresh : hashtabSearch policydbInit.pTypes.table domain = none := search_empty (by decide) _
  have unscoped : hashtabSearch policydbInit.scope domain = none := search_empty (by decide) _
  have formed : policydbInit.scope.WellFormed := symtabInit_wellFormed (by decide)
  obtain ⟨scope, inserted, _, _⟩ := insertScope_fresh formed unscoped
  have symbol : symtabInsert policydbInit domain newType scopeDecl 1 0 =
      (0, 1, { policydbInit with pTypes := ⟨policydbInit.pTypes.table.linked domain newType, 1⟩, scope }) := by
    rw [symtabInsert, Hashtab.insert_fresh fresh]
    dsimp only
    rw [if_pos rfl]
    exact congrArg (fun pair : Int × Hashtab CString ScopeDatum => (pair.1, (1 : UInt32),
      { policydbInit with pTypes := ⟨policydbInit.pTypes.table.linked domain newType, 1⟩, scope := pair.2 }))
        inserted
  obtain ⟨declared, bit, _, _⟩ := Ebitmap.setBit_spec Ebitmap.WellFormed.empty
    (by decide : (1 - 1 : UInt32).toNat ≤ Ebitmap.maxBit) true
  refine ⟨.outOfBounds, ?_⟩
  rw [bxxtSepolCreateDomain, fresh]
  dsimp only
  rw [symbol]
  dsimp only
  rw [if_neg (by decide)]
  have set : ebitmapSetBit policydbInit.declared (1 - 1) true = (0, declared) := bit
  simp only [set]
  rw [if_neg (fun changed => changed rfl), grantRoles_unread rfl rfl]
  rfl

theorem setPermissive_unread (domain : CString) (permissive : Bool) :
    ∃ fault, bxxtSepolSetPermissive policydbInit domain permissive = .error fault := by
  obtain ⟨fault, failed⟩ := create_unread domain
  have fresh : hashtabSearch policydbInit.pTypes.table domain = none := search_empty (by decide) _
  refine ⟨fault, ?_⟩
  rw [bxxtSepolSetPermissive, fresh]
  dsimp only
  rw [failed]
  rfl

theorem allowExt_unread (src tgt cls perm : CString) (disallow : Bool) (malloc : AvtabDatum) :
    bxxtSepolAllowExt policydbInit src tgt cls perm disallow malloc = .ok (bxxtFailed, policydbInit) := by
  have unknown : hashtabSearch policydbInit.pClasses.table cls = none := search_empty (by decide) _
  rw [bxxtSepolAllowExt, unknown]

theorem execute_unread {hyphen : Bool} {text : CString} {malloc : AvtabDatum} {r : Int} {q : Policydb}
    (run : bxxtSepolExecuteStmt hyphen policydbInit text malloc = .ok (r, q)) : q = policydbInit := by
  obtain ⟨form, _, executed⟩ := execute_form hyphen text
  rw [executed] at run
  obtain ⟨names, _, run⟩ := Exec.bind_eq_ok.mp run
  by_cases arity : names.length = fieldCount (form.format hyphen)
  · rw [fieldCount_format] at arity
    cases form
    case allow =>
      obtain ⟨src, tgt, cls, perm, rfl⟩ := List.length_eq_four.mp arity
      cases (allowExt_unread src tgt cls perm false malloc).symm.trans run
      rfl
    case disallow =>
      obtain ⟨src, tgt, cls, perm, rfl⟩ := List.length_eq_four.mp arity
      cases (allowExt_unread src tgt cls perm true malloc).symm.trans run
      rfl
    case permissive | enforce =>
      obtain ⟨src, rfl⟩ := List.length_eq_one_iff.mp arity
      obtain ⟨fault, failed⟩ := setPermissive_unread src _
      rw [Form.run, failed] at run
      cases run
    case create =>
      obtain ⟨src, rfl⟩ := List.length_eq_one_iff.mp arity
      obtain ⟨fault, failed⟩ := create_unread src
      rw [Form.run, failed] at run
      cases run
  · rw [run_arity policydbInit malloc arity] at run
    cases run
    rfl

end Unread
section Log
variable {ρ : Type} {m : Machine ρ}

/-- The purpose of the error path: if a stage failed, no policy was written to a file or to the
kernel, and no table was used that was freed. -/
def KeptInside (log : List SepolEvent) : Prop :=
  (∃ stage, .failed stage ∈ log) → (∀ file data, .wrote file data ∈ log → data = []) ∧ .usedFreed ∉ log

/-- What is in store for an image once the edit is over: an output file that can be opened, or the
kernel. -/
def Leaves (m : Machine ρ) (args : SepolArgs) : Prop :=
  (List.length args.output ≠ 0 ∧ m.writable args.output) ∨ (args.reload ∧ m.writable kernelLoad)

/-- Where the program keeps a failed edit inside: the file cannot be opened; or its policy is accepted, and
if the statement is refused, there is no image of the policy or no file for it. -/
def Contained (m : Machine ρ) (args : SepolArgs) : Prop :=
  ∀ sepol, bxxtFileOpenMm (m.content args.input) = some sepol →
    (∀ versioned, m.policydbRead sepol.bytes = .ok (.refused versioned) → Overlong m.hyphen args.stmt) ∧
      ∀ pdb rest r q image, m.policydbRead sepol.bytes = .ok (.accepted pdb rest) →
        bxxtSepolExecuteStmt m.hyphen pdb args.stmt m.malloc = .ok (r, q) → r ≠ 0 →
          m.toImage q rest = .ok (some image) → image ≠ [] → ¬ Leaves m args

def saveNamed (m : Machine ρ) (args : SepolArgs) (db : Database ρ) : SepolRun Int :=
  if List.length args.output ≠ 0 then bxxtSepolSavePolicyFile m db args.output else pure 0

def reloadAsked (m : Machine ρ) (args : SepolArgs) (db : Database ρ) : SepolRun Int :=
  if args.reload then bxxtSepolReloadKernelPolicy m db else pure 0

def storeEdited (m : Machine ρ) (args : SepolArgs) (db : Database ρ) : SepolRun Int := do
  let _ ← saveNamed m args db
  let _ ← reloadAsked m args db
  bxxtSepolFree db
  return 0

theorem sepolMain_eq (argv : List SepolOption) : sepolMain m argv = (do
    let args ← quiet (getopts argv)
    let (_, db) ← bxxtSepolLoadPolicyFile m args.input
    let (_, db) ← executeOn m args.stmt db
    storeEdited m args db) := rfl

variable {args : SepolArgs} {q : Policydb} {rest : ρ}

theorem save_image {image : Bytes} (made : m.toImage q rest = .ok (some image)) : ∃ r,
    saveNamed m args (.live q rest) =
      (if List.length args.output ≠ 0 ∧ m.writable args.output then [.wrote args.output image] else [], .ok r) := by
  unfold saveNamed
  by_cases named : List.length args.output ≠ 0
  · rw [if_pos named, bxxtSepolSavePolicyFile, policydbToImage, made]
    by_cases opens : m.writable args.output = true
    · simp only [if_pos opens, if_pos (And.intro named opens)]
      exact ⟨_, rfl⟩
    · simp only [if_neg opens, if_neg fun both : _ ∧ _ => opens both.2]
      exact ⟨_, rfl⟩
  · rw [if_neg named, if_neg fun both => named both.1]
    exact ⟨_, rfl⟩

theorem reload_image {image : Bytes} (made : m.toImage q rest = .ok (some image)) : ∃ r,
    reloadAsked m args (.live q rest) =
      (if args.reload ∧ m.writable kernelLoad then [.wrote kernelLoad image] else [], .ok r) := by
  unfold reloadAsked
  by_cases asked : args.reload = true
  · rw [if_pos asked, bxxtSepolReloadKernelPolicy, policydbToImage, made]
    by_cases opens : m.writable kernelLoad = true
    · simp only [if_pos opens, if_pos (And.intro asked opens)]
      exact ⟨_, rfl⟩
    · simp only [if_neg opens, if_neg fun both : _ ∧ _ => opens both.2]
      exact ⟨_, rfl⟩
  · rw [if_neg asked, if_neg fun both => asked both.1]
    exact ⟨_, rfl⟩

theorem store_image {image : Bytes} (made : m.toImage q rest = .ok (some image)) :
    (storeEdited m args (.live q rest)).log =
      (if List.length args.output ≠ 0 ∧ m.writable args.output then [.wrote args.output image] else []) ++
        if args.reload ∧ m.writable kernelLoad then [.wrote kernelLoad image] else [] := by
  obtain ⟨_, saved⟩ := save_image made
  obtain ⟨_, reloaded⟩ := reload_image made
  rw [storeEdited, saved, reloaded]
  exact congrArg _ (List.append_nil _)

/-- Without an image nothing is written but the no bytes of a reload. -/
theorem store_nothing (none : ∀ image, m.toImage q rest ≠ .ok (some image)) {event : SepolEvent}
    (logged : event ∈ (storeEdited m args (.live q rest)).log) :
    event = .failed .serialise ∨ event = .wrote kernelLoad [] := by
  rcases mem_log_bind.mp logged with saving | ⟨_, _, logged⟩
  · unfold saveNamed at saving
    split at saving
    next =>
      rw [bxxtSepolSavePolicyFile, policydbToImage] at saving
      cases made : m.toImage q rest with
      | error fault =>
        rw [made] at saving
        cases saving
      | ok image =>
        cases image with
        | some image => exact absurd made (none image)
        | none =>
          rw [made] at saving
          exact Or.inl (List.mem_singleton.mp saving)
    next => cases saving
  · rcases mem_log_bind.mp logged with reloading | ⟨_, _, logged⟩
    · unfold reloadAsked at reloading
      split at reloading
      next =>
        rw [bxxtSepolReloadKernelPolicy, policydbToImage] at reloading
        cases made : m.toImage q rest with
        | error fault =>
          rw [made] at reloading
          cases reloading
        | ok image =>
          cases image with
          | some image => exact absurd made (none image)
          | none =>
            rw [made] at reloading
            split at reloading
            next =>
              rcases List.mem_cons.mp reloading with failed | wrote
              · exact Or.inl failed
              · exact Or.inr (List.mem_singleton.mp wrote)
            next => exact Or.inl (List.mem_singleton.mp reloading)
      next => cases reloading
    · cases logged

/-- A database that was destroyed is used in the end, when it is destroyed again. -/
theorem store_freed (versioned : Bool) : .usedFreed ∈ (storeEdited m args (.destroyed versioned)).log := by
  rw [storeEdited]
  have saved : .usedFreed ∈ (saveNamed m args (.destroyed versioned)).log ∨
      ∃ r, (saveNamed m args (.destroyed versioned)).result = .ok r := by
    unfold saveNamed
    split
    next =>
      cases versioned
      · exact Or.inr ⟨_, rfl⟩
      · exact Or.inl (List.mem_singleton.mpr rfl)
    next => exact Or.inr ⟨_, rfl⟩
  have reloaded : .usedFreed ∈ (reloadAsked m args (.destroyed versioned)).log ∨
      ∃ r, (reloadAsked m args (.destroyed versioned)).result = .ok r := by
    unfold reloadAsked
    split
    next =>
      cases versioned
      · rw [bxxtSepolReloadKernelPolicy]
        split
        next => exact Or.inr ⟨_, rfl⟩
        next => exact Or.inr ⟨_, rfl⟩
      · exact Or.inl (List.mem_singleton.mpr rfl)
    next => exact Or.inr ⟨_, rfl⟩
  rcases saved with used | ⟨r, ended⟩
  · exact mem_log_bind.mpr (Or.inl used)
  · refine mem_log_bind.mpr (Or.inr ⟨r, ended, ?_⟩)
    rcases reloaded with used | ⟨r, ended⟩
    · exact mem_log_bind.mpr (Or.inl used)
    · exact mem_log_bind.mpr (Or.inr ⟨r, ended, mem_log_bind.mpr (Or.inl (List.mem_singleton.mpr rfl))⟩)

end Log
section Edit
variable {ρ : Type} {m : Machine ρ} {args : SepolArgs}

def editFile (m : Machine ρ) (args : SepolArgs) : SepolRun Int := do
  let (_, db) ← bxxtSepolLoadPolicyFile m args.input
  let (_, db) ← executeOn m args.stmt db
  storeEdited m args db

/-- What a log may hold for an edit that is kept inside, whatever has failed: messages, and a reload
of no bytes. -/
def FailedOnly (event : SepolEvent) : Prop := (∃ stage, event = .failed stage) ∨ event = .wrote kernelLoad []

theorem keptInside_of_failedOnly {log : List SepolEvent} (harmless : ∀ event ∈ log, FailedOnly event) :
    KeptInside log := by
  intro _
  constructor
  · intro file data wrote
    rcases harmless _ wrote with ⟨stage, other⟩ | same
    · cases other
    · cases same
      rfl
  · intro used
    rcases harmless _ used with ⟨stage, other⟩ | other <;> cases other

theorem store_harmless {q : Policydb} {rest : ρ} (none : ∀ image, m.toImage q rest ≠ .ok (some image))
    {event : SepolEvent} (logged : event ∈ (storeEdited m args (.live q rest)).log) : FailedOnly event := by
  rcases store_nothing none logged with failed | wrote
  · exact Or.inl ⟨_, failed⟩
  · exact Or.inr wrote

theorem executeOn_live {stmt : CString} {pdb q : Policydb} {rest : ρ} {r : Int}
    (run : bxxtSepolExecuteStmt m.hyphen pdb stmt m.malloc = .ok (r, q)) :
    executeOn m stmt (.live pdb rest) = (if r ≠ 0 then [.failed .execute] else [], .ok (r, .live q rest)) := by
  rw [executeOn, run]
  by_cases refused : r ≠ 0
  · rw [if_pos refused]
    exact if_pos refused
  · rw [if_neg refused]
    exact if_neg refused

theorem executeOn_fault {stmt : CString} {pdb : Policydb} {rest : ρ} {fault : Fault}
    (run : bxxtSepolExecuteStmt m.hyphen pdb stmt m.malloc = .error fault) :
    executeOn m stmt (.live pdb rest) = ([], .error fault) := by
  rw [executeOn, run]
  rfl

theorem unopened_kept (unread : m.toImage policydbInit m.init = .ok none)
    (shut : bxxtFileOpenMm (m.content args.input) = none) : KeptInside (editFile m args).log := by
  apply keptInside_of_failedOnly
  intro event logged
  rw [editFile, bxxtSepolLoadPolicyFile, shut] at logged
  have failed : FailedOnly (.failed .load) := Or.inl ⟨_, rfl⟩
  rcases List.mem_cons.mp logged with rfl | logged
  · exact failed
  · change event ∈ (executeOn m args.stmt (.live policydbInit m.init) >>= fun result =>
      storeEdited m args result.2).log at logged
    cases run : bxxtSepolExecuteStmt m.hyphen policydbInit args.stmt m.malloc with
    | error fault =>
      rw [executeOn_fault run] at logged
      cases logged
    | ok result =>
      obtain ⟨r, q⟩ := result
      obtain rfl := execute_unread run
      rw [executeOn_live run] at logged
      rcases List.mem_append.mp logged with refused | logged
      · split at refused
        next => exact Or.inl ⟨_, List.mem_singleton.mp refused⟩
        next => cases refused
      · refine store_harmless (fun image made => ?_) logged
        rw [unread] at made
        cases made

/-- After a policy that was refused only an overrun of the statement's buffers comes before the freed tables. -/
theorem refused_kept_iff {sepol : Region} {versioned : Bool}
    (opened : bxxtFileOpenMm (m.content args.input) = some sepol)
    (read : m.policydbRead sepol.bytes = .ok (.refused versioned)) :
    KeptInside (editFile m args).log ↔ Overlong m.hyphen args.stmt := by
  have shape : (editFile m args).log = .failed .load ::
      (executeOn m args.stmt (Database.destroyed versioned) >>= fun result => storeEdited m args result.2).log := by
    rw [editFile, bxxtSepolLoadPolicyFile, opened]
    dsimp only
    rw [read]
    rfl
  have loadFailed : .failed .load ∈ (editFile m args).log := by
    rw [shape]
    exact List.mem_cons_self
  have used (inside : .usedFreed ∈ (executeOn m args.stmt (Database.destroyed versioned) >>= fun result =>
      storeEdited m args result.2).log) : ¬ KeptInside (editFile m args).log := by
    intro kept
    refine (kept ⟨_, loadFailed⟩).2 ?_
    rw [shape]
    exact List.mem_cons_of_mem _ inside
  rw [← searches_fault_iff]
  cases searched : searchesTables m.hyphen args.stmt (stmtFormats m.hyphen) with
  | error fault =>
    refine ⟨fun _ => ⟨fault, rfl⟩, fun _ => keptInside_of_failedOnly fun event logged => ?_⟩
    rw [shape] at logged
    rcases List.mem_cons.mp logged with rfl | logged
    · exact Or.inl ⟨_, rfl⟩
    · rw [executeOn, searched] at logged
      cases logged
  | ok edits =>
    have runs : ¬ ∃ fault, (.ok edits : Except Fault Bool) = .error fault := by
      rintro ⟨fault, failed⟩
      cases failed
    refine ⟨fun kept => absurd kept (used ?_), fun failed => absurd failed runs⟩
    rw [executeOn, searched]
    cases edits
    · exact List.mem_cons_of_mem _ (store_freed versioned)
    · exact List.mem_singleton.mpr rfl

theorem accepted_kept_iff {sepol : Region} {pdb : Policydb} {rest : ρ}
    (opened : bxxtFileOpenMm (m.content args.input) = some sepol)
    (read : m.policydbRead sepol.bytes = .ok (.accepted pdb rest)) : KeptInside (editFile m args).log ↔
      ∀ r q image, bxxtSepolExecuteStmt m.hyphen pdb args.stmt m.malloc = .ok (r, q) → r ≠ 0 →
        m.toImage q rest = .ok (some image) → image ≠ [] → ¬ Leaves m args := by
  have shape : (editFile m args).log =
      (executeOn m args.stmt (.live pdb rest) >>= fun result => storeEdited m args result.2).log := by
    rw [editFile, bxxtSepolLoadPolicyFile, opened]
    dsimp only
    rw [read]
    rfl
  rw [shape]
  cases run : bxxtSepolExecuteStmt m.hyphen pdb args.stmt m.malloc with
  | error fault =>
    rw [executeOn_fault run]
    constructor
    · intro _ r q image executed
      cases executed
    · exact fun _ => keptInside_of_failedOnly fun event logged => by cases logged
  | ok result =>
    obtain ⟨r, q⟩ := result
    rw [executeOn_live run]
    change KeptInside ((if r ≠ 0 then [.failed .execute] else []) ++ (storeEdited m args (.live q rest)).log) ↔ _
    by_cases made : ∃ image, m.toImage q rest = .ok (some image)
    · obtain ⟨image, made⟩ := made
      rw [store_image made]
      constructor
      · rintro kept _ _ other ⟨⟩ refused same some leaves
        rw [made] at same
        cases same
        rw [if_pos refused] at kept
        apply some
        rcases leaves with named | asked
        · refine (kept ⟨_, List.mem_cons_self⟩).1 args.output image ?_
          rw [if_pos named]
          simp
        · refine (kept ⟨_, List.mem_cons_self⟩).1 kernelLoad image ?_
          rw [if_pos asked]
          simp
      · intro contained
        simp only [KeptInside, List.mem_append, List.mem_ite_nil_right, List.mem_singleton, SepolEvent.wrote.injEq,
          reduceCtorEq, and_false, or_false, false_or, not_false_iff, and_true]
        rintro ⟨_, refused, _⟩ file data wrote
        by_contra some
        rcases wrote with ⟨named, rfl, rfl⟩ | ⟨asked, rfl, rfl⟩
        · exact contained r q data rfl refused made some (Or.inl named)
        · exact contained r q data rfl refused made some (Or.inr asked)
    · constructor
      · rintro _ _ _ image ⟨⟩ _ same
        exact absurd ⟨image, same⟩ made
      · intro _
        apply keptInside_of_failedOnly
        intro event logged
        rcases List.mem_append.mp logged with refused | logged
        · split at refused
          next => exact Or.inl ⟨_, List.mem_singleton.mp refused⟩
          next => cases refused
        · exact store_harmless (fun image same => made ⟨image, same⟩) logged

end Edit
section Main
variable {ρ : Type} {m : Machine ρ}

theorem faulty_kept {args : SepolArgs} {sepol : Region} {fault : Fault}
    (opened : bxxtFileOpenMm (m.content args.input) = some sepol) (read : m.policydbRead sepol.bytes = .error fault) :
    KeptInside (editFile m args).log := by
  apply keptInside_of_failedOnly
  intro event logged
  rw [editFile, bxxtSepolLoadPolicyFile, opened] at logged
  dsimp only at logged
  rw [read] at logged
  cases logged

theorem edit_kept_iff (unread : m.toImage policydbInit m.init = .ok none) (args : SepolArgs) :
    KeptInside (editFile m args).log ↔ Contained m args := by
  unfold Contained
  cases opened : bxxtFileOpenMm (m.content args.input) with
  | none =>
    refine iff_of_true (unopened_kept unread opened) ?_
    rintro _ ⟨⟩
  | some sepol =>
    simp only [Option.some.injEq, forall_eq']
    cases read : m.policydbRead sepol.bytes with
    | error fault =>
      apply iff_of_true (faulty_kept opened read)
      constructor
      · rintro _ ⟨⟩
      · rintro _ _ _ _ _ ⟨⟩
    | ok result =>
      cases result with
      | refused versioned =>
        rw [refused_kept_iff opened read]
        constructor
        · intro overlong
          refine ⟨fun _ _ => overlong, ?_⟩
          rintro _ _ _ _ _ ⟨⟩
        · exact fun contained => contained.1 versioned rfl
      | accepted pdb rest =>
        rw [accepted_kept_iff opened read]
        constructor
        · intro contained
          constructor
          · rintro _ ⟨⟩
          · rintro _ _ r q image ⟨⟩
            exact contained r q image
        · exact fun contained r q image => contained.2 pdb rest r q image rfl

/-- A failed edit is kept inside the process exactly where the file cannot be opened, or its policy is accepted and
a refused statement leaves no image or no file to write it to. -/
theorem failed_edit_kept_inside_iff (unread : m.toImage policydbInit m.init = .ok none) (argv : List SepolOption) :
    KeptInside (sepolMain m argv).log ↔ ∀ args, getopts argv = .ok args → Contained m args := by
  rw [sepolMain_eq]
  cases parsed : getopts argv with
  | error fault =>
    refine iff_of_true (keptInside_of_failedOnly fun event logged => ?_) ?_
    · cases logged
    · rintro _ ⟨⟩
  | ok args =>
    change KeptInside ([] ++ (editFile m args).log) ↔ _
    rw [List.nil_append, edit_kept_iff unread]
    exact ⟨fun contained _ same => Except.ok.inj same ▸ contained, fun all => all args rfl⟩

/-- A machine without any file to read. No image is made of a database without a policy, which has no version. -/
def unreadable : Machine Unit where
  content _ := none
  writable _ := true
  written _ data := data.length
  policydbRead _ := .ok (.refused false)
  toImage _ _ := .ok none
  init := ()
  hyphen := true
  malloc := ⟨0, none⟩

/-- A missing policy changes nothing, although the kernel's file is opened. -/
theorem missing_policy_kept :
    KeptInside (sepolMain unreadable [.stmt (ascii "allow a b:c d;"), .output (ascii "edited"), .reload]).log := by
  apply (failed_edit_kept_inside_iff rfl _).mpr
  rintro args _ sepol ⟨⟩

def oneByte : Machine Unit := { unreadable with content := fun _ => some [0x8c] }

/-- A policy that is refused leaves tables that were freed, and the statement searches them. -/
theorem refused_policy_used_freed :
    ¬ KeptInside (sepolMain oneByte [.stmt (ascii "permissive su;"), .reload]).log := by
  have log : (sepolMain oneByte [.stmt (ascii "permissive su;"), .reload]).log = [.failed .load, .usedFreed] := by
    decide
  rw [log]
  intro kept
  exact (kept ⟨.load, by simp⟩).2 (by simp)

end Main
section Rtexec
variable {ρ : Type} {m : Machine ρ} {event : SepolEvent}

theorem load_log {file : CString} (logged : event ∈ (bxxtSepolLoadPolicyFile m file).log) :
    event = .failed .load := by
  unfold bxxtSepolLoadPolicyFile at logged
  split at logged
  next => exact List.mem_singleton.mp logged
  next =>
    rcases mem_log_bind.mp logged with read | ⟨result, _, logged⟩
    · cases read
    · cases result with
      | accepted pdb rest => cases logged
      | refused versioned => exact List.mem_singleton.mp logged

theorem execute_log {stmt : CString} {db : Database ρ} (logged : event ∈ (executeOn m stmt db).log) :
    event = .usedFreed ∨
      event = .failed .execute ∧ ∀ result, (executeOn m stmt db).result = .ok result → result.1 ≠ 0 := by
  cases db with
  | live pdb rest =>
    cases run : bxxtSepolExecuteStmt m.hyphen pdb stmt m.malloc with
    | error fault =>
      rw [executeOn_fault run] at logged
      cases logged
    | ok result =>
      obtain ⟨r, q⟩ := result
      rw [executeOn_live run] at logged ⊢
      obtain ⟨refused, same⟩ := List.mem_ite_nil_right.mp logged
      refine Or.inr ⟨List.mem_singleton.mp same, ?_⟩
      rintro _ ⟨⟩
      exact refused
  | destroyed versioned =>
    rw [executeOn] at logged ⊢
    cases searched : searchesTables m.hyphen stmt (stmtFormats m.hyphen) with
    | error fault =>
      rw [searched] at logged
      cases logged
    | ok edits =>
      rw [searched] at logged
      cases edits
      · refine Or.inr ⟨List.mem_singleton.mp logged, ?_⟩
        rintro _ ⟨⟩
        exact (by decide : (-1 : Int) ≠ 0)
      · exact Or.inl (List.mem_singleton.mp logged)

theorem reload_log {db : Database ρ} (logged : event ∈ (bxxtSepolReloadKernelPolicy m db).log) :
    event ≠ .failed .execute := by
  rintro rfl
  rcases mem_log_bind.mp logged with logged | ⟨image, _, logged⟩
  · cases db with
    | live pdb rest =>
      rw [policydbToImage] at logged
      cases made : m.toImage pdb rest with
      | error fault =>
        rw [made] at logged
        cases logged
      | ok image =>
        rw [made] at logged
        cases image with
        | none => cases List.mem_singleton.mp logged
        | some image => cases logged
    | destroyed versioned =>
      cases versioned <;> cases List.mem_singleton.mp logged
  · dsimp only at logged
    split at logged
    next => cases List.mem_singleton.mp logged
    next => cases logged

theorem free_log {db : Database ρ} {r : Int} (logged : event ∈ (bxxtSepolFree db >>= fun _ => pure r).log) :
    event = .usedFreed := by
  cases db with
  | live pdb rest => cases logged
  | destroyed versioned => exact List.mem_singleton.mp logged

/-- The same edit for the other commands does stop: after a refused statement nothing is written. -/
theorem rtexec_refused {stmt : CString} (refused : .failed .execute ∈ (sepolRtexec m stmt).log) (file : CString)
    (data : Bytes) : .wrote file data ∉ (sepolRtexec m stmt).log := by
  intro wrote
  rcases mem_log_bind.mp wrote with wrote | ⟨⟨_, db⟩, loaded, wrote⟩
  · cases load_log wrote
  rcases mem_log_bind.mp refused with refused | ⟨⟨_, _⟩, same, refused⟩
  · cases load_log refused
  cases loaded.symm.trans same
  rcases mem_log_bind.mp wrote with wrote | ⟨⟨r, db⟩, executed, wrote⟩
  · rcases execute_log wrote with other | ⟨other, _⟩ <;> cases other
  have fails : r ≠ 0 := by
    rcases mem_log_bind.mp refused with refused | ⟨⟨r, _⟩, same, refused⟩
    · rcases execute_log refused with other | ⟨_, fails⟩
      · cases other
      · exact fails _ executed
    · cases executed.symm.trans same
      by_contra succeeds
      dsimp only at refused
      rw [if_neg (not_not_intro succeeds)] at refused
      rcases mem_log_bind.mp refused with other | ⟨_, _, other⟩
      · exact reload_log other rfl
      · cases free_log other
  dsimp only at wrote
  rw [if_pos fails] at wrote
  cases free_log wrote

end Rtexec
end Bxxt.Proofs
