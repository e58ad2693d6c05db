import Bxxt.Sepol

/-! The five forms of a statement, what their formats make of a text, and which of them a
text is executed as. The keywords begin with different letters, so it is one at most. -/

namespace Bxxt.Proofs
open Bxxt ByteLayout TextScan ScanFormat

inductive Form where
  | allow
  | disallow
  | permissive
  | enforce
  | create
  deriving DecidableEq

namespace Form

def keyword : Form → String
  | allow => "allow"
  | disallow => "disallow"
  | permissive => "permissive"
  | enforce => "enforce"
  | create => "create"

def format (hyphen : Bool) : Form → List Directive
  | allow => ruleFormat hyphen "allow"
  | disallow => ruleFormat hyphen "disallow"
  | permissive => nameFormat "permissive"
  | enforce => nameFormat "enforce"
  | create => nameFormat "create"

def isRule : Form → Bool
  | allow | disallow => true
  | permissive | enforce | create => false

def lastSet (hyphen : Bool) : Form → UInt8 → Bool
  | allow | disallow => permSet hyphen
  | permissive | enforce | create => nameSet

def run (pdb : Policydb) (malloc : AvtabDatum) : Form → List Bytes → Exec (Int × Policydb)
  | allow, [src, tgt, cls, perm] => bxxtSepolAllowExt pdb src tgt cls perm false malloc
  | disallow, [src, tgt, cls, perm] => bxxtSepolAllowExt pdb src tgt cls perm true malloc
  | permissive, [src] => bxxtSepolSetPermissive pdb src true
  | enforce, [src] => bxxtSepolSetPermissive pdb src false
  | create, [src] => do
    let (r, pdb) ← bxxtSepolCreateDomain pdb src
    .ok (if r < 0 then 1 else 0, pdb)
  | _, _ => .ok (-1, pdb)

end Form

section Dispatch
variable {hyphen : Bool} {form other : Form} {text : CString} {names : List Bytes}

theorem head_of_scan (scanned : scan (form.format hyphen) text ≠ []) :
    List.head? text = (ascii form.keyword).head? := by
  cases text with
  | nil => cases form <;> exact absurd rfl scanned
  | cons first rest =>
    by_contra differs
    apply scanned
    cases form <;> exact if_neg fun same => differs (congrArg some same)

theorem form_of_head (starts : List.head? text = (ascii form.keyword).head?) (distinct : other ≠ form) :
    scan (other.format hyphen) text = [] := by
  by_contra also
  have same := starts.symm.trans (head_of_scan also)
  cases form <;> cases other <;> first | exact distinct rfl | exact absurd same (by decide)

theorem execute_form (hyphen : Bool) (text : CString) : ∃ form : Form,
    (∀ other, other ≠ form → scan (other.format hyphen) text = []) ∧ ∀ pdb malloc,
      bxxtSepolExecuteStmt hyphen pdb text malloc =
        sscanf text (form.format hyphen) >>= form.run pdb malloc := by
  have one : ∃ form : Form, ∀ other, other ≠ form → scan (other.format hyphen) text = [] := by
    by_cases some : ∃ form : Form, scan (form.format hyphen) text ≠ []
    · obtain ⟨form, scanned⟩ := some
      exact ⟨form, fun other distinct => form_of_head (head_of_scan scanned) distinct⟩
    · simp only [ne_eq, not_exists, not_not] at some
      exact ⟨.create, fun other _ => some other⟩
  obtain ⟨form, others⟩ := one
  refine ⟨form, others, fun pdb malloc => ?_⟩
  obtain ⟨scans, same⟩ : ∃ scans : Form → Exec (List Bytes), ∀ form :
    Form, sscanf text (form.format hyphen) = scans form :=
    ⟨_, fun _ => rfl⟩
  have silent (other : Form) (distinct : other ≠ form) : scans other = .ok [] := by
    rw [← same, sscanf, others other distinct]
    rfl
  have allow : sscanf text (ruleFormat hyphen "allow") = scans .allow := same .allow
  have disallow : sscanf text (ruleFormat hyphen "disallow") = scans .disallow := same .disallow
  have permissive : sscanf text (nameFormat "permissive") = scans .permissive := same .permissive
  have enforce : sscanf text (nameFormat "enforce") = scans .enforce := same .enforce
  have create : sscanf text (nameFormat "create") = scans .create := same .create
  rw [bxxtSepolExecuteStmt, allow, disallow, permissive, enforce, create, same]
  -- the other scans are silent, and the one that is left has the arity of its form or not
  cases form
  case allow =>
    refine bind_congr fun names => ?_
    rw [silent .disallow (by simp), silent .permissive (by simp), silent .enforce (by simp), silent .create (by simp)]
    rcases names with _ | ⟨src, _ | ⟨tgt, _ | ⟨cls, _ | ⟨perm, _ | _⟩⟩⟩⟩ <;> rfl
  case disallow =>
    rw [silent .allow (by simp), silent .permissive (by simp), silent .enforce (by simp), silent .create (by simp)]
    refine (Exec.ok_bind _ _).trans (bind_congr fun names => ?_)
    rcases names with _ | ⟨src, _ | ⟨tgt, _ | ⟨cls, _ | ⟨perm, _ | _⟩⟩⟩⟩ <;> rfl
  case permissive =>
    rw [silent .allow (by simp), silent .disallow (by simp), silent .enforce (by simp), silent .create (by simp)]
    refine (Exec.ok_bind _ _).trans ((Exec.ok_bind _ _).trans (bind_congr fun names => ?_))
    rcases names with _ | ⟨src, _ | _⟩ <;> rfl
  case enforce =>
    simp only [silent .allow (by simp), silent .disallow (by simp), silent .permissive (by simp),
      silent .create (by simp), Exec.ok_bind]
    refine bind_congr fun names => ?_
    rcases names with _ | ⟨src, _ | _⟩ <;> rfl
  case create =>
    simp only [silent .allow (by simp), silent .disallow (by simp), silent .permissive (by simp),
      silent .enforce (by simp), Exec.ok_bind]
    refine bind_congr fun names => ?_
    rcases names with _ | ⟨src, _ | _⟩ <;> rfl

end Dispatch
section Execute
variable {hyphen : Bool} {form : Form} {text : CString} {names : List Bytes}

theorem fieldCount_format (hyphen : Bool) (form : Form) :
    fieldCount (form.format hyphen) = if form.isRule then 4 else 1 := by
  cases form <;> rfl

theorem run_arity (pdb : Policydb) (malloc : AvtabDatum) (other : names.length ≠ fieldCount (form.format hyphen)) :
    form.run pdb malloc names = .ok (-1, pdb) := by
  rw [fieldCount_format] at other
  cases form
  case allow | disallow =>
    rcases names with _ | ⟨src, _ | ⟨tgt, _ | ⟨cls, _ | ⟨perm, _ | _⟩⟩⟩⟩
    all_goals first | rfl | exact absurd rfl other
  case permissive | enforce | create =>
    rcases names with _ | ⟨src, _ | _⟩
    all_goals first | rfl | exact absurd rfl other

theorem sscanf_fits (fits : ∀ field ∈ scan (form.format hyphen) text, field.length < 256) :
    sscanf text (form.format hyphen) = .ok (scan (form.format hyphen) text) := by
  rw [sscanf]
  apply if_neg
  rw [List.any_eq_true]
  rintro ⟨field, member, long⟩
  have := fits field member
  have := of_decide_eq_true long
  omega

theorem execute_of_scan (scanned : scan (form.format hyphen) text = names) (some : names ≠ [])
    (fits : ∀ field ∈ names, field.length < 256) (pdb : Policydb) (malloc : AvtabDatum) :
    bxxtSepolExecuteStmt hyphen pdb text malloc = form.run pdb malloc names := by
  subst scanned
  obtain ⟨is, others, executed⟩ := execute_form hyphen text
  have same : form = is := by
    by_contra distinct
    exact some (others form distinct)
  subst same
  rw [executed, sscanf_fits fits, Exec.ok_bind]

theorem execute_refused (short : ∀ form : Form, (scan (form.format hyphen) text).length <
    fieldCount (form.format hyphen))
    (fits : ∀ form : Form, ∀ field ∈ scan (form.format hyphen) text, field.length < 256) (pdb : Policydb)
    (malloc : AvtabDatum) :
    bxxtSepolExecuteStmt hyphen pdb text malloc = .ok (-1, pdb) := by
  obtain ⟨form, _, executed⟩ := execute_form hyphen text
  rw [executed, sscanf_fits (fits form), Exec.ok_bind]
  exact run_arity pdb malloc (short form).ne

theorem execute_short (starts : List.head? text = (ascii form.keyword).head?)
    (short : (scan (form.format hyphen) text).length < fieldCount (form.format hyphen))
    (fits : ∀ field ∈ scan (form.format hyphen) text, field.length < 256) (pdb : Policydb) (malloc : AvtabDatum) :
    bxxtSepolExecuteStmt hyphen pdb text malloc = .ok (-1, pdb) := by
  apply execute_refused
  · intro other
    by_cases same : other = form
    · exact same ▸ short
    · rw [form_of_head starts same, fieldCount_format]
      cases other <;> decide
  · intro other
    by_cases same : other = form
    · exact same ▸ fits
    · rw [form_of_head starts same]
      simp

theorem execute_overrun {field : Bytes} (member : field ∈ scan (form.format hyphen) text)
    (long : 256 ≤ field.length) (pdb : Policydb) (malloc : AvtabDatum) : bxxtSepolExecuteStmt hyphen pdb text malloc =
    .error .stackOverflow := by
  obtain ⟨is, others, executed⟩ := execute_form hyphen text
  have same : form = is := by
    by_contra distinct
    rw [others form distinct] at member
    cases member
  subst same
  rw [executed, sscanf, if_pos]
  · rfl
  · exact List.any_eq_true.mpr ⟨field, member, decide_eq_true long⟩

end Execute
end Bxxt.Proofs
