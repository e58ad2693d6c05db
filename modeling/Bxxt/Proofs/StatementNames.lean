import Bxxt.Proofs.NamedPolicy
import Bxxt.Proofs.StatementGrammar
import Bxxt.Proofs.TypeCreation

/-! Which names a statement acts on. A scanset without zeros and capitals ends a name at the
first of them; only behind the last name of a statement nothing notices. -/

namespace Bxxt.Proofs
open Bxxt ByteLayout TextScan ScanFormat

/-- The last name is not read to its end, and nothing before it keeps the statement from being
executed on what was read. -/
def Cut (hyphen : Bool) (form : Form) (names : List Bytes) : Prop :=
  ∃ front last, names = front ++ [last] ∧ (∀ name ∈ front, ∀ char ∈ name, nameSet char = true) ∧
    last.takeWhile (form.lastSet hyphen) ≠ [] ∧ last.takeWhile (form.lastSet hyphen) ≠ last

/-- What a statement is meant to do: the operation on the names as they are written, or a failure
that changes nothing. -/
def ActsOn (hyphen : Bool) (form : Form) (names : List Bytes) (text : CString) (pdb : Policydb)
    (malloc : AvtabDatum) : Prop :=
  bxxtSepolExecuteStmt hyphen pdb text malloc = form.run pdb malloc names ∨
    ∃ r, r ≠ 0 ∧ bxxtSepolExecuteStmt hyphen pdb text malloc = .ok (r, pdb)

section NameForms

structure FilePolicy (p : Policydb) : Prop where
  loaded : Loaded p
  full : NoGaps p
  room : Room p
  types : p.pTypes.nprim = 2
  known : ∀ {key type}, hashtabSearch p.pTypes.table key = some type →
    (key = cstring (ascii "init") ∨ key = cstring (ascii "kernel")) ∧ type.value.toNat ≤ 2
  init : ∃ type, hashtabSearch p.pTypes.table (cstring (ascii "init")) = some type
  noPermissive : p.permissiveMap.node = []

theorem filePolicy_exists : ∃ p, FilePolicy p := by
  obtain ⟨p, loaded, tested⟩ := @loaded_of_readsTo fileImage (fun p => countsNew [] 0 p &&
      (hashtabSearch p.pTypes.table (cstring (ascii "init"))).isSome && p.permissiveMap.node.isEmpty &&
      p.pTypes.table.nodes.all fun node => decide
        ((node.1 = cstring (ascii "init") ∨ node.1 = cstring (ascii "kernel")) ∧ node.2.value.toNat ≤ 2))
    (by decide +kernel)
  simp only [countsNew, Bool.and_eq_true, beq_iff_eq, Option.any_eq_true, List.all_eq_true, decide_eq_true_eq,
    List.isEmpty_iff] at tested
  obtain ⟨⟨⟨⟨⟨⟨one, role, found, value⟩, two⟩, _⟩, init⟩, noPermissive⟩, nodes⟩ := tested
  refine ⟨p, loaded, ?_, ⟨by rw [two]; decide, by rw [one]; decide⟩, two, fun found =>
    ?_, Option.isSome_iff_exists.mp init,
    noPermissive⟩
  · intro i below
    rw [one] at below
    refine ⟨objectR, role, found, ?_⟩
    rw [value]
    change i < 1 at below
    change 1 = i + 1
    omega
  · exact nodes (_, _) ((Hashtab.mem_nodes (loaded_consistent loaded).1.types).mpr found)

variable {p : Policydb}

theorem create_succeeds (file : FilePolicy p) (domain : CString) : ∃ value q, value ≤ 3 ∧
    bxxtSepolCreateDomain p domain = .ok (asInt (value : Nat), q) ∧
      (∃ type, hashtabSearch q.pTypes.table domain = some type) ∧
    q.permissiveMap = p.permissiveMap ∧ ∀ other, other ≠ domain → hashtabSearch q.pTypes.table other =
      hashtabSearch p.pTypes.table other := by
  obtain ⟨consistent, attributes, _⟩ := loaded_consistent file.loaded
  cases found : hashtabSearch p.pTypes.table domain with
  | some type =>
    have := (file.known found).2
    exact ⟨type.value.toNat, p, by omega, by rw [bxxtSepolCreateDomain, found], ⟨type, found⟩,
      rfl, fun _ _ => rfl⟩
  | none =>
    obtain ⟨q, run, created⟩ := create_fresh consistent attributes file.full file.room found
    refine ⟨_, q, ?_, run, ⟨createdType p, by rw [created.types, if_pos rfl]⟩, created.permissive, ?_⟩
    · rw [file.types]
      decide
    · intro other differs
      rw [created.types, if_neg differs]

theorem ofInt_asInt (value : UInt32) : UInt32.ofInt (asInt value.toNat) = value := by
  obtain ⟨lost, spec, _⟩ := asInt_spec value.toNat
  have bound := value.toNat_lt
  rw [← UInt32.toNat_inj, spec, UInt32.ofInt, UInt32.toNat_ofNat']
  omega

/-- A permissive domain is created, unless it is there, and its bit is set. -/
theorem setPermissive_eq (pdb : Policydb) (domain : CString) (permissive : Bool) :
    bxxtSepolSetPermissive pdb domain permissive = bxxtSepolCreateDomain pdb domain >>= fun result =>
      .ok ((ebitmapSetBit result.2.permissiveMap (UInt32.ofInt result.1) permissive).1,
        { result.2 with permissiveMap :=
          (ebitmapSetBit result.2.permissiveMap (UInt32.ofInt result.1) permissive).2 }) := by
  rw [bxxtSepolSetPermissive]
  cases found : hashtabSearch pdb.pTypes.table domain with
  | some sd =>
    have known : bxxtSepolCreateDomain pdb domain = .ok (asInt sd.value.toNat, pdb) := by
      rw [bxxtSepolCreateDomain, found]
    rw [known]
    simp only [Exec.ok_bind, ofInt_asInt]
    rfl
  | none =>
    cases run : bxxtSepolCreateDomain pdb domain with
    | error fault => rfl
    | ok result => rfl

theorem name_succeeds (file : FilePolicy p) {form : Form} (single : form.isRule = false) (malloc : AvtabDatum)
    (domain : CString) :
    ∃ q, form.run p malloc [domain] = .ok (0, q) ∧ (∃ type, hashtabSearch q.pTypes.table domain = some type) ∧
      ∀ other : CString, other ≠ domain → hashtabSearch q.pTypes.table other =
        hashtabSearch p.pTypes.table other := by
  obtain ⟨value, q, small, run, here, permissive, others⟩ := create_succeeds file domain
  have positive : asInt (value : Nat) = value := asInt_of_small (by omega)
  have permits (on : Bool) : ∃ map, bxxtSepolSetPermissive p domain on =
      .ok (0, { q with permissiveMap := map }) := by
    have bit : (UInt32.ofInt (asInt (value : Nat))).toNat ≤ Ebitmap.maxBit := by
      have same := ofInt_asInt (UInt32.ofNat value)
      rw [UInt32.toNat_ofNat', Nat.mod_eq_of_lt (by omega)] at same
      rw [same, UInt32.toNat_ofNat', Nat.mod_eq_of_lt (by omega), Ebitmap.maxBit, mapsize]
      omega
    obtain ⟨map, set, _⟩ := Ebitmap.setBit_spec (permissive ▸ (loaded_consistent file.loaded).1.permissive) bit on
    refine ⟨map, ?_⟩
    rw [setPermissive_eq, run, Exec.ok_bind]
    dsimp only
    rw [set]
  cases form
  case create =>
    refine ⟨q, ?_, here, others⟩
    change (bxxtSepolCreateDomain p domain >>= _) = _
    rw [run, Exec.ok_bind]
    dsimp only
    rw [positive, if_neg (by omega)]
  case permissive =>
    obtain ⟨map, permitted⟩ := permits true
    exact ⟨_, permitted, here, others⟩
  case enforce =>
    obtain ⟨map, permitted⟩ := permits false
    exact ⟨_, permitted, here, others⟩
  all_goals cases single

end NameForms
section Names
variable {hyphen : Bool} {form : Form} {names : List Bytes} {text : CString}

theorem cstring_plain {name : Bytes} (plain : ∀ char ∈ name, char ≠ 0) : cstring name = name :=
  List.takeWhile_eq_self_iff.mpr fun char member => by simp [plain char member]

theorem nameSet_ne_zero {char : UInt8} (inside : nameSet char = true) : char ≠ 0 := by
  rintro rfl
  cases inside

theorem lastSet_ne_zero {char : UInt8} (inside : form.lastSet hyphen char = true) : char ≠ 0 := by
  rintro rfl
  cases form <;> cases hyphen <;> cases inside

theorem isWord_ne_zero {char : UInt8} (word : isWord char = true) : char ≠ 0 := by
  rintro rfl
  cases word

theorem isStar_identifier {name : CString} (word : Identifier name) : isStar name = false := by
  obtain ⟨first, others, shape⟩ := List.exists_cons_of_ne_nil word.some
  have plain := (isWord_plain (word.word first (by rw [shape]; exact List.mem_cons_self))).2.2
  change (List.head? name == some 42) = false
  rw [shape]
  exact beq_eq_false_iff_ne.mpr fun same => plain (Option.some.inj same)

theorem name_acts_otherwise {domain : CString} (single : form.isRule = false)
    (executed : ∀ pdb malloc, bxxtSepolExecuteStmt hyphen pdb text malloc =
      form.run pdb malloc [domain.takeWhile (form.lastSet hyphen)])
    (shorter : domain.takeWhile (form.lastSet hyphen) ≠ domain) :
    ∃ pdb malloc, Loaded pdb ∧ ¬ ActsOn hyphen form [domain] text pdb malloc := by
  obtain ⟨p, file⟩ := filePolicy_exists
  refine ⟨p, ⟨0, none⟩, file.loaded, ?_⟩
  obtain ⟨q, run, ⟨type, here⟩, _⟩ := name_succeeds file single ⟨0, none⟩ domain
  obtain ⟨q', run', _, others⟩ := name_succeeds file single ⟨0, none⟩ (domain.takeWhile (form.lastSet hyphen))
  rw [ActsOn, executed, run, run']
  have unknown : hashtabSearch p.pTypes.table domain = none := by
    cases found : hashtabSearch p.pTypes.table domain with
    | none => rfl
    | some old =>
      have names : form.lastSet hyphen = nameSet := by cases form <;> first | rfl | cases single
      rcases (file.known found).1 with rfl | rfl <;> rw [names] at shorter <;> exact absurd rfl shorter
  rintro (same | ⟨r, nonzero, failed⟩)
  · cases same
    rw [others domain (Ne.symm shorter), unknown] at here
    cases here
  · cases failed
    exact nonzero rfl

theorem rule_acts_otherwise {src tgt cls perm : CString} (rule : form.isRule = true)
    (executed : ∀ pdb malloc, bxxtSepolExecuteStmt hyphen pdb text malloc =
      form.run pdb malloc [src, tgt, cls, perm.takeWhile (form.lastSet hyphen)])
    (whole : ∀ name ∈ [src, tgt, cls], name ≠ ([] : Bytes) ∧ cstring name = name) (plain : isStar perm = false)
    (some : perm.takeWhile (form.lastSet hyphen) ≠ []) (shorter : perm.takeWhile (form.lastSet hyphen) ≠ perm) :
    ∃ pdb malloc, Loaded pdb ∧ ¬ ActsOn hyphen form [src, tgt, cls, perm] text pdb malloc := by
  have whole_cut : cstring (perm.takeWhile (form.lastSet hyphen)) = perm.takeWhile (form.lastSet hyphen) :=
    cstring_plain fun char member => lastSet_ne_zero (List.mem_takeWhile_imp member)
  obtain ⟨someSource, source⟩ := whole src (by simp)
  obtain ⟨someTarget, target⟩ := whole tgt (by simp)
  obtain ⟨someClass, ofClass⟩ := whole cls (by simp)
  obtain ⟨p, loaded, edits⟩ := rule_succeeds someSource someTarget someClass some
  rw [source, target, ofClass, whole_cut] at edits
  refine ⟨p, ⟨0, none⟩, loaded, ?_⟩
  have run (disallow : Bool) :
    ¬ (bxxtSepolAllowExt p src tgt cls (perm.takeWhile (form.lastSet hyphen)) disallow ⟨0, none⟩ =
      bxxtSepolAllowExt p src tgt cls perm disallow ⟨0, none⟩ ∨ ∃ r, r ≠ 0 ∧
        bxxtSepolAllowExt p src tgt cls (perm.takeWhile (form.lastSet hyphen)) disallow
          ⟨0, none⟩ = .ok (r, p)) := by
    obtain ⟨⟨q, done⟩, unknown⟩ := edits disallow ⟨0, none⟩
    rw [done, unknown perm plain (Ne.symm shorter)]
    rintro (same | ⟨r, nonzero, failed⟩)
    · exact absurd (congrArg Prod.fst (Except.ok.inj same)) (by decide : (0 : Int) ≠ bxxtFailed)
    · cases failed
      exact nonzero rfl
  rw [ActsOn, executed]
  cases form
  case allow => exact run false
  case disallow => exact run true
  all_goals cases rule

/-- A name that is cut is another name, and there is a policy that knows the difference. -/
theorem cut_acts_otherwise (documented : Documented form names text) (cut : Cut hyphen form names) :
    ∃ pdb malloc, Loaded pdb ∧ ¬ ActsOn hyphen form names text pdb malloc := by
  obtain ⟨front, last, shape, whole, some, shorter⟩ := cut
  obtain ⟨front', last', same, fits, scanned⟩ := @documented_scan hyphen _ _ _ documented
  rw [shape] at same
  obtain ⟨rfl, last_eq⟩ := List.append_inj' same rfl
  cases last_eq
  rw [if_pos ⟨whole, some⟩] at scanned
  have executed (pdb : Policydb) (malloc : AvtabDatum) := execute_of_scan scanned (by simp)
    (scanned ▸ fits) pdb malloc
  cases documented with
  | @name domain gap stop single =>
    obtain ⟨rfl, last_eq⟩ := @List.append_inj' _ [] _ _ _ shape rfl
    cases last_eq
    exact name_acts_otherwise single executed shorter
  | @rule src tgt cls perm gap between rest stop rule _ isSource _ isTarget isClass _ isPerm =>
    obtain ⟨rfl, last_eq⟩ := @List.append_inj' _ [src, tgt, cls] _ _ _ shape rfl
    cases last_eq
    have plain : isStar last = false := by
      rcases isPerm with word | rfl
      · exact isStar_identifier word
      · have set : form.lastSet hyphen = permSet hyphen := (format_rule rule hyphen).2
        rw [set] at shorter
        exact absurd (by cases hyphen <;> rfl) shorter
    refine rule_acts_otherwise rule executed ?_ plain some shorter
    have known {name : CString} (word : Identifier name) : name ≠ ([] : Bytes) ∧ cstring name = name :=
      ⟨word.some, cstring_plain fun char inside => isWord_ne_zero (word.word char inside)⟩
    exact List.forall_mem_cons.mpr ⟨known isSource,
      List.forall_mem_cons.mpr ⟨known isTarget, List.forall_mem_cons.mpr ⟨known isClass,
      fun _ member => absurd member List.not_mem_nil⟩⟩⟩

/-- A statement of the manual acts on its names, or fails and changes nothing, unless its
last name is cut. -/
theorem statement_names_iff (documented : Documented form names text) :
    ((∀ pdb malloc, Loaded pdb → ActsOn hyphen form names text pdb malloc) ↔ ¬ Cut hyphen form names) ∧
      (¬ Cut hyphen form names → ∀ pdb malloc, ActsOn hyphen form names text pdb malloc) := by
  have acts (uncut : ¬ Cut hyphen form names) (pdb : Policydb) (malloc : AvtabDatum) :
      ActsOn hyphen form names text pdb malloc := by
    obtain ⟨front, last, rfl, fits, scanned⟩ := @documented_scan hyphen _ _ _ documented
    split at scanned
    next reads =>
      have whole : last.takeWhile (form.lastSet hyphen) = last := by
        by_contra shorter
        exact uncut ⟨front, last, rfl, reads.1, reads.2, shorter⟩
      left
      rw [execute_of_scan scanned (by simp) (scanned ▸ fits), whole]
    next => exact Or.inr ⟨-1, by decide, execute_short (documented_starts documented) scanned fits pdb malloc⟩
  refine ⟨⟨?_, fun uncut pdb malloc _ => acts uncut pdb malloc⟩, acts⟩
  intro always cut
  obtain ⟨pdb, malloc, loaded, otherwise⟩ := cut_acts_otherwise documented cut
  exact otherwise (always pdb malloc loaded)

theorem create_documented {name : Bytes} (word : Identifier name) :
    Documented .create [name] (ascii "create" ++ ([32] ++ (name ++ []))) :=
  .name rfl ⟨by simp, by simp [isSpace]⟩ word (Or.inl rfl)

theorem create_acts_on_its_name : ∃ pdb malloc, Loaded pdb ∧
    ActsOn false .create [ascii "aaaa"] (ascii "create aaaa") pdb malloc := by
  obtain ⟨p, file⟩ := filePolicy_exists
  refine ⟨p, ⟨0, none⟩, file.loaded, ?_⟩
  refine (statement_names_iff (create_documented (.of_all (by decide) (by decide) (by decide)))).2 ?_ p _
  intro ⟨front, last, shape, _, _, shorter⟩
  obtain ⟨rfl, last_eq⟩ := @List.append_inj' _ [] _ _ _ shape rfl
  cases last_eq
  exact shorter rfl

theorem create_cuts_zero : Documented .create [ascii "init0"] (ascii "create init0") ∧
    ∀ hyphen, ∃ pdb malloc, Loaded pdb ∧
    ¬ ActsOn hyphen .create [ascii "init0"] (ascii "create init0") pdb malloc := by
  have documented : Documented .create [ascii "init0"] (ascii "create init0") :=
    create_documented (.of_all (by decide) (by decide) (by decide))
  refine ⟨documented, fun hyphen => ?_⟩
  exact cut_acts_otherwise documented ⟨[], ascii "init0", rfl, by simp,
    (by decide : (ascii "init0").takeWhile nameSet ≠ []),
    (by decide : (ascii "init0").takeWhile nameSet ≠ ascii "init0")⟩

end Names
section Refusals
variable {hyphen : Bool} {form : Form} {names : List Bytes} {text : CString}

def Refused (hyphen : Bool) (text : CString) (pdb : Policydb) (malloc : AvtabDatum) : Prop :=
  ∃ r, r ≠ 0 ∧ bxxtSepolExecuteStmt hyphen pdb text malloc = .ok (r, pdb)

/-- A field that does not fit its buffer, although the scan may end before the last one. -/
def Overlong (hyphen : Bool) (text : CString) : Prop :=
  ∃ form : Form, ∃ field ∈ scan (form.format hyphen) text, 256 ≤ field.length

theorem format_sets {set : UInt8 → Bool} (listed : Directive.field set ∈ form.format hyphen) :
    set = nameSet ∨ set = permSet hyphen := by
  cases form <;> simp [Form.format, ruleFormat, nameFormat] at listed <;> tauto

/-- Whatever is read as a statement is one that some policy takes. -/
theorem reads_succeeds (reads : Reads (form.format hyphen) text names) : ∃ pdb malloc q, Loaded pdb ∧
    form.run pdb malloc names = .ok (0, q) := by
  have plain : ∀ name ∈ names, name ≠ [] ∧ cstring name = name := by
    intro name member
    obtain ⟨some, set, listed, inside⟩ := reads.inside name member
    refine ⟨some, cstring_plain fun char within => ?_⟩
    rcases format_sets listed with rfl | rfl
    · exact nameSet_ne_zero (inside char within)
    · exact @lastSet_ne_zero hyphen .allow char (inside char within)
  have count := (scan_eq_iff.mpr reads).2
  rw [fieldCount_format] at count
  cases rule : form.isRule with
  | true =>
    rw [rule] at count
    obtain ⟨src, tgt, cls, perm, rfl⟩ : ∃ src tgt cls perm : CString, names = [src, tgt, cls, perm] := by
      match names, count with
      | [src, tgt, cls, perm], _ => exact ⟨src, tgt, cls, perm, rfl⟩
    obtain ⟨⟨someSource, source⟩, plain⟩ := List.forall_mem_cons.mp plain
    obtain ⟨⟨someTarget, target⟩, plain⟩ := List.forall_mem_cons.mp plain
    obtain ⟨⟨someClass, ofClass⟩, plain⟩ := List.forall_mem_cons.mp plain
    obtain ⟨⟨somePerm, ofPerm⟩, _⟩ := List.forall_mem_cons.mp plain
    obtain ⟨p, loaded, edits⟩ := rule_succeeds someSource someTarget someClass somePerm
    rw [source, target, ofClass, ofPerm] at edits
    cases form
    case allow =>
      obtain ⟨q, run⟩ := (edits false ⟨0, none⟩).1
      exact ⟨p, _, q, loaded, run⟩
    case disallow =>
      obtain ⟨q, run⟩ := (edits true ⟨0, none⟩).1
      exact ⟨p, _, q, loaded, run⟩
    all_goals cases rule
  | false =>
    rw [rule] at count
    obtain ⟨domain, rfl⟩ := List.length_eq_one_iff.mp count
    obtain ⟨p, file⟩ := filePolicy_exists
    obtain ⟨q, run, _⟩ := name_succeeds file rule ⟨0, none⟩ domain
    exact ⟨p, _, q, file.loaded, run⟩

/-- A text that is no statement is refused exactly if no format reads it, and none overruns
a buffer before it gives up. -/
theorem refusals_iff (hyphen : Bool) (text : CString) :
    ((¬ ∃ form names, Documented form names text) → ∀ pdb malloc, Loaded pdb →
      Refused hyphen text pdb malloc) ↔
      (∃ form names, Documented form names text) ∨
        (¬ ∃ (form : Form) (names : _), Reads (form.format hyphen) text names) ∧ ¬ Overlong hyphen text := by
  constructor
  · intro refuses
    by_cases documented : ∃ form names, Documented form names text
    · exact Or.inl documented
    · have refused := refuses documented
      refine Or.inr ⟨?_, ?_⟩
      · rintro ⟨form, names, reads⟩
        obtain ⟨pdb, malloc, q, loaded, run⟩ := reads_succeeds reads
        obtain ⟨r, nonzero, failed⟩ := refused pdb malloc loaded
        obtain ⟨scanned, count⟩ := scan_eq_iff.mpr reads
        by_cases fits : ∀ field ∈ names, field.length < 256
        · have some : names ≠ [] := by
            rintro rfl
            rw [fieldCount_format] at count
            cases form <;> cases count
          rw [execute_of_scan scanned some fits, run] at failed
          cases failed
          exact nonzero rfl
        · simp only [not_forall, not_lt] at fits
          obtain ⟨field, member, long⟩ := fits
          rw [execute_overrun (scanned ▸ member) long] at failed
          cases failed
      · rintro ⟨form, field, member, long⟩
        obtain ⟨p, file⟩ := filePolicy_exists
        obtain ⟨r, nonzero, failed⟩ := refused p ⟨0, none⟩ file.loaded
        rw [execute_overrun member long] at failed
        cases failed
  · rintro (documented | ⟨unread, fits⟩) undocumented pdb malloc loaded
    · exact absurd documented undocumented
    · refine ⟨-1, by decide, execute_refused ?_ ?_ pdb malloc⟩
      · intro form
        refine lt_of_le_of_ne (scan_length_le _ _) fun all => unread ⟨form, _, scan_eq_iff.mp ⟨rfl, all⟩⟩
      · intro form field member
        by_contra long
        exact fits ⟨form, field, member, by omega⟩

/-- Without a blank it is no statement, and executed all the same. -/
theorem create_needs_no_blank : (¬ ∃ form names, Documented form names (ascii "createaaaa")) ∧
    ∀ hyphen, ∃ pdb malloc, Loaded pdb ∧ ¬ Refused hyphen (ascii "createaaaa") pdb malloc := by
  constructor
  · rintro ⟨form, names, documented⟩
    have starts := documented_starts documented
    have isCreate : form = .create := by cases form <;> first | rfl | exact absurd starts (by decide)
    subst isCreate
    generalize shape : ascii "createaaaa" = text at documented
    cases documented with
    | @name domain gap stop single first =>
      obtain ⟨char, others, rfl⟩ := List.exists_cons_of_ne_nil first.1
      have rest : ascii "aaaa" = (char :: others) ++ (domain ++ stop) :=
        @List.append_cancel_left _ (ascii "create") _ _ shape
      have blank := first.2 char List.mem_cons_self
      rw [← (List.cons.inj rest).1] at blank
      cases blank
    | rule rule => cases rule
  · intro hyphen
    obtain ⟨p, file⟩ := filePolicy_exists
    refine ⟨p, ⟨0, none⟩, file.loaded, ?_⟩
    obtain ⟨q, run, _⟩ := @name_succeeds p file .create rfl ⟨0, none⟩ (ascii "aaaa")
    have scanned : scan (Form.create.format hyphen) (ascii "createaaaa") = [ascii "aaaa"] := rfl
    rintro ⟨r, nonzero, failed⟩
    rw [execute_of_scan scanned (by simp) (by decide), run] at failed
    cases failed
    exact nonzero rfl

end Refusals
end Bxxt.Proofs
