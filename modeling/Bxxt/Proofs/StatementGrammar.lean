import Bxxt.Proofs.Statements

/-! The statements of the manual, and what is scanned of them. A name ends where its
characters do, or at the first one that the scanset does not have. -/

namespace Bxxt.Proofs
open Bxxt ByteLayout TextScan ScanFormat

def Gap (gap : Bytes) : Prop := gap ≠ [] ∧ ∀ char ∈ gap, isSpace char = true

/-- Letters, digits, the underscore and the hyphen. -/
def isWord (char : UInt8) : Bool :=
  (48 ≤ char ∧ char ≤ 57) ∨ (65 ≤ char ∧ char ≤ 90) ∨ (97 ≤ char ∧ char ≤ 122) ∨
    char = 95 ∨ char = 45

structure Identifier (name : Bytes) : Prop where
  some : name ≠ []
  short : name.length ≤ 255
  word : ∀ char ∈ name, isWord char = true

theorem Identifier.of_all {name : Bytes} (some : name ≠ []) (short : name.length ≤ 255)
    (word : name.all isWord = true) :
    Identifier name := ⟨some, short, List.all_eq_true.mp word⟩

def Permission (name : Bytes) : Prop := Identifier name ∨ name = [42]

/-- A statement of the manual with its names: nothing but blanks between them, and nothing
behind them but a semicolon. -/
inductive Documented : Form → List Bytes → Bytes → Prop
  | name {form domain gap stop} (single : form.isRule = false) (first : Gap gap) (isDomain : Identifier domain)
      (ends : stop = [] ∨ stop = [59]) : Documented form [domain] (ascii form.keyword ++ (gap ++ (domain ++ stop)))
  | rule {form src tgt cls perm gap between last stop} (rule : form.isRule = true) (first : Gap gap)
      (isSource : Identifier src) (second : Gap between) (isTarget : Identifier tgt) (isClass : Identifier cls)
      (third : Gap last) (isPerm : Permission perm) (ends : stop = [] ∨ stop = [59]) :
      Documented form [src, tgt, cls, perm]
        (ascii form.keyword ++ (gap ++ (src ++ (between ++ (tgt ++ 58 :: (cls ++ (last ++ (perm ++ stop))))))))

section Characters

theorem nameSet_plain {char : UInt8} (inside : nameSet char = true) :
    isSpace char = false ∧ char ≠ 58 ∧ char ≠ 59 := by
  simp only [nameSet, isSpace, decide_eq_true_eq, decide_eq_false_iff_not, ne_eq, UInt8.le_iff_toNat_le,
    ← UInt8.toNat_inj, UInt8.reduceToNat] at *
  omega

theorem isWord_plain {char : UInt8} (inside : isWord char = true) :
    isSpace char = false ∧ char ≠ 58 ∧ char ≠ 42 := by
  simp only [isWord, isSpace, decide_eq_true_eq, decide_eq_false_iff_not, ne_eq, UInt8.le_iff_toNat_le,
    ← UInt8.toNat_inj, UInt8.reduceToNat] at *
  omega

theorem permSet_name {hyphen : Bool} {char : UInt8} (inside : permSet hyphen char = true) :
    nameSet char = true ∨ char = 42 := by
  simp only [permSet, nameSet, decide_eq_true_eq] at *
  tauto

end Characters
section Scans
variable {hyphen : Bool} {rest : List Directive} {name text : Bytes}

/-- So many fields at most, all of which fit. -/
def Over (count : Nat) (fields : List Bytes) : Prop := fields.length ≤ count ∧ ∀ field ∈ fields,
    field.length < 256

/-- Directives that fail in front of a character that a name may have and a scanset has not, so that
a scan stops inside of such a name. -/
def Closed (rest : List Directive) : Prop :=
  ∀ char text, isWord char = true → nameSet char = false → scan rest (char :: text) = []

/-- A name that is read whole, or the scan is over. -/
theorem scan_name (word : Identifier name) (ends : Ends nameSet text) (closed : Closed rest) :
    if ∀ char ∈ name, nameSet char = true then scan (.field nameSet :: rest) (name ++ text) = name :: scan rest text
    else Over 1 (scan (.field nameSet :: rest) (name ++ text)) := by
  split
  next whole => exact scan_run word.some whole ends
  next stray =>
    obtain ⟨char, others, left⟩ : ∃ char others, name.dropWhile nameSet = char :: others :=
      List.exists_cons_of_ne_nil fun none => stray (List.dropWhile_eq_nil_iff.mp none)
    have member : char ∈ name := (List.dropWhile_sublist nameSet).subset (left ▸ List.mem_cons_self)
    have outside : nameSet char = false := ends_dropWhile nameSet name char (by rw [left]; rfl)
    rw [scan_cut stray, left, List.cons_append, closed char _ (word.word char member) outside]
    split
    next => simp [Over]
    next =>
      have := (List.takeWhile_sublist nameSet (l := name)).length_le
      have := word.short
      simp [Over]
      omega

theorem scan_last {set : UInt8 → Bool} (semicolon : set 59 = false) {stop : Bytes} (ends : stop = [] ∨ stop = [59])
    (name : Bytes) : scan [.field set, .literal 59] (name ++ stop) = if name.takeWhile set = [] then []
    else [name.takeWhile set] := by
  have silent (text : Bytes) : scan [.literal 59] text = [] := scan_of_noFields rfl text
  have taken : (name ++ stop).takeWhile set = name.takeWhile set := by
    have stopped : stop.takeWhile set = [] := by rcases ends with rfl | rfl <;> simp [semicolon]
    rw [List.takeWhile_append, stopped, List.append_nil]
    split
    next same => exact ((List.takeWhile_prefix set).eq_of_length same).symm
    next => rfl
  rw [scan, taken]
  split
  next none => rw [if_pos none]
  next run some => rw [if_neg some, silent]

theorem ends_name (word : Identifier name) (text : Bytes) : Ends isSpace (name ++ text) := by
  obtain ⟨first, others, rfl⟩ := List.exists_cons_of_ne_nil word.some
  rintro char ⟨⟩
  exact (isWord_plain (word.word first List.mem_cons_self)).1

theorem ends_gap {gap : Bytes} (blank : Gap gap) (text : Bytes) : Ends nameSet (gap ++ text) := by
  obtain ⟨first, others, rfl⟩ := List.exists_cons_of_ne_nil blank.1
  rintro char ⟨⟩
  by_contra inside
  have := (nameSet_plain (Bool.not_eq_false _ ▸ inside)).1
  rw [blank.2 first List.mem_cons_self] at this
  cases this

theorem ends_perm {perm : Bytes} (isPerm : Permission perm) (text : Bytes) : Ends isSpace (perm ++ text) := by
  rcases isPerm with word | rfl
  · exact ends_name word text
  · rintro char ⟨⟩
    rfl

theorem lastSet_semicolon (hyphen : Bool) (form : Form) : form.lastSet hyphen 59 = false := by
  cases form <;> cases hyphen <;> rfl

theorem Over.cons {count : Nat} {field : Bytes} {fields : List Bytes} (word : Identifier field)
    (beyond : Over count fields) :
    Over (count + 1) (field :: fields) :=
  ⟨Nat.succ_le_succ beyond.1, List.forall_mem_cons.mpr ⟨by have := word.short; omega, beyond.2⟩⟩

theorem Over.mono {count more : Nat} {fields : List Bytes} (beyond : Over count fields) (low : count ≤ more) :
    Over more fields :=
  ⟨beyond.1.trans low, beyond.2⟩

def classPart (hyphen : Bool) : List Directive := [.field nameSet, .blanks, .field (permSet hyphen), .literal 59]
def targetPart (hyphen : Bool) : List Directive := .field nameSet :: .literal 58 :: classPart hyphen
def sourcePart (hyphen : Bool) : List Directive := .field nameSet :: .blanks :: targetPart hyphen

theorem closed_blanks {set : UInt8 → Bool}
    (narrow : ∀ char, isWord char = true → nameSet char = false → set char = false)
    (rest : List Directive) : Closed (.blanks :: .field set :: rest) := by
  intro char text word outside
  have space : ¬ isSpace char = true := by simp [(isWord_plain word).1]
  have missing : ¬ set char = true := by simp [narrow char word outside]
  rw [scan, List.dropWhile_cons_of_neg space, scan, List.takeWhile_cons_of_neg missing]

theorem closed_colon (rest : List Directive) : Closed (.literal 58 :: rest) := by
  intro char text word _
  exact if_neg (isWord_plain word).2.1

theorem scan_names {src tgt cls between last perm : Bytes} (isSource : Identifier src) (second : Gap between)
    (isTarget : Identifier tgt) (isClass : Identifier cls) (third : Gap last) (isPerm : Ends isSpace perm) :
    if ∀ name ∈ [src, tgt, cls], ∀ char ∈ name, nameSet char = true then
      scan (sourcePart hyphen) (src ++ (between ++ (tgt ++ 58 :: (cls ++ (last ++ perm))))) =
        src :: tgt :: cls :: scan [.field (permSet hyphen), .literal 59] perm
    else Over 3 (scan (sourcePart hyphen) (src ++ (between ++ (tgt ++ 58 :: (cls ++ (last ++ perm)))))) := by
  have closedPerm : Closed [.blanks, .field (permSet hyphen), .literal 59] := by
    apply closed_blanks
    intro char word outside
    by_contra inside
    rcases permSet_name (Bool.not_eq_false _ ▸ inside) with name | star
    · rw [name] at outside
      cases outside
    · exact (isWord_plain word).2.2 star
  have closedName (rest : List Directive) : Closed (.blanks :: .field nameSet :: rest) :=
    closed_blanks (fun _ _ outside => outside) rest
  have source := @scan_name (.blanks :: targetPart hyphen) _ _ isSource
    (ends_gap second (tgt ++ 58 :: (cls ++ (last ++ perm))))
    (closedName _)
  have colon : Ends nameSet (58 :: (cls ++ (last ++ perm))) := by
    rintro char ⟨⟩
    rfl
  have target := @scan_name (.literal 58 :: classPart hyphen) _ _ isTarget colon (closed_colon _)
  have ofClass := @scan_name [.blanks, .field (permSet hyphen), .literal 59] _ _ isClass
    (ends_gap third perm) closedPerm
  rw [scan_gap second.2 (ends_name isTarget _)] at source
  rw [scan_gap third.2 isPerm] at ofClass
  by_cases sourceWhole : ∀ char ∈ src, nameSet char = true
  · rw [if_pos sourceWhole] at source
    rw [sourcePart, source]
    by_cases targetWhole : ∀ char ∈ tgt, nameSet char = true
    · rw [if_pos targetWhole, scan, if_pos rfl] at target
      rw [targetPart, target]
      by_cases classWhole : ∀ char ∈ cls, nameSet char = true
      · rw [if_pos classWhole] at ofClass
        rw [if_pos (by simp only [List.forall_mem_cons]; exact ⟨sourceWhole, targetWhole, classWhole, by simp⟩),
          classPart, ofClass]
      · rw [if_neg classWhole] at ofClass
        rw [if_neg fun all => classWhole (all cls (by simp))]
        exact (ofClass.cons isTarget).cons isSource
    · rw [if_neg targetWhole] at target
      rw [if_neg fun all => targetWhole (all tgt (by simp))]
      exact (target.cons isSource).mono (by decide)
  · rw [if_neg sourceWhole] at source
    rw [if_neg fun all => sourceWhole (all src (by simp))]
    exact source.mono (by decide)

end Scans
section Documents
variable {hyphen : Bool} {form : Form} {names : List Bytes} {text : CString}

theorem format_single (single : form.isRule = false) (hyphen : Bool) :
    form.format hyphen = (ascii form.keyword).map .literal ++ [.blanks, .field (form.lastSet hyphen), .literal 59] := by
  cases form <;> first | rfl | cases single

theorem format_rule (rule : form.isRule = true) (hyphen : Bool) :
    form.format hyphen = (ascii form.keyword).map .literal ++ .blanks :: sourcePart hyphen ∧
      form.lastSet hyphen = permSet hyphen := by
  cases form <;> first | exact ⟨rfl, rfl⟩ | cases rule

theorem documented_starts (documented : Documented form names text) : List.head? text = (ascii form.keyword).head? := by
  cases documented <;> cases form <;> rfl

/-- What is scanned of a statement: all its names, the last one perhaps not to its end, or
not enough of them. -/
theorem documented_scan (documented : Documented form names text) : ∃ front last, names = front ++ [last] ∧
    (∀ field ∈ scan (form.format hyphen) text, field.length < 256) ∧
    if (∀ name ∈ front, ∀ char ∈ name, nameSet char = true) ∧ last.takeWhile (form.lastSet hyphen) ≠ [] then
      scan (form.format hyphen) text = front ++ [last.takeWhile (form.lastSet hyphen)]
    else (scan (form.format hyphen) text).length < fieldCount (form.format hyphen) := by
  cases documented with
  | @name domain gap stop single first isDomain ends =>
    have scanned := scan_last (lastSet_semicolon hyphen form) ends domain
    refine ⟨[], domain, rfl, ?_⟩
    rw [fieldCount_format, single, format_single single, scan_literals,
      scan_gap first.2 (ends_name isDomain stop), scanned]
    have := (List.takeWhile_sublist (form.lastSet hyphen) (l := domain)).length_le
    have := isDomain.short
    by_cases none : domain.takeWhile (form.lastSet hyphen) = []
    · simp [none]
    · simp [none]
      omega
  | @rule src tgt cls perm gap between last stop rule first isSource second isTarget isClass third isPerm ends =>
    obtain ⟨format, lastSet⟩ := format_rule rule hyphen
    have scanned := scan_last (lastSet_semicolon hyphen form) ends perm
    have front := @scan_names hyphen _ _ _ _ _ _ isSource second isTarget isClass third (ends_perm isPerm stop)
    have short : (perm.takeWhile (form.lastSet hyphen)).length < 256 := by
      have := (List.takeWhile_sublist (form.lastSet hyphen) (l := perm)).length_le
      have : perm.length ≤ 255 := by
        rcases isPerm with word | rfl
        · exact word.short
        · decide
      omega
    have fits (field : Bytes) (word : Identifier field) : field.length < 256 := by
      have := word.short
      omega
    refine ⟨[src, tgt, cls], perm, rfl, ?_⟩
    rw [fieldCount_format, rule, format, scan_literals, scan_gap first.2 (ends_name isSource _)]
    by_cases whole : ∀ name ∈ [src, tgt, cls], ∀ char ∈ name, nameSet char = true
    · rw [if_pos whole, ← lastSet, scanned] at front
      rw [front]
      by_cases none : perm.takeWhile (form.lastSet hyphen) = []
      · simp [none, fits _ isSource, fits _ isTarget, fits _ isClass]
      · rw [if_neg none, if_pos ⟨whole, none⟩]
        simp [short, fits _ isSource, fits _ isTarget, fits _ isClass]
    · rw [if_neg whole] at front
      rw [if_neg fun both => whole both.1]
      exact ⟨front.2, Nat.lt_succ_of_le front.1⟩

/-- The first letter of a text says which statement it may be. -/
theorem documented_form {other : Form} (documented : Documented other names text)
    (starts : List.head? text = (ascii form.keyword).head?) : other = form := by
  have heads := (documented_starts documented).symm.trans starts
  cases other <;> cases form <;> first | rfl | exact absurd heads (by decide)

theorem documented_unique {other : Form} {name name' : Bytes} (word : Identifier name')
    (documented : Documented other [name] (ascii form.keyword ++ ([32] ++ name'))) : other = form ∧ name = name' := by
  have same : other = form := documented_form documented (by cases form <;> rfl)
  subst same
  refine ⟨rfl, ?_⟩
  generalize shape : ascii other.keyword ++ ([32] ++ name') = text at documented
  cases documented with
  | @name domain gap stop single first isDomain ends =>
    have rest := List.append_cancel_left shape
    have dropped := congrArg (List.dropWhile isSpace) rest
    rw [(takeWhile_run (by simp [isSpace]) (by simpa using ends_name word [])).2,
      (takeWhile_run first.2 (ends_name isDomain stop)).2] at dropped
    rcases ends with rfl | rfl
    · simpa using dropped.symm
    · have semicolon := word.word 59 (by simp [dropped])
      cases semicolon

end Documents
end Bxxt.Proofs
