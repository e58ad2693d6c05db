import Bxxt.Lib.TextScan
import Mathlib.Data.List.TakeWhile

/-! Formats of the C formatted input functions, with the conversions `%[...]` only. A blank
of a format stands for any number of blanks, none among them, and nothing that follows the
last field has a say in what the scan returns. -/

namespace ScanFormat
open ByteLayout TextScan

inductive Directive where
  | literal (char : UInt8)
  | blanks
  | field (set : UInt8 → Bool)

/-- The fields that are converted before a directive fails. -/
def scan : List Directive → Bytes → List Bytes
  | [], _ => []
  | .literal _ :: _, [] => []
  | .literal char :: rest, first :: text => if first = char then scan rest text else []
  | .blanks :: rest, text => scan rest (text.dropWhile isSpace)
  | .field set :: rest, text =>
    match text.takeWhile set with
    | [] => []
    | run => run :: scan rest (text.dropWhile set)

def fieldCount : List Directive → Nat
  | [] => 0
  | .field _ :: rest => fieldCount rest + 1
  | _ :: rest => fieldCount rest

/-- A run of characters ends in front of this text. -/
def Ends (set : UInt8 → Bool) (text : Bytes) : Prop := ∀ char ∈ text.head?, set char = false

inductive Reads : List Directive → Bytes → List Bytes → Prop
  | done {format text} (none : fieldCount format = 0) : Reads format text []
  | literal {char rest text fields} (reads : Reads rest text fields) : Reads (.literal char :: rest)
      (char :: text) fields
  | blanks {rest gap text fields} (spaces : ∀ char ∈ gap, isSpace char = true) (ends : Ends isSpace text)
      (reads : Reads rest text fields) : Reads (.blanks :: rest) (gap ++ text) fields
  | field {set rest run text fields} (some : run ≠ []) (inside : ∀ char ∈ run, set char = true)
      (ends : Ends set text) (reads : Reads rest text fields) : Reads (.field set :: rest) (run ++ text) (run :: fields)

section Runs
variable {set : UInt8 → Bool} {run text : Bytes}

theorem takeWhile_run (inside : ∀ char ∈ run, set char = true) (ends : Ends set text) :
    (run ++ text).takeWhile set = run ∧ (run ++ text).dropWhile set = text := by
  rw [List.takeWhile_append_of_pos inside, List.dropWhile_append_of_pos inside]
  cases text with
  | nil => simp
  | cons first rest => simp [ends first rfl]

theorem ends_dropWhile (set : UInt8 → Bool) (text : Bytes) : Ends set (text.dropWhile set) := by
  intro char first
  have kept := List.head?_dropWhile_not set text
  rw [Option.mem_def.mp first] at kept
  simpa using kept

end Runs
section Scan
variable {format : List Directive} {text : Bytes} {fields : List Bytes}

theorem scan_of_noFields (none : fieldCount format = 0) (text : Bytes) : scan format text = [] := by
  induction format generalizing text with
  | nil => rfl
  | cons directive rest ih =>
    cases directive with
    | literal char =>
      cases text with
      | nil => rfl
      | cons first others =>
        rw [scan]
        split
        next => exact ih none others
        next => rfl
    | blanks => exact ih none _
    | field set => cases none

theorem scan_length_le (format : List Directive) (text : Bytes) : (scan format text).length ≤ fieldCount format := by
  fun_induction scan format text <;> simp_all [fieldCount]

theorem scan_literals (word : Bytes) (format : List Directive) (text : Bytes) :
    scan (word.map .literal ++ format) (word ++ text) = scan format text := by
  induction word with
  | nil => rfl
  | cons char rest ih =>
    rw [List.map_cons, List.cons_append, List.cons_append, scan, if_pos rfl]
    exact ih

theorem scan_gap {gap : Bytes} (spaces : ∀ char ∈ gap, isSpace char = true) (ends : Ends isSpace text) :
    scan (.blanks :: format) (gap ++ text) = scan format text := by
  rw [scan, (takeWhile_run spaces ends).2]

theorem scan_run {set : UInt8 → Bool} {run : Bytes} (some : run ≠ []) (inside : ∀ char ∈ run, set char = true)
    (ends : Ends set text) : scan (.field set :: format) (run ++ text) = run :: scan format text := by
  obtain ⟨taken, dropped⟩ := takeWhile_run inside ends
  rw [scan, taken, dropped]
  cases run with
  | nil => exact absurd rfl some
  | cons first others => rfl

/-- A field that ends inside of a word. -/
theorem scan_cut {set : UInt8 → Bool} {word : Bytes} (stray : ¬ ∀ char ∈ word, set char = true)
    (format : List Directive) (text : Bytes) : scan (.field set :: format) (word ++ text) =
      match word.takeWhile set with
      | [] => []
      | run => run :: scan format (word.dropWhile set ++ text) := by
  have shorter : (word.takeWhile set).length ≠ word.length := by
    intro same
    have whole := (List.takeWhile_prefix set).eq_of_length same
    exact stray (List.takeWhile_eq_self_iff.mp whole)
  have rest : (word.dropWhile set).isEmpty = false := by
    rw [List.isEmpty_eq_false_iff, ne_eq, List.dropWhile_eq_nil_iff]
    exact stray
  rw [scan, List.takeWhile_append, if_neg shorter, List.dropWhile_append, rest]
  rfl

/-- A scan converts all fields exactly if the text has them all, each in its place. -/
theorem scan_eq_iff : scan format text = fields ∧ fields.length = fieldCount format ↔ Reads format text fields := by
  constructor
  · rintro ⟨rfl, all⟩
    induction format generalizing text with
    | nil => exact .done rfl
    | cons directive rest ih =>
      by_cases none : fieldCount (directive :: rest) = 0
      · rw [scan_of_noFields none]
        exact .done none
      · cases directive with
        | literal char =>
          cases text with
          | nil => exact absurd all.symm none
          | cons first others =>
            rw [scan] at all ⊢
            split at all
            next same =>
              subst same
              rw [if_pos rfl]
              exact .literal (ih all)
            next => exact absurd all.symm none
        | blanks =>
          have shape := (List.takeWhile_append_dropWhile (p := isSpace) (l := text)).symm
          rw [scan] at all ⊢
          rw [shape]
          refine .blanks (fun char => List.mem_takeWhile_imp) (ends_dropWhile isSpace text) ?_
          rw [← shape]
          exact ih all
        | field set =>
          have shape := (List.takeWhile_append_dropWhile (p := set) (l := text)).symm
          rw [scan] at all ⊢
          split at all
          next => exact absurd all.symm none
          next some =>
            conv => arg 2; rw [shape]
            exact .field some (fun char => List.mem_takeWhile_imp) (ends_dropWhile set text) (ih (Nat.succ.inj all))
  · intro reads
    induction reads with
    | done none => exact ⟨scan_of_noFields none _, none.symm⟩
    | literal _ ih =>
      rw [scan, if_pos rfl]
      exact ih
    | blanks spaces ends _ ih =>
      rw [scan_gap spaces ends]
      exact ih
    | field some inside ends _ ih =>
      rw [scan_run some inside ends, ih.1]
      exact ⟨rfl, congrArg Nat.succ ih.2⟩

theorem Reads.inside (reads : Reads format text fields) : ∀ field ∈ fields, field ≠ [] ∧
    ∃ set, Directive.field set ∈ format ∧ ∀ char ∈ field, set char = true := by
  induction reads with
  | done => simp
  | literal _ ih | blanks _ _ _ ih =>
    intro field member
    obtain ⟨some, set, listed, all⟩ := ih field member
    exact ⟨some, set, List.mem_cons_of_mem _ listed, all⟩
  | @field set rest run text fields some inside _ _ ih =>
    refine List.forall_mem_cons.mpr ⟨⟨some, set, List.mem_cons_self, inside⟩, ?_⟩
    intro field member
    obtain ⟨some, set, listed, all⟩ := ih field member
    exact ⟨some, set, List.mem_cons_of_mem _ listed, all⟩

end Scan
end ScanFormat
