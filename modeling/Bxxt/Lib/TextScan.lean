import Bxxt.Lib.ByteLayout
import Mathlib.Data.Nat.Digits.Lemmas

/-! The conversions `%x` and `%[^\n]` of the C formatted input functions, and `%x`
on output. Text is a sequence of bytes. A number too large for `uintmax_t` is
read as the largest one, as `strtoumax` does. -/

namespace TextScan
open ByteLayout

def newline : UInt8 := 10

def isSpace (char : UInt8) : Bool := char = 32 ∨ (9 ≤ char ∧ char ≤ 13)

def hexDigit (value : Nat) : UInt8 := UInt8.ofNat (if value < 10 then 48 + value else 87 + value)

def hexValue? (char : UInt8) : Option Nat :=
  if 48 ≤ char ∧ char ≤ 57 then some (char.toNat - 48)
  else if 97 ≤ char ∧ char ≤ 102 then some (char.toNat - 87)
  else if 65 ≤ char ∧ char ≤ 70 then some (char.toNat - 55)
  else none

def hexText (value : Nat) : Bytes :=
  if value = 0 then [48] else (Nat.digits 16 value).reverse.map hexDigit

def hexRun : Bytes → List Nat
  | [] => []
  | char :: rest =>
    match hexValue? char with
    | some value => value :: hexRun rest
    | none => []

/-- The digits of a number with the optional prefix `0x`. -/
def hexDigits : Bytes → List Nat
  | zero :: mark :: rest =>
    if zero = 48 ∧ (mark = 120 ∨ mark = 88) then 0 :: hexRun rest else hexRun (zero :: mark :: rest)
  | short => hexRun short

def stripSign : Bytes → Bool × Bytes
  | [] => (false, [])
  | char :: rest => if char = 45 then (true, rest) else if char = 43 then (false, rest) else (false, char :: rest)

def hexNumber (digits : List Nat) : Nat := digits.foldl (fun number digit => 16 * number + digit) 0

def strtoumax (negative : Bool) (number : Nat) : Nat :=
  if 2 ^ 64 ≤ number then 2 ^ 64 - 1 else if negative then (2 ^ 64 - number) % 2 ^ 64 else number

/-- `scanf` of `%x`, before the result is cut to the size of its variable. -/
def scanHex (text : Bytes) : Option Nat :=
  let (negative, rest) := stripSign (text.dropWhile isSpace)
  match hexDigits rest with
  | [] => none
  | digits => some (strtoumax negative (hexNumber digits))

def scanLine (text : Bytes) : Option Bytes :=
  match text.takeWhile (· ≠ newline) with
  | [] => none
  | line => some line

theorem hexValue?_hexDigit {value : Nat} (small : value < 16) : hexValue? (hexDigit value) = some value := by
  have every : ∀ value < 16, hexValue? (hexDigit value) = some value := by decide
  exact every value small

theorem hexDigit_not_special {value : Nat} (small : value < 16) :
    isSpace (hexDigit value) = false ∧ hexDigit value ≠ 45 ∧ hexDigit value ≠ 43 ∧ hexDigit value ≠ 120 ∧
      hexDigit value ≠ 88 ∧ hexDigit value ≠ newline ∧ hexDigit value ≠ 0 := by
  have every : ∀ value < 16, isSpace (hexDigit value) = false ∧ hexDigit value ≠ 45 ∧ hexDigit value ≠ 43 ∧
      hexDigit value ≠ 120 ∧ hexDigit value ≠ 88 ∧ hexDigit value ≠ newline ∧
        hexDigit value ≠ 0 := by decide
  exact every value small

theorem hexRun_map {digits : List Nat} (small : ∀ digit ∈ digits, digit < 16) {stop : UInt8} (rest : Bytes)
    (ends : hexValue? stop = none) : hexRun (digits.map hexDigit ++ stop :: rest) = digits := by
  induction digits with
  | nil => simp [hexRun, ends]
  | cons digit digits ih =>
    have first := hexValue?_hexDigit (small digit (by simp))
    have others := ih fun other member => small other (by simp [member])
    simp [hexRun, first, others]

theorem hexNumber_reverse (digits : List Nat) : hexNumber digits.reverse = Nat.ofDigits 16 digits := by
  rw [hexNumber, List.foldl_reverse, Nat.ofDigits_eq_foldr]
  simp only [Nat.cast_id, Nat.add_comm]

theorem hexText_digits (value : Nat) :
    ∃ digits, hexText value = digits.map hexDigit ∧ (∀ digit ∈ digits, digit < 16) ∧ digits ≠ [] ∧
      hexNumber digits = value := by
  by_cases zero : value = 0
  · exact ⟨[0], by simp [hexText, zero, hexDigit], by simp, by simp, by simp [hexNumber, zero]⟩
  · refine ⟨(Nat.digits 16 value).reverse, by rw [hexText, if_neg zero], ?_, ?_, ?_⟩
    · intro digit member
      exact Nat.digits_lt_base (by omega) (List.mem_reverse.mp member)
    · simpa using Nat.digits_ne_nil_iff_ne_zero.mpr zero
    · rw [hexNumber_reverse, Nat.ofDigits_digits]

theorem length_hexText {value width : Nat} (positive : 0 < width) (fits : value < 16 ^ width) :
    (hexText value).length ≤ width := by
  rw [hexText]
  split
  · exact positive
  · rw [List.length_map, List.length_reverse]
    exact (Nat.digits_length_le_iff (by omega) value).mpr fits

theorem not_mem_hexText {value : Nat} {char : UInt8} (other : hexValue? char = none) : char ∉ hexText value := by
  obtain ⟨digits, printed, small, _, _⟩ := hexText_digits value
  rw [printed]
  intro member
  obtain ⟨digit, inside, same⟩ := List.mem_map.mp member
  rw [← same, hexValue?_hexDigit (small digit inside)] at other
  cases other

/-- A printed number reads back, whatever line follows it. -/
theorem scanHex_hexText {value : Nat} (fits : value < 2 ^ 64) (rest : Bytes) :
    scanHex (hexText value ++ newline :: rest) = some value := by
  obtain ⟨digits, printed, small, nonempty, number⟩ := hexText_digits value
  have run := @hexRun_map _ small newline rest (by decide)
  obtain ⟨first, others, rfl⟩ := List.exists_cons_of_ne_nil nonempty
  obtain ⟨notSpace, notMinus, notPlus, _⟩ := hexDigit_not_special (small first (by simp))
  have noMark : hexDigits ((first :: others).map hexDigit ++ newline :: rest) = first :: others := by
    cases others with
    | nil =>
      refine Eq.trans ?_ run
      simp [hexDigits, newline]
    | cons second others =>
      obtain ⟨_, _, _, notLower, notUpper, _⟩ := hexDigit_not_special (small second (by simp))
      refine Eq.trans ?_ run
      simp [hexDigits, notLower, notUpper]
  have blanks : ((first :: others).map hexDigit ++ newline :: rest).dropWhile isSpace =
      (first :: others).map hexDigit ++ newline :: rest := by
    simp [notSpace]
  have sign : stripSign ((first :: others).map hexDigit ++ newline :: rest) =
      (false, (first :: others).map hexDigit ++ newline :: rest) := by
    simp [stripSign, notMinus, notPlus]
  have value_small : ¬ 2 ^ 64 ≤ value := by omega
  rw [printed, scanHex, blanks, sign]
  simp only [noMark, number, strtoumax, if_neg value_small, Bool.false_eq_true, ↓reduceIte]

theorem hexRun_newline (text rest : Bytes) : hexRun (text ++ newline :: rest) = hexRun text := by
  induction text with
  | nil => rfl
  | cons char text ih => simp only [List.cons_append, hexRun, ih]

theorem hexDigits_newline (text rest : Bytes) : hexDigits (text ++ newline :: rest) = hexDigits text := by
  match text with
  | [] => cases rest <;> rfl
  | [char] =>
    have step := hexRun_newline [char] rest
    simpa [hexDigits, newline] using step
  | zero :: mark :: text =>
    simp only [List.cons_append, hexDigits]
    split
    · rw [hexRun_newline]
    · exact hexRun_newline (zero :: mark :: text) rest

theorem stripSign_newline (text rest : Bytes) :
    stripSign (text ++ newline :: rest) = ((stripSign text).1, (stripSign text).2 ++ newline :: rest) := by
  cases text with
  | nil => rfl
  | cons char text =>
    simp only [List.cons_append, stripSign]
    split
    · rfl
    · split <;> rfl

theorem dropWhile_blank_append {text rest : Bytes} (blank : text.all isSpace) :
    (text ++ rest).dropWhile isSpace = rest.dropWhile isSpace := by
  induction text with
  | nil => rfl
  | cons char text ih =>
    simp only [List.all_cons, Bool.and_eq_true] at blank
    simp [blank.1, ih blank.2]

theorem dropWhile_append_of_nonblank {text rest : Bytes} (nonblank : ¬ text.all isSpace) :
    (text ++ rest).dropWhile isSpace = text.dropWhile isSpace ++ rest := by
  induction text with
  | nil => simp at nonblank
  | cons char text ih =>
    by_cases space : isSpace char = true
    · have later : ¬ text.all isSpace := by simpa [space] using nonblank
      simp only [List.cons_append, List.dropWhile_cons, space, ↓reduceIte, ih later]
    · simp [space]

/-- A number on a line that is not blank is read from that line alone. -/
theorem scanHex_line {text : Bytes} (nonblank : ¬ text.all isSpace) (rest : Bytes) :
    scanHex (text ++ newline :: rest) = scanHex text := by
  rw [scanHex, dropWhile_append_of_nonblank nonblank, stripSign_newline]
  simp only [hexDigits_newline]
  rfl

/-- Behind a blank the conversion goes on in the next line. -/
theorem scanHex_blank {text : Bytes} (blank : text.all isSpace) (rest : Bytes) :
    scanHex (text ++ newline :: rest) = scanHex rest := by
  have step : (newline :: rest).dropWhile isSpace = rest.dropWhile isSpace := by
    simp [newline, isSpace]
  rw [scanHex, dropWhile_blank_append blank, step]
  rfl

theorem scanLine_line {line : Bytes} (single : newline ∉ line) (rest : Bytes) :
    scanLine (line ++ newline :: rest) = if line = [] then none else some line := by
  have stops : (line ++ newline :: rest).takeWhile (· ≠ newline) = line := by
    rw [List.takeWhile_append_of_pos]
    · simp
    · intro char member
      have other : char ≠ newline := by
        intro same
        exact single (same ▸ member)
      simpa using other
  rw [scanLine, stops]
  cases line <;> rfl

end TextScan
