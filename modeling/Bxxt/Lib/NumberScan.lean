import Bxxt.Lib.TextScan

/-! Formats of the C formatted input functions with the conversions `%x` and `%[...]`, and what they
leave of the input. -/

namespace NumberScan
open ByteLayout TextScan

def isHexChar (char : UInt8) : Bool := (hexValue? char).isSome

/-- What is behind the digits of a number with the optional prefix `0x`. -/
def behindDigits : Bytes → Bytes
  | zero :: mark :: rest =>
    if zero = 48 ∧ (mark = 120 ∨ mark = 88) then rest.dropWhile isHexChar
      else (zero :: mark :: rest).dropWhile isHexChar
  | short => short.dropWhile isHexChar

def behindHex (text : Bytes) : Bytes := behindDigits (stripSign (text.dropWhile isSpace)).2

inductive Item where
  | literal (char : UInt8)
  | blanks
  | hex
  | run (set : UInt8 → Bool)

inductive Field where
  | number (value : Nat)
  | text (run : Bytes)
  deriving DecidableEq

/-- The fields that are converted before an item fails, and the input that is left then. -/
def scanItems : List Item → Bytes → List Field × Bytes
  | [], text => ([], text)
  | .literal _ :: _, [] => ([], [])
  | .literal char :: items, first :: text => if first = char then scanItems items text else ([], first :: text)
  | .blanks :: items, text => scanItems items (text.dropWhile isSpace)
  | .hex :: items, text =>
    match scanHex text with
    | none => ([], text.dropWhile isSpace)
    | some value => (.number value :: (scanItems items (behindHex text)).1, (scanItems items (behindHex text)).2)
  | .run set :: items, text =>
    match text.takeWhile set with
    | [] => ([], text)
    | run => (.text run :: (scanItems items (text.dropWhile set)).1, (scanItems items (text.dropWhile set)).2)

/-- Hexadecimal digits, in any case and with any zeros in front. -/
def IsNumeral (word : Bytes) : Prop := word ≠ [] ∧ ∀ char ∈ word, isHexChar char = true

instance (word : Bytes) : Decidable (IsNumeral word) := inferInstanceAs (Decidable (_ ∧ _))

def numeralValue (word : Bytes) : Nat := hexNumber (hexRun word)

/-- A text that a number ends in front of. -/
def Stops (text : Bytes) : Prop := ∀ char ∈ text.head?, isHexChar char = false ∧ char ≠ 120 ∧ char ≠ 88

section Numerals
variable {word text : Bytes} {items : List Item}

theorem isHexChar_special {char : UInt8} (digit : isHexChar char = true) :
    isSpace char = false ∧ char ≠ 45 ∧ char ≠ 43 ∧ char ≠ 120 ∧ char ≠ 88 := by
  have every : ∀ char : UInt8, isHexChar char = true → isSpace char = false ∧ char ≠ 45 ∧ char ≠ 43 ∧
      char ≠ 120 ∧ char ≠ 88 := by
    decide +kernel
  exact every char digit

theorem hexRun_stop (stops : Stops text) (digits : ∀ char ∈ word, isHexChar char = true) :
    hexRun (word ++ text) = hexRun word := by
  induction word with
  | nil =>
    cases text with
    | nil => rfl
    | cons first rest =>
      have last : hexValue? first = none := Option.not_isSome_iff_eq_none.mp
        (by simpa [isHexChar] using (stops first rfl).1)
      have none : hexRun (first :: rest) = [] := by rw [hexRun, last]
      exact none
  | cons char word ih =>
    rw [List.cons_append, hexRun, hexRun, ih fun other inside => digits other (List.mem_cons_of_mem _ inside)]

theorem dropWhile_stop (stops : Stops text) (digits : ∀ char ∈ word, isHexChar char = true) :
    (word ++ text).dropWhile isHexChar = text := by
  rw [List.dropWhile_append_of_pos digits]
  cases text with
  | nil => rfl
  | cons first rest => rw [List.dropWhile_cons_of_neg (by simp [(stops first rfl).1])]

/-- No prefix is in a number, and none comes to be by what follows it. -/
theorem digits_plain (numeral : IsNumeral word) (stops : Stops text) :
    hexDigits (word ++ text) = hexRun word ∧ behindDigits (word ++ text) = text := by
  obtain ⟨some, digits⟩ := numeral
  obtain ⟨first, others, rfl⟩ := List.exists_cons_of_ne_nil some
  have run := hexRun_stop stops digits
  have behind := dropWhile_stop stops digits
  have noMark : ∀ mark, (others ++ text).head? = Option.some mark →
      ¬ (first = 48 ∧ (mark = 120 ∨ mark = 88)) := by
    intro mark next prefixed
    have plain : mark ≠ 120 ∧ mark ≠ 88 := by
      cases others with
      | nil => exact (stops mark next).2
      | cons second others =>
        cases next
        exact (isHexChar_special (digits mark (by simp))).2.2.2
    rcases prefixed.2 with lower | upper
    · exact plain.1 lower
    · exact plain.2 upper
  rw [List.cons_append] at run behind ⊢
  cases rest : others ++ text with
  | nil =>
    rw [rest] at run behind
    exact ⟨run, behind⟩
  | cons mark rest' =>
    rw [rest] at run behind noMark
    rw [hexDigits, behindDigits, if_neg (noMark mark rfl), if_neg (noMark mark rfl)]
    exact ⟨run, behind⟩

theorem numeral_start (numeral : IsNumeral word) (text : Bytes) :
    (word ++ text).dropWhile isSpace = word ++ text ∧ stripSign (word ++ text) = (false, word ++ text) := by
  obtain ⟨some, digits⟩ := numeral
  obtain ⟨first, others, rfl⟩ := List.exists_cons_of_ne_nil some
  obtain ⟨notSpace, notMinus, notPlus, _⟩ := isHexChar_special (digits first List.mem_cons_self)
  rw [List.cons_append, List.dropWhile_cons_of_neg (by simp [notSpace]), stripSign, if_neg notMinus, if_neg notPlus]
  exact ⟨rfl, rfl⟩

theorem scanItems_numeral (numeral : IsNumeral word) (stops : Stops text) :
    scanItems (.hex :: items) (word ++ text) =
      (.number (strtoumax false (numeralValue word)) :: (scanItems items text).1, (scanItems items text).2) := by
  obtain ⟨blanks, sign⟩ := numeral_start numeral text
  obtain ⟨digits, behind⟩ := digits_plain numeral stops
  have value : scanHex (word ++ text) = some (strtoumax false (numeralValue word)) := by
    rw [scanHex, blanks, sign]
    dsimp only
    rw [digits]
    cases number : hexRun word with
    | nil =>
      obtain ⟨some, all⟩ := numeral
      obtain ⟨first, others, rfl⟩ := List.exists_cons_of_ne_nil some
      obtain ⟨digit, known⟩ := Option.isSome_iff_exists.mp (all first List.mem_cons_self)
      rw [hexRun, known] at number
      cases number
    | cons digit rest => rw [numeralValue, number]
  have left : behindHex (word ++ text) = text := by
    rw [behindHex, blanks, sign]
    exact behind
  rw [scanItems, value, left]

theorem strtoumax_fits {number : Nat} (fits : number < 2 ^ 64) : strtoumax false number = number := by
  rw [strtoumax, if_neg (by omega)]
  rfl

theorem strtoumax_beyond {number limit : Nat} (small : limit < 2 ^ 64 - 1) (beyond : limit < number) :
    limit < strtoumax false number := by
  rw [strtoumax]
  split
  · exact small
  · exact beyond

theorem strtoumax_lt (negative : Bool) (number : Nat) : strtoumax negative number < 2 ^ 64 := by
  rw [strtoumax]
  split
  · omega
  · split <;> omega

theorem scanItems_literal (char : UInt8) :
    scanItems (.literal char :: items) (char :: text) = scanItems items text := by
  rw [scanItems, if_pos rfl]

end Numerals
end NumberScan
