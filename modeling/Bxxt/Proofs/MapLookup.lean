import Bxxt.Properties

/-! Which mapping is found for an address. The ends of the mappings count as inside, so that an address at
the end of one is found there and not in the next one. -/

namespace Bxxt.Proofs
open Bxxt ByteLayout TextScan NumberScan

/-- A line of `/proc/self/maps`: the range, what is told of it, and the path, which may be empty.
The fields say what the kernel's own format promises of such a line. -/
structure MapLine where
  first : Bytes
  last : Bytes
  info : Bytes
  path : Bytes
  firstNumeral : IsNumeral first ∧ numeralValue first < 2 ^ 64
  lastNumeral : IsNumeral last ∧ numeralValue last < 2 ^ 64
  ordered : numeralValue first ≤ numeralValue last
  infoStart : ∃ char rest, info = char :: rest ∧ isSpace char = false
  infoText : ∀ char ∈ info, char ≠ newline ∧ char ≠ 0
  pathText : ∀ char ∈ path, char ≠ newline ∧ char ≠ 0 ∧ char ≠ 32

namespace MapLine
variable (line : MapLine)

def start : Nat := numeralValue line.first
def finish : Nat := numeralValue line.last

def tail : Bytes := line.info ++ 32 :: line.path

def text : Bytes := line.first ++ 45 :: (line.last ++ 32 :: line.tail)

def Contains (addr : Nat) : Prop := line.start ≤ addr ∧ addr < line.finish

instance (addr : Nat) : Decidable (line.Contains addr) := inferInstanceAs (Decidable (_ ∧ _))

def mapinfo : BxxtMapinfo := ⟨line.path, line.start, line.finish⟩

/-- The callback takes the line for an address: it counts the address behind the last byte as one of
the range. -/
def Taken (addr : Nat) : Prop := line.start ≤ addr ∧ addr ≤ line.finish

instance (addr : Nat) : Decidable (line.Taken addr) := inferInstanceAs (Decidable (_ ∧ _))

end MapLine

def listing (lines : List MapLine) : Bytes := lines.flatMap fun line => line.text ++ [newline]

section Lines
variable {line : MapLine} {text : Bytes}

theorem lastWord_tail (line : MapLine) : lastWord line.tail = line.path := by
  have noNul : line.tail.takeWhile (· ≠ 0) = line.tail := by
    rw [List.takeWhile_eq_self_iff]
    intro char inside
    rcases List.mem_append.mp inside with before | behind
    · simpa using (line.infoText char before).2
    · rcases List.mem_cons.mp behind with rfl | behind
      · decide
      · simpa using (line.pathText char behind).2.1
  have path : ∀ char ∈ line.path.reverse, decide (char ≠ 32) = true := by
    intro char inside
    simpa using (line.pathText char (List.mem_reverse.mp inside)).2.2
  rw [lastWord, noNul, MapLine.tail, List.reverse_append, List.reverse_cons, List.append_assoc,
    List.takeWhile_append_of_pos path]
  simp

/-- A line is read, behind the end of the one before. -/
theorem scan_line (line : MapLine) (gap : Bytes) (spaces : ∀ char ∈ gap, isSpace char = true) (rest : Bytes) :
    scanItems mapsFormat (gap ++ (line.text ++ newline :: rest)) =
      ([.number line.start, .number line.finish, .text line.tail], newline :: rest) := by
  have skipped (word : Bytes) : (gap ++ word).dropWhile isSpace = word.dropWhile isSpace :=
    List.dropWhile_append_of_pos spaces
  have behindGap (word : Bytes) (items : List Item) : scanItems (.hex :: items)
      (gap ++ word) = scanItems (.hex :: items) word := by
    rw [scanItems, scanItems, scanHex, scanHex, behindHex, behindHex, skipped]
  have dash : Stops (45 :: (line.last ++ 32 :: (line.tail ++ newline :: rest))) := by
    rintro char ⟨⟩
    decide
  have blank : Stops (32 :: (line.tail ++ newline :: rest)) := by
    rintro char ⟨⟩
    decide
  have shape : line.text ++ newline :: rest =
      line.first ++ 45 :: (line.last ++ 32 :: (line.tail ++ newline :: rest)) := by
    simp [MapLine.text]
  obtain ⟨char, others, info, notSpace⟩ := line.infoStart
  have start : (32 :: (line.tail ++ newline :: rest)).dropWhile isSpace = line.tail ++ newline :: rest := by
    rw [List.dropWhile_cons_of_pos (by decide), MapLine.tail, info]
    simp [notSpace]
  have ends : (line.tail ++ newline :: rest).takeWhile (· ≠ newline) = line.tail ∧
      (line.tail ++ newline :: rest).dropWhile (· ≠ newline) = newline :: rest := by
    have inside : ∀ char ∈ line.tail, decide (char ≠ newline) = true := by
      intro char member
      rcases List.mem_append.mp member with before | behind
      · simpa using (line.infoText char before).1
      · rcases List.mem_cons.mp behind with rfl | behind
        · decide
        · simpa using (line.pathText char behind).1
    rw [List.takeWhile_append_of_pos inside, List.dropWhile_append_of_pos inside]
    simp
  have filled : line.tail ≠ [] := by
    rw [MapLine.tail, info]
    simp
  have run : scanItems [.run (· ≠ newline), .literal 115] (line.tail ++ newline :: rest) =
      ([.text line.tail], newline :: rest) := by
    rw [scanItems, ends.1, ends.2]
    cases whole : line.tail with
    | nil => exact absurd whole filled
    | cons first others =>
      dsimp only
      rw [scanItems, if_neg (by decide)]
  rw [mapsFormat, behindGap, shape, scanItems_numeral line.firstNumeral.1 dash, scanItems_literal,
    scanItems_numeral line.lastNumeral.1 blank, scanItems, start, run, strtoumax_fits line.firstNumeral.2,
    strtoumax_fits line.lastNumeral.2]
  rfl

theorem scan_end (gap : Bytes) (spaces : ∀ char ∈ gap, isSpace char = true) :
    (scanItems mapsFormat gap).1 = [] := by
  have skipped : gap.dropWhile isSpace = [] := List.dropWhile_eq_nil_iff.mpr spaces
  have none : scanHex gap = none := by
    rw [scanHex, skipped]
    rfl
  rw [mapsFormat, scanItems, none]

end Lines
section Lookup
variable {lines : List MapLine} {addr : Nat}

def searchLines (addr : Nat) : List MapLine → BxxtMapinfo → Exec (Int × BxxtMapinfo)
  | [], bm => .ok (1, bm)
  | line :: lines, _ =>
    if pathMax ≤ line.tail.length then .error .outOfBounds
    else if line.Taken addr then .ok (0, line.mapinfo) else searchLines addr lines line.mapinfo

theorem scanMapsLoop_lines (lines : List MapLine) {gap : Bytes} (spaces : ∀ char ∈ gap, isSpace char = true)
    {fuel : Nat} (enough : lines.length < fuel) (bm : BxxtMapinfo) :
    scanMapsLoop (bxxtScanMapsByOffsetCallback addr) fuel (gap ++ listing lines) bm = searchLines addr lines bm := by
  induction lines generalizing gap fuel bm with
  | nil =>
    obtain ⟨fuel, rfl⟩ := Nat.exists_eq_add_one_of_ne_zero (Nat.ne_of_gt enough)
    have none := scan_end gap spaces
    rw [listing, List.flatMap_nil, List.append_nil, scanMapsLoop]
    rcases scanned : scanItems mapsFormat gap with ⟨fields, rest⟩
    rw [scanned] at none
    dsimp only at none
    subst none
    rfl
  | cons line lines ih =>
    obtain ⟨fuel, rfl⟩ := Nat.exists_eq_add_one_of_ne_zero
      (Nat.ne_of_gt (Nat.lt_of_le_of_lt (Nat.zero_le _) enough))
    have shape : listing (line :: lines) = line.text ++ newline :: listing lines := by simp [listing]
    have later := ih (List.forall_mem_singleton.mpr rfl : ∀ char ∈ [newline], isSpace char = true)
      (Nat.lt_of_succ_lt_succ enough) line.mapinfo
    rw [shape, scanMapsLoop, scan_line line gap spaces, searchLines]
    dsimp only
    by_cases long : pathMax ≤ line.tail.length
    · rw [if_pos long, if_pos long]
    · rw [if_neg long, if_neg long, lastWord_tail]
      by_cases taken : line.Taken addr
      · have found : bxxtScanMapsByOffsetCallback addr ⟨line.path, line.start, line.finish⟩ = 0 := if_pos taken
        rw [if_pos found, if_pos taken]
        rfl
      · have missed : bxxtScanMapsByOffsetCallback addr ⟨line.path, line.start, line.finish⟩ ≠ 0 := by
          have one : bxxtScanMapsByOffsetCallback addr ⟨line.path, line.start, line.finish⟩ = 1 := if_neg taken
          simp [one]
        rw [if_neg missed, if_neg taken]
        exact later

theorem scanMaps_lines (lines : List MapLine) (addr : Nat) :
    bxxtScanMapsByCallback (some (listing lines)) (bxxtScanMapsByOffsetCallback addr) =
      searchLines addr lines ⟨[], 0, 0⟩ := by
  have enough : lines.length < (listing lines).length + 1 := by
    induction lines with
    | nil => simp
    | cons line lines ih =>
      have shape : listing (line :: lines) = line.text ++ newline :: listing lines := by simp [listing]
      rw [shape, List.length_append, List.length_cons, List.length_cons]
      omega
  have noGap : ∀ char ∈ ([] : Bytes), isSpace char = true := fun char inside => absurd inside List.not_mem_nil
  exact scanMapsLoop_lines lines noGap enough _

/-- Up to the line that is taken, what `sscanf` reads behind the range has room in the buffer of
`PATH_MAX` bytes. -/
def LinesFit (addr : Nat) (lines : List MapLine) : Prop :=
  ∀ before line after, lines = before ++ line :: after → (∀ other ∈ before, ¬ other.Taken addr) →
    line.tail.length < pathMax

theorem linesFit_cons {line : MapLine} : LinesFit addr (line :: lines) ↔
    line.tail.length < pathMax ∧ (¬ line.Taken addr → LinesFit addr lines) := by
  constructor
  · intro readable
    refine ⟨readable [] line lines rfl (by simp), fun passed before other after shape others => ?_⟩
    refine readable (line :: before) other after (by rw [shape]; rfl) ?_
    exact List.forall_mem_cons.mpr ⟨passed, others⟩
  · rintro ⟨own, later⟩ before other after shape others
    cases before with
    | nil =>
      obtain ⟨rfl, _⟩ := List.cons.inj shape
      exact own
    | cons first before =>
      obtain ⟨rfl, rest⟩ := List.cons.inj shape
      obtain ⟨passed, others⟩ := List.forall_mem_cons.mp others
      exact later passed before other after rest others

theorem searchLines_spec (lines : List MapLine) (bm : BxxtMapinfo) :
    (¬ LinesFit addr lines ∧ searchLines addr lines bm = .error .outOfBounds) ∨
      (LinesFit addr lines ∧
        ((∃ last, searchLines addr lines bm = .ok (1, last) ∧ ∀ line ∈ lines, ¬ line.Taken addr) ∨
          ∃ before line after, lines = before ++ line :: after ∧ (∀ other ∈ before, ¬ other.Taken addr) ∧
            line.Taken addr ∧
            searchLines addr lines bm = .ok (0, line.mapinfo))) := by
  induction lines generalizing bm with
  | nil =>
    right
    refine ⟨fun before line after shape => ?_, Or.inl ⟨bm, rfl, by simp⟩⟩
    simp at shape
  | cons line lines ih =>
    rw [linesFit_cons, searchLines]
    by_cases long : pathMax ≤ line.tail.length
    · left
      exact ⟨fun both => absurd both.1 (Nat.not_lt.mpr long), if_pos long⟩
    · rw [if_neg long]
      by_cases taken : line.Taken addr
      · right
        refine ⟨⟨Nat.not_le.mp long, fun passed => absurd taken passed⟩,
          Or.inr ⟨[], line, lines, rfl, by simp, taken, ?_⟩⟩
        rw [if_pos taken]
      · rw [if_neg taken]
        rcases ih line.mapinfo with ⟨unreadable, failed⟩ |
          ⟨readable, ⟨last, missed, none⟩ | ⟨before, other, after, shape, others, found, run⟩⟩
        · left
          exact ⟨fun both => unreadable (both.2 taken), failed⟩
        · right
          exact ⟨⟨Nat.not_le.mp long, fun _ => readable⟩,
            Or.inl ⟨last, missed, List.forall_mem_cons.mpr ⟨taken, none⟩⟩⟩
        · right
          refine ⟨⟨Nat.not_le.mp long, fun _ => readable⟩,
            Or.inr ⟨line :: before, other, after, ?_, ?_, found, run⟩⟩
          · rw [shape]
            rfl
          · exact List.forall_mem_cons.mpr ⟨taken, others⟩

/-- The ranges one behind the other. They may touch. -/
def Ascending (lines : List MapLine) : Prop := lines.Pairwise fun line later => line.finish ≤ later.start

/-- A range is found by an address that is in it and at the end of none. -/
theorem search_contained (ascending : Ascending lines) {line : MapLine} (member : line ∈ lines)
    (contains : line.Contains addr) (noEnd : ∀ other ∈ lines, other.finish ≠ addr)
    (readable : LinesFit addr lines) (bm : BxxtMapinfo) :
    searchLines addr lines bm = .ok (0, line.mapinfo) := by
  have taken : line.Taken addr := ⟨contains.1, Nat.le_of_lt contains.2⟩
  rcases @searchLines_spec addr lines bm with ⟨unreadable, _⟩ |
    ⟨_, ⟨_, _, none⟩ | ⟨before, found, after, shape, others, hit, run⟩⟩
  · exact absurd readable unreadable
  · exact absurd taken (none line member)
  · have own := noEnd found (shape ▸ List.mem_append_right _ List.mem_cons_self)
    rw [shape] at member ascending
    rcases List.mem_append.mp member with earlier | later
    · exact absurd taken (others line earlier)
    · rcases List.mem_cons.mp later with rfl | behind
      · exact run
      · have touches := (List.pairwise_cons.mp (List.pairwise_append.mp ascending).2.1).1 line behind
        have low := contains.1
        have high := hit.2
        omega

def LooksUp (lines : List MapLine) (addr : Nat) (out : Exec (Int × BxxtMapinfo)) : Prop :=
  ∃ r bm, out = .ok (r, bm) ∧ (r = 0 ↔ ∃ line ∈ lines, line.Contains addr) ∧
    (r = 0 → ∃ line ∈ lines, line.Contains addr ∧ bm = line.mapinfo)

end Lookup

/-- The mapping that has an address is found if and only if no mapping ends there and no line that
is read is too long. -/
theorem maps_lookup_iff (lines : List MapLine) (addr : Nat) (ascending : Ascending lines) :
    LooksUp lines addr (bxxtScanMapsByCallback (some (listing lines)) (bxxtScanMapsByOffsetCallback addr)) ↔
      (∀ line ∈ lines, line.finish ≠ addr) ∧ LinesFit addr lines := by
  rw [scanMaps_lines]
  rcases @searchLines_spec addr lines ⟨[], 0, 0⟩ with ⟨unreadable, run⟩ |
    ⟨readable, ⟨last, run, none⟩ | ⟨before, line, after, shape, others, taken, run⟩⟩
  · rw [run]
    constructor
    · rintro ⟨r, bm, failed, _⟩
      cases failed
    · intro both
      exact absurd both.2 unreadable
  · rw [run]
    have outside : ¬ ∃ line ∈ lines, line.Contains addr := by
      rintro ⟨line, inside, low, high⟩
      exact none line inside ⟨low, Nat.le_of_lt high⟩
    constructor
    · intro _
      refine ⟨fun line inside same => none line inside ⟨?_, Nat.le_of_eq same.symm⟩, readable⟩
      rw [← same]
      exact line.ordered
    · intro _
      refine ⟨1, last, rfl, ⟨fun zero => ?_, fun some => absurd some outside⟩, fun zero => ?_⟩
      · cases zero
      · cases zero
  · rw [run]
    have member : line ∈ lines := shape ▸ List.mem_append_right _ List.mem_cons_self
    constructor
    · rintro ⟨r, bm, same, _, right⟩
      cases same
      obtain ⟨found, inside, contains, equal⟩ := right rfl
      have finish : line.finish = found.finish := congrArg BxxtMapinfo.finish equal
      refine ⟨fun other inside ends => ?_, readable⟩
      -- the line that is taken comes first, so that it ends there as well
      have high := taken.2
      have low : line.finish ≤ addr := by
        rw [shape] at inside ascending
        rcases List.mem_append.mp inside with earlier | later
        · refine absurd ⟨?_, Nat.le_of_eq ends.symm⟩ (others other earlier)
          rw [← ends]
          exact other.ordered
        · rcases List.mem_cons.mp later with rfl | behind
          · exact Nat.le_of_eq ends
          · have touches := (List.pairwise_cons.mp (List.pairwise_append.mp ascending).2.1).1 other behind
            have ordered : other.start ≤ other.finish := other.ordered
            omega
      have short := contains.2
      omega
    · rintro ⟨noEnd, _⟩
      have contains : line.Contains addr :=
        ⟨taken.1, Nat.lt_of_le_of_ne taken.2 (fun same => noEnd line member same.symm)⟩
      exact ⟨0, line.mapinfo, rfl, ⟨fun _ => ⟨line, member, contains⟩, fun _ => rfl⟩, fun _ =>
        ⟨line, member, contains, rfl⟩⟩

/-- Two mappings that touch, of which the second has no path. -/
def lowerLine : MapLine where
  first := ascii "00001000"
  last := ascii "00002000"
  info := ascii "r--s 00000000 00:10 7   "
  path := ascii "/dev/a"
  firstNumeral := by decide +kernel
  lastNumeral := by decide +kernel
  ordered := by decide +kernel
  infoStart := ⟨114, _, rfl, rfl⟩
  infoText := by decide +kernel
  pathText := by decide +kernel

def upperLine : MapLine where
  first := ascii "00002000"
  last := ascii "00003000"
  info := ascii "rw-p 00000000 00:00 0"
  path := []
  firstNumeral := by decide +kernel
  lastNumeral := by decide +kernel
  ordered := by decide +kernel
  infoStart := ⟨114, _, rfl, rfl⟩
  infoText := by decide +kernel
  pathText := by decide +kernel

theorem touching_ascending : Ascending [lowerLine, upperLine] := by
  have touch : lowerLine.finish ≤ upperLine.start := by decide +kernel
  exact List.pairwise_pair.mpr touch

theorem touching_lookup : LooksUp [lowerLine, upperLine] 0x1080
    (bxxtScanMapsByCallback (some (listing [lowerLine, upperLine])) (bxxtScanMapsByOffsetCallback 0x1080)) := by
  have noEnd : ∀ line ∈ [lowerLine, upperLine], line.finish ≠ 0x1080 := by decide +kernel
  have short : lowerLine.tail.length < pathMax ∧ upperLine.tail.length < pathMax := by decide +kernel
  refine (maps_lookup_iff [lowerLine, upperLine] 0x1080 touching_ascending).mpr ⟨noEnd, ?_⟩
  exact linesFit_cons.mpr ⟨short.1, fun _ =>
    linesFit_cons.mpr ⟨short.2, fun _ before line after shape => by simp at shape⟩⟩

/-- At the start of the second mapping the first one is found. -/
theorem neighbour_found : Ascending [lowerLine, upperLine] ∧ ¬ LooksUp [lowerLine, upperLine] 0x2000
    (bxxtScanMapsByCallback (some (listing [lowerLine, upperLine])) (bxxtScanMapsByOffsetCallback 0x2000)) := by
  refine ⟨touching_ascending, ?_⟩
  rintro ⟨r, bm, run, _, right⟩
  have first : searchLines 0x2000 [lowerLine, upperLine] ⟨[], 0, 0⟩ = .ok (0, lowerLine.mapinfo) := by
    have short : ¬ pathMax ≤ lowerLine.tail.length := by decide +kernel
    have taken : lowerLine.Taken 0x2000 := by decide +kernel
    rw [searchLines, if_neg short, if_pos taken]
  rw [scanMaps_lines, first] at run
  cases run
  obtain ⟨line, inside, contains, same⟩ := right rfl
  have start : lowerLine.start = line.start := congrArg BxxtMapinfo.start same
  have below : ¬ lowerLine.Contains 0x2000 ∧ lowerLine.start ≠ upperLine.start := by decide +kernel
  rcases List.mem_pair.mp inside with rfl | rfl
  · exact below.1 contains
  · exact below.2 start

end Bxxt.Proofs
