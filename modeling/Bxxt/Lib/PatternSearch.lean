import Mathlib.Data.List.Infix

/-! Searching a sequence for the first occurrence of a pattern, as `memmem` and
`strstr` do. The rules say when a stretch of the text can be skipped: it contains
no occurrence, or every occurrence ends at a separator the pattern does not contain. -/

namespace PatternSearch

variable {α : Type}

theorem infix_of_prefix_drop {pattern text : List α} {index : Nat} (starts : pattern <+: text.drop index) :
    pattern <:+: text :=
  starts.isInfix.trans (List.drop_suffix index text).isInfix

/-- No proper end of the pattern is also a beginning of it, so two occurrences
cannot overlap. -/
def Borderless (pattern : List α) : Prop :=
  ∀ shift, 0 < shift → shift < pattern.length → ¬ pattern.drop shift <+: pattern

instance [DecidableEq α] (pattern : List α) : Decidable (Borderless pattern) :=
  decidable_of_iff (∀ shift, shift < pattern.length → 0 < shift → ¬ pattern.drop shift <+: pattern)
    ⟨fun all shift positive below => all shift below positive, fun all shift below positive =>
      all shift positive below⟩

/-- An occurrence that starts in a stretch without one would have to run into the
occurrence behind it. -/
theorem not_prefix_in_gap {pattern gap tail : List α} (borderless : Borderless pattern)
    (absent : ¬ pattern <:+: gap) (index : Nat) (inside : index < gap.length) :
    ¬ pattern <+: (gap ++ (pattern ++ tail)).drop index := by
  intro starts
  rw [List.drop_append_of_le_length inside.le] at starts
  have part : (gap.drop index).length = gap.length - index := List.length_drop
  rcases Nat.lt_or_ge (gap.length - index) pattern.length with straddles | fits
  · have head : gap.drop index <+: pattern :=
      List.prefix_of_prefix_length_le (List.prefix_append _ _) starts (by omega)
    obtain ⟨rest, whole⟩ := head
    have overlap : pattern.drop (gap.length - index) = rest := by
      rw [← whole, ← part, List.drop_left]
    have continues : rest <+: pattern ++ tail := by
      rw [← whole] at starts
      exact (List.prefix_append_right_inj _).mp (by rw [← whole]; exact starts)
    have within : rest <+: pattern := by
      apply List.prefix_of_prefix_length_le continues (List.prefix_append _ _)
      have := congrArg List.length whole
      simp only [List.length_append] at this
      omega
    exact borderless (gap.length - index) (by omega) straddles (overlap ▸ within)
  · have whole : pattern <+: gap.drop index :=
      List.prefix_of_prefix_length_le starts (List.prefix_append _ _) (by omega)
    exact absent (infix_of_prefix_drop whole)

variable [DecidableEq α]

def indexOf? (pattern : List α) : List α → Option Nat
  | [] => if pattern = [] then some 0 else none
  | item :: rest => if pattern <+: item :: rest then some 0 else (indexOf? pattern rest).map (· + 1)

theorem indexOf?_of_prefix {pattern text : List α} (starts : pattern <+: text) : indexOf? pattern text = some 0 := by
  cases text with
  | nil => simp [indexOf?, List.prefix_nil.mp starts]
  | cons item rest => rw [indexOf?, if_pos starts]

theorem indexOf?_skip {pattern : List α} (gap rest : List α)
    (absent : ∀ index, index < gap.length → ¬ pattern <+: (gap ++ rest).drop index) :
    indexOf? pattern (gap ++ rest) = (indexOf? pattern rest).map (· + gap.length) := by
  induction gap with
  | nil => simp
  | cons item gap ih =>
    have first : ¬ pattern <+: item :: (gap ++ rest) := absent 0 (by simp)
    have later := ih (fun index inside => by simpa using absent (index + 1) (by simpa using inside))
    rw [List.cons_append, indexOf?, if_neg first, later, Option.map_map]
    congr 1

theorem indexOf?_eq_some_iff {pattern text : List α} {index : Nat} :
    indexOf? pattern text = some index ↔
      index ≤ text.length ∧ pattern <+: text.drop index ∧
        ∀ earlier, earlier < index → ¬ pattern <+: text.drop earlier := by
  induction text generalizing index with
  | nil =>
    cases index with
    | zero => simp [indexOf?]
    | succ index => simp [indexOf?]
  | cons item rest ih =>
    rw [indexOf?]
    split
    next starts =>
      constructor
      · intro found
        cases found
        exact ⟨Nat.zero_le _, starts, fun _ below => absurd below (Nat.not_lt_zero _)⟩
      · intro ⟨_, _, first⟩
        cases index with
        | zero => rfl
        | succ index => exact absurd starts (first 0 (Nat.succ_pos _))
    next absent =>
      cases index with
      | zero => simpa using fun found => absent found
      | succ index =>
        simp only [Option.map_eq_some_iff, Nat.add_right_cancel_iff, exists_eq_right, ih, List.length_cons,
          Nat.add_le_add_iff_right, List.drop_succ_cons]
        refine and_congr_right fun _ => and_congr_right fun _ => ?_
        constructor
        · intro first earlier below
          cases earlier with
          | zero => exact absent
          | succ earlier => exact first earlier (by omega)
        · intro first earlier below
          exact first (earlier + 1) (by omega)

theorem indexOf?_eq_none_iff {pattern text : List α} : indexOf? pattern text = none ↔ ¬ pattern <:+: text := by
  induction text with
  | nil => simp [indexOf?]
  | cons item rest ih =>
    rw [indexOf?, List.infix_cons_iff]
    split
    next starts => simp [starts]
    next absent => simp [absent, ih]

theorem split_of_indexOf? {pattern text : List α} {index : Nat} (found : indexOf? pattern text = some index) :
    text = text.take index ++ pattern ++ text.drop (index + pattern.length) := by
  obtain ⟨_, ⟨tail, starts⟩, _⟩ := indexOf?_eq_some_iff.mp found
  have after : text.drop (index + pattern.length) = tail := by
    rw [← List.drop_drop, ← starts, List.drop_left]
  rw [after, List.append_assoc, starts, List.take_append_drop]

theorem indexOf?_after_gap {pattern gap tail : List α} (borderless : Borderless pattern)
    (absent : ¬ pattern <:+: gap) : indexOf? pattern (gap ++ (pattern ++ tail)) = some gap.length := by
  rw [indexOf?_skip gap _ (not_prefix_in_gap borderless absent), indexOf?_of_prefix (List.prefix_append _ _)]
  simp

/-- A pattern without the separator is found inside the first line or behind it. -/
theorem indexOf?_separated {pattern : List α} {separator : α} (line rest : List α)
    (outside : separator ∉ pattern) :
    indexOf? pattern (line ++ separator :: rest) =
      ((indexOf? pattern line).or ((indexOf? pattern rest).map (· + (line.length + 1)))) := by
  have confined : ∀ index, index ≤ line.length → pattern <+: (line ++ separator :: rest).drop index →
      pattern <+: line.drop index := by
    intro index inside starts
    rw [List.drop_append_of_le_length inside] at starts
    apply List.prefix_of_prefix_length_le starts (List.prefix_append _ _)
    by_contra long
    have crossed : line.drop index ++ [separator] <+: pattern := by
      apply List.prefix_of_prefix_length_le _ starts
      · simp only [List.length_append, List.length_singleton]
        omega
      · exact (List.prefix_append_right_inj _).mpr (by simp)
    exact outside (crossed.subset (by simp))
  cases found : indexOf? pattern line with
  | some index =>
    obtain ⟨inside, starts, first⟩ := indexOf?_eq_some_iff.mp found
    rw [Option.some_or]
    apply indexOf?_eq_some_iff.mpr
    refine ⟨by simp; omega, ?_, ?_⟩
    · rw [List.drop_append_of_le_length inside]
      exact starts.trans (List.prefix_append _ _)
    · intro earlier below starts
      exact first earlier below (confined earlier (by omega) starts)
  | none =>
    have absent := indexOf?_eq_none_iff.mp found
    have skipped := @indexOf?_skip _ _ pattern (line ++ [separator]) rest (by
      intro index inside starts
      have bound : index ≤ line.length := by simp at inside; omega
      rw [List.append_assoc, List.singleton_append] at starts
      exact absent (infix_of_prefix_drop (confined index bound starts)))
    simpa using skipped

end PatternSearch
