import Bxxt.Lib.PatternSearch
import Bxxt.Lib.TextScan

/-! Text made of lines `key value`, read by searching for a key anywhere in it.
What such a search finds depends on the values of the lines above the one it is
looking for: a value that contains the key is taken for the line itself. -/

namespace KeyedLines
open ByteLayout PatternSearch TextScan

def render (entries : List (Bytes × Bytes)) : Bytes :=
  entries.flatMap fun entry => entry.1 ++ entry.2 ++ [newline]

theorem render_cons (entry : Bytes × Bytes) (entries : List (Bytes × Bytes)) :
    render (entry :: entries) = entry.1 ++ (entry.2 ++ newline :: render entries) := by
  simp [render]

def lookup (key text : Bytes) : Option Bytes :=
  (indexOf? key text).map fun index => text.drop (index + key.length)

/-- What the search finds, line by line. -/
def mention (key : Bytes) : List (Bytes × Bytes) → Option Bytes
  | [] => none
  | (own, value) :: rest =>
    if key = own then some (value ++ newline :: render rest)
    else match lookup key value with
      | some after => some (after ++ newline :: render rest)
      | none => mention key rest

/-- No occurrence of `key` starts inside the key `own` of another line, nor inside
its own beyond the first character. -/
def Apart (key own : Bytes) : Prop :=
  ∀ index, index < own.length → (0 < index ∨ key ≠ own) → ¬ own.drop index <+: key ∧
    ¬ key <+: own.drop index

instance (key own : Bytes) : Decidable (Apart key own) := by unfold Apart; infer_instance

/-- A key that a search through lines with these keys can be about. -/
structure Searchable (key : Bytes) (keys : List Bytes) : Prop where
  nonempty : key ≠ []
  single : newline ∉ key
  apart : ∀ own ∈ keys, Apart key own

instance (key : Bytes) (keys : List Bytes) : Decidable (Searchable key keys) :=
  decidable_of_iff (key ≠ [] ∧ newline ∉ key ∧ ∀ own ∈ keys, Apart key own)
    ⟨fun ⟨nonempty, single, apart⟩ => ⟨nonempty, single, apart⟩,
      fun ⟨nonempty, single, apart⟩ => ⟨nonempty, single, apart⟩⟩

theorem lookup_append (key rest : Bytes) : lookup key (key ++ rest) = some rest := by
  rw [lookup, indexOf?_of_prefix (List.prefix_append _ _)]
  simp

theorem lookup_eq_none_iff {key text : Bytes} : lookup key text = none ↔ ¬ key <:+: text := by
  rw [lookup, Option.map_eq_none_iff, indexOf?_eq_none_iff]

theorem split_of_lookup {key text after : Bytes} (found : lookup key text = some after) :
    ∃ before, text = before ++ key ++ after := by
  rw [lookup, Option.map_eq_some_iff] at found
  obtain ⟨index, hit, rfl⟩ := found
  exact ⟨text.take index, split_of_indexOf? hit⟩

private theorem not_prefix_of_apart {key own value : Bytes} {index : Nat} (apart : Apart key own)
    (inside : index < own.length) (other : 0 < index ∨ key ≠ own) : ¬ key <+: (own ++ value).drop index := by
  intro starts
  rw [List.drop_append_of_le_length inside.le] at starts
  obtain ⟨notPrefix, notExtension⟩ := apart index inside other
  rcases Nat.le_total key.length (own.drop index).length with short | long
  · exact notExtension (List.prefix_of_prefix_length_le starts (List.prefix_append _ _) short)
  · exact notPrefix (List.prefix_of_prefix_length_le (List.prefix_append _ _) starts long)

theorem lookup_line {key own value rest : Bytes} {keys : List Bytes} (searchable : Searchable key keys)
    (member : own ∈ keys) (other : key ≠ own) :
    lookup key (own ++ value ++ newline :: rest) =
      match lookup key value with
      | some after => some (after ++ newline :: rest)
      | none => lookup key rest := by
  have skipped : indexOf? key (own ++ value) = (indexOf? key value).map (· + own.length) :=
    indexOf?_skip own value fun index inside =>
      not_prefix_of_apart (searchable.apart own member) inside (Or.inr other)
  have separated := indexOf?_separated (own ++ value) rest searchable.single
  rw [lookup, separated, skipped]
  cases found : indexOf? key value with
  | some index =>
    have bound := congrArg List.length (split_of_indexOf? found)
    simp only [List.length_append, List.length_take, List.length_drop] at bound
    have inside : index + key.length ≤ value.length := by
      have small := (indexOf?_eq_some_iff.mp found).1
      omega
    simp only [lookup, found, Option.map_some, Option.some_or, Option.some.injEq]
    rw [show index + own.length + key.length = own.length + (index + key.length) by omega, ← List.drop_drop,
      List.append_assoc, List.drop_left, List.drop_append_of_le_length inside]
  | none =>
    simp only [lookup, found, Option.map_none, Option.none_or, Option.map_map]
    congr 1
    funext index
    simp only [Function.comp_apply]
    rw [show index + ((own ++ value).length + 1) + key.length = ((own ++ value) ++ [newline]).length +
      (index + key.length) by
        simp; omega,
      ← List.drop_drop, show own ++ value ++ newline :: rest = ((own ++ value) ++ [newline]) ++ rest by
        simp, List.drop_left]

/-- The search through rendered lines is the search line by line. -/
theorem lookup_render {key : Bytes} {entries : List (Bytes × Bytes)}
    (searchable : Searchable key (entries.map Prod.fst)) : lookup key (render entries) = mention key entries := by
  induction entries with
  | nil =>
    have absent : ¬ key <:+: [] := by simpa using searchable.nonempty
    exact lookup_eq_none_iff.mpr absent
  | cons entry entries ih =>
    obtain ⟨own, value⟩ := entry
    have later := ih ⟨searchable.nonempty, searchable.single, fun key member =>
      searchable.apart key (by simp [member])⟩
    rw [render_cons, mention]
    split
    next same =>
      subst same
      rw [lookup_append]
    next other =>
      rw [← List.append_assoc, lookup_line searchable (by simp) other, later]

/-- What a key is mistaken for: the text behind it in the first value that contains it. -/
def shadow (key : Bytes) (values : List Bytes) : Option Bytes := values.findSome? (lookup key)

/-- The lines above the key's own either hide it or change nothing. -/
theorem mention_append {key : Bytes} {before : List (Bytes × Bytes)} (rest : List (Bytes × Bytes))
    (other : ∀ entry ∈ before, key ≠ entry.1) :
    match shadow key (before.map Prod.snd) with
    | some after => ∃ lines, lines <:+ before ∧
        mention key (before ++ rest) = some (after ++ newline :: render (lines ++ rest))
    | none => mention key (before ++ rest) = mention key rest := by
  induction before with
  | nil => rfl
  | cons entry before ih =>
    obtain ⟨own, value⟩ := entry
    have different : key ≠ own := other (own, value) (by simp)
    have later := ih fun entry member => other entry (by simp [member])
    simp only [shadow, List.map_cons, List.findSome?_cons, List.cons_append, mention, if_neg different] at later ⊢
    cases found : lookup key value with
    | some after => exact ⟨before, List.suffix_cons _ _, rfl⟩
    | none =>
      simp only
      split at later
      next after _ =>
        obtain ⟨lines, suffix, same⟩ := later
        exact ⟨lines, suffix.trans (List.suffix_cons _ _), same⟩
      next => exact later

/-- A value without the key's characters cannot be taken for the key. -/
theorem lookup_none_of_not_mem {key value : Bytes} {char : UInt8} (needed : char ∈ key) (absent : char ∉ value) :
    lookup key value = none :=
  lookup_eq_none_iff.mpr fun inside => absent (inside.subset needed)

end KeyedLines
