import Bxxt.Lib.ByteLayout

/-! Byte strings with their lengths behind them. Nothing else is between the items: a text is taken
apart from its end. -/

namespace LengthSuffix
open ByteLayout

variable {width : Nat}

def sized (width : Nat) (item : Bytes) : Bytes := item ++ leBytes width item.length

def sizedAll (width : Nat) (items : List Bytes) : Bytes := (items.map (sized width)).flatten

def Short (width : Nat) (item : Bytes) : Prop := item.length < 256 ^ width

theorem sizedAll_append (items more : List Bytes) :
    sizedAll width (items ++ more) = sizedAll width items ++ sizedAll width more := by
  rw [sizedAll, List.map_append, List.flatten_append]
  rfl

theorem sizedAll_singleton (item : Bytes) : sizedAll width [item] = sized width item := List.append_nil _

/-- The last item of a text, by the length at its end. -/
theorem sized_last {front front' item item' : Bytes} (short : Short width item) (short' : Short width item')
    (same : front ++ sized width item = front' ++ sized width item') : front = front' ∧ item = item' := by
  unfold sized at same
  rw [← List.append_assoc, ← List.append_assoc] at same
  obtain ⟨data, lengths⟩ := List.append_inj' same (by rw [length_leBytes, length_leBytes])
  have length : item.length = item'.length := by
    rw [← leValue_leBytes width _ short, lengths, leValue_leBytes width _ short']
  exact List.append_inj' data length

/-- As many items are the same if their texts are, by induction from the last one. -/
theorem sizedAll_injective {items others : List Bytes} (count : items.length = others.length)
    (short : ∀ item ∈ items, Short width item) (short' : ∀ item ∈ others, Short width item)
    (same : sizedAll width items = sizedAll width others) : items = others := by
  induction items using List.reverseRecOn generalizing others with
  | nil => exact (List.length_eq_zero_iff.mp count.symm).symm
  | append_singleton items item ih =>
    rcases List.eq_nil_or_concat' others with rfl | ⟨others, other, rfl⟩
    · rw [List.length_append] at count
      cases count
    · rw [sizedAll_append, sizedAll_append, sizedAll_singleton, sizedAll_singleton] at same
      obtain ⟨front, rfl⟩ := sized_last (short item (by simp)) (short' other (by simp)) same
      rw [List.length_append, List.length_append] at count
      rw [ih (Nat.add_right_cancel count) (fun item member => short item (List.mem_append_left _ member))
        (fun item member => short' item (List.mem_append_left _ member)) front]

end LengthSuffix
