import Mathlib

/-! Streams that are taken in blocks of one size: what has come so far is a state, to which every whole block was
added, and the items behind the last of them. In which pieces the items come makes no difference. -/

namespace BlockStream
variable {σ α : Type} {size : Nat} {compress : σ → List α → σ}

section Blocks

/-- So many blocks from the front. -/
def absorbBlocks (compress : σ → List α → σ) (size : Nat) : Nat → σ → List α → σ
  | 0, state, _ => state
  | count + 1, state, items => absorbBlocks compress size count (compress state (items.take size)) (items.drop size)

def absorb (compress : σ → List α → σ) (size : Nat) (state : σ) (items : List α) : σ :=
  absorbBlocks compress size (items.length / size) state items

def rest (size : Nat) (items : List α) : List α := items.drop (items.length / size * size)

theorem absorbBlocks_add (first second : Nat) (state : σ) (items : List α) :
    absorbBlocks compress size (first + second) state items =
      absorbBlocks compress size second (absorbBlocks compress size first state items) (items.drop (first * size)) := by
  induction first generalizing state items with
  | zero => rw [Nat.zero_add, Nat.zero_mul, List.drop_zero, absorbBlocks]
  | succ first ih => rw [Nat.succ_add, absorbBlocks, absorbBlocks, ih, List.drop_drop, Nat.succ_mul, Nat.add_comm size]

theorem absorbBlocks_append {count : Nat} (state : σ) {items : List α} (whole : count * size ≤ items.length)
    (more : List α) :
    absorbBlocks compress size count state (items ++ more) = absorbBlocks compress size count state items := by
  induction count generalizing state items with
  | zero => rfl
  | succ count ih =>
    rw [Nat.succ_mul] at whole
    have first : size ≤ items.length := by omega
    rw [absorbBlocks, absorbBlocks, List.take_append_of_le_length first, List.drop_append_of_le_length first]
    apply ih
    rw [List.length_drop]
    omega

end Blocks
section Pieces

@[simp] theorem rest_nil : rest size ([] : List α) = [] := List.drop_nil

theorem rest_short {items : List α} (short : items.length < size) : rest size items = items := by
  rw [rest, Nat.div_eq_of_lt short, Nat.zero_mul, List.drop_zero]

theorem absorb_short (state : σ) {items : List α} (short : items.length < size) :
    absorb compress size state items = state := by
  rw [absorb, Nat.div_eq_of_lt short, absorbBlocks]

@[simp] theorem length_rest (items : List α) : (rest size items).length = items.length % size := by
  have split := Nat.div_add_mod' items.length size
  rw [rest, List.length_drop]
  omega

/-- What comes next fills up what is left. -/
theorem length_append_div (positive : 0 < size) (items more : List α) :
    (items ++ more).length / size = items.length / size + (rest size items ++ more).length / size := by
  have split := Nat.div_add_mod' items.length size
  have whole : (items ++ more).length = items.length / size * size + (rest size items ++ more).length := by
    rw [List.length_append, List.length_append, length_rest]
    omega
  rw [whole, Nat.mul_comm, Nat.mul_add_div positive]

theorem rest_append (positive : 0 < size) (items more : List α) :
    rest size (items ++ more) = rest size (rest size items ++ more) := by
  have inside : items.length / size * size ≤ items.length := Nat.div_mul_le_self ..
  have left : rest size items ++ more = (items ++ more).drop (items.length / size * size) :=
    (List.drop_append_of_le_length inside).symm
  have count := length_append_div positive items more
  rw [rest, count, Nat.add_mul, ← List.drop_drop, ← left]
  rfl

theorem absorb_append (positive : 0 < size) (state : σ) (items more : List α) :
    absorb compress size state (items ++ more) = absorb compress size (absorb compress size state items)
      (rest size items ++ more) := by
  have inside : items.length / size * size ≤ items.length := Nat.div_mul_le_self ..
  have left : rest size items ++ more = (items ++ more).drop (items.length / size * size) :=
    (List.drop_append_of_le_length inside).symm
  rw [absorb, length_append_div positive, absorbBlocks_add, absorbBlocks_append state inside, ← left, absorb, absorb]

theorem absorb_block (positive : 0 < size) (state : σ) {block : List α} (whole : block.length = size)
    (more : List α) :
    absorb compress size state (block ++ more) = absorb compress size (compress state block) more := by
  have one : (block ++ more).length / size = more.length / size + 1 := by
    rw [List.length_append, whole, Nat.add_comm, Nat.add_div_right _ positive]
  rw [absorb, one, absorbBlocks, List.take_left' whole, List.drop_left' whole, absorb]

theorem rest_block (positive : 0 < size) {block : List α} (whole : block.length = size) (more : List α) :
    rest size (block ++ more) = rest size more := by
  have one : (block ++ more).length / size = more.length / size + 1 := by
    rw [List.length_append, whole, Nat.add_comm, Nat.add_div_right _ positive]
  rw [rest, one, Nat.succ_mul, Nat.add_comm, ← List.drop_drop, List.drop_left' whole, rest]

end Pieces
end BlockStream
