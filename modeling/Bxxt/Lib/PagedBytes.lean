import Mathlib

/-! Sections laid out on page boundaries. A writer that pads its buffer to the
next boundary after every section, and a reader that adds up rounded sizes, agree
on where each section starts. Nothing requires the page size to be a power of two. -/

namespace PagedBytes

/-- The least multiple of `page` that is at least `size`, in closed form. -/
def roundUp (page size : Nat) : Nat := (size + page - 1) / page * page

/-- How much a buffer of `size` grows when it is aligned to `page`. -/
def padding (page size : Nat) : Nat := (page - size % page) % page

theorem roundUp_of_split {page whole part : Nat} (inside : part < page) :
    roundUp page (page * whole + part) = page * whole + if part = 0 then 0 else page := by
  have positive : 0 < page := by omega
  split
  next none =>
    subst part
    have quotient : (page * whole + 0 + page - 1) / page = whole := by
      rw [show page * whole + 0 + page - 1 = (page - 1) + page * whole by omega,
        Nat.add_mul_div_left _ _ positive, Nat.div_eq_of_lt (by omega), Nat.zero_add]
    rw [roundUp, quotient, Nat.mul_comm, Nat.add_zero]
  next some =>
    have quotient : (page * whole + part + page - 1) / page = whole + 1 := by
      rw [show page * whole + part + page - 1 = (part - 1) + page * (whole + 1) by
          rw [Nat.mul_succ]; omega,
        Nat.add_mul_div_left _ _ positive, Nat.div_eq_of_lt (by omega), Nat.zero_add]
    rw [roundUp, quotient, Nat.mul_comm, Nat.mul_succ]

theorem size_add_padding {page : Nat} (positive : 0 < page) (size : Nat) :
    size + padding page size = roundUp page size := by
  have split := Nat.div_add_mod size page
  have inside := Nat.mod_lt size positive
  have rounded := @roundUp_of_split _ (size / page) _ inside
  rw [split] at rounded
  rw [rounded, padding]
  split
  next none => rw [none, Nat.sub_zero, Nat.mod_self]; omega
  next some => rw [Nat.mod_eq_of_lt (by omega)]; omega

theorem le_roundUp {page : Nat} (positive : 0 < page) (size : Nat) : size ≤ roundUp page size := by
  rw [← size_add_padding positive size]
  omega

theorem roundUp_lt {page : Nat} (positive : 0 < page) (size : Nat) : roundUp page size < size + page := by
  rw [← size_add_padding positive size]
  have small : padding page size < page := Nat.mod_lt _ positive
  omega

theorem dvd_roundUp (page size : Nat) : page ∣ roundUp page size := Nat.dvd_mul_left _ _

@[simp] theorem roundUp_zero (page : Nat) : roundUp page 0 = 0 := by
  rcases Nat.eq_zero_or_pos page with none | positive
  · simp [roundUp, none]
  · simp [roundUp, Nat.div_eq_of_lt (show page - 1 < page by omega)]

theorem roundUp_eq_page {page size : Nat} (some : 0 < size) (inside : size ≤ page) : roundUp page size = page := by
  have one : (size + page - 1) / page = 1 := by
    apply Nat.div_eq_of_lt_le <;> omega
  rw [roundUp, one, Nat.one_mul]

theorem padding_add_of_dvd {page before : Nat} (aligned : page ∣ before) (size : Nat) :
    padding page (before + size) = padding page size := by
  obtain ⟨count, rfl⟩ := aligned
  rw [padding, Nat.mul_add_mod, padding]

section Sections
variable {α : Type} (page : Nat) (fill : α)

def pad (items : List α) : List α := items ++ List.replicate (padding page items.length) fill

/-- Every section in turn, each filled up to a page boundary. -/
def paged (sections : List (List α)) : List α := sections.flatMap (pad page fill)

/-- Where section `index` starts: the rounded sizes of the sections before it. -/
def offset (sections : List (List α)) (index : Nat) : Nat :=
  ((sections.take index).map fun items => roundUp page items.length).sum

@[simp] theorem pad_nil : pad page fill [] = [] := by
  rcases Nat.eq_zero_or_pos page with none | positive
  · simp [pad, padding, none]
  · simp [pad, padding]

@[simp] theorem paged_nil : paged page fill [] = [] := rfl

@[simp] theorem paged_cons (first : List α) (rest : List (List α)) :
    paged page fill (first :: rest) = pad page fill first ++ paged page fill rest := rfl

theorem paged_append (first second : List (List α)) :
    paged page fill (first ++ second) = paged page fill first ++ paged page fill second :=
  List.flatMap_append

@[simp] theorem offset_zero (sections : List (List α)) : offset page sections 0 = 0 := rfl

@[simp] theorem offset_succ_cons (first : List α) (rest : List (List α)) (index : Nat) :
    offset page (first :: rest) (index + 1) = roundUp page first.length + offset page rest index := by
  simp [offset]

variable {page}

theorem length_pad (positive : 0 < page) (items : List α) :
    (pad page fill items).length = roundUp page items.length := by
  simp [pad, size_add_padding positive]

theorem length_paged (positive : 0 < page) (sections : List (List α)) :
    (paged page fill sections).length = offset page sections sections.length := by
  induction sections with
  | nil => rfl
  | cons first rest ih => simp [length_pad fill positive, ih]

theorem offset_dvd (sections : List (List α)) (index : Nat) : page ∣ offset page sections index := by
  induction sections generalizing index with
  | nil => simp [offset]
  | cons first rest ih =>
    cases index with
    | zero => simp
    | succ index =>
      rw [offset_succ_cons]
      exact Nat.dvd_add (dvd_roundUp page _) (ih index)

/-- Aligning a buffer that already ends on a boundary only pads what was added. -/
theorem pad_append {before : List α} (aligned : page ∣ before.length) (items : List α) :
    pad page fill (before ++ items) = before ++ pad page fill items := by
  simp [pad, padding_add_of_dvd aligned]

theorem drop_offset (positive : 0 < page) (sections : List (List α)) (index : Nat) :
    (paged page fill sections).drop (offset page sections index) = paged page fill (sections.drop index) := by
  induction sections generalizing index with
  | nil => simp
  | cons first rest ih =>
    cases index with
    | zero => simp
    | succ index =>
      rw [offset_succ_cons, paged_cons, ← length_pad fill positive, ← List.drop_drop, List.drop_left]
      simpa using ih index

/-- The reader's offset and the stored size select exactly the section written. -/
theorem section_at (positive : 0 < page) (sections : List (List α)) (index : Nat) (inside : index < sections.length) :
    ((paged page fill sections).drop (offset page sections index)).take sections[index].length = sections[index] := by
  rw [drop_offset fill positive, List.drop_eq_getElem_cons inside, paged_cons, pad, List.append_assoc,
    List.take_left]

theorem offset_add_length_le (positive : 0 < page) (sections : List (List α)) (index : Nat)
    (inside : index < sections.length) :
    offset page sections index + sections[index].length ≤ (paged page fill sections).length := by
  induction sections generalizing index with
  | nil => simp at inside
  | cons first rest ih =>
    rw [paged_cons, List.length_append, length_pad fill positive]
    cases index with
    | zero =>
      have grown := le_roundUp positive first.length
      simp only [offset_zero, List.getElem_cons_zero]
      omega
    | succ index =>
      have later := ih index (by simpa using inside)
      simp only [offset_succ_cons, List.getElem_cons_succ]
      omega

end Sections
end PagedBytes
