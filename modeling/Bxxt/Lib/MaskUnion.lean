/-! Words as sets of bits: inclusion, disjointness, and the union of many words. -/

namespace MaskUnion

def Has (word : UInt32) (i : Nat) : Prop := word.toBitVec.getLsbD i = true

def Includes (word bits : UInt32) : Prop := word &&& bits = bits

def unionAll (words : List UInt32) : UInt32 := words.foldr (· ||| ·) 0

section Bits
variable {a b word bits : UInt32} {i : Nat}

theorem eq_iff : a = b ↔ ∀ i, Has a i ↔ Has b i := by
  refine ⟨fun same i => by rw [same], fun same => ?_⟩
  rw [← UInt32.toBitVec_inj]
  apply BitVec.eq_of_getLsbD_eq
  intro i _
  exact Bool.eq_iff_iff.mpr (same i)

@[simp] theorem has_or : Has (a ||| b) i ↔ Has a i ∨ Has b i := by simp [Has]

@[simp] theorem has_and : Has (a &&& b) i ↔ Has a i ∧ Has b i := by simp [Has]

@[simp] theorem not_has_zero : ¬ Has 0 i := by simp [Has]

theorem has_lt (has : Has a i) : i < 32 := by
  refine Nat.lt_of_not_le fun beyond => ?_
  rw [Has, BitVec.getLsbD_of_ge _ _ beyond] at has
  cases has

theorem has_not : Has (~~~a) i ↔ i < 32 ∧ ¬ Has a i := by
  simp [Has]

theorem includes_iff : Includes word bits ↔ ∀ i, Has bits i → Has word i := by
  rw [Includes, eq_iff]
  simp only [has_and]
  exact forall_congr' fun i => ⟨fun same has => (same.mpr has).1, fun implies =>
    ⟨And.right, fun has => ⟨implies has, has⟩⟩⟩

theorem disjoint_iff : word &&& bits = 0 ↔ ∀ i, Has bits i → ¬ Has word i := by
  rw [eq_iff]
  simp only [has_and, not_has_zero, iff_false, not_and]
  exact forall_congr' fun i => ⟨fun none has has' => none has' has, fun none has has' => none has' has⟩

theorem Includes.trans {c : UInt32} (first : Includes a b) (second : Includes b c) : Includes a c := by
  rw [includes_iff] at *
  exact fun i has => first i (second i has)

end Bits
section Unions
variable {words : List UInt32} {bits : UInt32}

theorem has_unionAll {i : Nat} : Has (unionAll words) i ↔ ∃ word ∈ words, Has word i := by
  induction words with
  | nil => simp [unionAll]
  | cons word rest ih =>
    rw [unionAll, List.foldr_cons, has_or]
    simp [← ih, unionAll]

theorem includes_unionAll {word : UInt32} (member : word ∈ words) (includes : Includes word bits) :
    Includes (unionAll words) bits := by
  rw [includes_iff] at *
  exact fun i has => has_unionAll.mpr ⟨word, member, includes i has⟩

theorem disjoint_unionAll : unionAll words &&& bits = 0 ↔ ∀ word ∈ words, word &&& bits = 0 := by
  simp only [disjoint_iff, has_unionAll]
  constructor
  · intro none word member i has inWord
    exact none i has ⟨word, member, inWord⟩
  · rintro none i has ⟨word, member, inWord⟩
    exact none word member i has inWord

theorem foldl_union {σ α : Type} (field : σ → UInt32) (step : σ → α → σ) (adds : α → UInt32)
    (spec : ∀ state item, field (step state item) = field state ||| adds item) (items : List α) (state : σ) :
    field (items.foldl step state) = field state ||| unionAll (items.map adds) := by
  induction items generalizing state with
  | nil => simp [unionAll]
  | cons item rest ih =>
    rw [List.foldl_cons, ih, spec, UInt32.or_assoc]
    rfl

end Unions
end MaskUnion
