import Bxxt.Proofs.SymbolIndex

/-! The cache of a role in a kernel policy: its regular types. Attributes of a kernel
policy have no types of their own, and its type sets neither exceptions nor flags. -/

namespace Bxxt.Proofs
open Bxxt

/-- The value `i + 1` belongs to a type that is not an attribute. -/
def Regular (p : Policydb) (i : Nat) : Prop := ∃ type, typeStruct p i = .ok (some type) ∧ type.flavor ≠ typeAttrib

/-- The value `i + 1` is in use, by a type whose own set is empty. -/
def InUse (p : Policydb) (i : Nat) : Prop :=
  i < p.pTypes.nprim.toNat ∧ ∃ type, typeStruct p i = .ok (some type) ∧ type.types = .empty

structure KernelSet (set : TypeSet) : Prop where
  formed : set.types.WellFormed
  negset : set.negset = .empty
  flags : set.flags = 0

section Bits
variable {i : Nat}

theorem toNat_ofNat_bit (room : i ≤ Ebitmap.maxBit) : (UInt32.ofNat i).toNat = i := by
  rw [UInt32.toNat_ofNat']
  rw [Ebitmap.maxBit, mapsize] at room
  omega

theorem setBit_ofNat {e : Ebitmap} (formed : e.WellFormed) (room : i ≤ Ebitmap.maxBit) :
    ∃ after, ebitmapSetBit e (UInt32.ofNat i) true = (0, after) ∧ after.WellFormed ∧
      ∀ j, after.Holds j ↔ j = i ∨ e.Holds j := by
  obtain ⟨after, set, wellFormed, holds⟩ := @Ebitmap.setBit_spec _ formed (UInt32.ofNat i)
      (by rw [toNat_ofNat_bit room]; exact room) true
  refine ⟨after, set, wellFormed, ?_⟩
  intro j
  rw [holds, toNat_ofNat_bit room]
  split
  next same => simp [same]
  next other => simp [other]

end Bits

section Expand
variable {p : Policydb} {bits : List Nat}

theorem expandTypes_ok {types : Ebitmap} (formed : types.WellFormed) (inUse : ∀ i ∈ bits, InUse p i)
    (room : ∀ i ∈ bits, i ≤ Ebitmap.maxBit) : ∃ after, expandTypes p true bits types = .ok (some after) ∧
      after.WellFormed ∧ ∀ j, after.Holds j ↔ types.Holds j ∨ j ∈ bits ∧ Regular p j := by
  induction bits generalizing types with
  | nil => exact ⟨types, rfl, formed, by simp⟩
  | cons i rest ih =>
    obtain ⟨⟨below, type, struct, noTypes⟩, inUse⟩ := List.forall_mem_cons.mp inUse
    obtain ⟨fits, room⟩ := List.forall_mem_cons.mp room
    rw [expandTypes, if_neg (by omega), struct, Exec.ok_bind]
    dsimp only
    by_cases isAttrib : type.flavor = typeAttrib
    · rw [if_pos ⟨isAttrib, Or.inl rfl⟩, noTypes, Ebitmap.union_empty]
      obtain ⟨after, expanded, wellFormed, holds⟩ := ih formed inUse room
      refine ⟨after, expanded, wellFormed, ?_⟩
      intro j
      have notRegular : ¬ Regular p i := by
        rintro ⟨other, found, regular⟩
        rw [struct] at found
        cases found
        exact regular isAttrib
      rw [holds, List.mem_cons]
      by_cases same : j = i
      · subst same
        simp [notRegular]
      · simp [same]
    · obtain ⟨set, result, setFormed, setHolds⟩ := setBit_ofNat formed fits
      rw [if_neg (fun both => isAttrib both.1), result]
      obtain ⟨after, expanded, wellFormed, holds⟩ := ih setFormed inUse room
      refine ⟨after, expanded, wellFormed, ?_⟩
      intro j
      rw [holds, setHolds, List.mem_cons]
      by_cases same : j = i
      · subst same
        have regular : Regular p j := ⟨type, struct, isAttrib⟩
        simp [regular]
      · simp [same]

/-- A set that was expanded has only values with a type. -/
theorem bits_of_expandTypes {types after : Ebitmap} {expand : Bool}
    (expanded : expandTypes p expand bits types = .ok (some after)) :
    ∀ i ∈ bits, i < p.pTypes.nprim.toNat ∧ ∃ type, typeStruct p i = .ok (some type) := by
  induction bits generalizing types with
  | nil => simp
  | cons i rest ih =>
    rw [expandTypes] at expanded
    split at expanded
    next => cases expanded
    next below =>
      obtain ⟨type?, struct, expanded⟩ := Exec.bind_eq_ok.mp expanded
      cases type? with
      | none => cases expanded
      | some type =>
        refine List.forall_mem_cons.mpr ⟨⟨by omega, type, struct⟩, ?_⟩
        dsimp only at expanded
        split at expanded
        next => exact ih expanded
        next =>
          split at expanded
          next => cases expanded
          next => exact ih expanded

theorem copyTypes_ok {t : Ebitmap} (formed : t.WellFormed) (room : ∀ i ∈ bits, i ≤ Ebitmap.maxBit) :
    ∃ after, copyTypes .empty bits t = (0, after) ∧ after.WellFormed ∧ ∀ j, after.Holds j ↔
      t.Holds j ∨ j ∈ bits := by
  induction bits generalizing t with
  | nil => exact ⟨t, rfl, formed, by simp⟩
  | cons i rest ih =>
    obtain ⟨fits, room⟩ := List.forall_mem_cons.mp room
    obtain ⟨set, result, setFormed, setHolds⟩ := setBit_ofNat formed fits
    have none : ¬ ebitmapGetBit .empty (UInt32.ofNat i) = true := by
      rw [Ebitmap.getBit_iff .empty]
      exact Ebitmap.not_holds_empty _
    rw [copyTypes, if_neg none, result]
    obtain ⟨after, copied, wellFormed, holds⟩ := ih setFormed room
    refine ⟨after, copied, wellFormed, ?_⟩
    intro j
    rw [holds, setHolds, List.mem_cons]
    tauto

variable {set : TypeSet}

theorem typeSetExpand_ok (kernel : KernelSet set) (inUse : ∀ i, set.types.Holds i → InUse p i) :
    ∃ cache, typeSetExpand p set true = .ok (0, cache) ∧ cache.WellFormed ∧
      ∀ i, cache.Holds i ↔ set.types.Holds i ∧ Regular p i := by
  have bound {e : Ebitmap} (formed : e.WellFormed) : ∀ i ∈ ebitmapPositiveBits e,
      i ≤ Ebitmap.maxBit := fun i member =>
    Ebitmap.holds_bounded formed ((Ebitmap.mem_positiveBits formed).mp member)
  obtain ⟨types, expanded, typesFormed, typesHold⟩ := @expandTypes_ok p (ebitmapPositiveBits set.types) _ .empty
      (fun i member => inUse i ((Ebitmap.mem_positiveBits kernel.formed).mp member)) (bound kernel.formed)
  obtain ⟨cache, copied, cacheFormed, cacheHolds⟩ := @copyTypes_ok (ebitmapPositiveBits types) _ .empty
      (bound typesFormed)
  refine ⟨cache, ?_, cacheFormed, ?_⟩
  · have noBits : ebitmapPositiveBits set.negset = [] := by rw [kernel.negset]; rfl
    rw [typeSetExpand, Bool.true_or, Bool.true_or, expanded, Exec.ok_bind, noBits, expandNegset]
    simp [kernel.flags, copied]
  · intro i
    rw [cacheHolds, Ebitmap.mem_positiveBits typesFormed, typesHold, Ebitmap.mem_positiveBits kernel.formed]
    simp [Ebitmap.not_holds_empty]

theorem of_typeSetExpand (formed : set.types.WellFormed) {cache : Ebitmap}
    (expanded : typeSetExpand p set true = .ok (0, cache)) {i : Nat} (holds : set.types.Holds i) :
    i < p.pTypes.nprim.toNat ∧ ∃ type, typeStruct p i = .ok (some type) := by
  obtain ⟨types?, first, _⟩ := Exec.bind_eq_ok.mp expanded
  cases types? with
  | none => simp_all
  | some types => exact bits_of_expandTypes first i ((Ebitmap.mem_positiveBits formed).mpr holds)

end Expand
end Bxxt.Proofs
