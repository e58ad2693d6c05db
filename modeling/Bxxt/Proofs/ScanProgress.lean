import Bxxt.Proofs.ScanWalk

/-! Whether the search for device trees comes to an end. The width of a step is a word of the
data, so this is a property of the trees that are met. -/

namespace Bxxt.Proofs
open ByteLayout

def Iterates (ptr : Region) (finish base next : Nat) : Prop := ∃ entry, dtbStep ptr finish base =
    .ok (some (entry, next))

theorem iterates_iff {ptr : Region} {finish base next : Nat} :
    Iterates ptr finish base next ↔ Onward ptr finish base next := by
  unfold Iterates Onward
  simp only [dtbStep_some_iff]

/-- What progress of the search means: every iteration goes on, none makes the rest of the region
longer, and in the end the loop is left. -/
structure ComesToEnd (ptr : Region) (mm total : Nat) : Prop where
  forward : ∀ base next, Reaches ptr (mm + total) mm base → Iterates ptr (mm + total) base next → base < next
  shorter : ∀ base next, Reaches ptr (mm + total) mm base → Iterates ptr (mm + total) base next →
    remaining (mm + total) next ≤ remaining (mm + total) base
  left : ∃ base, Reaches ptr (mm + total) mm base ∧ dtbStep ptr (mm + total) base = .ok none

/-- How a step goes on: the total size is not zero, and it ends the tree in the rest of the region
or carries the search once around the 32-bit counter. -/
structure StepsOver (finish base : Nat) (entry : BxxtDtb) : Prop where
  positive : 0 < entry.size
  fits : entry.ptr + entry.size ≤ base + remaining finish base ∨ base + 2 ^ 32 ≤ entry.ptr + entry.size

section Progress
variable {ptr : Region} {finish base : Nat} {entry : BxxtDtb}

theorem Met.size_lt (met : Met ptr finish base entry) : entry.size < 2 ^ 32 := by
  obtain ⟨word, read, same⟩ := met.totalsize
  have bound := leValue_lt word.reverse
  rw [List.length_reverse, Region.length_of_slice read] at bound
  rw [same]
  exact bound

theorem remaining_behind (met : Met ptr finish base entry) :
    remaining finish (entry.ptr + entry.size) ≤ remaining finish base ↔
      (entry.ptr + entry.size ≤ base + remaining finish base ∨ base + 2 ^ 32 ≤ entry.ptr + entry.size) := by
  have after := met.after
  have inside := met.inside
  have small := met.size_lt
  simp only [remaining] at inside ⊢
  omega

/-- A tree without a size is met again where it is. -/
theorem met_again (met : Met ptr finish base entry) (empty : entry.size = 0) :
    Met ptr finish (entry.ptr + entry.size) entry := by
  have after := met.after
  have inside := met.inside
  have magic : fdtMagic.length = 4 := rfl
  have left : remaining finish (entry.ptr + entry.size) = base + remaining finish base - entry.ptr := by
    simp only [remaining] at inside ⊢
    omega
  refine ⟨by omega, ?_, met.magic, ?_, met.totalsize, met.version⟩
  · rw [left]
    omega
  · intro addr low high
    omega

/-- The memory is finite, so that steps forward come to an end. -/
theorem last_of_forward {mm : Nat}
    (forward : ∀ base entry, Reaches ptr finish mm base → Met ptr finish base entry →
      base < entry.ptr + entry.size)
    (count : Nat) (reached : Reaches ptr finish mm base) (left : ptr.mapped.length - base ≤ count) :
    ∃ last, Reaches ptr finish mm last ∧ ∀ entry, ¬ Met ptr finish last entry := by
  induction count generalizing base with
  | zero =>
    refine ⟨base, reached, ?_⟩
    intro entry met
    have room := (Region.slice_eq_ok (by decide) met.magic).1
    have after := met.after
    have magic : fdtMagic.length = 4 := rfl
    omega
  | succ count ih =>
    by_cases more : ∃ entry, Met ptr finish base entry
    · obtain ⟨entry, met⟩ := more
      have onward := forward base entry reached met
      exact ih (reached.behind met) (by omega)
    · exact ⟨base, reached, not_exists.mp more⟩

/-- Whoever can be reached besides the last place goes on from there. -/
theorem met_before_last {mm last : Nat} (reached : Reaches ptr finish mm base) (ends : Reaches ptr finish mm last)
    (bare : Bare ptr finish last) : Bare ptr finish base ∨ ∃ entry, Met ptr finish base entry := by
  have unique : Relator.RightUnique (Onward ptr finish) := by
    intro base next other ⟨entry, met, onward⟩ ⟨again, metAgain, onwardAgain⟩
    rw [onward, onwardAgain, met.unique metAgain]
  rcases Relation.ReflTransGen.total_of_right_unique unique reached ends with onward | back
  · rcases onward.cases_head with rfl | ⟨next, ⟨entry, met, _⟩, _⟩
    · exact Or.inl bare
    · exact Or.inr ⟨entry, met⟩
  · rcases back.cases_head with rfl | ⟨next, ⟨entry, met, _⟩, _⟩
    · exact Or.inl bare
    · exact absurd bare (not_bare_of_met met)

end Progress

/-- The search of a region goes on and ends exactly when wherever it gets it finds no magic
any more, or a tree with a total size that can be stepped over. -/
theorem comes_to_end_iff (ptr : Region) (mm total : Nat) :
    ComesToEnd ptr mm total ↔
      ∀ base, Reaches ptr (mm + total) mm base →
        Bare ptr (mm + total) base ∨ ∃ entry, Met ptr (mm + total) base entry ∧
          StepsOver (mm + total) base entry := by
  constructor
  · intro progress base reached
    obtain ⟨last, ends, left⟩ := progress.left
    refine (met_before_last reached ends (dtbStep_none_iff.mp left)).imp_right ?_
    intro ⟨entry, met⟩
    have step : Iterates ptr (mm + total) base (entry.ptr + entry.size) := iterates_iff.mpr ⟨entry, met, rfl⟩
    refine ⟨entry, met, Nat.pos_of_ne_zero ?_, (remaining_behind met).mp (progress.shorter _ _ reached step)⟩
    intro empty
    have again : Iterates ptr (mm + total) (entry.ptr + entry.size) (entry.ptr + entry.size) :=
      iterates_iff.mpr ⟨entry, met_again met empty, rfl⟩
    exact lt_irrefl _ (progress.forward _ _ (reached.behind met) again)
  · intro steps
    have beyond (base : Nat) (entry : BxxtDtb) (reached : Reaches ptr (mm + total) mm base)
        (met : Met ptr (mm + total) base entry) : StepsOver (mm + total) base entry := by
      rcases steps base reached with bare | ⟨other, again, beyond⟩
      · exact absurd bare (not_bare_of_met met)
      · exact met.unique again ▸ beyond
    have forward (base : Nat) (entry : BxxtDtb) (reached : Reaches ptr (mm + total) mm base)
        (met : Met ptr (mm + total) base entry) : base < entry.ptr + entry.size := by
      have positive := (beyond base entry reached met).positive
      have after := met.after
      omega
    constructor
    case forward =>
      intro base next reached iterates
      obtain ⟨entry, met, rfl⟩ := iterates_iff.mp iterates
      exact forward base entry reached met
    case shorter =>
      intro base next reached iterates
      obtain ⟨entry, met, rfl⟩ := iterates_iff.mp iterates
      exact (remaining_behind met).mpr (beyond base entry reached met).fits
    case left =>
      obtain ⟨last, reached, none⟩ := last_of_forward forward _ .refl (Nat.le_refl _)
      rcases steps last reached with bare | ⟨entry, met, _⟩
      · exact ⟨last, reached, dtbStep_none_iff.mpr bare⟩
      · exact absurd met (none entry)

def emptySizedDtb : Bytes := fdtMagic ++ List.replicate 36 0

/-- The search of such a header alone stays at its first byte for ever. -/
theorem empty_size_never_left :
    Iterates (Region.ofBuffer emptySizedDtb) (0 + 40) 0 0 ∧ ¬ ComesToEnd (Region.ofBuffer emptySizedDtb) 0 40 := by
  have again : Iterates (Region.ofBuffer emptySizedDtb) (0 + 40) 0 0 := ⟨⟨0, 0⟩, rfl⟩
  exact ⟨again, fun progress => lt_irrefl 0 (progress.forward 0 0 .refl again)⟩

end Bxxt.Proofs
