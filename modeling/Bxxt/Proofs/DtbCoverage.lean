import Bxxt.Proofs.ReaderLayout

/-! What the search for device trees leaves out. It records the trees it meets and says
nothing of the bytes between them, so the records cover a region exactly when a walk
over it steps from tree to tree. -/

namespace Bxxt.Proofs
open ByteLayout

/-- The magic of a device tree, whole inside the region. -/
def TreeAt (ptr : Region) (finish addr : Nat) : Prop :=
  addr + fdtMagic.length ≤ finish ∧ ptr.slice addr fdtMagic.length = .ok fdtMagic

/-- A walk from here to the end of the region: over a tree by its own total size, over
any other byte only where it can be spared. -/
inductive Tiled (ptr : Region) (spare : Nat → Prop) (finish : Nat) : Nat → Prop where
  | done {addr : Nat} (behind : finish ≤ addr) : Tiled ptr spare finish addr
  | spare {addr : Nat} (before : addr < finish) (other : ¬ TreeAt ptr finish addr) (spared : spare addr)
      (rest : Tiled ptr spare finish (addr + 1)) : Tiled ptr spare finish addr
  | tree {addr : Nat} {totalsize : Bytes} (here : TreeAt ptr finish addr)
      (sized : ptr.slice (addr + 4) 4 = .ok totalsize)
      (rest : Tiled ptr spare finish (addr + beValue totalsize)) : Tiled ptr spare finish addr

def BxxtDtb.Holds (entry : BxxtDtb) (addr : Nat) : Prop := entry.ptr ≤ addr ∧ addr < entry.ptr + entry.size

section Walk
variable {ptr : Region} {spare : Nat → Prop} {finish : Nat}

theorem tiled_gap {addr stop : Nat} (order : addr ≤ stop) (inside : stop ≤ finish)
    (gap : ∀ position, addr ≤ position → position < stop → ¬ TreeAt ptr finish position) :
    Tiled ptr spare finish addr ↔
      (∀ position, addr ≤ position → position < stop → spare position) ∧ Tiled ptr spare finish stop := by
  obtain ⟨count, rfl⟩ := Nat.le.dest order
  induction count generalizing addr with
  | zero =>
    constructor
    · intro tiled
      exact ⟨fun position after before => absurd before (by omega), tiled⟩
    · exact fun tiled => tiled.2
  | succ count ih =>
    have next : addr + 1 + count = addr + (count + 1) := by omega
    have later := @ih (addr + 1) (by omega) (by omega) fun position after before => gap position (by omega) (by omega)
    rw [next] at later
    constructor
    · intro tiled
      cases tiled with
      | done behind => omega
      | tree here => exact absurd here (gap addr (Nat.le_refl _) (by omega))
      | spare before other spared rest =>
        obtain ⟨spares, tiled⟩ := later.mp rest
        refine ⟨?_, tiled⟩
        intro position after before
        rcases Nat.lt_or_eq_of_le after with behind | rfl
        · exact spares position behind before
        · exact spared
    · intro ⟨spares, tiled⟩
      have rest := later.mpr ⟨fun position after before => spares position (by omega) before, tiled⟩
      exact .spare (by omega) (gap addr (Nat.le_refl _) (by omega)) (spares addr (Nat.le_refl _) (by omega)) rest

theorem tiled_tree {addr : Nat} {totalsize : Bytes} (here : TreeAt ptr finish addr)
    (sized : ptr.slice (addr + 4) 4 = .ok totalsize) :
    Tiled ptr spare finish addr ↔ Tiled ptr spare finish (addr + beValue totalsize) := by
  have positive : 0 < fdtMagic.length := by decide
  constructor
  · intro tiled
    cases tiled with
    | done behind =>
      have inside := here.1
      omega
    | spare before other => exact absurd here other
    | tree _ again rest =>
      rw [sized] at again
      cases again
      exact rest
  · exact fun rest => .tree here sized rest

/-- What one step of the search tells: the first tree from here on, or that there is none. -/
theorem dtbStep_eq_ok {base : Nat} {result : Option (BxxtDtb × Nat)} (run : dtbStep ptr finish base = .ok result)
    (before : base < finish) (small : finish - base < 2 ^ 32) :
    match result with
    | none => ∀ addr, base ≤ addr → addr < finish → ¬ TreeAt ptr finish addr
    | some (entry, next) => base ≤ entry.ptr ∧ TreeAt ptr finish entry.ptr ∧ next = entry.ptr + entry.size ∧
        (∃ totalsize, ptr.slice (entry.ptr + 4) 4 = .ok totalsize ∧ entry.size = beValue totalsize) ∧
        ∀ addr, base ≤ addr → addr < entry.ptr → ¬ TreeAt ptr finish addr := by
  have left := remaining_of_le (Nat.le_of_lt before) small
  unfold dtbStep at run
  dsimp only at run
  split at run
  next empty => omega
  next some =>
    obtain ⟨found, searched, rest⟩ := Exec.bind_eq_ok.mp run
    have first := memmem_eq_ok ptr searched
    cases found with
    | none =>
      cases rest
      intro addr after inside tree
      have room := tree.1
      exact first addr after (by omega) tree.2
    | some knldtbPtr =>
      obtain ⟨after, inside, here, absent⟩ := first
      obtain ⟨totalsize, sized, rest⟩ := Exec.bind_eq_ok.mp rest
      obtain ⟨_, _, rest⟩ := Exec.bind_eq_ok.mp rest
      cases rest
      have room : knldtbPtr + fdtMagic.length ≤ finish := by
        have magic : fdtMagic.length = 4 := rfl
        omega
      refine ⟨after, ⟨room, here⟩, rfl, ⟨totalsize, sized, rfl⟩, ?_⟩
      intro addr behind less tree
      exact absent addr behind less tree.2

theorem dtbLoop_behind {room base : Nat} {entries : List BxxtDtb} (run : dtbLoop ptr finish room base = .ok entries) :
    ∀ entry ∈ entries, base ≤ entry.ptr := by
  have step {base : Nat} {entry : BxxtDtb} {next : Nat} (stepped : dtbStep ptr finish base = .ok (some (entry, next))) :
      base ≤ entry.ptr ∧ entry.ptr ≤ next := by
    unfold dtbStep at stepped
    dsimp only at stepped
    split at stepped
    next => cases stepped
    next =>
      obtain ⟨found, searched, rest⟩ := Exec.bind_eq_ok.mp stepped
      cases found with
      | none => cases rest
      | some knldtbPtr =>
        obtain ⟨_, _, rest⟩ := Exec.bind_eq_ok.mp rest
        obtain ⟨_, _, rest⟩ := Exec.bind_eq_ok.mp rest
        cases rest
        exact ⟨(memmem_eq_ok ptr searched).1, Nat.le_add_right _ _⟩
  induction room generalizing base entries with
  | zero =>
    rw [dtbLoop] at run
    obtain ⟨result, stepped, rest⟩ := Exec.bind_eq_ok.mp run
    cases result <;> cases rest
    simp
  | succ room ih =>
    rw [dtbLoop] at run
    obtain ⟨result, stepped, rest⟩ := Exec.bind_eq_ok.mp run
    cases result with
    | none => cases rest; simp
    | some result =>
      obtain ⟨entry, next⟩ := result
      obtain ⟨later, searched, rest⟩ := Exec.bind_eq_ok.mp rest
      cases rest
      obtain ⟨after, onward⟩ := step stepped
      intro other member
      rcases List.mem_cons.mp member with rfl | behind
      · exact after
      · have place := ih searched other behind
        omega

/-- Where the search found nothing more, everything has to be spared. -/
private theorem covered_without_trees {base : Nat} (stepped : dtbStep ptr finish base = .ok none)
    (before : base < finish) (small : finish - base < 2 ^ 32) :
    (∀ addr, base ≤ addr → addr < finish → (∃ entry ∈ ([] : List BxxtDtb), BxxtDtb.Holds entry addr) ∨
      spare addr) ↔
      Tiled ptr spare finish base := by
  rw [tiled_gap (Nat.le_of_lt before) (Nat.le_refl _) (dtbStep_eq_ok stepped before small)]
  constructor
  · intro covered
    refine ⟨?_, .done (Nat.le_refl _)⟩
    intro addr after inside
    rcases covered addr after inside with ⟨_, member, _⟩ | spared
    · exact absurd member List.not_mem_nil
    · exact spared
  · exact fun tiled addr after inside => Or.inr (tiled.1 addr after inside)

/-- Every byte lies in a recorded tree or is spared exactly when the walk comes through. -/
theorem covered_iff_tiled {room base : Nat} {entries : List BxxtDtb} (run : dtbLoop ptr finish room base = .ok entries)
    (small : finish - base < 2 ^ 32) :
    (∀ addr, base ≤ addr → addr < finish → (∃ entry ∈ entries, BxxtDtb.Holds entry addr) ∨ spare addr) ↔
      Tiled ptr spare finish base := by
  induction room generalizing base entries with
  | zero =>
    rcases Nat.lt_or_ge base finish with before | beyond
    · rw [dtbLoop] at run
      obtain ⟨result, stepped, rest⟩ := Exec.bind_eq_ok.mp run
      cases result <;> cases rest
      exact covered_without_trees stepped before small
    · exact ⟨fun _ => .done beyond, fun _ addr after inside => absurd inside (by omega)⟩
  | succ room ih =>
    rcases Nat.lt_or_ge base finish with before | beyond
    case inr => exact ⟨fun _ => .done beyond, fun _ addr after inside => absurd inside (by omega)⟩
    rw [dtbLoop] at run
    obtain ⟨result, stepped, rest⟩ := Exec.bind_eq_ok.mp run
    cases result with
    | none =>
      cases rest
      exact covered_without_trees stepped before small
    | some result =>
      obtain ⟨entry, next⟩ := result
      obtain ⟨later, searched, rest⟩ := Exec.bind_eq_ok.mp rest
      cases rest
      obtain ⟨after, here, rfl, ⟨totalsize, sized, size⟩, gap⟩ := dtbStep_eq_ok stepped before small
      have onward := dtbLoop_behind searched
      have inside := here.1
      rw [tiled_gap after (by omega) gap, tiled_tree here sized, ← size, ← ih searched (by omega)]
      constructor
      · intro covered
        constructor
        · intro addr low high
          rcases covered addr low (by omega) with ⟨other, member, holds⟩ | spared
          · -- every record begins at this tree or behind it
            have place : entry.ptr ≤ other.ptr := by
              rcases List.mem_cons.mp member with rfl | behind
              · exact Nat.le_refl _
              · exact le_trans (Nat.le_add_right _ _) (onward other behind)
            have begins := holds.1
            omega
          · exact spared
        · intro addr low high
          rcases covered addr (by omega) high with ⟨other, member, holds⟩ | spared
          · rcases List.mem_cons.mp member with rfl | behind
            · have ends := holds.2
              omega
            · exact Or.inl ⟨other, behind, holds⟩
          · exact Or.inr spared
      · rintro ⟨spares, rest⟩ addr low high
        rcases Nat.lt_or_ge addr entry.ptr with gap | beyond
        · exact Or.inr (spares addr low gap)
        · rcases Nat.lt_or_ge addr (entry.ptr + entry.size) with within | behind
          · exact Or.inl ⟨entry, by simp, beyond, within⟩
          · rcases rest addr behind high with ⟨other, member, holds⟩ | spared
            · exact Or.inl ⟨other, List.mem_cons_of_mem _ member, holds⟩
            · exact Or.inr spared

theorem recorded_iff {room base : Nat} {entries : List BxxtDtb} (run : dtbLoop ptr finish room base = .ok entries)
    (small : finish - base < 2 ^ 32) (before : base < finish) :
    entries ≠ [] ↔ ∃ addr, base ≤ addr ∧ TreeAt ptr finish addr := by
  obtain ⟨result, stepped, shape⟩ : ∃ result, dtbStep ptr finish base = .ok result ∧
      (entries = [] ↔ result = none) := by
    cases room with
    | zero =>
      rw [dtbLoop] at run
      obtain ⟨result, stepped, rest⟩ := Exec.bind_eq_ok.mp run
      cases result <;> cases rest
      exact ⟨none, stepped, by simp⟩
    | succ room =>
      rw [dtbLoop] at run
      obtain ⟨result, stepped, rest⟩ := Exec.bind_eq_ok.mp run
      refine ⟨result, stepped, ?_⟩
      cases result with
      | none => cases rest; simp
      | some result =>
        obtain ⟨_, _, rest⟩ := Exec.bind_eq_ok.mp rest
        cases rest
        simp
  have found := dtbStep_eq_ok stepped before small
  rw [ne_eq, shape]
  cases result with
  | none =>
    constructor
    · exact fun some => absurd rfl some
    · rintro ⟨addr, after, tree⟩
      have inside := tree.1
      have magic : fdtMagic.length = 4 := rfl
      exact absurd tree (found addr after (by omega))
  | some result =>
    obtain ⟨after, here, _⟩ := found
    exact ⟨fun _ => ⟨_, after, here⟩, by simp⟩

end Walk
end Bxxt.Proofs
