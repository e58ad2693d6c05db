import Bxxt.DtbScan
import Mathlib.Logic.Relation

/-! The search for device trees as a walk. A tree is met where the magic stands first, and the
walk goes on behind it; the loop of the program takes exactly this walk, as far as its
table goes. -/

namespace Bxxt.Proofs
open ByteLayout

/-- What one iteration of the search finds: the first magic in the window behind `base`, with the
words of the header that are read there. -/
structure Met (ptr : Region) (finish base : Nat) (entry : BxxtDtb) : Prop where
  after : base ≤ entry.ptr
  inside : entry.ptr + fdtMagic.length ≤ base + remaining finish base
  magic : ptr.slice entry.ptr fdtMagic.length = .ok fdtMagic
  first : ∀ addr, base ≤ addr → addr < entry.ptr → ptr.slice addr fdtMagic.length ≠ .ok fdtMagic
  totalsize : ∃ word, ptr.slice (entry.ptr + 4) 4 = .ok word ∧ entry.size = beValue word
  version : ∃ word, ptr.slice (entry.ptr + 20) 4 = .ok word

def Bare (ptr : Region) (finish base : Nat) : Prop :=
  ∀ addr, base ≤ addr → addr + fdtMagic.length ≤ base + remaining finish base →
    ∃ window, ptr.slice addr fdtMagic.length = .ok window ∧ window ≠ fdtMagic

inductive Walk (ptr : Region) (finish : Nat) : Nat → List BxxtDtb → Prop where
  | done {base : Nat} (bare : Bare ptr finish base) : Walk ptr finish base []
  | tree {base : Nat} {entry : BxxtDtb} {entries : List BxxtDtb} (met : Met ptr finish base entry)
      (rest : Walk ptr finish (entry.ptr + entry.size) entries) : Walk ptr finish base (entry :: entries)

/-- This many trees are met one after the other. -/
inductive Meets (ptr : Region) (finish : Nat) : Nat → Nat → Prop where
  | none {base : Nat} : Meets ptr finish base 0
  | tree {base count : Nat} {entry : BxxtDtb} (met : Met ptr finish base entry)
      (rest : Meets ptr finish (entry.ptr + entry.size) count) : Meets ptr finish base (count + 1)

def Onward (ptr : Region) (finish base next : Nat) : Prop :=
  ∃ entry, Met ptr finish base entry ∧ next = entry.ptr + entry.size

abbrev Reaches (ptr : Region) (finish mm base : Nat) : Prop := Relation.ReflTransGen (Onward ptr finish) mm base

section Memory
variable {ptr : Region} {needle : Bytes}

theorem slice_of_readable {addr count : Nat} (readable : addr + count ≤ ptr.mapped.length) :
    ∃ window, ptr.slice addr count = .ok window := by
  unfold Region.slice
  split
  · exact ⟨_, rfl⟩
  · exact ⟨_, rfl⟩

theorem slice_fault {addr count : Nat} {fault : Fault} (failed : ptr.slice addr count = .error fault) :
    fault = .outOfBounds := by
  unfold Region.slice at failed
  split at failed
  next => cases failed
  next =>
    split at failed
    next => cases failed
    next => cases failed; rfl

theorem memmem_first {addr candidates found : Nat} (positive : 0 < needle.length) (after : addr ≤ found)
    (inside : found < addr + candidates) (read : ptr.slice found needle.length = .ok needle)
    (first : ∀ position, addr ≤ position → position < found → ptr.slice position needle.length ≠ .ok needle) :
    memmem ptr needle addr candidates = .ok (some found) := by
  induction candidates generalizing addr with
  | zero => omega
  | succ candidates ih =>
    rcases Nat.lt_or_eq_of_le after with before | rfl
    · obtain ⟨window, here⟩ := @slice_of_readable ptr addr needle.length (by
        have room := (Region.slice_eq_ok positive read).1
        omega)
      have other : window ≠ needle := by
        intro same
        exact first addr (Nat.le_refl _) before (same ▸ here)
      rw [memmem, here, Exec.ok_bind, if_neg other]
      exact ih before (by omega) fun position behind => first position (by omega)
    · exact memmem_hit ptr (Nat.succ_pos _) read

theorem memmem_none_iff {addr candidates : Nat} :
    memmem ptr needle addr candidates = .ok none ↔
      ∀ position, addr ≤ position → position < addr + candidates →
        ∃ window, ptr.slice position needle.length = .ok window ∧ window ≠ needle := by
  induction candidates generalizing addr with
  | zero =>
    refine ⟨fun _ position after before => ?_, fun _ => rfl⟩
    omega
  | succ candidates ih =>
    rw [memmem, Exec.bind_eq_ok]
    constructor
    · rintro ⟨window, read, rest⟩ position after before
      split at rest
      next => cases rest
      next other =>
        rcases Nat.lt_or_eq_of_le after with behind | rfl
        · exact ih.mp rest position behind (by omega)
        · exact ⟨window, read, other⟩
    · intro bare
      obtain ⟨window, read, other⟩ := bare addr (Nat.le_refl _) (by omega)
      refine ⟨window, read, ?_⟩
      rw [if_neg other]
      exact ih.mpr fun position behind before => bare position (by omega) (by omega)

theorem memmem_fault {addr candidates : Nat} {fault : Fault}
    (failed : memmem ptr needle addr candidates = .error fault) :
    fault = .outOfBounds := by
  induction candidates generalizing addr with
  | zero => cases failed
  | succ candidates ih =>
    rw [memmem] at failed
    cases read : ptr.slice addr needle.length with
    | error other =>
      rw [read] at failed
      cases failed
      exact slice_fault read
    | ok window =>
      rw [read, Exec.ok_bind] at failed
      split at failed
      next => cases failed
      next => exact ih failed

end Memory

section Step
variable {ptr : Region} {finish base : Nat}

theorem dtbStep_some_iff {entry : BxxtDtb} {next : Nat} :
    dtbStep ptr finish base = .ok (some (entry, next)) ↔
      Met ptr finish base entry ∧ next = entry.ptr + entry.size := by
  have four : fdtMagic.length = 4 := rfl
  constructor
  · intro stepped
    unfold dtbStep at stepped
    dsimp only at stepped
    split at stepped
    next => cases stepped
    next =>
      obtain ⟨found, searched, stepped⟩ := Exec.bind_eq_ok.mp stepped
      cases found with
      | none => cases stepped
      | some knldtbPtr =>
        obtain ⟨after, inside, magic, first⟩ := memmem_eq_ok ptr searched
        obtain ⟨totalsize, sized, stepped⟩ := Exec.bind_eq_ok.mp stepped
        obtain ⟨version, versioned, stepped⟩ := Exec.bind_eq_ok.mp stepped
        cases stepped
        have room : knldtbPtr + fdtMagic.length ≤ base + remaining finish base := by omega
        exact ⟨⟨after, room, magic, first, ⟨_, sized, rfl⟩, ⟨_, versioned⟩⟩, rfl⟩
  · intro ⟨met, onward⟩
    obtain ⟨totalsize, sized, same⟩ := met.totalsize
    obtain ⟨version, versioned⟩ := met.version
    have after := met.after
    have inside := met.inside
    have searched : memmem ptr fdtMagic base (remaining finish base + 1 - fdtMagic.length) = .ok (some entry.ptr) :=
      memmem_first (by omega) after (by omega) met.magic met.first
    simp only [dtbStep, if_neg (show ¬ remaining finish base = 0 by omega), searched, sized, versioned, Exec.ok_bind,
      onward, ← same]
    rfl

theorem dtbStep_none_iff : dtbStep ptr finish base = .ok none ↔ Bare ptr finish base := by
  have four : fdtMagic.length = 4 := rfl
  unfold dtbStep
  dsimp only
  split
  next empty =>
    refine ⟨fun _ addr after inside => ?_, fun _ => rfl⟩
    omega
  next =>
    have search := @memmem_none_iff ptr fdtMagic base (remaining finish base + 1 - fdtMagic.length)
    constructor
    · intro stepped
      obtain ⟨found, searched, stepped⟩ := Exec.bind_eq_ok.mp stepped
      cases found with
      | none => exact fun addr after inside => search.mp searched addr after (by omega)
      | some =>
        obtain ⟨_, _, stepped⟩ := Exec.bind_eq_ok.mp stepped
        obtain ⟨_, _, stepped⟩ := Exec.bind_eq_ok.mp stepped
        cases stepped
    · intro bare
      have searched := search.mpr fun addr after inside => bare addr after (by omega)
      rw [searched]
      rfl

theorem dtbStep_fault {fault : Fault} (failed : dtbStep ptr finish base = .error fault) : fault = .outOfBounds := by
  unfold dtbStep at failed
  dsimp only at failed
  split at failed
  next => cases failed
  next =>
    cases searched : memmem ptr fdtMagic base (remaining finish base + 1 - fdtMagic.length) with
    | error other =>
      rw [searched] at failed
      cases failed
      exact memmem_fault searched
    | ok found =>
      rw [searched, Exec.ok_bind] at failed
      cases found with
      | none => cases failed
      | some knldtbPtr =>
        dsimp only at failed
        cases sized : ptr.slice (knldtbPtr + 4) 4 with
        | error other =>
          rw [sized] at failed
          cases failed
          exact slice_fault sized
        | ok totalsize =>
          rw [sized, Exec.ok_bind] at failed
          cases versioned : ptr.slice (knldtbPtr + 20) 4 with
          | error other =>
            rw [versioned] at failed
            cases failed
            exact slice_fault versioned
          | ok version =>
            rw [versioned] at failed
            cases failed

/-- There is one tree at most to meet. -/
theorem Met.unique {entry other : BxxtDtb} (met : Met ptr finish base entry) (again : Met ptr finish base other) :
    entry = other := by
  have first := dtbStep_some_iff.mpr ⟨met, rfl⟩
  rw [dtbStep_some_iff.mpr ⟨again, rfl⟩] at first
  exact (Prod.mk.inj (Option.some.inj (Except.ok.inj first))).1.symm

theorem Reaches.behind {mm : Nat} {entry : BxxtDtb} (reached : Reaches ptr finish mm base)
    (met : Met ptr finish base entry) : Reaches ptr finish mm (entry.ptr + entry.size) :=
  reached.tail ⟨entry, met, rfl⟩

theorem not_bare_of_met {entry : BxxtDtb} (met : Met ptr finish base entry) : ¬ Bare ptr finish base := by
  intro bare
  obtain ⟨window, read, other⟩ := bare entry.ptr met.after met.inside
  rw [met.magic] at read
  exact other (Except.ok.inj read).symm

end Step

section Loop
variable {ptr : Region} {finish : Nat}

/-- The loop returns the walk that fits into its table. -/
theorem dtbLoop_iff {room base : Nat} {entries : List BxxtDtb} :
    dtbLoop ptr finish room base = .ok entries ↔ Walk ptr finish base entries ∧ entries.length ≤ room := by
  induction room generalizing base entries with
  | zero =>
    rw [dtbLoop, Exec.bind_eq_ok]
    constructor
    · rintro ⟨result, stepped, rest⟩
      cases result with
      | none => cases rest; exact ⟨.done (dtbStep_none_iff.mp stepped), Nat.le_refl _⟩
      | some => cases rest
    · rintro ⟨walk, short⟩
      cases walk with
      | done bare => exact ⟨none, dtbStep_none_iff.mpr bare, rfl⟩
      | tree => simp at short
  | succ room ih =>
    rw [dtbLoop, Exec.bind_eq_ok]
    constructor
    · rintro ⟨result, stepped, rest⟩
      cases result with
      | none => cases rest; exact ⟨.done (dtbStep_none_iff.mp stepped), Nat.zero_le _⟩
      | some result =>
        obtain ⟨entry, next⟩ := result
        obtain ⟨met, rfl⟩ := dtbStep_some_iff.mp stepped
        obtain ⟨later, searched, rest⟩ := Exec.bind_eq_ok.mp rest
        cases rest
        obtain ⟨walk, short⟩ := ih.mp searched
        exact ⟨.tree met walk, Nat.succ_le_succ short⟩
    · rintro ⟨walk, short⟩
      cases walk with
      | done bare => exact ⟨none, dtbStep_none_iff.mpr bare, rfl⟩
      | tree met rest =>
        refine ⟨_, dtbStep_some_iff.mpr ⟨met, rfl⟩, ?_⟩
        exact Exec.bind_eq_ok.mpr ⟨_, ih.mpr ⟨rest, Nat.le_of_succ_le_succ short⟩, rfl⟩

theorem meets_succ_iff {base count : Nat} :
    Meets ptr finish base (count + 1) ↔
      ∃ entry next, dtbStep ptr finish base = .ok (some (entry, next)) ∧ Meets ptr finish next count := by
  constructor
  · intro meets
    cases meets with
    | tree met rest => exact ⟨_, _, dtbStep_some_iff.mpr ⟨met, rfl⟩, rest⟩
  · intro ⟨entry, next, stepped, rest⟩
    obtain ⟨met, rfl⟩ := dtbStep_some_iff.mp stepped
    exact .tree met rest

/-- Only a store behind the last entry of the table leaves it. -/
private theorem overflow_step {room base : Nat} :
    dtbLoop ptr finish room base = .error .tableOverflow ↔
      ∃ entry next, dtbStep ptr finish base = .ok (some (entry, next)) ∧
        (room = 0 ∨ dtbLoop ptr finish (room - 1) next = .error .tableOverflow) := by
  cases stepped : dtbStep ptr finish base with
  | error fault =>
    have inside := dtbStep_fault stepped
    subst inside
    cases room <;> simp [dtbLoop, stepped, bind, Except.bind]
  | ok result =>
    cases result with
    | none => cases room <;> simp [dtbLoop, stepped, bind, Except.bind, pure, Except.pure]
    | some result =>
      obtain ⟨entry, next⟩ := result
      cases room with
      | zero => simp [dtbLoop, stepped, bind, Except.bind, throw, throwThe, MonadExceptOf.throw]
      | succ room =>
        cases later : dtbLoop ptr finish room next with
        | error fault => simp [dtbLoop, stepped, later, bind, Except.bind]
        | ok entries => simp [dtbLoop, stepped, later, bind, Except.bind, pure, Except.pure]

/-- It leaves its table exactly when there is one tree more to meet than the table has
entries. -/
theorem dtbLoop_overflow_iff {room base : Nat} :
    dtbLoop ptr finish room base = .error .tableOverflow ↔ Meets ptr finish base (room + 1) := by
  induction room generalizing base with
  | zero =>
    rw [overflow_step, meets_succ_iff]
    constructor
    · intro ⟨entry, next, stepped, _⟩
      exact ⟨entry, next, stepped, .none⟩
    · intro ⟨entry, next, stepped, _⟩
      exact ⟨entry, next, stepped, Or.inl rfl⟩
  | succ room ih =>
    rw [overflow_step, meets_succ_iff]
    simp only [Nat.add_one_ne_zero, false_or, Nat.add_sub_cancel, ih]

end Loop
end Bxxt.Proofs
