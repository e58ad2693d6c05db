import Bxxt.BootHeader
import Bxxt.Lib.PatternSearch

/-! The search for device trees in a region of memory. A tree is recognised by its
magic alone; its own `totalsize` says where the search goes on. -/

namespace Bxxt
open ByteLayout PatternSearch

def fdtMagic : Bytes := [0xd0, 0x0d, 0xfe, 0xed]

theorem fdtMagic_borderless : Borderless fdtMagic := by decide

/-- `bxxt_dtb_t`. The pointer is an offset into the memory that was searched. -/
structure BxxtDtb where
  ptr : Nat
  size : Nat
  deriving DecidableEq, Repr

/-- `memmem`, over the candidate positions that are left. Only the bytes compared
so far have to be readable. -/
def memmem (ptr : Region) (needle : Bytes) : Nat → Nat → Exec (Option Nat)
  | _, 0 => .ok none
  | addr, candidates + 1 => do
    let window ← ptr.slice addr needle.length
    if window = needle then return some addr
    memmem ptr needle (addr + 1) candidates

/-- `mm + total - base` as a `uint32_t`. Behind the end of the region it wraps. -/
def remaining (finish base : Nat) : Nat := (((finish : Int) - base) % 2 ^ 32).toNat

/-- One iteration of the loop: the tree it records and the next `base`. -/
def dtbStep (ptr : Region) (finish base : Nat) : Exec (Option (BxxtDtb × Nat)) := do
  let size := remaining finish base
  if size = 0 then return none
  match ← memmem ptr fdtMagic base (size + 1 - fdtMagic.length) with
  | none => return none
  | some knldtbPtr =>
    let totalsize ← ptr.slice (knldtbPtr + 4) 4
    let _version ← ptr.slice (knldtbPtr + 20) 4
    return some (⟨knldtbPtr, beValue totalsize⟩, knldtbPtr + beValue totalsize)

/-- The loop of `bxxt_boot_parse_dtb_sections`, with the number of table entries
that are still free. -/
def dtbLoop (ptr : Region) (finish : Nat) : Nat → Nat → Exec (List BxxtDtb)
  | 0, base => do
    match ← dtbStep ptr finish base with
    | none => return []
    | some _ => throw .tableOverflow
  | room + 1, base => do
    match ← dtbStep ptr finish base with
    | none => return []
    | some (entry, next) => return entry :: (← dtbLoop ptr finish room next)

/-- `bxxt_boot_parse_dtb_sections`. The count is the length of the result. -/
def bxxtBootParseDtbSections (ptr : Region) (mm total : Nat) : Exec (List BxxtDtb) :=
  dtbLoop ptr (mm + total) bootMaxDtb mm

theorem remaining_of_le {finish base : Nat} (before : base ≤ finish) (small : finish - base < 2 ^ 32) :
    remaining finish base = finish - base := by
  unfold remaining
  omega

section Search
variable (ptr : Region) {needle : Bytes}

theorem memmem_eq_ok {addr candidates : Nat} {result : Option Nat}
    (searched : memmem ptr needle addr candidates = .ok result) :
    match result with
    | some found => addr ≤ found ∧ found < addr + candidates ∧ ptr.slice found needle.length = .ok needle ∧
        ∀ position, addr ≤ position → position < found → ptr.slice position needle.length ≠ .ok needle
    | none => ∀ position, addr ≤ position → position < addr + candidates →
        ptr.slice position needle.length ≠ .ok needle := by
  induction candidates generalizing addr with
  | zero =>
    cases searched
    intro position after before
    omega
  | succ candidates ih =>
    rw [memmem] at searched
    obtain ⟨window, read, searched⟩ := Exec.bind_eq_ok.mp searched
    split at searched
    next same =>
      cases searched
      subst same
      refine ⟨Nat.le_refl _, by omega, read, ?_⟩
      intro position after before
      omega
    next different =>
      have later := ih searched
      have here : ptr.slice addr needle.length ≠ .ok needle := by
        rw [read]
        intro same
        cases same
        exact different rfl
      cases result with
      | some found =>
        refine ⟨by omega, by omega, later.2.2.1, ?_⟩
        intro position after before
        rcases Nat.lt_or_eq_of_le after with behind | rfl
        · exact later.2.2.2 position behind before
        · exact here
      | none =>
        intro position after before
        rcases Nat.lt_or_eq_of_le after with behind | rfl
        · exact later position behind (by omega)
        · exact here

theorem memmem_hit {addr candidates : Nat} (positive : 0 < candidates)
    (read : ptr.slice addr needle.length = .ok needle) :
    memmem ptr needle addr candidates = .ok (some addr) := by
  obtain ⟨rest, rfl⟩ : ∃ rest, candidates = rest + 1 := ⟨candidates - 1, by omega⟩
  rw [memmem, read]
  exact if_pos rfl

theorem memmem_text {addr : Nat} (text rest : Bytes) (memory : ptr.mapped.drop addr = text ++ rest)
    (nonempty : 0 < needle.length) :
    memmem ptr needle addr (text.length + 1 - needle.length) =
      .ok ((indexOf? needle text).map (addr + ·)) := by
  induction text generalizing addr with
  | nil =>
    have absent : needle ≠ [] := List.ne_nil_of_length_pos nonempty
    rw [show ([] : Bytes).length + 1 - needle.length = 0 by simp; omega]
    simp [memmem, indexOf?, absent]
  | cons byte text ih =>
    have room : ptr.mapped.length = addr + (byte :: text ++ rest).length := by
      have length := congrArg List.length memory
      simp only [List.length_drop, List.length_append, List.length_cons] at length ⊢
      omega
    rcases Nat.lt_or_ge (byte :: text).length needle.length with short | long
    · have absent : indexOf? needle (byte :: text) = none := by
        apply indexOf?_eq_none_iff.mpr
        intro inside
        have := inside.length_le
        omega
      rw [show (byte :: text).length + 1 - needle.length = 0 by omega, absent]
      rfl
    · obtain ⟨candidates, left⟩ : ∃ candidates, (byte :: text).length + 1 - needle.length = candidates + 1 :=
        ⟨(byte :: text).length - needle.length, by omega⟩
      have window : ptr.slice addr needle.length = .ok ((byte :: text).take needle.length) := by
        rw [Region.slice, if_neg (by omega), if_pos (by simp only [List.length_append] at room; omega), memory,
          List.take_append_of_le_length long]
      have next : ptr.mapped.drop (addr + 1) = text ++ rest := by
        rw [← List.drop_drop, memory]
        rfl
      have fewer : candidates = text.length + 1 - needle.length := by
        simp only [List.length_cons] at left
        omega
      have compare : ((byte :: text).take needle.length = needle) ↔ needle <+: byte :: text := by
        rw [List.prefix_iff_eq_take]
        exact eq_comm
      rw [left, memmem, window]
      simp only [bind, Except.bind, pure, Except.pure, compare, indexOf?]
      split
      next => rfl
      next =>
        rw [fewer, ih next, Option.map_map]
        congr 2
        funext index
        simp only [Function.comp_apply]
        omega

end Search

/-- A device tree blob as far as the search looks at it. -/
structure WellFormedDtb (blob : Bytes) : Prop where
  magic : fdtMagic <+: blob
  header : 40 ≤ blob.length
  totalsize : beValue ((blob.drop 4).take 4) = blob.length

theorem dtbStep_text {ptr : Region} {base finish : Nat} (text rest : Bytes)
    (memory : ptr.mapped.drop base = text ++ rest) (finished : finish = base + text.length)
    (small : text.length < 2 ^ 32) :
    dtbStep ptr finish base =
      match indexOf? fdtMagic text with
      | none => .ok none
      | some index => do
        let totalsize ← ptr.slice (base + index + 4) 4
        let _version ← ptr.slice (base + index + 20) 4
        return some (⟨base + index, beValue totalsize⟩, base + index + beValue totalsize) := by
  have left : remaining finish base = text.length := by
    rw [remaining_of_le (by omega) (by omega)]
    omega
  have search := @memmem_text ptr fdtMagic _ text rest memory (by decide)
  unfold dtbStep
  simp only [left]
  split
  next empty =>
    have none : text = [] := List.length_eq_zero_iff.mp empty
    subst none
    rfl
  next =>
    rw [search]
    cases indexOf? fdtMagic text <;> rfl

theorem dtbStep_finds {ptr : Region} {base finish : Nat} {gap blob : Bytes} (rest more : Bytes)
    (memory : ptr.mapped.drop base = (gap ++ (blob ++ rest)) ++ more)
    (finished : finish = base + (gap ++ (blob ++ rest)).length)
    (small : (gap ++ (blob ++ rest)).length < 2 ^ 32)
    (absent : ¬ fdtMagic <:+: gap) (formed : WellFormedDtb blob) :
    dtbStep ptr finish base =
      .ok (some (⟨base + gap.length, blob.length⟩, base + gap.length + blob.length)) := by
  obtain ⟨tail, starts⟩ := formed.magic
  have found : indexOf? fdtMagic (gap ++ (blob ++ rest)) = some gap.length := by
    rw [← starts, List.append_assoc]
    exact indexOf?_after_gap fdtMagic_borderless absent
  have behind : ptr.mapped.drop (base + gap.length) = blob ++ (rest ++ more) := by
    rw [← List.drop_drop, memory, List.append_assoc, List.drop_left, List.append_assoc]
  have word (index : Nat) (inside : index + 4 ≤ blob.length) :
      ptr.slice (base + gap.length + index) 4 = .ok ((blob.drop index).take 4) := by
    have memoryAt : ptr.mapped.drop (base + gap.length + index) = blob.drop index ++ (rest ++ more) := by
      rw [← List.drop_drop, behind, List.drop_append_of_le_length (by omega)]
    have room : base + gap.length + index + 4 ≤ ptr.mapped.length := by
      have length := congrArg List.length memoryAt
      simp only [List.length_drop, List.length_append] at length
      omega
    rw [Region.slice, if_neg (by omega), if_pos room, memoryAt, List.take_append_of_le_length (by simp; omega)]
  have header := formed.header
  rw [dtbStep_text _ more memory finished small, found]
  simp only [word 4 (by omega), word 20 (by omega), bind, Except.bind, pure, Except.pure, formed.totalsize]

theorem dtbStep_ends {ptr : Region} {base finish : Nat} {tail : Bytes} (more : Bytes)
    (memory : ptr.mapped.drop base = tail ++ more) (finished : finish = base + tail.length)
    (small : tail.length < 2 ^ 32) (absent : ¬ fdtMagic <:+: tail) :
    dtbStep ptr finish base = .ok none := by
  rw [dtbStep_text _ more memory finished small, indexOf?_eq_none_iff.mpr absent]

/-- Device trees with the gaps before them, and what is left behind the last one. -/
def gapped (items : List (Bytes × Bytes)) (tail : Bytes) : Bytes :=
  items.flatMap (fun item => item.1 ++ item.2) ++ tail

def gappedEntries : Nat → List (Bytes × Bytes) → List BxxtDtb
  | _, [] => []
  | base, (gap, blob) :: items =>
    ⟨base + gap.length, blob.length⟩ :: gappedEntries (base + gap.length + blob.length) items

@[simp] theorem length_gappedEntries (base : Nat) (items : List (Bytes × Bytes)) :
    (gappedEntries base items).length = items.length := by
  induction items generalizing base with
  | nil => rfl
  | cons item items ih => simp [gappedEntries, ih]

/-- The loop records every tree of a gapped region in order, if the table has room. -/
theorem dtbLoop_gapped {ptr : Region} {room base finish : Nat} {items : List (Bytes × Bytes)}
    {tail : Bytes} (more : Bytes) (memory : ptr.mapped.drop base = gapped items tail ++ more)
    (finished : finish = base + (gapped items tail).length) (small : (gapped items tail).length < 2 ^ 32)
    (enough : items.length ≤ room) (gaps : ∀ item ∈ items, ¬ fdtMagic <:+: item.1)
    (blobs : ∀ item ∈ items, WellFormedDtb item.2) (last : ¬ fdtMagic <:+: tail) :
    dtbLoop ptr finish room base = .ok (gappedEntries base items) := by
  induction items generalizing base room with
  | nil =>
    have ends := @dtbStep_ends _ _ _ tail more (by simpa [gapped] using memory) (by simpa [gapped] using finished)
        (by simpa [gapped] using small) last
    cases room <;> simp only [dtbLoop, ends] <;> rfl
  | cons item items ih =>
    obtain ⟨gap, blob⟩ := item
    obtain ⟨room, rfl⟩ : ∃ fewer, room = fewer + 1 := ⟨room - 1, by simp at enough; omega⟩
    have shape : gapped ((gap, blob) :: items) tail = gap ++ (blob ++ gapped items tail) := by simp [gapped]
    rw [shape] at memory finished small
    have step := dtbStep_finds (gapped items tail) more memory finished small (gaps (gap, blob) (by simp))
      (blobs (gap, blob) (by simp))
    have behind : ptr.mapped.drop (base + gap.length + blob.length) = gapped items tail ++ more := by
      rw [Nat.add_assoc, ← List.drop_drop, memory, ← List.length_append, ← List.append_assoc gap,
        List.append_assoc _ _ more, List.drop_left]
    simp only [List.length_append] at finished small
    have rest := ih behind (by omega) (by omega) (show items.length ≤ room by simpa using enough)
      (fun item member => gaps item (by simp [member])) (fun item member => blobs item (by simp [member]))
    simp only [dtbLoop, step, bind, Except.bind, rest]
    rfl

theorem gappedEntries_read {ptr : Region} {base : Nat} {items : List (Bytes × Bytes)} {tail more : Bytes}
    (memory : ptr.mapped.drop base = gapped items tail ++ more) :
    List.Forall₂ (fun entry item => ptr.slice entry.ptr entry.size = .ok item.2)
      (gappedEntries base items) items := by
  induction items generalizing base with
  | nil => exact .nil
  | cons item items ih =>
    obtain ⟨gap, blob⟩ := item
    have shape : gapped ((gap, blob) :: items) tail = gap ++ (blob ++ gapped items tail) := by simp [gapped]
    rw [shape, List.append_assoc] at memory
    have here : ptr.mapped.drop (base + gap.length) = blob ++ (gapped items tail ++ more) := by
      rw [← List.drop_drop, memory, List.drop_left, List.append_assoc]
    have behind : ptr.mapped.drop (base + gap.length + blob.length) = gapped items tail ++ more := by
      rw [← List.drop_drop, here, List.drop_left]
    refine .cons ?_ (ih behind)
    unfold Region.slice
    split
    next none => rw [List.length_eq_zero_iff.mp none]
    next some =>
      have room := congrArg List.length here
      simp only [List.length_drop, List.length_append] at room
      rw [if_pos (by dsimp only at some ⊢; omega), here, List.take_left]

/-- A region as a sequence of device trees, with what is not a tree between them. This is the shape
in which packing leaves a section and in which the search has to find the trees again. -/
structure Gapped (data : Bytes) (items : List (Bytes × Bytes)) (tail : Bytes) : Prop where
  shape : data = gapped items tail
  gaps : ∀ item ∈ items, ¬ fdtMagic <:+: item.1
  blobs : ∀ item ∈ items, WellFormedDtb item.2
  last : ¬ fdtMagic <:+: tail
  room : items.length ≤ bootMaxDtb

theorem bxxtBootParseDtbSections_gapped {ptr : Region} {mm : Nat} {data more : Bytes} {items : List (Bytes × Bytes)}
    {tail : Bytes} (trees : Gapped data items tail) (memory : ptr.mapped.drop mm = data ++ more)
    (small : data.length < 2 ^ 32) :
    bxxtBootParseDtbSections ptr mm data.length = .ok (gappedEntries mm items) := by
  obtain ⟨rfl, gaps, blobs, last, room⟩ := trees
  exact dtbLoop_gapped more memory rfl small room gaps blobs last

/-- From `low` on, what can be read in one region can be read in the other. An image is parsed once
in a buffer and once in a mapping, and both have to agree. -/
def Extends (low : Nat) (ptr more : Region) : Prop :=
  ∀ addr count bytes, low ≤ addr → ptr.slice addr count = .ok bytes → more.slice addr count = .ok bytes

section Extension
variable {low : Nat} {ptr more : Region}

theorem memmem_extends (wider : Extends low ptr more) {needle : Bytes} {addr candidates : Nat} {result : Option Nat}
    (behind : low ≤ addr) (searched : memmem ptr needle addr candidates = .ok result) :
    memmem more needle addr candidates = .ok result := by
  induction candidates generalizing addr with
  | zero => exact searched
  | succ candidates ih =>
    rw [memmem] at searched ⊢
    obtain ⟨window, read, searched⟩ := Exec.bind_eq_ok.mp searched
    rw [wider _ _ _ behind read, Exec.ok_bind]
    split at searched
    next same => rw [if_pos same]; exact searched
    next different => rw [if_neg different]; exact ih (by omega) searched

theorem dtbStep_extends (wider : Extends low ptr more) {finish base : Nat} {result : Option (BxxtDtb × Nat)}
    (behind : low ≤ base) (stepped : dtbStep ptr finish base = .ok result) :
    dtbStep more finish base = .ok result ∧ ∀ entry next, result = some (entry, next) → low ≤ next := by
  unfold dtbStep at stepped ⊢
  dsimp only at stepped ⊢
  split at stepped
  next empty =>
    rw [if_pos empty]
    cases stepped
    exact ⟨rfl, by simp⟩
  next left =>
    rw [if_neg left]
    obtain ⟨found, searched, stepped⟩ := Exec.bind_eq_ok.mp stepped
    rw [memmem_extends wider behind searched, Exec.ok_bind]
    cases found with
    | none =>
      cases stepped
      exact ⟨rfl, by simp⟩
    | some knldtbPtr =>
      have place := (memmem_eq_ok ptr searched).1
      obtain ⟨totalsize, sized, stepped⟩ := Exec.bind_eq_ok.mp stepped
      obtain ⟨version, versioned, stepped⟩ := Exec.bind_eq_ok.mp stepped
      cases stepped
      simp only [wider _ _ _ (show low ≤ knldtbPtr + 4 by omega) sized,
        wider _ _ _ (show low ≤ knldtbPtr + 20 by omega) versioned, Exec.ok_bind]
      refine ⟨rfl, ?_⟩
      rintro entry next ⟨⟩
      omega

/-- The search never looks before the region it is given, and finds the same in
memory that holds the same from there on. -/
theorem dtbLoop_extends (wider : Extends low ptr more) {finish room base : Nat} {entries : List BxxtDtb}
    (behind : low ≤ base) (run : dtbLoop ptr finish room base = .ok entries) :
    dtbLoop more finish room base = .ok entries := by
  induction room generalizing base entries with
  | zero =>
    rw [dtbLoop] at run ⊢
    obtain ⟨step, stepped, run⟩ := Exec.bind_eq_ok.mp run
    rw [(dtbStep_extends wider behind stepped).1, Exec.ok_bind]
    exact run
  | succ room ih =>
    rw [dtbLoop] at run ⊢
    obtain ⟨step, stepped, run⟩ := Exec.bind_eq_ok.mp run
    obtain ⟨again, later⟩ := dtbStep_extends wider behind stepped
    rw [again, Exec.ok_bind]
    cases step with
    | none => exact run
    | some step =>
      obtain ⟨entry, next⟩ := step
      obtain ⟨rest, searched, run⟩ := Exec.bind_eq_ok.mp run
      simp only [ih (later entry next rfl) searched, Exec.ok_bind]
      exact run

end Extension

end Bxxt
