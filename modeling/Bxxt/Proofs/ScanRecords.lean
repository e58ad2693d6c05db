import Bxxt.Proofs.ScanWalk

/-! What the search records of a region, and what it looks at. The total size of a tree is
not compared with the region, so a record can reach beyond it. -/

namespace Bxxt.Proofs
open ByteLayout

/-- The region by itself, in a memory that holds nothing else. -/
def alone (ptr : Region) (mm total : Nat) : Region := .ofBuffer ((ptr.mapped.drop mm).take total)

def relative (mm : Nat) (entry : BxxtDtb) : BxxtDtb := ⟨entry.ptr - mm, entry.size⟩

/-- The records are trees of the region, one behind the other, and nothing but the region was needed
to find them: in a memory that ends with it the search finds the same. -/
structure RecordsRegion (ptr : Region) (mm total : Nat) (entries : List BxxtDtb) : Prop where
  inside : ∀ entry ∈ entries, mm ≤ entry.ptr ∧ entry.ptr + entry.size ≤ mm + total
  magic : ∀ entry ∈ entries, ptr.slice entry.ptr fdtMagic.length = .ok fdtMagic
  ordered : entries.Pairwise fun entry later => entry.ptr + entry.size ≤ later.ptr
  examined : bxxtBootParseDtbSections (alone ptr mm total) 0 total = .ok (entries.map (relative mm))

/-- The bytes of a tree's header that the search reads: up to its version. -/
def dtbHeaderRead : Nat := 24

section Walks
variable {ptr : Region} {finish base : Nat} {entries : List BxxtDtb}

theorem Walk.reaches {mm : Nat} (walk : Walk ptr finish base entries) (reached : Reaches ptr finish mm base) :
    ∀ entry ∈ entries, ∃ before, Reaches ptr finish mm before ∧ Met ptr finish before entry := by
  induction walk with
  | done => simp
  | tree met _ ih => exact List.forall_mem_cons.mpr ⟨⟨_, reached, met⟩, ih (reached.behind met)⟩

/-- Wherever the search gets, it met the trees of its walk only. -/
theorem Walk.covers {mm before : Nat} {entry : BxxtDtb} (walk : Walk ptr finish mm entries)
    (reached : Reaches ptr finish mm before) (met : Met ptr finish before entry) : entry ∈ entries := by
  induction walk using Walk.rec with
  | done bare =>
    rcases reached.cases_head with rfl | ⟨_, ⟨_, first, _⟩, _⟩
    · exact absurd bare (not_bare_of_met met)
    · exact absurd bare (not_bare_of_met first)
  | tree first _ ih =>
    rcases reached.cases_head with rfl | ⟨next, ⟨other, again, rfl⟩, onward⟩
    · exact List.mem_cons.mpr (Or.inl (met.unique first))
    · rw [again.unique first] at onward
      exact List.mem_cons_of_mem _ (ih onward)

theorem Walk.behind (walk : Walk ptr finish base entries) : ∀ entry ∈ entries, base ≤ entry.ptr := by
  induction walk with
  | done => simp
  | tree met _ ih =>
    have after := met.after
    refine List.forall_mem_cons.mpr ⟨after, fun entry member => ?_⟩
    have later := ih entry member
    omega

theorem Walk.ordered (walk : Walk ptr finish base entries) :
    entries.Pairwise fun entry later => entry.ptr + entry.size ≤ later.ptr := by
  induction walk with
  | done => exact .nil
  | tree _ rest ih => exact .cons rest.behind ih

theorem Walk.magic (walk : Walk ptr finish base entries) :
    ∀ entry ∈ entries, ptr.slice entry.ptr fdtMagic.length = .ok fdtMagic := by
  induction walk with
  | done => simp
  | tree met _ ih => exact List.forall_mem_cons.mpr ⟨met.magic, ih⟩

end Walks

section Alone
variable {ptr : Region} {mm total base : Nat} {entries : List BxxtDtb}

theorem alone_mapped : (alone ptr mm total).mapped = (ptr.mapped.drop mm).take total := by
  rw [alone, Region.mapped, Region.ofBuffer, List.replicate_zero, List.append_nil]

theorem slice_alone (memory : mm + total ≤ ptr.mapped.length) {addr count : Nat} (after : mm ≤ addr)
    (inside : addr + count ≤ mm + total) : (alone ptr mm total).slice (addr - mm) count = ptr.slice addr count := by
  have length : (alone ptr mm total).mapped.length = total := by
    rw [alone_mapped, List.length_take, List.length_drop]
    omega
  have same : ((alone ptr mm total).mapped.drop (addr - mm)).take count = (ptr.mapped.drop addr).take count := by
    rw [alone_mapped, List.drop_take, List.drop_drop, List.take_take]
    congr 2 <;> omega
  unfold Region.slice
  split
  · rfl
  · rw [if_pos (by omega), if_pos (by omega), same]

theorem alone_end {addr count : Nat} {bytes : Bytes} (positive : 0 < count)
    (read : (alone ptr mm total).slice addr count = .ok bytes) : addr + count ≤ total := by
  have inside := (Region.slice_eq_ok positive read).1
  rw [alone_mapped, List.length_take] at inside
  omega

theorem remaining_alone (after : mm ≤ base) : remaining (0 + total) (base - mm) = remaining (mm + total) base := by
  unfold remaining
  omega

theorem remaining_le {finish : Nat} (before : base ≤ finish) : base + remaining finish base ≤ finish := by
  unfold remaining
  omega

/-- A tree whose header is in the region is met there in the region by itself. -/
theorem met_alone (memory : mm + total ≤ ptr.mapped.length) {entry : BxxtDtb} (after : mm ≤ base)
    (met : Met ptr (mm + total) base entry) (header : entry.ptr + dtbHeaderRead ≤ mm + total) :
    Met (alone ptr mm total) (0 + total) (base - mm) (relative mm entry) := by
  have four : fdtMagic.length = 4 := rfl
  have behind := met.after
  have inside := met.inside
  obtain ⟨totalsize, sized, same⟩ := met.totalsize
  obtain ⟨version, versioned⟩ := met.version
  rw [dtbHeaderRead] at header
  have shift (offset : Nat) : entry.ptr - mm + offset = entry.ptr + offset - mm := by omega
  constructor
  case after => exact Nat.sub_le_sub_right behind mm
  case inside =>
    rw [remaining_alone after]
    change entry.ptr - mm + _ ≤ _
    omega
  case magic => exact (slice_alone memory (by omega) (by omega)).trans met.magic
  case first =>
    intro addr low high
    change addr < entry.ptr - mm at high
    have other := met.first (addr + mm) (by omega) (by omega)
    rw [← slice_alone memory (by omega) (by omega), Nat.add_sub_cancel] at other
    exact other
  case totalsize =>
    exact ⟨totalsize, by rw [relative, shift, slice_alone memory (by omega) (by omega), sized], same⟩
  case version => exact ⟨version, by rw [relative, shift, slice_alone memory (by omega) (by omega), versioned]⟩

theorem bare_alone (memory : mm + total ≤ ptr.mapped.length) (after : mm ≤ base) (before : base ≤ mm + total)
    (bare : Bare ptr (mm + total) base) : Bare (alone ptr mm total) (0 + total) (base - mm) := by
  intro addr low high
  have ends := remaining_le before
  rw [remaining_alone after] at high
  obtain ⟨window, read, other⟩ := bare (addr + mm) (by omega) (by omega)
  rw [← slice_alone memory (by omega) (by omega), Nat.add_sub_cancel] at read
  exact ⟨window, read, other⟩

theorem walk_alone (memory : mm + total ≤ ptr.mapped.length) (after : mm ≤ base) (before : base ≤ mm + total)
    (walk : Walk ptr (mm + total) base entries)
    (header : ∀ entry ∈ entries, entry.ptr + dtbHeaderRead ≤ mm + total)
    (inside : ∀ entry ∈ entries, entry.ptr + entry.size ≤ mm + total) :
    Walk (alone ptr mm total) (0 + total) (base - mm) (entries.map (relative mm)) := by
  induction walk using Walk.rec with
  | done bare => exact .done (bare_alone memory after before bare)
  | @tree base entry entries met _ ih =>
    obtain ⟨headerHere, headers⟩ := List.forall_mem_cons.mp header
    obtain ⟨insideHere, insides⟩ := List.forall_mem_cons.mp inside
    have behind := met.after
    have rest := ih (by omega) insideHere headers insides
    have next : entry.ptr + entry.size - mm = (relative mm entry).ptr + (relative mm entry).size := by
      simp only [relative]
      omega
    rw [next] at rest
    exact .tree (met_alone memory after met headerHere) rest

end Alone

/-- Over any region the records are trees of it and of nothing else exactly when every tree
that is met has the read part of its header and its total size inside the region. -/
theorem records_region_iff {ptr : Region} {mm total : Nat} {entries : List BxxtDtb}
    (memory : mm + total ≤ ptr.mapped.length) (run : bxxtBootParseDtbSections ptr mm total = .ok entries) :
    RecordsRegion ptr mm total entries ↔
      ∀ base entry, Reaches ptr (mm + total) mm base → Met ptr (mm + total) base entry →
        entry.ptr + max dtbHeaderRead entry.size ≤ mm + total := by
  obtain ⟨walk, short⟩ := dtbLoop_iff.mp run
  constructor
  · intro records base entry reached met
    have member := walk.covers reached met
    have inside := (records.inside entry member).2
    obtain ⟨again, _⟩ := dtbLoop_iff.mp records.examined
    obtain ⟨before, _, seen⟩ := again.reaches .refl (relative mm entry) (List.mem_map_of_mem member)
    obtain ⟨version, versioned⟩ := seen.version
    have header := alone_end (by decide) versioned
    have after := (records.inside entry member).1
    simp only [relative] at header
    rw [dtbHeaderRead]
    omega
  · intro bounded
    have bounds : ∀ entry ∈ entries, entry.ptr + max dtbHeaderRead entry.size ≤ mm + total := by
      intro entry member
      obtain ⟨before, reached, met⟩ := walk.reaches .refl entry member
      exact bounded before entry reached met
    constructor
    case inside =>
      intro entry member
      have bound := bounds entry member
      exact ⟨walk.behind entry member, by omega⟩
    case magic => exact walk.magic
    case ordered => exact walk.ordered
    case examined =>
      refine dtbLoop_iff.mpr ⟨?_, by simpa using short⟩
      have again := walk_alone memory (Nat.le_refl mm) (Nat.le_add_right _ _) walk
        (fun entry member => by have bound := bounds entry member; omega)
        (fun entry member => by have bound := bounds entry member; omega)
      rw [Nat.sub_self] at again
      exact again

/-- A header that says 64 bytes, and where these end another one whose size takes the search
around the 32-bit counter to the end of the first 40. -/
def overlongMemory : Region :=
  .ofBuffer (fdtMagic ++ [0, 0, 0, 64] ++ List.replicate 56 0 ++
    (fdtMagic ++ [0xff, 0xff, 0xff, 0xe8] ++ List.replicate 32 0))

/-- Both are recorded of a region of 40 bytes, and the second one is not even in it. -/
theorem overlong_tree_recorded :
    bxxtBootParseDtbSections overlongMemory 0 40 = .ok [⟨0, 64⟩, ⟨64, 0xffffffe8⟩] ∧
      ¬ RecordsRegion overlongMemory 0 40 [⟨0, 64⟩, ⟨64, 0xffffffe8⟩] := by
  have first : Met overlongMemory (0 + 40) 0 ⟨0, 64⟩ :=
    ⟨by decide, by decide, rfl, fun addr _ before => absurd before (Nat.not_lt_zero addr),
      ⟨_, rfl, rfl⟩, ⟨_, rfl⟩⟩
  have second : Met overlongMemory (0 + 40) (0 + 64) ⟨64, 0xffffffe8⟩ := by
    refine ⟨by decide, by decide, rfl, fun addr after before => ?_, ⟨_, rfl, rfl⟩, ⟨_, rfl⟩⟩
    change addr < 64 at before
    omega
  have bare : Bare overlongMemory (0 + 40) (64 + 0xffffffe8) := by
    intro addr after inside
    have left : remaining (0 + 40) (64 + 0xffffffe8) = 0 := by decide
    have magic : fdtMagic.length = 4 := rfl
    omega
  refine ⟨dtbLoop_iff.mpr ⟨.tree first (.tree second (.done bare)), by decide⟩, ?_⟩
  intro records
  have inside := (records.inside ⟨0, 64⟩ (by simp)).2
  dsimp only at inside
  omega

/-- The search of a region made of trees with gaps between them records these trees, in order,
at their places. -/
theorem sequence_recovered {ptr : Region} {mm : Nat} {data more tail : Bytes} {items : List (Bytes × Bytes)}
    (trees : Gapped data items tail) (memory : ptr.mapped.drop mm = data ++ more) (small : data.length < 2 ^ 31) :
    ∃ entries, bxxtBootParseDtbSections ptr mm data.length = .ok entries ∧ entries.length = items.length ∧
      entries = gappedEntries mm items ∧
      List.Forall₂ (fun entry item => entry.size = item.2.length ∧ ptr.slice entry.ptr entry.size = .ok item.2)
        entries items := by
  have scanned := bxxtBootParseDtbSections_gapped trees memory (by omega)
  refine ⟨_, scanned, length_gappedEntries mm items, rfl, ?_⟩
  rw [trees.shape] at memory
  have read := gappedEntries_read memory
  refine read.imp ?_
  intro entry item same
  exact ⟨(Region.length_of_slice same).symm, same⟩

/-- A tree of 44 bytes with another magic at its end. -/
def nestedDtb : Bytes := fdtMagic ++ [0, 0, 0, 44] ++ List.replicate 32 0 ++ fdtMagic

def nestedItems : List (Bytes × Bytes) := [([1], nestedDtb), ([2], nestedDtb)]

theorem nestedItems_gapped : Gapped (gapped nestedItems [3]) nestedItems [3] := by
  have formed : WellFormedDtb nestedDtb := ⟨by decide, by decide, by decide⟩
  refine ⟨rfl, ?_, ?_, by decide, by decide⟩
  · decide
  · intro item member
    rcases List.mem_pair.mp member with rfl | rfl <;> exact formed

theorem nested_trees_recovered :
    bxxtBootParseDtbSections (.ofBuffer (gapped nestedItems [3])) 0 91 = .ok [⟨1, 44⟩, ⟨46, 44⟩] := by
  obtain ⟨entries, run, _, same, _⟩ := @sequence_recovered (.ofBuffer (gapped nestedItems [3])) 0 _ [] _ _
    nestedItems_gapped (by simp [Region.ofBuffer, Region.mapped]) (by decide)
  rw [same] at run
  exact run

theorem nested_trees_inside :
    RecordsRegion (.ofBuffer (gapped nestedItems [3])) 0 91 [⟨1, 44⟩, ⟨46, 44⟩] := by
  have run : bxxtBootParseDtbSections (.ofBuffer (gapped nestedItems [3])) 0 91 = .ok [⟨1, 44⟩, ⟨46, 44⟩] :=
    @bxxtBootParseDtbSections_gapped _ _ _ [] _ _ nestedItems_gapped (by simp [Region.ofBuffer, Region.mapped])
      (by decide)
  refine (records_region_iff (by decide) run).mpr ?_
  intro base entry reached met
  have member := (dtbLoop_iff.mp run).1.covers reached met
  rcases List.mem_pair.mp member with rfl | rfl <;> decide

end Bxxt.Proofs
