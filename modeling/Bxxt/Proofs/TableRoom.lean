import Bxxt.Proofs.UnpackedFiles
import Bxxt.Proofs.ScanWalk

/-! Whether the tables of device trees are long enough. They have a fixed length and the loop
does not compare its count with it, so the number of trees in an image decides. -/

namespace Bxxt.Proofs
open ByteLayout

/-- The run does not store behind the end of a table. -/
def Stays {α : Type} (run : Exec α) : Prop := run ≠ .error .tableOverflow

section Faults
variable {α β : Type}

theorem overflow_bind_iff {first : Exec α} {next : α → Exec β} :
    (first >>= next) = .error .tableOverflow ↔
      first = .error .tableOverflow ∨ ∃ value, first = .ok value ∧ next value = .error .tableOverflow := by
  cases first with
  | error fault => simp [Bind.bind, Except.bind]
  | ok value => simp [Bind.bind, Except.bind]

theorem Stays.ok (value : α) : Stays (.ok value : Exec α) := by
  intro same
  cases same

theorem Stays.bind {first : Exec α} {next : α → Exec β} (here : Stays first)
    (later : ∀ value, first = .ok value → Stays (next value)) : Stays (first >>= next) := by
  intro left
  rcases overflow_bind_iff.mp left with before | ⟨value, ran, behind⟩
  · exact here before
  · exact later value ran behind

theorem Stays.map {first : Exec α} {image : α → β} (here : Stays first) : Stays (first.map image) := by
  intro left
  cases first with
  | error fault => exact here (congrArg Except.error (Except.error.inj left))
  | ok value => cases left

theorem slice_stays (ptr : Region) (addr count : Nat) : Stays (ptr.slice addr count) := by
  intro left
  cases slice_fault left

theorem load_stays (ptr : Region) (addr : Nat) : Stays (ptr.load addr) := by
  unfold Region.load
  split
  · exact Stays.ok _
  · intro left
    cases left

theorem read_stays (b : Boot) (addr count : Nat) : Stays (b.read addr count) := by
  unfold Boot.read
  split
  · exact slice_stays _ _ _
  · split
    · exact Stays.ok _
    · intro left
      cases left

theorem hashOptional_stays (b : Boot) (addr : Nat) (size : UInt32) : Stays (hashOptional b addr size) := by
  unfold hashOptional
  split
  · exact read_stays _ _ _
  · exact Stays.ok _

theorem hashSince_stays (b : Boot) (version : UInt32) (addr : Nat) (size : UInt32) :
    Stays (hashSince b version addr size) := by
  unfold hashSince
  split
  · exact (hashOptional_stays _ _ _).map
  · exact Stays.ok _

theorem message_stays (b : Boot) : Stays (bxxtBootImgMessage b) :=
  (read_stays _ _ _).bind fun _ _ => (read_stays _ _ _).bind fun _ _ => (hashOptional_stays _ _ _).bind fun _ _ =>
    (hashSince_stays _ _ _ _).bind fun _ _ => (hashSince_stays _ _ _ _).bind fun _ _ => Stays.ok _

theorem compatCheck_stays (sha1 : Bytes → Vector UInt8 20) (opts : Options) (b : Boot) :
    Stays (bxxtBootImgCompatCheck sha1 opts b) := by
  unfold bxxtBootImgCompatCheck
  split
  · exact Stays.ok _
  · refine ((message_stays b).bind fun _ _ => Stays.ok _).bind fun _ _ => ?_
    split <;> exact Stays.ok _

theorem trimPad_stays (ptr : Region) (mmPadPtr addr : Nat) : Stays (trimPad ptr mmPadPtr addr) := by
  induction addr with
  | zero =>
    rw [trimPad]
    split
    · exact Stays.ok _
    · refine (load_stays _ _).bind fun _ _ => ?_
      split
      · exact Stays.ok _
      · intro left
        cases left
  | succ addr ih =>
    rw [trimPad]
    split
    · exact Stays.ok _
    · refine (load_stays _ _).bind fun _ _ => ?_
      split
      · exact Stays.ok _
      · split
        · intro left
          cases left
        · exact ih

theorem layout_stays (b : Boot) (ptr : Region) (size : Nat) : Stays (bxxtBootInit1Layout b ptr size) := by
  have trimmed (mmPadPtr : Nat) (padSize : UInt32) : Stays (trimmedPadSize ptr mmPadPtr padSize) := by
    unfold trimmedPadSize trimFrom
    split
    · intro left
      cases left
    · exact (trimPad_stays _ _ _).map
  unfold bxxtBootInit1Layout
  refine Stays.bind ((read_stays _ _ _).bind fun _ _ => ?_) fun _ _ => ?_
  · split
    · exact Stays.ok _
    · split <;> exact Stays.ok _
  · dsimp only
    split
    · intro left
      cases left
    · exact (trimmed _ _).bind fun _ _ => Stays.ok _

end Faults

structure Searched (sha1 : Bytes → Vector UInt8 20) (opts : Options) (ptr : Region) (size : Nat) (check : Bool)
    (b : Boot) : Prop where
  header : ptr.slice 0 BootImgHdr.size = .ok b.hdr.bytes
  supported : Supported b.hdr
  laidOut : LaidOut ptr size b
  limits : BaseLimits b.hdr
  compatible : check = true → bxxtBootImgCompatCheck sha1 opts b = .ok bxxtSuccess

/-- A section with one tree more than a table has entries. -/
def Crowded (ptr : Region) (mm total : Nat) : Prop := Meets ptr (mm + total) mm (bootMaxDtb + 1)

section Init
variable {sha1 : Bytes → Vector UInt8 20} {opts : Options} {ptr : Region} {size : Nat} {check : Bool}

/-- The tables are never left: no store is behind the end of a table, and the counts say so. -/
structure TablesKept (sha1 : Bytes → Vector UInt8 20) (opts : Options) (start : Boot) (ptr : Region) (size : Nat)
    (check : Bool) : Prop where
  stores : Stays (bxxtBootInit1 sha1 opts start ptr size check)
  counts : ∀ b, bxxtBootInit1 sha1 opts start ptr size check = .ok (bxxtSuccess, b) →
    b.kernelDtb.length ≤ bootMaxDtb ∧ b.dtb.length ≤ bootMaxDtb

theorem finish_overflow_iff {b : Boot} (mm : b.mm = some ptr) :
    bxxtBootInit1Finish sha1 opts b check = .error .tableOverflow ↔
      BaseLimits b.hdr ∧ (check = true → bxxtBootImgCompatCheck sha1 opts b = .ok bxxtSuccess) ∧
        (Crowded ptr b.mmKernelPtr b.kernelSize.toNat ∨
          (∃ kernelDtb, bxxtBootParseDtbSections ptr b.mmKernelPtr b.kernelSize.toNat = .ok kernelDtb) ∧
            Crowded ptr b.mmDtbPtr b.dtbSize.toNat) := by
  have failed : bxxtFailed ≠ bxxtSuccess := by decide
  have image : b.image = .ok ptr := by rw [Boot.image, mm]
  have checked : Stays (initCheck sha1 opts b check) := by
    unfold initCheck
    split
    · exact compatCheck_stays _ _ _
    · exact Stays.ok _
  have crowded (mm total : Nat) : bxxtBootParseDtbSections ptr mm total = .error .tableOverflow ↔
    Crowded ptr mm total :=
    dtbLoop_overflow_iff
  rw [← bxxtBootImgBaseCheck_iff, ← crowded, ← crowded]
  unfold bxxtBootInit1Finish
  rcases bxxtBootImgBaseCheck_cases b.hdr with passed | refused
  case inr =>
    rw [if_pos refused, refused]
    exact ⟨fun left => (by cases left), fun overflow => absurd overflow.1 failed⟩
  rw [if_neg (by rw [passed]; exact failed.symm), overflow_bind_iff, or_iff_right checked]
  constructor
  · rintro ⟨compatible, ran, rest⟩
    split at rest
    next => cases rest
    next accepted =>
      rw [image, Exec.ok_bind, overflow_bind_iff] at rest
      refine ⟨passed, ?_, ?_⟩
      · intro on
        rw [initCheck, if_pos on] at ran
        rw [ran, (bxxtBootImgCompatCheck_cases ran).resolve_right accepted]
      · rcases rest with kernel | ⟨kernelDtb, found, rest⟩
        · exact Or.inl kernel
        · rcases overflow_bind_iff.mp rest with dtb | ⟨_, _, rest⟩
          · exact Or.inr ⟨⟨kernelDtb, found⟩, dtb⟩
          · cases rest
  · rintro ⟨_, compatible, overflow⟩
    have ran : initCheck sha1 opts b check = .ok bxxtSuccess := by
      unfold initCheck
      split
      next on => exact compatible on
      next => rfl
    refine ⟨bxxtSuccess, ran, ?_⟩
    rw [if_neg failed.symm, image, Exec.ok_bind, overflow_bind_iff]
    rcases overflow with kernel | ⟨⟨kernelDtb, found⟩, dtb⟩
    · exact Or.inl kernel
    · exact Or.inr ⟨kernelDtb, found, overflow_bind_iff.mpr (Or.inl dtb)⟩

theorem init1_overflow_iff {start : Boot} :
    bxxtBootInit1 sha1 opts start ptr size check = .error .tableOverflow ↔
      ∃ b, Searched sha1 opts ptr size check b ∧
        (Crowded ptr b.mmKernelPtr b.kernelSize.toNat ∨
          (∃ kernelDtb, bxxtBootParseDtbSections ptr b.mmKernelPtr b.kernelSize.toNat = .ok kernelDtb) ∧
            Crowded ptr b.mmDtbPtr b.dtbSize.toNat) := by
  have failed : bxxtFailed ≠ bxxtSuccess := by decide
  unfold bxxtBootInit1
  rw [overflow_bind_iff, or_iff_right (slice_stays _ _ _)]
  constructor
  · intro ⟨hdrBytes, read, run⟩
    dsimp only at run
    split at run
    next => cases run
    next passed =>
      have supported := (bxxtBootImgVersionCheck_iff _).mp ((bxxtBootImgVersionCheck_cases _).resolve_right passed)
      rw [overflow_bind_iff, or_iff_right (layout_stays _ _ _)] at run
      obtain ⟨parsed, laidRun, run⟩ := run
      obtain ⟨hdr, _, _, laid⟩ := bxxtBootInit1Layout_iff.mp laidRun
      obtain ⟨limits, compatible, overflow⟩ := (finish_overflow_iff laid.mm).mp run
      dsimp only at hdr
      rw [← hdr] at supported
      have whole : hdrBytes = parsed.hdr.bytes := by
        rw [hdr, BootImgHdr.bytes_ofBytes (Region.length_of_slice read).ge,
          List.take_of_length_le (Region.length_of_slice read).le]
      exact ⟨parsed, ⟨whole ▸ read, supported, laid, limits, compatible⟩, overflow⟩
  · intro ⟨b, searched, overflow⟩
    refine ⟨_, searched.header, ?_⟩
    dsimp only
    rw [BootImgHdr.ofBytes_bytes, (bxxtBootImgVersionCheck_iff _).mpr searched.supported, if_neg failed.symm,
      overflow_bind_iff]
    refine Or.inr ⟨{ b with kernelDtb := start.kernelDtb, dtb := start.dtb }, ?_, ?_⟩
    · exact bxxtBootInit1Layout_iff.mpr ⟨rfl, rfl, rfl, searched.laidOut.withTrees _ _⟩
    · exact (finish_overflow_iff (b := { b with kernelDtb := start.kernelDtb, dtb := start.dtb })
        searched.laidOut.mm).mpr
        ⟨searched.limits, searched.compatible, overflow⟩

/-- The tables are long enough exactly when the search finds no tree beyond the 255th: in the
kernel, and, if it comes to the end of the kernel, in the dtb section. -/
theorem tables_kept_iff {start : Boot} :
    TablesKept sha1 opts start ptr size check ↔
      ∀ b, Searched sha1 opts ptr size check b →
        ¬ Crowded ptr b.mmKernelPtr b.kernelSize.toNat ∧
          ((∃ entries, Walk ptr (b.mmKernelPtr + b.kernelSize.toNat) b.mmKernelPtr entries ∧
            entries.length ≤ bootMaxDtb) →
            ¬ Crowded ptr b.mmDtbPtr b.dtbSize.toNat) := by
  constructor
  · intro kept b searched
    have stores := kept.stores
    constructor
    · intro crowded
      exact stores (init1_overflow_iff.mpr ⟨b, searched, Or.inl crowded⟩)
    · intro ⟨entries, walk⟩ crowded
      exact stores (init1_overflow_iff.mpr ⟨b, searched, Or.inr ⟨⟨entries, dtbLoop_iff.mpr walk⟩, crowded⟩⟩)
  · intro few
    constructor
    case stores =>
      intro left
      obtain ⟨b, searched, overflow⟩ := init1_overflow_iff.mp left
      obtain ⟨kernel, dtb⟩ := few b searched
      rcases overflow with crowded | ⟨⟨entries, found⟩, crowded⟩
      · exact kernel crowded
      · exact dtb ⟨entries, dtbLoop_iff.mp found⟩ crowded
    case counts =>
      intro b run
      have accepted := bxxtBootInit1_iff.mp run
      exact ⟨(dtbLoop_iff.mp accepted.kernelDtb).2, (dtbLoop_iff.mp accepted.dtb).2⟩

end Init

/-- The trees of a region made of trees are met one after the other, however many they are. -/
theorem gapped_meets {ptr : Region} {base finish : Nat} {items : List (Bytes × Bytes)} {tail : Bytes} (more : Bytes)
    (memory : ptr.mapped.drop base = gapped items tail ++ more) (finished : finish = base + (gapped items tail).length)
    (small : (gapped items tail).length < 2 ^ 32) (gaps : ∀ item ∈ items, ¬ fdtMagic <:+: item.1)
    (blobs : ∀ item ∈ items, WellFormedDtb item.2) : Meets ptr finish base items.length := by
  induction items generalizing base with
  | nil => exact .none
  | cons item items ih =>
    obtain ⟨gap, blob⟩ := item
    have shape : gapped ((gap, blob) :: items) tail = gap ++ (blob ++ gapped items tail) := by simp [gapped]
    rw [shape] at memory finished small
    have step := dtbStep_finds (gapped items tail) more memory finished small (gaps (gap, blob) (by simp))
      (blobs (gap, blob) (by simp))
    have behind : ptr.mapped.drop (base + gap.length + blob.length) = gapped items tail ++ more := by
      rw [Nat.add_assoc, ← List.drop_drop, memory, ← List.length_append, ← List.append_assoc gap,
        List.append_assoc _ _ more, List.drop_left]
    simp only [List.length_append] at finished small
    have rest := ih behind (by omega) (by omega) (fun item member => gaps item (by simp [member]))
      (fun item member => blobs item (by simp [member]))
    exact meets_succ_iff.mpr ⟨_, _, step, rest⟩

def bareDtb : Bytes := fdtMagic ++ [0, 0, 0, 40] ++ List.replicate 32 0

def bareItems (count : Nat) : List (Bytes × Bytes) := List.replicate count ([], bareDtb)

def treesImage (count : Nat) : Sections := ⟨gapped (bareItems count) [], [], [], [], [], []⟩

theorem length_bareItems (count : Nat) : (gapped (bareItems count) []).length = 40 * count := by
  have forty : ((([] : Bytes), bareDtb).1 ++ (([] : Bytes), bareDtb).2).length = 40 := by decide
  induction count with
  | zero => rfl
  | succ count ih =>
    simp only [gapped, bareItems, List.replicate_succ, List.flatMap_cons, List.append_nil, List.length_append]
      at ih forty ⊢
    omega

theorem bareItems_formed (count : Nat) :
    (∀ item ∈ bareItems count, ¬ fdtMagic <:+: item.1) ∧ ∀ item ∈ bareItems count, WellFormedDtb item.2 := by
  constructor
  all_goals
    intro item member
    rw [List.eq_of_mem_replicate member]
  · decide
  · exact ⟨by decide, by decide, by decide⟩

/-- 256 trees in the kernel are one more than there is room for. -/
theorem crowded_kernel_overflows :
    bxxtBootInit1 storedLibraries.sha1 ⟨false, false⟩ bxxtBootNew (.ofFile (pagedImage (treesImage 256)))
        (pagedImage (treesImage 256)).length false = .error .tableOverflow ∧
      ¬ TablesKept storedLibraries.sha1 ⟨false, false⟩ bxxtBootNew (.ofFile (pagedImage (treesImage 256)))
        (pagedImage (treesImage 256)).length false := by
  have length : (treesImage 256).kernel.length = 10240 := length_bareItems 256
  have total : (pagedImage (treesImage 256)).length < 2 ^ 31 := by
    rw [pagedImage, length_imageOf (by decide), length]
    decide
  obtain ⟨parsed, same, laid, selects, run⟩ :=
    @init1_assembled (Region.ofFile (pagedImage (treesImage 256))) pagedHdr
      (treesImage 256) storedLibraries.sha1 ⟨false, false⟩ false (by decide)
        (by rw [length]; decide) ⟨by decide, by decide⟩ rfl total
  have describable : Describable pagedHdr (treesImage 256) :=
    ⟨⟨by decide, by decide, by decide⟩, ⟨by rw [length]; decide, by rw [length]; decide, by decide⟩⟩
  have kernel := selects.kernel
  rw [Boot.read, laid.mm] at kernel
  have size := length_of_read selects.kernel
  obtain ⟨more, memory⟩ := Region.memory_of_slice kernel
  obtain ⟨gaps, blobs⟩ := bareItems_formed 256
  suffices crowded : Crowded (.ofFile (pagedImage (treesImage 256))) parsed.mmKernelPtr parsed.kernelSize.toNat by
    have left :=
      run.trans ((finish_overflow_iff laid.mm).mpr ⟨same ▸ describable.baseLimits, by simp, Or.inl crowded⟩)
    exact ⟨left, fun kept => kept.stores left⟩
  have met := @gapped_meets _ _ _ (bareItems 256) [] more memory rfl (by rw [length_bareItems]; decide) gaps blobs
  have count : (bareItems 256).length = bootMaxDtb + 1 := List.length_replicate
  rw [count] at met
  rw [Crowded, size]
  exact met

end Bxxt.Proofs
