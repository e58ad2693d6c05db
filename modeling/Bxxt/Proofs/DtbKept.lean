import Bxxt.FlatTree
import Bxxt.Proofs.DtbCoverage
import Bxxt.Proofs.UnpackedFiles

/-! What becomes of the dtb section when an image is unpacked. Its trees go to numbered files; for
everything else in it there is no file. Where the device tree compiler refuses one of the recorded trees
it ends the program, and nothing behind that tree is in a file. -/

namespace Bxxt.Proofs
open ByteLayout PagedBytes

section Kept
variable {Source Tree : Type} (lib : Libraries Source Tree)

/-- The parts of an image that are unpacked to a file of their own: kernel, ramdisk,
second, recovery_dtbo and extra.data. -/
def otherParts (b : Boot) : List (Nat × Nat) :=
  [(b.mmKernelPtr, b.kernelSize.toNat), (b.mmRamdiskPtr, b.ramdiskSize.toNat), (b.mmSecondPtr, b.secondSize.toNat),
    (b.mmRecoveryDtboPtr, b.recoveryDtboSize.toNat), (b.mmPadPtr, b.padSize.toNat)]

def InOther (b : Boot) (addr : Nat) : Prop := ∃ part ∈ otherParts b, part.1 ≤ addr ∧ addr < part.1 + part.2

/-- The byte is in a recorded tree whose source went to its numbered file. -/
def InSource (b : Boot) (out : Dir Source Tree) (addr : Nat) : Prop :=
  ∃ index entry source, b.dtb[index]? = some entry ∧ BxxtDtb.Holds entry addr ∧ Decompiles lib b entry source ∧
    out.dts index = some source

/-- Every byte of the dtb section is in one of the files, and a section with any bytes is not packed
to one without. Together they say that unpacking loses nothing of the section. -/
structure NothingDropped (b : Boot) (out : Dir Source Tree) : Prop where
  kept : ∀ addr, b.mmDtbPtr ≤ addr → addr < b.mmDtbPtr + b.dtbSize.toNat →
    InSource lib b out addr ∨ InOther b addr
  nonempty : b.dtbSize ≠ 0 → bxxtBootCompileFs2blob lib out.dts ≠ .ok []

/-- What unpacking takes: the kernel and the ramdisk are in the file in full, and the compiler reads
every tree that is recorded. -/
structure Unpackable (b : Boot) : Prop where
  kernel : ∃ packed, b.read b.mmKernelPtr b.kernelSize.toNat = .ok packed
  ramdisk : ∃ fs, b.read b.mmRamdiskPtr b.ramdiskSize.toNat = .ok fs
  kernelTrees : ∀ entry ∈ b.kernelDtb, ∃ source, Decompiles lib b entry source
  trees : ∀ entry ∈ b.dtb, ∃ source, Decompiles lib b entry source

end Kept

section Unpack
variable {Source Tree : Type} {lib : Libraries Source Tree} {opts : Options} {content : Bytes} {b : Boot}
  {dir out : Dir Source Tree}

theorem unpacked_iff (opened : bxxtBootOpenFile lib.sha1 opts bxxtBootNew (some content) = .ok (bxxtSuccess, b)) :
    (∃ out, bxxtBootUnpackAll lib opts (some content) (some dir) = .ok (bxxtSuccess, some out)) ↔
      Unpackable lib b := by
  obtain ⟨_, same, _, accepted⟩ := bxxtBootOpenFile_iff.mp opened
  cases same
  have mm := accepted.laidOut.mm
  constructor
  · rintro ⟨out, run⟩
    obtain ⟨other, again, ran⟩ := bxxtBootUnpackAll_iff.mp run
    cases opened.symm.trans again
    obtain ⟨packed, _, _, _, kernelSources, sources, fs, kernel, _, _, _, kernelDecompiled,
      decompiled, ramdisk, _⟩ :=
      (bxxtBootUnpackFiles_iff accepted.laidOut).mp ran
    exact ⟨⟨packed, kernel⟩, ⟨fs, ramdisk⟩, forall₂_exists_iff.mp ⟨kernelSources, kernelDecompiled⟩,
      forall₂_exists_iff.mp ⟨sources, decompiled⟩⟩
  · intro unpackable
    obtain ⟨packed, kernel⟩ := unpackable.kernel
    obtain ⟨fs, ramdisk⟩ := unpackable.ramdisk
    obtain ⟨kernelSources, kernelDecompiled⟩ := forall₂_exists_iff.mpr unpackable.kernelTrees
    obtain ⟨sources, decompiled⟩ := forall₂_exists_iff.mpr unpackable.trees
    obtain ⟨recoveryDtbo, unpacked⟩ := unpackSection_total mm b.mmRecoveryDtboPtr
      b.recoveryDtboSize dir.recoveryDtbo
    obtain ⟨second, unpacked2⟩ := unpackSection_total mm b.mmSecondPtr b.secondSize dir.second
    obtain ⟨extraData, unpacked3⟩ := unpackSection_total mm b.mmPadPtr b.padSize dir.extraData
    exact ⟨_, bxxtBootUnpackAll_iff.mpr ⟨b, opened, (bxxtBootUnpackFiles_iff accepted.laidOut).mpr
      ⟨packed, recoveryDtbo, second, extraData, kernelSources, sources, fs, kernel, unpacked, unpacked2, unpacked3,
        kernelDecompiled, decompiled, ramdisk, rfl⟩⟩⟩

/-- The trees of the dtb section and no others are written to its numbered files. -/
theorem unpacked_dts (opened : bxxtBootOpenFile lib.sha1 opts bxxtBootNew (some content) = .ok (bxxtSuccess, b))
    (run : bxxtBootUnpackAll lib opts (some content) (some dir) = .ok (bxxtSuccess, some out)) :
    ∃ sources, List.Forall₂ (Decompiles lib b) b.dtb sources ∧ out.dts = writeSources dir.dts 0 sources := by
  obtain ⟨other, again, ran⟩ := bxxtBootUnpackAll_iff.mp run
  rw [opened] at again
  cases again
  obtain ⟨_, same, _, accepted⟩ := bxxtBootOpenFile_iff.mp opened
  obtain ⟨_, _, _, _, _, sources, _, _, _, _, _, _, decompiled, _, rfl⟩ :=
    (bxxtBootUnpackFiles_iff accepted.laidOut).mp ran
  exact ⟨sources, decompiled, rfl⟩

theorem inSource_iff {sources : List Source} (decompiled : List.Forall₂ (Decompiles lib b) b.dtb sources)
    (written : out.dts = writeSources dir.dts 0 sources) {addr : Nat} :
    InSource lib b out addr ↔ ∃ entry ∈ b.dtb, BxxtDtb.Holds entry addr := by
  constructor
  · intro ⟨index, entry, _, selected, holds, _⟩
    exact ⟨entry, List.mem_of_getElem? selected, holds⟩
  · intro ⟨entry, member, holds⟩
    obtain ⟨index, inside, rfl⟩ := List.getElem_of_mem member
    have same := decompiled.length_eq
    refine ⟨index, b.dtb[index], sources[index], List.getElem?_eq_getElem inside, holds,
      decompiled.get inside (same ▸ inside), ?_⟩
    rw [written, writeSources_eq, if_pos (by omega), Nat.sub_zero, List.getElem?_eq_getElem]

/-- An unpacked dtb section is all there if its bytes are trees one behind the other. A byte can be
spared only where an offset that wrapped put another part of the image on top of it, and a section of
such bytes alone is packed again only if there was a numbered file before. -/
theorem nothingDropped_iff (nonempty : ∀ source dt, lib.bxxtDtccDtbFromSource source = some dt → dt ≠ [])
    (opened : bxxtBootOpenFile lib.sha1 opts bxxtBootNew (some content) = .ok (bxxtSuccess, b))
    (run : bxxtBootUnpackAll lib opts (some content) (some dir) = .ok (bxxtSuccess, some out)) :
    NothingDropped lib b out ↔
      Tiled (Region.ofFile content) (InOther b) (b.mmDtbPtr + b.dtbSize.toNat) b.mmDtbPtr ∧
        (b.dtbSize ≠ 0 → (∃ addr, b.mmDtbPtr ≤ addr ∧
          TreeAt (Region.ofFile content) (b.mmDtbPtr + b.dtbSize.toNat) addr) ∨ dir.dts 0 ≠ none) := by
  obtain ⟨sources, decompiled, written⟩ := unpacked_dts opened run
  obtain ⟨_, same, _, accepted⟩ := bxxtBootOpenFile_iff.mp opened
  cases same
  have scanned := accepted.dtb
  have bound := b.dtbSize.toNat_lt
  have small : b.mmDtbPtr + b.dtbSize.toNat - b.mmDtbPtr < 2 ^ 32 := by omega
  have kept : (∀ addr, b.mmDtbPtr ≤ addr → addr < b.mmDtbPtr + b.dtbSize.toNat → InSource lib b out addr ∨
    InOther b addr) ↔
      Tiled (Region.ofFile content) (InOther b) (b.mmDtbPtr + b.dtbSize.toNat) b.mmDtbPtr := by
    rw [← covered_iff_tiled scanned small]
    simp only [inSource_iff decompiled written]
  have packed (some : b.dtbSize ≠ 0) : bxxtBootCompileFs2blob lib out.dts ≠ .ok [] ↔
      (∃ addr, b.mmDtbPtr ≤ addr ∧ TreeAt (Region.ofFile content) (b.mmDtbPtr + b.dtbSize.toNat) addr) ∨
        dir.dts 0 ≠ none := by
    have positive : 0 < b.dtbSize.toNat := Nat.pos_of_ne_zero fun zero => some (UInt32.toNat_inj.mp zero)
    rw [ne_eq, compileFs2blob_empty_iff nonempty, ← recorded_iff scanned small (by omega), written, writeSources_eq]
    have empty : b.dtb = [] ↔ sources = [] := by
      rw [← List.length_eq_zero_iff, decompiled.length_eq, List.length_eq_zero_iff]
    rw [ne_eq b.dtb, empty]
    cases sources <;> simp
  constructor
  · intro dropped
    exact ⟨kept.mp dropped.kept, fun some => (packed some).mp (dropped.nonempty some)⟩
  · intro ⟨tiled, trees⟩
    exact ⟨kept.mpr tiled, fun some => (packed some).mpr (trees some)⟩

end Unpack

def dtbOnly (data : Bytes) : Sections := ⟨[1], [], [], [], data, []⟩

/-- The blob of a root with nothing in it: header, empty reserve map, and the tags around the root. -/
def rootBlob : Bytes :=
  fdtMagic ++ [0, 0, 0, 72, 0, 0, 0, 56, 0, 0, 0, 72, 0, 0, 0, 40, 0, 0, 0, 17, 0, 0, 0, 16] ++ List.replicate 11 0 ++
    [16] ++ List.replicate 16 0 ++ [0, 0, 0, 1, 0, 0, 0, 0, 0, 0, 0, 2, 0, 0, 0, 9]

/-- What `dt_to_source` prints of it. -/
def rootText : Bytes := ascii "/dts-v1/;" ++ [10, 10] ++ ascii "/ \x7b" ++ [10] ++ ascii "\x7d;" ++ [10]

theorem rootBlob_formed : WellFormedDtb rootBlob := ⟨by decide, by decide, by decide⟩

-- the compiler reads it, and writes the same bytes again
example : ∃ tree : DtInfo, dtFromMem (Region.ofBuffer rootBlob) = .ok tree ∧
    dtToMem tree defaultFdtVersion = .ok rootBlob :=
  ⟨⟨dtsfV1, [], ⟨⟨false, [], [], none, 0, 0, []⟩, .nil⟩, 0⟩, by decide +kernel, by decide +kernel⟩

/-- Libraries that store everything as it is and compile this one tree, as the program does. -/
def rootLibraries : Libraries Bytes Bytes :=
  { storedLibraries with
    bxxtDtccDtbToSource := fun dtb => if dtb = rootBlob then some rootText else none
    bxxtDtccDtbFromSource := fun source => if source = rootText then some rootBlob else none }

theorem root_decompiles : rootLibraries.bxxtDtccDtbToSource rootBlob = some rootText := by
  simp [rootLibraries]

theorem dtbOnly_describable (data : Bytes) : Describable pagedHdr (dtbOnly data) :=
  ⟨⟨by decide, by decide, by decide⟩, ⟨by simp [dtbOnly], by simp [dtbOnly], by simp [dtbOnly]⟩⟩

private theorem oneByte_gapped : Gapped [1] [] [1] := ⟨rfl, by simp, by simp, by decide, by decide⟩

end Bxxt.Proofs
