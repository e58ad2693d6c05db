import Bxxt.Proofs.DtbKept
import Bxxt.Proofs.NewcStream

/-! The device trees behind the kernel, unpacked and packed again. The decompressor leaves them behind
where its stream ends, so they are packed once, from their files. A kernel that is not compressed has no
such end: its file holds the trees as well. The stream that is made of the kernel again need not fit its
buffer; the trees are then packed behind what did. -/

namespace Bxxt.Proofs
open ByteLayout PagedBytes KeyedLines

/-- A payload as the gap before the first tree of a section. -/
def treesBehind (payload : Bytes) : List Bytes → List (Bytes × Bytes)
  | [] => []
  | blob :: blobs => (payload, blob) :: blobs.map fun blob => ([], blob)

def restBehind (payload : Bytes) (blobs : List Bytes) : Bytes := if blobs = [] then payload else []

section Scan
variable {payload : Bytes} {blobs : List Bytes}

theorem gapped_treesBehind (payload : Bytes) (blobs : List Bytes) :
    gapped (treesBehind payload blobs) (restBehind payload blobs) = payload ++ blobs.flatten := by
  cases blobs with
  | nil => simp [gapped, treesBehind, restBehind]
  | cons blob blobs => simp [gapped, treesBehind, restBehind, List.flatMap_map]

theorem treesBehind_snd (payload : Bytes) (blobs : List Bytes) : (treesBehind payload blobs).map Prod.snd = blobs := by
  cases blobs with
  | nil => rfl
  | cons blob blobs => simp [treesBehind]

theorem length_treesBehind (payload : Bytes) (blobs : List Bytes) :
    (treesBehind payload blobs).length = blobs.length := by
  rw [← List.length_map (f := Prod.snd), treesBehind_snd]

/-- Only the payload is left between the trees, and it is not one. -/
theorem treesBehind_spaced (absent : ¬ fdtMagic <:+: payload) (formed : ∀ blob ∈ blobs, WellFormedDtb blob) :
    (∀ item ∈ treesBehind payload blobs, ¬ fdtMagic <:+: item.1) ∧
      (∀ item ∈ treesBehind payload blobs, WellFormedDtb item.2) ∧ ¬ fdtMagic <:+: restBehind payload blobs := by
  have nothing : ¬ fdtMagic <:+: [] := by decide
  refine ⟨?_, ?_, ?_⟩
  · cases blobs with
    | nil => exact fun item member => absurd member List.not_mem_nil
    | cons blob blobs =>
      intro item member
      rcases List.mem_cons.mp member with rfl | behind
      · exact absent
      · obtain ⟨other, _, rfl⟩ := List.mem_map.mp behind
        exact nothing
  · intro item member
    have blob : item.2 ∈ (treesBehind payload blobs).map Prod.snd := List.mem_map_of_mem member
    rw [treesBehind_snd] at blob
    exact formed item.2 blob
  · unfold restBehind
    split
    next => exact absent
    next => exact nothing

theorem treesBehind_gapped (absent : ¬ fdtMagic <:+: payload) (formed : ∀ blob ∈ blobs, WellFormedDtb blob)
    (count : blobs.length ≤ bootMaxDtb) :
    Gapped (payload ++ blobs.flatten) (treesBehind payload blobs) (restBehind payload blobs) := by
  obtain ⟨gaps, trees, last⟩ := treesBehind_spaced absent formed
  exact ⟨(gapped_treesBehind payload blobs).symm, gaps, trees, last, length_treesBehind payload blobs ▸ count⟩

/-- A search that ended had room for all the trees. -/
theorem dtbLoop_room {ptr : Region} {room base finish : Nat} {items : List (Bytes × Bytes)} {tail : Bytes}
    {entries : List BxxtDtb} (more : Bytes) (memory : ptr.mapped.drop base = gapped items tail ++ more)
    (finished : finish = base + (gapped items tail).length) (small : (gapped items tail).length < 2 ^ 32)
    (gaps : ∀ item ∈ items, ¬ fdtMagic <:+: item.1) (blobs : ∀ item ∈ items, WellFormedDtb item.2)
    (run : dtbLoop ptr finish room base = .ok entries) : items.length ≤ room := by
  induction items generalizing base room entries with
  | nil => exact Nat.zero_le _
  | cons item items ih =>
    obtain ⟨gap, blob⟩ := item
    have shape : gapped ((gap, blob) :: items) tail = gap ++ (blob ++ gapped items tail) := by simp [gapped]
    rw [shape] at memory finished small
    have step := dtbStep_finds (gapped items tail) more memory finished small (gaps (gap, blob) (by simp))
      (blobs (gap, blob) (by simp))
    have behind : ptr.mapped.drop (base + gap.length + blob.length) = gapped items tail ++ more := by
      rw [Nat.add_assoc, ← List.drop_drop, memory, ← List.length_append, ← List.append_assoc gap,
        List.append_assoc _ _ more, List.drop_left]
    simp only [List.length_append] at finished small
    cases room with
    | zero =>
      rw [dtbLoop, step, Exec.ok_bind] at run
      cases run
    | succ room =>
      rw [dtbLoop, step, Exec.ok_bind] at run
      obtain ⟨later, searched, _⟩ := Exec.bind_eq_ok.mp run
      have fits := ih behind (by omega) (by omega) (fun item member => gaps item (by simp [member]))
        (fun item member => blobs item (by simp [member])) searched
      simpa using fits

theorem recorded_behind {ptr : Region} {addr : Nat} {count : UInt32} {entries : List BxxtDtb}
    (absent : ¬ fdtMagic <:+: payload) (formed : ∀ blob ∈ blobs, WellFormedDtb blob)
    (read : ptr.slice addr count.toNat = .ok (payload ++ blobs.flatten))
    (scanned : bxxtBootParseDtbSections ptr addr count.toNat = .ok entries) :
    blobs.length ≤ bootMaxDtb ∧ List.Forall₂ (fun entry blob => ptr.slice entry.ptr entry.size = .ok blob)
      entries blobs := by
  obtain ⟨more, memory⟩ := Region.memory_of_slice read
  have length : count.toNat = (payload ++ blobs.flatten).length := (Region.length_of_slice read).symm
  have small := count.toNat_lt
  rw [length] at small scanned
  have shape := gapped_treesBehind payload blobs
  obtain ⟨gaps, trees, _⟩ := treesBehind_spaced absent formed
  have room : blobs.length ≤ bootMaxDtb := by
    rw [← length_treesBehind payload blobs]
    rw [← shape] at memory small scanned
    exact dtbLoop_room more memory rfl small gaps trees scanned
  have found := bxxtBootParseDtbSections_gapped (treesBehind_gapped absent formed room) memory small
  rw [scanned] at found
  cases found
  refine ⟨room, ?_⟩
  rw [← shape] at memory
  have selected := gappedEntries_read memory
  rw [← treesBehind_snd payload blobs, List.forall₂_map_right_iff, treesBehind_snd]
  exact selected

end Scan

/-- A payload that is one stream of this format: the decompressor stops at its end, where the trees begin,
and the compressor makes the same stream of what was unpacked. Its blocks go to a buffer, up to the first
that does not fit. -/
structure StreamOf (unpack : Bytes → Bytes) (pack : Bytes → Nat → Bytes) (payload : Bytes)
    (blobs : List Bytes) : Prop where
  stops : unpack (payload ++ blobs.flatten) = unpack payload
  inverts : ∃ blocks : List Bytes, blocks.flatten = payload ∧
    ∀ room, pack (unpack payload) room = (memoryWrites room [] blocks).1

theorem StreamOf.pack_prefix {unpack : Bytes → Bytes} {pack : Bytes → Nat → Bytes} {payload : Bytes}
    {blobs : List Bytes} (stream : StreamOf unpack pack payload blobs) (room : Nat) :
    pack (unpack payload) room <+: payload := by
  obtain ⟨blocks, rfl, packs⟩ := stream.inverts
  rw [packs]
  exact memoryWrites_prefix room [] blocks

section Repack
variable {Source Tree : Type} (lib : Libraries Source Tree) (opts : Options) (b : Boot)

/-- The kernel section is a payload, one stream if it is compressed, with these trees behind it. -/
structure KernelSection (payload : Bytes) (blobs : List Bytes) : Prop where
  read : b.read b.mmKernelPtr b.kernelSize.toNat = .ok (payload ++ blobs.flatten)
  noTree : ¬ fdtMagic <:+: payload
  trees : ∀ blob ∈ blobs, WellFormedDtb blob
  gzip : b.kernelCompression = .gzip → StreamOf lib.gunzip lib.gzip payload blobs
  lzma : b.kernelCompression = .lzma → StreamOf lib.unlzma lib.lzma payload blobs

/-- Around the kernel the image is as packing takes it for granted: what its dtb section
records are trees, METADATA says how the kernel is compressed, and a page holds a header. -/
structure Surroundings (dtbItems : List (Bytes × Bytes)) : Prop where
  dtb : ∃ data tail, b.read b.mmDtbPtr b.dtbSize.toNat = .ok data ∧ Gapped data dtbItems tail
  compression : bxxtBootScanMetadata (some (render (metaEntries b b.kernelCompression))) (metaKey "kernel_compression")
    scanXint = .ok (some b.kernelCompression.code)
  header : ∀ base, (bxxtBootHdrFromMetadata (some (render (metaEntries b b.kernelCompression)))).run =
    .ok (some base) →
    BootImgHdr.size ≤ base.pageSize.toNat

def archiveOf (parts : Parts) : Bytes :=
  lib.bxxtCpioArchiveOut (if b.ramdiskSize > 0 then lib.bxxtCpioArchiveIn parts.ramdisk lib.emptyTree
    else lib.emptyTree)

/-- What the kernel file is packed to: of a stream the part that fits a buffer of the size of that file. -/
def packedFront (payload : Bytes) : Bytes :=
  match b.kernelCompression with
  | .gzip => lib.gzip (lib.gunzip payload) (lib.gunzip payload).length
  | .lzma => lib.lzma (lib.unlzma payload) (lib.unlzma payload).length
  | _ => payload

/-- What the files of an unpacked image are packed to, if this is what the kernel file gives. -/
def repacked (parts : Parts) (front : Bytes) (blobs dtbTrees : List Bytes) : Sections where
  kernel := front ++ blobs.flatten
  ramdisk := archiveOf lib b parts
  second := parts.second.getD []
  recoveryDtbo := parts.recoveryDtbo.getD []
  dtb := dtbTrees.flatten
  extra := if opts.skipUnknownData then [] else parts.extra.getD []

/-- What is unpacked can be packed at all: there is a kernel file below 2 GiB, and something to put in the
kernel section, METADATA gives a header that the reader knows, and the parts fit into an image again. -/
structure Repackable (parts : Parts) (payload : Bytes) (blobs dtbTrees : List Bytes) (base : BootImgHdr) : Prop where
  contents : Contents b parts
  kernel : bxxtBootDecompressToFile lib parts.kernel b.kernelCompression none ≠ []
  small : (bxxtBootDecompressToFile lib parts.kernel b.kernelCompression none).length < 2 ^ 31
  filled : packedFront lib b payload ++ blobs.flatten ≠ []
  read : (bxxtBootHdrFromMetadata (some (render (metaEntries b b.kernelCompression)))).run = .ok (some base)
  version : base.headerVersion.toNat ≤ 2
  page_le : base.pageSize.toNat ≤ 0xffff
  ramdisk : (archiveOf lib b parts).length ≤ 0x4000000
  total : (imageOf base.pageSize.toNat base
    (repacked lib opts b parts (packedFront lib b payload) blobs dtbTrees).list).length ≤ writeMax

/-- Unpacking to an empty directory and packing it as it is gives an image in whose
kernel section exactly these trees are found. -/
def Preserved (content : Bytes) (blobs : List Bytes) : Prop :=
  ∃ out image again, bxxtBootUnpackAll lib opts (some content) (some Dir.empty) = .ok (bxxtSuccess, some out) ∧
    bxxtBootPackAll lib opts out true = .ok (bxxtSuccess, some image) ∧
    bxxtBootOpenFile lib.sha1 opts bxxtBootNew (some image) = .ok (bxxtSuccess, again) ∧
    List.Forall₂ (fun entry blob => again.read entry.ptr entry.size = .ok blob) again.kernelDtb blobs

/-- If the compiler reads the tree, its source is compiled to the same tree. -/
def Recompiles (dtb : Bytes) : Prop :=
  ∀ source, lib.bxxtDtccDtbToSource dtb = some source → lib.bxxtDtccDtbFromSource source = some dtb

end Repack

theorem detected_cases {b : Boot} {kernelCompression : KernelCompression}
    (detected : bxxtBootDetectKernelCompression b = .ok kernelCompression) :
    kernelCompression = .none ∨ kernelCompression = .gzip ∨ kernelCompression = .lzma := by
  obtain ⟨half, _, rest⟩ := Exec.bind_eq_ok.mp detected
  split at rest
  next => cases rest; simp
  next =>
    split at rest
    next => cases rest; simp
    next => cases rest; simp

section Trees
variable {Source Tree : Type} {lib : Libraries Source Tree} {b : Boot} {entries : List BxxtDtb} {trees : List Bytes}

theorem sources_exist_iff
    (reads : List.Forall₂ (fun entry blob => b.read entry.ptr entry.size = .ok blob) entries trees) :
    (∃ sources, List.Forall₂ (Decompiles lib b) entries sources) ↔
      ∀ blob ∈ trees, lib.bxxtDtccDtbToSource blob ≠ none := by
  rw [forall₂_exists_iff]
  induction reads with
  | nil => exact iff_of_true (List.forall_mem_nil _) (List.forall_mem_nil _)
  | @cons entry blob _ _ read _ ih =>
    rw [List.forall_mem_cons, List.forall_mem_cons, ih, Option.ne_none_iff_exists']
    refine and_congr_left fun _ => ⟨?_, ?_⟩
    · rintro ⟨source, dtb, again, same⟩
      cases read.symm.trans again
      exact ⟨source, same⟩
    · rintro ⟨source, same⟩
      exact ⟨source, blob, read, same⟩

theorem compiled_back {sources : List Source} {result : Bytes} (recompiles : ∀ blob ∈ trees, Recompiles lib blob)
    (reads : List.Forall₂ (fun entry blob => b.read entry.ptr entry.size = .ok blob) entries trees)
    (count : trees.length ≤ bootMaxDtb) (decompiled : List.Forall₂ (Decompiles lib b) entries sources) :
    bxxtBootCompileFs2blob lib (writeSources (fun _ => none) 0 sources) = .ok result ↔
      (∀ dt ∈ trees, dt.length < 2 ^ 31) ∧ result = trees.flatten := by
  have compiled : List.Forall₂ (fun source dt => lib.bxxtDtccDtbFromSource source = some dt) sources trees := by
    clear count
    induction reads generalizing sources with
    | nil =>
      cases decompiled
      exact .nil
    | cons read _ ih =>
      cases decompiled with
      | cons here rest =>
        obtain ⟨own, others⟩ := List.forall_mem_cons.mp recompiles
        refine .cons ?_ (ih others rest)
        obtain ⟨dtb, again, same⟩ := here
        cases read.symm.trans again
        exact own _ same
  have length := compiled.length_eq
  rw [bxxtBootCompileFs2blob, @compileLoop_files _ _ _ _ _ _ sources _ _ _ ?_ (by rw [length]; exact count) compiled,
    List.nil_append]
  intro index _
  rw [Nat.zero_add, writeSources_eq]
  split
  next => rfl
  next outside => rw [List.getElem?_eq_none (by omega)]

theorem short_of_flatten {trees : List Bytes} {bound : Nat} (short : trees.flatten.length < bound) :
    ∀ dt ∈ trees, dt.length < bound :=
  fun _ member => lt_of_le_of_lt (List.sublist_flatten_of_mem member).length_le short

end Trees

/-- What the kernel section begins with after packing: the kernel file, which holds the whole old section
if it was not compressed. -/
def frontOf {Source Tree : Type} (lib : Libraries Source Tree) (b : Boot) (payload : Bytes)
    (blobs : List Bytes) : Bytes :=
  if b.kernelCompression = .none then payload ++ blobs.flatten else packedFront lib b payload

theorem frontOf_apart {Source Tree : Type} {lib : Libraries Source Tree} {b : Boot} {payload : Bytes}
    {blobs : List Bytes} (apart : b.kernelCompression = .none → blobs = []) :
    frontOf lib b payload blobs = packedFront lib b payload := by
  unfold frontOf
  split
  next plain => rw [packedFront, plain, apart plain, List.flatten_nil, List.append_nil]
  next => rfl

theorem KernelSection.front_prefix {Source Tree : Type} {lib : Libraries Source Tree} {b : Boot} {payload : Bytes}
    {blobs : List Bytes} (kernelSection : KernelSection lib b payload blobs) :
    packedFront lib b payload <+: payload := by
  unfold packedFront
  split
  next gzip => exact StreamOf.pack_prefix (kernelSection.gzip gzip) _
  next lzma => exact StreamOf.pack_prefix (kernelSection.lzma lzma) _
  next => exact List.prefix_rfl

section Front
variable {Source Tree : Type} {lib : Libraries Source Tree} {opts : Options} {b : Boot} {ptr : Region} {size : Nat}
  {check : Bool} {parts : Parts} {payload : Bytes} {blobs : List Bytes} {dtbItems : List (Bytes × Bytes)}
  {base : BootImgHdr}

theorem Contents.kernel_eq (contents : Contents b parts) (kernelSection : KernelSection lib b payload blobs) :
    parts.kernel = payload ++ blobs.flatten := Except.ok.inj (contents.kernel.symm.trans kernelSection.read)

/-- The kernel file, compressed again. -/
theorem kernelFile_compressed (laid : LaidOut ptr size b) (kernelSection : KernelSection lib b payload blobs)
    {file : Bytes} (nonempty : file ≠ []) (small : file.length < 2 ^ 31)
    (unpacked : file = bxxtBootDecompressToFile lib (payload ++ blobs.flatten) b.kernelCompression none) :
    bxxtBootCompressFromFile lib (some file) b.kernelCompression.code = .ok (some (frontOf lib b payload blobs)) := by
  have stream {unpack : Bytes → Bytes} {pack : Bytes → Nat → Bytes}
    (stream : StreamOf unpack pack payload blobs) :
      unpack (payload ++ blobs.flatten) ++ (Option.getD none []).drop (unpack (payload ++ blobs.flatten)).length =
        unpack payload := by
    rw [stream.stops]
    simp
  rw [bxxtBootCompressFromFile_small lib _ nonempty small, compressed_small lib _ small]
  rcases detected_cases laid.kernelCompression with plain | gzip | lzma
  · rw [plain] at unpacked
    have same : file = payload ++ blobs.flatten := unpacked.trans (by simp [bxxtBootDecompressToFile])
    rw [plain, frontOf, if_pos plain, same]
    rfl
  · rw [gzip] at unpacked
    have same : file = lib.gunzip payload := unpacked.trans (stream (kernelSection.gzip gzip))
    have front : frontOf lib b payload blobs = lib.gzip (lib.gunzip payload) (lib.gunzip payload).length := by
      rw [frontOf, if_neg (by simp [gzip]), packedFront, gzip]
    rw [front, gzip, same]
    rfl
  · rw [lzma] at unpacked
    have same : file = lib.unlzma payload := unpacked.trans (stream (kernelSection.lzma lzma))
    have front : frontOf lib b payload blobs = lib.lzma (lib.unlzma payload) (lib.unlzma payload).length := by
      rw [frontOf, if_neg (by simp [lzma]), packedFront, lzma]
    rw [front, lzma, same]
    rfl

theorem kernel_reads (accepted : Accepted lib.sha1 opts ptr size check b)
    (kernelSection : KernelSection lib b payload blobs) :
    blobs.length ≤ bootMaxDtb ∧ List.Forall₂ (fun entry blob => b.read entry.ptr entry.size = .ok blob)
      b.kernelDtb blobs := by
  have slices {addr count : Nat} : b.read addr count = ptr.slice addr count := by rw [Boot.read, accepted.laidOut.mm]
  have read := kernelSection.read
  rw [slices] at read
  obtain ⟨room, reads⟩ := recorded_behind kernelSection.noTree kernelSection.trees read accepted.kernelDtb
  exact ⟨room, reads.imp fun entry blob read => slices.trans read⟩

theorem dtb_reads (accepted : Accepted lib.sha1 opts ptr size check b) (around : Surroundings b dtbItems) :
    List.Forall₂ (fun entry blob => b.read entry.ptr entry.size = .ok blob) b.dtb (dtbItems.map Prod.snd) ∧
      (∀ blob ∈ dtbItems.map Prod.snd, WellFormedDtb blob) ∧ (dtbItems.map Prod.snd).length ≤ bootMaxDtb := by
  have slices {addr count : Nat} : b.read addr count = ptr.slice addr count := by rw [Boot.read, accepted.laidOut.mm]
  obtain ⟨data, tail, read, gapped⟩ := around.dtb
  rw [slices] at read
  obtain ⟨more, memory⟩ := Region.memory_of_slice read
  have count := Region.length_of_slice read
  have small := b.dtbSize.toNat_lt
  rw [← count] at small
  have found := bxxtBootParseDtbSections_gapped gapped memory small
  rw [count, accepted.dtb] at found
  rw [gapped.shape] at memory
  have reads := gappedEntries_read memory
  rw [← Except.ok.inj found] at reads
  refine ⟨List.forall₂_map_right_iff.mpr (reads.imp fun entry item read => slices.trans read), ?_, ?_⟩
  · intro blob member
    obtain ⟨item, inside, rfl⟩ := List.mem_map.mp member
    exact gapped.blobs item inside
  · rw [List.length_map]
    exact gapped.room

/-- The sections that an unpacked image is packed to. -/
theorem packs_unpacked_iff (recompiles : ∀ blob ∈ blobs ++ dtbItems.map Prod.snd, Recompiles lib blob)
    (accepted : Accepted lib.sha1 opts ptr size check b) (kernelSection : KernelSection lib b payload blobs)
    (around : Surroundings b dtbItems) (contents : Contents b parts) {kernelSources sources : List Source}
    (kernelDecompiled : List.Forall₂ (Decompiles lib b) b.kernelDtb kernelSources)
    (decompiled : List.Forall₂ (Decompiles lib b) b.dtb sources) {sections : Sections} :
    Packs lib opts (unpackedDir lib b parts kernelSources sources) sections ↔
      bxxtBootDecompressToFile lib parts.kernel b.kernelCompression none ≠ [] ∧
        (bxxtBootDecompressToFile lib parts.kernel b.kernelCompression none).length < 2 ^ 31 ∧
        sections = repacked lib opts b parts (frontOf lib b payload blobs) blobs (dtbItems.map Prod.snd) ∧
        ∀ data ∈ sections.list, data.length < 2 ^ 31 := by
  have laid := accepted.laidOut
  obtain ⟨kernelRecompiles, dtbRecompiles⟩ := List.forall_mem_append.mp recompiles
  -- the trees of both sections come back from their files
  obtain ⟨room, kernelReads⟩ := kernel_reads accepted kernelSection
  obtain ⟨dtbReads, _, dtbRoom⟩ := dtb_reads accepted around
  have kernelCompiled (result : Bytes) :=
    @compiled_back _ _ _ _ _ _ _ result kernelRecompiles kernelReads room kernelDecompiled
  have dtbCompiled (result : Bytes) := @compiled_back _ _ _ _ _ _ _ result dtbRecompiles dtbReads dtbRoom decompiled
  have scanned : packCompression (unpackedDir lib b parts kernelSources sources) = .ok b.kernelCompression.code :=
    Exec.bind_eq_ok.mpr ⟨_, around.compression, rfl⟩
  have kernelFile (nonempty : bxxtBootDecompressToFile lib parts.kernel b.kernelCompression none ≠ [])
      (small : (bxxtBootDecompressToFile lib parts.kernel b.kernelCompression none).length < 2 ^ 31) :=
    kernelFile_compressed laid kernelSection nonempty small (by rw [contents.kernel_eq kernelSection])
  constructor
  · intro packs
    obtain ⟨_, again, packed⟩ := packs.kernel
    rw [scanned] at again
    cases again
    obtain ⟨tmp, dt, ran, compiled, _, kernel⟩ := (packKernel_iff ..).mp packed
    obtain ⟨_, rfl⟩ := (kernelCompiled dt).mp compiled
    obtain ⟨tree, ⟨⟩, ramdisk⟩ := packs.ramdisk
    obtain ⟨_, dtb⟩ := (dtbCompiled _).mp packs.dtb
    rw [unpackedDir] at ran
    have nonempty : bxxtBootDecompressToFile lib parts.kernel b.kernelCompression none ≠ [] := by
      intro empty
      rw [empty] at ran
      cases ran
    have small : (bxxtBootDecompressToFile lib parts.kernel b.kernelCompression none).length < 2 ^ 31 := by
      by_contra long
      have front := bxxtBootCompressFromFile_long lib (Nat.not_lt.mp long) ran
      have short := packs.short sections.kernel (by simp [Sections.list])
      rw [kernel, List.length_append] at short
      omega
    rw [kernelFile nonempty small] at ran
    cases ran
    refine ⟨nonempty, small, ?_, packs.short⟩
    cases sections
    simp only [repacked, Sections.mk.injEq]
    exact ⟨kernel, ramdisk, packs.second, packs.recoveryDtbo, dtb, packs.extra⟩
  · rintro ⟨nonempty, small, rfl, short⟩
    have sizes := short
    simp only [Sections.list, repacked, List.forall_mem_cons, List.not_mem_nil, false_implies, implies_true, and_true]
      at sizes
    obtain ⟨kernelShort, _, _, _, dtbShort, _⟩ := sizes
    rw [List.length_append] at kernelShort
    have front := kernelFile nonempty small
    have trees := (kernelCompiled _).mpr ⟨short_of_flatten (by omega), rfl⟩
    constructor
    case kernel => exact ⟨_, scanned, (packKernel_iff ..).mpr ⟨_, _, front, trees, by omega, rfl⟩⟩
    case ramdisk => exact ⟨_, rfl, rfl⟩
    case second => rfl
    case recoveryDtbo => rfl
    case dtb => exact (dtbCompiled _).mpr ⟨short_of_flatten dtbShort, rfl⟩
    case extra => rfl
    case short => exact short

end Front

section Preserved
variable {Source Tree : Type} {lib : Libraries Source Tree} {opts : Options} {b : Boot} {content : Bytes}
  {parts : Parts} {payload : Bytes} {blobs : List Bytes} {dtbItems : List (Bytes × Bytes)} {base : BootImgHdr}

theorem trees_of_packed {dir : Dir Source Tree} {base : BootImgHdr} {sections : Sections} {id : Vector UInt8 32}
    {image : Bytes} {again : Boot} (packed : Packed lib opts dir base sections id image)
    (header : BootImgHdr.size ≤ base.pageSize.toNat)
    (opened : bxxtBootOpenFile lib.sha1 opts bxxtBootNew (some image) = .ok (bxxtSuccess, again))
    (absent : ¬ fdtMagic <:+: payload) (formed : ∀ blob ∈ blobs, WellFormedDtb blob)
    (kernel : sections.kernel = payload ++ blobs.flatten) :
    List.Forall₂ (fun entry blob => again.read entry.ptr entry.size = .ok blob) again.kernelDtb blobs := by
  obtain ⟨_, accepted, selects⟩ := packed.selects_of_open header opened
  have slices {addr count : Nat} : again.read addr count = (Region.ofFile image).slice addr count := by
    rw [Boot.read, accepted.laidOut.mm]
  have read := selects.kernel
  rw [slices, kernel] at read
  exact (recorded_behind absent formed read accepted.kernelDtb).2.imp fun entry blob read => slices.trans read

/-- A section of an image that is written is shorter than 2 GiB. -/
theorem sections_short {base : BootImgHdr} {sections : Sections} (header : BootImgHdr.size ≤ base.pageSize.toNat)
    (hdr : BootImgHdr) (total : (imageOf base.pageSize.toNat hdr sections.list).length ≤ writeMax) :
    ∀ data ∈ sections.list, data.length < 2 ^ 31 := by
  have bound : writeMax < 2 ^ 31 := by decide
  exact fun data member => lt_of_le_of_lt (le_trans (length_section_le header hdr member) total) bound

/-- What was packed again is repackable, and a kernel file with the trees in it is packed
with the trees once more. -/
theorem apart_of_preserved (recompiles : ∀ blob ∈ blobs ++ dtbItems.map Prod.snd, Recompiles lib blob)
    (opened : bxxtBootOpenFile lib.sha1 opts bxxtBootNew (some content) = .ok (bxxtSuccess, b))
    (kernelSection : KernelSection lib b payload blobs) (around : Surroundings b dtbItems)
    (preserved : Preserved lib opts content blobs) :
    (∀ blob ∈ blobs ++ dtbItems.map Prod.snd, lib.bxxtDtccDtbToSource blob ≠ none) ∧
      (b.kernelCompression = .none → blobs = []) ∧
      ∃ parts base, Repackable lib opts b parts payload blobs (dtbItems.map Prod.snd) base := by
  obtain ⟨out, image, again, unpacked, packed, reopened, found⟩ := preserved
  obtain ⟨_, same, _, accepted⟩ := bxxtBootOpenFile_iff.mp opened
  cases same
  obtain ⟨_, openedAgain, ran⟩ := bxxtBootUnpackAll_iff.mp unpacked
  rw [opened] at openedAgain
  cases openedAgain
  obtain ⟨parts, kernelSources, sources, contents, kernelDecompiled, decompiled, rfl⟩ :=
    (unpackFiles_empty_iff accepted.laidOut).mp ran
  have compilable : ∀ blob ∈ blobs ++ dtbItems.map Prod.snd, lib.bxxtDtccDtbToSource blob ≠ none :=
    List.forall_mem_append.mpr ⟨(sources_exist_iff (kernel_reads accepted kernelSection).2).mp
      ⟨_, kernelDecompiled⟩,
      (sources_exist_iff (dtb_reads accepted around).1).mp ⟨_, decompiled⟩⟩
  obtain ⟨base, sections, id, _, read, positive, _, same, written⟩ := packed_of_success packed
  cases same
  have header := around.header base read
  obtain ⟨nonempty, small, rfl, short⟩ :=
    (packs_unpacked_iff recompiles accepted kernelSection around contents kernelDecompiled decompiled).mp written.packs
  have apart : b.kernelCompression = .none → blobs = [] := by
    intro plain
    -- the section begins with the old one, and the trees are behind it once more
    have kernel : (repacked lib opts b parts (frontOf lib b payload blobs) blobs (dtbItems.map Prod.snd)).kernel =
        payload ++ (blobs ++ blobs).flatten := by
      rw [repacked, frontOf, if_pos plain, List.flatten_append, List.append_assoc]
    have twice := trees_of_packed written header reopened kernelSection.noTree
      (show ∀ blob ∈ blobs ++ blobs, WellFormedDtb blob by simpa using kernelSection.trees) kernel
    have count := found.length_eq.symm.trans twice.length_eq
    rw [List.length_append] at count
    exact List.length_eq_zero_iff.mp (by omega)
  rw [frontOf_apart apart] at written
  obtain ⟨hdr, reader, selects⟩ := written.selects_of_open header reopened
  refine ⟨compilable, apart, parts, base, ?_⟩
  constructor
  case contents => exact contents
  case kernel => exact nonempty
  case small => exact small
  case filled =>
    intro empty
    have length : again.kernelSize.toNat = (packedFront lib b payload ++ blobs.flatten).length :=
      length_of_read selects.kernel
    have positive := reader.limits.kernel
    rw [← reader.laidOut.kernelSize, length, empty] at positive
    exact absurd positive (by decide)
  case read => exact read
  case version =>
    have version := reader.supported.version
    rw [hdr] at version
    exact version
  case page_le =>
    have page_le := reader.limits.page_le
    rw [hdr] at page_le
    exact page_le
  case ramdisk =>
    have length : again.ramdiskSize.toNat = (archiveOf lib b parts).length := length_of_read selects.ramdisk
    rw [← length, reader.laidOut.ramdiskSize]
    exact reader.limits.ramdisk_le
  case total =>
    have complete := written.complete
    rw [written.shape, length_imageOf_hdr _ base] at complete
    exact complete

/-- Where they are not in the kernel file as well, packing gives a section in which they are behind
a beginning of the payload. -/
theorem preserved_of_apart (recompiles : ∀ blob ∈ blobs ++ dtbItems.map Prod.snd, Recompiles lib blob)
    (opened : bxxtBootOpenFile lib.sha1 opts bxxtBootNew (some content) = .ok (bxxtSuccess, b))
    (kernelSection : KernelSection lib b payload blobs) (around : Surroundings b dtbItems)
    (compilable : ∀ blob ∈ blobs ++ dtbItems.map Prod.snd, lib.bxxtDtccDtbToSource blob ≠ none)
    (apart : b.kernelCompression = .none → blobs = [])
    (repackable : Repackable lib opts b parts payload blobs (dtbItems.map Prod.snd) base) :
    Preserved lib opts content blobs := by
  obtain ⟨_, same, _, accepted⟩ := bxxtBootOpenFile_iff.mp opened
  cases same
  have laid := accepted.laidOut
  have read := repackable.read
  have header := around.header base read
  obtain ⟨kernelCompilable, dtbCompilable⟩ := List.forall_mem_append.mp compilable
  obtain ⟨room, kernelReads⟩ := kernel_reads accepted kernelSection
  obtain ⟨dtbReads, dtbFormed, dtbRoom⟩ := dtb_reads accepted around
  obtain ⟨kernelSources, kernelDecompiled⟩ := (sources_exist_iff kernelReads).mpr kernelCompilable
  obtain ⟨sources, decompiled⟩ := (sources_exist_iff dtbReads).mpr dtbCompilable
  have unpacked : bxxtBootUnpackAll lib opts (some content) (some Dir.empty) =
      .ok (bxxtSuccess, some (unpackedDir lib b parts kernelSources sources)) :=
    bxxtBootUnpackAll_iff.mpr ⟨b, opened, (unpackFiles_empty_iff laid).mpr
      ⟨parts, kernelSources, sources, repackable.contents, kernelDecompiled, decompiled, rfl⟩⟩
  have packs := (packs_unpacked_iff recompiles accepted kernelSection around repackable.contents kernelDecompiled
    decompiled).mpr ⟨repackable.kernel, repackable.small, rfl,
      frontOf_apart apart ▸ sections_short header _ repackable.total⟩
  rw [frontOf_apart apart] at packs
  have front := kernelSection.front_prefix
  have shorter : (packedFront lib b payload ++ blobs.flatten).length ≤ b.hdr.kernelSize.toNat := by
    rw [← laid.kernelSize, length_of_read kernelSection.read, List.length_append, List.length_append]
    exact Nat.add_le_add_right front.length_le _
  have magic := (bxxtBootHdrFromMetadata_iff.mp read).magic
  have describable :
    Describable base (repacked lib opts b parts (packedFront lib b payload) blobs (dtbItems.map Prod.snd)) :=
    ⟨⟨repackable.version, header, repackable.page_le⟩,
      ⟨List.length_pos_of_ne_nil repackable.filled, le_trans shorter accepted.limits.kernel_le,
        repackable.ramdisk⟩⟩
  have absent : ¬ fdtMagic <:+: packedFront lib b payload :=
    fun inside => kernelSection.noTree (inside.trans front.isInfix)
  have kernelTrees := treesBehind_gapped absent kernelSection.trees room
  have dtbTrees := @treesBehind_gapped [] _ (by decide) dtbFormed dtbRoom
  have total := repackable.total
  rw [length_imageOf_hdr base
    ((repacked lib opts b parts (packedFront lib b payload) blobs (dtbItems.map Prod.snd)).hdr base)] at total
  obtain ⟨image, packed⟩ := @packAll_succeeds _ _ _ opts _ _ _ _ _ _ _ read packs describable total
    kernelTrees dtbTrees
  obtain ⟨_, _, id, _, readAgain, _, _, same, written⟩ := packed_of_success packed
  cases same
  rw [unpackedDir, read] at readAgain
  cases readAgain
  cases written.packs.unique packs
  obtain ⟨again, reopened, _⟩ := written.reopened describable magic opts
  exact ⟨_, image, again, unpacked, packed, reopened,
    trees_of_packed written header reopened absent kernelSection.trees rfl⟩

end Preserved

def kernelOnly (data : Bytes) : Sections := ⟨data, [], [], [], [], []⟩

section Sample
variable {Source Tree : Type} {lib : Libraries Source Tree} {opts : Options} {payload : Bytes} {blobs : List Bytes}

theorem kernelOnly_describable {data : Bytes} (filled : data ≠ []) (page : data.length ≤ 0x1000) :
    Describable pagedHdr (kernelOnly data) :=
  ⟨⟨by decide, by decide, by decide⟩,
    ⟨List.length_pos_of_ne_nil filled, le_trans page (by decide), by simp [kernelOnly]⟩⟩

theorem roundUp_page {size : Nat} (small : size ≤ 0x1000) : roundUp 0x1000 size ≤ 0x1000 := by
  rw [roundUp]
  omega

theorem kernelOnly_length {data : Bytes} (page : data.length ≤ 0x1000) :
    (pagedImage (kernelOnly data)).length ≤ 0x2000 := by
  have empty : roundUp 0x1000 0 = 0 := by decide
  have header : roundUp 0x1000 BootImgHdr.size = 0x1000 := by decide
  have kernel := roundUp_page page
  rw [pagedImage, length_imageOf (by decide)]
  simp only [kernelOnly, List.length_nil, empty, header]
  omega

/-- Nothing is unpacked of the sections that are not there, and the ramdisk is packed from an empty tree. -/
theorem kernelOnly_parts {ptr : Region} {size : Nat} {b : Boot} {parts : Parts} {data : Bytes}
    (laid : LaidOut ptr size b) (hdr : b.hdr = (kernelOnly data).hdr pagedHdr) (contents : Contents b parts) :
    archiveOf lib b parts = lib.bxxtCpioArchiveOut lib.emptyTree ∧ parts.second = none ∧
      parts.recoveryDtbo = none := by
  have ramdisk : b.ramdiskSize = 0 := by
    rw [laid.ramdiskSize, hdr]
    rfl
  have second : b.secondSize = 0 := by
    rw [laid.secondSize, hdr]
    rfl
  have recoveryDtbo : b.recoveryDtboSize = 0 := by
    rw [laid.recoveryDtboSize, hdr]
    rfl
  refine ⟨?_, unpackSection_absent second contents.second, unpackSection_absent recoveryDtbo contents.recoveryDtbo⟩
  rw [archiveOf, ramdisk]
  rfl

theorem kernelOnly_strings {b : Boot} {data : Bytes} (hdr : b.hdr = (kernelOnly data).hdr pagedHdr) :
    PlainStrings b.hdr ∧ Silent b.hdr := by
  have plain := storedBoot_plain 0x1000
  have silent := storedBoot_silent 0x1000
  exact hdr ▸ ⟨⟨plain.name, plain.cmdline, plain.extraCmdline⟩,
    ⟨silent.name, silent.cmdline, silent.extraCmdline⟩⟩

/-- Header, kernel and ramdisk are a page each, and what is behind them is no more than the file was. -/
theorem kernelOnly_total {b : Boot} {parts : Parts} {file : Bytes} {base : BootImgHdr}
    (kernelSection : KernelSection lib b payload blobs) (total : file.length ≤ 0x2000)
    (page : (payload ++ blobs.flatten).length ≤ 0x1000)
    (archive : (lib.bxxtCpioArchiveOut lib.emptyTree).length ≤ 0x1000)
    (archived : archiveOf lib b parts = lib.bxxtCpioArchiveOut lib.emptyTree) (second : parts.second = none)
    (recoveryDtbo : parts.recoveryDtbo = none)
    (extra : (parts.extra.getD []).length ≤ (Region.ofFile file).mapped.length) :
    (imageOf 0x1000 base (repacked lib opts b parts (packedFront lib b payload) blobs []).list).length ≤
      writeMax := by
  have empty : roundUp 0x1000 0 = 0 := by decide
  have header : roundUp 0x1000 BootImgHdr.size = 0x1000 := by decide
  have front : (packedFront lib b payload ++ blobs.flatten).length ≤ (payload ++ blobs.flatten).length := by
    rw [List.length_append, List.length_append]
    exact Nat.add_le_add_right kernelSection.front_prefix.length_le _
  have kernel := roundUp_page (le_trans front page)
  have ramdisk := roundUp_page archive
  have behind : roundUp 0x1000 (if opts.skipUnknownData then [] else parts.extra.getD []).length ≤ 0x3000 := by
    have slack : padding 4096 file.length < 4096 := Nat.mod_lt _ (by decide)
    have mapped : (Region.ofFile file).mapped.length = file.length + padding 4096 file.length :=
      Region.length_mapped ..
    rw [roundUp]
    split
    · simp
    · omega
  have bound : 0x7000 ≤ writeMax := by decide
  rw [length_imageOf (by decide)]
  simp only [repacked, archived, second, recoveryDtbo, Option.getD_none, List.flatten_nil,
    List.length_nil, empty, header]
  omega

/-- A kernel section of one page, and no ramdisk to speak of: the image can be packed again. -/
theorem kernelOnly_repackable {kernelCompression : KernelCompression} (two : 2 ≤ (payload ++ blobs.flatten).length)
    (page : (payload ++ blobs.flatten).length ≤ 0x1000)
    (archive : (lib.bxxtCpioArchiveOut lib.emptyTree).length ≤ 0x1000)
    (absent : ¬ fdtMagic <:+: payload) (formed : ∀ blob ∈ blobs, WellFormedDtb blob)
    (count : blobs.length ≤ bootMaxDtb)
    (kind : ∀ b : Boot, b.read b.mmKernelPtr 2 = .ok ((payload ++ blobs.flatten).take 2) →
      bxxtBootDetectKernelCompression b = .ok kernelCompression)
    (gzip : kernelCompression = .gzip → StreamOf lib.gunzip lib.gzip payload blobs)
    (lzma : kernelCompression = .lzma → StreamOf lib.unlzma lib.lzma payload blobs)
    (nonempty : bxxtBootDecompressToFile lib (payload ++ blobs.flatten) kernelCompression none ≠ [])
    (small : (bxxtBootDecompressToFile lib (payload ++ blobs.flatten) kernelCompression none).length < 2 ^ 31)
    (filled : blobs.flatten ≠ []) :
    ∃ b parts, bxxtBootOpenFile lib.sha1 opts bxxtBootNew
      (some (pagedImage (kernelOnly (payload ++ blobs.flatten)))) =
        .ok (bxxtSuccess, b) ∧ b.kernelCompression = kernelCompression ∧ KernelSection lib b payload blobs ∧
      Surroundings b [] ∧ Repackable lib opts b parts payload blobs [] (restoredHdr b.hdr) := by
  have behind : payload ++ blobs.flatten ≠ [] := fun empty => filled (List.append_eq_nil_iff.mp empty).2
  obtain ⟨file, image⟩ : ∃ file, file = pagedImage (kernelOnly (payload ++ blobs.flatten)) := ⟨_, rfl⟩
  have total : file.length ≤ 0x2000 := image ▸ kernelOnly_length page
  have nothing : Gapped [] [] [] := ⟨rfl, by simp, by simp, by decide, by decide⟩
  rw [← image]
  obtain ⟨b, opened, hdr, laid, selects, _, _⟩ := @open_assembled _ _ lib.sha1 opts _ _ _ _ _
    (kernelOnly_describable behind page) rfl image (lt_of_le_of_lt total (by decide))
    (treesBehind_gapped absent formed count) nothing
  obtain ⟨parts, contents⟩ := contents_exist laid.mm selects.kernel selects.ramdisk
  have detected : b.kernelCompression = kernelCompression := by
    have kernel := selects.kernel
    have start := kind b (by rw [Boot.read, laid.mm] at kernel ⊢; exact Region.slice_take kernel two)
    rw [laid.kernelCompression] at start
    exact Except.ok.inj start
  obtain ⟨plain, silent⟩ := kernelOnly_strings hdr
  have read := @hdrFromMetadata_printed _ b.kernelCompression plain silent.unshadowed
  have pageSize : (restoredHdr b.hdr).pageSize.toNat = 0x1000 := by
    rw [hdr]
    rfl
  have version : (restoredHdr b.hdr).headerVersion.toNat = 0 := by
    rw [hdr]
    rfl
  have kernelSection : KernelSection lib b payload blobs :=
    ⟨selects.kernel, absent, formed, fun same => gzip (detected.symm.trans same), fun same =>
      lzma (detected.symm.trans same)⟩
  obtain ⟨archived, second, recoveryDtbo⟩ := @kernelOnly_parts _ _ lib _ _ _ _ _ laid hdr contents
  refine ⟨b, parts, opened, detected, kernelSection, ?_, ?_⟩
  · constructor
    case dtb => exact ⟨[], [], selects.dtb, nothing⟩
    case compression => exact scanMetadata_kernelCompression plain (silent.compressionUnshadowed _)
    case header =>
      intro base again
      rw [read] at again
      cases again
      rw [pageSize]
      decide
  · constructor
    case contents => exact contents
    case kernel => rw [contents.kernel_eq kernelSection, detected]; exact nonempty
    case small => rw [contents.kernel_eq kernelSection, detected]; exact small
    case filled => exact fun empty => filled (List.append_eq_nil_iff.mp empty).2
    case read => exact read
    case version => rw [version]; decide
    case page_le => rw [pageSize]; decide
    case ramdisk => exact archived ▸ le_trans archive (by decide)
    case total =>
      rw [pageSize]
      exact kernelOnly_total kernelSection total page archive archived second recoveryDtbo
        (unpackSection_length laid.mm contents.extra)

end Sample

/-- 64 zero bytes, compressed with `gzip -9`. -/
def gzipStream : Bytes :=
  [0x1f, 0x8b, 0x08, 0, 0, 0, 0, 0, 0x02, 0x03, 0x63, 0x60, 0xa0, 0x0c, 0, 0, 0x36, 0x63, 0x8d, 0x75, 0x40, 0, 0, 0]

def codecLibraries : Libraries Bytes Bytes :=
  { rootLibraries with
    gunzip := fun packed => if gzipStream.isPrefixOf packed then List.replicate 64 0 else packed
    gzip := fun data room => (memoryWrites room [] [if data = List.replicate 64 0 then gzipStream else data]).1
    gzip_length := fun _ room => memoryWrites_inside _ (Nat.zero_le room) }

theorem gzipStream_codec : StreamOf codecLibraries.gunzip codecLibraries.gzip gzipStream [rootBlob] where
  stops := by decide
  inverts := ⟨[gzipStream], by decide, fun _ => rfl⟩

theorem root_recompiles :
    ∀ blob ∈ [rootBlob] ++ ([] : List (Bytes × Bytes)).map Prod.snd, Recompiles rootLibraries blob := by
  intro blob member
  cases List.mem_singleton.mp member
  intro source decompiled
  cases root_decompiles.symm.trans decompiled
  simp [rootLibraries]

end Bxxt.Proofs
