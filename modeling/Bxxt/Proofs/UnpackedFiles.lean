import Bxxt.BootUnpack
import Bxxt.Proofs.ImageBounds

/-! The files that an image is unpacked to. The device trees are decompiled to numbered
files in the order in which they were recorded, and compiled from them in the same order. -/

namespace Bxxt.Proofs
open ByteLayout

section Files
variable {Source Tree : Type} {lib : Libraries Source Tree} {b : Boot}

def Decompiles (lib : Libraries Source Tree) (b : Boot) (entry : BxxtDtb) (source : Source) : Prop :=
  ∃ dtb, b.read entry.ptr entry.size = .ok dtb ∧ lib.bxxtDtccDtbToSource dtb = some source

def writeSources (files : Nat → Option Source) : Nat → List Source → Nat → Option Source
  | _, [] => files
  | ctr, source :: sources => writeSources (Function.update files ctr (some source)) (ctr + 1) sources

/-- The sources replace the files of their numbers and leave the others. -/
theorem writeSources_eq (files : Nat → Option Source) (ctr number : Nat) (sources : List Source) :
    writeSources files ctr sources number =
      if ctr ≤ number ∧ number < ctr + sources.length then sources[number - ctr]? else files number := by
  induction sources generalizing files ctr with
  | nil =>
    rw [if_neg (by simp)]
    rfl
  | cons source sources ih =>
    rw [writeSources, ih, List.length_cons]
    rcases Nat.lt_trichotomy number ctr with before | rfl | behind
    · rw [if_neg (by omega), if_neg (by omega), Function.update_of_ne (by omega)]
    · rw [if_neg (by omega), if_pos (by omega), Function.update_self]
      simp
    · have next : number - ctr = number - (ctr + 1) + 1 := by omega
      rw [next, List.getElem?_cons_succ]
      by_cases inside : number < ctr + 1 + sources.length
      · rw [if_pos ⟨behind, inside⟩, if_pos (by omega)]
      · rw [if_neg (by omega), if_neg (by omega), Function.update_of_ne (by omega)]

theorem bxxtBootDecompileDt2fs_iff {entries : List BxxtDtb} {ctr : Nat} {files result : Nat → Option Source} :
    bxxtBootDecompileDt2fs lib b entries ctr files = .ok result ↔
      ∃ sources, List.Forall₂ (Decompiles lib b) entries sources ∧ result = writeSources files ctr sources := by
  induction entries generalizing ctr files with
  | nil =>
    constructor
    · rintro ⟨⟩
      exact ⟨[], .nil, rfl⟩
    · rintro ⟨sources, decompiled, rfl⟩
      cases decompiled
      rfl
  | cons entry entries ih =>
    rw [bxxtBootDecompileDt2fs, Exec.bind_eq_ok]
    constructor
    · intro ⟨dtb, read, rest⟩
      cases decompiled : lib.bxxtDtccDtbToSource dtb with
      | none => rw [decompiled] at rest; cases rest
      | some source =>
        rw [decompiled] at rest
        obtain ⟨sources, others, rfl⟩ := ih.mp rest
        exact ⟨source :: sources, .cons ⟨dtb, read, decompiled⟩ others, rfl⟩
    · rintro ⟨sources, decompiled, rfl⟩
      cases decompiled with
      | @cons _ source _ sources first others =>
        obtain ⟨dtb, read, same⟩ := first
        refine ⟨dtb, read, ?_⟩
        rw [same]
        exact ih.mpr ⟨sources, others, rfl⟩

/-- Compiling stops at the first number without a file. -/
theorem compileLoop_files {files : Nat → Option Source} {left ctr : Nat} {sources : List Source} {blobs : List Bytes}
    {blob result : Bytes} (written : ∀ index, index < left → files (ctr + index) = sources[index]?)
    (enough : sources.length ≤ left)
    (compiled : List.Forall₂ (fun source dt => lib.bxxtDtccDtbFromSource source = some dt) sources blobs) :
    compileLoop lib files left ctr blob = .ok result ↔
      (∀ dt ∈ blobs, dt.length < 2 ^ 31) ∧ result = blob ++ blobs.flatten := by
  induction left generalizing ctr sources blobs blob with
  | zero =>
    cases compiled with
    | nil => simp [compileLoop, eq_comm]
    | cons => simp at enough
  | succ left ih =>
    have first := written 0 (by omega)
    rw [Nat.add_zero] at first
    rw [compileLoop, first]
    cases compiled with
    | nil => simp [eq_comm]
    | @cons source dt sources blobs same rest =>
      have later : ∀ index, index < left → files (ctr + 1 + index) = sources[index]? := by
        intro index inside
        have next := written (index + 1) (by omega)
        rw [List.getElem?_cons_succ] at next
        rw [← next]
        congr 1
        omega
      have behind (grown : Bytes) := @ih _ _ _ grown later (by simpa using enough) rest
      simp only [List.getElem?_cons_zero, same, Exec.bind_eq_ok, bxxtBufferConcatFromData_iff, behind,
        List.forall_mem_cons, List.flatten_cons]
      constructor
      · rintro ⟨_, ⟨short, rfl⟩, others, rfl⟩
        exact ⟨⟨short, others⟩, List.append_assoc ..⟩
      · rintro ⟨⟨short, others⟩, rfl⟩
        exact ⟨_, ⟨short, rfl⟩, others, (List.append_assoc ..).symm⟩

theorem compileLoop_extends {files : Nat → Option Source} {left ctr : Nat} {blob result : Bytes}
    (run : compileLoop lib files left ctr blob = .ok result) : blob <+: result := by
  induction left generalizing ctr blob with
  | zero => cases run; exact List.prefix_rfl
  | succ left ih =>
    rw [compileLoop] at run
    split at run
    next => cases run; exact List.prefix_rfl
    next source =>
      split at run
      next => cases run
      next dt _ =>
        obtain ⟨grown, appended, rest⟩ := Exec.bind_eq_ok.mp run
        obtain ⟨_, rfl⟩ := bxxtBufferConcatFromData_iff.mp appended
        exact (List.prefix_append blob dt).trans (ih rest)

theorem compileFs2blob_empty_iff (nonempty : ∀ source dt, lib.bxxtDtccDtbFromSource source = some dt → dt ≠ [])
    {files : Nat → Option Source} : bxxtBootCompileFs2blob lib files = .ok [] ↔ files 0 = none := by
  rw [bxxtBootCompileFs2blob, compileLoop]
  cases first : files 0 with
  | none => simp
  | some source =>
    simp only [reduceCtorEq, iff_false]
    cases compiled : lib.bxxtDtccDtbFromSource source with
    | none => simp
    | some dt =>
      intro run
      obtain ⟨grown, appended, rest⟩ := Exec.bind_eq_ok.mp run
      obtain ⟨_, same⟩ := bxxtBufferConcatFromData_iff.mp appended
      have nothing := List.prefix_nil.mp (compileLoop_extends rest)
      rw [nothing] at same
      exact nonempty source dt compiled same.symm

/-- Every element has a partner, if and only if there is a list of partners. -/
theorem forall₂_exists_iff {α β : Type} {related : α → β → Prop} {as : List α} :
    (∃ bs, List.Forall₂ related as bs) ↔ ∀ a ∈ as, ∃ b, related a b := by
  constructor
  · rintro ⟨bs, all⟩
    induction all with
    | nil => exact List.forall_mem_nil _
    | cons here _ ih => exact List.forall_mem_cons.mpr ⟨⟨_, here⟩, ih⟩
  · intro all
    induction as with
    | nil => exact ⟨[], .nil⟩
    | cons a as ih =>
      obtain ⟨⟨b, here⟩, rest⟩ := List.forall_mem_cons.mp all
      obtain ⟨bs, others⟩ := ih rest
      exact ⟨b :: bs, .cons here others⟩

theorem unpackSection_total {ptr : Region} (mm : b.mm = some ptr) (addr : Nat) (size : UInt32) (old : Option Bytes) :
    ∃ file, unpackSection b addr size old = .ok file := by
  rw [unpackSection, mm]
  split <;> exact ⟨_, rfl⟩

theorem unpackSection_absent {addr : Nat} {size : UInt32} {file : Option Bytes} (absent : size = 0)
    (unpacked : unpackSection b addr size none = .ok file) : file = none := by
  rw [unpackSection, if_pos absent] at unpacked
  exact (Except.ok.inj unpacked).symm

theorem unpackSection_length {ptr : Region} {addr : Nat} {size : UInt32} {file : Option Bytes} (mm : b.mm = some ptr)
    (unpacked : unpackSection b addr size none = .ok file) : (file.getD []).length ≤ ptr.mapped.length := by
  rw [unpackSection, mm] at unpacked
  split at unpacked
  next => cases unpacked; exact Nat.zero_le _
  next =>
    cases unpacked
    simp only [bxxtBootWriteTo, ↓reduceIte, Option.getD_some, List.length_take, List.length_drop]
    omega

theorem bxxtBootUnpackFiles_iff {dir out : Dir Source Tree} {ptr : Region} {size : Nat} (laid : LaidOut ptr size b) :
    bxxtBootUnpackFiles lib b dir = .ok out ↔
      ∃ packed recoveryDtbo second extraData kernelSources sources fs,
        b.read b.mmKernelPtr b.kernelSize.toNat = .ok packed ∧
        unpackSection b b.mmRecoveryDtboPtr b.recoveryDtboSize dir.recoveryDtbo = .ok recoveryDtbo ∧
        unpackSection b b.mmSecondPtr b.secondSize dir.second = .ok second ∧
        unpackSection b b.mmPadPtr b.padSize dir.extraData = .ok extraData ∧
        List.Forall₂ (Decompiles lib b) b.kernelDtb kernelSources ∧
          List.Forall₂ (Decompiles lib b) b.dtb sources ∧
        b.read b.mmRamdiskPtr b.ramdiskSize.toNat = .ok fs ∧
        out = { metadata := some (KeyedLines.render (metaEntries b b.kernelCompression))
                kernel := some (bxxtBootDecompressToFile lib packed b.kernelCompression dir.kernel)
                recoveryDtbo, second, extraData
                kernelDts := writeSources dir.kernelDts 0 kernelSources
                dts := writeSources dir.dts 0 sources
                ramdisk := some (if b.ramdiskSize > 0 then lib.bxxtCpioArchiveIn fs (dir.ramdisk.getD lib.emptyTree)
                  else dir.ramdisk.getD lib.emptyTree) } := by
  have printed : bxxtBootPrintMetaInfoFile b = .ok (KeyedLines.render (metaEntries b b.kernelCompression)) := by
    rw [bxxtBootPrintMetaInfoFile, laid.kernelCompression]
    rfl
  simp only [bxxtBootUnpackFiles, Exec.bind_eq_ok, printed, bxxtBootDecompileDt2fs_iff]
  constructor
  · rintro ⟨packed, kernel, recoveryDtbo, unpacked, second, unpacked2, extraData, unpacked3, _,
      ⟨kernelSources, decompiled, rfl⟩,
      _, ⟨sources, decompiled2, rfl⟩, fs, ramdisk, _, ⟨⟩, ⟨⟩⟩
    exact ⟨packed, recoveryDtbo, second, extraData, kernelSources, sources, fs, kernel, unpacked,
      unpacked2, unpacked3,
      decompiled, decompiled2, ramdisk, rfl⟩
  · rintro ⟨packed, recoveryDtbo, second, extraData, kernelSources, sources, fs, kernel, unpacked,
      unpacked2, unpacked3,
      decompiled, decompiled2, ramdisk, rfl⟩
    exact ⟨packed, kernel, recoveryDtbo, unpacked, second, unpacked2, extraData, unpacked3, _,
      ⟨kernelSources, decompiled, rfl⟩,
      _, ⟨sources, decompiled2, rfl⟩, fs, ramdisk, _, rfl, rfl⟩

theorem bxxtBootUnpackAll_iff {opts : Options} {name : Option Bytes} {dir out : Dir Source Tree} :
    bxxtBootUnpackAll lib opts name (some dir) = .ok (bxxtSuccess, some out) ↔
      ∃ b, bxxtBootOpenFile lib.sha1 opts bxxtBootNew name = .ok (bxxtSuccess, b) ∧
        bxxtBootUnpackFiles lib b { dir with metadata := some [] } = .ok out := by
  rw [bxxtBootUnpackAll, Exec.bind_eq_ok]
  constructor
  · intro ⟨⟨r, b⟩, opened, rest⟩
    dsimp only at rest
    split at rest
    next other =>
      have same := congrArg Prod.fst (Except.ok.inj rest)
      exact absurd same other
    next success =>
      obtain ⟨unpacked, ran, rest⟩ := Exec.bind_eq_ok.mp rest
      cases rest
      rw [not_not.mp success] at opened
      exact ⟨b, opened, ran⟩
  · intro ⟨b, opened, ran⟩
    refine ⟨_, opened, ?_⟩
    dsimp only
    rw [if_neg (by simp), ran]
    rfl

/-- The parts of an image that are unpacked: the kernel and the ramdisk as they are read,
and the files that the other sections are written to. -/
structure Parts where
  kernel : Bytes
  ramdisk : Bytes
  second : Option Bytes
  recoveryDtbo : Option Bytes
  extra : Option Bytes

structure Contents (b : Boot) (parts : Parts) : Prop where
  kernel : b.read b.mmKernelPtr b.kernelSize.toNat = .ok parts.kernel
  ramdisk : b.read b.mmRamdiskPtr b.ramdiskSize.toNat = .ok parts.ramdisk
  second : unpackSection b b.mmSecondPtr b.secondSize none = .ok parts.second
  recoveryDtbo : unpackSection b b.mmRecoveryDtboPtr b.recoveryDtboSize none = .ok parts.recoveryDtbo
  extra : unpackSection b b.mmPadPtr b.padSize none = .ok parts.extra

/-- What an image with these parts and trees is unpacked to in an empty directory. -/
def unpackedDir (lib : Libraries Source Tree) (b : Boot) (parts : Parts) (kernelSources sources : List Source) :
    Dir Source Tree where
  metadata := some (KeyedLines.render (metaEntries b b.kernelCompression))
  kernel := some (bxxtBootDecompressToFile lib parts.kernel b.kernelCompression none)
  recoveryDtbo := parts.recoveryDtbo
  second := parts.second
  extraData := parts.extra
  kernelDts := writeSources (fun _ => none) 0 kernelSources
  dts := writeSources (fun _ => none) 0 sources
  ramdisk := some (if b.ramdiskSize > 0 then lib.bxxtCpioArchiveIn parts.ramdisk lib.emptyTree else lib.emptyTree)

theorem unpackFiles_empty_iff {ptr : Region} {size : Nat} {out : Dir Source Tree} (laid : LaidOut ptr size b) :
    bxxtBootUnpackFiles lib b { (Dir.empty : Dir Source Tree) with metadata := some [] } = .ok out ↔
      ∃ parts kernelSources sources, Contents b parts ∧
        List.Forall₂ (Decompiles lib b) b.kernelDtb kernelSources ∧
        List.Forall₂ (Decompiles lib b) b.dtb sources ∧ out = unpackedDir lib b parts kernelSources sources := by
  simp only [bxxtBootUnpackFiles_iff laid, Dir.empty]
  constructor
  · rintro ⟨kernel, recoveryDtbo, second, extra, kernelSources, sources, ramdisk, read, unpacked,
      unpacked2, unpacked3,
      kernelTrees, trees, fs, rfl⟩
    exact ⟨⟨kernel, ramdisk, second, recoveryDtbo, extra⟩, kernelSources, sources,
      ⟨read, fs, unpacked2, unpacked, unpacked3⟩, kernelTrees, trees, rfl⟩
  · rintro ⟨parts, kernelSources, sources, contents, kernelTrees, trees, rfl⟩
    exact ⟨parts.kernel, parts.recoveryDtbo, parts.second, parts.extra, kernelSources, sources, parts.ramdisk,
      contents.kernel, contents.recoveryDtbo, contents.second, contents.extra, kernelTrees, trees,
        contents.ramdisk, rfl⟩

theorem contents_exist {ptr : Region} {kernel ramdisk : Bytes} (mm : b.mm = some ptr)
    (kernelRead : b.read b.mmKernelPtr b.kernelSize.toNat = .ok kernel)
    (ramdiskRead : b.read b.mmRamdiskPtr b.ramdiskSize.toNat = .ok ramdisk) : ∃ parts, Contents b parts := by
  obtain ⟨second, unpacked⟩ := unpackSection_total mm b.mmSecondPtr b.secondSize none
  obtain ⟨recoveryDtbo, unpacked2⟩ := unpackSection_total mm b.mmRecoveryDtboPtr b.recoveryDtboSize none
  obtain ⟨extra, unpacked3⟩ := unpackSection_total mm b.mmPadPtr b.padSize none
  exact ⟨⟨kernel, ramdisk, second, recoveryDtbo, extra⟩, kernelRead, ramdiskRead, unpacked,
    unpacked2, unpacked3⟩

end Files

section Assembled
variable {Source Tree : Type} {lib : Libraries Source Tree} {opts : Options}

def Sources (lib : Libraries Source Tree) (items : List (Bytes × Bytes)) (sources : List Source) : Prop :=
  List.Forall₂ (fun item source => lib.bxxtDtccDtbToSource item.2 = some source) items sources

theorem forall₂_join {α β γ : Type} {first : α → β → Prop} {second : β → γ → Prop}
    {both : α → γ → Prop} {as : List α} {bs : List β} {cs : List γ} (left : List.Forall₂ first as bs)
    (right : List.Forall₂ second bs cs) (joins : ∀ a b c, first a b → second b c → both a c) :
    List.Forall₂ both as cs := by
  induction left generalizing cs with
  | nil =>
    cases right
    exact .nil
  | cons here _ ih =>
    cases right with
    | cons there rest => exact .cons (joins _ _ _ here there) (ih rest)

/-- What is recorded of a section of trees is decompiled like the trees. -/
theorem decompiles_of_gapped {b : Boot} {ptr : Region} {addr count : Nat} {data tail : Bytes}
    {items : List (Bytes × Bytes)} {sources : List Source} (mm : b.mm = some ptr) (trees : Gapped data items tail)
    (read : b.read addr count = .ok data) (decompiled : Sources lib items sources) :
    List.Forall₂ (Decompiles lib b) (gappedEntries addr items) sources := by
  rw [Boot.read, mm] at read
  obtain ⟨more, memory⟩ := Region.memory_of_slice read
  rw [trees.shape] at memory
  refine forall₂_join (gappedEntries_read memory) decompiled ?_
  intro entry item source selected same
  exact ⟨item.2, by rw [Boot.read, mm]; exact selected, same⟩

/-- An image of sections whose trees can be decompiled is unpacked. -/
theorem unpack_assembled {base : BootImgHdr} {sections : Sections} {file : Bytes}
    {kernelItems dtbItems : List (Bytes × Bytes)} {kernelTail dtbTail : Bytes} {kernelSources sources : List Source}
    (describable : Describable base sections) (magic : base.magic = bootMagic)
    (image : file = imageOf base.pageSize.toNat (sections.hdr base) sections.list) (total : file.length ≤ writeMax)
    (kernelTrees : Gapped sections.kernel kernelItems kernelTail) (dtbTrees : Gapped sections.dtb dtbItems dtbTail)
    (kernelDecompiled : Sources lib kernelItems kernelSources) (decompiled : Sources lib dtbItems sources) :
    ∃ b parts, bxxtBootOpenFile lib.sha1 opts bxxtBootNew (some file) = .ok (bxxtSuccess, b) ∧
      Selects (Region.ofFile file) b base.pageSize.toNat sections ∧ b.dtb = gappedEntries b.mmDtbPtr dtbItems ∧
      bxxtBootUnpackAll lib opts (some file) (some Dir.empty) =
        .ok (bxxtSuccess, some (unpackedDir lib b parts kernelSources sources)) := by
  have bound : writeMax < 2 ^ 31 := by decide
  obtain ⟨b, opened, _, laid, selects, kernelFound, found⟩ :=
    @open_assembled _ _ lib.sha1 opts _ _ _ _ _ describable
    magic image (lt_of_le_of_lt total bound) kernelTrees dtbTrees
  obtain ⟨parts, contents⟩ := contents_exist laid.mm selects.kernel selects.ramdisk
  refine ⟨b, parts, opened, selects, found, ?_⟩
  refine bxxtBootUnpackAll_iff.mpr ⟨b, opened, ?_⟩
  refine (unpackFiles_empty_iff laid).mpr ⟨parts, kernelSources, sources, contents, ?_, ?_, rfl⟩
  · exact kernelFound ▸ decompiles_of_gapped laid.mm kernelTrees selects.kernel kernelDecompiled
  · exact found ▸ decompiles_of_gapped laid.mm dtbTrees selects.dtb decompiled

end Assembled

def pagedHdr : BootImgHdr := (bootWithCmdline [] 0x1000).hdr

def pagedImage (sections : Sections) : Bytes := imageOf 0x1000 (sections.hdr pagedHdr) sections.list

end Bxxt.Proofs
