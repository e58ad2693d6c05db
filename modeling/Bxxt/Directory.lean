import Bxxt.Metadata

/-! The directory an image is unpacked to, and the libraries that stand between
its files and the sections of an image. A device tree's source and the files of the
ramdisk are whatever types these libraries read and write. -/

namespace Bxxt
open ByteLayout

/-- What the program calls. A filter of the archive library takes back the stream that its input begins
with, and perhaps others behind it; the other way it writes to a buffer of the given size. Where the
device tree compiler has no result it ends the program. -/
structure Libraries (Source Tree : Type) where
  gunzip : Bytes → Bytes
  unlzma : Bytes → Bytes
  gzip : Bytes → Nat → Bytes
  lzma : Bytes → Nat → Bytes
  gzip_length : ∀ data room, (gzip data room).length ≤ room
  lzma_length : ∀ data room, (lzma data room).length ≤ room
  bxxtDtccDtbToSource : Bytes → Option Source
  bxxtDtccDtbFromSource : Source → Option Bytes
  emptyTree : Tree
  bxxtCpioArchiveIn : Bytes → Tree → Tree
  bxxtCpioArchiveOut : Tree → Bytes
  sha1 : Bytes → Vector UInt8 20

/-- The regular files of the directory by their names. The device trees are
`kernel.dts-%02x` and `dt.dts-%02x`. -/
structure Dir (Source Tree : Type) where
  metadata : Option Bytes
  kernel : Option Bytes
  recoveryDtbo : Option Bytes
  second : Option Bytes
  extraData : Option Bytes
  kernelDts : Nat → Option Source
  dts : Nat → Option Source
  ramdisk : Option Tree

def Dir.empty {Source Tree : Type} : Dir Source Tree where
  metadata := none
  kernel := none
  recoveryDtbo := none
  second := none
  extraData := none
  kernelDts := fun _ => none
  dts := fun _ => none
  ramdisk := none

section Files
variable {Source Tree : Type} (lib : Libraries Source Tree)

/-- `bxxt_boot_decompress_to_file`: what the file holds afterwards. It is opened
without `O_TRUNC`. -/
def bxxtBootDecompressToFile (packed : Bytes) (compression : KernelCompression) (old : Option Bytes) : Bytes :=
  let data := match compression with
    | .gzip => lib.gunzip packed
    | .lzma => lib.unlzma packed
    | _ => packed
  data ++ (old.getD []).drop data.length

/-- What the filters of `bxxt_boot_compress_from_file` leave in the buffer, which is
as large as the file. One `archive_write_data` takes `INT_MAX` bytes at most. -/
def compressed (data : Bytes) (compression : UInt32) : Bytes :=
  let taken := data.take intMax
  if compression = KernelCompression.gzip.code then lib.gzip taken data.length
  else if compression = KernelCompression.lzma.code then lib.lzma taken data.length
  else taken

/-- `bxxt_boot_compress_from_file`. The final resize computes in `int`. -/
def bxxtBootCompressFromFile (file : Option Bytes) (compression : UInt32) : Exec (Option Bytes) :=
  match bxxtFileOpenMm file with
  | none => .ok none
  | some sf =>
    let data := sf.bytes
    let out := compressed lib data compression
    let buffer := out ++ List.replicate (data.length - out.length) 0
    let adjSize := asInt out.length - asInt data.length
    if adjSize < -2 ^ 31 ∨ 2 ^ 31 ≤ adjSize then .error .intOverflow
    else match bxxtBufferResize buffer adjSize with
      | none => .error .nullPointer
      | some resized => .ok (some resized)

/-- `bxxt_boot_decompile_dt2fs`, from file number `ctr` on. -/
def bxxtBootDecompileDt2fs (b : Boot) : List BxxtDtb → Nat → (Nat → Option Source) →
    Exec (Nat → Option Source)
  | [], _, files => .ok files
  | entry :: rest, ctr, files => do
    let dtb ← b.read entry.ptr entry.size
    match lib.bxxtDtccDtbToSource dtb with
    | none => throw .exited
    | some source => bxxtBootDecompileDt2fs b rest (ctr + 1) (Function.update files ctr (some source))

/-- The loop of `bxxt_boot_compile_fs2blob`, with the number of files it may still
look for. -/
def compileLoop (files : Nat → Option Source) : Nat → Nat → Bytes → Exec Bytes
  | 0, _, blob => .ok blob
  | left + 1, ctr, blob =>
    match files ctr with
    | none => .ok blob
    | some source =>
      match lib.bxxtDtccDtbFromSource source with
      | none => .error .exited
      | some dt => do
        let blob ← bxxtBufferConcatFromData (some blob) dt
        compileLoop files left (ctr + 1) blob

def bxxtBootCompileFs2blob (files : Nat → Option Source) : Exec Bytes := compileLoop lib files 0xff 0 []

def bxxtBootReadFrom (file : Option Bytes) : Exec Bytes :=
  match bxxtFileOpenMm file with
  | none => .ok []
  | some sf => bxxtBufferConcatFromData (some []) sf.bytes

theorem length_compressed (data : Bytes) (compression : UInt32) :
    (compressed lib data compression).length ≤ data.length := by
  unfold compressed
  split
  · exact lib.gzip_length ..
  · split
    · exact lib.lzma_length ..
    · exact List.length_take_le' ..

theorem compressed_small {data : Bytes} (compression : UInt32) (small : data.length < 2 ^ 31) :
    compressed lib data compression =
    if compression = KernelCompression.gzip.code then lib.gzip data data.length
    else if compression = KernelCompression.lzma.code then lib.lzma data data.length
    else data := by
  have taken : data.take intMax = data := List.take_of_length_le (Nat.le_pred_of_lt small)
  rw [compressed, taken]

/-- Below 2 GiB the resize cuts the buffer to what was written. -/
theorem bxxtBootCompressFromFile_small {data : Bytes} (compression : UInt32) (nonempty : data ≠ [])
    (small : data.length < 2 ^ 31) :
    bxxtBootCompressFromFile lib (some data) compression = .ok (some (compressed lib data compression)) := by
  have shorter := length_compressed lib data compression
  have adjust : asInt (compressed lib data compression).length - asInt data.length =
      ((compressed lib data compression).length : Int) - data.length := by
    rw [asInt_of_small small, asInt_of_small (by omega)]
  have resized : bxxtBufferResize (compressed lib data compression ++
      List.replicate (data.length - (compressed lib data compression).length) 0)
      (((compressed lib data compression).length : Int) - data.length) = some (compressed lib data compression) := by
    unfold bxxtBufferResize
    simp only [List.length_append, List.length_replicate, Nat.add_sub_cancel' shorter]
    rw [if_neg (by omega)]
    split
    next full =>
      have same : (compressed lib data compression).length = data.length := by omega
      simp [same]
    next =>
      have kept : ((data.length : Int) + (((compressed lib data compression).length : Int) - data.length)).toNat =
          (compressed lib data compression).length := by omega
      rw [kept, List.take_left]
  simp only [bxxtBootCompressFromFile, bxxtFileOpenMm, if_neg nonempty, Region.ofFile_bytes, adjust, resized]
  rw [if_neg (by omega)]

theorem bxxtBootCompressFromFile_some {file : Bytes} {compression : UInt32} {result : Option Bytes}
    (nonempty : file ≠ []) (run : bxxtBootCompressFromFile lib (some file) compression = .ok result) :
    ∃ buffer, result = some buffer := by
  unfold bxxtBootCompressFromFile at run
  simp only [bxxtFileOpenMm, if_neg nonempty] at run
  split at run
  next => cases run
  next =>
    split at run
    next => cases run
    next => exact ⟨_, (Except.ok.inj run).symm⟩

/-- The buffer is what the filter left in it and zeros, cut or made longer. -/
theorem bxxtBootCompressFromFile_resized {file buffer : Bytes} {compression : UInt32}
    (run : bxxtBootCompressFromFile lib (some file) compression = .ok (some buffer)) :
    bxxtBufferResize (compressed lib file compression ++
      List.replicate (file.length - (compressed lib file compression).length) 0)
      (asInt (compressed lib file compression).length - asInt file.length) = some buffer := by
  by_cases empty : file = []
  · rw [empty] at run
    cases run
  · unfold bxxtBootCompressFromFile at run
    simp only [bxxtFileOpenMm, if_neg empty] at run
    change (if asInt (compressed lib file compression).length - asInt file.length < -2 ^ 31 ∨
        2 ^ 31 ≤ asInt (compressed lib file compression).length - asInt file.length then _ else _) = _ at run
    by_cases overflow : asInt (compressed lib file compression).length - asInt file.length < -2 ^ 31 ∨
        2 ^ 31 ≤ asInt (compressed lib file compression).length - asInt file.length
    · rw [if_pos overflow] at run
      cases run
    · rw [if_neg overflow] at run
      split at run
      next => cases run
      next left same => exact same.trans (congrArg some (Option.some.inj (Except.ok.inj run)))

theorem bxxtBootCompressFromFile_filled {file buffer : Bytes} {compression : UInt32}
    (run : bxxtBootCompressFromFile lib (some file) compression = .ok (some buffer)) :
    ∃ count more, buffer ++ more = compressed lib file compression ++ List.replicate count 0 := by
  have resized := bxxtBootCompressFromFile_resized lib run
  unfold bxxtBufferResize at resized
  split at resized
  next => cases resized
  next =>
    split at resized
    next =>
      cases resized
      refine ⟨file.length - (compressed lib file compression).length +
        (asInt (compressed lib file compression).length - asInt file.length).toNat, [], ?_⟩
      rw [List.append_nil, List.append_assoc, ← List.replicate_add]
    next =>
      cases resized
      exact ⟨file.length - (compressed lib file compression).length, _, List.take_append_drop ..⟩

theorem bxxtBootCompressFromFile_long {file buffer : Bytes} {compression : UInt32} (long : 2 ^ 31 ≤ file.length)
    (run : bxxtBootCompressFromFile lib (some file) compression = .ok (some buffer)) : 2 ^ 31 ≤ buffer.length := by
  have length := bxxtBufferResize_length (bxxtBootCompressFromFile_resized lib run)
  have shorter := length_compressed lib file compression
  obtain ⟨lost, wrapped, _⟩ := asInt_spec file.length
  obtain ⟨_, _, least⟩ := asInt_spec (compressed lib file compression).length
  have below := asInt_lt file.length
  rw [List.length_append, List.length_replicate, Nat.add_sub_cancel' shorter] at length
  omega

theorem bxxtBootReadFrom_iff {file : Option Bytes} {content : Bytes} :
    bxxtBootReadFrom file = .ok content ↔ (file.getD []).length < 2 ^ 31 ∧ content = file.getD [] := by
  have nothing : (.ok [] : Exec Bytes) = .ok content ↔ ([] : Bytes).length < 2 ^ 31 ∧ content = [] := by
    constructor
    · rintro ⟨⟩
      exact ⟨by simp, rfl⟩
    · rintro ⟨_, rfl⟩
      rfl
  cases file with
  | none => exact nothing
  | some data =>
    by_cases empty : data = []
    · subst empty
      exact nothing
    · simp only [bxxtBootReadFrom, bxxtFileOpenMm, if_neg empty]
      exact bxxtBufferConcatFromData_iff

end Files
end Bxxt
