import Bxxt.Proofs.NewcStream
import Bxxt.Proofs.PackedImage

/-! Compressing the kernel again. The buffer is as large as the file, what does not fit is refused, and
nobody looks at the refusal: what was written up to there is the kernel. -/

namespace Bxxt
open ByteLayout

/-- A compression filter, by the blocks in which its stream goes to the memory sink, and the filter that
takes the stream back. A filter may look for another stream behind the first one; zeros, which a buffer
that is too long ends in, begin none. -/
structure Compressor where
  blocks : Bytes → List Bytes
  unpack : Bytes → Bytes
  stops : ∀ data count, unpack ((blocks data).flatten ++ List.replicate count 0) = data

namespace Compressor
variable (c : Compressor)

def stream (data : Bytes) : Bytes := (c.blocks data).flatten

/-- What the sink has taken when the filter is closed. A block that it refuses is refused again. -/
def pack (data : Bytes) (room : Nat) : Bytes := (memoryWrites room [] (c.blocks data)).1

theorem pack_length (data : Bytes) (room : Nat) : (c.pack data room).length ≤ room :=
  Proofs.memoryWrites_inside _ (Nat.zero_le room)

theorem pack_fits {data : Bytes} {room : Nat} (fits : (c.stream data).length ≤ room) :
    c.pack data room = c.stream data :=
  congrArg Prod.fst (Proofs.memoryWrites_fits (by rwa [List.length_nil, Nat.zero_add]))

theorem pack_prefix (data : Bytes) (room : Nat) : c.pack data room <+: c.stream data :=
  Proofs.memoryWrites_prefix room [] (c.blocks data)

end Compressor

structure KernelFilters where
  gzip : Compressor
  lzma : Compressor

namespace KernelFilters
variable (filters : KernelFilters)

def within {Source Tree : Type} (lib : Libraries Source Tree) : Libraries Source Tree :=
  { lib with
    gunzip := filters.gzip.unpack
    unlzma := filters.lzma.unpack
    gzip := filters.gzip.pack
    lzma := filters.lzma.pack
    gzip_length := filters.gzip.pack_length
    lzma_length := filters.lzma.pack_length }

def stream (compression : UInt32) (data : Bytes) : Bytes :=
  if compression = KernelCompression.gzip.code then filters.gzip.stream data
  else if compression = KernelCompression.lzma.code then filters.lzma.stream data
  else data

def unpack (compression : UInt32) (packed : Bytes) : Bytes :=
  if compression = KernelCompression.gzip.code then filters.gzip.unpack packed
  else if compression = KernelCompression.lzma.code then filters.lzma.unpack packed
  else packed

end KernelFilters

namespace Proofs
section Kernel
variable {Source Tree : Type} (lib : Libraries Source Tree) (filters : KernelFilters)

/-- A file is packed whole, or packing fails: what comes back has the stream that was made of the file in full and
unpacks to the file. Where nothing comes back no image is written. -/
def CompleteOrFails (file : Option Bytes) (compression : UInt32) : Prop :=
  ∃ result, bxxtBootCompressFromFile (filters.within lib) file compression = .ok result ∧
    match result with
    | some buffer => filters.unpack compression buffer = file.getD [] ∧
        filters.stream compression ((file.getD []).take intMax) <+: buffer
    | none => ∀ opts dir writable image, dir.kernel = file →
        bxxtBootPackAll (filters.within lib) opts dir writable ≠ .ok (bxxtSuccess, image)

/-- A kernel that is packed whole: it is no longer than one write takes, and its stream is no longer
than itself. -/
structure Recompressible (compression : UInt32) (data : Bytes) : Prop where
  taken : data.length ≤ intMax
  fits : (filters.stream compression data).length ≤ data.length

/-- A kernel without compression that ends in zeros from where the write stops. The resize, which counts
modulo 2 ^ 32, leaves the buffer as long as the file. -/
structure ZeroEnded (compression : UInt32) (data : Bytes) : Prop where
  plain : ¬ (compression = KernelCompression.gzip.code ∨ compression = KernelCompression.lzma.code)
  zeros : data = data.take intMax ++ List.replicate (data.length - intMax) 0
  length : data.length % 2 ^ 32 = intMax

variable {lib filters} {data : Bytes} {compression : UInt32}

theorem unmapped_fails {file : Option Bytes} (empty : file.getD [] = []) :
    CompleteOrFails lib filters file compression := by
  have missing (compression : UInt32) : bxxtBootCompressFromFile (filters.within lib) file compression = .ok none := by
    cases file with
    | none => rfl
    | some content =>
      rw [show content = [] from empty]
      rfl
  refine ⟨none, missing compression, ?_⟩
  rintro opts dir writable image rfl run
  obtain ⟨_, sections, _, _, _, _, _, _, packed⟩ := packed_of_success run
  obtain ⟨found, _, kernel⟩ := packed.packs.kernel
  obtain ⟨tmp, _, compressed, _⟩ := (packKernel_iff ..).mp kernel
  rw [missing found] at compressed
  cases compressed

theorem compressed_fits (kept : Recompressible filters compression data) :
    compressed (filters.within lib) data compression = filters.stream compression data := by
  have fits := kept.fits
  rw [compressed_small _ _ (Nat.lt_succ_of_le kept.taken)]
  unfold KernelFilters.stream at fits ⊢
  split
  next gzip =>
    rw [if_pos gzip] at fits
    exact filters.gzip.pack_fits fits
  next other =>
    rw [if_neg other] at fits
    split
    next lzma =>
      rw [if_pos lzma] at fits
      exact filters.lzma.pack_fits fits
    next => rfl

theorem unpack_stream (compression : UInt32) (data : Bytes) (count : Nat)
    (packs : compression = KernelCompression.gzip.code ∨ compression = KernelCompression.lzma.code) :
    filters.unpack compression (filters.stream compression data ++ List.replicate count 0) = data := by
  unfold KernelFilters.unpack KernelFilters.stream
  by_cases gzip : compression = KernelCompression.gzip.code
  · rw [if_pos gzip, if_pos gzip]
    exact filters.gzip.stops data count
  · rw [if_neg gzip, if_neg gzip, if_pos (packs.resolve_left gzip), if_pos (packs.resolve_left gzip)]
    exact filters.lzma.stops data count

theorem compressed_prefix (data : Bytes) (compression : UInt32) :
    compressed (filters.within lib) data compression <+: filters.stream compression (data.take intMax) := by
  unfold compressed KernelFilters.stream
  split
  next => exact filters.gzip.pack_prefix _ _
  next =>
    split
    next => exact filters.lzma.pack_prefix _ _
    next => exact List.prefix_rfl

/-- A buffer that holds the whole stream has only zeros behind it. -/
theorem buffer_stream {file : Bytes} {buffer : Bytes}
    (run : bxxtBootCompressFromFile (filters.within lib) (some file) compression = .ok (some buffer))
    (whole : filters.stream compression (file.take intMax) <+: buffer) :
    ∃ count, buffer = filters.stream compression (file.take intMax) ++ List.replicate count 0 := by
  obtain ⟨missing, stream⟩ : compressed (filters.within lib) file compression <+:
      filters.stream compression (file.take intMax) := compressed_prefix file compression
  obtain ⟨count, more, filled⟩ := bxxtBootCompressFromFile_filled _ run
  obtain ⟨rest, rfl⟩ := whole
  refine ⟨rest.length, ?_⟩
  have zeros : missing ++ (rest ++ more) = List.replicate count 0 := by
    refine @List.append_cancel_left _ (compressed (filters.within lib) file compression) _ _ ?_
    rw [← filled, ← stream]
    simp only [List.append_assoc]
  rw [← (List.append_eq_replicate_iff.mp (List.append_eq_replicate_iff.mp zeros).2.2).2.1]

theorem stream_plain
    (plain : ¬ (compression = KernelCompression.gzip.code ∨ compression = KernelCompression.lzma.code))
    (data : Bytes) : filters.stream compression data = data ∧ filters.unpack compression data = data ∧
      compressed (filters.within lib) data compression = data.take intMax := by
  obtain ⟨gzip, lzma⟩ := not_or.mp plain
  unfold KernelFilters.stream KernelFilters.unpack compressed
  simp only [if_neg gzip, if_neg lzma, and_self]

theorem unpack_own (compression : UInt32) (data : Bytes) :
    filters.unpack compression (filters.stream compression data) = data := by
  by_cases packs : compression = KernelCompression.gzip.code ∨ compression = KernelCompression.lzma.code
  · have whole := @unpack_stream filters compression data 0 packs
    rwa [List.replicate_zero, List.append_nil] at whole
  · obtain ⟨stream, unpack, _⟩ := @stream_plain _ _ storedLibraries filters _ packs data
    rw [stream, unpack]

theorem recompressible_complete (nonempty : data ≠ []) (kept : Recompressible filters compression data) :
    CompleteOrFails lib filters (some data) compression := by
  refine ⟨_, bxxtBootCompressFromFile_small _ compression nonempty (Nat.lt_succ_of_le kept.taken), ?_⟩
  rw [compressed_fits kept]
  refine ⟨unpack_own compression data, ?_⟩
  rw [show (Option.getD (some data) []).take intMax = data from List.take_of_length_le kept.taken]

/-- A long kernel without compression is cut, and the resize fills the buffer up again, or overflows. -/
theorem long_plain_run
    (plain : ¬ (compression = KernelCompression.gzip.code ∨ compression = KernelCompression.lzma.code))
    (long : intMax < data.length) : bxxtBootCompressFromFile (filters.within lib) (some data) compression =
      if 2 ^ 31 ≤ intMax - asInt data.length then .error .intOverflow
      else .ok (some (data.take intMax ++ List.replicate (data.length - intMax) 0 ++
        List.replicate (intMax - asInt data.length).toNat 0)) := by
  have nonempty : data ≠ [] := List.ne_nil_of_length_pos (Nat.zero_lt_of_lt long)
  have taken : (data.take intMax).length = intMax := List.length_take_of_le (Nat.le_of_lt long)
  have used : asInt intMax = intMax := asInt_of_small (by decide)
  have below := asInt_lt data.length
  have most : (intMax : Int) = 2 ^ 31 - 1 := rfl
  unfold bxxtBootCompressFromFile
  simp only [bxxtFileOpenMm, if_neg nonempty, Region.ofFile_bytes, (@stream_plain _ _ lib filters _ plain data).2.2,
    taken, used]
  generalize data.take intMax ++ List.replicate (data.length - intMax) 0 = filled
  obtain ⟨count, grows⟩ := Int.eq_ofNat_of_zero_le (show 0 ≤ intMax - asInt data.length by omega)
  rw [grows, Int.toNat_natCast, bxxtBufferResize_grow]
  by_cases overflow : 2 ^ 31 ≤ (count : Int)
  · rw [if_pos (Or.inr overflow), if_pos overflow]
  · rw [if_neg (by omega), if_neg overflow]

theorem long_plain_iff
    (plain : ¬ (compression = KernelCompression.gzip.code ∨ compression = KernelCompression.lzma.code))
    (long : intMax < data.length) : CompleteOrFails lib filters (some data) compression ↔
    ZeroEnded compression data := by
  obtain ⟨lost, wrapped, _⟩ := asInt_spec data.length
  have below := asInt_lt data.length
  have most : (intMax : Int) = 2 ^ 31 - 1 := rfl
  have taken : (data.take intMax).length = intMax := List.length_take_of_le (Nat.le_of_lt long)
  unfold CompleteOrFails
  rw [long_plain_run plain long]
  constructor
  · rintro ⟨result, run, complete⟩
    split at run
    next => cases run
    next =>
      cases run
      obtain ⟨whole, _⟩ := complete
      rw [(@stream_plain _ _ lib filters _ plain _).2.1] at whole
      have whole : data.take intMax ++ List.replicate (data.length - intMax) 0 ++
        List.replicate (intMax - asInt data.length).toNat 0 = data := whole
      have length := congrArg List.length whole
      rw [List.length_append, List.length_append, List.length_replicate, List.length_replicate, taken] at length
      have none : (intMax - asInt data.length).toNat = 0 := by omega
      rw [none, List.replicate_zero, List.append_nil] at whole
      exact ⟨plain, whole.symm, by omega⟩
  · rintro ended
    have length := ended.length
    have same : asInt data.length = intMax := by omega
    refine ⟨_, if_neg (by omega), ?_⟩
    rw [same, Int.sub_self, Int.toNat_zero, List.replicate_zero, List.append_nil, ← ended.zeros]
    refine ⟨(@stream_plain _ _ lib filters _ plain data).2.1, ?_⟩
    rw [(@stream_plain _ _ lib filters _ plain _).1]
    exact List.take_prefix intMax data

/-- Packing the kernel is complete, or fails, exactly for these files. -/
theorem recompression_complete_iff (lib : Libraries Source Tree) (filters : KernelFilters) (file : Option Bytes)
    (compression : UInt32) : CompleteOrFails lib filters file compression ↔
      file.getD [] = [] ∨ Recompressible filters compression (file.getD []) ∨
        ZeroEnded compression (file.getD []) := by
  by_cases empty : file.getD [] = []
  · exact iff_of_true (unmapped_fails empty) (Or.inl empty)
  · cases file with
    | none => exact absurd rfl empty
    | some data =>
      have nonempty : data ≠ [] := empty
      change _ ↔ data = [] ∨ Recompressible filters compression data ∨ ZeroEnded compression data
      rw [or_iff_right nonempty]
      by_cases small : data.length ≤ intMax
      · -- the buffer holds as much of the stream as the file has bytes
        constructor
        · rintro ⟨result, run, complete⟩
          rw [bxxtBootCompressFromFile_small _ compression nonempty (Nat.lt_succ_of_le small)] at run
          cases run
          have whole := complete.2.length_le
          rw [show (Option.getD (some data) []).take intMax = data from List.take_of_length_le small] at whole
          exact Or.inl ⟨small, whole.trans (length_compressed _ data compression)⟩
        · rintro (kept | ended)
          · exact recompressible_complete nonempty kept
          · refine recompressible_complete nonempty ⟨small, ?_⟩
            rw [(@stream_plain _ _ lib filters _ ended.plain data).1]
      · by_cases packs : compression = KernelCompression.gzip.code ∨ compression = KernelCompression.lzma.code
        · refine iff_of_false ?_ (not_or.mpr ⟨fun kept => small kept.taken, fun ended => ended.plain packs⟩)
          rintro ⟨result, run, complete⟩
          cases result with
          | none =>
            obtain ⟨buffer, written⟩ := bxxtBootCompressFromFile_some _ nonempty run
            cases written
          | some buffer =>
            -- the stream is that of the part which was taken
            obtain ⟨whole, stream⟩ := complete
            obtain ⟨count, rfl⟩ := buffer_stream run stream
            rw [unpack_stream _ _ _ packs] at whole
            have length := congrArg List.length (show data.take intMax = data from whole)
            rw [List.length_take] at length
            omega
        · rw [long_plain_iff packs (Nat.lt_of_not_le small)]
          exact (or_iff_right fun kept => small kept.taken).symm

end Kernel

def unmark : Bytes → Bytes
  | 1 :: byte :: rest => byte :: unmark rest
  | _ => []

/-- A filter that marks every byte and the end, in one block. -/
def marking : Compressor where
  blocks data := [data.flatMap (fun byte => [1, byte]) ++ [0]]
  unpack := unmark
  stops data count := by
    rw [List.flatten_singleton]
    induction data with
    | nil => rfl
    | cons byte data ih => exact congrArg _ ih

/-- The stream of a kernel of one byte has three. None of them is written, and the kernel is empty then. -/
theorem small_kernel_emptied :
    bxxtBootCompressFromFile ((KernelFilters.mk marking marking).within storedLibraries) (some [7])
        KernelCompression.gzip.code = .ok (some []) ∧
      ¬ CompleteOrFails storedLibraries ⟨marking, marking⟩ (some [7]) KernelCompression.gzip.code := by
  have run : bxxtBootCompressFromFile ((KernelFilters.mk marking marking).within storedLibraries) (some [7])
      KernelCompression.gzip.code = .ok (some []) :=
    bxxtBootCompressFromFile_small _ KernelCompression.gzip.code (by decide) (by decide)
  refine ⟨run, ?_⟩
  rintro ⟨result, again, complete⟩
  cases run.symm.trans again
  have unpacked := complete.1
  revert unpacked
  decide

end Proofs
end Bxxt
