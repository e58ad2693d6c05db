import Bxxt.Lib.ByteLayout
import Bxxt.Lib.PagedBytes

/-! Buffers, mapped files and the ways a run can go wrong. Reads and writes the C
program has no right to are faults: nothing is assumed about what follows them.
Sizes are those of an LP64 build, so `size_t` has 64 bits and `int` has 32. -/

namespace Bxxt
open ByteLayout

/-- What ends a run without a return value. `exited` is the device tree compiler's own `die`; all
the others are undefined behaviour, which a run that succeeds has to avoid. -/
inductive Fault where
  | outOfBounds
  | nullPointer
  | divideByZero
  | tableOverflow
  | stackOverflow
  | intOverflow
  | exited
  deriving DecidableEq, Repr

abbrev Exec := Except Fault

def bxxtSuccess : Int := 0
def bxxtFailed : Int := -25

theorem Exec.bind_eq_ok {α β : Type} {first : Exec α} {next : α → Exec β} {result : β} :
    (first >>= next) = .ok result ↔ ∃ value, first = .ok value ∧ next value = .ok result := by
  cases first with
  | error fault => simp [Bind.bind, Except.bind]
  | ok value => simp [Bind.bind, Except.bind]

@[simp] theorem Exec.ok_bind {α β : Type} (value : α) (next : α → Exec β) :
    ((.ok value : Exec α) >>= next) = next value :=
  rfl

def intMax : Nat := 2 ^ 31 - 1

/-- An `int` parameter keeps the low 32 bits of its argument, as a signed number. -/
@[irreducible] def asInt (value : Int) : Int := value.bmod (2 ^ 32)

theorem asInt_of_small {value : Nat} (small : value < 2 ^ 31) : asInt value = value := by
  simp only [asInt, Int.bmod_def]
  omega

theorem asInt_spec (value : Int) : ∃ lost, asInt value = value + 2 ^ 32 * lost ∧ -2 ^ 31 ≤ asInt value := by
  refine ⟨(asInt value - value) / 2 ^ 32, ?_⟩
  simp only [asInt, Int.bmod_def]
  omega

theorem asInt_lt (value : Int) : asInt value < 2 ^ 31 := by
  simp only [asInt, Int.bmod_def]
  omega

/-- Readable memory behind a pointer: the data, then the zero bytes up to the end of the last page
when the memory is a mapped file. A read behind them is a fault and not a value. -/
structure Region where
  bytes : Bytes
  slack : Nat

namespace Region

def systemPage : Nat := 4096

def ofFile (content : Bytes) : Region := ⟨content, PagedBytes.padding systemPage content.length⟩

def ofBuffer (content : Bytes) : Region := ⟨content, 0⟩

def mapped (region : Region) : Bytes := region.bytes ++ List.replicate region.slack 0

def load (region : Region) (addr : Nat) : Exec UInt8 :=
  match region.mapped[addr]? with
  | some byte => .ok byte
  | none => .error .outOfBounds

/-- `count` consecutive bytes. Reading none of them touches no memory. -/
def slice (region : Region) (addr count : Nat) : Exec Bytes :=
  if count = 0 then .ok []
  else if addr + count ≤ region.mapped.length then .ok ((region.mapped.drop addr).take count)
  else .error .outOfBounds

@[simp] theorem ofFile_bytes (content : Bytes) : (ofFile content).bytes = content := rfl
@[simp] theorem ofBuffer_bytes (content : Bytes) : (ofBuffer content).bytes = content := rfl

theorem length_mapped (region : Region) : region.mapped.length = region.bytes.length + region.slack := by
  simp [mapped]

theorem slice_eq_ok {region : Region} {addr count : Nat} {bytes : Bytes} (positive : 0 < count)
    (read : region.slice addr count = .ok bytes) :
    addr + count ≤ region.mapped.length ∧ bytes = (region.mapped.drop addr).take count := by
  unfold slice at read
  split at read
  next none => omega
  next =>
    split at read
    next inside => cases read; exact ⟨inside, rfl⟩
    next => cases read

theorem slice_inside {region : Region} {addr count : Nat} (inside : addr + count ≤ region.bytes.length) :
    region.slice addr count = .ok ((region.bytes.drop addr).take count) := by
  have data : (region.mapped.drop addr).take count = (region.bytes.drop addr).take count := by
    rw [mapped, List.drop_append_of_le_length (by omega), List.take_append_of_le_length (by simp; omega)]
  unfold slice
  split
  next none => simp [none]
  next => rw [if_pos (by rw [length_mapped]; omega), data]

/-- What was read is what the memory goes on with. -/
theorem memory_of_slice {region : Region} {addr count : Nat} {bytes : Bytes}
    (read : region.slice addr count = .ok bytes) :
    ∃ more, region.mapped.drop addr = bytes ++ more := by
  rcases Nat.eq_zero_or_pos count with none | positive
  · rw [none, slice, if_pos rfl] at read
    cases read
    exact ⟨_, rfl⟩
  · obtain ⟨_, rfl⟩ := slice_eq_ok positive read
    exact ⟨_, (List.take_append_drop count _).symm⟩

theorem length_of_slice {region : Region} {addr count : Nat} {bytes : Bytes}
    (read : region.slice addr count = .ok bytes) : bytes.length = count := by
  rcases Nat.eq_zero_or_pos count with none | positive
  · subst none
    simp only [slice, ↓reduceIte] at read
    cases read
    rfl
  · obtain ⟨inside, rfl⟩ := slice_eq_ok positive read
    simp
    omega

theorem slice_take {region : Region} {addr size count : Nat} {bytes : Bytes} (read : region.slice addr size = .ok bytes)
    (inside : count ≤ bytes.length) : region.slice addr count = .ok (bytes.take count) := by
  have length := length_of_slice read
  rcases Nat.eq_zero_or_pos count with rfl | positive
  · rfl
  · obtain ⟨fits, rfl⟩ := slice_eq_ok (by omega) read
    rw [slice, if_neg (by omega), if_pos (by omega), List.take_take, min_eq_left (by omega)]

theorem load_inside {region : Region} {addr : Nat} (inside : addr < region.bytes.length) :
    region.load addr = .ok region.bytes[addr] := by
  have selected : region.mapped[addr]? = some region.bytes[addr] := by
    rw [mapped, List.getElem?_append_left inside, List.getElem?_eq_getElem inside]
  rw [load, selected]

end Region

/-- `bxxt_file_open` of a mapped file. An empty file cannot be mapped. -/
def bxxtFileOpenMm : Option Bytes → Option Region
  | none => none
  | some content => if content = [] then none else some (Region.ofFile content)

/-- `bxxt_buffer_resize`. `realloc` refuses a size that wrapped below zero and the
buffer is left without memory. -/
def bxxtBufferResize (buff : Bytes) (adjSize : Int) : Option Bytes :=
  if (buff.length : Int) + adjSize < 0 then none
  else if 0 ≤ adjSize then some (buff ++ List.replicate adjSize.toNat 0)
  else some (buff.take (buff.length + adjSize).toNat)

/-- The `memcpy` behind the old contents of a buffer that was just resized. -/
def memcpyBehind (old data : Bytes) : Option Bytes → Exec Bytes
  | none => .error .nullPointer
  | some resized =>
    if old.length + data.length ≤ resized.length then .ok (old ++ data ++ resized.drop (old.length + data.length))
    else .error .outOfBounds

/-- `bxxt_buffer_concat_from_data`. The copy has the full size even where the
resize lost its upper bits. -/
def bxxtBufferConcatFromData (buff : Option Bytes) (data : Bytes) : Exec Bytes :=
  match buff with
  | none => .error .nullPointer
  | some old => memcpyBehind old data (bxxtBufferResize old (asInt data.length))

/-- `bxxt_buffer_align`, with `page_size` already widened to `size_t`. -/
def bxxtBufferAlign (buff : Bytes) (pageSize : Nat) : Exec (Option Bytes) :=
  if pageSize = 0 then .error .divideByZero
  else .ok (bxxtBufferResize buff (asInt ((pageSize - buff.length % pageSize) % pageSize : Nat)))

/-- The most bytes one `write` transfers. -/
def writeMax : Nat := 0x7ffff000

/-- `bxxt_boot_write_to`: the result and what the truncated file then holds. A
`write` stops at the first byte that cannot be read. -/
def bxxtBootWriteTo (ptr : Region) (addr size : Nat) (writable : Bool) : Int × Option Bytes :=
  if writable then
    let written := (ptr.mapped.drop addr).take (min size writeMax)
    let r : Int := if written = [] ∧ 0 < size then -1 else written.length
    (if r = size then bxxtSuccess else r, some written)
  else (bxxtFailed, none)

theorem bxxtBootWriteTo_success {ptr : Region} {size : Nat} {writable : Bool} {file : Option Bytes}
    (wrote : bxxtBootWriteTo ptr 0 size writable = (bxxtSuccess, file)) (inside : size = ptr.bytes.length) :
    file = some ptr.bytes ∧ size ≤ writeMax ∧ writable = true := by
  unfold bxxtBootWriteTo at wrote
  cases writable with
  | false => simp [bxxtFailed, bxxtSuccess] at wrote
  | true =>
    simp only [↓reduceIte, List.drop_zero, Prod.mk.injEq] at wrote
    obtain ⟨result, rfl⟩ := wrote
    have count : (ptr.mapped.take (min size writeMax)).length = min size writeMax := by
      rw [List.length_take, Region.length_mapped]
      omega
    have positive : 0 < writeMax := by decide
    have complete : size ≤ writeMax := by
      by_contra large
      have some : ptr.mapped.take (min size writeMax) ≠ [] := by
        intro none
        rw [none, List.length_nil] at count
        omega
      simp only [some, false_and, ↓reduceIte, count, bxxtSuccess] at result
      split at result <;> omega
    refine ⟨?_, complete, rfl⟩
    rw [Nat.min_eq_left complete, inside, Region.mapped, List.take_left]

theorem bxxtBootWriteTo_complete {ptr : Region} (enough : ptr.bytes.length ≤ writeMax) :
    bxxtBootWriteTo ptr 0 ptr.bytes.length true = (bxxtSuccess, some ptr.bytes) := by
  have written : (ptr.mapped.drop 0).take (min ptr.bytes.length writeMax) = ptr.bytes := by
    rw [List.drop_zero, Nat.min_eq_left enough, Region.mapped, List.take_left]
  simp only [bxxtBootWriteTo, ↓reduceIte, written]
  rcases List.eq_nil_or_concat ptr.bytes with none | ⟨_, _, some⟩
  · simp [none]
  · simp [some]

theorem bxxtBufferResize_grow (buff : Bytes) (count : Nat) :
    bxxtBufferResize buff count = some (buff ++ List.replicate count 0) := by
  rw [bxxtBufferResize, if_neg (by omega), if_pos (by omega), Int.toNat_natCast]

theorem bxxtBufferResize_length {buff resized : Bytes} {adjSize : Int}
    (adjusted : bxxtBufferResize buff adjSize = some resized) : (resized.length : Int) = buff.length + adjSize := by
  unfold bxxtBufferResize at adjusted
  split at adjusted
  next => cases adjusted
  next =>
    split at adjusted
    all_goals
      cases adjusted
      simp only [List.length_append, List.length_replicate, List.length_take]
      omega

theorem bxxtBufferConcatFromData_small (buff : Bytes) {data : Bytes} (small : data.length < 2 ^ 31) :
    bxxtBufferConcatFromData (some buff) data = .ok (buff ++ data) := by
  have room : buff.length + data.length ≤ (buff ++ List.replicate data.length 0).length := by simp
  have full : (buff ++ List.replicate data.length 0).drop (buff.length + data.length) = ([] : Bytes) := by simp
  rw [bxxtBufferConcatFromData, asInt_of_small small, bxxtBufferResize_grow, memcpyBehind, if_pos room, full,
    List.append_nil]

/-- The copy succeeds only where the size survived the conversion to `int`. -/
theorem bxxtBufferConcatFromData_eq_ok {buff : Option Bytes} {data result : Bytes}
    (appended : bxxtBufferConcatFromData buff data = .ok result) :
    ∃ old, buff = some old ∧ data.length < 2 ^ 31 ∧ result = old ++ data := by
  cases buff with
  | none => cases appended
  | some old =>
    have small : data.length < 2 ^ 31 := by
      have low := asInt_lt data.length
      by_contra large
      rw [bxxtBufferConcatFromData] at appended
      cases resized : bxxtBufferResize old (asInt data.length) with
      | none => rw [resized] at appended; cases appended
      | some grown =>
        rw [resized, memcpyBehind] at appended
        have short := bxxtBufferResize_length resized
        split at appended
        next enough => omega
        next => cases appended
    rw [bxxtBufferConcatFromData_small old small] at appended
    cases appended
    exact ⟨old, rfl, small, rfl⟩

theorem bxxtBufferConcatFromData_iff {old data result : Bytes} :
    bxxtBufferConcatFromData (some old) data = .ok result ↔ data.length < 2 ^ 31 ∧ result = old ++ data := by
  constructor
  · intro appended
    obtain ⟨_, same, small, rfl⟩ := bxxtBufferConcatFromData_eq_ok appended
    cases same
    exact ⟨small, rfl⟩
  · rintro ⟨small, rfl⟩
    exact bxxtBufferConcatFromData_small old small

theorem bxxtBufferAlign_small (buff : Bytes) {pageSize : Nat} (positive : 0 < pageSize) (small : pageSize < 2 ^ 31) :
    bxxtBufferAlign buff pageSize = .ok (some (PagedBytes.pad pageSize 0 buff)) := by
  have extra : (pageSize - buff.length % pageSize) % pageSize < 2 ^ 31 :=
    (Nat.mod_lt _ positive).trans small
  rw [bxxtBufferAlign, if_neg (by omega), asInt_of_small extra, bxxtBufferResize_grow]
  rfl

end Bxxt
