import Bxxt.Proofs.ImageBounds
import Bxxt.Proofs.DtbKept
import Mathlib.Data.List.DropRight

/-! What is left of the data behind the last section when its zero bytes are trimmed. The index
where the search for the last other byte stops is taken for the length, which is one more. -/

namespace Bxxt.Proofs
open ByteLayout PagedBytes

def stripZeros (bytes : Bytes) : Bytes := bytes.rdropWhile (· = 0)

def padOffset (hdr : BootImgHdr) : Nat := (layoutOf hdr (.ofBuffer []) 0).mmPadPtr

/-- The pad region is what is behind the sections, up to its zero padding. Only then does
`extra.data` hold all that was not recognised. -/
def PadKept (b : Boot) (content : Bytes) : Prop :=
  (Region.ofFile content).slice b.mmPadPtr b.padSize.toNat = .ok (stripZeros (content.drop b.mmPadPtr))

/-- When the trimming comes out right: there are only zeros, or the length is taken for a negative
index and the search in front of the region happens to stop at the right distance. -/
def TrimsRight (content : Bytes) (padAt : Nat) : Prop :=
  let region := content.drop padAt
  let narrow := region.length % 2 ^ 32
  if narrow ≤ 2 ^ 31 then ∀ byte ∈ region, byte = 0
  else (stripZeros region).length + padAt + 1 = 2 ^ 32 + (stripZeros (content.take (padAt + narrow - 2 ^ 32))).length

section Strip
variable {bytes : Bytes} {count : Nat}

theorem stripZeros_front (bytes : Bytes) : stripZeros bytes <+: bytes := List.rdropWhile_prefix _ bytes

theorem stripZeros_eq_take (bytes : Bytes) : stripZeros bytes = bytes.take (stripZeros bytes).length :=
  List.prefix_iff_eq_take.mp (stripZeros_front bytes)

theorem stripZeros_nil_iff : stripZeros bytes = [] ↔ ∀ byte ∈ bytes, byte = 0 := by
  rw [stripZeros, List.rdropWhile_eq_nil_iff]
  simp only [decide_eq_true_eq]

theorem lt_stripZeros {byte : UInt8} (selected : bytes[count]? = some byte) (nonzero : byte ≠ 0) :
    count < (stripZeros bytes).length := by
  by_contra behind
  have whole : stripZeros bytes ++ bytes.rtakeWhile (· = 0) = bytes := List.rdropWhile_append_rtakeWhile
  rw [← whole, List.getElem?_append_right (by omega)] at selected
  have zero := List.mem_rtakeWhile_imp (List.mem_of_getElem? selected)
  exact nonzero (by simpa using zero)

/-- Behind the last byte that is not zero everything is stripped. -/
theorem stripZeros_take {byte : UInt8} (selected : bytes[count]? = some byte) (nonzero : byte ≠ 0)
    (zeros : ∀ index other, count < index → bytes[index]? = some other → other = 0) :
    (stripZeros bytes).length = count + 1 := by
  have kept := lt_stripZeros selected nonzero
  by_contra longer
  have last : stripZeros bytes ≠ [] := List.ne_nil_of_length_pos (by omega)
  have ends := List.rdropWhile_last_not (fun byte : UInt8 => decide (byte = 0)) bytes last
  obtain ⟨tail, whole⟩ := stripZeros_front bytes
  have place : bytes[(stripZeros bytes).length - 1]? = some ((stripZeros bytes).getLast last) := by
    calc bytes[(stripZeros bytes).length - 1]?
      _ = (stripZeros bytes ++ tail)[(stripZeros bytes).length - 1]? := by rw [whole]
      _ = (stripZeros bytes)[(stripZeros bytes).length - 1]? := List.getElem?_append_left (by omega)
      _ = some ((stripZeros bytes).getLast last) := by rw [List.getLast_eq_getElem, List.getElem?_eq_getElem]
  exact ends (decide_eq_true (zeros _ _ (by omega) place))

end Strip

section Trim
variable {ptr : Region} {mmPadPtr : Nat}

theorem trimPad_spec {addr : Nat} {ts : Int} (trimmed : trimPad ptr mmPadPtr addr = .ok ts) :
    ∃ last, last ≤ addr ∧ ts = last - mmPadPtr ∧ (mmPadPtr ≤ addr → mmPadPtr ≤ last) ∧
      (∀ position, last < position → position ≤ addr → ptr.load position = .ok 0) ∧
      (last = mmPadPtr ∨ ∃ byte, ptr.load last = .ok byte ∧ byte ≠ 0) := by
  induction addr with
  | zero =>
    rw [trimPad] at trimmed
    split at trimmed
    next here => cases trimmed; exact ⟨0, Nat.le_refl _, by omega, fun _ => by omega, fun _ _ _ => by
      omega, Or.inl here⟩
    next before =>
      obtain ⟨byte, read, rest⟩ := Exec.bind_eq_ok.mp trimmed
      split at rest
      next nonzero =>
        cases rest
        exact ⟨0, Nat.le_refl _, by omega, fun _ => by omega, fun _ _ _ => by omega,
          Or.inr ⟨byte, read, nonzero⟩⟩
      next => cases rest
  | succ addr ih =>
    rw [trimPad] at trimmed
    split at trimmed
    next here =>
      cases trimmed
      exact ⟨addr + 1, Nat.le_refl _, by omega, fun _ => by omega, fun _ _ _ => by omega, Or.inl here⟩
    next other =>
      obtain ⟨byte, read, rest⟩ := Exec.bind_eq_ok.mp trimmed
      split at rest
      next nonzero =>
        cases rest
        refine ⟨addr + 1, Nat.le_refl _, rfl, id, fun _ _ _ => ?_, Or.inr ⟨byte, read, nonzero⟩⟩
        omega
      next zero =>
        split at rest
        next => cases rest
        next =>
          obtain ⟨last, below, same, behind, zeros, stop⟩ := ih rest
          refine ⟨last, by omega, same, fun _ => behind (by omega), ?_, stop⟩
          intro position after inside
          rcases Nat.lt_or_eq_of_le inside with before | rfl
          · exact zeros position after (by omega)
          · rw [read, not_not.mp zero]

end Trim
section Region
variable {content : Bytes} {b : Boot}

theorem load_content {position : Nat} {byte : UInt8} (inside : position < content.length)
    (read : (Region.ofFile content).load position = .ok byte) : content[position]? = some byte := by
  rw [@Region.load_inside (.ofFile content) _ inside] at read
  rw [List.getElem?_eq_getElem inside]
  exact congrArg some (Except.ok.inj read)

/-- The index the trimming begins with. It is signed, and a long region makes it negative. -/
theorem trim_index (padSize : UInt32) :
    asInt (padSize - 1).toNat =
      if padSize.toNat = 0 then -1
      else if padSize.toNat ≤ 2 ^ 31 then (padSize.toNat : Int) - 1
      else (padSize.toNat : Int) - 1 - 2 ^ 32 := by
  have bound := padSize.toNat_lt
  have before : (padSize - 1).toNat = (padSize.toNat + (2 ^ 32 - 1)) % 2 ^ 32 := by
    rw [UInt32.toNat_sub, UInt32.toNat_one]
    omega
  rw [before]
  simp only [asInt, Int.bmod_def]
  split
  · omega
  · split <;> omega

/-- As long as the pad region is no longer than the data, its size is what counts. -/
theorem padKept_iff_length (inside : b.mmPadPtr ≤ content.length)
    (within : b.padSize.toNat ≤ (content.drop b.mmPadPtr).length) :
    PadKept b content ↔ b.padSize.toNat = (stripZeros (content.drop b.mmPadPtr)).length := by
  have read : (Region.ofFile content).slice b.mmPadPtr b.padSize.toNat =
      .ok ((content.drop b.mmPadPtr).take b.padSize.toNat) := by
    rw [List.length_drop] at within
    rw [Region.slice_inside (by rw [Region.ofFile_bytes]; omega), Region.ofFile_bytes]
  rw [PadKept, read, Except.ok.injEq]
  constructor
  · intro same
    rw [← same, List.length_take, min_eq_left within]
  · intro same
    rw [stripZeros_eq_take (content.drop b.mmPadPtr), same]

/-- A search that begins in the region keeps it only where nothing is to be kept. -/
theorem kept_of_narrow {addr : Nat} {ts : Int} (inside : b.mmPadPtr ≤ content.length) (after : b.mmPadPtr ≤ addr)
    (before : addr < content.length) (small : addr < b.mmPadPtr + 2 ^ 31)
    (trimmed : trimPad (.ofFile content) b.mmPadPtr addr = .ok ts) (stored : b.padSize = asUInt32 ts) :
    PadKept b content ↔ ∀ byte ∈ content.drop b.mmPadPtr, byte = 0 := by
  obtain ⟨last, below, rfl, behind, _, stop⟩ := trimPad_spec trimmed
  have start := behind after
  obtain ⟨count, rfl⟩ := Nat.le.dest start
  have size : b.padSize.toNat = count := by
    rw [stored, show ((b.mmPadPtr + count : Nat) : Int) - b.mmPadPtr = count by omega]
    exact asUInt32_of_small (by omega)
  rw [padKept_iff_length inside (by rw [List.length_drop]; omega), size, ← stripZeros_nil_iff,
    ← List.length_eq_zero_iff]
  rcases stop with first | ⟨byte, read, nonzero⟩
  · have none : count = 0 := by omega
    rw [none]
    exact eq_comm
  · have selected : (content.drop b.mmPadPtr)[count]? = some byte := by
      rw [List.getElem?_drop]
      exact load_content (by omega) read
    have kept := lt_stripZeros selected nonzero
    omega

/-- A search that begins before the region takes its distance for a size. -/
theorem kept_of_wide {addr : Nat} {ts : Int} (inside : b.mmPadPtr ≤ content.length) (before : addr < b.mmPadPtr)
    (narrow : b.mmPadPtr < 2 ^ 32) (within : 2 ^ 32 + addr < content.length)
    (trimmed : trimPad (.ofFile content) b.mmPadPtr addr = .ok ts) (stored : b.padSize = asUInt32 ts) :
    PadKept b content ↔
      (stripZeros (content.drop b.mmPadPtr)).length + b.mmPadPtr + 1 =
        2 ^ 32 + (stripZeros (content.take (addr + 1))).length := by
  obtain ⟨last, below, rfl, _, zeros, stop⟩ := trimPad_spec trimmed
  obtain ⟨byte, read, nonzero⟩ := stop.resolve_left (by omega)
  have size : b.padSize.toNat = 2 ^ 32 + last - b.mmPadPtr := by
    rw [stored, asUInt32, UInt32.toNat_ofNat']
    omega
  have kept : (stripZeros (content.take (addr + 1))).length = last + 1 := by
    refine @stripZeros_take _ _ byte ?_ nonzero ?_
    · rw [List.getElem?_take_of_lt (by omega)]
      exact load_content (by omega) read
    · intro index other after selected
      have short := (List.getElem?_eq_some_iff.mp selected).1
      rw [List.length_take] at short
      rw [List.getElem?_take_of_lt (by omega), load_content (by omega) (zeros index after (by omega))] at selected
      exact (Option.some.inj selected).symm
  rw [padKept_iff_length inside (by rw [List.length_drop]; omega), size, kept]
  omega

theorem trimmedPadSize_ok {ptr : Region} {mmPadPtr : Nat} {padSize result : UInt32}
    (trimmed : trimmedPadSize ptr mmPadPtr padSize = .ok result) :
    0 ≤ (mmPadPtr : Int) + asInt (padSize - 1).toNat ∧
      ∃ ts, trimPad ptr mmPadPtr ((mmPadPtr : Int) + asInt (padSize - 1).toNat).toNat = .ok ts ∧
        result = if padSize ≠ 0 then asUInt32 ts else padSize := by
  unfold trimmedPadSize trimFrom at trimmed
  split at trimmed
  next => cases trimmed
  next start =>
    cases search : trimPad ptr mmPadPtr ((mmPadPtr : Int) + asInt (padSize - 1).toNat).toNat with
    | error fault => rw [search] at trimmed; cases trimmed
    | ok ts =>
      rw [search] at trimmed
      exact ⟨by omega, ts, rfl, (Except.ok.inj trimmed).symm⟩

theorem padKept_iff_of_laidOut (laid : LaidOut (Region.ofFile content) content.length b)
    (inside : b.mmPadPtr ≤ content.length) : PadKept b content ↔ TrimsRight content b.mmPadPtr := by
  have narrow : b.mmPadPtr < 2 ^ 32 := by rw [laid.mmPadPtr]; exact b.bPADo.toNat_lt
  obtain ⟨padSize, stored⟩ : ∃ padSize, padSize = asUInt32 ((content.length : Int) - b.bPADo.toNat) :=
    ⟨_, rfl⟩
  have width : padSize.toNat = (content.drop b.mmPadPtr).length % 2 ^ 32 := by
    rw [stored, asUInt32, UInt32.toNat_ofNat', List.length_drop, laid.mmPadPtr]
    rw [laid.mmPadPtr] at inside
    omega
  have length : (content.drop b.mmPadPtr).length = content.length - b.mmPadPtr := List.length_drop
  have trimmed := laid.padSize
  rw [← stored] at trimmed
  obtain ⟨start, ts, search, result⟩ := trimmedPadSize_ok trimmed
  rw [TrimsRight, ← width]
  by_cases empty : padSize.toNat = 0
  · -- the region is empty, and so is what is left of it
    have zero : padSize = 0 := UInt32.toNat_inj.mp empty
    rw [if_neg (by simp [zero])] at result
    rw [if_pos (by omega), padKept_iff_length inside (by rw [result]; omega), result, empty, ← stripZeros_nil_iff,
      ← List.length_eq_zero_iff]
    exact eq_comm
  · have nonzero : padSize ≠ 0 := fun zero => empty (by rw [zero]; rfl)
    rw [if_pos nonzero] at result
    rw [trim_index, if_neg empty] at search start
    by_cases fits : padSize.toNat ≤ 2 ^ 31
    · rw [if_pos fits] at search ⊢
      exact kept_of_narrow inside (by omega) (by omega) (by omega) search result
    · rw [if_neg fits] at search start ⊢
      have place : ((b.mmPadPtr : Int) + ((padSize.toNat : Int) - 1 - 2 ^ 32)).toNat + 1 =
          b.mmPadPtr + padSize.toNat - 2 ^ 32 := by omega
      have bound := padSize.toNat_lt
      rw [← place]
      exact kept_of_wide inside (by omega) narrow (by omega) search result

theorem LaidOut.pad_place {ptr : Region} {size : Nat} {hdr : BootImgHdr} (laid : LaidOut ptr size b)
    (same : b.hdr = hdr) :
    b.mmPadPtr = padOffset hdr := by
  subst same
  rw [laid.mmPadPtr]
  simp only [padOffset, layoutOf, initPointers, initSizes, Boot.bPADo, Boot.bDTo, Boot.bREo, Boot.bSEo,
    Boot.bRAo, Boot.bKEo,
    laid.pageSize, laid.kernelSize, laid.ramdiskSize, laid.secondSize, laid.recoveryDtboSize, laid.dtbSize]

/-- What `bxxt_boot_init1` leaves of the data behind the last section is this data up to its
zero padding exactly when there is no other byte in it; only where the region is so long
that its size is a negative number can it hit the right length otherwise. -/
theorem trailing_data_kept_iff {sha1 : Bytes → Vector UInt8 20} {opts : Options} {check : Bool}
    {start : Boot} {r : Int} {hdr : BootImgHdr}
    (header : (Region.ofFile content).slice 0 BootImgHdr.size = .ok hdr.bytes)
    (supported : Supported hdr) (inside : padOffset hdr ≤ content.length)
    (run : bxxtBootInit1 sha1 opts start (Region.ofFile content) content.length check = .ok (r, b)) :
    b.mmPadPtr = padOffset hdr ∧ (PadKept b content ↔ TrimsRight content (padOffset hdr)) := by
  obtain ⟨same, laid⟩ := bxxtBootInit1_laidOut run header supported
  have place := laid.pad_place same
  rw [← place] at inside ⊢
  exact ⟨rfl, padKept_iff_of_laidOut laid inside⟩

end Region

def extraOnly (data : Bytes) : Sections := ⟨[1], [], [], [], [], data⟩

theorem extraOnly_parsed {data : Bytes} (total : (pagedImage (extraOnly data)).length < 2 ^ 31) : ∃ b,
    bxxtBootInit1 storedLibraries.sha1 ⟨false, false⟩ bxxtBootNew (.ofFile (pagedImage (extraOnly data)))
        (pagedImage (extraOnly data)).length false = .ok (bxxtSuccess, b) ∧
      b.hdr = (extraOnly data).hdr pagedHdr ∧
      LaidOut (.ofFile (pagedImage (extraOnly data))) (pagedImage (extraOnly data)).length b ∧
      (pagedImage (extraOnly data)).drop b.mmPadPtr = data ++ List.replicate (padding 0x1000 data.length) 0 := by
  have describable : Describable pagedHdr (extraOnly data) :=
    ⟨⟨by decide, by decide, by decide⟩, ⟨by simp [extraOnly], by simp [extraOnly], by simp [extraOnly]⟩⟩
  have kernel : Gapped (extraOnly data).kernel [] [1] := ⟨rfl, by simp, by simp, by decide, by decide⟩
  have none : Gapped (extraOnly data).dtb [] [] := ⟨rfl, by simp, by simp, by decide, by decide⟩
  obtain ⟨b, opened, same, laid, selects, _⟩ := @open_assembled _ _ storedLibraries.sha1 ⟨false, false⟩
      (pagedImage (extraOnly data)) _ _ _ _ describable rfl rfl total kernel none
  obtain ⟨_, again, _, accepted⟩ := bxxtBootOpenFile_iff.mp opened
  cases again
  exact ⟨b, bxxtBootInit1_iff.mpr accepted, same, laid, selects.pad⟩

/-- A single byte behind the last section is lost. -/
theorem single_byte_trimmed : ∃ b,
    bxxtBootInit1 storedLibraries.sha1 ⟨false, false⟩ bxxtBootNew (.ofFile (pagedImage (extraOnly [5])))
        (pagedImage (extraOnly [5])).length false = .ok (bxxtSuccess, b) ∧
      (pagedImage (extraOnly [5])).drop b.mmPadPtr = 5 :: List.replicate 4095 0 ∧
      ¬ PadKept b (pagedImage (extraOnly [5])) := by
  have total : (pagedImage (extraOnly [5])).length = 0x3000 := by
    rw [pagedImage, length_imageOf (by decide)]
    decide
  obtain ⟨b, run, _, laid, region⟩ := @extraOnly_parsed [5] (by rw [total]; decide)
  refine ⟨b, run, region, ?_⟩
  have length : ((pagedImage (extraOnly [5])).drop b.mmPadPtr).length = 4096 := by
    rw [region, List.length_append, List.length_replicate]
    decide
  have place : b.mmPadPtr ≤ (pagedImage (extraOnly [5])).length := by
    rw [List.length_drop] at length
    omega
  rw [padKept_iff_of_laidOut laid place, TrimsRight, if_pos (by rw [length]; decide), region]
  intro zeros
  exact absurd (zeros 5 (by simp)) (by decide)

/-- A page of zeros behind the last section is padding. -/
theorem zeros_trimmed_to_nothing : ∃ b,
    bxxtBootInit1 storedLibraries.sha1 ⟨false, false⟩ bxxtBootNew (.ofFile (pagedImage (extraOnly [0])))
        (pagedImage (extraOnly [0])).length false = .ok (bxxtSuccess, b) ∧
      (pagedImage (extraOnly [0])).drop b.mmPadPtr = List.replicate 4096 0 ∧
        PadKept b (pagedImage (extraOnly [0])) := by
  have total : (pagedImage (extraOnly [0])).length = 0x3000 := by
    rw [pagedImage, length_imageOf (by decide)]
    decide
  obtain ⟨b, run, same, laid, region⟩ := @extraOnly_parsed [0] (by rw [total]; decide)
  have zeros : (pagedImage (extraOnly [0])).drop b.mmPadPtr = List.replicate 4096 0 := region
  have place := laid.pad_place same
  have accepted := bxxtBootInit1_iff.mp run
  have before : padOffset ((extraOnly [0]).hdr pagedHdr) = 0x2000 := by decide
  refine ⟨b, run, zeros, (trailing_data_kept_iff (same ▸ accepted.header) (same ▸ accepted.supported)
    ?_ run).2.mpr ?_⟩
  · rw [before, total]
    decide
  · rw [TrimsRight, ← place, zeros, List.length_replicate, if_pos (by decide)]
    exact fun byte => List.eq_of_mem_replicate

end Bxxt.Proofs
