import Bxxt.BootHeader
import Bxxt.Lib.NumberScan

/-! `patch.c`: a few bytes of a file, typed as a number. How much of its data a `write` stores is up
to the machine, and the program does not look at it. -/

namespace Bxxt
open ByteLayout NumberScan

def bswap64 (value : UInt64) : UInt64 := UInt64.ofNat (beValue (leBytes 8 value.toNat))

abbrev Files := Bytes → Option Bytes

/-- `lseek` from the start of a file: what it returns, and the position then if it was at the start. -/
def lseekSet (offset : UInt64) : UInt64 × Nat :=
  if offset.toNat < 2 ^ 63 then (offset, offset.toNat) else (0xffffffffffffffff, 0)

/-- A file with data stored at a place. A gap in front of the data is filled with zeros. -/
def writeAt (content : Bytes) (position : Nat) (data : Bytes) : Bytes :=
  if data = [] then content
  else
    (content ++ List.replicate (position - content.length) 0).take position ++ data ++
      content.drop (position + data.length)

/-- A file behind a `write` that returned `written`: a full disk or a signal can end it before all of
the data is stored, and a negative result says that nothing is. -/
def writeReturning (content : Bytes) (position : Nat) (data : Bytes) (written : Int) : Bytes :=
  writeAt content position (data.take written.toNat)

section Writes
variable {content data : Bytes} {position : Nat}

theorem writeAt_inside (some : data ≠ []) (inside : position + data.length ≤ content.length) :
    writeAt content position data = content.take position ++ data ++ content.drop (position + data.length) := by
  have noGap : position - content.length = 0 := by omega
  rw [writeAt, if_neg some, noGap, List.replicate_zero, List.append_nil]

theorem length_writeAt (inside : position + data.length ≤ content.length) :
    (writeAt content position data).length = content.length := by
  by_cases none : data = []
  · rw [writeAt, if_pos none]
  · rw [writeAt_inside none inside]
    simp only [List.length_append, List.length_take, List.length_drop]
    omega

theorem writeAt_outside (inside : position + data.length ≤ content.length) {i : Nat}
    (apart : i < position ∨ position + data.length ≤ i) : (writeAt content position data)[i]? = content[i]? := by
  by_cases none : data = []
  · rw [writeAt, if_pos none]
  · rw [writeAt_inside none inside]
    have front : (content.take position).length = position := List.length_take_of_le (by omega)
    rcases apart with before | behind
    · rw [List.append_assoc, List.getElem?_append_left (by rw [front]; exact before), List.getElem?_take_of_lt before]
    · have skipped : (content.take position ++ data).length = position + data.length := by
        rw [List.length_append, front]
      rw [List.getElem?_append_right (by rw [skipped]; exact behind), skipped, List.getElem?_drop,
        Nat.add_sub_cancel' behind]

theorem writeAt_within (front : Bytes) {middle : Bytes} (behind : Bytes) (fits : data.length ≤ middle.length) :
    writeAt (front ++ middle ++ behind) front.length data = front ++ (data ++ middle.drop data.length) ++ behind := by
  by_cases none : data = []
  · rw [writeAt, if_pos none, none, List.nil_append, List.length_nil, List.drop_zero]
  · have inside : front.length + data.length ≤ (front ++ middle ++ behind).length := by
      simp only [List.length_append]
      omega
    have skipped : (front ++ (middle ++ behind)).drop (front.length + data.length) =
        middle.drop data.length ++ behind := by
      rw [← List.drop_drop, List.drop_left, List.drop_append_of_le_length fits]
    rw [writeAt_inside none inside, List.append_assoc front, List.take_left, skipped]
    simp only [List.append_assoc]

/-- The file already holds what a `write` leaves out of its data. -/
def RestThere (content : Bytes) (position : Nat) (data : Bytes) (written : Int) : Prop :=
  (content.drop (position + written.toNat)).take (data.length - written.toNat) = data.drop written.toNat

/-- The file already holds what a `write` stores of its data. -/
def PartThere (content : Bytes) (position : Nat) (data : Bytes) (written : Int) : Prop :=
  (content.drop position).take (min written.toNat data.length) = data.take written.toNat

section Returning
variable {written : Int}

theorem restThere_whole (whole : data.length ≤ written.toNat) : RestThere content position data written := by
  rw [RestThere, Nat.sub_eq_zero_of_le whole, List.take_zero, List.drop_of_length_le whole]

theorem writeReturning_nothing (failed : written ≤ 0) : writeReturning content position data written = content := by
  rw [writeReturning, Int.toNat_of_nonpos failed, List.take_zero, writeAt, if_pos rfl]

theorem split_around (content : Bytes) (position count : Nat) :
    content = content.take position ++ (content.drop position).take count ++ content.drop (position + count) := by
  rw [← List.drop_drop, List.append_assoc, List.take_append_drop, List.take_append_drop]

theorem writeReturning_inside (inside : position + data.length ≤ content.length) :
    writeReturning content position data written = content.take position ++
      (data.take written.toNat ++ (content.drop (position + written.toNat)).take (data.length - written.toNat)) ++
      content.drop (position + data.length) := by
  have front : (content.take position).length = position := List.length_take_of_le (by omega)
  have field : ((content.drop position).take data.length).length = data.length := by
    rw [List.length_take, List.length_drop]
    omega
  have part : (data.take written.toNat).length ≤ ((content.drop position).take data.length).length := by
    rw [field, List.length_take]
    exact Nat.min_le_right ..
  have rest : ((content.drop position).take data.length).drop (data.take written.toNat).length =
      (content.drop (position + written.toNat)).take (data.length - written.toNat) := by
    rw [List.length_take, ← List.drop_drop, List.drop_take]
    rcases Nat.le_total written.toNat data.length with short | whole
    · rw [Nat.min_eq_left short]
    · rw [Nat.min_eq_right whole, Nat.sub_self, Nat.sub_eq_zero_of_le whole, List.take_zero, List.take_zero]
  have stored := @writeAt_within _ (content.take position) _ (content.drop (position + data.length)) part
  rwa [← split_around, front, rest] at stored

theorem length_writeReturning (inside : position + data.length ≤ content.length) :
    (writeReturning content position data written).length = content.length := by
  have part : (data.take written.toNat).length ≤ data.length := List.length_take_le' ..
  exact length_writeAt (by omega)

theorem writeReturning_outside (inside : position + data.length ≤ content.length) {i : Nat}
    (apart : i < position ∨ position + data.length ≤ i) :
    (writeReturning content position data written)[i]? = content[i]? := by
  have part : (data.take written.toNat).length ≤ data.length := List.length_take_le' ..
  exact writeAt_outside (by omega) (by omega)

theorem writeReturning_data_iff (inside : position + data.length ≤ content.length) :
    ((writeReturning content position data written).drop position).take data.length = data ↔
      RestThere content position data written := by
  have front : (content.take position).length = position := List.length_take_of_le (by omega)
  have field : (data.take written.toNat ++
      (content.drop (position + written.toNat)).take (data.length - written.toNat)).length = data.length := by
    simp only [List.length_append, List.length_take, List.length_drop]
    omega
  rw [writeReturning_inside inside, List.append_assoc, List.drop_left' front, List.take_left' field, RestThere]
  constructor
  · intro same
    exact List.append_cancel_left (same.trans (List.take_append_drop written.toNat data).symm)
  · intro same
    rw [same, List.take_append_drop]

/-- A `write` is as good as a whole one if and only if what it did not store was there. -/
theorem writeReturning_eq_iff (inside : position + data.length ≤ content.length) :
    writeReturning content position data written = content.take position ++ data ++
      content.drop (position + data.length) ↔
      RestThere content position data written := by
  rw [← writeReturning_data_iff inside]
  constructor
  · intro same
    have front : (content.take position).length = position := List.length_take_of_le (by omega)
    rw [same, List.append_assoc, List.drop_left' front, List.take_left]
  · intro same
    rw [writeReturning_data_iff inside, RestThere] at same
    rw [writeReturning_inside inside, same, List.take_append_drop]

theorem writeReturning_same_iff (inside : position + data.length ≤ content.length) :
    writeReturning content position data written = content ↔ PartThere content position data written := by
  have shape := split_around content position (min written.toNat data.length)
  have rest : (content.drop (position + written.toNat)).take (data.length - written.toNat) ++
      content.drop (position + data.length) = content.drop (position + min written.toNat data.length) := by
    rcases Nat.le_total written.toNat data.length with short | whole
    · have behind : content.drop (position + data.length) =
          (content.drop (position + written.toNat)).drop (data.length - written.toNat) := by
        rw [List.drop_drop, Nat.add_assoc, Nat.add_sub_cancel' short]
      rw [behind, List.take_append_drop, Nat.min_eq_left short]
    · rw [Nat.sub_eq_zero_of_le whole, List.take_zero, List.nil_append, Nat.min_eq_right whole]
  rw [writeReturning_inside inside, PartThere, ← List.append_assoc, List.append_assoc _ _ (List.drop _ _), rest]
  constructor
  · intro same
    exact List.append_cancel_left (List.append_cancel_right (shape.symm.trans same.symm))
  · intro same
    rw [← same]
    exact shape.symm

end Returning
end Writes

def patch (files : Files) (written : Int) (offset repl size : UInt64) (fname : Bytes) : Exec (Int × Files) :=
  let repl := bswap64 repl
  if 8 < size.toNat then .ok (bxxtFailed, files)
  else
    match files fname with
    | none => .ok (bxxtFailed, files)
    | some content =>
      if (lseekSet offset).1 ≠ offset then .ok (bxxtFailed, files)
      -- for the message, all bits of a number are shifted out
      else if size = 0 then .error .intOverflow
      else
        let ptr := (leBytes 8 repl.toNat).drop (8 - size.toNat)
        .ok (bxxtSuccess, Function.update files fname
          (some (writeReturning content (lseekSet offset).2 ptr written)))

/-- `"@%lX:%lX=%lX"`. -/
def patchFormat : List Item := [.literal 64, .hex, .literal 58, .hex, .literal 61, .hex]

def patchMain (files : Files) (written : Int) (argv : List Bytes) : Exec (Int × Files) :=
  match argv with
  | [_, spec, fname] =>
    match (scanItems patchFormat spec).1 with
    | [.number offset, .number size, .number repl] =>
      patch files written (UInt64.ofNat offset) (UInt64.ofNat repl) (UInt64.ofNat size) fname
    | _ => .ok (bxxtFailed, files)
  | _ => .ok (bxxtFailed, files)

end Bxxt
