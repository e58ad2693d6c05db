import Bxxt.Proofs.MapLookup

/-! What setting a property changes: the serial number and the value of its record. A value that fills
its field has its NUL in the name behind it, and of the two writes only the second is looked at: the
serial number can change without its value, and the value without its serial number. -/

namespace Bxxt.Proofs
open Bxxt ByteLayout TextScan NumberScan

section Serial

def recordSerial (area : Bytes) (off : Nat) : Nat := leValue ((area.drop off).take 4)

theorem serial_mapped {process : PropProcess} {area : Bytes} {start off : Nat} (room : off + 4 ≤ area.length)
    (mapped : ∀ i, i < area.length → process.memory (start + i) = area[i]?) :
    process.serial (start + off) = .ok (UInt32.ofNat (recordSerial area off)) := by
  have bytes : (List.range 4).mapM (fun i => process.memory (start + off + i)) = some ((area.drop off).take 4) := by
    have byte (i : Nat) (small : i < 4) : process.memory (start + off + i) =
        some (area.get ⟨off + i, by omega⟩) := by
      rw [Nat.add_assoc, mapped (off + i) (by omega)]
      exact List.getElem?_eq_getElem _
    have shape : (area.drop off).take 4 =
        [area.get ⟨off + 0, by omega⟩, area.get ⟨off + 1, by omega⟩, area.get ⟨off + 2, by omega⟩,
          area.get ⟨off + 3, by omega⟩] := by
      apply List.ext_getElem
      · simp only [List.length_take, List.length_drop, List.length_cons, List.length_nil]
        omega
      · intro i inside small
        rw [List.getElem_take, List.getElem_drop]
        match i, small with
        | 0, _ => rfl
        | 1, _ => rfl
        | 2, _ => rfl
        | 3, _ => rfl
    have range : List.range 4 = [0, 1, 2, 3] := rfl
    rw [shape, range]
    simp only [List.mapM_cons, List.mapM_nil, byte 0 (by omega), byte 1 (by omega), byte 2 (by omega),
      byte 3 (by omega)]
    rfl
  rw [PropProcess.serial, bytes]
  rfl

/-- The number that is written: the length in front of what the old one has behind it. -/
theorem serial_value (old : UInt32) {count : Nat} (small : count < 256) :
    (UInt32.ofNat count <<< 24 ||| (old <<< 8) >>> 8).toNat = count * 2 ^ 24 + old.toNat % 2 ^ 24 := by
  have countValue : (UInt32.ofNat count).toNat = count := UInt32.toNat_ofNat_of_lt' (by simp only [UInt32.size]; omega)
  have high : (UInt32.ofNat count <<< 24).toNat = count * 2 ^ 24 := by
    rw [UInt32.toNat_shiftLeft, countValue, Nat.shiftLeft_eq]
    exact Nat.mod_eq_of_lt (by simp; omega)
  have low : ((old <<< 8) >>> 8).toNat = old.toNat % 2 ^ 24 := by
    rw [UInt32.toNat_shiftRight, UInt32.toNat_shiftLeft, Nat.shiftLeft_eq, Nat.shiftRight_eq_div_pow]
    have eight : (8 : UInt32).toNat % 32 = 8 := rfl
    rw [eight]
    omega
  have below : old.toNat % 2 ^ 24 < 2 ^ 24 := Nat.mod_lt _ (by omega)
  rw [UInt32.toNat_or, high, low, ← Nat.shiftLeft_eq, ← Nat.shiftLeft_add_eq_or_of_lt below, Nat.shiftLeft_eq]

end Serial
section Records
variable {area : Bytes} {off : Nat} {value : Bytes}

structure RecordSet (before area : Bytes) (off : Nat) (value : Bytes) : Prop where
  inField : value.length + 1 ≤ propValueMax
  length : area.length = before.length
  stored : (area.drop (off + 4)).take (value.length + 1) = value ++ [0]
  count : recordSerial area off / 2 ^ 24 = value.length
  kept : recordSerial area off % 2 ^ 24 = recordSerial before off % 2 ^ 24
  frame : ∀ i, (i < off ∨ off + 4 + value.length + 1 ≤ i) → area[i]? = before[i]?

theorem take_drop_of_same {first second : Bytes} {start count : Nat}
    (same : ∀ i, start ≤ i → i < start + count → first[i]? = second[i]?) :
    (first.drop start).take count = (second.drop start).take count := by
  apply List.ext_getElem?
  intro i
  by_cases inside : i < count
  · rw [List.getElem?_take_of_lt inside, List.getElem?_take_of_lt inside, List.getElem?_drop, List.getElem?_drop]
    exact same (start + i) (by omega) (by omega)
  · rw [List.getElem?_take_eq_none (by omega), List.getElem?_take_eq_none (by omega)]

/-- The serial number that goes with a value: its length in front of the counter that is there. -/
def newSerial (area : Bytes) (off : Nat) (value : Bytes) : Bytes :=
  leBytes 4 (value.length * 2 ^ 24 + recordSerial area off % 2 ^ 24)

theorem length_newSerial (area : Bytes) (off : Nat) (value : Bytes) : (newSerial area off value).length =
    4 := length_leBytes ..

theorem leValue_newSerial (short : value.length < 256) :
    leValue (newSerial area off value) = value.length * 2 ^ 24 + recordSerial area off % 2 ^ 24 := by
  have below : recordSerial area off % 2 ^ 24 < 2 ^ 24 := Nat.mod_lt _ (by omega)
  rw [newSerial, leValue_leBytes]
  omega

/-- The first write is at the serial number, and the second one behind it: the record is set if and only
if each leaves out only what is there. -/
theorem writes_set_iff {first second : Int} (room : off + 4 + propValueMax ≤ area.length)
    (short : value.length < propValueMax) :
    RecordSet area (writeReturning (writeReturning area off (newSerial area off value) first) (off + 4)
      (value ++ [0]) second)
        off value ↔
      RestThere area off (newSerial area off value) first ∧ RestThere area (off + 4) (value ++ [0]) second := by
  have limit : propValueMax = 92 := rfl
  have four := length_newSerial area off value
  have count : (value ++ [0]).length = value.length + 1 := List.length_append
  have firstInside : off + (newSerial area off value).length ≤ area.length := by omega
  have middle := @length_writeReturning area (newSerial area off value) off first firstInside
  have secondInside : off + 4 + (value ++ [0]).length ≤
      (writeReturning area off (newSerial area off value) first).length := by omega
  have serialField :
    ((writeReturning (writeReturning area off (newSerial area off value) first) (off + 4) (value ++ [0])
      second).drop off).take 4 = ((writeReturning area off (newSerial area off value) first).drop off).take 4 :=
    take_drop_of_same fun i low high => writeReturning_outside secondInside (Or.inl high)
  have valueRest : RestThere (writeReturning area off (newSerial area off value) first) (off + 4)
    (value ++ [0]) second ↔
      RestThere area (off + 4) (value ++ [0]) second := by
    rw [RestThere, RestThere, take_drop_of_same fun i low high =>
      writeReturning_outside firstInside (Or.inr (by omega))]
  have serialRest := @writeReturning_data_iff area (newSerial area off value) off first firstInside
  rw [four] at serialRest
  have number := @leValue_newSerial area off value (by omega)
  have below : recordSerial area off % 2 ^ 24 < 2 ^ 24 := Nat.mod_lt _ (by omega)
  rw [← valueRest, ← writeReturning_data_iff secondInside, ← serialRest, count]
  constructor
  · intro set
    refine ⟨?_, set.stored⟩
    have length : (((writeReturning area off (newSerial area off value) first).drop off).take 4).length = 4 := by
      rw [List.length_take, List.length_drop]
      omega
    have told : leValue (((writeReturning area off (newSerial area off value) first).drop off).take 4) =
        value.length * 2 ^ 24 + recordSerial area off % 2 ^ 24 := by
      have high := set.count
      have low := set.kept
      rw [recordSerial, serialField] at high low
      omega
    have whole := leBytes_leValue (((writeReturning area off (newSerial area off value) first).drop off).take 4)
    rw [length, told] at whole
    exact whole.symm
  · rintro ⟨serial, stored⟩
    have told : recordSerial (writeReturning (writeReturning area off (newSerial area off value) first) (off + 4)
        (value ++ [0]) second) off = value.length * 2 ^ 24 + recordSerial area off % 2 ^ 24 := by
      rw [recordSerial, serialField, serial, number]
    refine ⟨short, (length_writeReturning secondInside).trans middle, stored, ?_, ?_, ?_⟩
    · rw [told]
      omega
    · rw [told]
      omega
    · intro i apart
      rw [writeReturning_outside secondInside (by omega), writeReturning_outside firstInside (by omega)]

end Records
section Setting
variable {process : PropProcess} {files : Files} {lines : List MapLine} {line : MapLine}
  {name value area : Bytes} {off : Nat}

/-- A process with a property area that is mapped from a file, and the record of a property in it,
as the C library lays them out. -/
structure HasRecord (process : PropProcess) (files : Files) (lines : List MapLine) (line : MapLine)
    (area : Bytes) (name : Bytes) (off : Nat) : Prop where
  maps : process.maps = some (listing lines)
  ascending : Ascending lines
  member : line ∈ lines
  whole : line.start + area.length ≤ line.finish
  mapped : ∀ i, i < area.length → process.memory (line.start + i) = area[i]?
  opened : ∀ content, files line.path = some content → content = area
  found : process.systemPropertyFind name = line.start + off
  behindHeader : 0 < off
  room : off + 4 + propValueMax ≤ area.length

/-- What setting a property promises: either nothing is changed and the failure is told, or the
record is set and nothing else is changed. -/
def SetsRecord (files : Files) (path area : Bytes) (off : Nat) (value : Bytes) (out : Exec (Int × Files)) : Prop :=
  ∃ r after, out = .ok (r, after) ∧ ((r ≠ 0 ∧ after = files) ∨
    ∃ content, after = Function.update files path (some content) ∧ RecordSet area content off value)

/-- A record is in no mapping but that of its area, at no end of one. -/
theorem HasRecord.lookup (record : HasRecord process files lines line area name off)
    (readable : LinesFit (line.start + off) lines) :
    bxxtScanMapsByCallback process.maps (bxxtScanMapsByOffsetCallback (line.start + off)) = .ok (0, line.mapinfo) := by
  have room := record.room
  have whole := record.whole
  have first := record.behindHeader
  have contains : line.Contains (line.start + off) := ⟨by omega, by omega⟩
  have noEnd : ∀ other ∈ lines, other.finish ≠ line.start + off := by
    intro other inside
    obtain ⟨before, after, shape⟩ := List.append_of_mem record.member
    have ascending := record.ascending
    have ordered : other.start ≤ other.finish := other.ordered
    rw [shape] at inside ascending
    rcases List.mem_append.mp inside with earlier | later
    · have touches := (List.pairwise_append.mp ascending).2.2 other earlier line List.mem_cons_self
      omega
    · rcases List.mem_cons.mp later with rfl | behind
      · omega
      · have touches := (List.pairwise_cons.mp (List.pairwise_append.mp ascending).2.1).1 other behind
        omega
  rw [record.maps, scanMaps_lines]
  exact search_contained record.ascending record.member contains noEnd readable _

theorem propSet_long (record : HasRecord process files lines line area name off)
    (readable : LinesFit (line.start + off) lines) (long : propValueMax < value.length) :
    bxxtPropSet process files name value = .ok (1, files) := by
  rw [bxxtPropSet, record.found, record.lookup readable, Exec.ok_bind, if_neg (not_not_intro rfl), if_pos long]
  rfl

theorem propSet_closed (record : HasRecord process files lines line area name off)
    (readable : LinesFit (line.start + off) lines) (closed : files line.path = none) :
    bxxtPropSet process files name value = .ok (1, files) := by
  rw [bxxtPropSet, record.found, record.lookup readable, Exec.ok_bind, if_neg (not_not_intro rfl)]
  have file : files line.mapinfo.file = none := closed
  split
  · rfl
  · rw [file]
    rfl

theorem propSet_open (record : HasRecord process files lines line area name off)
    (readable : LinesFit (line.start + off) lines) (fits : value.length ≤ propValueMax)
    (opened : files line.path = some area) :
    bxxtPropSet process files name value =
      .ok (if 0 < process.written (off + 4) (value ++ [0]) then 0 else 1,
        Function.update files line.path (some (writeReturning
          (writeReturning area off (newSerial area off value) (process.written off (newSerial area off value)))
          (off + 4) (value ++ [0]) (process.written (off + 4) (value ++ [0]))))) := by
  have room := record.room
  have serial := @serial_mapped process area line.start off (by omega) record.mapped
  have small : recordSerial area off < 2 ^ 32 := by
    have bound := leValue_lt ((area.drop off).take 4)
    have four : ((area.drop off).take 4).length = 4 := by
      rw [List.length_take, List.length_drop]
      omega
    rwa [four] at bound
  have limit : propValueMax = 92 := rfl
  have word :
    leBytes 4 (UInt32.ofNat value.length <<< 24 ||| (UInt32.ofNat (recordSerial area off) <<< 8) >>> 8).toNat =
      newSerial area off value := by
    rw [serial_value _ (show value.length < 256 by omega), UInt32.toNat_ofNat_of_lt' small, newSerial]
  have offset : line.start + off - line.mapinfo.start = off := Nat.add_sub_cancel_left ..
  have file : files line.mapinfo.file = some area := opened
  rw [bxxtPropSet, record.found, record.lookup readable, Exec.ok_bind, if_neg (not_not_intro rfl),
    if_neg (Nat.not_lt.mpr fits), offset, file]
  dsimp only
  rw [serial, Exec.ok_bind, word]
  rfl

/-- Either what is stored was there, which is told as a failure, or what is not stored was there and the
value has room in its field. -/
def WritesAgree (process : PropProcess) (area : Bytes) (off : Nat) (value : Bytes) : Prop :=
  process.written (off + 4) (value ++ [0]) ≤ 0 ∧
      PartThere area off (newSerial area off value) (process.written off (newSerial area off value)) ∨
    value.length < propValueMax ∧
      RestThere area off (newSerial area off value) (process.written off (newSerial area off value)) ∧
      RestThere area (off + 4) (value ++ [0]) (process.written (off + 4) (value ++ [0]))

theorem setsRecord_open_iff (record : HasRecord process files lines line area name off)
    (readable : LinesFit (line.start + off) lines) (fits : value.length ≤ propValueMax)
    (opened : files line.path = some area) :
    SetsRecord files line.path area off value (bxxtPropSet process files name value) ↔
      WritesAgree process area off value := by
  have room := record.room
  have firstInside : off + (newSerial area off value).length ≤ area.length := by
    rw [length_newSerial]
    omega
  rw [propSet_open record readable fits opened, WritesAgree, ← writeReturning_same_iff firstInside]
  generalize process.written off (newSerial area off value) = first
  generalize process.written (off + 4) (value ++ [0]) = second
  constructor
  · rintro ⟨r, after, same, ⟨failed, kept⟩ | ⟨content, changed, set⟩⟩
    · cases same
      have nothing : second ≤ 0 := by
        by_contra stored
        exact failed (if_pos (by omega))
      have unchanged : Function.update files line.path (some area) = files := by
        rw [← opened, Function.update_eq_self]
      rw [writeReturning_nothing nothing] at kept
      have same := Function.update_injective files line.path (kept.trans unchanged.symm)
      exact Or.inl ⟨nothing, Option.some.inj same⟩
    · cases same
      have same := Option.some.inj (Function.update_injective files line.path changed)
      rw [← same] at set
      have short : value.length < propValueMax := set.inField
      exact Or.inr ⟨short, (writes_set_iff room short).mp set⟩
  · rintro (⟨nothing, kept⟩ | ⟨short, both⟩)
    · refine ⟨_, _, rfl, Or.inl ⟨?_, ?_⟩⟩
      · rw [if_neg (by omega)]
        decide
      · rw [writeReturning_nothing nothing, kept, ← opened, Function.update_eq_self]
    · exact ⟨_, _, rfl, Or.inr ⟨_, rfl, (writes_set_iff room short).mpr both⟩⟩

end Setting

/-- Setting a property changes its record only, or nothing, if and only if no line up to that of its area
is too long and, where the area's file is opened at all, the writes agree. -/
theorem property_set_iff (process : PropProcess) (files : Files) (lines : List MapLine) (line : MapLine)
    (area name : Bytes) (off : Nat) (record : HasRecord process files lines line area name off) (value : Bytes) :
    SetsRecord files line.path area off value (bxxtPropSet process files name value) ↔
      LinesFit (line.start + off) lines ∧
        (files line.path = none ∨ propValueMax < value.length ∨ WritesAgree process area off value) := by
  by_cases readable : LinesFit (line.start + off) lines
  · rw [and_iff_right readable]
    cases file : files line.path with
    | none =>
      rw [propSet_closed record readable file]
      exact iff_of_true ⟨1, files, rfl, Or.inl ⟨by decide, rfl⟩⟩ (Or.inl rfl)
    | some content =>
      obtain rfl := record.opened content file
      rw [or_iff_right (by simp)]
      by_cases long : propValueMax < value.length
      · rw [propSet_long record readable long]
        exact iff_of_true ⟨1, files, rfl, Or.inl ⟨by decide, rfl⟩⟩ (Or.inl long)
      · rw [or_iff_right long]
        exact setsRecord_open_iff record readable (Nat.not_lt.mp long) file
  · have failed : bxxtPropSet process files name value = .error .outOfBounds := by
      rcases @searchLines_spec (line.start + off) lines ⟨[], 0, 0⟩ with ⟨_, run⟩ | ⟨other, _⟩
      · rw [bxxtPropSet, record.found, record.maps, scanMaps_lines, run]
        rfl
      · exact absurd other readable
    rw [failed]
    constructor
    · rintro ⟨r, after, same, _⟩
      cases same
    · exact fun both => absurd both.1 readable

/-- An area with a header of eight bytes and one record. -/
def smallArea : Bytes := List.replicate 8 1 ++ (leBytes 4 0x03000005 ++ ascii "off" ++ List.replicate 89 0) ++
    ascii "ro.debuggable" ++ [0]

def smallFiles : Files := Function.update (fun _ => none) (ascii "/dev/a") (some smallArea)

def smallProcess : PropProcess where
  maps := some (listing [lowerLine, upperLine])
  memory addr := if lowerLine.start ≤ addr then smallArea[addr - lowerLine.start]? else none
  systemPropertyFind name := if name = ascii "ro.debuggable" then lowerLine.start + 8 else 0
  written _ data := data.length

def fullProcess : PropProcess :=
  { smallProcess with written := fun place data => if place = 8 then data.length else -1 }

theorem small_hasRecord :
    HasRecord smallProcess smallFiles [lowerLine, upperLine] lowerLine smallArea (ascii "ro.debuggable") 8 where
  maps := rfl
  ascending := touching_ascending
  member := List.mem_cons_self
  whole := by decide +kernel
  mapped i _ := by
    change (if lowerLine.start ≤ lowerLine.start + i then smallArea[lowerLine.start + i - lowerLine.start]?
      else none) = _
    rw [if_pos (Nat.le_add_right ..), Nat.add_sub_cancel_left]
  opened content same := by
    have own : smallFiles lowerLine.path = some smallArea := Function.update_self ..
    rw [own] at same
    exact (Option.some.inj same).symm
  found := by simp [smallProcess]
  behindHeader := by decide
  room := by decide +kernel

theorem small_linesFit : LinesFit (lowerLine.start + 8) [lowerLine, upperLine] := by
  have short : lowerLine.tail.length < pathMax := by decide +kernel
  have taken : lowerLine.Taken (lowerLine.start + 8) := by decide +kernel
  exact linesFit_cons.mpr ⟨short, fun missed => absurd taken missed⟩

theorem full_hasRecord :
    HasRecord fullProcess smallFiles [lowerLine, upperLine] lowerLine smallArea (ascii "ro.debuggable") 8 :=
  { small_hasRecord with }

theorem debuggable_set : SetsRecord smallFiles lowerLine.path smallArea 8 (ascii "1")
    (bxxtPropSet smallProcess smallFiles (ascii "ro.debuggable") (ascii "1")) := by
  refine (property_set_iff smallProcess smallFiles [lowerLine, upperLine] lowerLine smallArea (ascii "ro.debuggable") 8
    small_hasRecord (ascii "1")).mpr ⟨small_linesFit, Or.inr (Or.inr (Or.inr ⟨by decide, ?_, ?_⟩))⟩
  · exact restThere_whole (Nat.le_refl _)
  · exact restThere_whole (Nat.le_refl _)

/-- A value of 92 bytes is written with its NUL in the name. Where only the serial number can be written,
the failure that is told leaves it changed. -/
theorem name_overwritten :
    ¬ SetsRecord smallFiles lowerLine.path smallArea 8 (List.replicate 92 49)
        (bxxtPropSet smallProcess smallFiles (ascii "ro.debuggable") (List.replicate 92 49)) ∧
      ¬ SetsRecord smallFiles lowerLine.path smallArea 8 (ascii "1")
        (bxxtPropSet fullProcess smallFiles (ascii "ro.debuggable") (ascii "1")) := by
  have opened : smallFiles lowerLine.path = some smallArea := Function.update_self ..
  constructor
  · rw [setsRecord_open_iff small_hasRecord small_linesFit (by decide +kernel) opened]
    rintro (⟨nothing, _⟩ | ⟨short, _⟩)
    · exact absurd nothing (by decide +kernel)
    · exact absurd short (by decide +kernel)
  · rw [setsRecord_open_iff full_hasRecord small_linesFit (by decide +kernel) opened]
    rintro (⟨_, there⟩ | ⟨_, _, there⟩)
    · exact absurd there (by unfold PartThere; decide +kernel)
    · exact absurd there (by unfold RestThere; decide +kernel)

end Bxxt.Proofs
