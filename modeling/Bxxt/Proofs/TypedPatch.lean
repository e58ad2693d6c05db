import Bxxt.Patch

/-! What `patch` makes of the bytes that are typed: they are in the file in the order of their digits. -/

namespace Bxxt.Proofs
open Bxxt ByteLayout TextScan NumberScan

section Bytes
variable {bytes : Bytes}

theorem leBytes_pad (bytes : Bytes) (more : Nat) :
    leBytes (bytes.length + more) (leValue bytes) = bytes ++ List.replicate more 0 := by
  induction bytes with
  | nil =>
    rw [List.length_nil, Nat.zero_add, leValue, List.nil_append]
    induction more with
    | zero => rfl
    | succ more ih =>
      rw [leBytes, List.replicate_succ, Nat.zero_div, ih]
      rfl
  | cons byte bytes ih =>
    have small : byte.toNat < 256 := byte.toNat_lt
    have rest : (byte.toNat + 256 * leValue bytes) / 256 = leValue bytes := by omega
    have own : UInt8.ofNat (byte.toNat + 256 * leValue bytes) = byte := by
      apply UInt8.toNat_inj.mp
      rw [UInt8.toNat_ofNat']
      omega
    have count : (byte :: bytes).length + more = bytes.length + more + 1 := by
      rw [List.length_cons]
      omega
    rw [count, leBytes, leValue, rest, own, ih, List.cons_append]

theorem beValue_lt (bytes : Bytes) : beValue bytes < 256 ^ bytes.length := by
  have small := leValue_lt bytes.reverse
  rwa [List.length_reverse] at small

/-- A swapped number has its bytes in memory as they are written. -/
theorem leBytes_bswap64 (value : UInt64) : leBytes 8 (bswap64 value).toNat = (leBytes 8 value.toNat).reverse := by
  have fits : beValue (leBytes 8 value.toNat) < 2 ^ 64 := by
    have small := beValue_lt (leBytes 8 value.toNat)
    rwa [length_leBytes] at small
  have whole := leBytes_leValue (leBytes 8 value.toNat).reverse
  rw [List.length_reverse, length_leBytes] at whole
  rw [bswap64, UInt64.toNat_ofNat_of_lt' fits]
  exact whole

/-- The end of the swapped number holds the bytes of which it is the number. -/
theorem swapped_end (short : bytes.length ≤ 8) :
    (leBytes 8 (bswap64 (UInt64.ofNat (beValue bytes))).toNat).drop (8 - bytes.length) = bytes := by
  have fits : beValue bytes < 2 ^ 64 := by
    apply Nat.lt_of_lt_of_le (beValue_lt bytes)
    exact Nat.pow_le_pow_right (by omega) (show bytes.length ≤ 8 from short)
  have padded := leBytes_pad bytes.reverse (8 - bytes.length)
  rw [List.length_reverse, Nat.add_sub_cancel' short] at padded
  rw [leBytes_bswap64, UInt64.toNat_ofNat_of_lt' fits, beValue, padded, List.reverse_append, List.reverse_reverse,
    List.reverse_replicate]
  exact List.drop_left' List.length_replicate

end Bytes
section Digits

/-- Two digits for each byte, in any case. -/
inductive SpellsBytes : Bytes → Bytes → Prop
  | nil : SpellsBytes [] []
  | cons {high low : UInt8} {text : Bytes} {byte : UInt8} {bytes : Bytes} (upper lower : Nat)
      (first : hexValue? high = some upper) (second : hexValue? low = some lower)
      (value : byte.toNat = 16 * upper + lower) (rest : SpellsBytes text bytes) :
      SpellsBytes (high :: low :: text) (byte :: bytes)

variable {text bytes : Bytes}

theorem beValue_cons (byte : UInt8) (bytes : Bytes) :
    beValue (byte :: bytes) = byte.toNat * 256 ^ bytes.length + beValue bytes := by
  have appended (front : Bytes) (last : UInt8) : leValue (front ++ [last]) = leValue front + 256 ^ front.length
      * last.toNat := by
    induction front with
    | nil => simp [leValue]
    | cons first front ih =>
      rw [List.cons_append, leValue, leValue, ih, List.length_cons, Nat.pow_succ]
      ring
  rw [beValue, List.reverse_cons, appended, List.length_reverse, beValue]
  ring

theorem SpellsBytes.digits (spells : SpellsBytes text bytes) : ∀ char ∈ text, isHexChar char = true := by
  induction spells with
  | nil => exact fun char inside => absurd inside List.not_mem_nil
  | cons upper lower first second value rest ih =>
    have known {char : UInt8} {digit : Nat} (is : hexValue? char = some digit) : isHexChar char = true := by
      rw [isHexChar, is]
      rfl
    exact List.forall_mem_cons.mpr ⟨known first, List.forall_mem_cons.mpr ⟨known second, ih⟩⟩

theorem hexNumber_from (start : Nat) (digits : List Nat) :
    digits.foldl (fun number digit => 16 * number + digit) start = start * 16 ^ digits.length + hexNumber digits := by
  induction digits generalizing start with
  | nil => simp [hexNumber]
  | cons digit digits ih =>
    rw [hexNumber, List.foldl_cons, List.foldl_cons, ih, ih (16 * 0 + digit), List.length_cons, Nat.pow_succ]
    ring

/-- The digits of bytes are the digits of their number, the first byte in front. -/
theorem SpellsBytes.value (spells : SpellsBytes text bytes) :
    numeralValue text = beValue bytes ∧ (hexRun text).length = 2 * bytes.length := by
  induction spells with
  | nil => exact ⟨rfl, rfl⟩
  | @cons high low text byte bytes upper lower first second value rest ih =>
    obtain ⟨number, count⟩ := ih
    rw [numeralValue] at number ⊢
    rw [hexRun, first]
    dsimp only
    rw [hexRun, second]
    dsimp only
    constructor
    · rw [hexNumber, List.foldl_cons, List.foldl_cons, hexNumber_from, number, count, beValue_cons, value, Nat.pow_mul]
      ring
    · simp only [List.length_cons, count]
      omega

theorem SpellsBytes.numeral (spells : SpellsBytes text bytes) (some : bytes ≠ []) : IsNumeral text := by
  refine ⟨?_, spells.digits⟩
  rintro rfl
  cases spells
  exact some rfl

end Digits
section Arguments
variable {files : Files} {fname off len digits b : Bytes}

/-- The argument that names a place, a length and what is to be there. -/
def patchArgument (off len digits : Bytes) : Bytes := 64 :: (off ++ 58 :: (len ++ 61 :: digits))

theorem patchArgument_scan (offset : IsNumeral off) (length : IsNumeral len) (number : IsNumeral digits) :
    (scanItems patchFormat (patchArgument off len digits)).1 =
      [.number (strtoumax false (numeralValue off)), .number (strtoumax false (numeralValue len)),
        .number (strtoumax false (numeralValue digits))] := by
  have colon (rest : Bytes) : Stops (58 :: rest) := by
    rintro char ⟨⟩
    decide
  have equals (rest : Bytes) : Stops (61 :: rest) := by
    rintro char ⟨⟩
    decide
  have ending : Stops [] := by
    rintro char ⟨⟩
  have last := @scanItems_numeral digits [] [] number ending
  rw [List.append_nil] at last
  rw [patchFormat, patchArgument, scanItems_literal, scanItems_numeral offset (colon _), scanItems_literal,
    scanItems_numeral length (equals _), scanItems_literal, last]
  rfl

/-- What is reported is that the file has these bytes at that place, and is as before elsewhere. -/
def ReportsTyped (files : Files) (fname content b : Bytes) (offset : Nat) (out : Exec (Int × Files)) : Prop :=
  ∃ r after, out = .ok (r, after) ∧ (r = bxxtSuccess → after = Function.update files fname
    (some (content.take offset ++ b ++ content.drop (offset + b.length))))

theorem patch_inside {content : Bytes} {offset : Nat} {written : Int} (opened : files fname = some content)
    (small : content.length < 2 ^ 63) (some : b ≠ []) (short : b.length ≤ 8)
    (inside : offset + b.length ≤ content.length) :
    patch files written (UInt64.ofNat offset) (UInt64.ofNat (beValue b)) (UInt64.ofNat b.length) fname =
      .ok (bxxtSuccess, Function.update files fname (Option.some (writeReturning content offset b written))) := by
  have positive := List.length_pos_of_ne_nil some
  have offsetValue : (UInt64.ofNat offset).toNat = offset :=
    UInt64.toNat_ofNat_of_lt' (by simp only [UInt64.size]; omega)
  have sizeValue : (UInt64.ofNat b.length).toNat = b.length :=
    UInt64.toNat_ofNat_of_lt' (by simp only [UInt64.size]; omega)
  have reached : lseekSet (UInt64.ofNat offset) = (UInt64.ofNat offset, offset) := by
    rw [lseekSet, offsetValue, if_pos (by omega)]
  have sized : UInt64.ofNat b.length ≠ 0 := by
    intro none
    rw [none] at sizeValue
    have : (0 : UInt64).toNat = 0 := rfl
    omega
  rw [patch, sizeValue]
  dsimp only
  rw [if_neg (by omega), opened]
  dsimp only
  rw [reached, if_neg (not_not_intro rfl), if_neg sized, swapped_end short]

end Arguments

/-- A file that is told to be patched has the bytes that were typed, in their order and at their place,
if and only if it had those that `write` leaves out. More than eight are refused. -/
theorem patch_writes_typed_iff (files : Files) (written : Int) (command fname off len digits b : Bytes)
    (offset : IsNumeral off) (length : IsNumeral len) (counts : numeralValue len = b.length)
    (spells : SpellsBytes digits b) :
    (∀ content, files fname = some content → content.length < 2 ^ 63 → 1 ≤ b.length → b.length ≤ 8 →
        numeralValue off + b.length ≤ content.length →
        (ReportsTyped files fname content b (numeralValue off)
            (patchMain files written [command, patchArgument off len digits, fname]) ↔
          RestThere content (numeralValue off) b written)) ∧
      (8 < b.length → patchMain files written [command, patchArgument off len digits, fname] =
        .ok (bxxtFailed, files)) := by
  constructor
  · intro content opened small positive short inside
    have some : b ≠ [] := List.ne_nil_of_length_pos positive
    have value : beValue b < 2 ^ 64 := by
      apply Nat.lt_of_lt_of_le (beValue_lt b)
      exact Nat.pow_le_pow_right (by omega) (show b.length ≤ 8 from short)
    have run : patchMain files written [command, patchArgument off len digits, fname] = .ok (bxxtSuccess,
        Function.update files fname (Option.some (writeReturning content (numeralValue off) b written))) := by
      rw [patchMain, patchArgument_scan offset length (spells.numeral some)]
      dsimp only
      rw [spells.value.1, counts, strtoumax_fits value, strtoumax_fits (show b.length < 2 ^ 64 by omega),
        strtoumax_fits (show numeralValue off < 2 ^ 64 by omega)]
      exact patch_inside opened small some short inside
    rw [run, ← writeReturning_eq_iff inside]
    constructor
    · rintro ⟨r, after, same, reported⟩
      cases same
      exact Option.some.inj (Function.update_injective files fname (reported rfl))
    · intro same
      exact ⟨bxxtSuccess, _, rfl, fun _ => by rw [same]⟩
  · intro long
    have some : b ≠ [] := List.ne_nil_of_length_pos (by omega)
    have size : 8 < (UInt64.ofNat (strtoumax false b.length)).toNat := by
      rw [UInt64.toNat_ofNat_of_lt' (strtoumax_lt false b.length)]
      exact strtoumax_beyond (by omega) long
    rw [patchMain, patchArgument_scan offset length (spells.numeral some)]
    dsimp only
    rw [counts, patch]
    dsimp only
    rw [if_pos size]

section Flags

/-- The flags of a `vbmeta` image, and an argument for all four of them. -/
def flagsFiles : Files := Function.update (fun _ => none) (ascii "vbmeta") (some [1, 2, 3, 4, 5, 6])

def flagsArgument : Bytes := patchArgument (ascii "01") (ascii "4") (ascii "0000cCeE")

theorem flags_spelled : SpellsBytes (ascii "0000cCeE") [0, 0, 0xcc, 0xee] :=
  .cons 0 0 rfl rfl rfl (.cons 0 0 rfl rfl rfl (.cons 12 12 rfl rfl rfl (.cons 14 14 rfl rfl rfl .nil)))

theorem patch_writes_flags :
    ReportsTyped flagsFiles (ascii "vbmeta") [1, 2, 3, 4, 5, 6] [0, 0, 0xcc, 0xee] 1
      (patchMain flagsFiles 4 [ascii "patch", flagsArgument, ascii "vbmeta"]) := by
  have place : numeralValue (ascii "01") = 1 := by decide
  have typed := (patch_writes_typed_iff flagsFiles 4 (ascii "patch") (ascii "vbmeta") (ascii "01") (ascii "4")
    (ascii "0000cCeE") [0, 0, 0xcc, 0xee] (by decide +kernel) (by decide +kernel) (by decide +kernel) flags_spelled).1
    [1, 2, 3, 4, 5, 6] (Function.update_self _ _ _) (by simp) (by simp) (by simp) (by rw [place]; simp)
  rw [place] at typed
  exact typed.mpr (restThere_whole (by decide))

/-- The disk takes two bytes of four, and the patch is told to be done. -/
theorem half_of_flags_written :
    patchMain flagsFiles 2 [ascii "patch", flagsArgument, ascii "vbmeta"] =
        .ok (bxxtSuccess, Function.update flagsFiles (ascii "vbmeta") (some [1, 0, 0, 4, 5, 6])) ∧
      ¬ ReportsTyped flagsFiles (ascii "vbmeta") [1, 2, 3, 4, 5, 6] [0, 0, 0xcc, 0xee] 1
        (patchMain flagsFiles 2 [ascii "patch", flagsArgument, ascii "vbmeta"]) := by
  have scanned : (scanItems patchFormat flagsArgument).1 = [.number 1, .number 4, .number 0xccee] := by decide +kernel
  have run : patchMain flagsFiles 2 [ascii "patch", flagsArgument, ascii "vbmeta"] =
      .ok (bxxtSuccess, Function.update flagsFiles (ascii "vbmeta") (some [1, 0, 0, 4, 5, 6])) := by
    rw [patchMain, scanned]
    dsimp only
    exact patch_inside (b := [0, 0, 0xcc, 0xee]) (Function.update_self ..) (by simp) (by simp) (by simp) (by simp)
  refine ⟨run, ?_⟩
  rintro ⟨r, after, same, reported⟩
  rw [run] at same
  cases same
  have typed := Option.some.inj (Function.update_injective flagsFiles (ascii "vbmeta") (reported rfl))
  exact absurd typed (by decide)

end Flags
end Bxxt.Proofs
