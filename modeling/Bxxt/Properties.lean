import Bxxt.Cpio
import Bxxt.Patch

/-! `prop.c`: a property is set in the file that its record is mapped from. The file is found in the list
of the mappings of the process. -/

namespace Bxxt
open ByteLayout TextScan NumberScan

section Maps

structure BxxtMapinfo where
  file : Bytes
  start : Nat
  finish : Nat
  deriving DecidableEq

/-- `"%lx-%lx %[^\n]s"`. -/
def mapsFormat : List Item := [.hex, .literal 45, .hex, .blanks, .run (· ≠ newline), .literal 115]

def bxxtScanMapsByOffsetCallback (offset : Nat) (bm : BxxtMapinfo) : Int :=
  if bm.start ≤ offset ∧ offset ≤ bm.finish then 0 else 1

def lastWord (name : Bytes) : Bytes := (((name.takeWhile (· ≠ 0)).reverse).takeWhile (· ≠ 32)).reverse

/-- The addresses that a line had before it failed. -/
def BxxtMapinfo.scanned (bm : BxxtMapinfo) : List Field → BxxtMapinfo
  | [.number start] => { bm with start }
  | .number start :: .number finish :: _ => { bm with start, finish }
  | _ => bm

/-- The loop over the lines. Each of them takes some of the text. -/
def scanMapsLoop (callback : BxxtMapinfo → Int) : Nat → Bytes → BxxtMapinfo → Exec (Int × BxxtMapinfo)
  | 0, _, bm => .ok (1, bm)
  | fuel + 1, text, bm =>
    match scanItems mapsFormat text with
    | ([.number start, .number finish, .text name], rest) =>
      if pathMax ≤ name.length then .error .outOfBounds
      else
        let bm := ⟨lastWord name, start, finish⟩
        if callback bm = 0 then .ok (0, bm) else scanMapsLoop callback fuel rest bm
    | (fields, _) => .ok (1, bm.scanned fields)

/-- Where there is no list, nothing is found at the start of the memory. -/
def bxxtScanMapsByCallback (maps : Option Bytes) (callback : BxxtMapinfo → Int) : Exec (Int × BxxtMapinfo) :=
  match maps with
  | none => .ok (0, ⟨[], 0, 0⟩)
  | some text => scanMapsLoop callback (text.length + 1) text ⟨[], 0, 0⟩

end Maps
section Set

def propValueMax : Nat := 92

/-- The process: the list of its mappings, its memory, `__system_property_find` with 0 for a name that
is not there, and what `write` returns at a place of the area's file. -/
structure PropProcess where
  maps : Option Bytes
  memory : Nat → Option UInt8
  systemPropertyFind : Bytes → Nat
  written : Nat → Bytes → Int

def PropProcess.serial (process : PropProcess) (addr : Nat) : Exec UInt32 :=
  match (List.range 4).mapM fun i => process.memory (addr + i) with
  | none => .error .outOfBounds
  | some bytes => .ok (UInt32.ofNat (leValue bytes))

def bxxtPropSet (process : PropProcess) (files : Files) (name value : Bytes) : Exec (Int × Files) := do
  let addr := process.systemPropertyFind name
  let scanned ← bxxtScanMapsByCallback process.maps (bxxtScanMapsByOffsetCallback addr)
  if scanned.1 ≠ 0 then return (1, files)
  let offset := addr - scanned.2.start
  if propValueMax < value.length then return (1, files)
  match files scanned.2.file with
  | none => return (1, files)
  | some content =>
    let old ← process.serial addr
    let serial := UInt32.ofNat value.length <<< 24 ||| (old <<< 8) >>> 8
    let word := leBytes 4 serial.toNat
    let content := writeReturning content offset word (process.written offset word)
    -- only the second result is looked at, and there only whether anything was stored
    let r := process.written (offset + 4) (value ++ [0])
    let content := writeReturning content (offset + 4) (value ++ [0]) r
    return (if 0 < r then 0 else 1, Function.update files scanned.2.file (some content))

end Set
end Bxxt
