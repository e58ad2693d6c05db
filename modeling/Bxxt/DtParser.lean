import Bxxt.SourceFiles
import Bxxt.DtSource
import Bxxt.Lib.ShiftReduce

/-! `dtc-parser.c`: the tables, the actions of the rules and the loop that uses them. Of the location of a text there is
only the directory of its file, which the name of an included file is relative to. -/

namespace Bxxt
open ByteLayout SiblingTree ShiftReduce

section Tables

def yytranslate : List Nat :=
  [0, 2, 2, 2, 2, 2, 2, 2, 2, 2, 2, 2, 2, 2, 2, 2, 2, 2, 2, 2, 2, 2, 2, 2, 2, 2, 2, 2, 2, 2, 2, 2, 2, 47, 2, 2, 2,
   45, 41, 2, 33, 35, 44, 42, 34, 43, 2, 26, 2, 2, 2, 2, 2, 2, 2, 2, 2, 2, 38, 25, 36, 29, 30, 37, 2, 2, 2, 2, 2, 2,
   2, 2, 2, 2, 2, 2, 2, 2, 2, 2, 2, 2, 2, 2, 2, 2, 2, 2, 2, 2, 2, 31, 2, 32, 40, 2, 2, 2, 2, 2, 2, 2, 2, 2, 2, 2, 2,
   2, 2, 2, 2, 2, 2, 2, 2, 2, 2, 2, 2, 2, 2, 2, 2, 27, 39, 28, 46, 2, 2, 2, 2, 2, 2, 2, 2, 2, 2, 2, 2, 2, 2, 2, 2, 2,
   2, 2, 2, 2, 2, 2, 2, 2, 2, 2, 2, 2, 2, 2, 2, 2, 2, 2, 2, 2, 2, 2, 2, 2, 2, 2, 2, 2, 2, 2, 2, 2, 2, 2, 2, 2, 2, 2,
   2, 2, 2, 2, 2, 2, 2, 2, 2, 2, 2, 2, 2, 2, 2, 2, 2, 2, 2, 2, 2, 2, 2, 2, 2, 2, 2, 2, 2, 2, 2, 2, 2, 2, 2, 2, 2, 2,
   2, 2, 2, 2, 2, 2, 2, 2, 2, 2, 2, 2, 2, 2, 2, 2, 2, 2, 2, 2, 2, 2, 2, 2, 2, 2, 2, 2, 2, 2, 2, 2, 2, 2, 2, 2, 1, 2,
   3, 4, 5, 6, 7, 8, 9, 10, 11, 12, 13, 14, 15, 16, 17, 18, 19, 20, 21, 22, 23, 24]

/-- The rules, as the tables for a trace have them. -/
def yyprhs : List Nat :=
  [0, 0, 3, 7, 10, 15, 17, 20, 21, 24, 29, 32, 35, 39, 44, 48, 53, 54, 60, 61, 64, 69, 72, 76, 79, 82, 86, 91, 94,
   104, 110, 113, 114, 117, 120, 124, 126, 129, 132, 135, 137, 139, 143, 145, 147, 153, 155, 159, 161, 165, 167, 171,
   173, 177, 179, 183, 185, 189, 193, 195, 199, 203, 207, 211, 215, 219, 221, 225, 229, 231, 235, 239, 243, 245, 247,
   250, 253, 256, 257, 260, 263, 264, 267, 270, 273, 277]

def yyrhs : List Int :=
  [49, 0, -1, 51, 52, 54, -1, 3, 25, -1, 3, 25, 4, 25, -1, 50, -1, 50, 51, -1, -1, 53, 52, -1, 5, 61, 61, 25, -1, 22,
   53, -1, 26, 55, -1, 54, 26, 55, -1, 54, 22, 23, 55, -1, 54, 23, 55, -1, 54, 16, 23, 25, -1, -1, 27, 56, 76, 28,
   25, -1, -1, 56, 57, -1, 17, 29, 58, 25, -1, 17, 25, -1, 15, 17, 25, -1, 22, 57, -1, 59, 21, -1, 59, 60, 30, -1,
   59, 31, 75, 32, -1, 59, 23, -1, 59, 24, 33, 21, 34, 61, 34, 61, 35, -1, 59, 24, 33, 21, 35, -1, 58, 22, -1, -1,
   58, 34, -1, 59, 22, -1, 14, 18, 36, -1, 36, -1, 60, 61, -1, 60, 23, -1, 60, 22, -1, 18, -1, 19, -1, 33, 62, 35,
   -1, 63, -1, 64, -1, 64, 37, 62, 38, 63, -1, 65, -1, 64, 13, 65, -1, 66, -1, 65, 12, 66, -1, 67, -1, 66, 39, 67,
   -1, 68, -1, 67, 40, 68, -1, 69, -1, 68, 41, 69, -1, 70, -1, 69, 10, 70, -1, 69, 11, 70, -1, 71, -1, 70, 36, 71,
   -1, 70, 30, 71, -1, 70, 8, 71, -1, 70, 9, 71, -1, 71, 6, 72, -1, 71, 7, 72, -1, 72, -1, 72, 42, 73, -1, 72, 43,
   73, -1, 73, -1, 73, 44, 74, -1, 73, 26, 74, -1, 73, 45, 74, -1, 74, -1, 61, -1, 43, 74, -1, 46, 74, -1, 47, 74,
   -1, -1, 75, 20, -1, 75, 22, -1, -1, 77, 76, -1, 77, 57, -1, 17, 55, -1, 16, 17, 25, -1, 22, 77, -1]

def yyr1 : List Nat :=
  [0, 48, 49, 50, 50, 51, 51, 52, 52, 53, 53, 54, 54, 54, 54, 54, 54, 55, 56, 56, 57, 57, 57, 57, 58, 58, 58, 58, 58,
   58, 58, 59, 59, 59, 60, 60, 60, 60, 60, 61, 61, 61, 62, 63, 63, 64, 64, 65, 65, 66, 66, 67, 67, 68, 68, 69, 69,
   69, 70, 70, 70, 70, 70, 71, 71, 71, 72, 72, 72, 73, 73, 73, 73, 74, 74, 74, 74, 75, 75, 75, 76, 76, 76, 77, 77, 77]

def yyr2 : List Nat :=
  [0, 2, 3, 2, 4, 1, 2, 0, 2, 4, 2, 2, 3, 4, 3, 4, 0, 5, 0, 2, 4, 2, 3, 2, 2, 3, 4, 2, 9, 5, 2, 0, 2, 2, 3, 1, 2, 2,
   2, 1, 1, 3, 1, 1, 5, 1, 3, 1, 3, 1, 3, 1, 3, 1, 3, 1, 3, 3, 1, 3, 3, 3, 3, 3, 3, 1, 3, 3, 1, 3, 3, 3, 1, 1, 2, 2,
   2, 0, 2, 2, 0, 2, 2, 2, 3, 2]

def yydefact : List Nat :=
  [0, 0, 0, 5, 7, 3, 1, 6, 0, 0, 16, 7, 0, 39, 40, 0, 0, 10, 0, 2, 8, 4, 0, 0, 0, 73, 0, 42, 43, 45, 47, 49, 51, 53,
   55, 58, 65, 68, 72, 0, 18, 11, 0, 0, 0, 0, 74, 75, 76, 41, 0, 0, 0, 0, 0, 0, 0, 0, 0, 0, 0, 0, 0, 0, 0, 0, 0, 0,
   0, 9, 80, 0, 0, 14, 12, 46, 0, 48, 50, 52, 54, 56, 57, 61, 62, 60, 59, 63, 64, 66, 67, 70, 69, 71, 0, 0, 0, 0, 19,
   0, 80, 15, 13, 0, 0, 0, 21, 31, 83, 23, 85, 0, 82, 81, 44, 22, 84, 0, 0, 17, 30, 20, 32, 0, 24, 33, 27, 0, 77, 35,
   0, 0, 0, 0, 38, 37, 25, 36, 34, 0, 78, 79, 26, 0, 29, 0, 0, 0, 28]

def yydefgoto : List Int :=
  [-1, 2, 3, 4, 10, 11, 19, 41, 70, 98, 117, 118, 130, 25, 26, 27, 28, 29, 30, 31, 32, 33, 34, 35, 36, 37, 38, 133,
   99, 100]

def yypact : List Int :=
  [14, 27, 61, 14, 8, 18, -44, -44, 37, 8, 40, 8, 64, -44, -44, -12, 37, -44, 50, 52, -44, -44, -12, -12, -12, -44,
   51, -44, -4, 78, 53, 54, 55, 17, 2, 30, 38, -3, -44, 66, -44, -44, 70, 72, 50, 50, -44, -44, -44, -44, -12, -12,
   -12, -12, -12, -12, -12, -12, -12, -12, -12, -12, -12, -12, -12, -12, -12, -12, -12, -44, 3, 73, 50, -44, -44, 78,
   59, 53, 54, 55, 17, 2, 2, 30, 30, 30, 30, 38, 38, -3, -3, -44, -44, -44, 82, 83, 44, 3, -44, 74, 3, -44, -44, -12,
   76, 79, -44, -44, -44, -44, -44, 80, -44, -44, -44, -44, -44, -10, 36, -44, -44, -44, -44, 85, -44, -44, -44, 75,
   -44, -44, 21, 71, 88, -6, -44, -44, -44, -44, -44, 11, -44, -44, -44, 37, -44, 77, 37, 81, -44]

def yypgoto : List Int :=
  [-44, -44, -44, 103, 99, 104, -44, -43, -44, -21, -44, -44, -44, -8, 63, 9, -44, 65, 67, 68, 69, 62, 26, 4, 22, 23,
   -19, -44, 20, 28]

def yytable : List Int :=
  [16, 73, 74, 46, 47, 48, 13, 14, 39, 50, 58, 59, 120, 8, 140, 121, 141, 1, 94, 95, 96, 15, 12, 66, 122, 97, 142,
   56, 57, 102, 9, 22, 60, 51, 23, 24, 62, 63, 61, 13, 14, 67, 68, 134, 135, 143, 144, 91, 92, 93, 123, 136, 5, 108,
   15, 13, 14, 124, 125, 126, 127, 6, 83, 84, 85, 86, 18, 128, 42, 106, 15, 40, 129, 107, 43, 44, 109, 40, 45, 112,
   64, 65, 81, 82, 87, 88, 49, 89, 90, 21, 52, 69, 53, 71, 54, 72, 55, 103, 101, 104, 105, 115, 111, 131, 116, 119,
   7, 138, 132, 139, 20, 146, 114, 17, 76, 75, 148, 80, 0, 77, 113, 78, 137, 79, 0, 110, 0, 0, 0, 0, 0, 0, 0, 0, 0,
   145, 0, 0, 147]

def yycheck : List Int :=
  [8, 44, 45, 22, 23, 24, 18, 19, 16, 13, 8, 9, 22, 5, 20, 25, 22, 3, 15, 16, 17, 33, 4, 26, 34, 22, 32, 10, 11, 72,
   22, 43, 30, 37, 46, 47, 6, 7, 36, 18, 19, 44, 45, 22, 23, 34, 35, 66, 67, 68, 14, 30, 25, 96, 33, 18, 19, 21, 22,
   23, 24, 0, 58, 59, 60, 61, 26, 31, 16, 25, 33, 27, 36, 29, 22, 23, 97, 27, 26, 100, 42, 43, 56, 57, 62, 63, 35,
   64, 65, 25, 12, 25, 39, 23, 40, 23, 41, 38, 25, 17, 17, 25, 28, 18, 25, 25, 3, 36, 33, 21, 11, 34, 103, 9, 51, 50,
   35, 55, -1, 52, 100, 53, 130, 54, -1, 97, -1, -1, -1, -1, -1, -1, -1, -1, -1, 143, -1, -1, 146]

def yypactNinf : Int := -44
def yytableNinf : Int := -1
def yyfinal : Int := 6
def yylast : Int := 138
def yyntokens : Nat := 48
def yymaxutok : Nat := 279
def yymaxdepth : Nat := 10000

def yyconsistent (yystate : Nat) : Option Nat :=
  if yypact.getD yystate 0 = yypactNinf then some (yydefact.getD yystate 0) else none

def yydefault (yystate : Nat) : Action :=
  match yydefact.getD yystate 0 with
  | 0 => .error
  | yyn => .reduce yyn

/-- `yybackup`, once the token is known. -/
def yybackup (yystate yytoken : Nat) : Action :=
  let yyn := yypact.getD yystate 0 + yytoken
  if yyn < 0 ∨ yylast < yyn ∨ yycheck.getD yyn.toNat 0 ≠ yytoken then yydefault yystate
  else
    let yyn := yytable.getD yyn.toNat 0
    if yyn = 0 ∨ yyn = yytableNinf then .error
    else if yyn < 0 then .reduce (-yyn).toNat
    else if yyn = yyfinal then .accept
    else .shift yyn.toNat

/-- Where a reduction leads from the state below it. -/
def yygoto (yystate symbol : Nat) : Nat :=
  let place := yypgoto.getD (symbol - yyntokens) 0 + yystate
  if 0 ≤ place ∧ place ≤ yylast ∧ yycheck.getD place.toNat 0 = yystate then (yytable.getD place.toNat 0).toNat
  else (yydefgoto.getD (symbol - yyntokens) 0).toNat

def yytables : ShiftReduce.Tables where
  always := yyconsistent
  action := yybackup
  goto := yygoto
  lhs := (yyr1.getD · 0)
  size := (yyr2.getD · 0)

end Tables
section Values

/-- `YYSTYPE`. Only the member that was written last is read. -/
inductive Semantic where
  | absent
  | propnodename (name : Bytes)
  | labelref (ref : Bytes)
  | byte (value : UInt8)
  | data (data : Data)
  | array (data : Data) (bits : Nat)
  | prop (prop : Property)
  | proplist (last : List Property)
  | node (node : Node)
  | nodelist (nodes : Nodes)
  | re (reservelist : List ReserveInfo)
  | integer (value : UInt64)
  | flags (dtsflags : Nat)

/-- A value, and the directory of the file that its text was read from. -/
structure Located where
  value : Semantic
  dir : Option Bytes

/-- What the lexer returns: a character or a code of `dtc-parser.h`, zero or less at the end. -/
structure Token where
  yychar : Int
  yylval : Semantic
  dir : Option Bytes

def dtV1 : Int := 258
def dtPropnodename : Int := 272
def dtString : Int := 276

/-- `YYTRANSLATE`, and the check for the end. -/
def yytranslated (yychar : Int) : Nat :=
  if yychar ≤ 0 then 0 else if yychar ≤ yymaxutok then yytranslate.getD yychar.toNat 0 else 2

structure ParserState where
  nextOrphanFragment : Nat
  parserOutput : Option DtInfo
  deriving DecidableEq

end Values
section Actions

/-- A member that was not the last one written has no value. The rules of the grammar do not come here. -/
def wrongMember {α : Type} : Exec α := .error .nullPointer

def ofBool (value : Bool) : UInt64 := if value then 1 else 0

def truth (value : UInt64) : Bool := value ≠ 0

/-- The operators of `integer_expr` with two operands. A shift by the width or more has no value in C. -/
def binaryOperator (yyn : Nat) (left right : UInt64) : Exec UInt64 :=
  match yyn with
  | 46 => .ok (ofBool (truth left || truth right))
  | 48 => .ok (ofBool (truth left && truth right))
  | 50 => .ok (left ||| right)
  | 52 => .ok (left ^^^ right)
  | 54 => .ok (left &&& right)
  | 56 => .ok (ofBool (left = right))
  | 57 => .ok (ofBool (left ≠ right))
  | 59 => .ok (ofBool (left < right))
  | 60 => .ok (ofBool (right < left))
  | 61 => .ok (ofBool (left ≤ right))
  | 62 => .ok (ofBool (right ≤ left))
  | 63 => if right < 64 then .ok (left <<< right) else .error .intOverflow
  | 64 => if right < 64 then .ok (left >>> right) else .error .intOverflow
  | 66 => .ok (left + right)
  | 67 => .ok (left - right)
  | 69 => .ok (left * right)
  | 70 => if right = 0 then .error .exited else .ok (left / right)
  | _ => if right = 0 then .error .exited else .ok (left % right)

/-- An action that writes no globals. The last value comes first; a rule without an action keeps its first one. -/
def yyvalue (files : SourceFiles) (dir : Option Bytes) (yyn : Nat) (yyvsp : List Semantic) : Exec Semantic :=
  match yyn with
  | 3 => .ok (.flags dtsfV1)
  | 4 => .ok (.flags (dtsfV1 ||| dtsfPlugin))
  | 6 =>
    match yyvsp with
    | .flags second :: .flags first :: _ => if second ≠ first then .error .exited else .ok (.flags first)
    | _ => wrongMember
  | 7 => .ok (.re [])
  | 8 =>
    match yyvsp with
    | .re list :: .re first :: _ => .ok (.re (first ++ list))
    | _ => wrongMember
  | 9 =>
    match yyvsp with
    | _ :: .integer size :: .integer address :: _ => .ok (.re [⟨address, size⟩])
    | _ => wrongMember
  | 10 =>
    match yyvsp with
    | .re re :: .labelref _ :: _ => .ok (.re re)
    | _ => wrongMember
  | 11 =>
    match yyvsp with
    | .node node :: _ => .ok (.node (nameNode node []))
    | _ => wrongMember
  | 12 =>
    match yyvsp with
    | .node new :: _ :: .node dt :: _ => .ok (.node (dt.alter (mergeNodes new) []))
    | _ => wrongMember
  | 13 =>
    match yyvsp with
    | .node new :: .labelref ref :: .labelref label :: .node dt :: _ =>
      match getNodeByRef dt ref with
      | none => .error .exited
      | some target =>
        let dt := dt.modify (fun info => { info with labels := addLabel info.labels label }) target
        .ok (.node (dt.alter (mergeNodes new) target))
    | _ => wrongMember
  | 15 =>
    match yyvsp with
    | _ :: .labelref ref :: _ :: .node dt :: _ =>
      match getNodeByRef dt ref with
      | none => .error .exited
      | some target => .ok (.node (dt.alter (fun info children => (deleteInfo info, deleteChildren children)) target))
    | _ => wrongMember
  | 16 => .ok (.node (nameNode (buildNode [] .nil) []))
  | 17 =>
    match yyvsp with
    | _ :: _ :: .nodelist nodes :: .proplist last :: _ => .ok (.node (buildNode last.reverse nodes))
    | _ => wrongMember
  | 18 => .ok (.proplist [])
  | 19 =>
    match yyvsp with
    | .prop prop :: .proplist last :: _ => .ok (.proplist (prop :: last))
    | _ => wrongMember
  | 20 =>
    match yyvsp with
    | _ :: .data data :: _ :: .propnodename name :: _ => .ok (.prop (buildProperty name data))
    | _ => wrongMember
  | 21 =>
    match yyvsp with
    | _ :: .propnodename name :: _ => .ok (.prop (buildProperty name emptyData))
    | _ => wrongMember
  | 22 =>
    match yyvsp with
    | _ :: .propnodename name :: _ => .ok (.prop (buildPropertyDelete name))
    | _ => wrongMember
  | 23 =>
    match yyvsp with
    | .prop prop :: .labelref label :: _ => .ok (.prop { prop with labels := addLabel prop.labels label })
    | _ => wrongMember
  | 24 =>
    match yyvsp with
    | .data string :: .data data :: _ => do return .data (← dataMerge data string)
    | _ => wrongMember
  | 25 =>
    match yyvsp with
    | _ :: .array array _ :: .data data :: _ => do return .data (← dataMerge data array)
    | _ => wrongMember
  | 26 =>
    match yyvsp with
    | _ :: .data bytes :: _ :: .data data :: _ => do return .data (← dataMerge data bytes)
    | _ => wrongMember
  | 27 =>
    match yyvsp with
    | .labelref ref :: .data data :: _ => .ok (.data (dataAddMarker data .refPath ref))
    | _ => wrongMember
  | 28 =>
    match yyvsp with
    | _ :: .integer maxlen :: _ :: .integer offset :: _ :: .data name :: _ :: _ :: .data data :: _ => do
      let (_, content) ← srcfileRelativeOpen files dir (cString name.val)
      let content ← if offset ≠ 0 then seekFrom content offset.toNat else pure content
      return .data (← dataMerge data (← dataCopyFile content maxlen.toNat))
    | _ => wrongMember
  | 29 =>
    match yyvsp with
    | _ :: .data name :: _ :: _ :: .data data :: _ => do
      let (_, content) ← srcfileRelativeOpen files dir (cString name.val)
      return .data (← dataMerge data (← dataCopyFile content (2 ^ 64 - 1)))
    | _ => wrongMember
  | 30 =>
    match yyvsp with
    | .labelref label :: .data data :: _ => .ok (.data (dataAddMarker data .label label))
    | _ => wrongMember
  | 31 => .ok (.data emptyData)
  | 32 =>
    match yyvsp with
    | _ :: .data data :: _ => .ok (.data data)
    | _ => wrongMember
  | 33 =>
    match yyvsp with
    | .labelref label :: .data data :: _ => .ok (.data (dataAddMarker data .label label))
    | _ => wrongMember
  | 34 =>
    match yyvsp with
    | _ :: .integer bits :: _ =>
      if bits ≠ 8 ∧ bits ≠ 16 ∧ bits ≠ 32 ∧ bits ≠ 64 then .error .exited
      else .ok (.array emptyData bits.toNat)
    | _ => wrongMember
  | 35 => .ok (.array emptyData 32)
  | 36 =>
    match yyvsp with
    | .integer value :: .array data bits :: _ =>
      if bits < 64 ∧ 2 ^ bits - 1 < value.toNat ∧ value.toNat ||| (2 ^ bits - 1) ≠ 2 ^ 64 - 1 then .error .exited
      else do return .array (← dataAppendInteger data value.toNat bits) bits
    | _ => wrongMember
  | 37 =>
    match yyvsp with
    | .labelref ref :: .array data bits :: _ =>
      if bits = 32 then do
        return .array (← dataAppendInteger (dataAddMarker data .refPhandle ref) (2 ^ bits - 1) bits) bits
      else .error .exited
    | _ => wrongMember
  | 38 =>
    match yyvsp with
    | .labelref label :: .array data bits :: _ => .ok (.array (dataAddMarker data .label label) bits)
    | _ => wrongMember
  | 41 =>
    match yyvsp with
    | _ :: .integer value :: _ => .ok (.integer value)
    | _ => wrongMember
  | 44 =>
    match yyvsp with
    | .integer no :: _ :: .integer yes :: _ :: .integer test :: _ => .ok (.integer (if truth test then yes else no))
    | _ => wrongMember
  | 74 =>
    match yyvsp with
    | .integer value :: _ => .ok (.integer (-value))
    | _ => wrongMember
  | 75 =>
    match yyvsp with
    | .integer value :: _ => .ok (.integer (~~~value))
    | _ => wrongMember
  | 76 =>
    match yyvsp with
    | .integer value :: _ => .ok (.integer (ofBool (!truth value)))
    | _ => wrongMember
  | 77 => .ok (.data emptyData)
  | 78 =>
    match yyvsp with
    | .byte byte :: .data data :: _ => do return .data (← dataAppendByte data byte)
    | _ => wrongMember
  | 79 =>
    match yyvsp with
    | .labelref label :: .data data :: _ => .ok (.data (dataAddMarker data .label label))
    | _ => wrongMember
  | 80 => .ok (.nodelist .nil)
  | 81 =>
    match yyvsp with
    | .nodelist list :: .node first :: _ => .ok (.nodelist (.node first.value first.children list))
    | _ => wrongMember
  -- properties must precede subnodes
  | 82 => .error .exited
  | 83 =>
    match yyvsp with
    | .node node :: .propnodename name :: _ => .ok (.node (nameNode node name))
    | _ => wrongMember
  | 84 =>
    match yyvsp with
    | _ :: .propnodename name :: _ => .ok (.node (nameNode buildNodeDelete name))
    | _ => wrongMember
  | 85 =>
    match yyvsp with
    | .node node :: .labelref label :: _ =>
      .ok (.node { node with value := { node.value with labels := addLabel node.value.labels label } })
    | _ => wrongMember
  | _ =>
    if yyr2.getD yyn 0 = 1 then .ok (yyvsp.headD .absent)
    else
      match yyvsp with
      | .integer right :: _ :: .integer left :: _ => do return .integer (← binaryOperator yyn left right)
      | _ => wrongMember

def yyaction (files : SourceFiles) (dir : Option Bytes) (yyn : Nat) (yyvsp : List Semantic) (state : ParserState) :
    Exec (Semantic × ParserState) :=
  match yyn with
  | 2 =>
    match yyvsp with
    | .node dt :: .re reservelist :: .flags flags :: _ => do
      return (.absent, { state with parserOutput := some ⟨flags, reservelist, dt, ← guessBootCpuid dt⟩ })
    | _ => wrongMember
  | 14 =>
    match yyvsp with
    | .node new :: .labelref ref :: .node dt :: _ :: .flags flags :: _ =>
      match getNodeByRef dt ref with
      | some target => .ok (.node (dt.alter (mergeNodes new) target), state)
      | none =>
        if flags &&& dtsfPlugin ≠ 0 then do
          let dt ← addOrphanNode dt state.nextOrphanFragment new ref
          return (.node dt, { state with nextOrphanFragment := state.nextOrphanFragment + 1 })
        else .error .exited
    | _ => wrongMember
  | _ => do return (← yyvalue files dir yyn yyvsp, state)

end Actions
section Parser
variable {σ : Type}

/-- The parser over some source of tokens. A result of any rule is from the file of the last value. -/
def dtDriver (files : SourceFiles) (yylex : σ → Exec (Token × σ)) : Driver Token Located ParserState σ Fault where
  next := yylex
  kind := fun token => yytranslated token.yychar
  shifted := fun token => ⟨token.yylval, token.dir⟩
  reduced := fun yyn yyvsp state => do
    let dir := (yyvsp.head?.map (·.dir)).join
    let (value, state) ← yyaction files dir yyn (yyvsp.map (·.value)) state
    return (⟨value, dir⟩, state)
  limit := yymaxdepth
  rejected := .exited
  exhausted := .exited

/-- `yyparse`. An error ends the program. -/
def yyparse (files : SourceFiles) (yylex : σ → Exec (Token × σ)) (fuel : Nat) (source : σ)
    (nextOrphanFragment : Nat) :
    Option (Exec ParserState) :=
  run yytables (dtDriver files yylex) fuel ⟨[], none, source, ⟨nextOrphanFragment, none⟩⟩

end Parser
end Bxxt
