import Bxxt.DtParser

/-! The tables of the parser accept the grammar that their own trace tables tell of. Two conflicts of the grammar are
settled: what begins with a label is another entry of the reserve map, and a slash is the first root. -/

namespace Bxxt.Proofs
open Bxxt ShiftReduce

section Grammar

def symbolOf (number : Int) : Sym := if number < yyntokens then .terminal number.toNat else .nonterminal number.toNat

/-- The rules of `dtc-parser.y`, without the one that adds the end. -/
def dtGrammar : Grammar where
  start := 49
  rules := (List.range 86).drop 2
  lhs := (yyr1.getD · 0)
  rhs := fun rule => ((yyrhs.drop (yyprhs.getD rule 0)).take (yyr2.getD rule 0)).map symbolOf
  settled := [(7, 22), (16, 26)]

end Grammar
section Certificate

/-- The rules that each state is inside of. -/
def dtItems : Items :=
  [[], [(3, 1), (4, 1)], [], [(5, 1), (6, 1)], [(2, 1)], [(3, 2), (4, 2)], [], [(6, 2)], [(9, 1)], [(10, 1)], [(2, 2)],
   [(8, 1)], [(4, 3)], [(39, 1)], [(40, 1)], [(41, 1)], [(9, 2)], [(10, 2)], [(11, 1)],
   [(2, 3), (12, 1), (13, 1), (14, 1), (15, 1)], [(8, 2)], [(4, 4)], [(74, 1)], [(75, 1)], [(76, 1)],
   [(73, 1)], [(41, 2)],
   [(42, 1)], [(43, 1), (44, 1), (46, 1)], [(45, 1), (48, 1)], [(47, 1), (50, 1)], [(49, 1), (52, 1)],
   [(51, 1), (54, 1)],
   [(53, 1), (56, 1), (57, 1)], [(55, 1), (59, 1), (60, 1), (61, 1), (62, 1)], [(58, 1), (63, 1), (64, 1)],
   [(65, 1), (66, 1), (67, 1)], [(68, 1), (69, 1), (70, 1), (71, 1)], [(72, 1)], [(9, 3)], [(17, 1)],
   [(11, 2)], [(15, 2)],
   [(13, 2)], [(14, 2)], [(12, 2)], [(74, 2)], [(75, 2)], [(76, 2)], [(41, 3)], [(46, 2)], [(44, 2)],
   [(48, 2)], [(50, 2)],
   [(52, 2)], [(54, 2)], [(56, 2)], [(57, 2)], [(61, 2)], [(62, 2)], [(60, 2)], [(59, 2)], [(63, 2)],
   [(64, 2)], [(66, 2)],
   [(67, 2)], [(70, 2)], [(69, 2)], [(71, 2)], [(9, 4)], [(17, 2), (19, 1)], [(15, 3)], [(13, 3)], [(14, 3)], [(12, 3)],
   [(46, 3), (48, 1)], [(44, 3)], [(48, 3), (50, 1)], [(50, 3), (52, 1)], [(52, 3), (54, 1)],
   [(54, 3), (56, 1), (57, 1)],
   [(56, 3), (59, 1), (60, 1), (61, 1), (62, 1)], [(57, 3), (59, 1), (60, 1), (61, 1), (62, 1)],
   [(61, 3), (63, 1), (64, 1)],
   [(62, 3), (63, 1), (64, 1)], [(60, 3), (63, 1), (64, 1)], [(59, 3), (63, 1), (64, 1)], [(63, 3), (66, 1), (67, 1)],
   [(64, 3), (66, 1), (67, 1)], [(66, 3), (69, 1), (70, 1), (71, 1)], [(67, 3), (69, 1), (70, 1), (71, 1)], [(70, 3)],
   [(69, 3)], [(71, 3)], [(22, 1)], [(84, 1)], [(20, 1), (21, 1), (83, 1)], [(23, 1), (85, 1)], [(19, 2)], [(17, 3)],
   [(81, 1), (82, 1)], [(15, 4)], [(13, 4)], [(44, 4)], [(22, 2)], [(84, 2)], [(21, 2)], [(20, 2)],
   [(83, 2)], [(23, 2)],
   [(85, 2)], [(17, 4)], [(82, 2)], [(81, 2)], [(44, 5)], [(22, 3)], [(84, 3)], [(20, 3), (30, 1), (32, 1)],
   [(24, 1), (25, 1), (26, 1), (27, 1), (28, 1), (29, 1), (33, 1)], [(17, 5)], [(30, 2)], [(20, 4)],
   [(32, 2)], [(34, 1)],
   [(24, 2)], [(33, 2)], [(27, 2)], [(28, 2), (29, 2)], [(26, 2)], [(35, 1)],
   [(25, 2), (36, 1), (37, 1), (38, 1)], [(34, 2)],
   [(28, 3), (29, 3)], [(26, 3), (78, 1), (79, 1)], [(38, 2)], [(37, 2)], [(25, 3)], [(36, 2)], [(34, 3)],
   [(28, 4), (29, 4)],
   [(78, 2)], [(79, 2)], [(26, 4)], [(28, 5)], [(29, 5)], [(28, 6)], [(28, 7)], [(28, 8)], [(28, 9)]]

/-- The tokens that may follow each nonterminal. -/
def dtFollow : List Nat :=
  [0x0, 0x1, 0x4c10029, 0x4c10021, 0x4c10001, 0x4c10021, 0x4c10001, 0x14c38001, 0x10438000, 0x10438000, 0x402400000,
   0x1081e04000, 0x240cc0000, 0x3ffe46cc3fc0, 0x4800000000, 0x4800000000, 0x6800002000, 0x6800003000, 0xe800003000,
   0x1e800003000, 0x3e800003000, 0x3e800003c00, 0x3f840003f00, 0x3f840003fc0, 0xff840003fc0,
     0x3ff844003fc0, 0x3ff844003fc0,
   0x100500000, 0x10000000, 0x10438000]

/-- The tokens that it may start with. -/
def dtStarts : List Nat :=
  [0x8, 0x8, 0x8, 0x8, 0x400020, 0x400020, 0x4c10000, 0x8000000, 0x428000, 0x428000, 0x1081e04000,
    0x1081e04000, 0x1000004000,
   0x2000c0000, 0xc802000c0000, 0xc802000c0000, 0xc802000c0000, 0xc802000c0000, 0xc802000c0000,
     0xc802000c0000, 0xc802000c0000,
   0xc802000c0000, 0xc802000c0000, 0xc802000c0000, 0xc802000c0000, 0xc802000c0000, 0xc802000c0000, 0x500000,
     0x430000, 0x430000]

def dtExpects : List (Nat × Nat) :=
  [(0, 0xe000000000000), (3, 0xc000000000000), (4, 0x30000000000000), (8, 0x2000000000000000), (9, 0x20000000000000),
   (10, 0x40000000000000), (11, 0x30000000000000), (15, 0x7ffe000000000000000), (16, 0x2000000000000000),
   (18, 0x80000000000000), (22, 0x4002000000000000000), (23, 0x4002000000000000000), (24, 0x4002000000000000000),
   (40, 0x100000000000000), (44, 0x80000000000000), (45, 0x80000000000000), (50, 0x7fe2000000000000000),
   (51, 0x7ffe000000000000000), (52, 0x7fc2000000000000000), (53, 0x7f82000000000000000), (54, 0x7f02000000000000000),
   (55, 0x7e02000000000000000), (56, 0x7c02000000000000000), (57, 0x7c02000000000000000), (58, 0x7802000000000000000),
   (59, 0x7802000000000000000), (60, 0x7802000000000000000), (61, 0x7802000000000000000), (62, 0x7002000000000000000),
   (63, 0x7002000000000000000), (64, 0x6002000000000000000), (65, 0x6002000000000000000), (66, 0x4002000000000000000),
   (67, 0x4002000000000000000), (68, 0x4002000000000000000), (70, 0x30000200000000000000), (72, 0x80000000000000),
   (96, 0x80000000000000), (97, 0x20000200000000000000), (100, 0x30000200000000000000), (103, 0x7ffa000000000000000),
   (107, 0xc00000000000000), (118, 0x1000000000000000), (128, 0x8000000000000000000), (130, 0x2000000000000000),
   (143, 0x2000000000000000), (146, 0x2000000000000000)]

def forSymbol (masks : List Nat) (symbol : Nat) : Nat := masks.getD (symbol - yyntokens) 0

def dtForecast : Forecast where
  expects := dtExpects
  follow := forSymbol dtFollow
  starts := forSymbol dtStarts
  empty := 0x18000950000000000000
  kinds := yyntokens

end Certificate
section Checks

/-- All that is to be computed from the tables. What is known of the parser rests on it. -/
structure TablesChecked : Prop where
  complete : TablesComplete dtForecast dtGrammar yytables
  sound : TablesSound dtForecast dtItems dtGrammar yytables
  translates : ∀ symbol ∈ yytranslate, symbol < yyntokens
  whole : ∀ rule ∈ dtGrammar.rules, dtGrammar.lhs rule = 49 → rule = 2
  parts : ∀ rule ∈ dtGrammar.rules, dtGrammar.lhs rule = 54 → rule = 11 ∨ rule = 16 ∨
    rule ∈ [12, 13, 14, 15]
  -- only the rules of the parts of a source have parts of a source in them
  inner : ∀ rule ∈ dtGrammar.rules, dtGrammar.lhs rule ≠ 49 ∧ dtGrammar.lhs rule ≠ 54 ∨ rule = 11 →
    ∀ symbol ∈ dtGrammar.rhs rule, symbol ≠ .nonterminal 49 ∧ symbol ≠ .nonterminal 54
  behind : ∀ rule ∈ [12, 13, 14, 15], dtGrammar.rhs rule = .nonterminal 54 :: (dtGrammar.rhs rule).tail ∧
    ∀ symbol ∈ (dtGrammar.rhs rule).tail, symbol ≠ .nonterminal 49 ∧ symbol ≠ .nonterminal 54
  values : ∀ rule ∈ dtGrammar.rules, dtGrammar.lhs rule ≠ 49 ∧ dtGrammar.lhs rule ≠ 54 →
    rule ∈ [39, 40, 42, 43, 45, 47, 49, 51, 53, 55, 58, 65, 68, 72, 73] ∨
      rule ∈ [46, 48, 50, 52, 54, 56, 57, 59, 60, 61, 62, 63, 64, 66, 67, 69, 70, 71] ∨ rule ∈ [74, 75, 76] ∨
      rule ∈ [3, 4, 5, 6, 7, 8, 9, 10, 17, 18, 19, 20, 21, 22, 23, 24, 25, 26, 27, 28, 29, 30, 31, 32, 33, 34, 35,
        36, 37, 38, 41, 44,
        77, 78, 79, 80, 81, 82, 83, 84, 85]

end Checks
section Parser
variable {σ : Type} {files : SourceFiles} {yylex : σ → Exec (Token × σ)}

theorem TablesChecked.yytranslated_lt (checked : TablesChecked) (yychar : Int) : yytranslated yychar < yyntokens := by
  rw [yytranslated]
  split
  · decide
  split
  · rw [List.getD_eq_getElem?_getD]
    cases known : yytranslate[yychar.toNat]? with
    | none => decide
    | some symbol => exact checked.translates symbol (List.mem_of_getElem? known)
  · decide

/-- The parser accepts the trees of the grammar for which its stack has room, and nothing else. What
it makes of them is what the actions make of a tree. -/
theorem TablesChecked.yyparse_accepted (checked : TablesChecked) {source : σ} {nextOrphanFragment : Nat}
    {result : ParserState} :
    (∃ fuel, yyparse files yylex fuel source nextOrphanFragment = some (.ok result)) ↔
      ∃ tree, Remains (dtDriver files yylex) none source tree.yield ∧
        Parse dtGrammar (dtDriver files yylex) ⟨nextOrphanFragment, none⟩ result tree :=
  accepted_iff checked.complete checked.sound fun token => checked.yytranslated_lt token.yychar

end Parser
end Bxxt.Proofs
