import Bxxt.Proofs.ParsedSource
import Bxxt.Lib.ParseRuns

/-! The runs of the parser: when they end, and that they leave no choice. -/

namespace Bxxt.Proofs
open Bxxt ByteLayout SiblingTree ShiftReduce

section Budgets

/-- A token pays for eight steps. What a nonterminal may take beyond its tokens is no more than seven. -/
def dtBudget : Budget where
  charge := 8
  most := 7
  own := fun index => [-9, -13, -12, 1, -25, 1, -18, 1, -13, -5, 1, -6, -6, 7, 6, 5, 4, 3, 2, 1, 0, -1, -2, -3, -4, -5,
    1, 1, -20].getD (index - 49) 0

set_option maxRecDepth 8000 in
theorem dtBudget_covers : dtBudget.Covers dtGrammar where
  rules := by decide
  most := by decide
  positive := by decide

end Budgets
section Tokens

def nextToken : List { token // ProperToken token } → Exec (Token × List { token // ProperToken token })
  | [] => .ok (⟨0, .absent, none⟩, [])
  | token :: tokens => .ok (token.val, tokens)

theorem nextToken_proper : ∀ source token after, nextToken source = .ok (token, after) → ProperToken token := by
  intro source token after next
  cases source with
  | nil =>
    cases next
    exact ⟨_, rfl⟩
  | cons first rest =>
    cases next
    exact first.property

theorem nextToken_lasts {files : SourceFiles} : ∀ source, Lasts (dtDriver files nextToken) source.length source
  | [] => fun token after next => by
    cases next
    rfl
  | first :: rest => fun token after next => by
    cases next
    exact .inr (nextToken_lasts rest)

def charToken (char : UInt8) (means : ProperToken ⟨char.toNat, .absent, none⟩) :
    { token // ProperToken token } := ⟨_, means⟩

def noFiles : SourceFiles := ⟨fun _ => none, []⟩

/-- `/dts-v1/; / { a = "b"; };` -/
def smallSource : List { token // ProperToken token } :=
  [⟨⟨dtV1, .absent, none⟩, _, rfl⟩, charToken 59 ⟨_, rfl⟩, charToken 47 ⟨_, rfl⟩,
    charToken 123 ⟨_, rfl⟩,
    ⟨⟨dtPropnodename, .propnodename [97], none⟩, _, rfl⟩, charToken 61 ⟨_, rfl⟩,
    ⟨⟨dtString, .data ⟨[98, 0], []⟩, none⟩, _, rfl⟩,
    charToken 59 ⟨_, rfl⟩, charToken 125 ⟨_, rfl⟩, charToken 59 ⟨_, rfl⟩]

def smallTree : DtInfo := ⟨dtsfV1, [], nameNode (buildNode [buildProperty [97] ⟨[98, 0], []⟩] .nil) [], 0⟩

theorem small_parsed : yyparse noFiles nextToken 100 smallSource 0 = some (.ok ⟨0, some smallTree⟩) := rfl

end Tokens
section Checks

/-- One computation for all of it. -/
theorem dtChecked : TablesChecked where
  complete := {
    begins := by decide +kernel
    ends := by decide +kernel
    looks := by decide +kernel
    accepts := by decide +kernel
    lhs := fun _ _ => rfl
    size := by decide +kernel
    empty := by decide +kernel
    starts := by decide +kernel
    follow := by decide +kernel
    walks := by decide +kernel }
  sound := {
    nonempty := by decide +kernel
    bottom := rfl
    begins := by decide +kernel
    lhs := fun _ _ => rfl
    size := by decide +kernel
    moves := by decide +kernel
    gotos := by decide +kernel }
  translates := by decide +kernel
  whole := by decide +kernel
  parts := by decide +kernel
  inner := by decide +kernel
  behind := by decide +kernel
  values := by decide +kernel

end Checks
section Runs
variable {σ : Type} {files : SourceFiles} {yylex : σ → Exec (Token × σ)}

/-- The parser accepts what has a tree of the grammar for which its stack has room. What it makes of
it is what the actions make of that tree, which is the only one. -/
theorem yyparse_iff {source : σ} {nextOrphanFragment : Nat} {result : ParserState} :
    (∃ fuel, yyparse files yylex fuel source nextOrphanFragment = some (.ok result)) ↔
      ∃! tree, Remains (dtDriver files yylex) none source tree.yield ∧
        Parse dtGrammar (dtDriver files yylex) ⟨nextOrphanFragment, none⟩ result tree :=
  accepted_unique dtChecked.complete dtChecked.sound fun token => dtChecked.yytranslated_lt token.yychar

/-- The tokens of what the parser accepts spell a source of the abstract syntax by their derivation
tree, and the output of the parser is the meaning of that source. -/
theorem yyparse_reads (proper : ∀ source token after, yylex source = .ok (token, after) → ProperToken token)
    {fuel fragment : Nat} {source : σ} {result : ParserState}
    (ran : yyparse files yylex fuel source fragment = some (.ok result)) :
    ∃ tree dts info, Remains (dtDriver files yylex) none source tree.yield ∧
      Parse dtGrammar (dtDriver files yylex) ⟨fragment, none⟩ result tree ∧
        spelled files tree = some (.source dts) ∧
      dtFromSource dts fragment = .ok info ∧ result.parserOutput = some info :=
  dtChecked.accepted_reads proper ran

theorem small_read : ∃ tree dts info, Remains (dtDriver noFiles nextToken) none smallSource tree.yield ∧
    Parse dtGrammar (dtDriver noFiles nextToken) ⟨0, none⟩ ⟨0, some smallTree⟩ tree ∧
      spelled noFiles tree = some (.source dts) ∧
    dtFromSource dts 0 = .ok info ∧ some smallTree = some info :=
  yyparse_reads nextToken_proper small_parsed

/-- However it ends, the parser ends after a number of steps that the number of tokens limits. -/
theorem yyparse_ends {source : σ} {tokens fuel nextOrphanFragment : Nat}
    (lasts : Lasts (dtDriver files yylex) tokens source) (enough : 8 * tokens + 70000 ≤ fuel) :
    (yyparse files yylex fuel source nextOrphanFragment).isSome = true :=
  parse_ends dtChecked.sound (fun token => dtChecked.yytranslated_lt token.yychar) dtBudget_covers
    (Nat.zero_lt_succ 9999) lasts enough

theorem small_ends : (yyparse noFiles nextToken 70080 smallSource 0).isSome = true :=
  yyparse_ends (nextToken_lasts smallSource) (Nat.le_refl 70080)

end Runs
end Bxxt.Proofs
