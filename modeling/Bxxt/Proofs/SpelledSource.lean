import Bxxt.Proofs.ParserTables

/-! The source that a derivation tree spells, read off its tokens without a stack and without the
values of the actions. -/

namespace Bxxt.Proofs
open Bxxt ByteLayout SiblingTree ShiftReduce

section Phrases

/-- What a symbol of the grammar stands for in the source. A mark only separates, and so does a keyword. -/
inductive Phrase where
  | mark
  | name (name : Word)
  | ref (word : Word)
  | byte (value : UInt8)
  | text (text : Bytes)
  | number (value : UInt64)
  | flags (flags : Nat)
  | reserves (reserves : List ReserveInfo)
  | parts (parts : List PropPart)
  | array (bits : Option Nat) (items : List ArrayItem)
  | bytes (items : List ByteItem)
  | prop (prop : PropDef)
  | props (props : List PropDef)
  | node (node : NodeDef)
  | subnode (subnode : SubnodeDef) (below : Siblings SubnodeDef)
  | subnodes (subnodes : Siblings SubnodeDef)
  | tree (root : Option NodeDef) (parts : List TreePart)
  | source (source : DtSource)

def wordOf (chars : Bytes) : Option Word :=
  if word : chars ≠ [] ∧ 0 ∉ chars then some ⟨chars, word.1, word.2⟩ else none

@[simp] theorem wordOf_chars (word : Word) : wordOf word.chars = some word := dif_pos ⟨word.filled, word.plain⟩

/-- A token whose value is of another kind than its code says stands for nothing. -/
def tokenPhrase (token : Token) : Option Phrase :=
  match yytranslated token.yychar, token.yylval with
  | 17, .propnodename name => (wordOf name).map .name
  | 18, .integer value | 19, .integer value => some (.number value)
  | 20, .byte value => some (.byte value)
  | 21, .data ⟨val, []⟩ => if val.getLast? = some 0 then some (.text val.dropLast) else none
  | 22, .labelref ref | 23, .labelref ref => (wordOf ref).map .ref
  | kind, _ => if 17 ≤ kind ∧ kind ≤ 23 then none else some .mark

/-- What `/incbin/` puts in the place of the name of a file. -/
def includedFile (files : SourceFiles) (dir : Option Bytes) (name : Bytes) (offset : UInt64) (maxlen : Nat) :
    Option PropPart :=
  let content := do
    let (_, content) ← srcfileRelativeOpen files dir (cString (name ++ [0]))
    let rest ← (if offset ≠ 0 then seekFrom content offset.toNat else pure content)
    dataCopyFile rest maxlen
  content.toOption.map (.incbin ·.val)

end Phrases
section Grammar

/-- What a rule makes of what its symbols stand for. A property behind a subnode stands for nothing. -/
def rulePhrase (files : SourceFiles) (dir : Option Bytes) (rule : Nat) (own : List Phrase) : Option Phrase :=
  match rule with
  | 2 =>
    match own with
    | [.flags flags, .reserves reserves, .tree root parts] => some (.source ⟨flags, reserves, root, parts⟩)
    | _ => none
  | 3 => some (.flags dtsfV1)
  | 4 => some (.flags (dtsfV1 ||| dtsfPlugin))
  | 6 =>
    match own with
    | [.flags first, .flags second] => if second ≠ first then none else some (.flags first)
    | _ => none
  | 7 => some (.reserves [])
  | 8 =>
    match own with
    | [.reserves first, .reserves list] => some (.reserves (first ++ list))
    | _ => none
  | 9 =>
    match own with
    | [.mark, .number address, .number size, .mark] => some (.reserves [⟨address, size⟩])
    | _ => none
  | 10 =>
    match own with
    | [.ref _, .reserves reserves] => some (.reserves reserves)
    | _ => none
  | 11 =>
    match own with
    | [.mark, .node root] => some (.tree (some root) [])
    | _ => none
  | 12 =>
    match own with
    | [.tree root parts, .mark, .node node] => some (.tree root (parts ++ [.root node]))
    | _ => none
  | 13 =>
    match own with
    | [.tree root parts, .ref label, .ref ref, .node node] => some (.tree root (parts ++ [.labelled label ref node]))
    | _ => none
  | 14 =>
    match own with
    | [.tree root parts, .ref ref, .node node] => some (.tree root (parts ++ [.overlay ref node]))
    | _ => none
  | 15 =>
    match own with
    | [.tree root parts, .mark, .ref ref, .mark] => some (.tree root (parts ++ [.delete ref]))
    | _ => none
  | 16 => some (.tree none [])
  | 17 =>
    match own with
    | [.mark, .props props, .subnodes subnodes, .mark, .mark] => some (.node ⟨props, subnodes⟩)
    | _ => none
  | 18 => some (.props [])
  | 19 =>
    match own with
    | [.props props, .prop prop] => some (.props (props ++ [prop]))
    | _ => none
  | 20 =>
    match own with
    | [.name name, .mark, .parts parts, .mark] => some (.prop (.assign name parts))
    | _ => none
  | 21 =>
    match own with
    | [.name name, .mark] => some (.prop (.empty name))
    | _ => none
  | 22 =>
    match own with
    | [.mark, .name name, .mark] => some (.prop (.delete name))
    | _ => none
  | 23 =>
    match own with
    | [.ref label, .prop prop] => some (.prop (.label label prop))
    | _ => none
  | 24 =>
    match own with
    | [.parts parts, .text text] => some (.parts (parts ++ [.string text]))
    | _ => none
  | 25 =>
    match own with
    | [.parts parts, .array bits items, .mark] => some (.parts (parts ++ [.array bits items]))
    | _ => none
  | 26 =>
    match own with
    | [.parts parts, .mark, .bytes items, .mark] => some (.parts (parts ++ [.bytestring items]))
    | _ => none
  | 27 =>
    match own with
    | [.parts parts, .ref ref] => some (.parts (parts ++ [.reference ref]))
    | _ => none
  | 28 =>
    match own with
    | [.parts parts, .mark, .mark, .text name, .mark, .number offset, .mark, .number maxlen, .mark] => do
      return .parts (parts ++ [← includedFile files dir name offset maxlen.toNat])
    | _ => none
  | 29 =>
    match own with
    | [.parts parts, .mark, .mark, .text name, .mark] => do
      return .parts (parts ++ [← includedFile files dir name 0 (2 ^ 64 - 1)])
    | _ => none
  | 30 | 33 =>
    match own with
    | [.parts parts, .ref label] => some (.parts (parts ++ [.label label]))
    | _ => none
  | 31 => some (.parts [])
  | 32 =>
    match own with
    | [.parts parts, .mark] => some (.parts parts)
    | _ => none
  | 34 =>
    match own with
    | [.mark, .number bits, .mark] => some (.array (some bits.toNat) [])
    | _ => none
  | 35 => some (.array none [])
  | 36 =>
    match own with
    | [.array bits items, .number value] => some (.array bits (items ++ [.integer value]))
    | _ => none
  | 37 =>
    match own with
    | [.array bits items, .ref ref] => some (.array bits (items ++ [.reference ref]))
    | _ => none
  | 38 =>
    match own with
    | [.array bits items, .ref label] => some (.array bits (items ++ [.label label]))
    | _ => none
  | 41 =>
    match own with
    | [.mark, .number value, .mark] => some (.number value)
    | _ => none
  | 44 =>
    match own with
    | [.number test, .mark, .number yes, .mark, .number no] => some (.number (if truth test then yes else no))
    | _ => none
  | 74 =>
    match own with
    | [.mark, .number value] => some (.number (-value))
    | _ => none
  | 75 =>
    match own with
    | [.mark, .number value] => some (.number (~~~value))
    | _ => none
  | 76 =>
    match own with
    | [.mark, .number value] => some (.number (ofBool (!truth value)))
    | _ => none
  | 77 => some (.bytes [])
  | 78 =>
    match own with
    | [.bytes items, .byte value] => some (.bytes (items ++ [.byte value]))
    | _ => none
  | 79 =>
    match own with
    | [.bytes items, .ref label] => some (.bytes (items ++ [.label label]))
    | _ => none
  | 80 => some (.subnodes .nil)
  | 81 =>
    match own with
    | [.subnode subnode below, .subnodes next] => some (.subnodes (.node subnode below next))
    | _ => none
  | 82 => none
  | 83 =>
    match own with
    | [.name name, .node node] => some (.subnode ⟨[], name, false, node.props⟩ node.subnodes)
    | _ => none
  | 84 =>
    match own with
    | [.mark, .name name, .mark] => some (.subnode ⟨[], name, true, []⟩ .nil)
    | _ => none
  | 85 =>
    match own with
    | [.ref label, .subnode subnode below] => some (.subnode { subnode with labels := label :: subnode.labels } below)
    | _ => none
  | _ =>
    match own with
    | [only] => some only
    | [.number left, .mark, .number right] => (binaryOperator rule left right).toOption.map .number
    | _ => none

abbrev Spelling := ShiftReduce.Tree Token

/-- The name of an included file is relative to the file that its closing bracket is in. -/
def placeOf (children : List Spelling) : Option Bytes := ((yields children).getLast?.map (·.dir)).join

mutual
/-- The phrase that a derivation tree spells. For a whole source it is the source in the abstract syntax. -/
def spelled (files : SourceFiles) : Spelling → Option Phrase
  | .leaf token => tokenPhrase token
  | .node rule children => do rulePhrase files (placeOf children) rule (← spelledAll files children)
termination_by structural tree => tree

def spelledAll (files : SourceFiles) : List Spelling → Option (List Phrase)
  | [] => some []
  | tree :: trees => do return (← spelled files tree) :: (← spelledAll files trees)
termination_by structural trees => trees
end

end Grammar
section Meanings

/-- The value of a symbol is what the abstract syntax reads out of what the symbol stands for. Every
nonterminal that is not listed is a part of an expression. -/
def Means (symbol : Sym) (item : Phrase × Semantic) : Prop :=
  match symbol with
  | .terminal 17 => ∃ name : Word, item = (.name name, .propnodename name.chars)
  | .terminal 18 | .terminal 19 => ∃ number, item = (.number number, .integer number)
  | .terminal 20 => ∃ byte, item = (.byte byte, .byte byte)
  | .terminal 21 => ∃ text, item = (.text text, .data ⟨text ++ [0], []⟩)
  | .terminal 22 | .terminal 23 => ∃ word : Word, item = (.ref word, .labelref word.chars)
  | .terminal _ => ∃ value, item = (.mark, value)
  | .nonterminal 50 | .nonterminal 51 => ∃ flags, item = (.flags flags, .flags flags)
  | .nonterminal 52 | .nonterminal 53 => ∃ reserves, item = (.reserves reserves, .re reserves)
  | .nonterminal 55 => ∃ source node, readNodeDef source = .ok node ∧ item = (.node source, .node node)
  | .nonterminal 56 =>
    ∃ (props : List PropDef) (last : List Property), props.mapM readPropDef = .ok last.reverse ∧
      item = (.props props, .proplist last)
  | .nonterminal 57 => ∃ source prop, readPropDef source = .ok prop ∧ item = (.prop source, .prop prop)
  | .nonterminal 58 | .nonterminal 59 =>
    ∃ (parts : List PropPart) (data : Data), parts.foldlM readPropPart emptyData = .ok data ∧
      item = (.parts parts, .data data)
  | .nonterminal 60 => ∃ bits items data, readArray bits items = .ok data ∧ item = (.array bits items,
      .array data (bits.getD 32))
  | .nonterminal 75 =>
    ∃ (items : List ByteItem) (data : Data), items.foldlM readByteItem emptyData = .ok data ∧
      item = (.bytes items, .data data)
  | .nonterminal 76 => ∃ sources nodes, readSubnodes sources = .ok nodes ∧ item = (.subnodes sources,
      .nodelist nodes)
  | .nonterminal 77 =>
    ∃ source sources children node, readSubnodes sources = .ok children ∧ readSubnode source children = .ok node ∧
      item = (.subnode source sources, .node node)
  | .nonterminal _ => ∃ number, item = (.number number, .integer number)

/-- The lexer gives a token with one of the codes 272 to 278 a value of the kind that the code says,
with a name that is not empty, or with a text that ends in a NUL. -/
def ProperToken (token : Token) : Prop := ∃ phrase, tokenPhrase token = some phrase

theorem wordOf_map {chars : Bytes} {make : Word → Phrase} {phrase : Phrase}
    (made : (wordOf chars).map make = some phrase) :
    ∃ word : Word, chars = word.chars ∧ phrase = make word := by
  obtain ⟨word, known, rfl⟩ := Option.map_eq_some_iff.mp made
  rw [wordOf] at known
  split at known
  · cases known
    exact ⟨_, rfl, rfl⟩
  · cases known

/-- A token means what it stands for. -/
theorem token_means {token : Token} {phrase : Phrase} (stands : tokenPhrase token = some phrase) :
    Means (.terminal (yytranslated token.yychar)) (phrase, token.yylval) := by
  obtain ⟨yychar, value, dir⟩ := token
  rw [tokenPhrase] at stands
  dsimp only at stands ⊢
  generalize yytranslated yychar = kind at stands ⊢
  split at stands
  · obtain ⟨word, rfl, rfl⟩ := wordOf_map stands
    exact ⟨word, rfl⟩
  · cases stands
    exact ⟨_, rfl⟩
  · cases stands
    exact ⟨_, rfl⟩
  · cases stands
    exact ⟨_, rfl⟩
  · rename_i val
    split at stands
    · rename_i ends
      cases stands
      have whole : val.dropLast ++ [0] = val := List.dropLast_append_getLast? 0 ends
      exact ⟨val.dropLast, by rw [whole]⟩
    · cases stands
  · obtain ⟨word, rfl, rfl⟩ := wordOf_map stands
    exact ⟨word, rfl⟩
  · obtain ⟨word, rfl, rfl⟩ := wordOf_map stands
    exact ⟨word, rfl⟩
  · split at stands
    · cases stands
    · rename_i plain
      cases stands
      unfold Means
      split
      case h_8 => exact ⟨_, rfl⟩
      all_goals
        rename_i same
        cases same
      all_goals exact absurd (by decide) plain

end Meanings
end Bxxt.Proofs
