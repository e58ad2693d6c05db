import Bxxt.Proofs.SpelledSource

/-! What the parser accepts is the source that its tokens spell, with the value that the abstract syntax gives it. -/

namespace Bxxt.Proofs
open Bxxt ByteLayout SiblingTree ShiftReduce

section Rules
variable {files : SourceFiles} {dir : Option Bytes}

/-- What the symbols of a rule stand for, from the left, with their values. -/
abbrev Values (symbols : List Sym) (own : List (Phrase × Semantic)) : Prop := List.Forall₂ Means symbols own

/-- The action of a rule makes a value, and what the rule stands for in the source has that value.
Only the two rules of an included file look at the place they are in. -/
def KeepsMeaning (rule : Nat) : Prop :=
  ∀ (files : SourceFiles) (dir place : Option Bytes) (own : List (Phrase × Semantic)) (below : List Semantic)
    (value : Semantic),
    (rule ∈ [28, 29] → place = dir) → Values (dtGrammar.rhs rule) own →
    yyvalue files dir rule ((own.map Prod.snd).reverse ++ below) = .ok value →
    ∃ phrase, rulePhrase files place rule (own.map Prod.fst) = some phrase ∧
      Means (.nonterminal (dtGrammar.lhs rule)) (phrase, value)

theorem foldlM_snoc {α β : Type} {step : β → α → Exec β} {items : List α}
    {start middle result : β} {item : α} (front : items.foldlM step start = .ok middle)
    (last : step middle item = .ok result) :
    (items ++ [item]).foldlM step start = .ok result := by
  rw [List.foldlM_append, front, Exec.ok_bind, List.foldlM_cons, last]
  rfl

theorem mapM_snoc {α β : Type} {read : α → Exec β} {items : List α} {values : List β} {item : α} {value : β}
    (front : items.mapM read = .ok values) (last : read item = .ok value) :
    (items ++ [item]).mapM read = .ok (values ++ [value]) := by
  rw [List.mapM_append, front, Exec.ok_bind, List.mapM_cons, last]
  rfl

theorem keeps_version : KeepsMeaning 3 := by
  intro files dir place own below value placed values ran
  cases ran
  exact ⟨_, rfl, _, rfl⟩

theorem keeps_plugin : KeepsMeaning 4 := by
  intro files dir place own below value placed values ran
  cases ran
  exact ⟨_, rfl, _, rfl⟩

theorem keeps_headers : KeepsMeaning 6 := by
  intro files dir place own below value placed values ran
  change Values [.nonterminal 50, .nonterminal 51] own at values
  obtain _ | ⟨⟨first, rfl⟩, _ | ⟨⟨second, rfl⟩, _ | _⟩⟩ := values
  change (if second ≠ first then _ else _) = _ at ran
  split at ran
  · cases ran
  · rename_i same
    cases ran
    exact ⟨_, if_neg same, _, rfl⟩

theorem keeps_noReserves : KeepsMeaning 7 := by
  intro files dir place own below value placed values ran
  cases ran
  exact ⟨_, rfl, _, rfl⟩

theorem keeps_reserves : KeepsMeaning 8 := by
  intro files dir place own below value placed values ran
  change Values [.nonterminal 53, .nonterminal 52] own at values
  obtain _ | ⟨⟨first, rfl⟩, _ | ⟨⟨list, rfl⟩, _ | _⟩⟩ := values
  cases ran
  exact ⟨_, rfl, _, rfl⟩

theorem keeps_reserve : KeepsMeaning 9 := by
  intro files dir place own below value placed values ran
  change Values [.terminal 5, .nonterminal 61, .nonterminal 61, .terminal 25] own at values
  obtain _ | ⟨⟨_, rfl⟩, _ | ⟨⟨address, rfl⟩,
    _ | ⟨⟨size, rfl⟩, _ | ⟨⟨_, rfl⟩, _ | _⟩⟩⟩⟩ := values
  cases ran
  exact ⟨_, rfl, _, rfl⟩

theorem keeps_reserveLabel : KeepsMeaning 10 := by
  intro files dir place own below value placed values ran
  change Values [.terminal 22, .nonterminal 53] own at values
  obtain _ | ⟨⟨label, rfl⟩, _ | ⟨⟨reserves, rfl⟩, _ | _⟩⟩ := values
  cases ran
  exact ⟨_, rfl, _, rfl⟩

theorem keeps_nodedef : KeepsMeaning 17 := by
  intro files dir place own below value placed values ran
  change Values [.terminal 27, .nonterminal 56, .nonterminal 76, .terminal 28, .terminal 25] own at values
  obtain _ | ⟨⟨_, rfl⟩, _ | ⟨⟨props, last, read, rfl⟩,
    _ | ⟨⟨sources, nodes, below, rfl⟩, _ | ⟨⟨_, rfl⟩, _ | ⟨⟨_, rfl⟩, _ | _⟩⟩⟩⟩⟩ := values
  cases ran
  refine ⟨_, rfl, ⟨props, sources⟩, _, ?_, rfl⟩
  rw [readNodeDef, read, Exec.ok_bind, below]
  rfl

theorem keeps_noProps : KeepsMeaning 18 := by
  intro files dir place own below value placed values ran
  cases ran
  exact ⟨_, rfl, [], [], rfl, rfl⟩

theorem keeps_props : KeepsMeaning 19 := by
  intro files dir place own below value placed values ran
  change Values [.nonterminal 56, .nonterminal 57] own at values
  obtain _ | ⟨⟨props, last, read, rfl⟩, _ | ⟨⟨source, prop, one, rfl⟩, _ | _⟩⟩ := values
  cases ran
  refine ⟨_, rfl, props ++ [source], prop :: last, ?_, rfl⟩
  rw [List.reverse_cons]
  exact mapM_snoc read one

theorem keeps_assign : KeepsMeaning 20 := by
  intro files dir place own below value placed values ran
  change Values [.terminal 17, .terminal 29, .nonterminal 58, .terminal 25] own at values
  obtain _ | ⟨⟨name, rfl⟩, _ | ⟨⟨_, rfl⟩,
    _ | ⟨⟨parts, data, read, rfl⟩, _ | ⟨⟨_, rfl⟩, _ | _⟩⟩⟩⟩ := values
  cases ran
  refine ⟨_, rfl, .assign name parts, _, ?_, rfl⟩
  rw [readPropDef, read]
  rfl

theorem keeps_empty : KeepsMeaning 21 := by
  intro files dir place own below value placed values ran
  change Values [.terminal 17, .terminal 25] own at values
  obtain _ | ⟨⟨name, rfl⟩, _ | ⟨⟨_, rfl⟩, _ | _⟩⟩ := values
  cases ran
  exact ⟨_, rfl, .empty name, _, rfl, rfl⟩

theorem keeps_delete : KeepsMeaning 22 := by
  intro files dir place own below value placed values ran
  change Values [.terminal 15, .terminal 17, .terminal 25] own at values
  obtain _ | ⟨⟨_, rfl⟩, _ | ⟨⟨name, rfl⟩, _ | ⟨⟨_, rfl⟩, _ | _⟩⟩⟩ := values
  cases ran
  exact ⟨_, rfl, .delete name, _, rfl, rfl⟩

theorem keeps_propLabel : KeepsMeaning 23 := by
  intro files dir place own below value placed values ran
  change Values [.terminal 22, .nonterminal 57] own at values
  obtain _ | ⟨⟨label, rfl⟩, _ | ⟨⟨source, prop, read, rfl⟩, _ | _⟩⟩ := values
  cases ran
  refine ⟨_, rfl, .label label source, _, ?_, rfl⟩
  rw [readPropDef, read]
  rfl

theorem merge_part {parts : List PropPart} {data piece : Data} {part : PropPart} {value : Semantic}
    (read : parts.foldlM readPropPart emptyData = .ok data) (means : readPropPart data part = dataMerge data piece)
    (ran : (do return .data (← dataMerge data piece) : Exec Semantic) = .ok value) :
    Means (.nonterminal 58) (.parts (parts ++ [part]), value) := by
  obtain ⟨merged, merges, same⟩ := Exec.bind_eq_ok.mp ran
  cases same
  exact ⟨parts ++ [part], merged, foldlM_snoc read (means.trans merges), rfl⟩

theorem keeps_string : KeepsMeaning 24 := by
  intro files dir place own below value placed values ran
  change Values [.nonterminal 59, .terminal 21] own at values
  obtain _ | ⟨⟨parts, data, read, rfl⟩, _ | ⟨⟨text, rfl⟩, _ | _⟩⟩ := values
  exact ⟨_, rfl, merge_part read rfl ran⟩

theorem keeps_array : KeepsMeaning 25 := by
  intro files dir place own below value placed values ran
  change Values [.nonterminal 59, .nonterminal 60, .terminal 30] own at values
  obtain _ | ⟨⟨parts, data, read, rfl⟩,
    _ | ⟨⟨bits, items, array, reads, rfl⟩, _ | ⟨⟨_, rfl⟩, _ | _⟩⟩⟩ := values
  refine ⟨_, rfl, merge_part read ?_ ran⟩
  rw [readPropPart, reads]
  rfl

theorem keeps_bytestring : KeepsMeaning 26 := by
  intro files dir place own below value placed values ran
  change Values [.nonterminal 59, .terminal 31, .nonterminal 75, .terminal 32] own at values
  obtain _ | ⟨⟨parts, data, read, rfl⟩,
    _ | ⟨⟨_, rfl⟩, _ | ⟨⟨items, bytes, reads, rfl⟩, _ | ⟨⟨_, rfl⟩, _ | _⟩⟩⟩⟩ := values
  refine ⟨_, rfl, merge_part read ?_ ran⟩
  rw [readPropPart, reads]
  rfl

theorem keeps_reference : KeepsMeaning 27 := by
  intro files dir place own below value placed values ran
  change Values [.nonterminal 59, .terminal 23] own at values
  obtain _ | ⟨⟨parts, data, read, rfl⟩, _ | ⟨⟨ref, rfl⟩, _ | _⟩⟩ := values
  cases ran
  exact ⟨_, rfl, parts ++ [.reference ref], _, foldlM_snoc read rfl, rfl⟩

theorem copyChunks_markers {content : Bytes} {fuel : Nat} {d result : Data} (plain : d.markers = [])
    (ran : copyChunks content fuel d = .ok result) : result.markers = [] := by
  induction fuel generalizing d with
  | zero =>
    rw [copyChunks] at ran
    cases ran
    exact plain
  | succ fuel ih =>
    rw [copyChunks] at ran
    obtain ⟨_, _, ran⟩ := Exec.bind_eq_ok.mp ran
    generalize (content.drop d.val.length).take 4096 = chunk at ran
    dsimp only at ran
    split at ran
    · cases ran
      exact plain
    · refine ih ?_ ran
      exact plain

/-- A copy of a file has no markers. -/
theorem dataCopyFile_plain {content : Bytes} {maxlen : Nat} {result : Data}
    (ran : dataCopyFile content maxlen = .ok result) :
    result = ⟨result.val, []⟩ := by
  have none : result.markers = [] := by
    rw [dataCopyFile] at ran
    split at ran
    · exact copyChunks_markers rfl ran
    split at ran
    · cases ran
      rfl
    split at ran
    · cases ran
    split at ran
    · cases ran
    · cases ran
      rfl
  rw [← none]

theorem merge_file {parts : List PropPart} {data : Data} {content : Bytes} {maxlen : Nat} {value : Semantic}
    (read : parts.foldlM readPropPart emptyData = .ok data)
    (ran : (do return .data (← dataMerge data (← dataCopyFile content maxlen)) : Exec Semantic) = .ok value) :
    ∃ copy, dataCopyFile content maxlen = .ok copy ∧ Means (.nonterminal 58)
      (.parts (parts ++ [.incbin copy.val]), value) := by
  obtain ⟨copy, copies, ran⟩ := Exec.bind_eq_ok.mp ran
  rw [dataCopyFile_plain copies] at ran
  exact ⟨copy, copies, merge_part read rfl ran⟩

theorem included_phrase {parts : List PropPart} {name content rest : Bytes} {offset : UInt64} {maxlen : Nat}
    {found : Bytes} {copy : Data} (opened : srcfileRelativeOpen files dir (cString (name ++ [0])) =
      .ok (found, content))
    (sought : (if offset ≠ 0 then seekFrom content offset.toNat else pure content) = .ok rest)
    (copies : dataCopyFile rest maxlen = .ok copy) :
    (do return .parts (parts ++ [← includedFile files dir name offset maxlen]) : Option Phrase) =
      some (.parts (parts ++ [.incbin copy.val])) := by
  have included : includedFile files dir name offset maxlen = some (.incbin copy.val) := by
    rw [includedFile, opened, Exec.ok_bind]
    dsimp only
    rw [sought, Exec.ok_bind, copies]
    rfl
  rw [included]
  rfl

theorem keeps_incbinPart : KeepsMeaning 28 := by
  intro files dir place own below value placed values ran
  obtain rfl := placed (by decide)
  change Values [.nonterminal 59, .terminal 24, .terminal 33, .terminal 21, .terminal 34, .nonterminal 61, .terminal 34,
    .nonterminal 61, .terminal 35] own at values
  obtain _ | ⟨⟨parts, data, read, rfl⟩,
    _ | ⟨⟨_, rfl⟩, _ | ⟨⟨_, rfl⟩, _ | ⟨⟨name, rfl⟩, _ | ⟨⟨_, rfl⟩, _ | ⟨⟨offset, rfl⟩,
    _ | ⟨⟨_, rfl⟩, _ | ⟨⟨maxlen, rfl⟩, _ | ⟨⟨_, rfl⟩, _ | _⟩⟩⟩⟩⟩⟩⟩⟩⟩ := values
  obtain ⟨⟨found, content⟩, opened, ran⟩ := Exec.bind_eq_ok.mp ran
  dsimp only at ran
  split at ran
  · rename_i moved
    obtain ⟨rest, sought, ran⟩ := Exec.bind_eq_ok.mp ran
    obtain ⟨copy, copies, means⟩ := merge_file read ran
    exact ⟨_, included_phrase opened ((if_pos moved).trans sought) copies, means⟩
  · rename_i still
    obtain ⟨copy, copies, means⟩ := merge_file read ran
    exact ⟨_, included_phrase opened (if_neg still) copies, means⟩

theorem keeps_incbin : KeepsMeaning 29 := by
  intro files dir place own below value placed values ran
  obtain rfl := placed (by decide)
  change Values [.nonterminal 59, .terminal 24, .terminal 33, .terminal 21, .terminal 35] own at values
  obtain _ | ⟨⟨parts, data, read, rfl⟩,
    _ | ⟨⟨_, rfl⟩, _ | ⟨⟨_, rfl⟩, _ | ⟨⟨name, rfl⟩, _ | ⟨⟨_, rfl⟩, _ | _⟩⟩⟩⟩⟩ :=
      values
  obtain ⟨⟨found, content⟩, opened, ran⟩ := Exec.bind_eq_ok.mp ran
  obtain ⟨copy, copies, means⟩ := merge_file read ran
  exact ⟨_, included_phrase opened (if_neg fun moved => moved rfl) copies, means⟩

theorem keeps_labelBehind : KeepsMeaning 30 := by
  intro files dir place own below value placed values ran
  change Values [.nonterminal 58, .terminal 22] own at values
  obtain _ | ⟨⟨parts, data, read, rfl⟩, _ | ⟨⟨label, rfl⟩, _ | _⟩⟩ := values
  cases ran
  exact ⟨_, rfl, parts ++ [.label label], _, foldlM_snoc read rfl, rfl⟩

theorem keeps_noParts : KeepsMeaning 31 := by
  intro files dir place own below value placed values ran
  cases ran
  exact ⟨_, rfl, [], _, rfl, rfl⟩

theorem keeps_comma : KeepsMeaning 32 := by
  intro files dir place own below value placed values ran
  change Values [.nonterminal 58, .terminal 34] own at values
  obtain _ | ⟨⟨parts, data, read, rfl⟩, _ | ⟨⟨_, rfl⟩, _ | _⟩⟩ := values
  cases ran
  exact ⟨_, rfl, parts, _, read, rfl⟩

theorem keeps_labelBefore : KeepsMeaning 33 := by
  intro files dir place own below value placed values ran
  change Values [.nonterminal 59, .terminal 22] own at values
  obtain _ | ⟨⟨parts, data, read, rfl⟩, _ | ⟨⟨label, rfl⟩, _ | _⟩⟩ := values
  cases ran
  exact ⟨_, rfl, parts ++ [.label label], _, foldlM_snoc read rfl, rfl⟩

theorem keeps_bits : KeepsMeaning 34 := by
  intro files dir place own below value placed values ran
  change Values [.terminal 14, .terminal 18, .terminal 36] own at values
  obtain _ | ⟨⟨_, rfl⟩, _ | ⟨⟨bits, rfl⟩, _ | ⟨⟨_, rfl⟩, _ | _⟩⟩⟩ := values
  change (if bits ≠ 8 ∧ bits ≠ 16 ∧ bits ≠ 32 ∧ bits ≠ 64 then _ else _) = _ at ran
  split at ran
  · cases ran
  rename_i known
  cases ran
  refine ⟨_, rfl, some bits.toNat, [], emptyData, ?_, rfl⟩
  have sizes : ¬ (bits.toNat ≠ 8 ∧ bits.toNat ≠ 16 ∧ bits.toNat ≠ 32 ∧ bits.toNat ≠ 64) := by
    refine fun all => known ⟨?_, ?_, ?_, ?_⟩
    · rintro rfl
      exact all.1 rfl
    · rintro rfl
      exact all.2.1 rfl
    · rintro rfl
      exact all.2.2.1 rfl
    · rintro rfl
      exact all.2.2.2 rfl
  rw [readArray]
  dsimp only [Option.getD_some]
  rw [if_neg sizes]
  rfl

theorem keeps_noBits : KeepsMeaning 35 := by
  intro files dir place own below value placed values ran
  cases ran
  exact ⟨_, rfl, none, [], emptyData, rfl, rfl⟩

theorem readArray_snoc {bits : Option Nat} {items : List ArrayItem} {data result : Data} {item : ArrayItem}
    (front : readArray bits items = .ok data) (last : readArrayItem (bits.getD 32) data item = .ok result) :
    readArray bits (items ++ [item]) = .ok result := by
  rw [readArray] at front ⊢
  dsimp only at front ⊢
  split at front
  · cases front
  · rename_i known
    rw [if_neg known]
    exact foldlM_snoc front last

theorem keeps_number : KeepsMeaning 36 := by
  intro files dir place own below value placed values ran
  change Values [.nonterminal 60, .nonterminal 61] own at values
  obtain _ | ⟨⟨bits, items, data, read, rfl⟩, _ | ⟨⟨number, rfl⟩, _ | _⟩⟩ := values
  change (if _ then _ else _) = _ at ran
  split at ran
  · cases ran
  rename_i fits
  obtain ⟨result, appended, same⟩ := Exec.bind_eq_ok.mp ran
  cases same
  refine ⟨_, rfl, bits, items ++ [.integer number], result, readArray_snoc read ?_, rfl⟩
  rw [readArrayItem, if_neg fits]
  exact appended

theorem keeps_phandle : KeepsMeaning 37 := by
  intro files dir place own below value placed values ran
  change Values [.nonterminal 60, .terminal 23] own at values
  obtain _ | ⟨⟨bits, items, data, read, rfl⟩, _ | ⟨⟨ref, rfl⟩, _ | _⟩⟩ := values
  change (if _ then _ else _) = _ at ran
  split at ran
  · rename_i wide
    obtain ⟨result, appended, same⟩ := Exec.bind_eq_ok.mp ran
    cases same
    refine ⟨_, rfl, bits, items ++ [.reference ref], result, readArray_snoc read ?_, rfl⟩
    rw [readArrayItem, if_pos wide]
    exact appended
  · cases ran

theorem keeps_arrayLabel : KeepsMeaning 38 := by
  intro files dir place own below value placed values ran
  change Values [.nonterminal 60, .terminal 22] own at values
  obtain _ | ⟨⟨bits, items, data, read, rfl⟩, _ | ⟨⟨label, rfl⟩, _ | _⟩⟩ := values
  cases ran
  exact ⟨_, rfl, bits, items ++ [.label label], _, readArray_snoc read rfl, rfl⟩

theorem keeps_noBytes : KeepsMeaning 77 := by
  intro files dir place own below value placed values ran
  cases ran
  exact ⟨_, rfl, [], emptyData, rfl, rfl⟩

theorem keeps_byte : KeepsMeaning 78 := by
  intro files dir place own below value placed values ran
  change Values [.nonterminal 75, .terminal 20] own at values
  obtain _ | ⟨⟨items, data, read, rfl⟩, _ | ⟨⟨byte, rfl⟩, _ | _⟩⟩ := values
  obtain ⟨result, appended, same⟩ := Exec.bind_eq_ok.mp ran
  cases same
  have last : readByteItem data (.byte byte) = .ok result := appended
  exact ⟨_, rfl, items ++ [.byte byte], result, foldlM_snoc read last, rfl⟩

theorem keeps_byteLabel : KeepsMeaning 79 := by
  intro files dir place own below value placed values ran
  change Values [.nonterminal 75, .terminal 22] own at values
  obtain _ | ⟨⟨items, data, read, rfl⟩, _ | ⟨⟨label, rfl⟩, _ | _⟩⟩ := values
  cases ran
  exact ⟨_, rfl, items ++ [.label label], _, foldlM_snoc read rfl, rfl⟩

theorem keeps_noSubnodes : KeepsMeaning 80 := by
  intro files dir place own below value placed values ran
  cases ran
  exact ⟨_, rfl, .nil, .nil, rfl, rfl⟩

theorem keeps_subnodes : KeepsMeaning 81 := by
  intro files dir place own below value placed values ran
  change Values [.nonterminal 77, .nonterminal 76] own at values
  obtain _ | ⟨⟨source, sources, children, node, under, read, rfl⟩,
    _ | ⟨⟨others, nodes, reads, rfl⟩, _ | _⟩⟩ := values
  cases ran
  refine ⟨_, rfl, .node source sources others, _, ?_, rfl⟩
  rw [readSubnodes, under, Exec.ok_bind, read, Exec.ok_bind, reads]
  rfl

theorem keeps_misplaced : KeepsMeaning 82 := by
  intro files dir place own below value placed values ran
  cases ran

theorem keeps_subnode : KeepsMeaning 83 := by
  intro files dir place own below value placed values ran
  change Values [.terminal 17, .nonterminal 55] own at values
  obtain _ | ⟨⟨name, rfl⟩, _ | ⟨⟨source, node, read, rfl⟩, _ | _⟩⟩ := values
  cases ran
  rw [readNodeDef] at read
  obtain ⟨props, own, read⟩ := Exec.bind_eq_ok.mp read
  obtain ⟨children, under, read⟩ := Exec.bind_eq_ok.mp read
  cases read
  refine ⟨_, rfl, ⟨[], name, false, source.props⟩, source.subnodes, children, _, under, ?_, rfl⟩
  rw [readSubnode]
  dsimp only
  rw [if_neg Bool.false_ne_true, own]
  rfl

theorem keeps_deletedSubnode : KeepsMeaning 84 := by
  intro files dir place own below value placed values ran
  change Values [.terminal 16, .terminal 17, .terminal 25] own at values
  obtain _ | ⟨⟨_, rfl⟩, _ | ⟨⟨name, rfl⟩, _ | ⟨⟨_, rfl⟩, _ | _⟩⟩⟩ := values
  cases ran
  exact ⟨_, rfl, ⟨[], name, true, []⟩, .nil, .nil, _, rfl, rfl, rfl⟩

theorem keeps_subnodeLabel : KeepsMeaning 85 := by
  intro files dir place own below value placed values ran
  change Values [.terminal 22, .nonterminal 77] own at values
  obtain _ | ⟨⟨label, rfl⟩, _ | ⟨⟨source, sources, children, node, under, read, rfl⟩, _ | _⟩⟩ := values
  cases ran
  refine ⟨_, rfl, { source with labels := label :: source.labels }, sources, children, _, under, ?_, rfl⟩
  rw [readSubnode] at read ⊢
  dsimp only at read ⊢
  split at read
  · rename_i deleted
    rw [if_pos deleted]
    cases read
    rfl
  · rename_i kept
    rw [if_neg kept]
    obtain ⟨props, own, read⟩ := Exec.bind_eq_ok.mp read
    cases read
    rw [own]
    rfl

theorem keeps_unit {rule : Nat} (unit : rule ∈ [39, 40, 42, 43, 45, 47, 49, 51, 53, 55, 58, 65, 68, 72, 73]) :
    KeepsMeaning rule := by
  intro files dir place own below value placed values ran
  simp only [List.mem_cons, List.not_mem_nil, or_false] at unit
  rcases unit with rfl | rfl | rfl | rfl | rfl | rfl | rfl | rfl | rfl | rfl | rfl | rfl | rfl | rfl | rfl
  all_goals
    obtain _ | ⟨⟨number, rfl⟩, _ | _⟩ := values
    cases ran
    exact ⟨_, rfl, number, rfl⟩

theorem operator_phrase {rule : Nat} {left right number : UInt64}
    (known : binaryOperator rule left right = .ok number) :
    (binaryOperator rule left right).toOption.map Phrase.number = some (.number number) := by
  rw [known]
  rfl

theorem keeps_binary {rule : Nat}
    (binary : rule ∈ [46, 48, 50, 52, 54, 56, 57, 59, 60, 61, 62, 63, 64, 66, 67, 69, 70, 71]) :
    KeepsMeaning rule := by
  intro files dir place own below value placed values ran
  simp only [List.mem_cons, List.not_mem_nil, or_false] at binary
  rcases binary with rfl | rfl | rfl | rfl | rfl | rfl | rfl | rfl | rfl | rfl | rfl | rfl | rfl | rfl |
    rfl | rfl | rfl | rfl
  all_goals
    obtain _ | ⟨⟨left, rfl⟩, _ | ⟨⟨_, rfl⟩, _ | ⟨⟨right, rfl⟩, _ | _⟩⟩⟩ := values
    obtain ⟨number, known, same⟩ := Exec.bind_eq_ok.mp ran
    cases same
    exact ⟨_, operator_phrase known, number, rfl⟩

theorem keeps_brackets : KeepsMeaning 41 := by
  intro files dir place own below value placed values ran
  obtain _ | ⟨⟨_, rfl⟩, _ | ⟨⟨number, rfl⟩, _ | ⟨⟨_, rfl⟩, _ | _⟩⟩⟩ := values
  cases ran
  exact ⟨_, rfl, number, rfl⟩

theorem keeps_trinary : KeepsMeaning 44 := by
  intro files dir place own below value placed values ran
  obtain _ | ⟨⟨test, rfl⟩, _ | ⟨⟨_, rfl⟩,
    _ | ⟨⟨yes, rfl⟩, _ | ⟨⟨_, rfl⟩, _ | ⟨⟨no, rfl⟩, _ | _⟩⟩⟩⟩⟩ := values
  cases ran
  exact ⟨_, rfl, _, rfl⟩

theorem keeps_unary {rule : Nat} (unary : rule ∈ [74, 75, 76]) : KeepsMeaning rule := by
  intro files dir place own below value placed values ran
  simp only [List.mem_cons, List.not_mem_nil, or_false] at unary
  rcases unary with rfl | rfl | rfl
  all_goals
    obtain _ | ⟨⟨_, rfl⟩, _ | ⟨⟨number, rfl⟩, _ | _⟩⟩ := values
    cases ran
    exact ⟨_, rfl, _, rfl⟩

theorem keeps_header : KeepsMeaning 5 := by
  intro files dir place own below value placed values ran
  obtain _ | ⟨⟨flags, rfl⟩, _ | _⟩ := values
  cases ran
  exact ⟨_, rfl, flags, rfl⟩

/-- All rules but those of the whole source and of its parts. -/
theorem keeps_all (checked : TablesChecked) {rule : Nat} (known : rule ∈ dtGrammar.rules)
    (inner : dtGrammar.lhs rule ≠ 49 ∧ dtGrammar.lhs rule ≠ 54) : KeepsMeaning rule := by
  rcases checked.values rule known inner with unit | binary | unary | other
  · exact keeps_unit unit
  · exact keeps_binary binary
  · exact keeps_unary unary
  have each : ∀ rule ∈ [3, 4, 5, 6, 7, 8, 9, 10, 17, 18, 19, 20, 21, 22, 23, 24, 25, 26, 27, 28, 29, 30, 31, 32, 33,
    34, 35, 36, 37, 38, 41, 44,
      77, 78, 79, 80, 81, 82, 83, 84, 85], KeepsMeaning rule := by
    simp only [List.forall_mem_cons]
    exact ⟨keeps_version, keeps_plugin, keeps_header, keeps_headers, keeps_noReserves, keeps_reserves, keeps_reserve,
      keeps_reserveLabel,
      keeps_nodedef, keeps_noProps, keeps_props, keeps_assign, keeps_empty, keeps_delete, keeps_propLabel,
        keeps_string, keeps_array,
      keeps_bytestring, keeps_reference, keeps_incbinPart, keeps_incbin, keeps_labelBehind, keeps_noParts, keeps_comma,
        keeps_labelBefore,
      keeps_bits, keeps_noBits, keeps_number, keeps_phandle, keeps_arrayLabel, keeps_brackets, keeps_trinary,
        keeps_noBytes, keeps_byte,
      keeps_byteLabel, keeps_noSubnodes, keeps_subnodes, keeps_misplaced, keeps_subnode, keeps_deletedSubnode,
        keeps_subnodeLabel, nofun⟩
  exact each rule other

end Rules
section Trees
variable {σ : Type} {files : SourceFiles} {yylex : σ → Exec (Token × σ)}

abbrev symbolOfTree (tree : Spelling) : Sym := tree.sym dtGrammar fun token => yytranslated token.yychar

def Inner (symbol : Sym) : Prop := symbol ≠ .nonterminal 49 ∧ symbol ≠ .nonterminal 54

/-- A tree below the parts of a source spells a phrase and evaluates to the value of that phrase,
and it leaves the globals of the parser alone. -/
def TreeMeans (files : SourceFiles) (yylex : σ → Exec (Token × σ)) (tree : Spelling) : Prop :=
  ∀ (following : Nat) (below : List Located) (env after : ParserState) (value : Located),
    tree.Derives dtGrammar (fun token => yytranslated token.yychar) following →
      (∀ token ∈ tree.yield, ProperToken token) →
    Inner (symbolOfTree tree) → tree.eval (dtDriver files yylex) below env = .ok (value, after) →
    after = env ∧ ∃ phrase, spelled files tree = some phrase ∧ Means (symbolOfTree tree) (phrase, value.value)

theorem spelledAll_cons {tree : Spelling} {trees : List Spelling} {phrase : Phrase} {phrases : List Phrase}
    (first : spelled files tree = some phrase) (rest : spelledAll files trees = some phrases) :
    spelledAll files (tree :: trees) = some (phrase :: phrases) := by
  rw [spelledAll, first, rest]
  rfl

theorem trees_mean {trees : List Spelling} (each : ∀ tree ∈ trees, TreeMeans files yylex tree)
    (inner : ∀ tree ∈ trees, Inner (symbolOfTree tree)) :
    ∀ {following : Nat} {below values : List Located} {env after : ParserState},
      DeriveAll dtGrammar (fun token => yytranslated token.yychar) following trees →
        (∀ token ∈ yields trees, ProperToken token) →
      evals (dtDriver files yylex) below env trees = .ok (values, after) →
      after = env ∧ ∃ own : List (Phrase × Semantic), spelledAll files trees = some (own.map Prod.fst) ∧
        values.map (·.value) = (own.map Prod.snd).reverse ++ below.map (·.value) ∧
          Values (trees.map symbolOfTree) own := by
  induction trees with
  | nil =>
    intro following below values env after derive proper ran
    cases ran
    exact ⟨rfl, [], rfl, rfl, .nil⟩
  | cons tree trees ih =>
    intro following below values env after derive proper ran
    rw [ShiftReduce.DeriveAll] at derive
    obtain ⟨value, middle, first, rest⟩ := evals_cons.mp ran
    rw [List.forall_mem_cons] at each inner
    rw [yields, List.forall_mem_append] at proper
    obtain ⟨rfl, phrase, spells, means⟩ := each.1 _ _ _ _ _ derive.1 proper.1 inner.1 first
    obtain ⟨same, own, spell, values, others⟩ := ih each.2 inner.2 derive.2 proper.2 rest
    refine ⟨same, (phrase, value.value) :: own, spelledAll_cons spells spell, ?_, .cons means others⟩
    rw [values, List.map_cons, List.map_cons, List.reverse_cons, List.append_assoc]
    rfl

theorem inner_rhs (checked : TablesChecked) {rule : Nat} (known : rule ∈ dtGrammar.rules)
    (inner : dtGrammar.lhs rule ≠ 49 ∧ dtGrammar.lhs rule ≠ 54) :
    ∀ symbol ∈ dtGrammar.rhs rule, Inner symbol :=
  checked.inner rule known (.inl inner)

/-- The actions of the other rules do not see the globals. -/
theorem yyaction_inner {dir : Option Bytes} {rule : Nat} {yyvsp : List Semantic} {env : ParserState}
    (other : rule ≠ 2 ∧ rule ≠ 14) :
    yyaction files dir rule yyvsp env = yyvalue files dir rule yyvsp >>= fun value => .ok (value, env) := by
  rw [yyaction]
  · rfl
  · exact fun is => other.1 is
  · exact fun is => other.2 is

/-- The values that a rule sees, and what it makes of them. -/
theorem reduced_values {rule : Nat} {yyvsp : List Located} {env after : ParserState} {value : Located}
    (reduced : (dtDriver files yylex).reduced rule yyvsp env = .ok (value, after)) :
    yyaction files (yyvsp.head?.map (·.dir)).join rule (yyvsp.map (·.value)) env = .ok (value.value, after) := by
  obtain ⟨⟨made, env⟩, acted, same⟩ := Exec.bind_eq_ok.mp reduced
  cases same
  exact acted

theorem evals_last {front : List Spelling} {token : Token} :
    ∀ {below values : List Located} {env after : ParserState},
      evals (dtDriver files yylex) below env (front ++ [.leaf token]) = .ok (values, after) →
      values.head? = some ⟨token.yylval, token.dir⟩ := by
  induction front with
  | nil =>
    intro below values env after ran
    cases ran
    rfl
  | cons tree front ih =>
    intro below values env after ran
    obtain ⟨value, middle, -, rest⟩ := evals_cons.mp ran
    exact ih rest

/-- The last symbol of an included file is a bracket, and the action sees the file that it is in. -/
theorem included_place {rule : Nat} {children : List Spelling} {below values : List Located} {env after : ParserState}
    (includes : rule ∈ [28, 29]) (symbols : children.map symbolOfTree = dtGrammar.rhs rule)
    (ran : evals (dtDriver files yylex) below env children = .ok (values, after)) :
    placeOf children = (values.head?.map (·.dir)).join := by
  have bracket : ∃ front, dtGrammar.rhs rule = front ++ [.terminal 35] := by
    simp only [List.mem_cons, List.not_mem_nil, or_false] at includes
    rcases includes with rfl | rfl
    exacts [⟨(dtGrammar.rhs 28).dropLast, rfl⟩, ⟨(dtGrammar.rhs 29).dropLast, rfl⟩]
  obtain ⟨front, ends⟩ := bracket
  rw [ends] at symbols
  obtain ⟨before, last, rfl, -, last_sym⟩ := List.map_eq_append_iff.mp symbols
  obtain ⟨tree, rest, rfl, closes, none⟩ := List.map_eq_cons_iff.mp last_sym
  obtain rfl := List.map_eq_nil_iff.mp none
  obtain token | ⟨_, _⟩ := tree
  · rw [evals_last ran, placeOf, yields_append]
    rw [yields, ShiftReduce.Tree.yield, yields, List.append_nil, List.getLast?_append]
    rfl
  · cases closes

theorem tree_means (checked : TablesChecked) : ∀ tree : Spelling, TreeMeans files yylex tree := by
  refine ShiftReduce.Tree.induct ?_ ?_
  case refine_1 =>
    intro token following below env after value derives proper inner ran
    cases ran
    obtain ⟨phrase, stands⟩ := proper token (List.mem_singleton_self token)
    exact ⟨rfl, phrase, stands, token_means stands⟩
  case refine_2 =>
    intro rule children each following below env after value derives proper inner ran
    rw [ShiftReduce.Tree.Derives] at derives
    obtain ⟨known, symbols, -, derive⟩ := derives
    have outer : dtGrammar.lhs rule ≠ 49 ∧ dtGrammar.lhs rule ≠ 54 :=
      ⟨fun is => inner.1 (congrArg Sym.nonterminal is), fun is => inner.2 (congrArg Sym.nonterminal is)⟩
    have below_inner : ∀ tree ∈ children, Inner (symbolOfTree tree) := fun tree mem =>
      inner_rhs checked known outer _ (symbols ▸ List.mem_map_of_mem mem)
    rw [ShiftReduce.Tree.eval] at ran
    obtain ⟨⟨values, middle⟩, first, reduced⟩ := Exec.bind_eq_ok.mp ran
    obtain ⟨rfl, own, spell, own_values, means⟩ := trees_mean each below_inner derive proper first
    have acted := reduced_values reduced
    rw [yyaction_inner ⟨fun is => outer.1 (congrArg dtGrammar.lhs is), fun is =>
      outer.2 (congrArg dtGrammar.lhs is)⟩] at acted
    obtain ⟨made, valued, same⟩ := Exec.bind_eq_ok.mp acted
    cases same
    rw [own_values] at valued
    rw [symbols] at means
    obtain ⟨phrase, stands, means⟩ := keeps_all checked known outer _ _ _ _ _ _
      (fun includes => included_place includes symbols first) means valued
    refine ⟨rfl, phrase, ?_, means⟩
    rw [spelled, spell]
    exact stands

end Trees
section Sources
variable {σ : Type} {files : SourceFiles} {yylex : σ → Exec (Token × σ)}

def AddsPart (part : TreePart) (flags : Nat) (dt : Node) (env : ParserState) (value : Semantic)
    (after : ParserState) : Prop :=
  ∃ state, readTreePart flags ⟨dt, env.nextOrphanFragment⟩ part = .ok state ∧ value = .node state.dt ∧
    after = ⟨state.nextOrphanFragment, env.parserOutput⟩

/-- What the symbols behind a `devicetree` stand for is a part, and their values add it. -/
def PartRule (rule : Nat) : Prop :=
  ∀ (files : SourceFiles) (dir place : Option Bytes) (own : List (Phrase × Semantic))
    (below : List Semantic) (dt : Node) (reserves : List ReserveInfo) (flags : Nat) (env after : ParserState)
    (value : Semantic), Values (dtGrammar.rhs rule).tail own →
    yyaction files dir rule ((own.map Prod.snd).reverse ++ .node dt :: .re reserves :: .flags flags :: below) env =
      .ok (value, after) →
    ∃ part, (∀ root parts, rulePhrase files place rule (.tree root parts :: own.map Prod.fst) =
      some (.tree root (parts ++ [part]))) ∧
      AddsPart part flags dt env value after

theorem part_root : PartRule 12 := by
  intro files dir place own below dt reserves flags env after value values ran
  change Values [.terminal 26, .nonterminal 55] own at values
  obtain _ | ⟨⟨_, rfl⟩, _ | ⟨⟨source, node, read, rfl⟩, _ | _⟩⟩ := values
  cases ran
  refine ⟨.root source, fun _ _ => rfl, ⟨dt.alter (mergeNodes node) [], env.nextOrphanFragment⟩, ?_, rfl, rfl⟩
  rw [readTreePart, read]
  rfl

theorem part_labelled : PartRule 13 := by
  intro files dir place own below dt reserves flags env after value values ran
  change Values [.terminal 22, .terminal 23, .nonterminal 55] own at values
  obtain _ | ⟨⟨label, rfl⟩, _ | ⟨⟨ref, rfl⟩, _ | ⟨⟨source, node, read, rfl⟩, _ | _⟩⟩⟩ := values
  rw [yyaction_inner (by decide)] at ran
  obtain ⟨made, valued, same⟩ := Exec.bind_eq_ok.mp ran
  cases same
  change yyvalue files dir 13 (.node node :: .labelref ref.chars :: .labelref label.chars :: .node dt :: _) =
    _ at valued
  unfold yyvalue at valued
  dsimp only at valued
  cases found : getNodeByRef dt ref.chars with
  | none =>
    rw [found] at valued
    cases valued
  | some target =>
    rw [found] at valued
    cases valued
    refine ⟨.labelled label ref source, fun _ _ => rfl, ⟨_, env.nextOrphanFragment⟩, ?_, rfl, rfl⟩
    rw [readTreePart, read, Exec.ok_bind, found]
    rfl

theorem part_overlay : PartRule 14 := by
  intro files dir place own below dt reserves flags env after value values ran
  change Values [.terminal 23, .nonterminal 55] own at values
  obtain _ | ⟨⟨ref, rfl⟩, _ | ⟨⟨source, node, read, rfl⟩, _ | _⟩⟩ := values
  change yyaction files dir 14 (.node node :: .labelref ref.chars :: .node dt :: .re reserves :: .flags flags :: below)
    env = _ at ran
  unfold yyaction at ran
  dsimp only at ran
  cases found : getNodeByRef dt ref.chars with
  | some target =>
    rw [found] at ran
    cases ran
    refine ⟨.overlay ref source, fun _ _ => rfl, ⟨_, env.nextOrphanFragment⟩, ?_, rfl, rfl⟩
    rw [readTreePart, read, Exec.ok_bind, found]
    rfl
  | none =>
    rw [found] at ran
    change (if flags &&& dtsfPlugin ≠ 0 then _ else _) = _ at ran
    split at ran
    case isFalse => cases ran
    case isTrue plugin =>
      obtain ⟨orphan, added, same⟩ := Exec.bind_eq_ok.mp ran
      cases same
      refine ⟨.overlay ref source, fun _ _ => rfl, ⟨orphan, env.nextOrphanFragment + 1⟩, ?_, rfl, rfl⟩
      rw [readTreePart, read, Exec.ok_bind, found]
      change (if flags &&& dtsfPlugin ≠ 0 then _ else _) = _
      rw [if_pos plugin, added]
      rfl

theorem part_delete : PartRule 15 := by
  intro files dir place own below dt reserves flags env after value values ran
  change Values [.terminal 16, .terminal 23, .terminal 25] own at values
  obtain _ | ⟨⟨_, rfl⟩, _ | ⟨⟨ref, rfl⟩, _ | ⟨⟨_, rfl⟩, _ | _⟩⟩⟩ := values
  rw [yyaction_inner (by decide)] at ran
  obtain ⟨made, valued, same⟩ := Exec.bind_eq_ok.mp ran
  cases same
  change yyvalue files dir 15 (_ :: .labelref ref.chars :: _ :: .node dt :: _) = _ at valued
  unfold yyvalue at valued
  dsimp only at valued
  cases found : getNodeByRef dt ref.chars with
  | none =>
    rw [found] at valued
    cases valued
  | some target =>
    rw [found] at valued
    cases valued
    refine ⟨.delete ref, fun _ _ => rfl, ⟨_, env.nextOrphanFragment⟩, ?_, rfl, rfl⟩
    rw [readTreePart, found]
    rfl

theorem readTree_snoc {source : DtSource} {fragment : Nat} {state final : Parsed} {part : TreePart}
    (read : readTree source fragment = .ok state) (last : readTreePart source.flags state part = .ok final) :
    readTree { source with parts := source.parts ++ [part] } fragment = .ok final := by
  obtain ⟨flags, reserves, _ | root, parts⟩ := source
  · exact foldlM_snoc read last
  · obtain ⟨dt, rooted, parts⟩ := Exec.bind_eq_ok.mp read
    rw [readTree]
    change (readNodeDef root >>= _) = _
    rw [rooted]
    exact foldlM_snoc parts last

/-- The tree that the parts of a source make. The derivation tree spells the root and these parts. -/
def MakesTree (tree : Spelling) (files : SourceFiles) (yylex : σ → Exec (Token × σ)) : Prop :=
  ∀ (following : Nat) (below : List Located) (env after : ParserState) (value : Located) (flags : Nat)
    (reserves : List ReserveInfo) (rest : List Semantic),
    tree.Derives dtGrammar (fun token => yytranslated token.yychar) following →
    (∀ token ∈ tree.yield, ProperToken token) → symbolOfTree tree = .nonterminal 54 →
    below.map (·.value) = .re reserves :: .flags flags :: rest →
    tree.eval (dtDriver files yylex) below env = .ok (value, after) →
    ∃ root parts parsed, spelled files tree = some (.tree root parts) ∧
      readTree ⟨flags, reserves, root, parts⟩ env.nextOrphanFragment = .ok parsed ∧
        value.value = .node parsed.dt ∧
      after = ⟨parsed.nextOrphanFragment, env.parserOutput⟩

theorem part_behind (checked : TablesChecked) {rule : Nat} (part : PartRule rule) (known : rule ∈ [12, 13, 14, 15])
    {before : Spelling} {others : List Spelling} (makes : MakesTree before files yylex)
    (symbols : (before :: others).map symbolOfTree = dtGrammar.rhs rule) {following : Nat} {below values : List Located}
    {env middle after : ParserState} {value : Located} {flags : Nat} {reserves : List ReserveInfo}
    {rest : List Semantic}
    (derive : DeriveAll dtGrammar (fun token => yytranslated token.yychar) following (before :: others))
    (proper : ∀ token ∈ yields (before :: others), ProperToken token)
    (header : below.map (·.value) = .re reserves :: .flags flags :: rest)
    (first : evals (dtDriver files yylex) below env (before :: others) = .ok (values, middle))
    (reduced : (dtDriver files yylex).reduced rule values middle = .ok (value, after)) :
    ∃ root parts parsed, spelled files (.node rule (before :: others)) = some (.tree root parts) ∧
      readTree ⟨flags, reserves, root, parts⟩ env.nextOrphanFragment = .ok parsed ∧
        value.value = .node parsed.dt ∧
      after = ⟨parsed.nextOrphanFragment, env.parserOutput⟩ := by
  obtain ⟨cons, inner⟩ := checked.behind rule known
  rw [cons, List.map_cons, List.cons.injEq] at symbols
  rw [DeriveAll] at derive
  rw [yields, List.forall_mem_append] at proper
  obtain ⟨tree, between, one, further⟩ := evals_cons.mp first
  obtain ⟨root, parts, parsed, spells, read, treed, rfl⟩ :=
    makes _ _ _ _ _ _ _ _ derive.1 proper.1 symbols.1 header one
  have below_inner : ∀ tree ∈ others, Inner (symbolOfTree tree) :=
    fun tree mem => inner _ (symbols.2 ▸ List.mem_map_of_mem mem)
  obtain ⟨rfl, own, spell, own_values, means⟩ :=
    trees_mean (fun tree _ => tree_means checked tree) below_inner derive.2 proper.2 further
  have acted := reduced_values reduced
  rw [own_values, List.map_cons, header, treed] at acted
  rw [symbols.2] at means
  obtain ⟨last, stands, state, added, made, rfl⟩ :=
    part _ _ (placeOf (before :: others)) _ _ _ _ _ _ _ _ means acted
  refine ⟨root, parts ++ [last], state, ?_, readTree_snoc read added, made, rfl⟩
  rw [spelled, spelledAll_cons spells spell]
  exact stands root parts

theorem root_first {place : Option Bytes} {own : List (Phrase × Semantic)} {below : List Semantic}
    {env after : ParserState} {value : Semantic} (values : Values (dtGrammar.rhs 11) own)
    (ran : yyaction files dir 11 ((own.map Prod.snd).reverse ++ below) env = .ok (value, after)) :
    ∃ source node, rulePhrase files place 11 (own.map Prod.fst) = some (.tree (some source) []) ∧
      readNodeDef source = .ok node ∧
      value = .node (nameNode node []) ∧ after = env := by
  change Values [.terminal 26, .nonterminal 55] own at values
  obtain _ | ⟨⟨_, rfl⟩, _ | ⟨⟨source, node, read, rfl⟩, _ | _⟩⟩ := values
  cases ran
  exact ⟨source, node, rfl, read, rfl, rfl⟩

theorem devicetree_means (checked : TablesChecked) : ∀ tree : Spelling, MakesTree tree files yylex := by
  refine ShiftReduce.Tree.induct ?_ ?_
  case refine_1 =>
    intro token following below env after value flags reserves rest derives proper symbol
    cases symbol
  case refine_2 =>
    intro rule children each following below env after value flags reserves rest derives proper symbol header ran
    rw [ShiftReduce.Tree.Derives] at derives
    obtain ⟨known, symbols, -, derive⟩ := derives
    rw [ShiftReduce.Tree.eval] at ran
    obtain ⟨⟨values, middle⟩, first, reduced⟩ := Exec.bind_eq_ok.mp ran
    rcases checked.parts rule known (Sym.nonterminal.inj symbol) with rfl | rfl | parts
    · have below_inner : ∀ tree ∈ children, Inner (symbolOfTree tree) := fun tree mem =>
        checked.inner 11 known (.inr rfl) _ (symbols ▸ List.mem_map_of_mem mem)
      obtain ⟨rfl, own, spell, own_values, means⟩ :=
        trees_mean (fun tree _ => tree_means checked tree) below_inner derive proper first
      have acted := reduced_values reduced
      rw [own_values] at acted
      rw [symbols] at means
      obtain ⟨source, node, stands, read, made, rfl⟩ := @root_first _ _ (placeOf children) _ _ _ _ _ means acted
      refine ⟨some source, [], ⟨nameNode node [], after.nextOrphanFragment⟩, ?_, ?_, made, rfl⟩
      · rw [spelled, spell]
        exact stands
      · rw [readTree]
        change (readNodeDef source >>= _) = _
        rw [read]
        rfl
    · obtain rfl : children = [] := List.map_eq_nil_iff.mp (symbols : children.map symbolOfTree = [])
      cases first
      cases reduced
      exact ⟨none, [], _, rfl, rfl, rfl, rfl⟩
    · obtain _ | ⟨before, others⟩ := children
      · rw [(checked.behind rule parts).1] at symbols
        cases symbols
      have part : PartRule rule := by
        simp only [List.mem_cons, List.not_mem_nil, or_false] at parts
        rcases parts with rfl | rfl | rfl | rfl
        exacts [part_root, part_labelled, part_overlay, part_delete]
      exact part_behind checked part parts (each before List.mem_cons_self) symbols derive proper header first reduced

/-- What the parser accepts has a tree of the grammar. That tree spells a source, and the output is
what the source means. -/
theorem TablesChecked.accepted_reads (checked : TablesChecked)
    (proper : ∀ source token after, yylex source = .ok (token, after) → ProperToken token)
    {fuel fragment : Nat} {source : σ} {result : ParserState}
    (ran : yyparse files yylex fuel source fragment = some (.ok result)) :
    ∃ tree dts info, Remains (dtDriver files yylex) none source tree.yield ∧
      Parse dtGrammar (dtDriver files yylex) ⟨fragment, none⟩ result tree ∧
        spelled files tree = some (.source dts) ∧
      dtFromSource dts fragment = .ok info ∧ result.parserOutput = some info := by
  obtain ⟨tree, remains, parse⟩ := checked.yyparse_accepted.mp ⟨fuel, ran⟩
  have proper_yield : ∀ token ∈ tree.yield, ProperToken token := remains.all proper fun _ is => by cases is
  obtain ⟨symbol, derives, ⟨value, evaluates⟩, -⟩ := id parse
  obtain token | ⟨rule, children⟩ := tree
  · cases symbol
  refine ⟨.node rule children, ?_⟩
  rw [ShiftReduce.Tree.Derives] at derives
  obtain ⟨known, symbols, -, derive⟩ := derives
  rw [ShiftReduce.Tree.eval] at evaluates
  obtain ⟨⟨values, middle⟩, first, reduced⟩ := Exec.bind_eq_ok.mp evaluates
  obtain rfl := checked.whole rule known (Sym.nonterminal.inj symbol)
  change children.map symbolOfTree = [.nonterminal 51, .nonterminal 52, .nonterminal 54] at symbols
  obtain ⟨headers, others, rfl, at_headers, symbols⟩ := List.map_eq_cons_iff.mp symbols
  obtain ⟨reserves, others, rfl, at_reserves, symbols⟩ := List.map_eq_cons_iff.mp symbols
  obtain ⟨devicetree, others, rfl, at_tree, symbols⟩ := List.map_eq_cons_iff.mp symbols
  obtain rfl := List.map_eq_nil_iff.mp symbols
  obtain ⟨headed, env, ran_headers, ran_others⟩ := evals_cons.mp first
  obtain ⟨reserved, env', ran_reserves, ran_others⟩ := evals_cons.mp ran_others
  obtain ⟨treed, env'', ran_tree, ran_others⟩ := evals_cons.mp ran_others
  cases ran_others
  simp only [DeriveAll] at derive
  simp only [ShiftReduce.Tree.yield, yields, List.forall_mem_append] at proper_yield
  have inner : Inner (symbolOfTree headers) ∧ Inner (symbolOfTree reserves) := by
    rw [at_headers, at_reserves]
    exact ⟨⟨by decide, by decide⟩, ⟨by decide, by decide⟩⟩
  obtain ⟨rfl, _, spells_headers, flagged⟩ := tree_means checked headers _ _ _ _ _ derive.1 proper_yield.1
    inner.1 ran_headers
  obtain ⟨rfl, _, spells_reserves, listed⟩ :=
    tree_means checked reserves _ _ _ _ _ derive.2.1 proper_yield.2.1 inner.2 ran_reserves
  rw [at_headers] at flagged
  rw [at_reserves] at listed
  obtain ⟨flags, flagged⟩ := flagged
  obtain ⟨rfl, headed_value⟩ := Prod.mk.inj flagged
  obtain ⟨list, listed⟩ := listed
  obtain ⟨rfl, reserved_value⟩ := Prod.mk.inj listed
  have header : [reserved, headed].map (·.value) = .re list :: .flags flags :: [] := by
    rw [List.map_cons, reserved_value, List.map_cons, headed_value]
    rfl
  obtain ⟨root, parts, parsed, spells_tree, read, made, rfl⟩ :=
    devicetree_means checked devicetree _ _ _ _ _ _ _ _ derive.2.2.1 proper_yield.2.2.1 at_tree header ran_tree
  have acted := reduced_values reduced
  rw [List.map_cons, header, made] at acted
  obtain ⟨cpu, guessed, same⟩ := Exec.bind_eq_ok.mp acted
  obtain rfl := (Prod.mk.inj (Except.ok.inj same)).2
  refine ⟨⟨flags, list, root, parts⟩, ⟨flags, list, parsed.dt, cpu⟩, remains, parse, ?_, ?_, rfl⟩
  · rw [spelled, spelledAll_cons spells_headers (spelledAll_cons spells_reserves (spelledAll_cons spells_tree rfl))]
    rfl
  · rw [dtFromSource, read, Exec.ok_bind, guessed]
    rfl

end Sources
end Bxxt.Proofs
