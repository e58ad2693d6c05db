import Bxxt.Proofs.BlobSize

/-! What the reader finds in a blob that the writer made: the nodes and properties that are not deleted, without
their labels and numbers. -/

namespace Bxxt.Proofs
open Bxxt ByteLayout BlobBytes SiblingTree

section Plain

def plainProp (prop : Property) : Property := buildProperty prop.name ⟨prop.val.val, []⟩

def plainInfo (info : NodeInfo) : NodeInfo := ⟨false, info.name, (liveProps info).map plainProp, none, 0, 0, []⟩

def plain (tree : Node) : Node := tree.prune live plainInfo

def PlainNames (info : NodeInfo) : Prop := 0 ∉ info.name ∧ ∀ prop ∈ liveProps info, 0 ∉ prop.name

end Plain
section Memory
variable {mem : Region} {addr : Nat} {bytes more : Bytes}

def At (mem : Region) (addr : Nat) (bytes : Bytes) : Prop := bytes <+: mem.mapped.drop addr

theorem At.left (found : At mem addr (bytes ++ more)) : At mem addr bytes := (List.prefix_append _ _).trans found

theorem At.right (found : At mem addr (bytes ++ more)) : At mem (addr + bytes.length) more := by
  obtain ⟨rest, same⟩ := found
  refine ⟨rest, ?_⟩
  rw [← List.drop_drop, ← same, List.append_assoc, List.drop_left]

theorem At.inside (found : At mem addr bytes) (some : bytes ≠ []) : addr + bytes.length ≤ mem.mapped.length := by
  have length := found.length_le
  have positive := List.length_pos_of_ne_nil some
  rw [List.length_drop] at length
  omega

theorem At.slice (found : At mem addr bytes) : mem.slice addr bytes.length = .ok bytes := by
  rw [Region.slice]
  rcases List.eq_nil_or_concat bytes with rfl | ⟨_, _, rfl⟩
  · rfl
  · have inside := found.inside (by simp)
    rw [if_neg (by simp), if_pos inside]
    exact congrArg Except.ok (List.prefix_iff_eq_take.mp found).symm

theorem At.load {byte : UInt8} (found : At mem addr (byte :: more)) : mem.load addr = .ok byte := by
  obtain ⟨rest, same⟩ := found
  have first : (mem.mapped.drop addr)[0]? = some byte := by rw [← same]; rfl
  rw [List.getElem?_drop, Nat.add_zero] at first
  rw [Region.load, first]

theorem scanString_at {str : Bytes} (plain : 0 ∉ str) {room : Nat} (enough : str.length < room)
    (found : At mem addr (str ++ [0])) :
    scanString mem room addr = .ok str := by
  induction str generalizing room addr with
  | nil =>
    obtain ⟨room, rfl⟩ := Nat.exists_eq_add_one_of_ne_zero (Nat.ne_of_gt enough)
    rw [scanString, found.load, Exec.ok_bind, if_pos rfl]
    rfl
  | cons byte str ih =>
    obtain ⟨room, rfl⟩ := Nat.exists_eq_add_one_of_ne_zero
      (Nat.ne_of_gt (Nat.lt_of_le_of_lt (Nat.zero_le _) enough))
    rw [List.mem_cons, not_or] at plain
    have rest : At mem (addr + 1) (str ++ [0]) := @At.right mem addr [byte] (str ++ [0]) found
    rw [scanString, found.load, Exec.ok_bind, if_neg (Ne.symm plain.1), ih plain.2 (Nat.lt_of_succ_lt_succ enough) rest]
    rfl

end Memory
section Words
variable {mem : Region} {inb : Inbuf}

/-- The pointer is at a cell of the structure block. -/
structure AtCell (mem : Region) (inb : Inbuf) : Prop where
  aligned : 4 ∣ inb.ptr - inb.base
  behind : inb.base ≤ inb.ptr
  limit : inb.limit = mem.mapped.length
  small : mem.mapped.length ≤ intMax
  margin : 4 ≤ inb.base

def forward (inb : Inbuf) (count : Nat) : Inbuf := { inb with ptr := inb.ptr + count }

theorem AtCell.forward (ready : AtCell mem inb) {count : Nat} (cells : 4 ∣ count) :
    AtCell mem (forward inb count) where
  aligned := by
    have behind := ready.behind
    have same : inb.ptr + count - inb.base = inb.ptr - inb.base + count := by omega
    rw [Proofs.forward, same]
    exact Nat.dvd_add ready.aligned cells
  behind := Nat.le_add_right_of_le ready.behind
  limit := ready.limit
  small := ready.small
  margin := ready.margin

theorem forward_forward (inb : Inbuf) (first second : Nat) :
    forward (forward inb first) second = forward inb (first + second) := by
  rw [forward, forward, forward, Nat.add_assoc]

theorem flatReadChunk_at (limit : inb.limit = mem.mapped.length) {bytes : Bytes} (some : bytes ≠ [])
    (found : At mem inb.ptr bytes) :
    flatReadChunk mem inb bytes.length = .ok (bytes, forward inb bytes.length) := by
  have inside := found.inside some
  rw [flatReadChunk, limit, if_neg (by omega), found.slice, Exec.ok_bind, ← limit]
  rfl

theorem flatReadWord_at (ready : AtCell mem inb) {word : Nat} (small : word < 2 ^ 32)
    (found : At mem inb.ptr (beBytes 4 word)) :
    flatReadWord mem inb = .ok (word, forward inb 4) := by
  have read := flatReadChunk_at ready.limit (List.ne_nil_of_length_pos (by simp)) found
  rw [length_beBytes] at read
  rw [flatReadWord, if_neg (not_not_intro (Nat.mod_eq_zero_of_dvd ready.aligned)), read, Exec.ok_bind]
  exact congrArg (fun word => Except.ok (word, forward inb 4)) (beValue_beBytes small)

/-- Behind padded data the pointer is aligned again. -/
theorem flatRealign_at (ready : AtCell mem inb) {items : Bytes} (some : items ≠ [])
    (found : At mem inb.ptr (PagedBytes.pad 4 0 items)) :
    flatRealign (forward inb items.length) 4 = .ok (forward inb (PagedBytes.pad 4 0 items).length) := by
  have filled : PagedBytes.pad 4 0 items ≠ [] := by
    rw [PagedBytes.pad]
    exact List.append_ne_nil_of_left_ne_nil some _
  have inside := found.inside filled
  have behind := ready.behind
  have margin := ready.margin
  have small := ready.small
  obtain ⟨cells, offset⟩ := ready.aligned
  have count := PagedBytes.size_add_padding (show 0 < 4 by omega) (inb.ptr - inb.base + items.length)
  rw [PagedBytes.padding_add_of_dvd ⟨cells, offset⟩] at count
  have length : (PagedBytes.pad 4 0 items).length = items.length + PagedBytes.padding 4 items.length := by
    rw [PagedBytes.length_pad 0 (by omega), PagedBytes.size_add_padding (by omega)]
  have place : inb.ptr + items.length - inb.base = inb.ptr - inb.base + items.length := by omega
  have step : flatRealign (forward inb items.length) 4 =
      if intMax < inb.ptr + items.length - inb.base + 4 - 1 then .error .intOverflow
      else if inb.limit < inb.base + PagedBytes.roundUp 4 (inb.ptr + items.length - inb.base) then .error .exited
      else .ok { inb with ptr := inb.base + PagedBytes.roundUp 4 (inb.ptr + items.length - inb.base) } := rfl
  have target : inb.base + (inb.ptr - inb.base + items.length + PagedBytes.padding 4 items.length) =
      inb.ptr + (PagedBytes.pad 4 0 items).length := by omega
  rw [step, place, ← count, target, if_neg (by omega), ready.limit, if_neg (by omega), ← ready.limit]
  rfl

theorem flatReadString_at (ready : AtCell mem inb) {name : Bytes} (plain : 0 ∉ name)
    (found : At mem inb.ptr (nameBytes name)) :
    flatReadString mem inb = .ok (name, forward inb (nameBytes name).length) := by
  have own : At mem inb.ptr (name ++ [0]) := At.left found
  have inside := own.inside (by simp)
  rw [List.length_append, List.length_singleton] at inside
  have scanned := @scanString_at mem inb.ptr name plain (inb.limit - inb.ptr) (by rw [ready.limit]; omega) own
  have realigned := flatRealign_at ready (by simp) found
  rw [List.length_append, List.length_singleton] at realigned
  rw [flatReadString, scanned, Exec.ok_bind]
  rw [forward, ← Nat.add_assoc] at realigned
  rw [realigned]
  rfl

theorem flatReadData_at (ready : AtCell mem inb) {val : Bytes} (found : At mem inb.ptr (PagedBytes.pad 4 0 val)) :
    flatReadData mem inb val.length = .ok (⟨val, []⟩, forward inb (PagedBytes.pad 4 0 val).length) := by
  rcases List.eq_nil_or_concat val with rfl | ⟨_, _, whole⟩
  · rfl
  · have some : val ≠ [] := by simp [whole]
    have own : At mem inb.ptr val := At.left found
    have inside := own.inside some
    have small := ready.small
    have realigned := flatRealign_at ready some found
    rw [flatReadData, if_neg (by simpa using some), if_neg (by omega), flatReadChunk_at ready.limit some
      own, Exec.ok_bind]
    dsimp only
    rw [realigned]
    rfl

/-- The table of strings, which the structure block has offsets into. -/
structure Table (mem : Region) (strbuf : Inbuf) (table : Bytes) : Prop where
  found : At mem strbuf.base table
  limit : strbuf.limit = strbuf.base + table.length
  small : table.length ≤ intMax

theorem flatReadStringtable_at {strbuf : Inbuf} {table name : Bytes} (strings : Table mem strbuf table) {offset : Nat}
    (holds : Holds table offset name) (plain : 0 ∉ name) : flatReadStringtable mem strbuf offset = .ok name := by
  have inside := holds.inside
  have small := strings.small
  obtain ⟨rest, behind⟩ := holds
  have own : At mem (strbuf.base + offset) (name ++ [0]) := by
    have front : (table.take offset).length = offset := by
      rw [List.length_take]
      omega
    have whole : table = table.take offset ++ (name ++ [0] ++ rest) := by
      rw [List.append_assoc, List.singleton_append, ← behind, List.take_append_drop]
    have found := strings.found
    rw [whole] at found
    have right := found.right.left
    rwa [front] at right
  rw [flatReadStringtable, if_neg (by omega), strings.limit]
  exact scanString_at plain (by omega) own

theorem flatReadProperty_at (ready : AtCell mem inb) {strbuf : Inbuf} {table : Bytes} (strings : Table mem strbuf table)
    {name val : Bytes} {offset : Nat} (holds : Holds table offset name) (plain : 0 ∉ name) {flags : FormatFlags}
    (noAlign : flags.varalign = false)
    (found : At mem inb.ptr (beBytes 4 val.length ++ (beBytes 4 offset ++ PagedBytes.pad 4 0 val))) :
    flatReadProperty mem inb strbuf flags = .ok
      (buildProperty name ⟨val, []⟩, forward inb (8 + (PagedBytes.pad 4 0 val).length)) := by
  have behindLength := found.right
  rw [length_beBytes] at behindLength
  have behindOffset := behindLength.right
  rw [length_beBytes] at behindOffset
  have limit : intMax < 2 ^ 32 := by decide
  have small := ready.small
  have offsetSmall : offset < 2 ^ 32 := by
    have inside := holds.inside
    have bound := strings.small
    omega
  have lengthSmall : val.length < 2 ^ 32 := by
    rcases List.eq_nil_or_concat val with rfl | ⟨_, _, whole⟩
    · exact Nat.two_pow_pos 32
    · have inside := (At.left behindOffset).inside (by simp [whole])
      omega
  have second := ready.forward (Nat.dvd_refl 4)
  have third := second.forward (Nat.dvd_refl 4)
  rw [flatReadProperty, flatReadWord_at ready lengthSmall found.left, Exec.ok_bind]
  dsimp only
  rw [flatReadWord_at second offsetSmall behindLength.left, Exec.ok_bind]
  dsimp only
  rw [flatReadStringtable_at strings holds plain, Exec.ok_bind, noAlign]
  simp only [Bool.false_eq_true, false_and, if_false, pure_bind]
  rw [flatReadData_at third behindOffset, Exec.ok_bind, forward_forward, forward_forward, ← Nat.add_assoc]
  rfl

end Words
section Loop
variable {mem : Region} {strbuf : Inbuf}

/-- The flags of the version that is written. -/
def readBack : FormatFlags := readFlags 17

theorem unflattenLoop_mono {flags : FormatFlags} {fuel more : Nat} (enough : fuel ≤ more) {flatname : Bytes}
    {node : Node} {inb : Inbuf} {result : Node × Inbuf}
    (run : unflattenLoop mem strbuf flags fuel flatname node inb = .ok result) :
    unflattenLoop mem strbuf flags more flatname node inb = .ok result := by
  induction fuel generalizing more flatname node inb result with
  | zero => cases run
  | succ fuel ih =>
    obtain ⟨more, rfl⟩ := Nat.exists_eq_add_one_of_ne_zero
      (Nat.ne_of_gt (Nat.lt_of_lt_of_le (Nat.zero_lt_succ fuel) enough))
    have enough := Nat.le_of_succ_le_succ enough
    rw [unflattenLoop] at run ⊢
    obtain ⟨⟨word, inb⟩, read, run⟩ := Exec.bind_eq_ok.mp run
    rw [read, Exec.ok_bind]
    dsimp only at run ⊢
    by_cases prop : word = fdtProp
    · rw [if_pos prop] at run ⊢
      obtain ⟨⟨prop, inb⟩, read, run⟩ := Exec.bind_eq_ok.mp run
      rw [read, Exec.ok_bind]
      exact ih enough run
    · rw [if_neg prop] at run ⊢
      by_cases begin : word = fdtBeginNode
      · rw [if_pos begin] at run ⊢
        obtain ⟨⟨child, childFlatname, inb⟩, opened, run⟩ := Exec.bind_eq_ok.mp run
        obtain ⟨⟨child, inb⟩, below, run⟩ := Exec.bind_eq_ok.mp run
        rw [opened, Exec.ok_bind]
        dsimp only at below ⊢
        rw [ih enough below, Exec.ok_bind]
        exact ih enough run
      · rw [if_neg begin] at run ⊢
        by_cases finish : word = fdtEndNode
        · rw [if_pos finish] at run ⊢
          exact run
        · rw [if_neg finish] at run ⊢
          by_cases nop : word = fdtNop
          · rw [if_pos nop] at run ⊢
            exact ih enough run
          · rw [if_neg nop] at run
            cases run

theorem tableAfter_extends (names : List Bytes) (table : Bytes) : ∃ more, tableAfter names table = table ++ more := by
  induction names generalizing table with
  | nil => exact ⟨[], (List.append_nil _).symm⟩
  | cons name names ih =>
    obtain ⟨first, inserted⟩ := insertString_extends table name
    obtain ⟨rest, whole⟩ := ih (insertString table name).2
    refine ⟨first ++ rest, ?_⟩
    rw [← List.append_assoc, ← inserted, ← whole]
    rfl

theorem tableAfter_closed {table : Bytes} (closed : Terminated table) (names : List Bytes) :
    Terminated (tableAfter names table) := by
  induction names generalizing table with
  | nil => exact closed
  | cons name names ih => exact ih (insertString_closed closed name)

/-- The properties of a node are read in front of what comes next. -/
theorem unflattenLoop_props {table : Bytes} (strings : Table mem strbuf table) {flatname : Bytes} {fuel : Nat}
    {result : Node × Inbuf} (props : List Property) (names : ∀ prop ∈ props, 0 ∉ prop.name) {before : Bytes}
    (closed : Terminated before) (extends_ : ∃ more, table = tableAfter (props.map (·.name)) before ++ more)
    {node : Node} {inb : Inbuf} (ready : AtCell mem inb) (found : At mem inb.ptr (propsBytes props before))
    (run : unflattenLoop mem strbuf readBack fuel flatname
      { node with value := { node.value with proplist := node.value.proplist ++ props.map plainProp } }
      (forward inb (propsBytes props before).length) = .ok result) :
    unflattenLoop mem strbuf readBack (fuel + props.length) flatname node inb = .ok result := by
  induction props generalizing before node inb with
  | nil =>
    rw [List.map_nil, List.append_nil] at run
    exact run
  | cons prop props ih =>
    rw [propsBytes] at found run
    have own := found.left
    rw [propBytes] at own
    have cells : 4 ∣ (propBytes (insertString before prop.name).1 prop.val.val).length := by
      rw [length_propBytes]
      exact Nat.dvd_add ⟨3, rfl⟩ (PagedBytes.dvd_roundUp ..)
    have holds : Holds table (insertString before prop.name).1 prop.name := by
      obtain ⟨later, whole⟩ := extends_
      obtain ⟨more, stays⟩ := tableAfter_extends (props.map (·.name)) (insertString before prop.name).2
      have step : tableAfter (prop.name :: props.map (·.name)) before = tableAfter (props.map (·.name))
        (insertString before prop.name).2 := rfl
      rw [whole, List.map_cons, step, stays, List.append_assoc]
      exact (insertString_holds closed prop.name).append _
    have behindTag := own.right
    rw [length_beBytes] at behindTag
    have read : flatReadProperty mem (forward inb 4) strbuf readBack =
        .ok (plainProp prop, forward (forward inb 4) (8 + (PagedBytes.pad 4 0 prop.val.val).length)) :=
      flatReadProperty_at (ready.forward (Nat.dvd_refl 4)) strings holds (names prop List.mem_cons_self) rfl behindTag
    have length : 4 + (8 + (PagedBytes.pad 4 0 prop.val.val).length) =
        (propBytes (insertString before prop.name).1 prop.val.val).length := by
      rw [length_propBytes, PagedBytes.length_pad 0 (by omega)]
      omega
    rw [forward_forward, length] at read
    rw [List.length_append, ← forward_forward] at run
    have others : unflattenLoop mem strbuf readBack (fuel + props.length) flatname
        { node with value := addProperty node.value (plainProp prop) }
        (forward inb (propBytes (insertString before prop.name).1 prop.val.val).length) = .ok result :=
      ih (fun prop inside => names prop (List.mem_cons_of_mem _ inside)) (insertString_closed closed prop.name) extends_
        (ready.forward cells) found.right (by
          rw [← run, addProperty, List.map_cons, List.append_assoc]
          rfl)
    rw [List.length_cons, ← Nat.add_assoc, unflattenLoop, flatReadWord_at ready (by decide) own.left, Exec.ok_bind]
    dsimp only
    rw [if_pos rfl, read, Exec.ok_bind]
    exact others

/-- The words that are read for some nodes. -/
def weight : Nodes → Nat
  | .nil => 0
  | .node info children next =>
    if info.deleted then weight next else 2 + (liveProps info).length + weight children + weight next

theorem openNode_at {inb : Inbuf} (ready : AtCell mem inb) {name : Bytes} (plain : 0 ∉ name)
    (found : At mem inb.ptr (nameBytes name)) (parent : Bytes) : openNode mem readBack parent inb =
      .ok (nameNode (buildNode [] .nil) name, name, forward inb (nameBytes name).length) := by
  rw [openNode, flatReadString_at ready plain found]
  rfl

/-- The nodes are read in front of what comes next. -/
def ReadsNodes (mem : Region) (strbuf : Inbuf) (nodes : Nodes) (before : Bytes) : Prop :=
  ∀ flatname fuel result (node : Node) inb, AtCell mem inb → At mem inb.ptr (nodesBytes nodes before) →
    unflattenLoop mem strbuf readBack fuel flatname
      { node with children := node.children.append (nodes.prune live plainInfo) }
      (forward inb (nodesBytes nodes before).length) = .ok result →
    unflattenLoop mem strbuf readBack (fuel + weight nodes) flatname node inb = .ok result

/-- A node is read behind its tag, with all that is below it. -/
theorem node_at {table : Bytes} (strings : Table mem strbuf table) {info : NodeInfo}
    (names : PlainNames info) {before : Bytes} (closed : Terminated before)
    (extends_ : ∃ more, table = tableAfter (propNames info) before ++ more) {children : Nodes}
    (below : ReadsNodes mem strbuf children (tableAfter (propNames info) before)) {inb : Inbuf} (ready : AtCell mem inb)
    (found : At mem inb.ptr (ownBytes info before ++
      (nodesBytes children (tableAfter (propNames info) before) ++ beBytes 4 fdtEndNode)))
    {fuel : Nat} (enough : (liveProps info).length + weight children + 1 ≤ fuel) (parent : Bytes) : ∃ opened,
      openNode mem readBack parent (forward inb 4) = .ok (nameNode (buildNode [] .nil) info.name, info.name, opened) ∧
      unflattenLoop mem strbuf readBack fuel info.name (nameNode (buildNode [] .nil) info.name) opened =
        .ok (⟨plainInfo info, children.prune live plainInfo⟩,
          forward inb ((ownBytes info before).length +
            (nodesBytes children (tableAfter (propNames info) before)).length + 4)) := by
  have own := found.left
  rw [ownBytes] at own
  have nameFound := own.right.left
  have propsFound := own.right.right
  have belowFound := found.right.left
  have endFound := found.right.right
  rw [length_beBytes] at nameFound propsFound
  have length : (ownBytes info before).length = 4 + (nameBytes info.name).length +
      (propsBytes (liveProps info) before).length := by
    rw [ownBytes, List.length_append, List.length_append, length_beBytes, Nat.add_assoc]
  have ownCells := dvd_ownBytes info before
  have belowCells := dvd_nodesBytes children (tableAfter (propNames info) before)
  have second := ready.forward (Nat.dvd_refl 4)
  refine ⟨_, openNode_at second names.1 nameFound parent, unflattenLoop_mono enough ?_⟩
  have finish : unflattenLoop mem strbuf readBack 1 info.name ⟨plainInfo info, children.prune live plainInfo⟩
      (forward inb ((ownBytes info before).length +
        (nodesBytes children (tableAfter (propNames info) before)).length)) =
        .ok (⟨plainInfo info, children.prune live plainInfo⟩,
          forward inb ((ownBytes info before).length +
            (nodesBytes children (tableAfter (propNames info) before)).length + 4)) := by
    have word := flatReadWord_at (ready.forward (Nat.dvd_add ownCells belowCells)) (show fdtEndNode < 2 ^ 32 by decide)
      (by rw [Nat.add_assoc] at endFound; exact endFound)
    rw [unflattenLoop, word, forward_forward]
    rfl
  have inside := below info.name 1 _ ⟨plainInfo info, .nil⟩ (forward inb (ownBytes info before).length)
    (ready.forward ownCells) belowFound
    (by rw [forward_forward]; exact finish)
  have start : unflattenLoop mem strbuf readBack (1 + weight children + (liveProps info).length) info.name
      (nameNode (buildNode [] .nil) info.name) (forward (forward inb 4) (nameBytes info.name).length) = _ :=
    unflattenLoop_props strings (liveProps info) names.2 closed extends_ (second.forward (length_nameBytes info.name))
      propsFound
      (by rw [forward_forward, forward_forward, ← Nat.add_assoc, ← length]; exact inside)
  have count : 1 + weight children + (liveProps info).length = (liveProps info).length + weight children + 1 := by omega
  rwa [count] at start

theorem readsNodes {table : Bytes} (strings : Table mem strbuf table) (nodes : Nodes) {top : Bytes}
    (names : ∀ info ∈ (Siblings.visit live pathBelow top nodes).map (·.value), PlainNames info) {before : Bytes}
    (closed : Terminated before) (extends_ : ∃ more, table = tableAfter (nodesNames nodes) before ++ more) :
    ReadsNodes mem strbuf nodes before := by
  induction nodes generalizing top before with
  | nil =>
    intro flatname fuel result node inb _ _ run
    rw [Siblings.prune, Siblings.append_nil] at run
    exact run
  | node info children next ihDown ihNext =>
    intro flatname fuel result node inb ready found run
    rw [visit_cons] at names
    rw [nodesBytes] at found run
    rw [nodesNames] at extends_
    rw [Siblings.prune] at run
    rw [weight]
    by_cases gone : info.deleted = true
    · have dead : ¬ live info = true := by simp [live, gone]
      rw [if_pos gone] at names found run extends_ ⊢
      rw [if_neg dead] at run
      exact ihNext names closed extends_ flatname fuel result node inb ready found run
    · have alive : live info = true := by simp [live, gone]
      rw [if_neg gone] at names found run extends_ ⊢
      rw [if_pos alive] at run
      dsimp only at found run
      obtain ⟨own, others⟩ := List.forall_mem_cons.mp names
      obtain ⟨below, behind⟩ := List.forall_mem_append.mp others
      obtain ⟨more, whole⟩ := extends_
      rw [tableAfter_append, tableAfter_append] at whole
      obtain ⟨second, outer⟩ := tableAfter_extends (nodesNames next)
        (tableAfter (nodesNames children) (tableAfter (propNames info) before))
      obtain ⟨first, inner⟩ := tableAfter_extends (nodesNames children) (tableAfter (propNames info) before)
      have ownClosed := tableAfter_closed closed (propNames info)
      have children' := ihDown below ownClosed ⟨second ++ more, by rw [whole, outer, List.append_assoc]⟩
      have next' := ihNext behind (tableAfter_closed ownClosed (nodesNames children)) ⟨more, whole⟩
      rw [← List.append_assoc, ← List.append_assoc] at found
      have here :
          At mem inb.ptr (ownBytes info before ++
            (nodesBytes children (tableAfter (propNames info) before) ++ beBytes 4 fdtEndNode)) := by
        rw [← List.append_assoc]
        exact found.left
      obtain ⟨opened, begun, ended⟩ := node_at strings own closed
        ⟨first ++ (second ++ more), by rw [whole, outer, inner, List.append_assoc, List.append_assoc]⟩
          children' ready here
        (show _ ≤ fuel + 1 + (liveProps info).length + weight children + weight next by omega) flatname
      have cells : 4 ∣ (ownBytes info before).length +
        (nodesBytes children (tableAfter (propNames info) before)).length + 4 :=
        Nat.dvd_add (Nat.dvd_add (dvd_ownBytes ..) (dvd_nodesBytes ..)) (Nat.dvd_refl 4)
      have behindFound := found.right
      simp only [List.length_append, length_beBytes] at behindFound run
      have shape : (addChild node ⟨plainInfo info, children.prune live plainInfo⟩).children.append
        (next.prune live plainInfo) =
          node.children.append (.node (plainInfo info) (children.prune live plainInfo) (next.prune live plainInfo)) :=
        Siblings.append_assoc ..
      have after := next' flatname fuel result (addChild node ⟨plainInfo info, children.prune live plainInfo⟩) _
        (ready.forward cells)
        behindFound (by
          rw [shape, forward_forward, ← run]
          congr 2
          omega)
      have count : fuel + (2 + (liveProps info).length + weight children + weight next) =
          fuel + 1 + (liveProps info).length + weight children + weight next + 1 := by omega
      have tag : At mem inb.ptr (beBytes 4 fdtBeginNode) := by
        have start := here.left
        rw [ownBytes] at start
        exact start.left
      rw [count, unflattenLoop, flatReadWord_at ready (by decide) tag, Exec.ok_bind]
      dsimp only
      rw [if_neg (by decide), if_pos rfl, begun, Exec.ok_bind]
      dsimp only
      rw [ended, Exec.ok_bind]
      exact unflattenLoop_mono (by omega) after

theorem length_props_le (props : List Property) (table : Bytes) : props.length ≤ (propsBytes props table).length := by
  induction props generalizing table with
  | nil => exact Nat.le_refl 0
  | cons prop props ih =>
    have rest := ih (insertString table prop.name).2
    rw [propsBytes, List.length_append, length_propBytes, List.length_cons]
    omega

theorem own_le (info : NodeInfo) (table : Bytes) : (liveProps info).length + 4 ≤ (ownBytes info table).length := by
  have props := length_props_le (liveProps info) table
  rw [ownBytes, List.length_append, List.length_append, length_beBytes]
  omega

theorem weight_le (nodes : Nodes) (table : Bytes) : weight nodes ≤ (nodesBytes nodes table).length := by
  induction nodes generalizing table with
  | nil => exact Nat.le_refl 0
  | node info children next ihDown ihNext =>
    rw [weight, nodesBytes]
    by_cases gone : info.deleted = true
    · rw [if_pos gone, if_pos gone]
      exact ihNext table
    · have own := own_le info table
      have below := ihDown (tableAfter (propNames info) table)
      have behind := ihNext (tableAfter (nodesNames children) (tableAfter (propNames info) table))
      rw [if_neg gone, if_neg gone]
      simp only [List.length_append, length_beBytes]
      omega

end Loop
section Header
variable {mem : Region}

theorem words_at (words : List Nat) (rest : Bytes) {index : Nat} (inside : index < words.length) :
    beBytes 4 words[index] <+: (words.flatMap (beBytes 4) ++ rest).drop (4 * index) := by
  induction words generalizing index with
  | nil => cases inside
  | cons word words ih =>
    rw [List.flatMap_cons, List.append_assoc]
    cases index with
    | zero => exact List.prefix_append ..
    | succ index =>
      have later := ih (Nat.lt_of_succ_lt_succ inside)
      have skip : 4 * (index + 1) = (beBytes 4 word).length + 4 * index := by
        rw [length_beBytes]
        omega
      rw [skip, ← List.drop_drop, List.drop_left]
      exact later

theorem fdtField_at {index word : Nat} (small : word < 2 ^ 32) (found : At mem (4 * index) (beBytes 4 word)) :
    fdtField mem index = .ok word := by
  have read := found.slice
  rw [length_beBytes] at read
  rw [fdtField, read]
  exact congrArg Except.ok (beValue_beBytes small)

theorem flatReadMemReserve_at {reservelist : List ReserveInfo} {fuel : Nat}
    (enough : reservelist.length < fuel) {inb : Inbuf} (limit : inb.limit = mem.mapped.length)
    (found : At mem inb.ptr (reserveBytes reservelist ++ List.replicate 16 0)) :
    flatReadMemReserve mem fuel inb = .ok (reservelist.takeWhile (·.size ≠ 0)) := by
  induction reservelist generalizing fuel inb with
  | nil =>
    obtain ⟨fuel, rfl⟩ := Nat.exists_eq_add_one_of_ne_zero (Nat.ne_of_gt enough)
    have read := flatReadChunk_at limit (by simp) (@At.right mem inb.ptr [] _ found)
    rw [List.length_replicate] at read
    rw [flatReadMemReserve, read, Exec.ok_bind]
    rfl
  | cons re rest ih =>
    obtain ⟨fuel, rfl⟩ := Nat.exists_eq_add_one_of_ne_zero
      (Nat.ne_of_gt (Nat.lt_of_le_of_lt (Nat.zero_le _) enough))
    have shape : reserveBytes (re :: rest) ++ List.replicate 16 0 =
        (beBytes 8 re.address.toNat ++ beBytes 8 re.size.toNat) ++ (reserveBytes rest ++ List.replicate 16 0) := by
      simp [reserveBytes]
    rw [shape] at found
    have length : (beBytes 8 re.address.toNat ++ beBytes 8 re.size.toNat).length = 16 := by
      rw [List.length_append, length_beBytes, length_beBytes]
    have read := flatReadChunk_at limit (List.ne_nil_of_length_pos (by omega)) found.left
    have first : (beBytes 8 re.address.toNat ++ beBytes 8 re.size.toNat).take 8 = beBytes 8 re.address.toNat :=
      List.take_left' (length_beBytes ..)
    have second : (beBytes 8 re.address.toNat ++ beBytes 8 re.size.toNat).drop 8 = beBytes 8 re.size.toNat :=
      List.drop_left' (length_beBytes ..)
    have number (value : UInt64) : UInt64.ofNat (beValue (beBytes 8 value.toNat)) = value := by
      have bound : value.toNat < 256 ^ 8 := Nat.lt_of_lt_of_eq (UInt64.toNat_lt value) (by norm_num)
      rw [beValue_beBytes bound, UInt64.ofNat_toNat]
    have behind := found.right
    rw [length] at read behind
    rw [flatReadMemReserve, read, Exec.ok_bind]
    dsimp only
    rw [first, second, number, number]
    by_cases none : re.size = 0
    · rw [if_pos none, List.takeWhile_cons_of_neg (by simp [none])]
      rfl
    · rw [if_neg none, List.takeWhile_cons_of_pos (by simp [none]),
        @ih fuel (Nat.lt_of_succ_lt_succ enough) (forward inb 16) limit behind]
      rfl

end Header
section Blob

def headerWords (reservesize dtsize strsize : Nat) (bootCpuidPhys : UInt32) : List Nat :=
  [fdtMagicWord, 56 + reservesize + dtsize + strsize, 56 + reservesize, 56 + reservesize + dtsize, 40, 17, 16,
    bootCpuidPhys.toNat, strsize, dtsize]

theorem headerBytes_words (reservesize dtsize strsize : Nat) (boot : UInt32) :
    headerBytes reservesize dtsize strsize boot =
      (headerWords reservesize dtsize strsize boot).flatMap (beBytes 4) := by
  simp [headerBytes, headerWords]

theorem mapped_ofBuffer (bytes : Bytes) : (Region.ofBuffer bytes).mapped = bytes := List.append_nil bytes

theorem length_blobBytes (dti : DtInfo) : (blobBytes dti).length =
    56 + 16 * dti.reservelist.length + structSize (infosOf dti.dt) + (stringTable (infosOf dti.dt)).length := by
  simp only [blobBytes, List.length_append, length_headerBytes, length_reserveBytes, List.length_replicate,
    length_structBlock]
  omega

structure HoldsBlob (mem : Region) (reservelist : List ReserveInfo) (tree : Node) (boot : UInt32) : Prop where
  header : At mem 0 (headerBytes (16 * reservelist.length) (structSize (infosOf tree))
    (stringTable (infosOf tree)).length boot)
  reserves : At mem 40 (reserveBytes reservelist ++ List.replicate 16 0)
  struct : At mem (56 + 16 * reservelist.length) (structBlock tree)
  strings : At mem (56 + 16 * reservelist.length + structSize (infosOf tree)) (stringTable (infosOf tree))
  length : mem.mapped.length = 56 + 16 * reservelist.length + structSize (infosOf tree) +
    (stringTable (infosOf tree)).length
  small : mem.mapped.length ≤ intMax

theorem holdsBlob {dti : DtInfo} (small : (blobBytes dti).length ≤ intMax) :
    HoldsBlob (Region.ofBuffer (blobBytes dti)) dti.reservelist dti.dt dti.bootCpuidPhys := by
  have mapped := mapped_ofBuffer (blobBytes dti)
  have length := length_blobBytes dti
  rw [length] at small
  rw [← mapped] at length
  generalize Region.ofBuffer (blobBytes dti) = mem at mapped length
  have whole : At mem 0 (blobBytes dti) := by
    rw [At, mapped]
    exact List.prefix_rfl
  rw [blobBytes, ← List.append_assoc (reserveBytes _)] at whole
  have behindHeader := whole.right
  rw [length_headerBytes, Nat.zero_add] at behindHeader
  have behindReserves := behindHeader.right
  rw [List.length_append, length_reserveBytes, List.length_replicate, ← Nat.add_assoc, Nat.add_right_comm]
    at behindReserves
  have behindStruct := behindReserves.right
  rw [length_structBlock] at behindStruct
  exact ⟨whole.left, behindHeader.left, behindReserves.left, behindStruct, length, by omega⟩

variable {mem : Region} {reservelist : List ReserveInfo} {tree : Node} {boot : UInt32}

theorem HoldsBlob.field (blob : HoldsBlob mem reservelist tree boot) (index : Nat) (inside : index < 10) :
    At mem (4 * index)
      (beBytes 4 ((headerWords (16 * reservelist.length) (structSize (infosOf tree)) (stringTable (infosOf tree)).length
      boot).get ⟨index, inside⟩)) := by
  have header := blob.header
  rw [headerBytes_words] at header
  obtain ⟨rest, same⟩ := header
  rw [List.drop_zero] at same
  rw [At, ← same]
  exact words_at _ _ inside

theorem HoldsBlob.ready (blob : HoldsBlob mem reservelist tree boot) :
    AtCell mem (inbufInit (56 + 16 * reservelist.length) mem.mapped.length) where
  aligned := by
    rw [inbufInit, Nat.sub_self]
    exact Nat.dvd_zero 4
  behind := Nat.le_refl _
  limit := rfl
  small := blob.small
  margin := Nat.le_add_right_of_le (by decide : 4 ≤ 56)

theorem HoldsBlob.unflattened (blob : HoldsBlob mem reservelist tree boot) (root : tree.value.deleted = false)
    (names : ∀ info ∈ infosOf tree, PlainNames info) :
    unflattenTree mem (inbufInit (56 + 16 * reservelist.length + structSize (infosOf tree))
      (56 + 16 * reservelist.length + structSize (infosOf tree) + (stringTable (infosOf tree)).length)) [] readBack
        (forward (inbufInit (56 + 16 * reservelist.length) mem.mapped.length) 4) =
      .ok (plain tree, forward (inbufInit (56 + 16 * reservelist.length) mem.mapped.length)
        (structSize (infosOf tree) - 4)) := by
  have length := blob.length
  have live' : ¬ tree.value.deleted = true := by simp [root]
  have infos := infosOf_root tree
  rw [if_neg live'] at infos
  have size := length_treeBytes tree []
  have struct := blob.struct.left
  rw [treeBytes, if_neg live'] at struct size
  have ready := blob.ready
  have strings : Table mem (inbufInit (56 + 16 * reservelist.length + structSize (infosOf tree))
      (56 + 16 * reservelist.length + structSize (infosOf tree) + (stringTable (infosOf tree)).length))
        (stringTable (infosOf tree)) :=
    ⟨blob.strings, rfl, by have small := blob.small; omega⟩
  have tables : stringTable (infosOf tree) = tableAfter (nodesNames tree.children)
      (tableAfter (propNames tree.value) []) := by
    have names' := treeNames_infos tree
    rw [treeNames, if_neg live'] at names'
    rw [stringTable, ← names', tableAfter_append]
  have closed : Terminated [] := Or.inl rfl
  obtain ⟨more, outer⟩ := tableAfter_extends (nodesNames tree.children) (tableAfter (propNames tree.value) [])
  have namesBelow : ∀ info ∈ (Siblings.visit live pathBelow [] tree.children).map (·.value), PlainNames info :=
      fun info inside =>
    names info (by rw [infos]; exact List.mem_cons_of_mem _ inside)
  have below := readsNodes strings tree.children namesBelow (tableAfter_closed closed (propNames tree.value))
    ⟨[], by rw [List.append_nil]; exact tables⟩
  have own := own_le tree.value []
  have weights := weight_le tree.children (tableAfter (propNames tree.value) [])
  simp only [List.length_append, length_beBytes] at size
  have count : structSize (infosOf tree) = ((infosOf tree).map nodeSize).sum + 4 := rfl
  obtain ⟨opened, begun, ended⟩ := node_at strings
    (names tree.value (by rw [infos]; exact List.mem_cons_self)) closed
    ⟨more, tables.trans outer⟩ below ready struct (show _ ≤ mem.mapped.length + 1 by omega) []
  have place : structSize (infosOf tree) - 4 =
      (ownBytes tree.value []).length + (nodesBytes tree.children (tableAfter (propNames tree.value) [])).length + 4 :=
        by omega
  rw [unflattenTree, begun, Exec.ok_bind, place]
  exact ended

theorem HoldsBlob.opened (blob : HoldsBlob mem reservelist tree boot) : dtFromMem mem = (do
    let (ret, dtbuf) ← flatReadWord mem (inbufInit (56 + 16 * reservelist.length) mem.mapped.length)
    if ret ≠ fdtBeginNode then throw .exited
    let (tree, dtbuf) ← unflattenTree mem (inbufInit (56 + 16 * reservelist.length + structSize (infosOf tree))
      (56 + 16 * reservelist.length + structSize (infosOf tree) + (stringTable (infosOf tree)).length))
        [] readBack dtbuf
    let (ret, _) ← flatReadWord mem dtbuf
    if ret ≠ fdtEnd then throw .exited
    return ⟨dtsfV1, reservelist.takeWhile (·.size ≠ 0), tree, boot⟩) := by
  have length := blob.length
  have small := blob.small
  have limit : intMax < 2 ^ 32 := by decide
  have total : fdtField mem 1 = .ok mem.mapped.length :=
    length ▸ fdtField_at (by rw [← length]; omega) (blob.field 1 (by decide))
  have offDt : fdtField mem 2 = .ok (56 + 16 * reservelist.length) := fdtField_at (by omega) (blob.field 2 (by decide))
  have offStr : fdtField mem 3 = .ok (56 + 16 * reservelist.length + structSize (infosOf tree)) :=
    fdtField_at (by omega) (blob.field 3 (by decide))
  have offMem : fdtField mem 4 = .ok 40 := fdtField_at (by decide) (blob.field 4 (by decide))
  have version : fdtField mem 5 = .ok 17 := fdtField_at (by decide) (blob.field 5 (by decide))
  have cpu : fdtField mem 7 = .ok boot.toNat := fdtField_at (UInt32.toNat_lt _) (blob.field 7 (by decide))
  have sizeStr : fdtField mem 8 = .ok (stringTable (infosOf tree)).length := fdtField_at (by omega)
    (blob.field 8 (by decide))
  have reserves := @flatReadMemReserve_at mem reservelist (mem.mapped.length + 1) (by omega)
    (inbufInit 40 mem.mapped.length) rfl
    blob.reserves
  rw [dtFromMem, total, Exec.ok_bind, offDt, Exec.ok_bind, offStr, Exec.ok_bind, offMem, Exec.ok_bind,
    cpu, Exec.ok_bind, version, Exec.ok_bind, if_pos (by decide), sizeStr, Exec.ok_bind, pure_bind]
  dsimp only
  rw [reserves, Exec.ok_bind, UInt32.ofNat_toNat, ← readBack]

/-- What is written is read back, up to the first reserved range that is empty. -/
theorem HoldsBlob.read (blob : HoldsBlob mem reservelist tree boot) (root : tree.value.deleted = false)
    (names : ∀ info ∈ infosOf tree, PlainNames info) :
    dtFromMem mem = .ok ⟨dtsfV1, reservelist.takeWhile (·.size ≠ 0), plain tree, boot⟩ := by
  have live' : ¬ tree.value.deleted = true := by simp [root]
  have ready := blob.ready
  have tag : At mem (56 + 16 * reservelist.length) (beBytes 4 fdtBeginNode) := by
    have struct := blob.struct.left
    rw [treeBytes, if_neg live', ownBytes] at struct
    exact struct.left.left
  have begun := flatReadWord_at ready (show fdtBeginNode < 2 ^ 32 by decide) tag
  have finish := blob.struct.right
  have size := length_treeBytes tree []
  have count : structSize (infosOf tree) - 4 = (treeBytes tree []).length := by
    rw [size, structSize, Nat.add_sub_cancel]
  have cells : 4 ∣ structSize (infosOf tree) - 4 := by
    rw [count, treeBytes, if_neg live', List.length_append, List.length_append, length_beBytes]
    exact Nat.dvd_add (dvd_ownBytes ..) (Nat.dvd_add (dvd_nodesBytes ..) (Nat.dvd_refl 4))
  rw [← count] at finish
  have ended := flatReadWord_at (ready.forward cells) (show fdtEnd < 2 ^ 32 by decide) finish
  rw [blob.opened, begun, Exec.ok_bind]
  dsimp only
  rw [if_neg (not_not_intro rfl), blob.unflattened root names, Exec.ok_bind]
  dsimp only
  rw [ended, Exec.ok_bind]
  dsimp only
  rw [if_neg (not_not_intro rfl)]
  rfl

theorem HoldsBlob.rootless (blob : HoldsBlob mem reservelist tree boot) (root : tree.value.deleted = true) :
    dtFromMem mem = .error .exited := by
  have struct := blob.struct
  have only : structBlock tree = beBytes 4 fdtEnd := by
    rw [structBlock, treeBytes, if_pos root]
    rfl
  rw [only] at struct
  rw [blob.opened, flatReadWord_at blob.ready (show fdtEnd < 2 ^ 32 by decide) struct]
  rfl

/-- A blob is read back if it has a root. -/
theorem dtFromMem_dtToMem {dti : DtInfo} {blob : Bytes} (run : dtToMem dti defaultFdtVersion = .ok blob)
    (names : ∀ info ∈ infosOf dti.dt, PlainNames info) : dtFromMem (Region.ofBuffer blob) =
      if dti.dt.value.deleted then .error .exited
      else .ok ⟨dtsfV1, dti.reservelist.takeWhile (·.size ≠ 0), plain dti.dt, dti.bootCpuidPhys⟩ := by
  obtain ⟨fits, rfl⟩ := dtToMem_eq_ok.mp run
  have blob := holdsBlob (by rw [length_blobBytes]; exact fits.small)
  split
  next root => exact blob.rootless root
  next root => exact blob.read (by simpa using root) names

end Blob
end Bxxt.Proofs
