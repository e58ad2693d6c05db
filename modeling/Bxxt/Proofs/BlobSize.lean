import Bxxt.FlatTree

/-! What a tree is written as, and how large it may be. The buffers of the writer are doubled until an `int` cannot
hold their size. -/

namespace Bxxt.Proofs
open Bxxt ByteLayout BlobBytes SiblingTree

section Growth
variable {d result : Data} {bytes : Bytes}

theorem growLoop_ok {fuel wanted newsize : Nat} :
    growLoop fuel wanted newsize = .ok () ↔ ∃ times < fuel, wanted ≤ newsize * 2 ^ times ∧
      newsize * 2 ^ times ≤ intMax := by
  induction fuel generalizing newsize with
  | zero => simp [growLoop]
  | succ fuel ih =>
    rw [growLoop]
    by_cases large : intMax < newsize
    · rw [if_pos large]
      refine iff_of_false (by simp) ?_
      rintro ⟨times, _, _, small⟩
      have least : newsize ≤ newsize * 2 ^ times := Nat.le_mul_of_pos_right _ (Nat.two_pow_pos times)
      omega
    · rw [if_neg large]
      by_cases enough : wanted ≤ newsize
      · rw [if_pos enough]
        exact iff_of_true rfl ⟨0, Nat.zero_lt_succ _, by simpa using enough, by simpa using large⟩
      · rw [if_neg enough, ih]
        constructor
        · rintro ⟨times, below, reached, small⟩
          have twice : 2 * newsize * 2 ^ times = newsize * 2 ^ (times + 1) := by ring
          exact ⟨times + 1, Nat.succ_lt_succ below, twice ▸ reached, twice ▸ small⟩
        · rintro ⟨times, below, reached, small⟩
          cases times with
          | zero => exact absurd (by simpa using reached) enough
          | succ times =>
            have twice : 2 * newsize * 2 ^ times = newsize * 2 ^ (times + 1) := by ring
            exact ⟨times, Nat.lt_of_succ_lt_succ below, twice ▸ reached, twice ▸ small⟩

theorem dataGrowFor_ok {xlen : Nat} : dataGrowFor d xlen = .ok () ↔ CanGrow intMax d.val.length xlen := by
  rw [dataGrowFor, CanGrow]
  by_cases none : xlen = 0
  · rw [if_pos none]
    exact iff_of_true rfl (Or.inl none)
  · rw [if_neg none, growLoop_ok, or_iff_right none]
    constructor
    · rintro ⟨times, _, grown⟩
      exact ⟨times, grown⟩
    · rintro ⟨times, reached, small⟩
      refine ⟨times, ?_, reached, small⟩
      have least : 2 ^ times ≤ xlen * 2 ^ times := Nat.le_mul_of_pos_left _ (Nat.pos_of_ne_zero none)
      have below : 2 ^ times < 2 ^ 32 := by
        have limit : intMax = 2 ^ 31 - 1 := rfl
        omega
      exact (Nat.pow_lt_pow_iff_right (by omega)).mp below

theorem append_eq_ok : dataAppendData d bytes = .ok result ↔
    CanGrow intMax d.val.length bytes.length ∧ result = { d with val := d.val ++ bytes } := by
  rw [dataAppendData, Exec.bind_eq_ok]
  constructor
  · rintro ⟨_, grown, same⟩
    cases same
    exact ⟨dataGrowFor_ok.mp grown, rfl⟩
  · rintro ⟨room, rfl⟩
    exact ⟨(), dataGrowFor_ok.mpr room, rfl⟩

theorem append_small (small : d.val.length + bytes.length ≤ 2 ^ 30) :
    dataAppendData d bytes = .ok { d with val := d.val ++ bytes } :=
  append_eq_ok.mpr ⟨canGrow_of_le_half (by decide) small, rfl⟩

theorem cell_eq_ok {word : Nat} : binEmitCell d word = .ok result ↔
    d.val.length + 4 ≤ 2 ^ 30 ∧ result = { d with val := d.val ++ beBytes 4 word } := by
  have bits : binEmitCell d word = dataAppendData d (beBytes 4 word) := rfl
  rw [bits, append_eq_ok, length_beBytes]
  refine and_congr_left fun _ => ⟨fun grows => ?_, fun small => canGrow_of_le_half (by decide) small⟩
  exact @CanGrow.le_power 30 _ 2 grows

theorem align_eq_ok {align : Nat} (positive : 0 < align) : dataAppendAlign d align = .ok result ↔
    d.val.length + align - 1 ≤ intMax ∧ CanGrow intMax d.val.length (PagedBytes.padding align d.val.length) ∧
      result = { d with val := PagedBytes.pad align 0 d.val } := by
  have rounded := PagedBytes.size_add_padding positive d.val.length
  have count : PagedBytes.roundUp align d.val.length - d.val.length = PagedBytes.padding align d.val.length := by omega
  rw [dataAppendAlign]
  by_cases large : intMax < d.val.length + align - 1
  · rw [if_pos large]
    exact iff_of_false (by simp) fun both => absurd both.1 (Nat.not_le.mpr large)
  · rw [if_neg large, dataAppendZeroes, append_eq_ok, count, List.length_replicate]
    exact (and_iff_right (Nat.not_lt.mp large)).symm

end Growth
section Bytes

def writtenVersion : VersionInfo := ⟨17, 16, 40, ⟨false, false, false, true, true, true, true⟩⟩

def live (info : NodeInfo) : Bool := !info.deleted

def nameBytes (name : Bytes) : Bytes := PagedBytes.pad 4 0 (name ++ [0])

def propBytes (offset : Nat) (val : Bytes) : Bytes :=
  beBytes 4 fdtProp ++ (beBytes 4 val.length ++ (beBytes 4 offset ++ PagedBytes.pad 4 0 val))

def tableAfter (names : List Bytes) (table : Bytes) : Bytes :=
  names.foldl (fun table name => (insertString table name).2) table

/-- The names of properties, in the order in which they are written. -/
def propNames (info : NodeInfo) : List Bytes := (liveProps info).map (·.name)

def propsBytes : List Property → Bytes → Bytes
  | [], _ => []
  | prop :: props, table =>
    propBytes (insertString table prop.name).1 prop.val.val ++ propsBytes props (insertString table prop.name).2

def ownBytes (info : NodeInfo) (table : Bytes) : Bytes :=
  beBytes 4 fdtBeginNode ++ (nameBytes info.name ++ propsBytes (liveProps info) table)

def nodesNames : Nodes → List Bytes
  | .nil => []
  | .node info children next =>
    if info.deleted then nodesNames next else propNames info ++ (nodesNames children ++ nodesNames next)

def nodesBytes : Nodes → Bytes → Bytes
  | .nil, _ => []
  | .node info children next, table =>
    if info.deleted then nodesBytes next table
    else
      let own := tableAfter (propNames info) table
      ownBytes info table ++ (nodesBytes children own ++
        (beBytes 4 fdtEndNode ++ nodesBytes next (tableAfter (nodesNames children) own)))

def treeNames (tree : Node) : List Bytes :=
  if tree.value.deleted then [] else propNames tree.value ++ nodesNames tree.children

def treeBytes (tree : Node) (table : Bytes) : Bytes :=
  if tree.value.deleted then []
  else ownBytes tree.value table ++ (nodesBytes tree.children (tableAfter (propNames tree.value) table) ++
    beBytes 4 fdtEndNode)

theorem tableAfter_append (first second : List Bytes) (table : Bytes) :
    tableAfter (first ++ second) table = tableAfter second (tableAfter first table) := List.foldl_append

/-- The table has room for one more string, unless it is there. -/
def NameFits (table name : Bytes) : Prop := findString table name = none →
    CanGrow intMax table.length (name.length + 1)

def TableFits : List Bytes → Bytes → Prop
  | [], _ => True
  | name :: names, table => NameFits table name ∧ TableFits names (insertString table name).2

theorem tableFits_append {first second : List Bytes} {table : Bytes} :
    TableFits (first ++ second) table ↔ TableFits first table ∧ TableFits second (tableAfter first table) := by
  induction first generalizing table with
  | nil => exact (and_iff_right trivial).symm
  | cons name names ih =>
    rw [List.cons_append, TableFits, TableFits, ih, and_assoc]
    rfl

theorem length_nameBytes (name : Bytes) : 4 ∣ (nameBytes name).length := by
  rw [nameBytes, PagedBytes.length_pad 0 (by omega)]
  exact PagedBytes.dvd_roundUp ..

theorem length_propBytes (offset : Nat) (val : Bytes) :
    (propBytes offset val).length = 12 + PagedBytes.roundUp 4 val.length := by
  simp only [propBytes, List.length_append, length_beBytes, PagedBytes.length_pad (0 : UInt8) (show 0 < 4 by omega)]
  omega

theorem dvd_propsBytes (props : List Property) (table : Bytes) : 4 ∣ (propsBytes props table).length := by
  induction props generalizing table with
  | nil => exact Nat.dvd_zero 4
  | cons prop props ih =>
    rw [propsBytes, List.length_append, length_propBytes]
    exact Nat.dvd_add (Nat.dvd_add ⟨3, rfl⟩ (PagedBytes.dvd_roundUp ..)) (ih _)

theorem dvd_ownBytes (info : NodeInfo) (table : Bytes) : 4 ∣ (ownBytes info table).length := by
  rw [ownBytes, List.length_append, List.length_append, length_beBytes]
  exact Nat.dvd_add ⟨1, rfl⟩ (Nat.dvd_add (length_nameBytes _) (dvd_propsBytes _ _))

theorem dvd_nodesBytes (nodes : Nodes) (table : Bytes) : 4 ∣ (nodesBytes nodes table).length := by
  induction nodes generalizing table with
  | nil => exact Nat.dvd_zero 4
  | node info children next ihDown ihNext =>
    rw [nodesBytes]
    by_cases gone : info.deleted = true
    · rw [if_pos gone]
      exact ihNext _
    · rw [if_neg gone]
      simp only [List.length_append, length_beBytes]
      exact Nat.dvd_add (dvd_ownBytes _ _) (Nat.dvd_add (ihDown _) (Nat.dvd_add ⟨1, rfl⟩ (ihNext _)))

end Bytes
section Writing
variable {buffers result : Buffers}

theorem stringtableInsert_eq_ok {d d' : Data} {str : Bytes} {offset : Nat} :
    stringtableInsert d str = .ok (offset, d') ↔
    NameFits d.val str ∧ offset = (insertString d.val str).1 ∧
      d' = { d with val := (insertString d.val str).2 } := by
  rw [stringtableInsert, insertString, NameFits]
  cases findString d.val str with
  | some found =>
    simp only [reduceCtorEq, false_implies, true_and, Except.ok.injEq, Prod.mk.injEq]
    exact and_congr eq_comm eq_comm
  | none =>
    rw [Exec.bind_eq_ok]
    constructor
    · rintro ⟨_, grown, same⟩
      obtain ⟨room, rfl⟩ := append_eq_ok.mp grown
      cases same
      rw [List.length_append] at room
      exact ⟨fun _ => room, rfl, by rw [List.append_assoc]⟩
    · rintro ⟨room, rfl, rfl⟩
      refine ⟨_, append_eq_ok.mpr ⟨?_, rfl⟩, by rw [List.append_assoc]; rfl⟩
      rw [List.length_append]
      exact room rfl

/-- A step of the writer: what it adds to the structure block, and the names that come to the table. -/
structure Writes (names : List Bytes) (bytes : Bytes → Bytes) (step : Buffers → Exec Buffers) : Prop where
  written : ∀ buffers result, step buffers = .ok result → 4 ∣ buffers.dtbuf.val.length →
    result.dtbuf.val = buffers.dtbuf.val ++ bytes buffers.strbuf.val ∧
      result.strbuf.val = tableAfter names buffers.strbuf.val ∧
      TableFits names buffers.strbuf.val
  aligned : ∀ table, 4 ∣ (bytes table).length
  enough : ∀ buffers, 4 ∣ buffers.dtbuf.val.length → TableFits names buffers.strbuf.val →
    buffers.dtbuf.val.length + (bytes buffers.strbuf.val).length ≤ 2 ^ 30 → ∃ result, step buffers = .ok result

theorem Writes.nothing : Writes [] (fun _ => []) (fun buffers => .ok buffers) where
  written buffers result same _ := by
    cases same
    exact ⟨(List.append_nil _).symm, rfl, trivial⟩
  aligned _ := Nat.dvd_zero 4
  enough buffers _ _ _ := ⟨buffers, rfl⟩

theorem Writes.bind {names more : List Bytes} {bytes others : Bytes → Bytes} {first second : Buffers → Exec Buffers}
    (starts : Writes names bytes first) (goes : Writes more others second) :
    Writes (names ++ more) (fun table => bytes table ++ others (tableAfter names table))
      (fun buffers => first buffers >>= second) where
  written buffers result run aligned := by
    obtain ⟨middle, begun, ended⟩ := Exec.bind_eq_ok.mp run
    obtain ⟨block, table, fits⟩ := starts.written buffers middle begun aligned
    have still : 4 ∣ middle.dtbuf.val.length := by
      rw [block, List.length_append]
      exact Nat.dvd_add aligned (starts.aligned _)
    obtain ⟨block', table', fits'⟩ := goes.written middle result ended still
    rw [table] at block' table' fits'
    exact ⟨by rw [block', block, List.append_assoc], by rw [table', tableAfter_append],
      tableFits_append.mpr ⟨fits, fits'⟩⟩
  aligned table := by
    rw [List.length_append]
    exact Nat.dvd_add (starts.aligned _) (goes.aligned _)
  enough buffers aligned fits room := by
    obtain ⟨own, behind⟩ := tableFits_append.mp fits
    rw [List.length_append] at room
    obtain ⟨middle, begun⟩ := starts.enough buffers aligned own (by omega)
    obtain ⟨block, table, _⟩ := starts.written buffers middle begun aligned
    have still : 4 ∣ middle.dtbuf.val.length := by
      rw [block, List.length_append]
      exact Nat.dvd_add aligned (starts.aligned _)
    obtain ⟨result, ended⟩ := goes.enough middle still (by rwa [table])
      (by rw [block, List.length_append, table]; omega)
    exact ⟨result, Exec.bind_eq_ok.mpr ⟨middle, begun, ended⟩⟩

theorem Writes.congr {names : List Bytes} {bytes others : Bytes → Bytes} {step other : Buffers → Exec Buffers}
    (writes : Writes names bytes step) (same : ∀ table, others table = bytes table)
    (equal : ∀ buffers, other buffers = step buffers) : Writes names others other := by
  obtain rfl : others = bytes := funext same
  obtain rfl : other = step := funext equal
  exact writes

theorem writes_cell (word : Nat) : Writes [] (fun _ => beBytes 4 word)
    (fun buffers => do return { buffers with dtbuf := ← binEmitCell buffers.dtbuf word }) where
  written buffers result run _ := by
    obtain ⟨e, emitted, same⟩ := Exec.bind_eq_ok.mp run
    obtain ⟨_, rfl⟩ := cell_eq_ok.mp emitted
    cases same
    exact ⟨rfl, rfl, trivial⟩
  aligned _ := ⟨1, length_beBytes ..⟩
  enough buffers _ _ room := by
    rw [length_beBytes] at room
    exact ⟨_, Exec.bind_eq_ok.mpr ⟨_, cell_eq_ok.mpr ⟨room, rfl⟩, rfl⟩⟩

theorem pad_behind {front : Bytes} (aligned : 4 ∣ front.length) (items : Bytes) :
    PagedBytes.pad 4 0 (front ++ items) = front ++ PagedBytes.pad 4 0 items := PagedBytes.pad_append 0 aligned items

theorem align_behind {d result : Data} {front items : Bytes} (val : d.val = front ++ items)
    (aligned : 4 ∣ front.length) (run : dataAppendAlign d 4 = .ok result) :
    result.val = front ++ PagedBytes.pad 4 0 items := by
  obtain ⟨_, _, rfl⟩ := (align_eq_ok (by omega)).mp run
  rw [val]
  exact pad_behind aligned items

theorem align_enough {d : Data} {front items : Bytes} (val : d.val = front ++ items) (aligned : 4 ∣ front.length)
    (room : front.length + (PagedBytes.pad 4 0 items).length ≤ 2 ^ 30) :
    ∃ result, dataAppendAlign d 4 = .ok result := by
  have whole := pad_behind aligned items
  have length := congrArg List.length whole
  rw [PagedBytes.length_pad 0 (by omega), ← PagedBytes.size_add_padding (by omega), List.length_append,
    List.length_append] at length
  have half : 2 * 2 ^ 30 ≤ intMax + 1 := by decide
  refine ⟨_, (align_eq_ok (by omega)).mpr ⟨?_, canGrow_of_le_half half ?_, rfl⟩⟩
  · rw [val, List.length_append]
    omega
  · rw [val, List.length_append]
    omega

theorem writes_property (prop : Property) : Writes [prop.name]
    (fun table => propBytes (insertString table prop.name).1 prop.val.val)
    (flattenProperty writtenVersion · prop) where
  written buffers result run aligned := by
    obtain ⟨⟨offset, strbuf⟩, inserted, run⟩ := Exec.bind_eq_ok.mp run
    obtain ⟨fits, rfl, rfl⟩ := stringtableInsert_eq_ok.mp inserted
    obtain ⟨_, tag, run⟩ := Exec.bind_eq_ok.mp run
    obtain ⟨_, rfl⟩ := cell_eq_ok.mp tag
    obtain ⟨_, len, run⟩ := Exec.bind_eq_ok.mp run
    obtain ⟨_, rfl⟩ := cell_eq_ok.mp len
    obtain ⟨_, off, run⟩ := Exec.bind_eq_ok.mp run
    obtain ⟨_, rfl⟩ := cell_eq_ok.mp off
    obtain ⟨_, plain, run⟩ := Exec.bind_eq_ok.mp run
    cases plain
    obtain ⟨_, data, run⟩ := Exec.bind_eq_ok.mp run
    obtain ⟨_, rfl⟩ := append_eq_ok.mp data
    obtain ⟨e, filled, same⟩ := Exec.bind_eq_ok.mp run
    cases same
    refine ⟨?_, rfl, fits, trivial⟩
    have front : 4 ∣ (buffers.dtbuf.val ++ beBytes 4 fdtProp ++ beBytes 4 prop.val.val.length ++
        beBytes 4 (insertString buffers.strbuf.val prop.name).1).length := by
      simp only [List.length_append, length_beBytes]
      omega
    have behind := align_behind rfl front filled
    simpa [propBytes] using behind
  aligned table := by
    rw [length_propBytes]
    exact Nat.dvd_add ⟨3, rfl⟩ (PagedBytes.dvd_roundUp ..)
  enough buffers aligned fits room := by
    rw [length_propBytes, ← PagedBytes.size_add_padding (by omega)] at room
    have front : 4 ∣ (buffers.dtbuf.val ++ beBytes 4 fdtProp ++ beBytes 4 prop.val.val.length ++
        beBytes 4 (insertString buffers.strbuf.val prop.name).1).length := by
      simp only [List.length_append, length_beBytes]
      omega
    obtain ⟨e, filled⟩ := align_enough (d :=
      ⟨buffers.dtbuf.val ++ beBytes 4 fdtProp ++ beBytes 4 prop.val.val.length ++
        beBytes 4 (insertString buffers.strbuf.val prop.name).1 ++ prop.val.val, buffers.dtbuf.markers⟩) rfl front (by
      rw [PagedBytes.length_pad 0 (by omega), ← PagedBytes.size_add_padding (by omega)]
      simp only [List.length_append, length_beBytes]
      omega)
    refine ⟨⟨e, ⟨(insertString buffers.strbuf.val prop.name).2, buffers.strbuf.markers⟩⟩, ?_⟩
    refine Exec.bind_eq_ok.mpr ⟨_, stringtableInsert_eq_ok.mpr ⟨fits.1, rfl, rfl⟩, ?_⟩
    refine Exec.bind_eq_ok.mpr ⟨_, cell_eq_ok.mpr ⟨by omega, rfl⟩, ?_⟩
    refine Exec.bind_eq_ok.mpr ⟨_, cell_eq_ok.mpr ⟨?_, rfl⟩, ?_⟩
    · simp only [List.length_append, length_beBytes]
      omega
    refine Exec.bind_eq_ok.mpr ⟨_, cell_eq_ok.mpr ⟨?_, rfl⟩, ?_⟩
    · simp only [List.length_append, length_beBytes]
      omega
    refine Exec.bind_eq_ok.mpr ⟨_, rfl, Exec.bind_eq_ok.mpr
      ⟨_, append_small ?_, Exec.bind_eq_ok.mpr ⟨e, filled, rfl⟩⟩⟩
    simp only [List.length_append, length_beBytes]
    omega

theorem writes_props (props : List Property) :
    Writes (props.map (·.name)) (propsBytes props)
      (fun buffers => props.foldlM (flattenProperty writtenVersion) buffers) := by
  induction props with
  | nil => exact Writes.nothing
  | cons prop props ih => exact ((writes_property prop).bind ih).congr (fun _ => rfl) (fun _ => List.foldlM_cons ..)

def openStep (name : Bytes) (buffers : Buffers) : Exec Buffers := do
  let e ← binEmitCell buffers.dtbuf fdtBeginNode
  let e ← binEmitString e name 0
  return { buffers with dtbuf := ← binEmitAlign e 4 }

theorem writes_open (name : Bytes) : Writes [] (fun _ => beBytes 4 fdtBeginNode ++ nameBytes name) (openStep name) where
  written buffers result run aligned := by
    obtain ⟨_, tag, run⟩ := Exec.bind_eq_ok.mp run
    obtain ⟨_, rfl⟩ := cell_eq_ok.mp tag
    obtain ⟨_, string, run⟩ := Exec.bind_eq_ok.mp run
    obtain ⟨_, chars, nul⟩ := Exec.bind_eq_ok.mp string
    obtain ⟨_, rfl⟩ := append_eq_ok.mp chars
    obtain ⟨_, rfl⟩ := append_eq_ok.mp nul
    obtain ⟨e, filled, same⟩ := Exec.bind_eq_ok.mp run
    cases same
    refine ⟨?_, rfl, trivial⟩
    have front : 4 ∣ (buffers.dtbuf.val ++ beBytes 4 fdtBeginNode).length := by
      rw [List.length_append, length_beBytes]
      omega
    have behind : e.val = buffers.dtbuf.val ++ beBytes 4 fdtBeginNode ++ PagedBytes.pad 4 0 (name ++ [0]) :=
      align_behind (by simp) front filled
    simpa [nameBytes] using behind
  aligned table := by
    rw [List.length_append, length_beBytes]
    exact Nat.dvd_add ⟨1, rfl⟩ (length_nameBytes name)
  enough buffers aligned _ room := by
    rw [List.length_append, length_beBytes, nameBytes, PagedBytes.length_pad 0 (by omega),
      ← PagedBytes.size_add_padding (by omega), List.length_append, List.length_singleton] at room
    have front : 4 ∣ (buffers.dtbuf.val ++ beBytes 4 fdtBeginNode).length := by
      rw [List.length_append, length_beBytes]
      omega
    obtain ⟨e, filled⟩ := @align_enough ⟨buffers.dtbuf.val ++ beBytes 4 fdtBeginNode ++ name ++ [0],
      buffers.dtbuf.markers⟩
      _ (name ++ [0]) (List.append_assoc ..) front (by
      rw [PagedBytes.length_pad 0 (by omega), ← PagedBytes.size_add_padding (by omega)]
      simp only [List.length_append, length_beBytes, List.length_singleton]
      omega)
    refine ⟨{ buffers with dtbuf := e }, Exec.bind_eq_ok.mpr ⟨_, cell_eq_ok.mpr ⟨by omega, rfl⟩, ?_⟩⟩
    refine Exec.bind_eq_ok.mpr ⟨_, Exec.bind_eq_ok.mpr ⟨_, append_small ?_, append_small ?_⟩,
      Exec.bind_eq_ok.mpr ⟨e, filled, rfl⟩⟩
    · rw [if_pos rfl, List.length_append, length_beBytes]
      omega
    · simp only [if_pos, List.length_append, length_beBytes, List.length_singleton]
      omega

theorem writes_own (info : NodeInfo) : Writes (propNames info) (ownBytes info) (flattenOwn writtenVersion · info) := by
  refine ((writes_open info.name).bind (writes_props (liveProps info))).congr (fun table => (List.append_assoc ..).symm)
    fun buffers => ?_
  have last (first : Exec Buffers) : (first >>= fun buffers => (pure buffers : Exec Buffers)) = first := bind_pure first
  rw [flattenOwn, openStep]
  simp only [writtenVersion, Bool.false_eq_true, if_false, false_and, last, bind_assoc, pure_bind]

theorem writes_nodes (nodes : Nodes) :
    Writes (nodesNames nodes) (nodesBytes nodes) (flattenChildren writtenVersion nodes) := by
  induction nodes with
  | nil => exact Writes.nothing
  | node info children next ihDown ihNext =>
    by_cases gone : info.deleted = true
    · rw [nodesNames, if_pos gone]
      refine ihNext.congr (fun table => ?_) fun buffers => ?_
      · rw [nodesBytes, if_pos gone]
      · rw [flattenChildren, if_pos gone]
    · rw [nodesNames, if_neg gone]
      refine ((writes_own info).bind (ihDown.bind ((writes_cell fdtEndNode).bind ihNext))).congr
        (fun table => ?_) fun buffers => ?_
      · rw [nodesBytes, if_neg gone]
        rfl
      · rw [flattenChildren, if_neg gone]
        simp only [bind_assoc, pure_bind]

theorem writes_tree (tree : Node) : Writes (treeNames tree) (treeBytes tree) (flattenTree writtenVersion tree) := by
  by_cases gone : tree.value.deleted = true
  · rw [treeNames, if_pos gone]
    refine Writes.nothing.congr (fun table => ?_) fun buffers => ?_
    · rw [treeBytes, if_pos gone]
    · rw [flattenTree, if_pos gone]
  · have whole := (writes_own tree.value).bind ((writes_nodes tree.children).bind (writes_cell fdtEndNode))
    rw [List.append_nil] at whole
    rw [treeNames, if_neg gone]
    refine whole.congr (fun table => ?_) fun buffers => ?_
    · rw [treeBytes, if_neg gone]
    · rw [flattenTree, if_neg gone]

end Writing
section Sizes

/-- A path that goes on with a node. The root has an empty one. -/
def pathBelow (top : Bytes) (info : NodeInfo) : Bytes := top ++ slash :: info.name

/-- The nodes of a tree that are not deleted, in the order in which they are written. -/
def nodesOf (tree : Node) : List (Visited NodeInfo Bytes) := tree.visit live pathBelow []

def infosOf (tree : Node) : List NodeInfo := (nodesOf tree).map (·.value)

def propSize (prop : Property) : Nat := 12 + PagedBytes.roundUp 4 prop.val.val.length

def nodeSize (info : NodeInfo) : Nat := 8 + PagedBytes.roundUp 4 (info.name.length + 1) +
    ((liveProps info).map propSize).sum

theorem length_propsBytes (props : List Property) (table : Bytes) :
    (propsBytes props table).length = (props.map propSize).sum := by
  induction props generalizing table with
  | nil => rfl
  | cons prop props ih => rw [propsBytes, List.length_append, length_propBytes, ih, List.map_cons,
      List.sum_cons, propSize]

theorem length_ownBytes (info : NodeInfo) (table : Bytes) : (ownBytes info table).length + 4 = nodeSize info := by
  simp only [ownBytes, nameBytes, List.length_append, length_beBytes, PagedBytes.length_pad (0 : UInt8)
    (show 0 < 4 by omega), length_propsBytes, List.length_singleton, nodeSize]
  omega

theorem values_behind (step : Step) (nodes : List (Visited NodeInfo Bytes)) :
    (nodes.map (·.behind step)).map (·.value) = nodes.map (·.value) := by
  rw [List.map_map]
  rfl

theorem visit_cons (top : Bytes) (info : NodeInfo) (children next : Nodes) :
    (Siblings.visit live pathBelow top (.node info children next)).map (·.value) =
      if info.deleted then (Siblings.visit live pathBelow top next).map (·.value)
      else info :: ((Siblings.visit live pathBelow (pathBelow top info) children).map (·.value) ++
        (Siblings.visit live pathBelow top next).map (·.value)) := by
  rw [Siblings.visit, List.map_append, values_behind]
  by_cases gone : info.deleted = true
  · have dead : ¬ live info = true := by simp [live, gone]
    rw [if_neg dead, if_pos gone]
    rfl
  · have alive : live info = true := by simp [live, gone]
    rw [if_pos alive, if_neg gone, List.map_cons, values_behind, List.cons_append]

theorem length_nodesBytes (nodes : Nodes) (top table : Bytes) :
    (nodesBytes nodes table).length = (((Siblings.visit live pathBelow top nodes).map (·.value)).map
      nodeSize).sum := by
  induction nodes generalizing top table with
  | nil => rfl
  | node info children next ihDown ihNext =>
    rw [nodesBytes, visit_cons]
    by_cases gone : info.deleted = true
    · rw [if_pos gone, if_pos gone]
      exact ihNext ..
    · rw [if_neg gone, if_neg gone]
      simp only [List.length_append, length_beBytes, List.map_cons, List.sum_cons, List.map_append, List.sum_append,
        ← length_ownBytes info table, ihDown (pathBelow top info), ihNext top]
      omega

theorem nodesNames_visit (nodes : Nodes) (top : Bytes) :
    nodesNames nodes = ((Siblings.visit live pathBelow top nodes).map (·.value)).flatMap propNames := by
  induction nodes generalizing top with
  | nil => rfl
  | node info children next ihDown ihNext =>
    rw [nodesNames, visit_cons]
    by_cases gone : info.deleted = true
    · rw [if_pos gone, if_pos gone]
      exact ihNext ..
    · rw [if_neg gone, if_neg gone, List.flatMap_cons, List.flatMap_append, ihDown, ihNext]

theorem infosOf_root (tree : Node) : infosOf tree =
    if tree.value.deleted then [] else tree.value ::
      (Siblings.visit live pathBelow [] tree.children).map (·.value) := by
  rw [infosOf, nodesOf, Rooted.visit]
  by_cases gone : tree.value.deleted = true
  · have dead : ¬ live tree.value = true := by simp [live, gone]
    rw [if_neg dead, if_pos gone]
    rfl
  · have alive : live tree.value = true := by simp [live, gone]
    rw [if_pos alive, if_neg gone, List.map_cons, values_behind]

theorem length_treeBytes (tree : Node) (table : Bytes) :
    (treeBytes tree table).length = ((infosOf tree).map nodeSize).sum := by
  rw [treeBytes, infosOf_root]
  by_cases gone : tree.value.deleted = true
  · rw [if_pos gone, if_pos gone]
    rfl
  · rw [if_neg gone, if_neg gone]
    simp only [List.length_append, length_beBytes, List.map_cons, List.sum_cons, ← length_ownBytes tree.value table,
      length_nodesBytes tree.children []]
    omega

theorem treeNames_infos (tree : Node) : treeNames tree = (infosOf tree).flatMap propNames := by
  rw [treeNames, infosOf_root]
  by_cases gone : tree.value.deleted = true
  · rw [if_pos gone, if_pos gone]
    rfl
  · rw [if_neg gone, if_neg gone, List.flatMap_cons, nodesNames_visit]

end Sizes
section Blob

def structSize (infos : List NodeInfo) : Nat := (infos.map nodeSize).sum + 4

def stringTable (infos : List NodeInfo) : Bytes := tableAfter (infos.flatMap propNames) []

/-- The parts of a blob are small enough for the buffers that they are put together in. -/
structure BlobFits (reserves : Nat) (infos : List NodeInfo) : Prop where
  block : structSize infos ≤ 2 ^ 30
  names : TableFits (infos.flatMap propNames) []
  reserved : CanGrow intMax 40 (16 * reserves)
  zeroes : 56 + 16 * reserves ≤ 2 ^ 30
  merged : CanGrow intMax (56 + 16 * reserves) (structSize infos)
  strings : CanGrow intMax (56 + 16 * reserves + structSize infos) (stringTable infos).length

def reserveBytes (reservelist : List ReserveInfo) : Bytes :=
  reservelist.flatMap fun re => beBytes 8 re.address.toNat ++ beBytes 8 re.size.toNat

def headerBytes (reservesize dtsize strsize : Nat) (bootCpuidPhys : UInt32) : Bytes :=
  beBytes 4 fdtMagicWord ++ beBytes 4 (56 + reservesize + dtsize + strsize) ++ beBytes 4 (56 + reservesize) ++
    beBytes 4 (56 + reservesize + dtsize) ++ beBytes 4 40 ++ beBytes 4 17 ++ beBytes 4 16 ++
      beBytes 4 bootCpuidPhys.toNat ++
    beBytes 4 strsize ++ beBytes 4 dtsize

def structBlock (tree : Node) : Bytes := treeBytes tree [] ++ beBytes 4 fdtEnd

def blobBytes (dti : DtInfo) : Bytes :=
  headerBytes (16 * dti.reservelist.length) (structSize (infosOf dti.dt))
    (stringTable (infosOf dti.dt)).length dti.bootCpuidPhys ++
    (reserveBytes dti.reservelist ++ (List.replicate 16 0 ++ (structBlock dti.dt ++ stringTable (infosOf dti.dt))))

theorem length_structBlock (tree : Node) : (structBlock tree).length = structSize (infosOf tree) := by
  rw [structBlock, List.length_append, length_beBytes, length_treeBytes, structSize]

theorem length_reserveBytes (reservelist : List ReserveInfo) :
    (reserveBytes reservelist).length = 16 * reservelist.length := by
  induction reservelist with
  | nil => rfl
  | cons re rest ih =>
    have more : reserveBytes (re :: rest) = beBytes 8 re.address.toNat ++ beBytes 8 re.size.toNat ++
      reserveBytes rest := rfl
    rw [more, List.length_append, List.length_append, length_beBytes, length_beBytes, ih, List.length_cons]
    omega

theorem length_headerBytes (reservesize dtsize strsize : Nat) (bootCpuidPhys : UInt32) :
    (headerBytes reservesize dtsize strsize bootCpuidPhys).length = 40 := by
  simp only [headerBytes, List.length_append, length_beBytes]

theorem reserves_eq_ok {reservelist : List ReserveInfo} {d result : Data} :
    reservelist.foldlM dataAppendRe d = .ok result ↔
    (reservelist = [] ∨ d.val.length + 16 * reservelist.length ≤ 2 ^ 30) ∧
      result = { d with val := d.val ++ reserveBytes reservelist } := by
  induction reservelist generalizing d with
  | nil =>
    constructor
    · intro same
      cases same
      exact ⟨Or.inl rfl, by simp [reserveBytes]⟩
    · rintro ⟨_, rfl⟩
      simp [reserveBytes]
      rfl
  | cons re rest ih =>
    have length : (beBytes 8 re.address.toNat ++ beBytes 8 re.size.toNat).length = 2 ^ 4 := by
      rw [List.length_append, length_beBytes, length_beBytes]
      rfl
    rw [List.foldlM_cons, Exec.bind_eq_ok]
    constructor
    · rintro ⟨_, first, others⟩
      obtain ⟨grown, rfl⟩ := append_eq_ok.mp first
      obtain ⟨room, rfl⟩ := ih.mp others
      rw [length] at grown
      have own := @CanGrow.le_power 30 _ 4 grown
      refine ⟨Or.inr ?_, by simp [reserveBytes]⟩
      rw [List.length_append, length] at room
      rw [List.length_cons]
      rcases room with rfl | room
      · simpa using own
      · omega
    · rintro ⟨room, rfl⟩
      have room := room.resolve_left (by simp)
      rw [List.length_cons] at room
      refine ⟨_, append_small (by rw [length]; omega), ih.mpr ⟨Or.inr ?_, by simp [reserveBytes]⟩⟩
      rw [List.length_append, length]
      omega

theorem merge_eq_ok {first second result : Data} : dataMerge first second = .ok result ↔
    CanGrow intMax first.val.length second.val.length ∧
      result = ⟨first.val ++ second.val, first.markers ++ second.markers.map fun m =>
        { m with offset := m.offset + first.val.length }⟩ := by
  rw [dataMerge, Exec.bind_eq_ok]
  constructor
  · rintro ⟨_, appended, same⟩
    obtain ⟨room, rfl⟩ := append_eq_ok.mp appended
    cases same
    exact ⟨room, rfl⟩
  · rintro ⟨room, rfl⟩
    exact ⟨_, append_eq_ok.mpr ⟨room, rfl⟩, rfl⟩

theorem makeFdtHeader_eq_ok {reservesize dtsize strsize : Nat} {boot : UInt32} {fdt : Bytes} :
    makeFdtHeader writtenVersion reservesize dtsize strsize boot = .ok fdt ↔
      56 + reservesize + dtsize + strsize ≤ intMax ∧ fdt = headerBytes reservesize dtsize strsize boot := by
  have hdr : PagedBytes.roundUp 8 writtenVersion.hdrSize = 40 := by decide
  have start : 40 + (reservesize + 16) = 56 + reservesize := by omega
  rw [makeFdtHeader]
  dsimp only
  rw [hdr, start]
  by_cases large : intMax < 56 + reservesize + dtsize + strsize
  · rw [if_pos large]
    exact iff_of_false (by simp) fun both => absurd both.1 (Nat.not_le.mpr large)
  · rw [if_neg large, and_iff_right (Nat.not_lt.mp large)]
    constructor
    · intro same
      cases same
      rfl
    · rintro rfl
      rfl

theorem BlobFits.small {reserves : Nat} {infos : List NodeInfo} (fits : BlobFits reserves infos) :
    56 + 16 * reserves + structSize infos + (stringTable infos).length ≤ intMax := by
  have limit : (2 : Nat) ^ 30 ≤ intMax := by decide
  have zeroes := fits.zeroes
  exact fits.strings.fits (fits.merged.fits (by omega))

def assemble (fdt : Bytes) (reservebuf dtbuf strbuf : Data) : Exec Bytes := do
  let blob ← dataAppendData emptyData (fdt.take writtenVersion.hdrSize)
  let blob ← dataAppendAlign blob 8
  let blob ← dataMerge blob reservebuf
  let blob ← dataAppendZeroes blob 16
  let blob ← dataMerge blob dtbuf
  let blob ← dataMerge blob strbuf
  return blob.val

theorem assemble_eq_ok {fdt blob : Bytes} {reservebuf dtbuf strbuf : Data} (header : fdt.length = 40) :
    assemble fdt reservebuf dtbuf strbuf = .ok blob ↔
      (CanGrow intMax 40 reservebuf.val.length ∧ CanGrow intMax (40 + reservebuf.val.length) 16 ∧
        CanGrow intMax (56 + reservebuf.val.length) dtbuf.val.length ∧
        CanGrow intMax (56 + reservebuf.val.length + dtbuf.val.length) strbuf.val.length) ∧
      blob = fdt ++ (reservebuf.val ++ (List.replicate 16 0 ++ (dtbuf.val ++ strbuf.val))) := by
  have whole : fdt.take writtenVersion.hdrSize = fdt := List.take_of_length_le (Nat.le_of_eq header)
  have none : PagedBytes.pad 8 0 fdt = fdt := by
    rw [PagedBytes.pad, header]
    exact List.append_nil fdt
  have behindZeroes : (fdt ++ reservebuf.val ++ List.replicate 16 0).length = 56 + reservebuf.val.length := by
    simp only [List.length_append, List.length_replicate, header]
    omega
  have behindStruct : (fdt ++ reservebuf.val ++ List.replicate 16 0 ++ dtbuf.val).length = 56 + reservebuf.val.length +
      dtbuf.val.length := by
    rw [List.length_append, behindZeroes]
  rw [assemble, whole]
  constructor
  · intro run
    obtain ⟨_, begun, run⟩ := Exec.bind_eq_ok.mp run
    obtain ⟨_, rfl⟩ := append_eq_ok.mp begun
    obtain ⟨_, aligned, run⟩ := Exec.bind_eq_ok.mp run
    obtain ⟨_, _, rfl⟩ := (align_eq_ok (by omega)).mp aligned
    obtain ⟨_, merged, run⟩ := Exec.bind_eq_ok.mp run
    obtain ⟨reserves, rfl⟩ := merge_eq_ok.mp merged
    obtain ⟨_, zeroed, run⟩ := Exec.bind_eq_ok.mp run
    obtain ⟨zeroes, rfl⟩ := append_eq_ok.mp zeroed
    obtain ⟨_, structured, run⟩ := Exec.bind_eq_ok.mp run
    obtain ⟨struct, rfl⟩ := merge_eq_ok.mp structured
    obtain ⟨_, stringed, same⟩ := Exec.bind_eq_ok.mp run
    obtain ⟨strings, rfl⟩ := merge_eq_ok.mp stringed
    cases same
    have front : PagedBytes.pad 8 0 (emptyData.val ++ fdt) = fdt := none
    simp only [front] at reserves zeroes struct strings ⊢
    rw [behindZeroes] at struct
    rw [behindStruct] at strings
    rw [header] at reserves
    rw [List.length_append, header, List.length_replicate] at zeroes
    exact ⟨⟨reserves, zeroes, struct, strings⟩, by simp only [List.append_assoc]⟩
  · rintro ⟨⟨reserves, zeroes, struct, strings⟩, rfl⟩
    have first : dataAppendData emptyData fdt = .ok ⟨fdt, []⟩ := append_small (by rw [header]; decide)
    have aligned : dataAppendAlign ⟨fdt, []⟩ 8 = .ok ⟨fdt, []⟩ := by
      refine (align_eq_ok (by omega)).mpr ⟨?_, Or.inl ?_, by rw [none]⟩
      · rw [header]
        decide
      · rw [header]
        rfl
    have merged (markers : List Marker) : ∃ after, dataMerge ⟨fdt, markers⟩ reservebuf =
      .ok ⟨fdt ++ reservebuf.val, after⟩ :=
      ⟨_, merge_eq_ok.mpr ⟨by rwa [header], rfl⟩⟩
    have zeroed (markers : List Marker) : dataAppendZeroes ⟨fdt ++ reservebuf.val, markers⟩ 16 =
        .ok ⟨fdt ++ reservebuf.val ++ List.replicate 16 0, markers⟩ :=
      append_eq_ok.mpr ⟨by rwa [List.length_append, header, List.length_replicate], rfl⟩
    have structured (markers : List Marker) :
      ∃ after, dataMerge ⟨fdt ++ reservebuf.val ++ List.replicate 16 0, markers⟩ dtbuf =
        .ok ⟨fdt ++ reservebuf.val ++ List.replicate 16 0 ++ dtbuf.val, after⟩ :=
      ⟨_, merge_eq_ok.mpr ⟨by rwa [behindZeroes], rfl⟩⟩
    have stringed (markers : List Marker) : ∃ after,
      dataMerge ⟨fdt ++ reservebuf.val ++ List.replicate 16 0 ++ dtbuf.val, markers⟩ strbuf =
        .ok ⟨fdt ++ reservebuf.val ++ List.replicate 16 0 ++ dtbuf.val ++ strbuf.val, after⟩ :=
      ⟨_, merge_eq_ok.mpr ⟨by rwa [behindStruct], rfl⟩⟩
    obtain ⟨_, merged⟩ := merged []
    obtain ⟨_, structured⟩ := structured _
    obtain ⟨_, stringed⟩ := stringed _
    rw [first, Exec.ok_bind, aligned, Exec.ok_bind, merged, Exec.ok_bind, zeroed, Exec.ok_bind, structured,
      Exec.ok_bind, stringed]
    simp only [List.append_assoc]
    rfl

theorem dtToMem_eq_ok {dti : DtInfo} {blob : Bytes} : dtToMem dti defaultFdtVersion = .ok blob ↔
    BlobFits dti.reservelist.length (infosOf dti.dt) ∧ blob = blobBytes dti := by
  have version : (versionTable.find? fun vi => vi.version = defaultFdtVersion) = some writtenVersion := by decide
  have writes := writes_tree dti.dt
  have names := treeNames_infos dti.dt
  have block := length_structBlock dti.dt
  have start : 4 ∣ (emptyData.val : Bytes).length := Nat.dvd_zero 4
  rw [dtToMem, version]
  dsimp only
  constructor
  · intro run
    obtain ⟨buffers, flattened, run⟩ := Exec.bind_eq_ok.mp run
    obtain ⟨struct, table, tableFits⟩ := writes.written _ _ flattened start
    obtain ⟨_, ended, run⟩ := Exec.bind_eq_ok.mp run
    obtain ⟨blockFits, rfl⟩ := cell_eq_ok.mp ended
    obtain ⟨_, reserved, run⟩ := Exec.bind_eq_ok.mp run
    obtain ⟨_, rfl⟩ := reserves_eq_ok.mp reserved
    obtain ⟨fdt, headed, run⟩ := Exec.bind_eq_ok.mp run
    obtain ⟨_, rfl⟩ := makeFdtHeader_eq_ok.mp headed
    obtain ⟨⟨reserves, zeroes, merged, strings⟩, rfl⟩ := (assemble_eq_ok (length_headerBytes ..)).mp run
    have ended : buffers.dtbuf.val ++ beBytes 4 fdtEnd = structBlock dti.dt := by rw [struct]; rfl
    have noFront (bytes : Bytes) : emptyData.val ++ bytes = bytes := rfl
    rw [names] at table tableFits
    simp only [noFront, ended, block, length_reserveBytes, table] at reserves zeroes merged strings blockFits ⊢
    have zeroes := @CanGrow.le_power 30 _ 4 zeroes
    refine ⟨⟨?_, tableFits, reserves, by omega, merged, strings⟩, rfl⟩
    rw [← block, ← ended, List.length_append, length_beBytes]
    exact blockFits
  · rintro ⟨fits, rfl⟩
    have small := fits.small
    have room := fits.block
    rw [← block, structBlock, List.length_append, length_beBytes] at room
    have block' : 0 + (treeBytes dti.dt []).length ≤ 2 ^ 30 := by omega
    obtain ⟨buffers, flattened⟩ := writes.enough ⟨emptyData, emptyData⟩ start
      (by rw [names]; exact fits.names) block'
    obtain ⟨struct, table, _⟩ := writes.written _ _ flattened start
    have struct : buffers.dtbuf.val = treeBytes dti.dt [] := struct
    have table : buffers.strbuf.val = stringTable (infosOf dti.dt) := by rw [table, names]; rfl
    have ended : binEmitCell buffers.dtbuf fdtEnd = .ok { buffers.dtbuf with val := structBlock dti.dt } :=
      cell_eq_ok.mpr ⟨by rw [struct]; exact room, by rw [struct]; rfl⟩
    have reserved : flattenReserveList dti.reservelist = .ok ⟨reserveBytes dti.reservelist, []⟩ := by
      have zeroes := fits.zeroes
      refine reserves_eq_ok.mpr ⟨Or.inr ?_, rfl⟩
      rw [show (emptyData.val : Bytes).length = 0 from rfl]
      omega
    have headed : makeFdtHeader writtenVersion (reserveBytes dti.reservelist).length (structBlock dti.dt).length
      buffers.strbuf.val.length
        dti.bootCpuidPhys = .ok (headerBytes (16 * dti.reservelist.length) (structSize (infosOf dti.dt))
          (stringTable (infosOf dti.dt)).length dti.bootCpuidPhys) := by
      rw [block, length_reserveBytes, table]
      exact makeFdtHeader_eq_ok.mpr ⟨small, rfl⟩
    rw [flattened, Exec.ok_bind, ended, Exec.ok_bind, reserved, Exec.ok_bind, headed, Exec.ok_bind]
    refine (assemble_eq_ok (length_headerBytes ..)).mpr ⟨?_, ?_⟩
    · simp only [block, length_reserveBytes, table]
      refine ⟨fits.reserved, ?_, fits.merged, fits.strings⟩
      have zeroes := fits.zeroes
      exact canGrow_of_le_half (by decide) (show 40 + 16 * dti.reservelist.length + 16 ≤ 2 ^ 30 by omega)
    · simp only [table]
      rfl

end Blob
end Bxxt.Proofs
