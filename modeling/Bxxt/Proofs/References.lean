import Bxxt.Proofs.LabelSymbols

/-! What becomes of the references of a source. Nothing puts in what they stand for, so that a value
with a reference to a node is never what it should be. -/

namespace Bxxt.Proofs
open Bxxt ByteLayout BlobBytes SiblingTree

section Values
variable {tree blob : Node} {val out : Bytes}

/-- The marker of a reference to a node that exists, which is the only kind that the compiler could
resolve. -/
def Refers (tree : Node) (m : Marker) : Prop := m.type ≠ .label ∧ getNodeByRef tree m.ref ≠ none

instance (tree : Node) (m : Marker) : Decidable (Refers tree m) :=
  inferInstanceAs (Decidable (m.type ≠ .label ∧ getNodeByRef tree m.ref ≠ none))

def CarriesNumber (tree blob : Node) (target : Address) (number : Nat) : Prop :=
  ∃ (k : Nat) (node own : Visited NodeInfo Bytes), (nodesOf tree)[k]? = some node ∧ node.address = target ∧
    (nodesOf blob)[k]? = some own ∧
    nodeNumber own.value = some number ∧ ValidPhandle number

def HasPath (tree : Node) (target : Address) (path : Bytes) : Prop := ∃ node ∈ nodesOf tree, node.address =
    target ∧ path = fullPath node.path

/-- What a reference is replaced by: a cell by a number, and a path is put in. -/
def Replaced (tree blob : Node) (m : Marker) (target : Address) (val out : Bytes) : Prop :=
  match m.type with
  | .refPhandle => ∃ number, CarriesNumber tree blob target number ∧
      out = val.take m.offset ++ (beBytes 4 number ++ val.drop (m.offset + 4))
  | .refPath => ∃ path, HasPath tree target path ∧ out = val.take m.offset ++ (path ++ 0 :: val.drop m.offset)
  | .label => out = val

/-- A value with its references to nodes resolved. What is put in moves all that is behind it, so
that the last reference comes first. -/
def Resolved (tree blob : Node) : List Marker → Bytes → Bytes → Prop
  | [], val, out => out = val
  | m :: markers, val, out => ∃ behind, Resolved tree blob markers val behind ∧
      match getNodeByRef tree m.ref with
      | none => out = behind
      | some target => Replaced tree blob m target behind out

theorem nodeNumber_lt {info : NodeInfo} {number : Nat} (found : nodeNumber info = some number) : number < 2 ^ 32 := by
  have cell {prop : Property} (same : cellOf prop = some number) : number < 2 ^ 32 := by
    rw [cellOf] at same
    split at same
    next length =>
      cases same
      have small := leValue_lt prop.val.val.reverse
      rw [List.length_reverse, length] at small
      exact Nat.lt_of_lt_of_eq small (by norm_num)
    · cases same
  rw [nodeNumber] at found
  split at found
  · exact cell found
  · obtain ⟨prop, _, same⟩ := Option.bind_eq_some_iff.mp found
    exact cell same

/-- No number looks like a reference that waits for one. -/
theorem number_ne_placeholder {info : NodeInfo} {number : Nat} (found : nodeNumber info = some number)
    (valid : ValidPhandle number) :
    beBytes 4 number ≠ placeholder := by
  intro same
  have ones : beBytes 4 (2 ^ 32 - 1) = placeholder := by decide
  have limit : (256 : Nat) ^ 4 = 2 ^ 32 := by norm_num
  have small := nodeNumber_lt found
  exact valid.2 (beBytes_injective (by omega) (by omega) (same.trans ones.symm))

/-- A reference to a number does not make a value shorter, and leaves no placeholder. -/
theorem replaced_cell {m : Marker} {target : Address} {source : Bytes} (cell : m.type = .refPhandle)
    (waiting : placeholder <+: source.drop m.offset) (longer : source.length ≤ val.length)
    (replaced : Replaced tree blob m target val out) :
    val.length ≤ out.length ∧ out ≠ source := by
  rw [Replaced, cell] at replaced
  obtain ⟨number, ⟨k, node, own, _, _, _, given, valid⟩, rfl⟩ := replaced
  have room := waiting.length_le
  rw [List.length_drop, placeholder, List.length_replicate] at room
  have front : (val.take m.offset).length = m.offset := by
    rw [List.length_take]
    omega
  refine ⟨?_, fun same => ?_⟩
  · simp only [List.length_append, front, length_beBytes, List.length_drop]
    omega
  · rw [← same, List.drop_left' front] at waiting
    have both : placeholder <+: beBytes 4 number :=
      List.prefix_of_prefix_length_le waiting (List.prefix_append ..) (Nat.le_of_eq (length_beBytes ..).symm)
    exact number_ne_placeholder given valid (both.eq_of_length (length_beBytes ..).symm).symm

theorem replaced_path {m : Marker} {target : Address} (path : m.type = .refPath)
    (replaced : Replaced tree blob m target val out) :
    val.length < out.length := by
  rw [Replaced, path] at replaced
  obtain ⟨inserted, _, rfl⟩ := replaced
  have length := congrArg List.length (List.take_append_drop m.offset val)
  rw [List.length_append] at length
  rw [List.length_append, List.length_append, List.length_cons]
  omega

/-- A value in which a reference is resolved is another one. -/
theorem resolved_differs {markers : List Marker}
    (waiting : ∀ m ∈ markers, m.type = .refPhandle → placeholder <+: val.drop m.offset)
    (resolved : Resolved tree blob markers val out) : val.length ≤ out.length ∧
    ((∃ m ∈ markers, Refers tree m) → out ≠ val) := by
  induction markers generalizing out with
  | nil =>
    rw [Resolved] at resolved
    refine ⟨by rw [resolved], ?_⟩
    rintro ⟨m, inside, _⟩
    cases inside
  | cons m markers ih =>
    obtain ⟨own, others⟩ := List.forall_mem_cons.mp waiting
    obtain ⟨behind, later, here⟩ := resolved
    obtain ⟨longer, differs⟩ := ih others later
    have unchanged (same : out = behind) (stays : ¬ Refers tree m) :
        val.length ≤ out.length ∧ ((∃ other ∈ m :: markers, Refers tree other) → out ≠ val) := by
      subst same
      refine ⟨longer, ?_⟩
      rintro ⟨other, inside, refers⟩
      rcases List.mem_cons.mp inside with rfl | member
      · exact absurd refers stays
      · exact differs ⟨other, member, refers⟩
    cases target : getNodeByRef tree m.ref with
    | none =>
      rw [target] at here
      exact unchanged here fun refers => refers.2 target
    | some address =>
      rw [target] at here
      cases type : m.type with
      | refPhandle =>
        have cell := replaced_cell type (own type) longer here
        exact ⟨Nat.le_trans longer cell.1, fun _ => cell.2⟩
      | refPath =>
        have path := replaced_path type here
        refine ⟨by omega, fun _ same => ?_⟩
        rw [same] at path
        omega
      | label =>
        refine unchanged ?_ fun refers => refers.1 type
        dsimp only at here
        rw [Replaced, type] at here
        exact here

end Values
section Sources
variable {first : Nat} {dti : DtInfo}

def ReferencesResolved (tree : Node) (run : Exec Bytes) : Prop :=
  ∀ (k i : Nat) node prop, (nodesOf tree)[k]? = some node → (liveProps node.value)[i]? = some prop →
    (∃ m ∈ prop.val.markers, Refers tree m) → ∃ blob info own after,
      run = .ok blob ∧ dtFromMem (Region.ofBuffer blob) = .ok info ∧ (nodesOf info.dt)[k]? = some own ∧
        (liveProps own.value)[i]? = some after ∧ Resolved tree info.dt prop.val.markers prop.val.val after.val.val

theorem liveProps_numbered {info : NodeInfo} {i : Nat} {prop : Property}
    (found : (liveProps info)[i]? = some prop) (number : Nat) :
    (liveProps (numbered number info))[i]? = some prop := by
  rw [numbered]
  split
  · have more :
      liveProps (addProperty { info with phandle := number } (buildProperty phandleName ⟨beBytes 4 number, []⟩)) =
        liveProps info ++ _ := List.filter_append ..
    rw [more, List.getElem?_append_left (List.getElem?_eq_some_iff.mp found).1, found]
  · exact found

theorem carried_value {dt blob : Node} (carried : Carried first dt blob) (root : dt.value.deleted = false) {k i : Nat}
    {node own : Visited NodeInfo Bytes} {prop after : Property} (there : (nodesOf dt)[k]? = some node)
    (found : (liveProps node.value)[i]? = some prop) (here : (nodesOf blob)[k]? = some own)
    (same : (liveProps own.value)[i]? = some after) :
    after.val.val = prop.val.val := by
  obtain ⟨numbered, later, step⟩ := @renumbered_of_node _ first k node (getElem?_labelledTree root there)
  have both := congrArg (·[k]?) carried.nodes
  rw [List.getElem?_map, List.getElem?_map, here, later] at both
  have value : own.value = plainInfo numbered.value := congrArg Prod.snd (Option.some.inj both)
  have kept : (liveProps numbered.value)[i]? = some prop := by
    rcases step.value with ⟨_, equal⟩ | ⟨_, number, _, _, equal⟩
    · rw [equal, found]
    · rw [equal, liveProps_numbered found]
  rw [value, liveProps_plain, List.getElem?_map, kept] at same
  cases same
  rfl

theorem referencesResolved_iff (sourced : SourcedTree dti.dt) : ReferencesResolved dti.dt (dtbFromTree dti first) ↔
    ∀ node ∈ nodesOf dti.dt, ∀ prop ∈ liveProps node.value, ∀ m ∈ prop.val.markers, ¬ Refers dti.dt m := by
  constructor
  · intro all node inside prop own m member refers
    obtain ⟨k, there⟩ := List.mem_iff_getElem?.mp inside
    obtain ⟨i, found⟩ := List.mem_iff_getElem?.mp own
    obtain ⟨blob, info, visited, after, run, read, here, same, resolved⟩ :=
      all k i node prop there found ⟨m, member, refers⟩
    have compiles := (compiles_iff sourced).mpr ⟨blob, info, run, read⟩
    have unchanged := carried_value (carried sourced run read) compiles.root there found here same
    have waiting := ((sourced_visit sourced inside).props prop (List.mem_of_mem_filter own)).val
    exact (resolved_differs waiting resolved).2 ⟨m, member, refers⟩ unchanged
  · rintro none k i node prop there found ⟨m, member, refers⟩
    exact absurd refers (none node (List.mem_of_getElem? there) prop (List.mem_of_getElem? found) m member)

/-- The references of a source are resolved exactly when there are none. -/
theorem references_resolved_iff {source : DtSource} {compiler : Compiler}
    (parsed : dtFromSource source compiler.nextOrphanFragment = .ok dti) :
    ReferencesResolved dti.dt (bxxtDtccDtbFromSource source compiler) ↔
      ∀ node ∈ nodesOf dti.dt, ∀ prop ∈ liveProps node.value, ∀ m ∈ prop.val.markers,
        ¬ Refers dti.dt m := by
  rw [dtbFromSource_eq parsed]
  exact referencesResolved_iff (dtFromSource_sourced parsed)

/-- A root with a child, and a property that may refer to it. -/
def referenceSource (flags : Nat) (items : List ArrayItem) : DtSource :=
  ⟨flags, [], some ⟨[.assign (sourceWord "r" (by decide) (by decide)) [.array none items]],
    .node ⟨[], childWord, false, []⟩ .nil .nil⟩, []⟩

def referenceTree (val : Data) : Node :=
  ⟨⟨false, [], [⟨false, ascii "r", val, []⟩], none, 0, 0, []⟩, childTree.children⟩

/-- `/dts-v1/; /plugin/; / { r = <&b 7>; a { }; };` -/
def pluginSource : DtSource :=
  referenceSource (dtsfV1 ||| dtsfPlugin) [.reference (sourceWord "b" (by decide) (by decide)), .integer 7]

/-- A reference to a node that is not in the source is nothing to resolve. -/
theorem plugin_resolved :
    ReferencesResolved (referenceTree ⟨placeholder ++ beBytes 4 7, [⟨.refPhandle, 0, ascii "b"⟩]⟩)
    (bxxtDtccDtbFromSource pluginSource Compiler.fresh) := by
  have parsed : dtFromSource pluginSource Compiler.fresh.nextOrphanFragment =
      .ok ⟨dtsfV1 ||| dtsfPlugin, [], referenceTree
        ⟨placeholder ++ beBytes 4 7, [⟨.refPhandle, 0, ascii "b"⟩]⟩, 0⟩ := by decide
  refine (references_resolved_iff parsed).mpr ?_
  decide

/-- `<&{/a}>` -/
theorem child_unresolved :
    dtFromSource (referenceSource dtsfV1 [.reference (sourceWord "/a" (by decide) (by decide))])
      Compiler.fresh.nextOrphanFragment =
      .ok ⟨dtsfV1, [], referenceTree ⟨placeholder, [⟨.refPhandle, 0, ascii "/a"⟩]⟩, 0⟩ ∧
    ¬ ReferencesResolved (referenceTree ⟨placeholder, [⟨.refPhandle, 0, ascii "/a"⟩]⟩)
      (bxxtDtccDtbFromSource (referenceSource dtsfV1 [.reference (sourceWord "/a" (by decide) (by decide))])
        Compiler.fresh) := by
  have parsed : dtFromSource (referenceSource dtsfV1 [.reference (sourceWord "/a" (by decide) (by decide))])
      Compiler.fresh.nextOrphanFragment = .ok
        ⟨dtsfV1, [], referenceTree ⟨placeholder, [⟨.refPhandle, 0, ascii "/a"⟩]⟩, 0⟩ := by decide
  refine ⟨parsed, fun resolved => ?_⟩
  rw [dtbFromSource_eq parsed] at resolved
  have none := (referencesResolved_iff (dtFromSource_sourced parsed)).mp resolved ⟨[], [], _⟩ List.mem_cons_self _
    List.mem_cons_self _
    List.mem_cons_self
  exact none ⟨by decide, by decide⟩

end Sources
end Bxxt.Proofs
