import Bxxt.Proofs.BlobReader

/-! A blob that can be read is written as it was read, if the buffers of the writer can be doubled for it. -/

namespace Bxxt.Proofs
open Bxxt ByteLayout BlobBytes SiblingTree

section Readers
variable {mem : Region} {strbuf inb after : Inbuf} {flags : FormatFlags}

theorem scanString_plain {room p : Nat} {str : Bytes} (run : scanString mem room p = .ok str) : 0 ∉ str := by
  induction room generalizing p str with
  | zero => cases run
  | succ room ih =>
    obtain ⟨byte, _, run⟩ := Exec.bind_eq_ok.mp run
    split at run
    · cases run
      exact List.not_mem_nil
    next some =>
      obtain ⟨rest, later, same⟩ := Exec.bind_eq_ok.mp run
      cases same
      rw [List.mem_cons, not_or]
      exact ⟨Ne.symm some, ih later⟩

/-- No entry of a list that was read is an end of it. -/
theorem flatReadMemReserve_sizes {fuel : Nat} {reservelist : List ReserveInfo}
    (run : flatReadMemReserve mem fuel inb = .ok reservelist) :
    ∀ re ∈ reservelist, re.size ≠ 0 := by
  induction fuel generalizing inb reservelist with
  | zero => cases run
  | succ fuel ih =>
    obtain ⟨⟨re, next⟩, _, run⟩ := Exec.bind_eq_ok.mp run
    dsimp only at run
    split at run
    · cases run
      exact List.forall_mem_nil _
    next some =>
      obtain ⟨rest, later, same⟩ := Exec.bind_eq_ok.mp run
      cases same
      exact List.forall_mem_cons.mpr ⟨some, ih later⟩

structure Flat (info : NodeInfo) : Prop where
  plain : plainInfo info = info
  names : PlainNames info

theorem Flat.live {info : NodeInfo} (flat : Flat info) : Proofs.live info = true := by
  rw [← flat.plain]
  rfl

theorem flatReadData_val {len : Nat} {d : Data} (run : flatReadData mem inb len = .ok (d, after)) :
    ∃ val, d = ⟨val, []⟩ := by
  rw [flatReadData] at run
  split at run
  · cases run
    exact ⟨[], rfl⟩
  · split at run
    · cases run
    · obtain ⟨⟨val, _⟩, _, run⟩ := Exec.bind_eq_ok.mp run
      obtain ⟨_, _, same⟩ := Exec.bind_eq_ok.mp run
      cases same
      exact ⟨val, rfl⟩

def readValue (mem : Region) (name : Bytes) (proplen : Nat) (dtbuf : Inbuf) : Exec (Property × Inbuf) := do
  let (val, dtbuf) ← flatReadData mem dtbuf proplen
  return (buildProperty name val, dtbuf)

theorem flatReadProperty_flat {prop : Property} (run : flatReadProperty mem inb strbuf flags = .ok (prop, after)) :
    ∃ name val, 0 ∉ name ∧ prop = buildProperty name ⟨val, []⟩ := by
  obtain ⟨⟨proplen, _⟩, _, run⟩ := Exec.bind_eq_ok.mp run
  obtain ⟨⟨stroff, _⟩, _, run⟩ := Exec.bind_eq_ok.mp run
  obtain ⟨name, string, run⟩ := Exec.bind_eq_ok.mp run
  have plain : 0 ∉ name := by
    rw [flatReadStringtable] at string
    split at string
    · cases string
    · exact scanString_plain string
  have rest {dtbuf : Inbuf} (run : readValue mem name proplen dtbuf = .ok (prop, after)) :
      ∃ name val, 0 ∉ name ∧ prop = buildProperty name ⟨val, []⟩ := by
    obtain ⟨⟨d, _⟩, data, same⟩ := Exec.bind_eq_ok.mp run
    obtain ⟨val, rfl⟩ := flatReadData_val data
    cases same
    exact ⟨name, val, plain, rfl⟩
  dsimp only at run
  split at run
  · obtain ⟨_, _, run⟩ := Exec.bind_eq_ok.mp run
    exact rest run
  · exact rest run

theorem Flat.addProperty {info : NodeInfo} (flat : Flat info) {name : Bytes} (plain : 0 ∉ name) (val : Bytes) :
    Flat (Bxxt.addProperty info (buildProperty name ⟨val, []⟩)) := by
  have props : liveProps (Bxxt.addProperty info (buildProperty name ⟨val, []⟩)) = liveProps info ++
    [buildProperty name ⟨val, []⟩] :=
    List.filter_append ..
  have own := congrArg NodeInfo.proplist flat.plain
  refine ⟨?_, flat.names.1, ?_⟩
  · rw [plainInfo, props, List.map_append]
    have whole : (liveProps info).map plainProp = info.proplist := own
    rw [whole]
    have rest := flat.plain
    rw [plainInfo] at rest
    rw [Bxxt.addProperty, ← rest]
    rfl
  · rw [props]
    refine List.forall_mem_append.mpr ⟨flat.names.2, List.forall_mem_singleton.mpr plain⟩

theorem flatReadString_plain {str : Bytes} (run : flatReadString mem inb = .ok (str, after)) : 0 ∉ str := by
  obtain ⟨chars, scanned, run⟩ := Exec.bind_eq_ok.mp run
  obtain ⟨_, _, same⟩ := Exec.bind_eq_ok.mp run
  cases same
  exact scanString_plain scanned

theorem nodenameFromPath_plain {ppath cpath name : Bytes} (plain : 0 ∉ cpath)
    (run : nodenameFromPath ppath cpath = .ok name) : 0 ∉ name := by
  have dropped (count : Nat)
    (run : (if cpath.length < count then .error .outOfBounds else .ok (cpath.drop count) : Exec Bytes) = .ok name) :
      0 ∉ name := by
    by_cases short : cpath.length < count
    · rw [if_pos short] at run
      cases run
    · rw [if_neg short] at run
      cases run
      exact fun inside => plain (List.mem_of_mem_drop inside)
  rw [nodenameFromPath] at run
  by_cases behind : ppath <+: cpath
  · rw [if_pos behind] at run
    exact dropped _ run
  · rw [if_neg behind] at run
    cases run

theorem openNode_flat {parent flatname : Bytes} {node : Node}
    (run : openNode mem flags parent inb = .ok (node, flatname, after)) :
    node.All Flat := by
  obtain ⟨⟨str, _⟩, read, run⟩ := Exec.bind_eq_ok.mp run
  have plain := flatReadString_plain read
  dsimp only at run
  split at run
  · obtain ⟨name, named, same⟩ := Exec.bind_eq_ok.mp run
    cases same
    exact ⟨⟨rfl, nodenameFromPath_plain plain named, List.forall_mem_nil _⟩, trivial⟩
  · cases run
    exact ⟨⟨rfl, plain, List.forall_mem_nil _⟩, trivial⟩

theorem unflattenLoop_flat {fuel : Nat} {flatname : Bytes} {node tree : Node} (flat : node.All Flat)
    (run : unflattenLoop mem strbuf flags fuel flatname node inb = .ok (tree, after)) : tree.All Flat := by
  induction fuel generalizing flatname node tree inb after with
  | zero => cases run
  | succ fuel ih =>
    obtain ⟨⟨word, next⟩, _, run⟩ := Exec.bind_eq_ok.mp run
    dsimp only at run
    split at run
    · obtain ⟨⟨prop, _⟩, read, run⟩ := Exec.bind_eq_ok.mp run
      obtain ⟨name, val, plain, rfl⟩ := flatReadProperty_flat read
      have own : Rooted.All Flat ({ node with value := addProperty node.value (buildProperty name ⟨val, []⟩) } :
        Node) :=
        ⟨flat.1.addProperty plain val, flat.2⟩
      exact ih own run
    · split at run
      · obtain ⟨⟨child, childFlatname, _⟩, opened, run⟩ := Exec.bind_eq_ok.mp run
        obtain ⟨⟨below, _⟩, inner, run⟩ := Exec.bind_eq_ok.mp run
        have own := ih (openNode_flat opened) inner
        exact ih (flat.addChild own.1 own.2) run
      · split at run
        · cases run
          exact flat
        · split at run
          · exact ih flat run
          · cases run

structure ReadTree (d : DtInfo) : Prop where
  flags : d.dtsflags = dtsfV1
  reserves : ∀ re ∈ d.reservelist, re.size ≠ 0
  nodes : d.dt.All Flat

/-- The parts of a blob, from where its header says that they are. -/
def readParts (mem : Region) (totalsize offDt offStr offMemRsvmap version bootCpuidPhys limit : Nat) : Exec DtInfo := do
  let reservelist ← flatReadMemReserve mem (totalsize + 1) (inbufInit offMemRsvmap totalsize)
  let (val, dtbuf) ← flatReadWord mem (inbufInit offDt totalsize)
  if val ≠ fdtBeginNode then throw .exited
  let (tree, dtbuf) ← unflattenTree mem (inbufInit offStr limit) [] (readFlags version) dtbuf
  let (val, _) ← flatReadWord mem dtbuf
  if val ≠ fdtEnd then throw .exited
  return ⟨dtsfV1, reservelist, tree, UInt32.ofNat bootCpuidPhys⟩

theorem dtFromMem_flat {d : DtInfo} (run : dtFromMem mem = .ok d) : ReadTree d := by
  obtain ⟨totalsize, _, run⟩ := Exec.bind_eq_ok.mp run
  obtain ⟨offDt, _, run⟩ := Exec.bind_eq_ok.mp run
  obtain ⟨offStr, _, run⟩ := Exec.bind_eq_ok.mp run
  obtain ⟨offMem, _, run⟩ := Exec.bind_eq_ok.mp run
  obtain ⟨boot, _, run⟩ := Exec.bind_eq_ok.mp run
  obtain ⟨version, _, run⟩ := Exec.bind_eq_ok.mp run
  have rest {limit : Nat} (run : readParts mem totalsize offDt offStr offMem version boot limit = .ok d) :
      ReadTree d := by
    obtain ⟨reservelist, reserved, run⟩ := Exec.bind_eq_ok.mp run
    obtain ⟨⟨ret, dtbuf⟩, _, run⟩ := Exec.bind_eq_ok.mp run
    dsimp only at run
    split at run
    · cases run
    · obtain ⟨⟨tree, next⟩, unflattened, run⟩ := Exec.bind_eq_ok.mp run
      obtain ⟨⟨last, _⟩, _, run⟩ := Exec.bind_eq_ok.mp run
      dsimp only at run
      split at run
      · cases run
      · cases run
        obtain ⟨⟨node, flatname, start⟩, opened, loop⟩ := Exec.bind_eq_ok.mp unflattened
        exact ⟨rfl, flatReadMemReserve_sizes reserved, unflattenLoop_flat (openNode_flat opened) loop⟩
  split at run
  · obtain ⟨sizeStr, _, run⟩ := Exec.bind_eq_ok.mp run
    exact rest run
  · exact rest run

end Readers
section RoundTrip
variable {d : DtInfo} {q : Bytes}

def emittedSize (d : DtInfo) : Nat := 56 + 16 * d.reservelist.length + structSize (infosOf d.dt) +
    (stringTable (infosOf d.dt)).length

theorem tableFits_of_small {names : List Bytes} {table : Bytes} (small : (tableAfter names table).length ≤ 2 ^ 30) :
    TableFits names table := by
  induction names generalizing table with
  | nil => trivial
  | cons name names ih =>
    have after : tableAfter (name :: names) table = tableAfter names (insertString table name).2 := rfl
    rw [after] at small
    refine ⟨fun missing => ?_, ih small⟩
    have inserted : (insertString table name).2 = table ++ name ++ [0] := by rw [insertString, missing]
    obtain ⟨more, grown⟩ := tableAfter_extends names (insertString table name).2
    rw [grown, inserted] at small
    simp only [List.length_append, List.length_singleton] at small
    exact canGrow_of_le_half (by decide) (show table.length + (name.length + 1) ≤ 2 ^ 30 by omega)

/-- Up to 2 ^ 30 bytes the buffers have room. -/
theorem blobFits_of_small (small : emittedSize d ≤ 2 ^ 30) : BlobFits d.reservelist.length (infosOf d.dt) := by
  have half : 2 * 2 ^ 30 ≤ intMax + 1 := by decide
  rw [emittedSize] at small
  exact {
    block := by omega
    names := tableFits_of_small (show (stringTable (infosOf d.dt)).length ≤ 2 ^ 30 by omega)
    reserved := canGrow_of_le_half half (by omega)
    zeroes := by omega
    merged := canGrow_of_le_half half (by omega)
    strings := canGrow_of_le_half half (by omega) }

structure WellPlaced (d : DtInfo) (q : Bytes) : Prop where
  total : fdtField (Region.ofBuffer q) 1 = .ok q.length
  reserves : ∃ off, fdtField (Region.ofBuffer q) 4 = .ok off ∧
    At (Region.ofBuffer q) off (reserveBytes d.reservelist ++ List.replicate 16 0)
  struct : ∃ off, fdtField (Region.ofBuffer q) 2 = .ok off ∧ At (Region.ofBuffer q) off (structBlock d.dt)
  strings : ∃ off, fdtField (Region.ofBuffer q) 3 = .ok off ∧
    At (Region.ofBuffer q) off (stringTable (infosOf d.dt))

def BlobRoundTrips (d : DtInfo) : Prop :=
  ∃ q, dtToMem d defaultFdtVersion = .ok q ∧ WellPlaced d q ∧ dtFromMem (Region.ofBuffer q) = .ok d

theorem ReadTree.root (read : ReadTree d) : d.dt.value.deleted = false := by
  have live := read.nodes.1.live
  rw [Proofs.live] at live
  simpa using live

theorem ReadTree.plain (read : ReadTree d) : Proofs.plain d.dt = d.dt :=
  Rooted.prune_self (read.nodes.imp fun _ flat => ⟨flat.live, flat.plain⟩)

theorem ReadTree.names (read : ReadTree d) : ∀ info ∈ infosOf d.dt, PlainNames info := by
  rw [infosOf, List.forall_mem_map]
  intro node inside
  exact (read.nodes.get? (Rooted.get?_of_visit inside)).names

theorem ReadTree.reads (read : ReadTree d) (small : emittedSize d ≤ intMax) :
    dtFromMem (Region.ofBuffer (blobBytes d)) = .ok d := by
  have blob := @holdsBlob d (by rw [length_blobBytes]; exact small)
  have whole : d.reservelist.takeWhile (·.size ≠ 0) = d.reservelist :=
    List.takeWhile_eq_self_iff.mpr fun re inside => decide_eq_true (read.reserves re inside)
  rw [blob.read read.root read.names, whole, read.plain, ← read.flags]

theorem wellPlaced (small : emittedSize d ≤ intMax) : WellPlaced d (blobBytes d) := by
  have blob := @holdsBlob d (by rw [length_blobBytes]; exact small)
  have limit : intMax < 2 ^ 32 := by decide
  rw [emittedSize] at small
  exact {
    total := length_blobBytes d ▸ fdtField_at (by omega) (blob.field 1 (by decide))
    reserves := ⟨40, fdtField_at (by decide) (blob.field 4 (by decide)), blob.reserves⟩
    struct := ⟨56 + 16 * d.reservelist.length, fdtField_at (by omega) (blob.field 2 (by decide)), blob.struct⟩
    strings := ⟨56 + 16 * d.reservelist.length + structSize (infosOf d.dt), fdtField_at (by omega)
      (blob.field 3 (by decide)), blob.strings⟩ }

/-- A tree that was read makes a round trip exactly when the writer's buffers have room for it. -/
theorem ReadTree.roundTrips_iff (read : ReadTree d) : BlobRoundTrips d ↔
    BlobFits d.reservelist.length (infosOf d.dt) := by
  constructor
  · rintro ⟨q, written, _⟩
    exact (dtToMem_eq_ok.mp written).1
  · intro fits
    exact ⟨_, dtToMem_eq_ok.mpr ⟨fits, rfl⟩, wellPlaced fits.small, read.reads fits.small⟩

/-- Blobs of less than 2 ^ 31 bytes make a round trip exactly when the writer's buffers have room for them. -/
theorem blob_round_trip_iff {p : Bytes} (read : dtFromMem (Region.ofBuffer p) = .ok d) :
    (emittedSize d < 2 ^ 31 → BlobRoundTrips d) ↔
    BlobFits d.reservelist.length (infosOf d.dt) ∨ 2 ^ 31 ≤ emittedSize d := by
  rw [(dtFromMem_flat read).roundTrips_iff, or_comm, ← Nat.not_lt, ← imp_iff_not_or]

def zeroesInfo (count : Nat) : DtInfo :=
  ⟨dtsfV1, [], ⟨⟨false, [], [buildProperty (ascii "p") ⟨List.replicate count 0, []⟩], none, 0, 0, []⟩,
    .nil⟩, 0⟩

theorem zeroes_read (count : Nat) : ReadTree (zeroesInfo count) := by
  have plain : 0 ∉ ascii "p" := by decide
  exact ⟨rfl, List.forall_mem_nil _, ⟨⟨rfl, List.not_mem_nil, List.forall_mem_singleton.mpr plain⟩,
    trivial⟩⟩

theorem zeroes_structSize (count : Nat) :
    structSize (infosOf (zeroesInfo count).dt) = 28 + PagedBytes.roundUp 4 count := by
  have infos : infosOf (zeroesInfo count).dt = [(zeroesInfo count).dt.value] := rfl
  rw [infos, structSize, List.map_singleton, List.sum_singleton, nodeSize]
  have props : (liveProps (zeroesInfo count).dt.value).map propSize =
    [12 + PagedBytes.roundUp 4 (List.replicate count (0 : UInt8)).length] := rfl
  have name : PagedBytes.roundUp 4 ((zeroesInfo count).dt.value.name.length + 1) = 4 :=
    show PagedBytes.roundUp 4 1 = 4 by decide
  rw [props, name, List.sum_singleton, List.length_replicate]
  omega

theorem zeroes_emittedSize (count : Nat) : emittedSize (zeroesInfo count) = 86 + PagedBytes.roundUp 4 count := by
  have table : stringTable (infosOf (zeroesInfo count).dt) = (insertString [] (ascii "p")).2 := rfl
  have length : ((insertString [] (ascii "p")).2 : Bytes).length = 2 := by decide
  rw [emittedSize, zeroes_structSize, table, length]
  have none : (zeroesInfo count).reservelist.length = 0 := rfl
  omega

theorem zeroes_round_trip : BlobRoundTrips (zeroesInfo 4) := by
  have size := zeroes_emittedSize 4
  have four : PagedBytes.roundUp 4 4 = 4 := by decide
  rw [four] at size
  have read := (zeroes_read 4).reads (by rw [size]; decide)
  exact (blob_round_trip_iff read).mpr (Or.inl (blobFits_of_small (by rw [size]; decide))) (by rw [size]; decide)

/-- A property of 2 ^ 30 bytes is read, but it cannot be written. -/
theorem large_property_lost : dtFromMem (Region.ofBuffer (blobBytes (zeroesInfo (2 ^ 30)))) =
    .ok (zeroesInfo (2 ^ 30)) ∧
    emittedSize (zeroesInfo (2 ^ 30)) < 2 ^ 31 ∧ ¬ BlobRoundTrips (zeroesInfo (2 ^ 30)) := by
  have size := zeroes_emittedSize (2 ^ 30)
  have struct := zeroes_structSize (2 ^ 30)
  have round : PagedBytes.roundUp 4 (2 ^ 30) = 2 ^ 30 := by decide
  rw [round] at size struct
  have limit : intMax = 2 ^ 31 - 1 := rfl
  have read := (zeroes_read (2 ^ 30)).reads (by rw [size, limit]; decide)
  refine ⟨read, by rw [size]; decide, fun trip => ?_⟩
  have block := ((zeroes_read (2 ^ 30)).roundTrips_iff.mp trip).block
  rw [struct] at block
  omega

end RoundTrip
end Bxxt.Proofs
