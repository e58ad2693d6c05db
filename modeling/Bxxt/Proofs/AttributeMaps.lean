import Bxxt.Proofs.PolicyLoad

/-! The two attribute maps of a policy are one relation between types and attributes, by rows
and by columns. The loop at the end of a read establishes it from the rows alone, and so a
policy that is written and read again has the same maps. -/

namespace Bxxt.Proofs
open Bxxt

/-- An array of bitmaps as the relation that it stores, row by row. The maps of a policy are
compared as relations, since a type may be added to either of them. -/
structure Rows (map : HeapArray Ebitmap) (n : Nat) (holds : Nat → Nat → Prop) : Prop where
  row : ∀ i < n, ∃ bits, map i = some bits ∧ bits.WellFormed ∧ ∀ k, bits.Holds k ↔ holds i k
  beyond : ∀ i, n ≤ i → map i = none

section Rows
variable {map map' : HeapArray Ebitmap} {n : Nat} {holds holds' : Nat → Nat → Prop}

theorem Rows.calloc (n : Nat) : Rows (.calloc n .empty) n fun _ _ => False where
  row i below := ⟨.empty, if_pos below, .empty, fun k => iff_of_false (Ebitmap.not_holds_empty k) not_false⟩
  beyond i above := if_neg (by omega)

theorem Rows.congr (rows : Rows map n holds) (same : ∀ i < n, ∀ k, holds i k ↔ holds' i k) :
    Rows map n holds' := by
  refine ⟨?_, rows.beyond⟩
  intro i below
  obtain ⟨bits, loaded, formed, holds⟩ := rows.row i below
  exact ⟨bits, loaded, formed, fun k => (holds k).trans (same i below k)⟩

/-- A relation is stored in one way only. -/
theorem Rows.ext (rows : Rows map n holds) (rows' : Rows map' n holds) : map = map' := by
  funext i
  by_cases below : i < n
  · obtain ⟨bits, loaded, formed, spec⟩ := rows.row i below
    obtain ⟨bits', loaded', formed', spec'⟩ := rows'.row i below
    have same : bits = bits' := formed.ext formed' fun k => (spec k).trans (spec' k).symm
    rw [loaded, loaded', same]
  · rw [rows.beyond i (by omega), rows'.beyond i (by omega)]

theorem Rows.of_some (rows : Rows map n holds) {i : Nat} {bits : Ebitmap} (loaded : map i = some bits) :
    i < n ∧ ∀ k, bits.Holds k ↔ holds i k := by
  have below : i < n := by
    by_contra above
    rw [rows.beyond i (by omega)] at loaded
    cases loaded
  obtain ⟨bits', loaded', _, spec⟩ := rows.row i below
  rw [loaded] at loaded'
  cases loaded'
  exact ⟨below, spec⟩

theorem Rows.isSome (rows : Rows map n holds) (i : Nat) :
    i < n ↔ ∃ bits, map i = some bits ∧ bits.WellFormed := by
  constructor
  · intro below
    obtain ⟨bits, loaded, formed, _⟩ := rows.row i below
    exact ⟨bits, loaded, formed⟩
  · rintro ⟨bits, loaded, _⟩
    exact (rows.of_some loaded).1

theorem Rows.update (rows : Rows map n holds) {i : Nat} (below : i < n) {bits : Ebitmap} (formed : bits.WellFormed) :
    Rows (Function.update map i (some bits)) n fun j k => if j = i then bits.Holds k else holds j k := by
  constructor
  case row =>
    intro j inside
    by_cases same : j = i
    · subst same
      exact ⟨bits, Function.update_self .., formed, fun k => by rw [if_pos rfl]⟩
    · rw [Function.update_of_ne same]
      simp only [if_neg same]
      exact rows.row j inside
  case beyond =>
    intro j above
    rw [Function.update_of_ne (by omega)]
    exact rows.beyond j above

theorem Rows.setBit (rows : Rows map n holds) {i bit : Nat} (below : i < n) (room : bit ≤ Ebitmap.maxBit) :
    ∃ bits after, map i = some bits ∧ ebitmapSetBit bits (UInt32.ofNat bit) true = (0, after) ∧
      Rows (Function.update map i (some after)) n fun j k => holds j k ∨ j = i ∧ k = bit := by
  obtain ⟨bits, loaded, formed, spec⟩ := rows.row i below
  obtain ⟨after, set, formed', spec'⟩ := setBit_ofNat formed room
  refine ⟨bits, after, loaded, set, (rows.update below formed').congr ?_⟩
  intro j inside k
  split
  next same => rw [spec', spec, same, or_comm, and_iff_right rfl]
  next other => simp [other]

end Rows

section Invert
variable {map after : HeapArray Ebitmap} {n i : Nat} {holds : Nat → Nat → Prop} {bits : List Nat}

theorem invertAttrs_inside (inverted : invertAttrs n i bits map = some after) : ∀ j ∈ bits, j ≠ i → j < n := by
  induction bits generalizing map with
  | nil => simp
  | cons j rest ih =>
    rw [invertAttrs] at inverted
    split at inverted
    next own => exact List.forall_mem_cons.mpr ⟨fun other => absurd own.symm other, ih inverted⟩
    next other =>
      split at inverted
      next => cases inverted
      next inside =>
        split at inverted
        next => cases inverted
        next types loaded =>
          dsimp only at inverted
          split at inverted
          next => cases inverted
          next => exact List.forall_mem_cons.mpr ⟨fun _ => by omega, ih inverted⟩

theorem invertAttrs_ok (rows : Rows map n holds) (room : i ≤ Ebitmap.maxBit)
    (inside : ∀ j ∈ bits, j ≠ i → j < n) :
    ∃ after, invertAttrs n i bits map = some after ∧ Rows after n fun j k => holds j k ∨ k = i ∧
      j ∈ bits ∧ j ≠ i := by
  induction bits generalizing map holds with
  | nil => exact ⟨map, rfl, rows.congr (by simp)⟩
  | cons j rest ih =>
    obtain ⟨first, inside⟩ := List.forall_mem_cons.mp inside
    rw [invertAttrs]
    by_cases own : i = j
    · obtain ⟨after, inverted, columns⟩ := ih rows inside
      rw [if_pos own]
      refine ⟨after, inverted, columns.congr ?_⟩
      intro l _ k
      rw [List.mem_cons, own]
      tauto
    · have below := first (Ne.symm own)
      obtain ⟨types, types', loaded, set, rows⟩ := rows.setBit below room
      obtain ⟨after, inverted, columns⟩ := ih rows inside
      rw [if_neg own, if_neg (by omega), loaded]
      dsimp only
      rw [set]
      refine ⟨after, inverted, columns.congr ?_⟩
      intro l _ k
      rw [List.mem_cons]
      constructor
      · rintro ((old | ⟨rfl, rfl⟩) | ⟨rfl, later, other⟩)
        · exact Or.inl old
        · exact Or.inr ⟨rfl, Or.inl rfl, Ne.symm own⟩
        · exact Or.inr ⟨rfl, Or.inr later, other⟩
      · rintro (old | ⟨rfl, rfl | later, other⟩)
        · exact Or.inl (Or.inl old)
        · exact Or.inl (Or.inr ⟨rfl, rfl⟩)
        · exact Or.inr ⟨rfl, later, other⟩

end Invert

section Loop
variable {image : PolicyImage} {p q : Policydb} {i n : Nat} {attrs types : Nat → Nat → Prop}

/-- The image has the attribute `k` for the type `i`. -/
def ReadsAttr (image : PolicyImage) (i k : Nat) : Prop := ∃ attrs, readAttrs image i = some attrs ∧ attrs.Holds k

structure AcceptsType (image : PolicyImage) (p : Policydb) (i : Nat) : Prop where
  room : i ≤ Ebitmap.maxBit
  reads : ∃ attrs, readAttrs image i = some attrs
  inside : ∀ k, ReadsAttr image i k → k ≠ i → k < p.pTypes.nprim.toNat
  struct : ∃ type, typeStruct p i = .ok type

theorem AcceptsType.withMaps (accepts : AcceptsType image p i) (typeAttrMap attrTypeMap : HeapArray Ebitmap) :
    AcceptsType image { p with typeAttrMap, attrTypeMap } i :=
  ⟨accepts.room, accepts.reads, accepts.inside, accepts.struct⟩

theorem readTypeMaps_accepts {is : List Nat} (small : ∀ i ∈ is, i < 2 ^ 32)
    (read : readTypeMaps image is p = .ok (some q)) :
    ∀ i ∈ is, AcceptsType image p i := by
  induction is generalizing p with
  | nil => simp
  | cons i rest ih =>
    obtain ⟨narrow, small⟩ := List.forall_mem_cons.mp small
    obtain ⟨attrs, own, inverted, _, attrsRead, invert, set, bit, read⟩ := readTypeMaps_cons.mp read
    have later : ∀ j ∈ rest, AcceptsType image p j :=
      fun j member => (ih small read j member).withMaps p.typeAttrMap p.attrTypeMap
    refine List.forall_mem_cons.mpr ⟨⟨?_, ⟨attrs, attrsRead⟩, ?_, ?_⟩, later⟩
    · have room := room_of_setBit (congrArg Prod.fst set)
      rw [UInt32.toNat_ofNat'] at room
      omega
    · rintro k ⟨attrs', attrsRead', holds⟩
      rw [attrsRead] at attrsRead'
      cases attrsRead'
      exact invertAttrs_inside invert k ((Ebitmap.mem_positiveBits (readAttrs_wellFormed attrsRead)).mpr holds)
    · cases bit with
      | regular struct => exact ⟨_, struct⟩
      | attrib struct => exact ⟨_, struct⟩
      | absent struct => exact ⟨_, struct⟩

theorem ownBit_ok {map : HeapArray Ebitmap} {holds : Nat → Nat → Prop} (rows : Rows map n holds) (below : i < n)
    (room : i ≤ Ebitmap.maxBit) {type : Option TypeDatum} (struct : typeStruct p i = .ok type) :
    ∃ after, OwnBit p i map after ∧ Rows after n fun j k => holds j k ∨ (j = i ∧ k = i) ∧ Regular p i := by
  have irregular (noType : ∀ type', type = some type' → type'.flavor = typeAttrib) : ¬ Regular p i := by
    rintro ⟨type', struct', noAttribute⟩
    rw [struct] at struct'
    exact noAttribute (noType type' (Except.ok.inj struct'))
  cases type with
  | none =>
    have none := irregular (by simp)
    exact ⟨map, .absent struct, rows.congr (by simp [none])⟩
  | some type =>
    by_cases isAttribute : type.flavor = typeAttrib
    · have none := irregular (by simpa using isAttribute)
      exact ⟨map, .attrib struct isAttribute, rows.congr (by simp [none])⟩
    · have regular : Regular p i := ⟨type, struct, isAttribute⟩
      obtain ⟨bits, after, loaded, set, rows⟩ := rows.setBit below room
      exact ⟨_, .regular struct isAttribute loaded set, rows.congr (by simp [regular])⟩

/-- The loop succeeds where it accepts every type, and stores the relation of the image in both
directions. -/
theorem readTypeMaps_rows {is : List Nat} (accepts : ∀ i ∈ is, AcceptsType image p i)
    (below : ∀ i ∈ is, i < p.pTypes.nprim.toNat) (rows : Rows p.typeAttrMap p.pTypes.nprim.toNat attrs)
    (columns : Rows p.attrTypeMap p.pTypes.nprim.toNat types) :
    ∃ typeAttrMap attrTypeMap, readTypeMaps image is p = .ok (some { p with typeAttrMap, attrTypeMap }) ∧
      Rows typeAttrMap p.pTypes.nprim.toNat (fun i k => if i ∈ is then k = i ∨ ReadsAttr image i k
        else attrs i k) ∧
      Rows attrTypeMap p.pTypes.nprim.toNat fun j k => types j k ∨ k ∈ is ∧ if k = j then Regular p j
        else ReadsAttr image k j := by
  induction is generalizing p attrs types with
  | nil => exact ⟨_, _, rfl, rows.congr (by simp), columns.congr (by simp)⟩
  | cons i rest ih =>
    obtain ⟨accepted, accepts⟩ := List.forall_mem_cons.mp accepts
    obtain ⟨inside, below⟩ := List.forall_mem_cons.mp below
    obtain ⟨bits, attrsRead⟩ := accepted.reads
    have formed := readAttrs_wellFormed attrsRead
    have reads (k : Nat) : ReadsAttr image i k ↔ bits.Holds k := by
      constructor
      · rintro ⟨_, again, holds⟩
        rw [attrsRead] at again
        cases again
        exact holds
      · exact fun holds => ⟨bits, attrsRead, holds⟩
    obtain ⟨type, struct⟩ := accepted.struct
    obtain ⟨own, set, ownFormed, ownHolds⟩ := setBit_ofNat formed accepted.room
    obtain ⟨inverted, invert, columns⟩ := invertAttrs_ok columns accepted.room fun j member =>
      accepted.inside j ((reads j).mpr ((Ebitmap.mem_positiveBits formed).mp member))
    obtain ⟨attrTypeMap, bit, columns⟩ := ownBit_ok columns inside accepted.room struct
    have later : ∀ j ∈ rest, AcceptsType image
        { p with typeAttrMap := Function.update p.typeAttrMap i (some own), attrTypeMap } j := fun j member =>
      (accepts j member).withMaps _ _
    obtain ⟨_, _, read, rows', columns'⟩ := ih later below (rows.update inside ownFormed) columns
    refine ⟨_, _, readTypeMaps_cons.mpr ⟨bits, own, inverted, attrTypeMap, attrsRead, invert, set, bit, read⟩,
      ?_, ?_⟩
    · refine rows'.congr ?_
      intro j _ k
      by_cases same : j = i
      · subst same
        simp only [List.mem_cons_self, if_true, ownHolds, reads, ite_self]
      · simp only [List.mem_cons, same, false_or, if_false]
    · refine columns'.congr ?_
      intro j _ k
      have regular : Regular { p with typeAttrMap := Function.update p.typeAttrMap i (some own), attrTypeMap } j ↔
        Regular p j :=
        Iff.rfl
      by_cases same : k = i
      · subst same
        rw [regular, Ebitmap.mem_positiveBits formed, ← reads]
        by_cases diagonal : j = k
        · subst diagonal
          grind
        · grind
      · simp only [List.mem_cons, same, false_and, false_or, and_false, or_false, regular]

end Loop

/-- The two maps of a policy stand for one relation and its converse. A type is always among its own
attributes; `owned` says which attributes have themselves among their types. -/
structure MapsOf (p : Policydb) (relation : Nat → Nat → Prop) (owned : Nat → Prop) : Prop where
  rows : Rows p.typeAttrMap p.pTypes.nprim.toNat fun i k => k = i ∨ relation i k
  columns : Rows p.attrTypeMap p.pTypes.nprim.toNat fun j k => if k = j then owned j else relation k j
  inside : ∀ i k, relation i k → i < p.pTypes.nprim.toNat ∧ k < p.pTypes.nprim.toNat

/-- The attributes that are written, in the versions that have them. -/
def writtenAttrs (image : PolicyImage) (p : Policydb) : Exec (List EbitmapRecord) :=
  if image.policyvers ≥ policydbVersionAvtab then writeTypeMaps p (List.range p.pTypes.nprim.toNat) else .ok []

def PolicyImage.withAttrs (image : PolicyImage) (records : List EbitmapRecord) : PolicyImage :=
  { image with typeAttr := fun i => records.getD i ⟨0, []⟩ }

/-- The maps of a policy that is written and read again. The other parts stay as they are. -/
def rereadTypeMaps (image : PolicyImage) (p : Policydb) : Exec (Option Policydb) := do
  let records ← writtenAttrs image p
  let nprim := p.pTypes.nprim.toNat
  readTypeMaps (PolicyImage.withAttrs image records) (List.range nprim)
    { p with typeAttrMap := .calloc nprim .empty, attrTypeMap := .calloc nprim .empty }

section Form
variable {image : PolicyImage} {p : Policydb} {relation : Nat → Nat → Prop} {owned : Nat → Prop}

/-- A policy before the version of the access vector table has no attributes. -/
def Unmapped (image : PolicyImage) (relation : Nat → Nat → Prop) : Prop :=
  ¬ image.policyvers ≥ policydbVersionAvtab → ∀ i k, ¬ relation i k

theorem readTypeMaps_calloc (accepts : ∀ i < p.pTypes.nprim.toNat, AcceptsType image p i) :
    ∃ typeAttrMap attrTypeMap,
    readTypeMaps image (List.range p.pTypes.nprim.toNat) { p with
      typeAttrMap := .calloc p.pTypes.nprim.toNat .empty
      attrTypeMap := .calloc p.pTypes.nprim.toNat .empty } = .ok (some { p with typeAttrMap, attrTypeMap }) ∧
    MapsOf { p with typeAttrMap, attrTypeMap } (fun i k => i < p.pTypes.nprim.toNat ∧ k ≠ i ∧ ReadsAttr image i k)
      (Regular p) := by
  let zero : HeapArray Ebitmap := .calloc p.pTypes.nprim.toNat .empty
  obtain ⟨typeAttrMap, attrTypeMap, read, rows, columns⟩ := readTypeMaps_rows
    (fun i member => (accepts i (List.mem_range.mp member)).withMaps zero zero) (fun i => List.mem_range.mp)
      (Rows.calloc _) (Rows.calloc _)
  refine ⟨typeAttrMap, attrTypeMap, read, rows.congr ?_, columns.congr ?_, ?_⟩
  · intro i (below : i < p.pTypes.nprim.toNat) k
    rw [if_pos (List.mem_range.mpr below)]
    tauto
  · intro j (below : j < p.pTypes.nprim.toNat) k
    rw [List.mem_range, false_or]
    split
    next same =>
      subst same
      exact and_iff_right below
    next other => exact and_congr_right fun _ => (and_iff_right (Ne.symm other)).symm
  · rintro i k ⟨below, other, reads⟩
    exact ⟨below, (accepts i below).inside k reads other⟩

theorem loaded_maps (read : policydbRead image = .ok (some p)) : ∃ relation, MapsOf p relation (Regular p) ∧
    Unmapped image relation ∧
    p.pTypes.nprim.toNat ≤ Ebitmap.maxBit + 1 ∧ ∀ i < p.pTypes.nprim.toNat, ∃ type,
      typeStruct p i = .ok type := by
  obtain ⟨_, indexed, _, _, _, maps⟩ := policydbRead_stages read
  have accepts (i : Nat) (below : i < indexed.pTypes.nprim.toNat) : AcceptsType image indexed i :=
    (readTypeMaps_accepts range_small maps i (List.mem_range.mpr below)).withMaps indexed.typeAttrMap
      indexed.attrTypeMap
  obtain ⟨typeAttrMap, attrTypeMap, again, form⟩ := readTypeMaps_calloc accepts
  rw [maps] at again
  cases again
  refine ⟨_, form, ?_, (loaded_consistent ⟨image, read⟩).2.2, fun i below => (accepts i below).struct⟩
  rintro old i k ⟨_, _, attrs, attrsRead, holds⟩
  rw [readAttrs, if_neg old] at attrsRead
  cases attrsRead
  exact Ebitmap.not_holds_empty k holds

theorem writeTypeMaps_ok {n : Nat} {holds : Nat → Nat → Prop} (rows : Rows p.typeAttrMap n holds) {is : List Nat}
    (below : ∀ i ∈ is, i < n) :
    writeTypeMaps p is = .ok (is.map fun i => ebitmapWrite ((p.typeAttrMap i).getD .empty)) := by
  induction is with
  | nil => rfl
  | cons i rest ih =>
    obtain ⟨inside, below⟩ := List.forall_mem_cons.mp below
    obtain ⟨bits, loaded, _⟩ := rows.row i inside
    rw [writeTypeMaps, HeapArray.load, loaded, Exec.ok_bind, ih below, List.map_cons, loaded]
    rfl

/-- Written and read again, the maps stand for the same relation, with every type among its own. -/
theorem MapsOf.reread (maps : MapsOf p relation owned) (unmapped : Unmapped image relation)
    (room : p.pTypes.nprim.toNat ≤ Ebitmap.maxBit + 1)
    (structs : ∀ i < p.pTypes.nprim.toNat, ∃ type, typeStruct p i = .ok type) :
    ∃ attrTypeMap, rereadTypeMaps image p = .ok (some { p with attrTypeMap }) ∧
      MapsOf { p with attrTypeMap } relation (Regular p) := by
  obtain ⟨records, written, reads⟩ : ∃ records, writtenAttrs image p = .ok records ∧
      ∀ i < p.pTypes.nprim.toNat, ∃ bits, readAttrs (PolicyImage.withAttrs image records) i = some bits ∧
        ∀ k, k ≠ i → (bits.Holds k ↔ relation i k) := by
    by_cases versions : image.policyvers ≥ policydbVersionAvtab
    · refine ⟨_, (if_pos versions).trans (writeTypeMaps_ok maps.rows fun i => List.mem_range.mp), ?_⟩
      intro i below
      obtain ⟨bits, loaded, formed, holds⟩ := maps.rows.row i below
      have record : ((List.range p.pTypes.nprim.toNat).map fun i => ebitmapWrite ((p.typeAttrMap i).getD .empty)).getD i
        ⟨0, []⟩ =
          ebitmapWrite bits := by
        rw [List.getD_eq_getElem?_getD, List.getElem?_map, List.getElem?_range below, Option.map_some,
          Option.getD_some, loaded, Option.getD_some]
      have reads := (congrArg ebitmapRead record).trans (ebitmapRead_write formed)
      exact ⟨bits, (if_pos versions).trans reads, fun k other => (holds k).trans (or_iff_right other)⟩
    · refine ⟨[], if_neg versions, ?_⟩
      intro i below
      refine ⟨.empty, if_neg versions, fun k _ => iff_of_false (Ebitmap.not_holds_empty k) (unmapped versions i k)⟩
  have holds {i k : Nat} (below : i < p.pTypes.nprim.toNat) (other : k ≠ i) :
      ReadsAttr (PolicyImage.withAttrs image records) i k ↔ relation i k := by
    obtain ⟨bits, bitsRead, spec⟩ := reads i below
    rw [← spec k other]
    constructor
    · rintro ⟨_, again, held⟩
      rw [bitsRead] at again
      cases again
      exact held
    · exact fun held => ⟨bits, bitsRead, held⟩
  have accepts (i : Nat) (below : i < p.pTypes.nprim.toNat) :
      AcceptsType (PolicyImage.withAttrs image records) p i := by
    refine ⟨by omega, (reads i below).imp fun _ bits => bits.1, ?_, structs i below⟩
    intro k read other
    exact (maps.inside i k ((holds below other).mp read)).2
  obtain ⟨typeAttrMap, attrTypeMap, read, form⟩ := readTypeMaps_calloc accepts
  have same {i k : Nat} : (i < p.pTypes.nprim.toNat ∧ k ≠ i ∧
      ReadsAttr (PolicyImage.withAttrs image records) i k) ↔ k ≠ i ∧ relation i k := by
    constructor
    · rintro ⟨below, other, read⟩
      exact ⟨other, (holds below other).mp read⟩
    · rintro ⟨other, related⟩
      have below := (maps.inside i k related).1
      exact ⟨below, other, (holds below other).mpr related⟩
  have rows : typeAttrMap = p.typeAttrMap := by
    refine form.rows.ext (maps.rows.congr ?_)
    intro i _ k
    rw [same]
    tauto
  subst rows
  refine ⟨attrTypeMap, ?_, maps.rows, form.columns.congr ?_, maps.inside⟩
  · exact Exec.bind_eq_ok.mpr ⟨records, written, read⟩
  · intro j _ k
    rw [same]
    split
    next => rfl
    next other => exact and_iff_right (Ne.symm other)

theorem MapsOf.reread_self (maps : MapsOf p relation (Regular p)) (unmapped : Unmapped image relation)
    (room : p.pTypes.nprim.toNat ≤ Ebitmap.maxBit + 1)
    (structs : ∀ i < p.pTypes.nprim.toNat, ∃ type, typeStruct p i = .ok type) :
    rereadTypeMaps image p = .ok (some p) := by
  obtain ⟨attrTypeMap, reread, again⟩ := maps.reread unmapped room structs
  have same : attrTypeMap = p.attrTypeMap := again.columns.ext maps.columns
  rw [reread, same]

end Form
end Bxxt.Proofs
