import Bxxt.Proofs.AttributeMaps
import Bxxt.Proofs.StatementRuns

/-! Creation gives the two attribute maps a row and a column for the new type. What it stores
there is one relation in both directions, but the type is left out of its own column, where a
read of the written policy would put it. -/

namespace Bxxt.Proofs
open Bxxt ByteLayout

/-- The form that the maps are meant to have: each stores the other's relation the other way round,
and every type is an attribute of its own. -/
structure MapsLinked (p : Policydb) : Prop where
  rows : ∀ i, i < p.pTypes.nprim.toNat ↔ ∃ attrs, p.typeAttrMap i = some attrs ∧ attrs.WellFormed
  columns : ∀ i, i < p.pTypes.nprim.toNat ↔ ∃ types, p.attrTypeMap i = some types ∧ types.WellFormed
  transposed : ∀ {i j attrs types}, i ≠ j → p.typeAttrMap i = some attrs → p.attrTypeMap j = some types →
    (attrs.Holds j ↔ types.Holds i)
  own : ∀ {i attrs}, p.typeAttrMap i = some attrs → attrs.Holds i

structure MapsInForm (p : Policydb) : Prop extends MapsLinked p where
  ownTypes : ∀ {i type types}, TypeAt p i type → type.flavor ≠ typeAttrib →
    p.attrTypeMap i = some types → types.Holds i

section Linked
variable {p : Policydb} {relation : Nat → Nat → Prop} {owned : Nat → Prop}

theorem MapsOf.linked (maps : MapsOf p relation owned) : MapsLinked p := by
  constructor
  case rows => exact maps.rows.isSome
  case columns => exact maps.columns.isSome
  case transposed =>
    intro i j attrs types other row column
    rw [(maps.rows.of_some row).2, (maps.columns.of_some column).2, if_neg other, or_iff_right (Ne.symm other)]
  case own =>
    intro i attrs row
    exact ((maps.rows.of_some row).2 i).mpr (Or.inl rfl)

theorem MapsOf.own_iff (maps : MapsOf p relation owned) {i : Nat} {types : Ebitmap}
    (column : p.attrTypeMap i = some types) :
    types.Holds i ↔ owned i := by
  rw [(maps.columns.of_some column).2, if_pos rfl]

theorem regular_of_typeAt (consistent : Consistent p) {i : Nat} {type : TypeDatum} (isType : TypeAt p i type)
    (noAttribute : type.flavor ≠ typeAttrib) : Regular p i :=
  ⟨type, (typeStruct_iff consistent.typeValues consistent.typeArray).mpr isType, noAttribute⟩

theorem regular_inside (consistent : Consistent p) {i : Nat} (regular : Regular p i) : i < p.pTypes.nprim.toNat := by
  obtain ⟨type, struct, _⟩ := regular
  obtain ⟨key, found, primary, value⟩ := (typeStruct_iff consistent.typeValues consistent.typeArray).mp struct
  have := UInt32.le_iff_toNat_le.mp (consistent.typeValues.range found (listedType_eq_some.mpr ⟨primary, rfl⟩)).2
  omega

theorem MapsOf.inForm (maps : MapsOf p relation (Regular p)) (consistent : Consistent p) : MapsInForm p where
  toMapsLinked := maps.linked
  ownTypes isType noAttribute column := (maps.own_iff column).mpr (regular_of_typeAt consistent isType noAttribute)

end Linked

section Grow
variable {map : HeapArray Ebitmap} {n : Nat} {holds : Nat → Nat → Prop}

theorem Rows.grow (rows : Rows map n holds) {bits : Ebitmap} (formed : bits.WellFormed) :
    Rows (Function.update (map.realloc (n + 1)) n (some bits)) (n + 1) fun j k => if j = n then bits.Holds k
      else holds j k := by
  constructor
  case row =>
    intro j inside
    by_cases last : j = n
    · subst last
      exact ⟨bits, Function.update_self .., formed, fun k => by rw [if_pos rfl]⟩
    · rw [Function.update_of_ne last, HeapArray.realloc, if_pos inside]
      simp only [if_neg last]
      exact rows.row j (by omega)
  case beyond =>
    intro j above
    rw [Function.update_of_ne (by omega), HeapArray.realloc, if_neg (by omega)]

variable {p q : Policydb} {domain : CString} {relation : Nat → Nat → Prop} {owned : Nat → Prop}

/-- The new row and the new column are those of a type without attributes and members. -/
theorem MapsOf.created (maps : MapsOf p relation owned) (inside : ∀ i, owned i → i < p.pTypes.nprim.toNat)
    (room : p.pTypes.nprim.toNat ≤ Ebitmap.maxBit) {scope : Hashtab CString ScopeDatum} {declared : Ebitmap}
    {roleValToStruct typeValToStruct : HeapArray (Option CString)} {pRoles : Symtab RoleDatum} :
    MapsOf { withType p domain scope declared with roleValToStruct, typeValToStruct, pRoles } relation owned := by
  obtain ⟨next, slot⟩ := value_toNat room
  obtain ⟨own, set, formed, ownHolds⟩ := @Ebitmap.setBit_spec _ .empty (p.pTypes.nprim + 1 - 1)
    (by rw [slot]; exact room) true
  have rows := maps.rows.grow formed
  have columns := maps.columns.grow .empty
  constructor
  case rows =>
    change Rows (Function.update (p.typeAttrMap.realloc (p.pTypes.nprim + 1).toNat) (p.pTypes.nprim + 1 - 1).toNat
      (some (ebitmapSetBit .empty (p.pTypes.nprim + 1 - 1) true).2)) (p.pTypes.nprim + 1).toNat _
    rw [set, next, slot]
    refine rows.congr ?_
    intro i _ k
    split
    next last =>
      have unrelated : ¬ relation i k := fun related => absurd (maps.inside i k related).1 (by omega)
      rw [ownHolds, slot, last, or_iff_left (last ▸ unrelated)]
      simp [Ebitmap.not_holds_empty]
    next => rfl
  case columns =>
    change Rows (Function.update (p.attrTypeMap.realloc (p.pTypes.nprim + 1).toNat)
      (p.pTypes.nprim + 1 - 1).toNat (some .empty))
      (p.pTypes.nprim + 1).toNat _
    rw [next, slot]
    refine columns.congr ?_
    intro j _ k
    split
    next last =>
      refine iff_of_false (Ebitmap.not_holds_empty k) ?_
      split
      next => exact fun isOwned => absurd (inside j isOwned) (by omega)
      next => exact fun related => absurd (maps.inside k j related).2 (by omega)
    next => rfl
  case inside =>
    intro i k related
    change i < (p.pTypes.nprim + 1).toNat ∧ k < (p.pTypes.nprim + 1).toNat
    obtain ⟨row, column⟩ := maps.inside i k related
    omega

/-- Whatever comes of the creation of a new type, the maps are not those of a read. -/
theorem create_breaks (formed : p.pTypes.table.WellFormed) (maps : MapsOf p relation owned)
    (room : p.pTypes.nprim.toNat ≤ Ebitmap.maxBit + 1) (fresh : hashtabSearch p.pTypes.table domain = none) {r : Int}
    (run : bxxtSepolCreateDomain p domain = .ok (r, q)) : ¬ MapsInForm q := by
  have next : (p.pTypes.nprim + 1).toNat = p.pTypes.nprim.toNat + 1 := by
    rw [Ebitmap.maxBit, mapsize] at room
    rw [UInt32.toNat_add, UInt32.toNat_one]
    omega
  intro form
  obtain ⟨_, rfl, types, scope, declared, _, counted, rfl⟩ | ⟨_, declares, rfl, _, _, _, rfl⟩ :=
    create_parts formed fresh run
  · -- the type is counted, but it has no row
    have below : p.pTypes.nprim.toNat < types.nprim.toNat := by
      rw [counted, next]
      exact Nat.lt_succ_self _
    obtain ⟨attrs, row, _⟩ := (form.rows p.pTypes.nprim.toNat).mp below
    exact absurd (maps.rows.of_some row).1 (Nat.lt_irrefl _)
  · have slot : (p.pTypes.nprim + 1 - 1).toNat = p.pTypes.nprim.toNat := by rw [UInt32.add_sub_cancel]
    have created := (createdTable formed fresh).2 domain
    rw [if_pos rfl] at created
    refine Ebitmap.not_holds_empty p.pTypes.nprim.toNat
      (form.ownTypes ⟨domain, created, (by decide : (1 : UInt32) ≠ 0), next⟩
      (by decide : typeType ≠ typeAttrib) ?_)
    change Function.update (p.attrTypeMap.realloc (p.pTypes.nprim + 1).toNat)
      (p.pTypes.nprim + 1 - 1).toNat (some Ebitmap.empty) _ = _
    rw [slot, Function.update_self]

end Grow

section Creates
variable {image : PolicyImage} {p : Policydb} {relation : Nat → Nat → Prop} {owned : Nat → Prop}

theorem create_known {domain : CString} {type : TypeDatum} (known : hashtabSearch p.pTypes.table domain = some type) :
    bxxtSepolCreateDomain p domain = .ok (asInt type.value.toNat, p) := by
  rw [bxxtSepolCreateDomain, known]

theorem createDomains_known {domains : List CString}
    (known : ∀ domain ∈ domains, hashtabSearch p.pTypes.table domain ≠ none) :
    createDomains p domains = .ok p := by
  induction domains with
  | nil => rfl
  | cons domain rest ih =>
    obtain ⟨first, known⟩ := List.forall_mem_cons.mp known
    obtain ⟨type, found⟩ := Option.ne_none_iff_exists'.mp first
    rw [createDomains, create_known found]
    exact ih known

/-- The first name that is new puts an end to the form, whatever comes behind it. -/
theorem known_of_kept (formed : p.pTypes.table.WellFormed) (maps : MapsOf p relation owned)
    (room : p.pTypes.nprim.toNat ≤ Ebitmap.maxBit + 1) {domains : List CString}
    (kept : ∀ before, before <+: domains → ∃ q, createDomains p before = .ok q ∧ MapsInForm q) :
    ∀ domain ∈ domains, hashtabSearch p.pTypes.table domain ≠ none := by
  induction domains with
  | nil => simp
  | cons domain rest ih =>
    have known : hashtabSearch p.pTypes.table domain ≠ none := by
      intro fresh
      obtain ⟨q, run, form⟩ := kept [domain] (by simp)
      obtain ⟨⟨r, created⟩, run, done⟩ := Exec.bind_eq_ok.mp run
      cases done
      exact create_breaks formed maps room fresh run form
    obtain ⟨type, found⟩ := Option.ne_none_iff_exists'.mp known
    refine List.forall_mem_cons.mpr ⟨known, ih ?_⟩
    intro before isPrefix
    obtain ⟨q, run, form⟩ := kept (domain :: before) (List.cons_prefix_cons.mpr ⟨rfl, isPrefix⟩)
    rw [createDomains, create_known found] at run
    exact ⟨q, run, form⟩

/-- What a run of creations leaves: the same relation between more types, where no value of an old
type went to another one. -/
structure CreatedMaps (p q : Policydb) (relation : Nat → Nat → Prop) (owned : Nat → Prop) : Prop where
  maps : MapsOf q relation owned
  grown : p.pTypes.nprim.toNat ≤ q.pTypes.nprim.toNat
  old : ∀ {i type}, TypeAt q i type → i < p.pTypes.nprim.toNat → TypeAt p i type

theorem createDomains_maps {domains : List CString} (growing : Growing p (newNames p domains).card)
    (maps : MapsOf p relation owned) (inside : ∀ i, owned i → i < p.pTypes.nprim.toNat) :
    ∃ q, createDomains p domains = .ok q ∧ CreatedMaps p q relation owned := by
  induction domains generalizing p with
  | nil => exact ⟨p, rfl, maps, le_rfl, fun isType _ => isType⟩
  | cons domain rest ih =>
    obtain ⟨r, between, run, step, later⟩ := create_step growing
    cases found : hashtabSearch p.pTypes.table domain with
    | some type =>
      obtain ⟨_, rfl⟩ := step.known type found
      obtain ⟨q, runs, after⟩ := ih later maps inside
      exact ⟨q, Exec.bind_eq_ok.mpr ⟨(r, between), run, runs⟩, after⟩
    | none =>
      obtain ⟨_, created⟩ := step.fresh found
      have room : p.pTypes.nprim.toNat ≤ Ebitmap.maxBit := by
        have more := @newNames_created _ _ _ rest found created
        have := growing.room
        omega
      have tables := growing.consistent.toTables
      have next := (value_toNat room).1
      have counted := congrArg UInt32.toNat created.nprim
      obtain ⟨_, _, _, _, _, _, _, _, shape⟩ :=
        create_lands tables.types tables.scope (tables.unscoped found) tables.declared room found run
      have grown : MapsOf between relation owned := shape ▸ maps.created inside room
      obtain ⟨q, runs, after⟩ := ih later grown fun i isOwned => by
        have := inside i isOwned
        omega
      refine ⟨q, Exec.bind_eq_ok.mpr ⟨(r, between), run, runs⟩, after.maps, ?_, ?_⟩
      · have := after.grown
        omega
      · intro i type isType below
        rcases (typeAt_created found room created.types).mp (after.old isType (by omega)) with ⟨new, _⟩ | old
        · omega
        · exact old

/-- Creation keeps the maps as a read leaves them only where it creates nothing. What it
breaks is that a new type is missing in its own column. -/
theorem creates_keep_maps_iff (read : policydbRead image = .ok (some p)) (domains : List CString) :
    ((∀ before, before <+: domains →
        ∃ q, createDomains p before = .ok q ∧ MapsInForm q ∧ rereadTypeMaps image q = .ok (some q)) ↔
      ∀ domain ∈ domains, hashtabSearch p.pTypes.table domain ≠ none) ∧
    (NoGaps p → ((newNames p domains).card = 0 ∨ p.pRoles.nprim ≠ 0) →
      p.pTypes.nprim.toNat + (newNames p domains).card ≤ Ebitmap.maxBit + 1 →
      ∃ q, createDomains p domains = .ok q ∧ MapsLinked q ∧
        ∀ i type types, TypeAt q i type → type.flavor ≠ typeAttrib → q.attrTypeMap i = some types →
          (types.Holds i ↔ i < p.pTypes.nprim.toNat)) := by
  obtain ⟨relation, maps, unmapped, room, structs⟩ := loaded_maps read
  obtain ⟨consistent, attributes, _⟩ := loaded_consistent ⟨image, read⟩
  refine ⟨⟨?_, ?_⟩, ?_⟩
  · intro kept
    refine known_of_kept consistent.types maps room fun before isPrefix => ?_
    obtain ⟨q, run, form, _⟩ := kept before isPrefix
    exact ⟨q, run, form⟩
  · intro known before isPrefix
    have unchanged := createDomains_known fun domain member => known domain (isPrefix.subset member)
    exact ⟨p, unchanged, maps.inForm consistent, maps.reread_self unmapped room structs⟩
  · intro full counted fits
    have inside (i : Nat) : Regular p i → i < p.pTypes.nprim.toNat := regular_inside consistent
    obtain ⟨q, runs, after⟩ := createDomains_maps ⟨consistent, attributes, full, counted, fits⟩ maps inside
    refine ⟨q, runs, after.maps.linked, ?_⟩
    intro i type types isType noAttribute column
    rw [after.maps.own_iff column]
    exact ⟨inside i, fun below => regular_of_typeAt consistent (after.old isType below) noAttribute⟩

section Files

def hasTypes (domains : List CString) (p : Policydb) : Bool :=
  domains.all fun domain => (hashtabSearch p.pTypes.table domain).isSome

theorem known_creates_keep_maps : ∃ p q, policydbRead fileImage = .ok (some p) ∧
    createDomains p [ascii "kernel", ascii "init"] = .ok q ∧ MapsInForm q ∧
      rereadTypeMaps fileImage q = .ok (some q) := by
  obtain ⟨p, read, tested⟩ := @read_of_readsTo fileImage (hasTypes [ascii "kernel", ascii "init"])
    (by decide +kernel)
  have known : ∀ domain ∈ [ascii "kernel", ascii "init"], hashtabSearch p.pTypes.table domain ≠ none := by
    intro domain member
    exact Option.isSome_iff_ne_none.mp (List.all_eq_true.mp tested domain member)
  obtain ⟨q, run, form⟩ := (creates_keep_maps_iff read _).1.mpr known _ List.prefix_rfl
  exact ⟨p, q, read, run, form⟩

theorem new_type_misses_itself : ∃ p q r, policydbRead fileImage = .ok (some p) ∧
    bxxtSepolCreateDomain p (ascii "bxxt") = .ok (r, q) ∧ ¬ MapsInForm q := by
  obtain ⟨p, read, tested⟩ := @read_of_readsTo fileImage (fun p =>
      (hashtabSearch p.pTypes.table (ascii "bxxt")).isNone &&
        passes (bxxtSepolCreateDomain p (ascii "bxxt")) fun _ => true)
    (by decide +kernel)
  simp only [Bool.and_eq_true, Option.isNone_iff_eq_none, passes_iff] at tested
  obtain ⟨fresh, ⟨r, q⟩, run, _⟩ := tested
  obtain ⟨_, maps, _, room, _⟩ := loaded_maps read
  exact ⟨p, q, r, read, run, create_breaks (loaded_consistent ⟨fileImage, read⟩).1.types maps room fresh run⟩

end Files
end Creates
end Bxxt.Proofs
