import Bxxt.Sepol
import Bxxt.Proofs.PolicyLoad
import Mathlib.Data.Finset.Card

/-! The creation of a type touches its symbol table, the scopes, the declarations, both
attribute maps, every role and every array. A policy stays consistent all the same, as long
as there is a value left and a pointer for every role. -/

namespace Bxxt.Proofs
open Bxxt ByteLayout

/-- Every value of a role belongs to one. -/
def NoGaps (p : Policydb) : Prop :=
  ∀ i < p.pRoles.nprim.toNat, ∃ key role, hashtabSearch p.pRoles.table key = some role ∧ role.value.toNat = i + 1

/-- The next value of a type is a position of a bitmap, and the roles are counted. -/
structure Room (p : Policydb) : Prop where
  value : p.pTypes.nprim.toNat ≤ Ebitmap.maxBit
  roles : p.pRoles.nprim ≠ 0

def createdType (p : Policydb) : TypeDatum := { newType with value := p.pTypes.nprim + 1 }

structure Created (p q : Policydb) (domain : CString) : Prop where
  consistent : Consistent q
  attributes : SelfAttributes q
  nprim : q.pTypes.nprim = p.pTypes.nprim + 1
  types : ∀ key, hashtabSearch q.pTypes.table key = if key = domain then some (createdType p)
    else hashtabSearch p.pTypes.table key
  roles : q.pRoles.nprim = p.pRoles.nprim
  granted : ∀ key, (hashtabSearch p.pRoles.table key = none ∧ hashtabSearch q.pRoles.table key = none) ∨
    ∃ old role, hashtabSearch p.pRoles.table key = some old ∧ hashtabSearch q.pRoles.table key = some role ∧
      role.value = old.value ∧ (∀ i, role.types.types.Holds i ↔ i = p.pTypes.nprim.toNat ∨
        old.types.types.Holds i) ∧
      ∀ i, role.cache.Holds i ↔ i = p.pTypes.nprim.toNat ∨ old.cache.Holds i
  classes : q.pClasses = p.pClasses
  rules : q.teAvtab = p.teAvtab
  condRules : q.teCondAvtab = p.teCondAvtab
  permissive : q.permissiveMap = p.permissiveMap
  attrs : ∀ i < p.pTypes.nprim.toNat, q.typeAttrMap i = p.typeAttrMap i

section Pieces
variable {p : Policydb} {domain : CString}

theorem value_toNat (room : p.pTypes.nprim.toNat ≤ Ebitmap.maxBit) :
    (p.pTypes.nprim + 1).toNat = p.pTypes.nprim.toNat + 1 ∧ (p.pTypes.nprim + 1 - 1).toNat =
      p.pTypes.nprim.toNat := by
  rw [Ebitmap.maxBit, mapsize] at room
  constructor
  · rw [UInt32.toNat_add, UInt32.toNat_one]
    omega
  · rw [UInt32.add_sub_cancel]

theorem insertScope_fresh {scopes : Hashtab CString ScopeDatum} (formed : scopes.WellFormed)
    (fresh : hashtabSearch scopes domain = none) : ∃ after, insertScope scopes domain scopeDecl 1 = (0, after) ∧
      after.WellFormed ∧ ∀ other, other ≠ domain → hashtabSearch after other = hashtabSearch scopes other := by
  have linked : (scopes.linked domain ⟨scopeDecl, []⟩).WellFormed := Hashtab.linked_wellFormed formed fresh
  refine ⟨(scopes.linked domain ⟨scopeDecl, []⟩).store domain fun datum => { datum with declIds := [1] }, ?_,
    Hashtab.store_wellFormed linked _, ?_⟩
  · rw [insertScope, fresh]
    dsimp only
    rw [Hashtab.insert_fresh fresh]
    rfl
  · intro other away
    rw [Hashtab.search_store linked, if_neg away, Hashtab.search_linked formed fresh, if_neg away]

theorem symtabInsert_fresh (tables : Tables p) (fresh : hashtabSearch p.pTypes.table domain = none) : ∃ scope,
    symtabInsert p domain newType scopeDecl 1 0 = (0, p.pTypes.nprim + 1,
      { p with pTypes := ⟨p.pTypes.table.linked domain newType, p.pTypes.nprim + 1⟩, scope }) ∧
    scope.WellFormed ∧ ∀ other, other ≠ domain → hashtabSearch scope other = hashtabSearch p.scope other := by
  obtain ⟨scope, inserted, formed, search⟩ := insertScope_fresh tables.scope (tables.unscoped fresh)
  refine ⟨scope, ?_, formed, search⟩
  rw [symtabInsert, Hashtab.insert_fresh fresh]
  dsimp only
  rw [if_pos rfl, inserted]

/-- The roles are visited through pointers that lead to all of them. -/
theorem grantRoles_ok (consistent : Consistent p) (full : NoGaps p) (counted : p.pRoles.nprim ≠ 0) {pdb : Policydb}
    (array : pdb.roleValToStruct = p.roleValToStruct) (value : UInt32) : ∃ table,
    grantRoles value pdb (List.range p.pRoles.nprim.toNat) p.pRoles.table = .ok table ∧ table.WellFormed ∧
      ∀ key, hashtabSearch table key = (hashtabSearch p.pRoles.table key).map (grantType value) := by
  obtain ⟨names, shape, leads⟩ := consistent.roleArray counted
  have values := consistent.roleValues counted
  have slot {key : CString} {role : RoleDatum} (found : hashtabSearch p.pRoles.table key = some role) :
      names (role.value.toNat - 1) = some key := (leads _ _).mpr ⟨role, role.value, found, rfl, rfl⟩
  have named {i : Nat} (below : i < p.pRoles.nprim.toNat) : ∃ key role, names i = some key ∧
      hashtabSearch p.pRoles.table key = some role ∧ role.value.toNat = i + 1 := by
    obtain ⟨key, role, found, known⟩ := full i below
    refine ⟨key, role, ?_, found, known⟩
    rw [← slot found, known]
    rfl
  let name (i : Nat) : CString := (names i).getD objectR
  have walk (is : List Nat) (inside : ∀ i ∈ is, i < p.pRoles.nprim.toNat) (table : Hashtab CString RoleDatum) :
      grantRoles value pdb is table = .ok (table.storeAll (is.map name) fun _ => grantType value) := by
    induction is generalizing table with
    | nil => rfl
    | cons i rest ih =>
      obtain ⟨below, inside⟩ := List.forall_mem_cons.mp inside
      obtain ⟨key, _, leadsTo, _⟩ := named below
      have same : name i = key := by simp only [name, leadsTo, Option.getD_some]
      rw [grantRoles, HeapArray.load, array, shape, valToStruct, if_pos below, leadsTo, List.map_cons, same]
      exact ih inside _
  have keys (key : CString) : key ∈ (List.range p.pRoles.nprim.toNat).map name ↔
      hashtabSearch p.pRoles.table key ≠ none := by
    rw [List.mem_map]
    constructor
    · rintro ⟨i, member, rfl⟩
      obtain ⟨key, role, leadsTo, found, _⟩ := named (List.mem_range.mp member)
      simp only [name, leadsTo, Option.getD_some, found]
      simp
    · intro present
      obtain ⟨role, found⟩ := Option.ne_none_iff_exists'.mp present
      obtain ⟨positive, inside⟩ := values.range found rfl
      have nonzero : role.value.toNat ≠ 0 := fun zero => positive (UInt32.toNat_inj.mp zero)
      have := UInt32.le_iff_toNat_le.mp inside
      refine ⟨role.value.toNat - 1, List.mem_range.mpr (by omega), ?_⟩
      simp only [name, slot found, Option.getD_some]
  have distinct : ((List.range p.pRoles.nprim.toNat).map name).Nodup := by
    apply List.Nodup.map_on _ List.nodup_range
    intro i inRange j inRange' same
    obtain ⟨key, role, leadsTo, found, known⟩ := named (List.mem_range.mp inRange)
    obtain ⟨key', role', leadsTo', found', known'⟩ := named (List.mem_range.mp inRange')
    simp only [name, leadsTo, leadsTo', Option.getD_some] at same
    subst same
    rw [found] at found'
    cases found'
    omega
  refine ⟨_, walk _ (fun i member => List.mem_range.mp member) _,
    Hashtab.storeAll_wellFormed consistent.roles _ _, ?_⟩
  intro key
  rw [Hashtab.search_storeAll consistent.roles distinct]
  split
  next => rfl
  next absent =>
    rw [keys, not_not] at absent
    rw [absent]
    rfl

theorem setBit_empty_false {bit : UInt32} (room : bit.toNat ≤ Ebitmap.maxBit) :
    (ebitmapSetBit .empty bit false).2 = .empty := by
  rw [ebitmapSetBit, if_neg]
  · rfl
  · rw [Ebitmap.maxBit, mapsize] at room
    rw [mapsize]
    omega

theorem grantType_spec {role : RoleDatum} (kernel : KernelSet role.types) {value : UInt32}
    (room : (value - 1).toNat ≤ Ebitmap.maxBit) : KernelSet (grantType value role).types ∧
      ∀ i, (grantType value role).types.types.Holds i ↔ i = (value - 1).toNat ∨ role.types.types.Holds i := by
  obtain ⟨after, set, formed, holds⟩ := Ebitmap.setBit_spec kernel.formed room true
  rw [grantType]
  dsimp only
  rw [set, kernel.negset, setBit_empty_false room]
  refine ⟨⟨formed, rfl, kernel.flags⟩, ?_⟩
  intro i
  rw [holds]
  split
  next same => simp [same]
  next other => simp [other]

theorem createdTable (formed : p.pTypes.table.WellFormed) (fresh : hashtabSearch p.pTypes.table domain = none) :
    ((p.pTypes.table.linked domain newType).store domain fun td =>
      { td with value := p.pTypes.nprim + 1 }).WellFormed ∧
      ∀ key, hashtabSearch ((p.pTypes.table.linked domain newType).store domain fun td =>
        { td with value := p.pTypes.nprim + 1 }) key =
        if key = domain then some (createdType p) else hashtabSearch p.pTypes.table key := by
  have linked : (p.pTypes.table.linked domain newType).WellFormed := Hashtab.linked_wellFormed formed fresh
  refine ⟨Hashtab.store_wellFormed linked _, ?_⟩
  intro key
  rw [Hashtab.search_store linked, Hashtab.search_linked formed fresh]
  split <;> rfl

variable {q : Policydb}

theorem createdValues (consistent : Consistent p) (room : p.pTypes.nprim.toNat ≤ Ebitmap.maxBit)
    (types : ∀ key, hashtabSearch q.pTypes.table key = if key = domain then some (createdType p)
      else hashtabSearch p.pTypes.table key)
    (nprim : q.pTypes.nprim = p.pTypes.nprim + 1) : Indexable q.pTypes.table listedType q.pTypes.nprim := by
  have next := (value_toNat room).1
  have old {key : CString} {type : TypeDatum} {value : UInt32} (found : hashtabSearch p.pTypes.table key = some type)
      (is : listedType type = some value) : value ≠ 0 ∧ value.toNat ≤ p.pTypes.nprim.toNat := by
    obtain ⟨positive, inside⟩ := consistent.typeValues.range found is
    exact ⟨positive, UInt32.le_iff_toNat_le.mp inside⟩
  have new {value : UInt32} (is : listedType (createdType p) = some value) : value = p.pTypes.nprim + 1 :=
    (listedType_eq_some.mp is).2.symm
  constructor
  case range =>
    intro key type value found is
    rw [types] at found
    rw [nprim, UInt32.le_iff_toNat_le, next]
    split at found
    next =>
      cases found
      rw [new is, next]
      refine ⟨?_, le_refl _⟩
      intro zero
      rw [zero, UInt32.toNat_zero] at next
      omega
    next =>
      obtain ⟨positive, inside⟩ := old found is
      exact ⟨positive, by omega⟩
  case unique =>
    intro key type value key' type' found is found' is'
    rw [types] at found found'
    split at found
    next same =>
      split at found'
      next same' => rw [same, same']
      next =>
        cases found
        have := (old found' is').2
        rw [new is, next] at this
        omega
    next =>
      split at found'
      next =>
        cases found'
        have := (old found is).2
        rw [new is', next] at this
        omega
      next => exact consistent.typeValues.unique found is found' is'

theorem typeAt_created (fresh : hashtabSearch p.pTypes.table domain = none)
    (room : p.pTypes.nprim.toNat ≤ Ebitmap.maxBit)
    (types : ∀ key, hashtabSearch q.pTypes.table key = if key = domain then some (createdType p)
      else hashtabSearch p.pTypes.table key)
    {i : Nat} {type : TypeDatum} :
    TypeAt q i type ↔ i = p.pTypes.nprim.toNat ∧ type = createdType p ∨ TypeAt p i type := by
  have next : (createdType p).value.toNat = p.pTypes.nprim.toNat + 1 := (value_toNat room).1
  constructor
  · rintro ⟨key, found, primary, value⟩
    rw [types] at found
    split at found
    next =>
      cases found
      exact Or.inl ⟨by omega, rfl⟩
    next => exact Or.inr ⟨key, found, primary, value⟩
  · rintro (⟨rfl, rfl⟩ | ⟨key, found, primary, value⟩)
    · exact ⟨domain, by rw [types, if_pos rfl], (by decide : (1 : UInt32) ≠ 0), next⟩
    · refine ⟨key, ?_, primary, value⟩
      rw [types, if_neg, found]
      rintro rfl
      rw [fresh] at found
      cases found

end Pieces

section Create
variable {p : Policydb} {domain : CString}

/-- Indexing succeeds when a type was created in consistent tables. -/
theorem indexOthers_created {pdb : Policydb} (consistent : Consistent p)
    (fresh : hashtabSearch p.pTypes.table domain = none) (room : Room p) (tables : Tables pdb)
    (nprim : pdb.pTypes.nprim = p.pTypes.nprim + 1)
    (types : ∀ key, hashtabSearch pdb.pTypes.table key = if key = domain then some (createdType p)
      else hashtabSearch p.pTypes.table key)
    (counted : pdb.pRoles.nprim = p.pRoles.nprim)
    (roles : ∀ key, hashtabSearch pdb.pRoles.table key = (hashtabSearch p.pRoles.table key).map
      (grantType (p.pTypes.nprim + 1)))
    (users : ∃ names, indexSymtab (userIndex pdb) pdb.pUsers = .ok (0, names))
    (bools : ∃ names, indexSymtab (condIndexBool pdb) pdb.pBools = .ok (0, names))
    (levels : ∃ names, indexSymtab (sensIndex pdb) pdb.pLevels = .ok (0, names))
    (cats : ∃ names, indexSymtab (catIndex pdb) pdb.pCats = .ok (0, names)) :
    ∃ roleNames typeNames table, policydbIndexOthers pdb =
        .ok (0, { indexed pdb roleNames typeNames with pRoles := { pdb.pRoles with table } }) ∧
      ∀ key, ∃ cache : RoleDatum → Ebitmap,
        hashtabSearch table key = (hashtabSearch pdb.pRoles.table key).map fun role =>
          { role with cache := cache role } := by
  have next := (value_toNat room.value).1
  have typeValues := createdValues consistent room.value types nprim
  have roleValues : Indexable pdb.pRoles.table listedRole pdb.pRoles.nprim :=
    counted ▸ (consistent.roleValues room.roles).map roles fun _ => rfl
  obtain ⟨typeNames, typesDone, typesLead⟩ := indexTable_ok tables.types (typeIndex_indexes pdb) typeValues
  obtain ⟨roleNames, rolesDone, rolesLead⟩ := indexTable_ok tables.roles (roleIndex_indexes pdb) roleValues
  have struct {i : Nat} {type : TypeDatum} : typeStruct (indexed pdb roleNames typeNames) i = .ok (some type) ↔
    TypeAt pdb i type :=
    typeStruct_iff (p := indexed pdb roleNames typeNames) typeValues ⟨typeNames, rfl, typesLead⟩
  have struct_old {i : Nat} {type : TypeDatum} : typeStruct p i = .ok (some type) ↔ TypeAt p i type :=
    typeStruct_iff consistent.typeValues consistent.typeArray
  have expands (key : CString) (role : RoleDatum) (found : hashtabSearch pdb.pRoles.table key = some role) :
      ∃ cache, typeSetExpand (indexed pdb roleNames typeNames) role.types true = .ok (0, cache) := by
    rw [roles, Option.map_eq_some_iff] at found
    obtain ⟨old, found, rfl⟩ := found
    have cached := consistent.cached found
    obtain ⟨kernel, holds⟩ := @grantType_spec old cached.kernel (p.pTypes.nprim + 1) (by
      rw [(value_toNat room.value).2]
      exact room.value)
    rw [(value_toNat room.value).2] at holds
    obtain ⟨cache, expanded, _⟩ := @typeSetExpand_ok (indexed pdb roleNames typeNames) _ kernel (by
      intro i member
      change i < pdb.pTypes.nprim.toNat ∧ _
      rw [nprim, next]
      rcases (holds i).mp member with rfl | before
      · exact ⟨by omega, createdType p, struct.mpr
          ((typeAt_created fresh room.value types).mpr (Or.inl ⟨rfl, rfl⟩)), rfl⟩
      · obtain ⟨below, type, known, noTypes⟩ := cached.inUse i before
        exact ⟨by omega, type, struct.mpr ((typeAt_created fresh room.value types).mpr
          (Or.inr (struct_old.mp known))), noTypes⟩)
    exact ⟨cache, expanded⟩
  obtain ⟨table, cachesDone, _, search⟩ := cacheRoles_ok tables.roles expands
  refine ⟨roleNames, typeNames, table, indexOthers_iff.mpr ⟨roleNames, typeNames, table, ?_, ?_, users, bools,
    levels, cats, cachesDone, rfl⟩, ?_⟩
  · rw [indexSymtab, if_neg (counted ▸ room.roles), rolesDone]
  · rw [indexSymtab, if_neg, typesDone]
    intro zero
    rw [← nprim, zero] at next
    rw [UInt32.toNat_zero] at next
    omega
  · exact fun key => ⟨fun role => cacheOf (indexed pdb roleNames typeNames) role.types, search key⟩

/-- The database with the new type, before the roles are told. -/
def withType (p : Policydb) (domain : CString) (scope : Hashtab CString ScopeDatum) (declared : Ebitmap) : Policydb :=
  let table := (p.pTypes.table.linked domain newType).store domain fun td => { td with value := p.pTypes.nprim + 1 }
  growTypeMaps { p with pTypes := ⟨table, p.pTypes.nprim + 1⟩, scope, declared } (p.pTypes.nprim + 1)

def withGrants (p : Policydb) (domain : CString) (scope : Hashtab CString ScopeDatum) (declared : Ebitmap)
    (table : Hashtab CString RoleDatum) : Policydb :=
  { withType p domain scope declared with pRoles := ⟨table, p.pRoles.nprim⟩ }

theorem withGrants_tables (tables : Tables p) (fresh : hashtabSearch p.pTypes.table domain = none)
    (room : p.pTypes.nprim.toNat ≤ Ebitmap.maxBit) {scope : Hashtab CString ScopeDatum}
    (scopeFormed : scope.WellFormed)
    (unscoped : ∀ other, other ≠ domain → hashtabSearch scope other = hashtabSearch p.scope other)
    {declared : Ebitmap} (declaredFormed : declared.WellFormed) {table : Hashtab CString RoleDatum}
    (rolesFormed : table.WellFormed)
    (roles : ∀ key, hashtabSearch table key = (hashtabSearch p.pRoles.table key).map
      (grantType (p.pTypes.nprim + 1))) :
    Tables (withGrants p domain scope declared table) := by
  obtain ⟨next, slot⟩ := value_toNat room
  obtain ⟨formed, types⟩ := createdTable tables.types fresh
  constructor
  case types => exact formed
  case noTypes =>
    intro zero
    change p.pTypes.nprim + 1 = 0 at zero
    rw [zero, UInt32.toNat_zero] at next
    omega
  case noMembers =>
    intro key type found
    have found := (types key).symm.trans found
    split at found
    next => cases found; rfl
    next => exact tables.noMembers found
  case roles => exact rolesFormed
  case kernelSets =>
    intro key role found
    have found := (roles key).symm.trans found
    obtain ⟨old, before, rfl⟩ := Option.map_eq_some_iff.mp found
    exact (grantType_spec (tables.kernelSets before) (by rw [slot]; exact room)).1
  case scope => exact scopeFormed
  case unscoped =>
    intro key absent
    have absent := (types key).symm.trans absent
    split at absent
    next => cases absent
    next other => exact (unscoped key other).trans (tables.unscoped absent)
  case declared => exact declaredFormed
  case permissive => exact tables.permissive
  case rules => exact tables.rules

/-- Old types keep their attributes, and the new type is an attribute of its own. -/
theorem withType_attributes (own : SelfAttributes p) (room : p.pTypes.nprim.toNat ≤ Ebitmap.maxBit)
    (scope : Hashtab CString ScopeDatum) (declared : Ebitmap) : SelfAttributes (withType p domain scope declared) ∧
      ∀ i < p.pTypes.nprim.toNat, (withType p domain scope declared).typeAttrMap i = p.typeAttrMap i := by
  obtain ⟨next, slot⟩ := value_toNat room
  have kept : ∀ i < p.pTypes.nprim.toNat, (withType p domain scope declared).typeAttrMap i = p.typeAttrMap i := by
    intro i below
    change Function.update (p.typeAttrMap.realloc (p.pTypes.nprim + 1).toNat) (p.pTypes.nprim + 1 - 1).toNat _ i = _
    rw [slot, Function.update_of_ne (by omega), HeapArray.realloc, next, if_pos (by omega)]
  refine ⟨?_, kept⟩
  intro i below
  change i < (p.pTypes.nprim + 1).toNat at below
  rw [next] at below
  by_cases last : i = p.pTypes.nprim.toNat
  · obtain ⟨attrs, set, formed, holds⟩ := @Ebitmap.setBit_spec _ .empty (p.pTypes.nprim + 1 - 1)
      (by rw [slot]; exact room) true
    refine ⟨attrs, ?_, formed, (holds i).mpr (by simp [last])⟩
    change Function.update (p.typeAttrMap.realloc (p.pTypes.nprim + 1).toNat) (p.pTypes.nprim + 1 - 1).toNat _ i = _
    rw [last, slot, Function.update_self, set]
  · rw [kept i (by omega)]
    exact own i (by omega)

/-- The cache of a role gets the new type and keeps the others. -/
theorem cache_created {q : Policydb} (before : Consistent p) (after : Consistent q)
    (room : p.pTypes.nprim.toNat ≤ Ebitmap.maxBit) (fresh : hashtabSearch p.pTypes.table domain = none)
    (types : ∀ key, hashtabSearch q.pTypes.table key = if key = domain then some (createdType p)
      else hashtabSearch p.pTypes.table key)
    {old role : RoleDatum} (cachedOld : CachedRole p old) (cached : CachedRole q role)
    (granted : ∀ i, role.types.types.Holds i ↔ i = p.pTypes.nprim.toNat ∨ old.types.types.Holds i) (i : Nat) :
    role.cache.Holds i ↔ i = p.pTypes.nprim.toNat ∨ old.cache.Holds i := by
  have regular : Regular q i ↔ i = p.pTypes.nprim.toNat ∨ Regular p i := by
    constructor
    · rintro ⟨type, struct, noAttribute⟩
      rcases (typeAt_created fresh room types).mp ((typeStruct_iff after.typeValues after.typeArray).mp struct)
        with ⟨new, _⟩ | earlier
      · exact Or.inl new
      · exact Or.inr ⟨type, (typeStruct_iff before.typeValues before.typeArray).mpr earlier, noAttribute⟩
    · intro known
      have struct {type : TypeDatum} (is : TypeAt q i type) := (typeStruct_iff after.typeValues after.typeArray).mpr is
      rcases known with new | ⟨type, earlier, noAttribute⟩
      · exact ⟨_, struct ((typeAt_created fresh room types).mpr (Or.inl ⟨new, rfl⟩)),
          (by decide : typeType ≠ typeAttrib)⟩
      · have earlier := (typeStruct_iff before.typeValues before.typeArray).mp earlier
        exact ⟨type, struct ((typeAt_created fresh room types).mpr (Or.inr earlier)), noAttribute⟩
  rw [cached.holds, granted, regular, cachedOld.holds]
  tauto

theorem create_fresh (consistent : Consistent p) (own : SelfAttributes p) (full : NoGaps p) (room : Room p)
    (fresh : hashtabSearch p.pTypes.table domain = none) :
    ∃ q, bxxtSepolCreateDomain p domain = .ok (asInt (p.pTypes.nprim + 1).toNat, q) ∧ Created p q domain := by
  obtain ⟨next, slot⟩ := value_toNat room.value
  have tables := consistent.toTables
  obtain ⟨scope, inserted, scopeFormed, unscoped⟩ := symtabInsert_fresh tables fresh
  obtain ⟨_, types⟩ := createdTable tables.types fresh
  obtain ⟨declared, declares, declaredFormed, _⟩ := @Ebitmap.setBit_spec _ tables.declared (p.pTypes.nprim + 1 - 1)
    (by rw [slot]; exact room.value) true
  obtain ⟨table, granted, rolesFormed, roles⟩ :=
    @grantRoles_ok p consistent full room.roles (withType p domain scope declared)
    rfl (p.pTypes.nprim + 1)
  have ready := withGrants_tables tables fresh room.value scopeFormed unscoped declaredFormed rolesFormed roles
  obtain ⟨roleNames, typeNames, cached, indexes, caches⟩ :=
    indexOthers_created consistent fresh room ready rfl types rfl roles
    consistent.users consistent.bools consistent.levels consistent.cats
  let done : Policydb :=
    { indexed (withGrants p domain scope declared table) roleNames typeNames with pRoles :=
      ⟨cached, p.pRoles.nprim⟩ }
  refine ⟨done, ?_, ?_⟩
  · rw [bxxtSepolCreateDomain, fresh]
    dsimp only
    rw [inserted]
    dsimp only
    rw [if_neg (by simp), declares]
    dsimp only
    rw [if_neg (by simp)]
    refine Exec.bind_eq_ok.mpr ⟨table, granted, ?_⟩
    split
    next absent => exact absurd ((types domain).symm.trans absent) (by simp)
    next =>
      refine Exec.bind_eq_ok.mpr ⟨(0, done), indexes, ?_⟩
      dsimp only
      split
      next absent => exact absurd ((types domain).symm.trans absent) (by simp)
      next attr found =>
        have same := (types domain).symm.trans found
        rw [if_pos rfl] at same
        cases same
        rfl
  · have consistentDone : Consistent done := indexOthers_consistent ready indexes
    have attributes := @withType_attributes p domain own room.value scope declared
    refine ⟨consistentDone, attributes.1, rfl, types, rfl, ?_, rfl, rfl, rfl, rfl, attributes.2⟩
    intro key
    obtain ⟨cache, search⟩ := caches key
    have search : hashtabSearch done.pRoles.table key = _ := search.trans (congrArg _ (roles key))
    cases before : hashtabSearch p.pRoles.table key with
    | none => exact Or.inl ⟨rfl, by rw [search, before]; rfl⟩
    | some old =>
      rw [before] at search
      have cachedOld := consistent.cached before
      obtain ⟨_, holds⟩ := grantType_spec cachedOld.kernel (slot ▸ room.value)
      rw [slot] at holds
      exact Or.inr ⟨old, _, rfl, search, rfl, holds,
        cache_created consistent consistentDone room.value fresh types cachedOld (consistentDone.cached search) holds⟩

end Create
section Runs

def createDomains (p : Policydb) : List CString → Exec Policydb
  | [] => .ok p
  | domain :: rest => do
    let (_, q) ← bxxtSepolCreateDomain p domain
    createDomains q rest

/-- The names of a list that are not types yet, each of them once. -/
def newNames (p : Policydb) (domains : List CString) : Finset CString :=
  (domains.filter fun domain => (hashtabSearch p.pTypes.table domain).isNone).toFinset

/-- One creation: an old name returns its value and changes nothing, a new one takes the next value.
-/
structure CreateStep (p : Policydb) (domain : CString) (r : Int) (q : Policydb) : Prop where
  known : ∀ type, hashtabSearch p.pTypes.table domain = some type → r = asInt type.value.toNat ∧ q = p
  fresh : hashtabSearch p.pTypes.table domain = none → r = asInt (p.pTypes.nprim + 1).toNat ∧ Created p q domain

structure Growing (p : Policydb) (more : Nat) : Prop where
  consistent : Consistent p
  attributes : SelfAttributes p
  full : NoGaps p
  counted : more = 0 ∨ p.pRoles.nprim ≠ 0
  room : p.pTypes.nprim.toNat + more ≤ Ebitmap.maxBit + 1

variable {p q : Policydb} {domain : CString} {rest : List CString}

theorem newNames_known {type : TypeDatum} (known : hashtabSearch p.pTypes.table domain = some type) :
    newNames p (domain :: rest) = newNames p rest := by
  rw [newNames, List.filter_cons_of_neg (by simp [known]), newNames]

theorem newNames_created (fresh : hashtabSearch p.pTypes.table domain = none) (created : Created p q domain) :
    (newNames p (domain :: rest)).card = (newNames q rest).card + 1 := by
  have new : domain ∈ newNames p (domain :: rest) := by simp [newNames, fresh]
  have erased : newNames q rest = (newNames p (domain :: rest)).erase domain := by
    ext name
    simp only [newNames, List.mem_toFinset, List.mem_filter, Finset.mem_erase, List.mem_cons, created.types]
    split
    next same => simp [same]
    next other => simp [other]
  rw [erased, Finset.card_erase_add_one new]

theorem NoGaps.created (full : NoGaps p) (created : Created p q domain) : NoGaps q := by
  intro i below
  rw [created.roles] at below
  obtain ⟨key, old, found, value⟩ := full i below
  rcases created.granted key with ⟨absent, _⟩ | ⟨old', role, found', now, same, _⟩
  · rw [absent] at found
    cases found
  · rw [found'] at found
    cases found
    exact ⟨key, role, now, same ▸ value⟩

theorem create_step (growing : Growing p (newNames p (domain :: rest)).card) : ∃ r q,
    bxxtSepolCreateDomain p domain = .ok (r, q) ∧ CreateStep p domain r q ∧ Growing q (newNames q rest).card := by
  cases found : hashtabSearch p.pTypes.table domain with
  | some type =>
    rw [newNames_known found] at growing
    refine ⟨asInt type.value.toNat, p, by rw [bxxtSepolCreateDomain, found], ⟨?_, by simp [found]⟩, growing⟩
    intro other same
    rw [found] at same
    cases same
    exact ⟨rfl, rfl⟩
  | none =>
    have positive : 0 < (newNames p (domain :: rest)).card :=
      Finset.card_pos.mpr ⟨domain, by simp [newNames, found]⟩
    have room : Room p := ⟨by have := growing.room; omega, growing.counted.resolve_left (by omega)⟩
    obtain ⟨q, run, created⟩ := create_fresh growing.consistent growing.attributes growing.full room found
    have more := @newNames_created _ _ _ rest found created
    have next := (value_toNat room.value).1
    refine ⟨_, q, run, ⟨by simp [found], fun _ => ⟨rfl, created⟩⟩, created.consistent, created.attributes,
      growing.full.created created, Or.inr (created.roles ▸ room.roles), ?_⟩
    have := growing.room
    rw [created.nprim, next]
    omega

/-- What is true of a step is true all along a run. -/
theorem createDomains_run {domains : List CString} (growing : Growing p (newNames p domains).card) :
    (∃ q, createDomains p domains = .ok q ∧ Consistent q ∧
      q.pTypes.nprim.toNat = p.pTypes.nprim.toNat + (newNames p domains).card ∧
      ∀ key type, hashtabSearch p.pTypes.table key = some type → hashtabSearch q.pTypes.table key = some type) ∧
    ∀ before domain after, domains = before ++ domain :: after →
      ∃ mid r next, createDomains p before = .ok mid ∧
      bxxtSepolCreateDomain mid domain = .ok (r, next) ∧ CreateStep mid domain r next := by
  induction domains generalizing p with
  | nil => exact ⟨⟨p, rfl, growing.consistent, by simp [newNames], fun _ _ found => found⟩, by simp⟩
  | cons domain rest ih =>
    obtain ⟨r, between, run, step, later⟩ := create_step growing
    obtain ⟨⟨q, runs, consistent, nprim, kept⟩, steps⟩ := ih later
    refine ⟨⟨q, Exec.bind_eq_ok.mpr ⟨(r, between), run, runs⟩, consistent, ?_, ?_⟩, ?_⟩
    · cases found : hashtabSearch p.pTypes.table domain with
      | some type =>
        obtain ⟨_, rfl⟩ := step.known type found
        rw [nprim, newNames_known found]
      | none =>
        obtain ⟨_, created⟩ := step.fresh found
        have more := @newNames_created _ _ _ rest found created
        have room : p.pTypes.nprim.toNat ≤ Ebitmap.maxBit := by
          have := growing.room
          omega
        rw [nprim, created.nprim, (value_toNat room).1, more]
        omega
    · intro key type known
      apply kept
      cases found : hashtabSearch p.pTypes.table domain with
      | some type' =>
        obtain ⟨_, rfl⟩ := step.known type' found
        exact known
      | none =>
        rw [(step.fresh found).2.types, if_neg, known]
        rintro rfl
        rw [found] at known
        cases known
    · intro before name after shape
      cases before with
      | nil =>
        cases shape
        exact ⟨p, r, between, rfl, run, step⟩
      | cons first before =>
        cases shape
        obtain ⟨mid, r', next, runsTo, creates, isStep⟩ := steps before name after rfl
        exact ⟨mid, r', next, Exec.bind_eq_ok.mpr ⟨(r, between), run, runsTo⟩, creates, isStep⟩

/-- As long as there is room for the new names, and roles that are counted, creation keeps
the types and roles of a policy in order. -/
theorem creates_keep_tables (loaded : Loaded p) (full : NoGaps p) (domains : List CString)
    (counted : (newNames p domains).card = 0 ∨ p.pRoles.nprim ≠ 0)
    (room : p.pTypes.nprim.toNat + (newNames p domains).card ≤ Ebitmap.maxBit + 1) :
    (∃ q, createDomains p domains = .ok q ∧ Indexable q.pTypes.table listedType q.pTypes.nprim ∧
      q.pTypes.nprim.toNat = p.pTypes.nprim.toNat + (newNames p domains).card ∧
      ∀ key type, hashtabSearch p.pTypes.table key = some type → hashtabSearch q.pTypes.table key = some type) ∧
    ∀ before domain after, domains = before ++ domain :: after →
      ∃ mid r next, createDomains p before = .ok mid ∧
      bxxtSepolCreateDomain mid domain = .ok (r, next) ∧ CreateStep mid domain r next := by
  obtain ⟨consistent, attributes, _⟩ := loaded_consistent loaded
  obtain ⟨⟨q, run, result, nprim, kept⟩, steps⟩ :=
    createDomains_run ⟨consistent, attributes, full, counted, room⟩
  exact ⟨⟨q, run, result.typeValues, nprim, kept⟩, steps⟩

section Files

/-- One role with the first value, and so many new names. -/
def countsNew (domains : List CString) (new : Nat) (p : Policydb) : Bool :=
  p.pRoles.nprim == 1 && (hashtabSearch p.pRoles.table objectR).any (fun role => role.value == 1) &&
    p.pTypes.nprim == 2 && (newNames p domains).card == new

theorem three_creates_add_one : ∃ p q, Loaded p ∧
    createDomains p [ascii "bxxt", ascii "init", ascii "bxxt"] = .ok q ∧
      q.pTypes.nprim.toNat = p.pTypes.nprim.toNat + 1 := by
  obtain ⟨p, loaded, tested⟩ := @loaded_of_readsTo fileImage
    (countsNew [ascii "bxxt", ascii "init", ascii "bxxt"] 1)
    (by decide +kernel)
  simp only [countsNew, Bool.and_eq_true, beq_iff_eq, Option.any_eq_true] at tested
  obtain ⟨⟨⟨one, role, found, value⟩, two⟩, new⟩ := tested
  have full : NoGaps p := by
    intro i below
    rw [one] at below
    refine ⟨objectR, role, found, ?_⟩
    rw [value]
    change i < 1 at below
    change 1 = i + 1
    omega
  obtain ⟨⟨q, run, _, nprim, _⟩, _⟩ :=
    creates_keep_tables loaded full [ascii "bxxt", ascii "init", ascii "bxxt"]
    (Or.inr (by rw [one]; decide)) (by rw [new, two]; decide)
  exact ⟨p, q, loaded, run, by rw [nprim, new]⟩

/-- The role `object_r` is there but not counted, and learns of no new type. -/
theorem uncounted_role_misses_type : ∃ p q r role, Loaded p ∧ NoGaps p ∧
    (∀ key other, hashtabSearch p.pRoles.table key = some other → key = objectR ∧ other.value = 1) ∧
    hashtabSearch p.pTypes.table (ascii "bxxt") = none ∧ bxxtSepolCreateDomain p (ascii "bxxt") = .ok (r, q) ∧
    hashtabSearch q.pRoles.table objectR = some role ∧ ¬ role.types.types.Holds p.pTypes.nprim.toNat := by
  obtain ⟨p, loaded, tested⟩ := @loaded_of_readsTo { fileImage with roles := ⟨0, []⟩ } (fun p =>
      p.pRoles.nprim == 0 && (p.pRoles.table.nodes.all fun node => node.1 == objectR && node.2.value == 1) &&
        (hashtabSearch p.pTypes.table (ascii "bxxt")).isNone &&
        passes (bxxtSepolCreateDomain p (ascii "bxxt")) fun result =>
          (hashtabSearch result.2.pRoles.table objectR).any fun role => role.types.types.node.isEmpty)
    (by decide +kernel)
  simp only [Bool.and_eq_true, beq_iff_eq, Option.isNone_iff_eq_none, passes_iff, Option.any_eq_true, List.all_eq_true,
    List.isEmpty_iff] at tested
  obtain ⟨⟨⟨none, only⟩, fresh⟩, ⟨r, q⟩, run, role, found, empty⟩ := tested
  refine ⟨p, q, r, role, loaded, ?_, ?_, fresh, run, found, ?_⟩
  · intro i below
    rw [none] at below
    cases below
  · intro key other isRole
    exact only (key, other) ((Hashtab.mem_nodes (loaded_consistent loaded).1.roles).mpr isRole)
  · rw [Ebitmap.Holds, empty]
    rintro ⟨node, member, _⟩
    cases member

end Files
end Runs
end Bxxt.Proofs
