import Bxxt.PolicyImage
import Bxxt.Proofs.RoleCaches

/-! What holds of every kernel policy that was read, and has to hold again behind each
edit: the tables are in order, the arrays lead to the symbols, the caches are those of the
type sets, and every type is an attribute of its own. -/

namespace Bxxt.Proofs
open Bxxt ByteLayout

/-- The array that leads from values to the listed symbols of a table. -/
def LeadsTo {α : Type} (array : HeapArray (Option CString)) (symtab : Symtab α)
    (listed : α → Option UInt32) : Prop :=
  ∃ names, array = valToStruct symtab.nprim names ∧ ∀ i key, names i = some key ↔
    ∃ datum value, hashtabSearch symtab.table key = some datum ∧ listed datum = some value ∧ value.toNat - 1 = i

/-- A role of a kernel policy with its cache. -/
structure CachedRole (p : Policydb) (role : RoleDatum) : Prop where
  kernel : KernelSet role.types
  inUse : ∀ i, role.types.types.Holds i → InUse p i
  formed : role.cache.WellFormed
  holds : ∀ i, role.cache.Holds i ↔ role.types.types.Holds i ∧ Regular p i

/-- The cache of a role is about the types and their array only. -/
theorem CachedRole.congr {p q : Policydb} {role : RoleDatum} (types : q.pTypes = p.pTypes)
    (array : q.typeValToStruct = p.typeValToStruct) (cached : CachedRole p role) : CachedRole q role := by
  have struct (i : Nat) : typeStruct q i = typeStruct p i := by rw [typeStruct, typeStruct, types, array]
  refine ⟨cached.kernel, ?_, cached.formed, ?_⟩
  · intro i holds
    obtain ⟨below, known⟩ := cached.inUse i holds
    exact ⟨types ▸ below, struct i ▸ known⟩
  · intro i
    rw [cached.holds, Regular, Regular, struct]

theorem LeadsTo.map {α : Type} {array : HeapArray (Option CString)} {symtab symtab' : Symtab α}
    {listed : α → Option UInt32} {change : α → α} (leads : LeadsTo array symtab listed)
    (nprim : symtab'.nprim = symtab.nprim)
    (search : ∀ key, hashtabSearch symtab'.table key = (hashtabSearch symtab.table key).map change)
    (same : ∀ datum, listed (change datum) = listed datum) : LeadsTo array symtab' listed := by
  obtain ⟨names, shape, spec⟩ := leads
  refine ⟨names, nprim ▸ shape, ?_⟩
  intro i key
  simp only [spec, search, Option.map_eq_some_iff]
  constructor
  · rintro ⟨datum, value, found, is, slot⟩
    exact ⟨change datum, value, ⟨datum, found, rfl⟩, same datum ▸ is, slot⟩
  · rintro ⟨_, value, ⟨datum, found, rfl⟩, is, slot⟩
    exact ⟨datum, value, found, same datum ▸ is, slot⟩

structure Tables (p : Policydb) : Prop where
  types : p.pTypes.table.WellFormed
  noTypes : p.pTypes.nprim = 0 → ∀ key, hashtabSearch p.pTypes.table key = none
  noMembers : ∀ {key type}, hashtabSearch p.pTypes.table key = some type → type.types = .empty
  roles : p.pRoles.table.WellFormed
  kernelSets : ∀ {key role}, hashtabSearch p.pRoles.table key = some role → KernelSet role.types
  scope : p.scope.WellFormed
  unscoped : ∀ {key}, hashtabSearch p.pTypes.table key = none → hashtabSearch p.scope key = none
  declared : p.declared.WellFormed
  permissive : p.permissiveMap.WellFormed
  rules : p.teAvtab.WellFormed

structure Consistent (p : Policydb) : Prop extends Tables p where
  typeValues : Indexable p.pTypes.table listedType p.pTypes.nprim
  typeArray : LeadsTo p.typeValToStruct p.pTypes listedType
  roleValues : p.pRoles.nprim ≠ 0 → Indexable p.pRoles.table listedRole p.pRoles.nprim
  roleArray : p.pRoles.nprim ≠ 0 → LeadsTo p.roleValToStruct p.pRoles listedRole
  cached : ∀ {key role}, hashtabSearch p.pRoles.table key = some role → CachedRole p role
  users : ∃ names, indexSymtab (userIndex p) p.pUsers = .ok (0, names)
  bools : ∃ names, indexSymtab (condIndexBool p) p.pBools = .ok (0, names)
  levels : ∃ names, indexSymtab (sensIndex p) p.pLevels = .ok (0, names)
  cats : ∃ names, indexSymtab (catIndex p) p.pCats = .ok (0, names)

/-- Every type has a set of attributes, and is one of them. -/
def SelfAttributes (p : Policydb) : Prop :=
  ∀ i < p.pTypes.nprim.toNat, ∃ attrs, p.typeAttrMap i = some attrs ∧ attrs.WellFormed ∧ attrs.Holds i

section Read
variable {α β : Type}

def Filled (good : β → Prop) (h : Hashtab CString β) : Prop :=
  h.WellFormed ∧ ∀ key datum, hashtabSearch h key = some datum → good datum

variable {good : β → Prop} {h after : Hashtab CString β}

theorem insertSymbol_filled {key : Bytes} {datum : β} (filled : Filled good h) (fits : good datum)
    (inserted : insertSymbol h key datum = some after) : Filled good after := by
  rw [insertSymbol] at inserted
  split at inserted
  next => cases inserted
  next =>
    cases found : hashtabSearch h (cstring key) with
    | some old =>
      rw [Hashtab.insert_exists filled.1 found] at inserted
      cases inserted
    | none =>
      rw [Hashtab.insert_fresh found] at inserted
      cases inserted
      refine ⟨Hashtab.linked_wellFormed filled.1 found, ?_⟩
      intro other datum'
      rw [Hashtab.search_linked filled.1 found]
      split
      next => rintro ⟨⟩; exact fits
      next => exact filled.2 other datum'

theorem foldlM_filled {read : Hashtab CString β → α → Option (Hashtab CString β)}
    (step : ∀ {h after record}, Filled good h → read h record = some after → Filled good after) {items : List α}
    (filled : Filled good h) (walked : items.foldlM read h = some after) : Filled good after := by
  induction items generalizing h with
  | nil => cases walked; exact filled
  | cons record rest ih =>
    rw [List.foldlM_cons] at walked
    obtain ⟨between, first, walked⟩ := Option.bind_eq_some_iff.mp walked
    exact ih (step filled first) walked

theorem readSection_filled {read : Hashtab CString β → α → Option (Hashtab CString β)}
    (step : ∀ {h after record}, Filled good h → read h record = some after → Filled good after)
    {symtab result : Symtab β} {part : Section α} (filled : Filled good symtab.table)
    (done : readSection read symtab part = some result) :
    Filled good result.table := by
  rw [readSection] at done
  split at done
  next => cases done
  next =>
    obtain ⟨table, walked, same⟩ := Option.bind_eq_some_iff.mp done
    cases same
    exact foldlM_filled step filled walked

theorem symtabInit_filled {size : UInt32} (positive : size ≠ 0) : Filled good (symtabInit β size).table :=
  ⟨symtabInit_wellFormed positive, fun key datum found => by
    rw [Hashtab.search_eq_some (symtabInit_wellFormed positive)] at found
    cases found⟩

/-- A role as it is read: a type set of the kernel, without a cache. -/
def ReadRole (role : RoleDatum) : Prop := KernelSet role.types ∧ role.cache = .empty

theorem roleRead_filled {h after : Hashtab CString RoleDatum} {record : RoleRecord} (filled : Filled ReadRole h)
    (read : roleRead h record = some after) : Filled ReadRole after := by
  obtain ⟨types, typesRead, read⟩ := Option.bind_eq_some_iff.mp read
  split at read
  next =>
    split at read
    next => cases read
    next => cases read; exact filled
  next => exact insertSymbol_filled filled ⟨⟨Ebitmap.wellFormed_of_read typesRead, rfl, rfl⟩, rfl⟩ read

theorem typeRead_filled {boundary : Bool} {h after : Hashtab CString TypeDatum} {record : TypeRecord}
    (filled : Filled (fun type : TypeDatum => type.types = .empty) h) (read : typeRead boundary h record = some after) :
    Filled (fun type : TypeDatum => type.types = .empty) after := by
  refine insertSymbol_filled filled ?_ read
  split <;> rfl

theorem policydbInit_roles : Filled ReadRole policydbInit.pRoles.table := by
  have fresh : hashtabSearch (symtabInit RoleDatum 16).table objectR = none := rfl
  have formed := @symtabInit_wellFormed RoleDatum 16 (by decide)
  rw [policydbInit]
  simp only [Hashtab.insert_fresh fresh]
  refine ⟨Hashtab.linked_wellFormed formed fresh, ?_⟩
  intro key role found
  rw [Hashtab.search_linked formed fresh] at found
  split at found
  next => cases found; exact ⟨⟨.empty, rfl, rfl⟩, rfl⟩
  next => cases found

end Read

section Rules

theorem avtabAlloc_wellFormed (nrules : UInt32) : (avtabAlloc nrules).WellFormed := by
  have empty : ∀ key, (avtabAlloc nrules).chain key = [] := by
    intro key
    rw [avtabAlloc]
    split <;> rfl
  exact ⟨fun key => by rw [empty]; exact .nil, fun key node member => by rw [empty] at member; cases member⟩

theorem readItem_wellFormed {a after : Avtab} {item : AvtabKey × AvtabDatum} (formed : a.WellFormed)
    (read : avtabReadItem a item = some after) : after.WellFormed := by
  rw [avtabReadItem] at read
  split at read
  next => cases read
  next =>
    split at read
    next => cases read
    next =>
      dsimp only at read
      split at read
      next => cases read
      next => cases read; exact Avtab.insert_wellFormed formed _ _

theorem avtabRead_wellFormed {items : List (AvtabKey × AvtabDatum)} {a : Avtab} (read : avtabRead items = some a) :
    a.WellFormed := by
  have step {a after : Avtab} {items : List (AvtabKey × AvtabDatum)} (formed : a.WellFormed)
      (walked : items.foldlM avtabReadItem a = some after) : after.WellFormed := by
    induction items generalizing a with
    | nil => cases walked; exact formed
    | cons item rest ih =>
      rw [List.foldlM_cons] at walked
      obtain ⟨between, first, walked⟩ := Option.bind_eq_some_iff.mp walked
      exact ih (readItem_wellFormed formed first) walked
  rw [avtabRead] at read
  split at read
  next => cases read
  next => exact step (avtabAlloc_wellFormed _) read

end Rules
section Index
variable {p q : Policydb}

def TypeAt (p : Policydb) (i : Nat) (type : TypeDatum) : Prop :=
  ∃ key, hashtabSearch p.pTypes.table key = some type ∧ type.primary ≠ 0 ∧ type.value.toNat = i + 1

theorem listedType_eq_some {type : TypeDatum} {value : UInt32} :
    listedType type = some value ↔ type.primary ≠ 0 ∧ type.value = value := by
  rw [listedType]
  split <;> simp_all

theorem typeStruct_iff (values : Indexable p.pTypes.table listedType p.pTypes.nprim)
    (array : LeadsTo p.typeValToStruct p.pTypes listedType) {i : Nat} {type : TypeDatum} :
    typeStruct p i = .ok (some type) ↔ TypeAt p i type := by
  obtain ⟨names, shape, leads⟩ := array
  have inside {key : CString} {value : UInt32} (found : hashtabSearch p.pTypes.table key = some type)
      (is : listedType type = some value) : value.toNat ≠ 0 ∧ value.toNat ≤ p.pTypes.nprim.toNat := by
    obtain ⟨positive, inside⟩ := values.range found is
    exact ⟨fun zero => positive (UInt32.toNat_inj.mp zero), UInt32.le_iff_toNat_le.mp inside⟩
  rw [typeStruct, HeapArray.load, shape, valToStruct]
  constructor
  · intro struct
    split at struct
    next item loaded =>
      split at loaded
      next below =>
        cases loaded
        rw [Exec.ok_bind] at struct
        split at struct
        next => cases struct
        next name named =>
          obtain ⟨datum, value, found, is, slot⟩ := (leads i name).mp named
          rw [found] at struct
          cases struct
          obtain ⟨primary, rfl⟩ := listedType_eq_some.mp is
          have := inside found is
          exact ⟨name, found, primary, by omega⟩
      next => cases loaded
    next => cases struct
  · rintro ⟨name, found, primary, value⟩
    have is : listedType type = some type.value := listedType_eq_some.mpr ⟨primary, rfl⟩
    have named : names i = some name := (leads i name).mpr ⟨type, type.value, found, is, by omega⟩
    have := inside found is
    rw [if_pos (by omega)]
    dsimp only
    rw [Exec.ok_bind, named]
    dsimp only
    rw [found]

def indexed (p : Policydb) (roles types : Names) : Policydb :=
  { p with
    roleValToStruct := valToStruct p.pRoles.nprim roles
    typeValToStruct := valToStruct p.pTypes.nprim types }

/-- A step of indexing whose failure is not a success. -/
theorem unless_failed {rc : Int} {failed : Policydb} {next : Exec (Int × Policydb)}
    (done : (if rc ≠ 0 then return (-1, failed) else next) = (.ok (0, q) : Exec (Int × Policydb))) : rc = 0 ∧
    next = .ok (0, q) := by
  split at done
  next => cases done
  next passed => exact ⟨not_not.mp passed, done⟩

theorem indexOthers_iff : policydbIndexOthers p = .ok (0, q) ↔ ∃ roles types table,
    indexSymtab (roleIndex p) p.pRoles = .ok (0, roles) ∧ indexSymtab (typeIndex p) p.pTypes = .ok (0, types) ∧
    (∃ names, indexSymtab (userIndex p) p.pUsers = .ok (0, names)) ∧
    (∃ names, indexSymtab (condIndexBool p) p.pBools = .ok (0, names)) ∧
    (∃ names, indexSymtab (sensIndex p) p.pLevels = .ok (0, names)) ∧
    (∃ names, indexSymtab (catIndex p) p.pCats = .ok (0, names)) ∧
    hashtabMap (policydbRoleCache (indexed p roles types)) p.pRoles.table.nodes p.pRoles.table = .ok (0, table) ∧
    q = { indexed p roles types with pRoles := { p.pRoles with table } } := by
  constructor
  · intro done
    obtain ⟨⟨rc, roles⟩, rolesDone, done⟩ := Exec.bind_eq_ok.mp done
    obtain ⟨rfl, done⟩ := unless_failed done
    obtain ⟨⟨rc, types⟩, typesDone, done⟩ := Exec.bind_eq_ok.mp done
    obtain ⟨rfl, done⟩ := unless_failed done
    obtain ⟨⟨rc, users⟩, usersDone, done⟩ := Exec.bind_eq_ok.mp done
    obtain ⟨rfl, done⟩ := unless_failed done
    obtain ⟨⟨rc, bools⟩, boolsDone, done⟩ := Exec.bind_eq_ok.mp done
    obtain ⟨rfl, done⟩ := unless_failed done
    obtain ⟨⟨rc, levels⟩, levelsDone, done⟩ := Exec.bind_eq_ok.mp done
    obtain ⟨rfl, done⟩ := unless_failed done
    obtain ⟨⟨rc, cats⟩, catsDone, done⟩ := Exec.bind_eq_ok.mp done
    obtain ⟨rfl, done⟩ := unless_failed done
    obtain ⟨⟨rc, table⟩, cached, done⟩ := Exec.bind_eq_ok.mp done
    obtain ⟨code, rfl⟩ := Prod.mk.inj (Except.ok.inj done)
    split at code
    next => cases code
    next passed =>
      rw [not_not.mp passed] at cached
      exact ⟨roles, types, table, rolesDone, typesDone, ⟨users, usersDone⟩, ⟨bools, boolsDone⟩,
        ⟨levels, levelsDone⟩,
        ⟨cats, catsDone⟩, cached, rfl⟩
  · rintro ⟨roles, types, table, rolesDone, typesDone, ⟨users, usersDone⟩, ⟨bools, boolsDone⟩,
      ⟨levels, levelsDone⟩,
      ⟨cats, catsDone⟩, cached, rfl⟩
    refine Exec.bind_eq_ok.mpr ⟨(0, roles), rolesDone, Exec.bind_eq_ok.mpr ⟨(0, types), typesDone, ?_⟩⟩
    refine Exec.bind_eq_ok.mpr ⟨(0, users), usersDone, Exec.bind_eq_ok.mpr ⟨(0, bools), boolsDone, ?_⟩⟩
    refine Exec.bind_eq_ok.mpr ⟨(0, levels), levelsDone, Exec.bind_eq_ok.mpr ⟨(0, cats), catsDone, ?_⟩⟩
    exact Exec.bind_eq_ok.mpr ⟨(0, table), cached, rfl⟩

def cacheOf (p : Policydb) (set : TypeSet) : Ebitmap :=
  match typeSetExpand p set true with
  | .ok (_, cache) => cache
  | .error _ => .empty

def withCache (p : Policydb) (role : RoleDatum) : RoleDatum := { role with cache := cacheOf p role.types }

theorem cacheRoles_ok {h : Hashtab CString RoleDatum} (formed : h.WellFormed)
    (expands : ∀ key role, hashtabSearch h key = some role →
      ∃ cache, typeSetExpand p role.types true = .ok (0, cache)) :
    ∃ after, hashtabMap (policydbRoleCache p) h.nodes h = .ok (0, after) ∧ after.WellFormed ∧
      ∀ key, hashtabSearch after key = (hashtabSearch h key).map (withCache p) := by
  let change (key : CString) (role : RoleDatum) : RoleDatum :=
    { role with cache := ((hashtabSearch h key).map fun old => cacheOf p old.types).getD .empty }
  refine ⟨h.storeAll (h.nodes.map Prod.fst) change, Hashtab.map_store ?_ h,
    Hashtab.storeAll_wellFormed formed _ _, ?_⟩
  · intro node member table
    have found := (Hashtab.mem_nodes formed).mp member
    obtain ⟨cache, expanded⟩ := expands _ _ found
    have value : cacheOf p node.2.types = cache := by rw [cacheOf, expanded]
    have same : change node.1 = fun role : RoleDatum => { role with cache } := by
      funext role
      simp only [change, found, Option.map_some, Option.getD_some, value]
    rw [policydbRoleCache, expanded, same]
    rfl
  · intro key
    rw [Hashtab.search_storeAll formed (Hashtab.nodes_nodup formed)]
    cases found : hashtabSearch h key with
    | none => simp
    | some role =>
      rw [if_pos (List.mem_map_of_mem (f := Prod.fst) ((Hashtab.mem_nodes formed).mpr found))]
      simp [change, withCache, found]

theorem expands_of_cacheRoles {nodes : List (CString × RoleDatum)} {h after : Hashtab CString RoleDatum}
    (walked : hashtabMap (policydbRoleCache p) nodes h = .ok (0, after)) :
    ∀ node ∈ nodes, ∃ cache, typeSetExpand p node.2.types true = .ok (0, cache) := by
  induction nodes generalizing h with
  | nil => simp
  | cons node rest ih =>
    obtain ⟨⟨rc, between⟩, first, walked⟩ := Exec.bind_eq_ok.mp walked
    obtain ⟨⟨expandRc, cache⟩, expanded, result⟩ := Exec.bind_eq_ok.mp first
    cases result
    by_cases zero : expandRc = 0
    · subst zero
      exact List.forall_mem_cons.mpr ⟨⟨cache, expanded⟩, ih walked⟩
    · dsimp only at walked
      rw [if_pos zero, if_pos (by decide)] at walked
      cases walked

theorem indexSymtab_leads {α : Type} {apply : CString → α → Names → Exec (Int × Names)}
    {listed : α → Option UInt32} {symtab : Symtab α} {names : Names} (indexes : Indexes apply listed symtab.nprim)
    (formed : symtab.table.WellFormed) (positive : symtab.nprim ≠ 0)
    (done : indexSymtab apply symtab = .ok (0, names)) :
    Indexable symtab.table listed symtab.nprim ∧ LeadsTo (valToStruct symtab.nprim names) symtab listed := by
  rw [indexSymtab, if_neg positive] at done
  have indexable := indexable_of_indexTable formed indexes done
  obtain ⟨names', done', leads⟩ := indexTable_ok formed indexes indexable
  rw [done] at done'
  cases done'
  exact ⟨indexable, names, rfl, leads⟩

/-- Indexing that succeeds makes tables consistent. -/
theorem indexOthers_consistent (tables : Tables p) (done : policydbIndexOthers p = .ok (0, q)) : Consistent q := by
  obtain ⟨roles, types, table, rolesDone, typesDone, users, bools, levels, cats, cached, rfl⟩ :=
    indexOthers_iff.mp done
  have typesLead : Indexable p.pTypes.table listedType p.pTypes.nprim ∧
      LeadsTo (valToStruct p.pTypes.nprim types) p.pTypes listedType := by
    by_cases positive : p.pTypes.nprim = 0
    · have none := tables.noTypes positive
      rw [indexSymtab, if_pos positive] at typesDone
      cases typesDone
      exact ⟨⟨by simp [none], by simp [none]⟩, _, rfl, by simp [none]⟩
    · exact indexSymtab_leads (typeIndex_indexes p) tables.types positive typesDone
  have expands (key : CString) (role : RoleDatum) (found : hashtabSearch p.pRoles.table key = some role) :
      ∃ cache, typeSetExpand (indexed p roles types) role.types true = .ok (0, cache) :=
    expands_of_cacheRoles cached (key, role) ((Hashtab.mem_nodes tables.roles).mpr found)
  obtain ⟨table', cached', formed, search⟩ := cacheRoles_ok tables.roles expands
  rw [cached] at cached'
  cases cached'
  have struct {i : Nat} {type : TypeDatum} : typeStruct (indexed p roles types) i = .ok (some type) ↔
    TypeAt p i type :=
    typeStruct_iff (p := indexed p roles types) typesLead.1 typesLead.2
  have inUse {key : CString} {role : RoleDatum} (found : hashtabSearch p.pRoles.table key = some role) {i : Nat}
      (holds : role.types.types.Holds i) : InUse (indexed p roles types) i := by
    obtain ⟨cache, expanded⟩ := expands key role found
    obtain ⟨below, type, known⟩ := of_typeSetExpand (tables.kernelSets found).formed expanded holds
    obtain ⟨name, isType, _⟩ := struct.mp known
    exact ⟨below, type, known, tables.noMembers isType⟩
  have cachedRole {key : CString} {role : RoleDatum} (found : hashtabSearch table key = some role) :
      CachedRole (indexed p roles types) role := by
    rw [search, Option.map_eq_some_iff] at found
    obtain ⟨old, found, rfl⟩ := found
    have kernel := tables.kernelSets found
    obtain ⟨cache, expanded, wellFormed, holds⟩ := typeSetExpand_ok kernel fun i => inUse found
    have same : (withCache (indexed p roles types) old).cache = cache := by rw [withCache, cacheOf, expanded]
    exact ⟨kernel, fun i => inUse found, same ▸ wellFormed, same ▸ holds⟩
  refine ⟨⟨tables.types, tables.noTypes, tables.noMembers, formed, fun found =>
    (cachedRole found).kernel, tables.scope,
    tables.unscoped, tables.declared, tables.permissive, tables.rules⟩, typesLead.1, typesLead.2, ?_, ?_,
    fun found => CachedRole.congr (p := indexed p roles types) rfl rfl (cachedRole found), users, bools, levels, cats⟩
  · intro positive
    obtain ⟨values, _⟩ := indexSymtab_leads (roleIndex_indexes p) tables.roles positive rolesDone
    exact values.map search fun _ => rfl
  · intro positive
    obtain ⟨_, leads⟩ := indexSymtab_leads (roleIndex_indexes p) tables.roles positive rolesDone
    exact leads.map rfl search fun _ => rfl

end Index
section Loaded
variable {image : PolicyImage} {p q : Policydb}

theorem search_empty {α : Type} {size : UInt32} (positive : size ≠ 0) (key : CString) :
    hashtabSearch (symtabInit α size).table key = none := by
  cases found : hashtabSearch (symtabInit α size).table key with
  | none => rfl
  | some datum =>
    rw [Hashtab.search_eq_some (symtabInit_wellFormed positive)] at found
    cases found

theorem readSection_noItems {α β : Type} {read : Hashtab CString β → α → Option (Hashtab CString β)}
    {symtab result : Symtab β} {part : Section α} (done : readSection read symtab part = some result)
    (none : result.nprim = 0) :
    result.table = symtab.table := by
  rw [readSection] at done
  split at done
  next => cases done
  next filled =>
    obtain ⟨table, walked, same⟩ := Option.bind_eq_some_iff.mp done
    cases same
    have empty : part.items = [] := by
      by_contra items
      exact filled ⟨items, none⟩
    rw [empty] at walked
    cases walked
    rfl

theorem readTables_tables (read : readTables image = some p) : Tables p := by
  simp only [readTables, Option.bind_eq_bind, Option.bind_eq_some_iff, Option.some.injEq] at read
  obtain ⟨permissiveMap, permissive, _, _, _, _, pRoles, roles, pTypes, types, _, _, _, _, _, _, _, _, teAvtab,
    rules, rfl⟩ := read
  have typesFilled := readSection_filled typeRead_filled (symtabInit_filled (by decide)) types
  have rolesFilled := readSection_filled roleRead_filled policydbInit_roles roles
  constructor
  case types => exact typesFilled.1
  case noTypes =>
    intro none key
    change hashtabSearch pTypes.table key = _
    rw [readSection_noItems types none]
    exact search_empty (by decide) key
  case noMembers => exact fun found => typesFilled.2 _ _ found
  case roles => exact rolesFilled.1
  case kernelSets => exact fun found => (rolesFilled.2 _ _ found).1
  case scope => exact symtabInit_wellFormed (by decide)
  case unscoped => exact fun _ => search_empty (by decide) _
  case declared => exact .empty
  case permissive =>
    rw [readPermissive] at permissive
    split at permissive
    next => exact Ebitmap.wellFormed_of_read permissive
    next => cases permissive; exact .empty
  case rules => exact avtabRead_wellFormed rules

/-- The attribute maps are no part of consistency. -/
theorem Consistent.withMaps (consistent : Consistent p) (typeAttrMap attrTypeMap : HeapArray Ebitmap) :
    Consistent { p with typeAttrMap, attrTypeMap } where
  types := consistent.types
  noTypes := consistent.noTypes
  noMembers := consistent.noMembers
  roles := consistent.roles
  kernelSets := consistent.kernelSets
  scope := consistent.scope
  unscoped := consistent.unscoped
  declared := consistent.declared
  permissive := consistent.permissive
  rules := consistent.rules
  typeValues := consistent.typeValues
  typeArray := consistent.typeArray
  roleValues := consistent.roleValues
  roleArray := consistent.roleArray
  cached found := CachedRole.congr (p := p) rfl rfl (consistent.cached found)
  users := consistent.users
  bools := consistent.bools
  levels := consistent.levels
  cats := consistent.cats

def readAttrs (image : PolicyImage) (i : Nat) : Option Ebitmap :=
  if image.policyvers ≥ policydbVersionAvtab then ebitmapRead (image.typeAttr i) else some .empty

theorem readAttrs_wellFormed {i : Nat} {attrs : Ebitmap} (read : readAttrs image i = some attrs) :
    attrs.WellFormed := by
  rw [readAttrs] at read
  split at read
  next => exact Ebitmap.wellFormed_of_read read
  next => cases read; exact .empty

/-- The type itself, unless it is an attribute, among the types of the attribute. -/
inductive OwnBit (p : Policydb) (i : Nat) (inverted : HeapArray Ebitmap) : HeapArray Ebitmap → Prop
  | regular {type types after} (struct : typeStruct p i = .ok (some type)) (noAttribute : type.flavor ≠ typeAttrib)
      (loaded : inverted i = some types) (set : ebitmapSetBit types (UInt32.ofNat i) true = (0, after)) :
      OwnBit p i inverted (Function.update inverted i (some after))
  | attrib {type} (struct : typeStruct p i = .ok (some type)) (isAttribute : type.flavor = typeAttrib) :
      OwnBit p i inverted inverted
  | absent (struct : typeStruct p i = .ok none) : OwnBit p i inverted inverted

theorem readTypeMaps_cons {i : Nat} {rest : List Nat} : readTypeMaps image (i :: rest) p = .ok (some q) ↔
    ∃ attrs own inverted attrTypeMap, readAttrs image i = some attrs ∧
      invertAttrs p.pTypes.nprim.toNat i (ebitmapPositiveBits attrs) p.attrTypeMap = some inverted ∧
      ebitmapSetBit attrs (UInt32.ofNat i) true = (0, own) ∧ OwnBit p i inverted attrTypeMap ∧
      readTypeMaps image rest { p with typeAttrMap := Function.update p.typeAttrMap i (some own), attrTypeMap } =
        .ok (some q) := by
  constructor
  · intro read
    rw [readTypeMaps, ← readAttrs] at read
    split at read
    next => cases read
    next attrs attrsRead =>
      split at read
      next => cases read
      next inverted invert =>
        dsimp only at read
        split at read
        next => cases read
        next passed =>
          have set : ebitmapSetBit attrs (UInt32.ofNat i) true =
              (0, (ebitmapSetBit attrs (UInt32.ofNat i) true).2) := by
            rw [← not_not.mp passed]
          obtain ⟨type, struct, read⟩ := Exec.bind_eq_ok.mp read
          have struct : typeStruct p i = .ok type := struct
          refine ⟨attrs, (ebitmapSetBit attrs (UInt32.ofNat i) true).2, inverted, ?_⟩
          split at read
          next regular =>
            obtain ⟨type, rfl, noAttribute⟩ := Option.any_eq_true _ _ |>.mp regular
            obtain ⟨types, loaded, read⟩ := Exec.bind_eq_ok.mp read
            split at read
            next => cases read
            next fits =>
              rw [HeapArray.load] at loaded
              split at loaded
              next item present =>
                cases loaded
                refine ⟨_, attrsRead, invert, set, .regular struct (bne_iff_ne.mp noAttribute) present ?_, read⟩
                rw [← not_not.mp fits]
              next => cases loaded
          next other =>
            refine ⟨_, attrsRead, invert, set, ?_, read⟩
            cases type with
            | none => exact .absent struct
            | some type => exact .attrib struct (by simpa using other)
  · rintro ⟨attrs, own, inverted, attrTypeMap, attrsRead, invert, set, bit, read⟩
    rw [readTypeMaps, ← readAttrs, attrsRead]
    dsimp only
    rw [invert]
    dsimp only
    rw [set]
    dsimp only
    rw [if_neg (by simp)]
    cases bit with
    | @regular type types after struct noAttribute loaded fits =>
      refine Exec.bind_eq_ok.mpr ⟨some type, struct, ?_⟩
      rw [if_pos (by simpa using noAttribute)]
      refine Exec.bind_eq_ok.mpr ⟨types, ?_, ?_⟩
      · rw [HeapArray.load, loaded]
      · rw [fits]
        dsimp only
        rw [if_neg (by simp)]
        exact read
    | @attrib type struct isAttribute =>
      refine Exec.bind_eq_ok.mpr ⟨some type, struct, ?_⟩
      rw [if_neg (by simpa using isAttribute)]
      exact read
    | absent struct =>
      refine Exec.bind_eq_ok.mpr ⟨Option.none, struct, ?_⟩
      rw [if_neg (by simp)]
      exact read

theorem room_of_setBit {e : Ebitmap} {bit : UInt32} (set : (ebitmapSetBit e bit true).1 = 0) :
    bit.toNat ≤ Ebitmap.maxBit := by
  by_contra large
  rw [Ebitmap.setBit_overflow (by omega)] at set
  exact absurd set (show (einval : Int) ≠ 0 by decide)

/-- The loop over the types keeps everything but the two maps, and leaves the type of each
round in its own attributes. -/
theorem readTypeMaps_spec {is : List Nat} (small : ∀ i ∈ is, i < 2 ^ 32)
    (read : readTypeMaps image is p = .ok (some q)) :
    (∃ typeAttrMap attrTypeMap, q = { p with typeAttrMap, attrTypeMap }) ∧
      (∀ i ∈ is, i ≤ Ebitmap.maxBit ∧ ∃ attrs, q.typeAttrMap i = some attrs ∧ attrs.WellFormed ∧
        attrs.Holds i) ∧
      ∀ i, i ∉ is → q.typeAttrMap i = p.typeAttrMap i := by
  induction is generalizing p with
  | nil =>
    cases read
    exact ⟨⟨_, _, rfl⟩, by simp, by simp⟩
  | cons i rest ih =>
    obtain ⟨narrow, small⟩ := List.forall_mem_cons.mp small
    obtain ⟨attrs, own, _, _, attrsRead, _, set, _, read⟩ := readTypeMaps_cons.mp read
    obtain ⟨⟨_, _, shape⟩, own_rest, others⟩ := ih small read
    have value : (UInt32.ofNat i).toNat = i := by
      rw [UInt32.toNat_ofNat']
      omega
    have room : i ≤ Ebitmap.maxBit := value ▸ room_of_setBit (congrArg Prod.fst set)
    refine ⟨⟨_, _, shape⟩, List.forall_mem_cons.mpr ⟨⟨room, ?_⟩, own_rest⟩, ?_⟩
    · by_cases again : i ∈ rest
      · exact (own_rest i again).2
      · obtain ⟨own', set', wellFormed, holds⟩ := setBit_ofNat (readAttrs_wellFormed attrsRead) room
        rw [set] at set'
        cases set'
        exact ⟨own, by rw [others i again]; exact Function.update_self .., wellFormed, (holds i).mpr (Or.inl rfl)⟩
    · intro j away
      rw [List.mem_cons, not_or] at away
      rw [others j away.2]
      exact Function.update_of_ne away.1 ..

/-- The stages of a read that is accepted. -/
theorem policydbRead_stages (read : policydbRead image = .ok (some p)) :
    ∃ tables indexed, readTables image = some tables ∧
    policydbIndexClasses tables = .ok 0 ∧ policydbIndexOthers tables = .ok (0, indexed) ∧
    readTypeMaps image (List.range indexed.pTypes.nprim.toNat) { indexed with
      typeAttrMap := .calloc indexed.pTypes.nprim.toNat .empty
      attrTypeMap := .calloc indexed.pTypes.nprim.toNat .empty } = .ok (some p) := by
  rw [policydbRead] at read
  split at read
  next => cases read
  next tables tablesRead =>
    obtain ⟨rc, classes, read⟩ := Exec.bind_eq_ok.mp read
    split at read
    next => cases read
    next found =>
      rw [not_not.mp found] at classes
      obtain ⟨⟨rc, indexed⟩, done, read⟩ := Exec.bind_eq_ok.mp read
      dsimp only at read
      split at read
      next => cases read
      next passed =>
        rw [not_not.mp passed] at done
        exact ⟨tables, indexed, tablesRead, classes, done, read⟩

theorem loaded_stages (loaded : Loaded p) : ∃ image tables indexed, readTables image = some tables ∧
    policydbIndexClasses tables = .ok 0 ∧ policydbIndexOthers tables = .ok (0, indexed) ∧
    readTypeMaps image (List.range indexed.pTypes.nprim.toNat) { indexed with
      typeAttrMap := .calloc indexed.pTypes.nprim.toNat .empty
      attrTypeMap := .calloc indexed.pTypes.nprim.toNat .empty } = .ok (some p) := by
  obtain ⟨image, read⟩ := loaded
  exact ⟨image, policydbRead_stages read⟩

theorem range_small {nprim : UInt32} : ∀ i ∈ List.range nprim.toNat, i < 2 ^ 32 := by
  intro i member
  have below := List.mem_range.mp member
  have bound := nprim.toNat_lt
  omega

/-- Every kernel policy that `policydb_read` accepts is consistent. -/
theorem loaded_consistent (loaded : Loaded p) : Consistent p ∧ SelfAttributes p ∧
    p.pTypes.nprim.toNat ≤ Ebitmap.maxBit + 1 := by
  obtain ⟨image, tables, indexed, tablesRead, _, done, read⟩ := loaded_stages loaded
  have consistent := indexOthers_consistent (readTables_tables tablesRead) done
  obtain ⟨⟨typeAttrMap, attrTypeMap, rfl⟩, own, _⟩ := readTypeMaps_spec range_small read
  refine ⟨consistent.withMaps _ _, ?_, ?_⟩
  · exact fun i below => (own i (List.mem_range.mpr below)).2
  · by_contra many
    have last := (own (Ebitmap.maxBit + 1) (List.mem_range.mpr (by simpa using many))).1
    omega

end Loaded
section Samples

def passes {α : Type} (run : Exec α) (test : α → Bool) : Bool :=
  match run with
  | .ok result => test result
  | .error _ => false

theorem passes_iff {α : Type} {run : Exec α} {test : α → Bool} :
    passes run test = true ↔ ∃ result, run = .ok result ∧ test result = true := by
  cases run <;> simp [passes]

def readsTo (image : PolicyImage) (test : Policydb → Bool) : Bool :=
  passes (policydbRead image) fun result => result.any test

theorem read_of_readsTo {image : PolicyImage} {test : Policydb → Bool} (reads : readsTo image test = true) :
    ∃ p, policydbRead image = .ok (some p) ∧ test p = true := by
  obtain ⟨result, read, passed⟩ := passes_iff.mp reads
  cases result with
  | none => cases passed
  | some p => exact ⟨p, read, passed⟩

theorem loaded_of_readsTo {image : PolicyImage} {test : Policydb → Bool} (reads : readsTo image test = true) :
    ∃ p, Loaded p ∧ test p = true := by
  obtain ⟨p, read, passed⟩ := read_of_readsTo reads
  exact ⟨p, ⟨image, read⟩, passed⟩

/-- A policy of the role `object_r`, without users and levels. -/
def smallImage (classes : List ClassRecord) (types : List TypeRecord) (rules : List (AvtabKey × AvtabDatum)) :
    PolicyImage where
  policyvers := 30
  permissive := ⟨0, []⟩
  commons := ⟨0, []⟩
  classes := ⟨UInt32.ofNat classes.length, classes⟩
  roles := ⟨1, []⟩
  types := ⟨UInt32.ofNat types.length, types⟩
  users := ⟨0, []⟩
  bools := ⟨0, []⟩
  levels := ⟨0, []⟩
  cats := ⟨0, []⟩
  rules := rules
  condRules := avtabAlloc 0
  typeAttr := fun _ => ⟨0, []⟩

/-- Two types and a class with one permission, and a rule between others. -/
def fileImage : PolicyImage :=
  smallImage [⟨ascii "file", [], 1, 1, [⟨ascii "read", 1⟩]⟩]
    [⟨ascii "init", 1, 1⟩, ⟨ascii "kernel", 2, 1⟩]
    [(⟨2, 2, 1, avtabAllowed⟩, ⟨1, none⟩)]

end Samples
end Bxxt.Proofs
