import Bxxt.Avtab
import Bxxt.Ebitmap

/-! The policy database of libsepol (`policydb.c`, `expand.c`): the symbol tables, the
arrays that lead from values to symbols, and the types that each role is expanded to.
The pointers in these arrays are names of the symbols. -/

namespace Bxxt

abbrev HeapArray (α : Type) := Nat → Option α

namespace HeapArray
variable {α : Type}

def load (array : HeapArray α) (i : Nat) : Exec α :=
  match array i with
  | some item => .ok item
  | none => .error .outOfBounds

def calloc (nmemb : Nat) (zero : α) : HeapArray α := fun i => if i < nmemb then some zero else none

/-- New items are not initialised. -/
def realloc (array : HeapArray α) (nmemb : Nat) : HeapArray α := fun i => if i < nmemb then array i else none

end HeapArray

def typeType : UInt32 := 0
def typeAttrib : UInt32 := 1
def typeFlagsExpandAttrTrue : UInt32 := 2
def typeStar : UInt32 := 1
def typeComp : UInt32 := 2
def scopeReq : UInt32 := 1
def scopeDecl : UInt32 := 2

structure TypeSet where
  types : Ebitmap
  negset : Ebitmap
  flags : UInt32

structure PermDatum where
  value : UInt32

structure CommonDatum where
  value : UInt32
  permissions : Symtab PermDatum

/-- `class_datum_t`. The commons do not change once the classes are read. -/
structure ClassDatum where
  value : UInt32
  comdatum : Option CommonDatum
  permissions : Symtab PermDatum

structure RoleDatum where
  value : UInt32
  types : TypeSet
  cache : Ebitmap

structure TypeDatum where
  value : UInt32
  primary : UInt32
  flavor : UInt32
  types : Ebitmap
  flags : UInt32

structure UserDatum where
  value : UInt32

structure BoolDatum where
  value : UInt32

structure LevelDatum where
  isalias : UInt32
  sens : UInt32

structure CatDatum where
  value : UInt32
  isalias : UInt32

structure ScopeDatum where
  scope : UInt32
  declIds : List UInt32

/-- `policydb_t`: what is read or written by the edits of a policy and by the type
enforcement part of an access decision. The scopes and declarations are those of types. -/
structure Policydb where
  pCommons : Symtab CommonDatum
  pClasses : Symtab ClassDatum
  pRoles : Symtab RoleDatum
  pTypes : Symtab TypeDatum
  pUsers : Symtab UserDatum
  pBools : Symtab BoolDatum
  pLevels : Symtab LevelDatum
  pCats : Symtab CatDatum
  scope : Hashtab CString ScopeDatum
  declared : Ebitmap
  roleValToStruct : HeapArray (Option CString)
  typeValToStruct : HeapArray (Option CString)
  teAvtab : Avtab
  teCondAvtab : Avtab
  typeAttrMap : HeapArray Ebitmap
  attrTypeMap : HeapArray Ebitmap
  permissiveMap : Ebitmap

section SymtabInsert

/-- The end of `symtab_insert`: a declaration is added to the scope of a symbol. -/
def addDecl (scopes : Hashtab CString ScopeDatum) (key : CString) (datum : ScopeDatum) (scope avruleDeclId : UInt32) :
    Int × Hashtab CString ScopeDatum :=
  if avruleDeclId ∈ datum.declIds then (0, scopes)
  else
    let declIds := datum.declIds ++ [avruleDeclId]
    if datum.scope = scopeDecl ∧ scope = scopeReq then
      if declIds.length < 2 then (-1, scopes.store key fun datum => { datum with declIds })
      -- the declaration is kept at the end of the list
      else
        let last := datum.declIds.drop (datum.declIds.length - 1)
        (0, scopes.store key fun datum => { datum with declIds := datum.declIds.dropLast ++ avruleDeclId :: last })
    else (0, scopes.store key fun datum => { datum with declIds })

def insertScope (scopes : Hashtab CString ScopeDatum) (key : CString) (scope avruleDeclId : UInt32) :
    Int × Hashtab CString ScopeDatum :=
  match hashtabSearch scopes key with
  | none =>
    let (rc, scopes) := hashtabInsert scopes key ⟨scope, []⟩
    if rc ≠ 0 then (rc, scopes) else addDecl scopes key ⟨scope, []⟩ scope avruleDeclId
  | some datum =>
    -- no second declaration of what is not a role or a user
    if datum.scope = scopeDecl ∧ scope = scopeDecl then (-2, scopes)
    else if datum.scope = scopeReq ∧ scope = scopeDecl then
      addDecl (scopes.store key fun datum => { datum with scope := scopeDecl }) key
        { datum with scope := scopeDecl } scope avruleDeclId
    else addDecl scopes key datum scope avruleDeclId

/-- `symtab_insert` for types, with the value that it stores behind `value`. -/
def symtabInsert (pol : Policydb) (key : CString) (datum : TypeDatum) (scope avruleDeclId : UInt32) (value : UInt32) :
    Int × UInt32 × Policydb :=
  let (rc, table) := hashtabInsert pol.pTypes.table key datum
  if rc = sepolOk then
    let nprim := pol.pTypes.nprim + 1
    let (rc, scopes) := insertScope pol.scope key scope avruleDeclId
    (rc, nprim, { pol with pTypes := ⟨table, nprim⟩, scope := scopes })
  else if rc = sepolEexist then
    let (rc, scopes) := insertScope pol.scope key scope avruleDeclId
    (if rc = 0 then 1 else rc, value, { pol with scope := scopes })
  else (rc, value, pol)

end SymtabInsert

section Expand
variable (p : Policydb)

/-- `p->type_val_to_struct[i]`, followed to the type. -/
def typeStruct (i : Nat) : Exec (Option TypeDatum) := do
  match ← p.typeValToStruct.load i with
  | none => .ok none
  | some name =>
    match hashtabSearch p.pTypes.table name with
    | some type => .ok (some type)
    | none => .error .nullPointer

/-- The types of a set, without attributes. There are none if a bit has no type. -/
def expandTypes (expand : Bool) : List Nat → Ebitmap → Exec (Option Ebitmap)
  | [], types => .ok (some types)
  | i :: rest, types =>
    if p.pTypes.nprim.toNat ≤ i then .ok none
    else do
      match ← typeStruct p i with
      | none => .ok none
      | some type =>
        if type.flavor = typeAttrib ∧ (expand ∨ type.flags &&& typeFlagsExpandAttrTrue ≠ 0) then
          expandTypes expand rest (ebitmapUnion types type.types)
        else
          let (rc, types) := ebitmapSetBit types (UInt32.ofNat i) true
          if rc ≠ 0 then .ok none else expandTypes expand rest types

/-- The same for the negative set, whose bits are not compared with the number of types. -/
def expandNegset : List Nat → Ebitmap → Exec (Option Ebitmap)
  | [], negTypes => .ok (some negTypes)
  | i :: rest, negTypes => do
    match ← typeStruct p i with
    | some type =>
      if type.flavor = typeAttrib then expandNegset rest (ebitmapUnion negTypes type.types)
      else
        let (rc, negTypes) := ebitmapSetBit negTypes (UInt32.ofNat i) true
        if rc ≠ 0 then .ok none else expandNegset rest negTypes
    | none =>
      let (rc, negTypes) := ebitmapSetBit negTypes (UInt32.ofNat i) true
      if rc ≠ 0 then .ok none else expandNegset rest negTypes

def isAttribute (i : Nat) : Exec Bool := do
  match ← typeStruct p i with
  | some type => .ok (type.flavor == typeAttrib)
  | none => .ok false

/-- `TYPE_STAR`: all types that are not in the negative set. -/
def expandStar (negTypes : Ebitmap) : List Nat → Ebitmap → Exec (Int × Ebitmap)
  | [], t => .ok (0, t)
  | i :: rest, t =>
    if ebitmapGetBit negTypes (UInt32.ofNat i) then expandStar negTypes rest t
    else do
      if ← isAttribute p i then expandStar negTypes rest t
      else
        let (rc, t) := ebitmapSetBit t (UInt32.ofNat i) true
        if rc ≠ 0 then .ok (-1, t) else expandStar negTypes rest t

def copyTypes (negTypes : Ebitmap) : List Nat → Ebitmap → Int × Ebitmap
  | [], t => (0, t)
  | i :: rest, t =>
    if ebitmapGetBit negTypes (UInt32.ofNat i) then copyTypes negTypes rest t
    else
      let (rc, t) := ebitmapSetBit t (UInt32.ofNat i) true
      if rc ≠ 0 then (-1, t) else copyTypes negTypes rest t

/-- `TYPE_COMP`: the complement, which has no attributes. -/
def complementTypes : List Nat → Ebitmap → Exec (Int × Ebitmap)
  | [], t => .ok (0, t)
  | i :: rest, t => do
    if ← isAttribute p i then
      if ebitmapGetBit t (UInt32.ofNat i) then .error .exited else complementTypes rest t
    else
      let (rc, t) := ebitmapSetBit t (UInt32.ofNat i) (!ebitmapGetBit t (UInt32.ofNat i))
      if rc ≠ 0 then .ok (-1, t) else complementTypes rest t

/-- `type_set_expand`: the result and the bits that `t` is left with. -/
def typeSetExpand (set : TypeSet) (alwaysexpand : Bool) : Exec (Int × Ebitmap) := do
  let expand := alwaysexpand || set.negset.highbit != 0 || set.flags != 0
  match ← expandTypes p expand (ebitmapPositiveBits set.types) .empty with
  | none => .ok (-1, .empty)
  | some types =>
    match ← expandNegset p (ebitmapPositiveBits set.negset) .empty with
    | none => .ok (-1, .empty)
    | some negTypes =>
      if set.flags &&& typeStar ≠ 0 then expandStar p negTypes (List.range p.pTypes.nprim.toNat) .empty
      else
        let (rc, t) := copyTypes negTypes (ebitmapPositiveBits types) .empty
        if rc ≠ 0 then .ok (rc, t)
        else if set.flags &&& typeComp ≠ 0 then complementTypes p (List.range p.pTypes.nprim.toNat) t
        else .ok (0, t)

/-- `policydb_role_cache`, a write to a role of the table. -/
def policydbRoleCache (key : CString) (role : RoleDatum) (table : Hashtab CString RoleDatum) :
    Exec (Int × Hashtab CString RoleDatum) := do
  let (rc, cache) ← typeSetExpand p role.types true
  .ok (if rc ≠ 0 then -1 else 0, table.store key fun role => { role with cache })

end Expand

section Index

abbrev Names := Nat → Option CString

/-- What the `_index` functions share: a value is in range, and of one symbol. -/
def indexValue (value nprim : UInt32) (key : CString) (names : Names) : Exec (Int × Names) :=
  if value = 0 ∨ nprim < value then .ok (einval, names)
  else if (names (value.toNat - 1)).isSome then .ok (einval, names)
  else .ok (0, Function.update names (value.toNat - 1) (some key))

variable (p : Policydb)

def commonIndex (key : CString) (datum : CommonDatum) : Names → Exec (Int × Names) :=
  indexValue datum.value p.pCommons.nprim key

def classIndex (key : CString) (datum : ClassDatum) : Names → Exec (Int × Names) :=
  indexValue datum.value p.pClasses.nprim key

def roleIndex (key : CString) (role : RoleDatum) : Names → Exec (Int × Names) :=
  indexValue role.value p.pRoles.nprim key

def typeIndex (key : CString) (typdatum : TypeDatum) (names : Names) : Exec (Int × Names) :=
  if typdatum.primary ≠ 0 then indexValue typdatum.value p.pTypes.nprim key names else .ok (0, names)

def userIndex (key : CString) (usrdatum : UserDatum) : Names → Exec (Int × Names) :=
  indexValue usrdatum.value p.pUsers.nprim key

def condIndexBool (key : CString) (booldatum : BoolDatum) : Names → Exec (Int × Names) :=
  indexValue booldatum.value p.pBools.nprim key

def sensIndex (key : CString) (levdatum : LevelDatum) (names : Names) : Exec (Int × Names) :=
  if levdatum.isalias = 0 then indexValue levdatum.sens p.pLevels.nprim key names else .ok (0, names)

def catIndex (key : CString) (catdatum : CatDatum) (names : Names) : Exec (Int × Names) :=
  if catdatum.isalias = 0 then indexValue catdatum.value p.pCats.nprim key names else .ok (0, names)

def indexTable {α : Type} (apply : CString → α → Names → Exec (Int × Names)) (table : Hashtab CString α) :
    Exec (Int × Names) :=
  hashtabMap apply table.nodes fun _ => none

/-- `policydb_index_classes`, whose arrays nothing here reads. -/
def policydbIndexClasses : Exec Int := do
  let (rc, _) ← indexTable (commonIndex p) p.pCommons.table
  if rc ≠ 0 then .ok (-1)
  else
    let (rc, _) ← indexTable (classIndex p) p.pClasses.table
    if rc ≠ 0 then .ok (-1) else .ok 0

def indexSymtab {α : Type} (apply : CString → α → Names → Exec (Int × Names)) (symtab : Symtab α) :
    Exec (Int × Names) :=
  if symtab.nprim = 0 then .ok (0, fun _ => none) else indexTable apply symtab.table

def valToStruct (nprim : UInt32) (names : Names) : HeapArray (Option CString) :=
  fun i => if i < nprim.toNat then some (names i) else none

/-- `policydb_index_others`: the arrays of roles and types, and the caches of roles. -/
def policydbIndexOthers : Exec (Int × Policydb) := do
  let p := { p with roleValToStruct := valToStruct p.pRoles.nprim fun _ => none }
  let p := { p with typeValToStruct := valToStruct p.pTypes.nprim fun _ => none }
  let (rc, roles) ← indexSymtab (roleIndex p) p.pRoles
  let p := { p with roleValToStruct := valToStruct p.pRoles.nprim roles }
  if rc ≠ 0 then return (-1, p)
  let (rc, types) ← indexSymtab (typeIndex p) p.pTypes
  let p := { p with typeValToStruct := valToStruct p.pTypes.nprim types }
  if rc ≠ 0 then return (-1, p)
  let (rc, _) ← indexSymtab (userIndex p) p.pUsers
  if rc ≠ 0 then return (-1, p)
  let (rc, _) ← indexSymtab (condIndexBool p) p.pBools
  if rc ≠ 0 then return (-1, p)
  let (rc, _) ← indexSymtab (sensIndex p) p.pLevels
  if rc ≠ 0 then return (-1, p)
  let (rc, _) ← indexSymtab (catIndex p) p.pCats
  if rc ≠ 0 then return (-1, p)
  let (rc, table) ← hashtabMap (policydbRoleCache p) p.pRoles.table.nodes p.pRoles.table
  return (if rc ≠ 0 then -1 else 0, { p with pRoles := { p.pRoles with table } })

end Index
end Bxxt
