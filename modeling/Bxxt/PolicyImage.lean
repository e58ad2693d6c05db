import Bxxt.BootHeader
import Bxxt.Policydb

/-! `policydb_init`, and what `policydb_read` makes of a kernel policy: the records of its
sections go through the checks and insertions of the reading functions. The words of a
record are those of the file; how they are cut from it is not modelled. -/

namespace Bxxt
open ByteLayout

def permSymtabSize : UInt32 := 32

def objectR : CString := ascii "object_r"

def objectRVal : UInt32 := 1

def cstring (buffer : Bytes) : CString := List.takeWhile (· ≠ 0) buffer

structure PermRecord where
  key : Bytes
  value : UInt32

structure CommonRecord where
  key : Bytes
  value : UInt32
  nprim : UInt32
  perms : List PermRecord

structure ClassRecord where
  key : Bytes
  comkey : Bytes
  value : UInt32
  nprim : UInt32
  perms : List PermRecord

structure RoleRecord where
  key : Bytes
  value : UInt32
  types : EbitmapRecord

/-- The properties of a type, which are its primary flag in policies without boundaries. -/
structure TypeRecord where
  key : Bytes
  value : UInt32
  properties : UInt32

structure UserRecord where
  key : Bytes
  value : UInt32

structure BoolRecord where
  key : Bytes
  value : UInt32
  state : UInt32

structure SensRecord where
  key : Bytes
  isalias : UInt32
  sens : UInt32

structure CatRecord where
  key : Bytes
  value : UInt32
  isalias : UInt32

structure Section (α : Type) where
  nprim : UInt32
  items : List α

/-- A kernel policy. The conditional rules are taken as the table they end in. -/
structure PolicyImage where
  policyvers : UInt32
  permissive : EbitmapRecord
  commons : Section CommonRecord
  classes : Section ClassRecord
  roles : Section RoleRecord
  types : Section TypeRecord
  users : Section UserRecord
  bools : Section BoolRecord
  levels : Section SensRecord
  cats : Section CatRecord
  rules : List (AvtabKey × AvtabDatum)
  condRules : Avtab
  typeAttr : Nat → EbitmapRecord

def policydbVersionAvtab : UInt32 := 20
def policydbVersionPermissive : UInt32 := 23
def policydbVersionBoundary : UInt32 := 24
def typedatumPropertyPrimary : UInt32 := 1
def typedatumPropertyAttribute : UInt32 := 2

/-- `policydb_init`, with the role of `roles_init`. -/
def policydbInit : Policydb where
  pCommons := symtabInit _ 2
  pClasses := symtabInit _ 32
  pRoles := ⟨(hashtabInsert (symtabInit RoleDatum 16).table objectR
    ⟨objectRVal, ⟨.empty, .empty, 0⟩, .empty⟩).2, 1⟩
  pTypes := symtabInit _ 512
  pUsers := symtabInit _ 128
  pBools := symtabInit _ 16
  pLevels := symtabInit _ 16
  pCats := symtabInit _ 16
  scope := (symtabInit _ 512).table
  declared := .empty
  roleValToStruct := fun _ => none
  typeValToStruct := fun _ => none
  teAvtab := avtabAlloc 0
  teCondAvtab := avtabAlloc 0
  typeAttrMap := fun _ => none
  attrTypeMap := fun _ => none
  permissiveMap := .empty

section Symbols

/-- The end of the reading functions of symbols, whose name is not empty. -/
def insertSymbol {α : Type} (h : Hashtab CString α) (key : Bytes) (datum : α) : Option (Hashtab CString α) :=
  if key = [] then none
  else
    let (rc, h) := hashtabInsert h (cstring key) datum
    if rc ≠ sepolOk then none else some h

def permRead (h : Hashtab CString PermDatum) (record : PermRecord) : Option (Hashtab CString PermDatum) :=
  insertSymbol h record.key ⟨record.value⟩

def readPerms (nprim : UInt32) (perms : List PermRecord) : Option (Symtab PermDatum) := do
  let table ← perms.foldlM permRead (symtabInit PermDatum permSymtabSize).table
  some ⟨table, nprim⟩

def commonRead (h : Hashtab CString CommonDatum) (record : CommonRecord) : Option (Hashtab CString CommonDatum) := do
  let permissions ← readPerms record.nprim record.perms
  insertSymbol h record.key ⟨record.value, permissions⟩

/-- The common of a class: none is asked for, or the one of that name. -/
def findCommon (commons : Hashtab CString CommonDatum) (comkey : Bytes) : Option (Option CommonDatum) :=
  if comkey = [] then some none else (hashtabSearch commons (cstring comkey)).map some

def classRead (commons : Hashtab CString CommonDatum) (h : Hashtab CString ClassDatum) (record : ClassRecord) :
    Option (Hashtab CString ClassDatum) := do
  let comdatum ← findCommon commons record.comkey
  let permissions ← readPerms record.nprim record.perms
  insertSymbol h record.key ⟨record.value, comdatum, permissions⟩

def roleRead (h : Hashtab CString RoleDatum) (record : RoleRecord) : Option (Hashtab CString RoleDatum) := do
  let types ← ebitmapRead record.types
  if record.key ≠ [] ∧ cstring record.key = objectR then
    -- the role of `roles_init` stays, without the types of the record
    if record.value ≠ objectRVal then none else some h
  else insertSymbol h record.key ⟨record.value, ⟨types, .empty, 0⟩, .empty⟩

def typeRead (boundary : Bool) (h : Hashtab CString TypeDatum) (record : TypeRecord) :
    Option (Hashtab CString TypeDatum) :=
  let datum : TypeDatum :=
    if boundary then
      { value := record.value
        primary := if record.properties &&& typedatumPropertyPrimary ≠ 0 then 1 else 0
        flavor := if record.properties &&& typedatumPropertyAttribute ≠ 0 then typeAttrib else typeType
        types := .empty
        flags := 0 }
    else ⟨record.value, record.properties, typeType, .empty, 0⟩
  insertSymbol h record.key datum

def userRead (h : Hashtab CString UserDatum) (record : UserRecord) : Option (Hashtab CString UserDatum) :=
  insertSymbol h record.key ⟨record.value⟩

def condReadBool (h : Hashtab CString BoolDatum) (record : BoolRecord) : Option (Hashtab CString BoolDatum) :=
  if record.state = 0 ∨ record.state = 1 then insertSymbol h record.key ⟨record.value⟩ else none

def sensRead (h : Hashtab CString LevelDatum) (record : SensRecord) : Option (Hashtab CString LevelDatum) :=
  insertSymbol h record.key ⟨record.isalias, record.sens⟩

def catRead (h : Hashtab CString CatDatum) (record : CatRecord) : Option (Hashtab CString CatDatum) :=
  insertSymbol h record.key ⟨record.value, record.isalias⟩

def readSection {α β : Type} (read : Hashtab CString β → α → Option (Hashtab CString β)) (symtab : Symtab β)
    (part : Section α) : Option (Symtab β) := do
  if part.items ≠ [] ∧ part.nprim = 0 then none
  else
    let table ← part.items.foldlM read symtab.table
    some ⟨table, part.nprim⟩

end Symbols

/-- `spec_order`: the rules that an item can be. -/
def specOrder : List UInt16 :=
  [avtabAllowed, avtabAuditdeny, avtabAuditallow, avtabTransition, avtabChange, avtabMember, avtabXpermsAllowed,
    avtabXpermsAuditallow, avtabXpermsDontaudit]

/-- `avtab_read_item`: one specifier, and extended permissions where it asks for them. -/
def avtabReadItem (a : Avtab) (item : AvtabKey × AvtabDatum) : Option Avtab :=
  if (specOrder.filter fun spec => item.1.specified &&& spec != 0).length ≠ 1 then none
  else if item.2.xperms.isSome ≠ (item.1.specified &&& avtabXperms != 0) then none
  else
    let (rc, a) := avtabInsert a item.1 item.2
    if rc ≠ 0 then none else some a

def avtabRead (items : List (AvtabKey × AvtabDatum)) : Option Avtab :=
  if items = [] then none else items.foldlM avtabReadItem (avtabAlloc (UInt32.ofNat items.length))

def readPermissive (image : PolicyImage) : Option Ebitmap :=
  if image.policyvers ≥ policydbVersionPermissive then ebitmapRead image.permissive else some .empty

def readTables (image : PolicyImage) : Option Policydb := do
  let p := policydbInit
  let permissiveMap ← readPermissive image
  let pCommons ← readSection commonRead p.pCommons image.commons
  let pClasses ← readSection (classRead pCommons.table) p.pClasses image.classes
  let pRoles ← readSection roleRead p.pRoles image.roles
  let pTypes ← readSection (typeRead (image.policyvers ≥ policydbVersionBoundary)) p.pTypes image.types
  let pUsers ← readSection userRead p.pUsers image.users
  let pBools ← readSection condReadBool p.pBools image.bools
  let pLevels ← readSection sensRead p.pLevels image.levels
  let pCats ← readSection catRead p.pCats image.cats
  let teAvtab ← avtabRead image.rules
  some { p with
    permissiveMap, pCommons, pClasses, pRoles, pTypes, pUsers, pBools, pLevels, pCats, teAvtab
    teCondAvtab := image.condRules }

section TypeMaps

/-- The attributes of the type `i` in the other direction. -/
def invertAttrs (nprim i : Nat) : List Nat → HeapArray Ebitmap → Option (HeapArray Ebitmap)
  | [], attrTypeMap => some attrTypeMap
  | j :: rest, attrTypeMap =>
    if i = j then invertAttrs nprim i rest attrTypeMap
    else if nprim ≤ j then none
    else
      match attrTypeMap j with
      | none => none
      | some types =>
        let (rc, types) := ebitmapSetBit types (UInt32.ofNat i) true
        if rc ≠ 0 then none else invertAttrs nprim i rest (Function.update attrTypeMap j (some types))

/-- The loop over the types at the end of `policydb_read`. -/
def readTypeMaps (image : PolicyImage) : List Nat → Policydb → Exec (Option Policydb)
  | [], p => .ok (some p)
  | i :: rest, p => do
    match if image.policyvers ≥ policydbVersionAvtab then ebitmapRead (image.typeAttr i) else some .empty with
    | none => .ok none
    | some attrs =>
      match invertAttrs p.pTypes.nprim.toNat i (ebitmapPositiveBits attrs) p.attrTypeMap with
      | none => .ok none
      | some attrTypeMap =>
        -- the type itself, as the degenerate case
        let (rc, attrs) := ebitmapSetBit attrs (UInt32.ofNat i) true
        if rc ≠ 0 then .ok none
        else
          let p := { p with typeAttrMap := Function.update p.typeAttrMap i (some attrs), attrTypeMap }
          let type ← typeStruct p i
          if type.any fun type => type.flavor != typeAttrib then
            let types ← p.attrTypeMap.load i
            let (rc, types) := ebitmapSetBit types (UInt32.ofNat i) true
            if rc ≠ 0 then .ok none
            else readTypeMaps image rest { p with attrTypeMap := Function.update p.attrTypeMap i (some types) }
          else readTypeMaps image rest p

def writeTypeMaps (p : Policydb) : List Nat → Exec (List EbitmapRecord)
  | [] => .ok []
  | i :: rest => do
    let attrs ← p.typeAttrMap.load i
    let records ← writeTypeMaps p rest
    .ok (ebitmapWrite attrs :: records)

end TypeMaps

def policydbRead (image : PolicyImage) : Exec (Option Policydb) :=
  match readTables image with
  | none => .ok none
  | some p => do
    let rc ← policydbIndexClasses p
    if rc ≠ 0 then return none
    let (rc, p) ← policydbIndexOthers p
    if rc ≠ 0 then return none
    let nprim := p.pTypes.nprim.toNat
    let p := { p with typeAttrMap := .calloc nprim .empty, attrTypeMap := .calloc nprim .empty }
    readTypeMaps image (List.range nprim) p

/-- The kernel policies that `policydb_read` accepts. -/
def Loaded (p : Policydb) : Prop := ∃ image, policydbRead image = .ok (some p)

end Bxxt
