import Bxxt.PolicyImage
import Bxxt.Lib.ScanFormat

/-! The edits of a loaded policy (`sepol.c`): rules, new domains, permissive domains. -/

namespace Bxxt
open ByteLayout ScanFormat

/-- `1U << (value - 1)`. A shift by the width of the word or more is undefined. -/
def permMask (value : UInt32) : Exec UInt32 :=
  if value = 0 ∨ 32 < value then .error .intOverflow else .ok (1 <<< (value - 1))

def findPerm (c : ClassDatum) (perm : CString) : Option PermDatum :=
  match hashtabSearch c.permissions.table perm with
  | some p => some p
  | none =>
    match c.comdatum with
    | some comdatum => hashtabSearch comdatum.permissions.table perm
    | none => none

/-- `"*"` and every other name that starts with it. -/
def isStar (perm : CString) : Bool := List.head? perm == some 42

/-- `a->data &= ~mask` or `a->data |= mask`. -/
def editVector (disallow : Bool) (mask : UInt32) (a : AvtabDatum) : AvtabDatum :=
  if disallow then { a with data := a.data &&& ~~~mask } else { a with data := a.data ||| mask }

def allowKey (s t : TypeDatum) (c : ClassDatum) : AvtabKey :=
  ⟨s.value.toUInt16, t.value.toUInt16, c.value.toUInt16, avtabAllowed⟩

/-- The rule of a key, inserted first if there is none. The inserted datum is what `malloc`
returned. -/
def editRule (te : Avtab) (k : AvtabKey) (disallow : Bool) (mask : UInt32) (malloc : AvtabDatum) :
    Exec (Int × Avtab) :=
  match avtabSearch te k with
  | some _ => .ok (bxxtSuccess, avtabModify te k (editVector disallow mask))
  | none =>
    let (r, te) := avtabInsert te k malloc
    if r ≠ 0 then .ok (bxxtFailed, te)
    else
      match avtabSearch te k with
      | some _ => .ok (bxxtSuccess, avtabModify te k (editVector disallow mask))
      | none => .error .nullPointer

def bxxtSepolAllowExt (pdb : Policydb) (src tgt cls perm : CString) (disallow : Bool) (malloc : AvtabDatum) :
    Exec (Int × Policydb) :=
  match hashtabSearch pdb.pClasses.table cls with
  | none => .ok (bxxtFailed, pdb)
  | some c =>
    match hashtabSearch pdb.pTypes.table src with
    | none => .ok (bxxtFailed, pdb)
    | some s =>
      match hashtabSearch pdb.pTypes.table tgt with
      | none => .ok (bxxtFailed, pdb)
      | some t =>
        let edit (mask : UInt32) : Exec (Int × Policydb) := do
          let (r, teAvtab) ← editRule pdb.teAvtab (allowKey s t c) disallow mask malloc
          .ok (r, { pdb with teAvtab })
        if isStar perm then edit (~~~0)
        else
          match findPerm c perm with
          | none => .ok (bxxtFailed, pdb)
          | some p => do
            let mask ← permMask p.value
            edit mask

section CreateDomain

def grantType (value : UInt32) (role : RoleDatum) : RoleDatum :=
  let negset := (ebitmapSetBit role.types.negset (value - 1) false).2
  let types := (ebitmapSetBit role.types.types (value - 1) true).2
  { role with types := { role.types with types, negset } }

def grantRoles (value : UInt32) (pdb : Policydb) : List Nat → Hashtab CString RoleDatum →
    Exec (Hashtab CString RoleDatum)
  | [], table => .ok table
  | i :: rest, table => do
    match ← pdb.roleValToStruct.load i with
    | none => .error .nullPointer
    | some name => grantRoles value pdb rest (table.store name (grantType value))

/-- Behind the index of the new type: the attributes of a type that is one itself. -/
def mapAttribute (pdb : Policydb) (attr : TypeDatum) (value : UInt32) : Exec Policydb :=
  if attr.flavor ≠ typeAttrib then .ok pdb
  else do
    let attrs ← pdb.typeAttrMap.load (value - 1).toNat
    let (r, attrs) := ebitmapSetBit attrs (attr.value - 1) true
    let pdb := { pdb with typeAttrMap := Function.update pdb.typeAttrMap (value - 1).toNat (some attrs) }
    if r ≠ 0 then .ok pdb
    else
      let types ← pdb.attrTypeMap.load (attr.value - 1).toNat
      let (_, types) := ebitmapSetBit types (value - 1) true
      .ok { pdb with attrTypeMap := Function.update pdb.attrTypeMap (attr.value - 1).toNat (some types) }

/-- The two maps grow to the number of types, with the last type an attribute of its own. -/
def growTypeMaps (pdb : Policydb) (value : UInt32) : Policydb :=
  let nprim := pdb.pTypes.nprim.toNat
  let own := (ebitmapSetBit .empty (value - 1) true).2
  { pdb with
    typeAttrMap := Function.update (pdb.typeAttrMap.realloc nprim) (value - 1).toNat (some own)
    attrTypeMap := Function.update (pdb.attrTypeMap.realloc nprim) (value - 1).toNat (some .empty) }

def newType : TypeDatum := ⟨0, 1, typeType, .empty, 0⟩

/-- `bxxt_sepol_create_domain`. The result is the value of the type as an `int`. -/
def bxxtSepolCreateDomain (pdb : Policydb) (domain : CString) : Exec (Int × Policydb) :=
  match hashtabSearch pdb.pTypes.table domain with
  | some sd => .ok (asInt sd.value.toNat, pdb)
  | none => do
    let (r, value, pdb) := symtabInsert pdb domain newType scopeDecl 1 0
    if r ≠ 0 then return (bxxtFailed, pdb)
    let pdb := { pdb with
      pTypes := { pdb.pTypes with table := pdb.pTypes.table.store domain fun td => { td with value } } }
    let (r, declared) := ebitmapSetBit pdb.declared (value - 1) true
    let pdb := { pdb with declared }
    if r ≠ 0 then return (bxxtFailed, pdb)
    let pdb := growTypeMaps pdb value
    let roles ← grantRoles value pdb (List.range pdb.pRoles.nprim.toNat) pdb.pRoles.table
    let pdb := { pdb with pRoles := { pdb.pRoles with table := roles } }
    match hashtabSearch pdb.pTypes.table domain with
    | none => return (bxxtFailed, pdb)
    | some _ =>
      -- the results of indexing are not looked at
      let (_, pdb) ← policydbIndexOthers pdb
      match hashtabSearch pdb.pTypes.table domain with
      | none => return (bxxtFailed, pdb)
      | some attr =>
        let pdb ← mapAttribute pdb attr value
        return (asInt value.toNat, pdb)

end CreateDomain

/-- `bxxt_sepol_set_permissive`: the value of a type, or what its creation returns, is the bit. -/
def bxxtSepolSetPermissive (pdb : Policydb) (domain : CString) (permissive : Bool) : Exec (Int × Policydb) := do
  let (bit, pdb) ← match hashtabSearch pdb.pTypes.table domain with
    | some sd => .ok (sd.value, pdb)
    | none => do
      let (r, pdb) ← bxxtSepolCreateDomain pdb domain
      .ok (UInt32.ofInt r, pdb)
  let (r, permissiveMap) := ebitmapSetBit pdb.permissiveMap bit permissive
  return (r, { pdb with permissiveMap })

section Statements

/-- `%[1-9,a-z,_,-]`, which has the comma, but no zero and no capitals. -/
def nameSet (char : UInt8) : Bool :=
  (49 ≤ char ∧ char ≤ 57) ∨ char = 44 ∨ (97 ≤ char ∧ char ≤ 122) ∨ char = 95 ∨ char = 45

/-- `%[1-9,a-z,_,-,*]`. What a hyphen in the middle of a set means is up to the C library:
here it stands between two commas, which makes it a range for some. -/
def permSet (hyphen : Bool) (char : UInt8) : Bool :=
  (49 ≤ char ∧ char ≤ 57) ∨ char = 44 ∨ (97 ≤ char ∧ char ≤ 122) ∨ char = 95 ∨ char = 42 ∨
    (char = 45 ∧ hyphen)

def ruleFormat (hyphen : Bool) (keyword : String) : List Directive :=
  (ascii keyword).map .literal ++
    [.blanks, .field nameSet, .blanks, .field nameSet, .literal 58, .field nameSet, .blanks,
      .field (permSet hyphen), .literal 59]

def nameFormat (keyword : String) : List Directive :=
  (ascii keyword).map .literal ++ [.blanks, .field nameSet, .literal 59]

/-- `sscanf` into buffers of 256 bytes, each with its terminating zero. -/
def sscanf (stmt : CString) (format : List Directive) : Exec (List Bytes) :=
  let fields := scan format stmt
  if fields.any fun field => 256 ≤ field.length then .error .stackOverflow else .ok fields

/-- `bxxt_sepol_execute_stmt`. A missing library decides about the `hyphen`, and `malloc` is
what the memory of a new rule starts with. -/
def bxxtSepolExecuteStmt (hyphen : Bool) (pdb : Policydb) (stmt : CString) (malloc : AvtabDatum) :
    Exec (Int × Policydb) := do
  match ← sscanf stmt (ruleFormat hyphen "allow") with
  | [src, tgt, cls, perm] => bxxtSepolAllowExt pdb src tgt cls perm false malloc
  | _ =>
    match ← sscanf stmt (ruleFormat hyphen "disallow") with
    | [src, tgt, cls, perm] => bxxtSepolAllowExt pdb src tgt cls perm true malloc
    | _ =>
      match ← sscanf stmt (nameFormat "permissive") with
      | [src] => bxxtSepolSetPermissive pdb src true
      | _ =>
        match ← sscanf stmt (nameFormat "enforce") with
        | [src] => bxxtSepolSetPermissive pdb src false
        | _ =>
          match ← sscanf stmt (nameFormat "create") with
          | [src] => do
            let (r, pdb) ← bxxtSepolCreateDomain pdb src
            .ok (if r < 0 then 1 else 0, pdb)
          | _ => .ok (-1, pdb)

end Statements
end Bxxt
