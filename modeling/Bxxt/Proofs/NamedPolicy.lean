import Bxxt.Proofs.RuleEdits

/-! A policy for any names: two types, or one if they are the same, and a class with one
permission. It is read from an image, as every other policy is. -/

namespace Bxxt.Proofs
open Bxxt ByteLayout

def namedType (value : UInt32) : TypeDatum := ⟨value, 1, typeType, .empty, 0⟩

def namedClass (perm : Bytes) : ClassDatum :=
  ⟨1, none, ⟨(symtabInit PermDatum permSymtabSize).table.linked (cstring perm) ⟨1⟩, 1⟩⟩

def namedTypes (src tgt : Bytes) : List TypeRecord :=
  if cstring src = cstring tgt then [⟨src, 1, 1⟩] else [⟨src, 1, 1⟩, ⟨tgt, 2, 1⟩]

def namedImage (src tgt cls perm : Bytes) : PolicyImage :=
  smallImage [⟨cls, [], 1, 1, [⟨perm, 1⟩]⟩] (namedTypes src tgt) [(⟨0, 0, 0, avtabAllowed⟩, ⟨0, none⟩)]

section Symbols
variable {src tgt cls perm : Bytes}

theorem insertSymbol_fresh {α : Type} {h : Hashtab CString α} {name : Bytes} (some : name ≠ [])
    (fresh : hashtabSearch h (cstring name) = none) (datum : α) :
    insertSymbol h name datum = Option.some (h.linked (cstring name) datum) := by
  rw [insertSymbol, if_neg some, Hashtab.insert_fresh fresh]
  rfl

theorem readClasses_named (isClass : cls ≠ []) (isPerm : perm ≠ []) (commons : Hashtab CString CommonDatum) :
    readSection (classRead commons) policydbInit.pClasses (namedImage src tgt cls perm).classes =
      some ⟨policydbInit.pClasses.table.linked (cstring cls) (namedClass perm), 1⟩ := by
  have size : permSymtabSize ≠ 0 := by decide
  have noClass : hashtabSearch policydbInit.pClasses.table (cstring cls) = none := search_empty (by decide) _
  have perms : readPerms 1 [⟨perm, 1⟩] = some (namedClass perm).permissions := by
    rw [readPerms, List.foldlM_cons, permRead, insertSymbol_fresh isPerm (search_empty size _)]
    rfl
  have read : classRead commons policydbInit.pClasses.table ⟨cls, [], 1, 1, [⟨perm, 1⟩]⟩ =
      some (policydbInit.pClasses.table.linked (cstring cls) (namedClass perm)) := by
    rw [classRead, perms]
    exact insertSymbol_fresh isClass noClass _
  rw [readSection, if_neg (by simp [namedImage, smallImage])]
  change (List.foldlM _ _ [_] >>= _) = _
  rw [List.foldlM_cons, read]
  rfl

theorem readTypes_named (isSource : src ≠ []) (isTarget : tgt ≠ []) : ∃ table,
    readSection (typeRead true) policydbInit.pTypes (namedImage src tgt cls perm).types =
      some ⟨table, UInt32.ofNat (namedTypes src tgt).length⟩ ∧
    hashtabSearch table (cstring src) = some (namedType 1) ∧
    hashtabSearch table (cstring tgt) = some (namedType (if cstring src = cstring tgt then 1 else 2)) ∧
    ∀ key type, hashtabSearch table key = some type → key = cstring src ∧ type = namedType 1 ∨
      cstring src ≠ cstring tgt ∧ key = cstring tgt ∧ type = namedType 2 := by
  have empty (key : CString) : hashtabSearch policydbInit.pTypes.table key = none := search_empty (by decide) _
  have formed : policydbInit.pTypes.table.WellFormed := symtabInit_wellFormed (by decide)
  have read {h : Hashtab CString TypeDatum} {name : Bytes} {value : UInt32} (some : name ≠ [])
      (fresh : hashtabSearch h (cstring name) = none) :
      typeRead true h ⟨name, value, 1⟩ = Option.some (h.linked (cstring name) (namedType value)) := by
    rw [← insertSymbol_fresh some fresh]
    have noAttribute : (1 : UInt32) &&& 2 = 0 := by decide
    simp [typeRead, namedType, typedatumPropertyPrimary, typedatumPropertyAttribute, noAttribute]
  have first (key : CString) := @Hashtab.search_linked _ _ _ _ _ (namedType 1) formed (empty (cstring src)) key
  by_cases same : cstring src = cstring tgt
  · refine ⟨policydbInit.pTypes.table.linked (cstring src) (namedType 1), ?_, by rw [first, if_pos rfl],
      by rw [first, if_pos same.symm, if_pos same], ?_⟩
    · rw [namedTypes, if_pos same, readSection, if_neg (by simp [namedImage, smallImage, namedTypes, same])]
      simp only [namedImage, smallImage, namedTypes, if_pos same]
      rw [List.foldlM_cons, read isSource (empty _)]
      rfl
    · intro key type found
      rw [first, empty] at found
      split at found
      next is => cases found; exact Or.inl ⟨is, rfl⟩
      next => cases found
  · have fresh : hashtabSearch (policydbInit.pTypes.table.linked (cstring src) (namedType 1))
      (cstring tgt) = none := by
      rw [first, if_neg (Ne.symm same), empty]
    have linked : (policydbInit.pTypes.table.linked (cstring src) (namedType 1)).WellFormed :=
      Hashtab.linked_wellFormed formed (empty _)
    have second (key : CString) := @Hashtab.search_linked _ _ _ _ _ (namedType 2) linked fresh key
    refine ⟨(policydbInit.pTypes.table.linked (cstring src) (namedType 1)).linked (cstring tgt) (namedType 2), ?_,
      by rw [second, if_neg same, first, if_pos rfl], by rw [second, if_pos rfl, if_neg same], ?_⟩
    · rw [namedTypes, if_neg same, readSection, if_neg (by simp [namedImage, smallImage, namedTypes, same])]
      simp only [namedImage, smallImage, namedTypes, if_neg same]
      have both : List.foldlM (typeRead true) policydbInit.pTypes.table [⟨src, 1, 1⟩, ⟨tgt, 2, 1⟩] =
          some ((policydbInit.pTypes.table.linked (cstring src) (namedType 1)).linked (cstring tgt) (namedType 2)) := by
        rw [List.foldlM_cons, read isSource (empty _)]
        change List.foldlM (typeRead true) _ [_] = _
        rw [List.foldlM_cons, read isTarget fresh]
        rfl
      rw [both]
      rfl
    · intro key type found
      rw [second, first, empty] at found
      split at found
      next is => cases found; exact Or.inr ⟨same, is, rfl⟩
      next =>
        split at found
        next is => cases found; exact Or.inl ⟨is, rfl⟩
        next => cases found

def namedTables (table : Hashtab CString TypeDatum) (nprim : UInt32) (cls perm : Bytes) (teAvtab : Avtab) : Policydb :=
  { policydbInit with
    pClasses := ⟨policydbInit.pClasses.table.linked (cstring cls) (namedClass perm), 1⟩
    pTypes := ⟨table, nprim⟩
    teAvtab }

theorem readRules_named :
    ∃ te, avtabRead [(⟨0, 0, 0, avtabAllowed⟩, ⟨0, none⟩)] = some te ∧ te.htable ≠ none := by
  have read : (avtabRead [(⟨0, 0, 0, avtabAllowed⟩, ⟨0, none⟩)]).any (fun te => te.htable.isSome) = true := by
    decide +kernel
  obtain ⟨te, done, allocated⟩ := (Option.any_eq_true ..).mp read
  exact ⟨te, done, Option.isSome_iff_ne_none.mp allocated⟩

theorem readTables_named {table : Hashtab CString TypeDatum} {te : Avtab} (isClass : cls ≠ []) (isPerm : perm ≠ [])
    (types : readSection (typeRead true) policydbInit.pTypes (namedImage src tgt cls perm).types =
      some ⟨table, UInt32.ofNat (namedTypes src tgt).length⟩)
    (rules : avtabRead [(⟨0, 0, 0, avtabAllowed⟩, ⟨0, none⟩)] = some te) :
    readTables (namedImage src tgt cls perm) =
      some (namedTables table (UInt32.ofNat (namedTypes src tgt).length) cls perm te) := by
  have permissive : readPermissive (namedImage src tgt cls perm) = some .empty := rfl
  have commons : readSection commonRead policydbInit.pCommons (namedImage src tgt cls perm).commons =
    some policydbInit.pCommons := rfl
  have roles : readSection roleRead policydbInit.pRoles (namedImage src tgt cls perm).roles =
    some policydbInit.pRoles := rfl
  have users : readSection userRead policydbInit.pUsers (namedImage src tgt cls perm).users =
    some policydbInit.pUsers := rfl
  have bools : readSection condReadBool policydbInit.pBools (namedImage src tgt cls perm).bools =
    some policydbInit.pBools := rfl
  have levels : readSection sensRead policydbInit.pLevels (namedImage src tgt cls perm).levels =
    some policydbInit.pLevels := rfl
  have cats : readSection catRead policydbInit.pCats (namedImage src tgt cls perm).cats = some policydbInit.pCats := rfl
  have typesRead :
    readSection (typeRead (decide ((namedImage src tgt cls perm).policyvers ≥ policydbVersionBoundary)))
      policydbInit.pTypes (namedImage src tgt cls perm).types = _ := types
  have te' : avtabRead (namedImage src tgt cls perm).rules = some te := rules
  rw [readTables]
  simp only [permissive, commons, readClasses_named isClass isPerm, roles, typesRead, users, bools, levels, cats, te']
  rfl

theorem indexClasses_named (table : Hashtab CString TypeDatum) (nprim : UInt32) (cls perm : Bytes) (te : Avtab) :
    policydbIndexClasses (namedTables table nprim cls perm te) = .ok 0 := by
  let p := namedTables table nprim cls perm te
  have empty (key : CString) : hashtabSearch policydbInit.pClasses.table key = none := search_empty (by decide) _
  have formed : policydbInit.pClasses.table.WellFormed := symtabInit_wellFormed (by decide)
  have found (key : CString) := @Hashtab.search_linked _ _ _ _ _ (namedClass perm) formed (empty (cstring cls)) key
  have only {key : CString} {datum : ClassDatum} (isClass : hashtabSearch p.pClasses.table key = some datum) :
      key = cstring cls ∧ datum.value = 1 := by
    have isClass := (found key).symm.trans isClass
    split at isClass
    next is => cases isClass; exact ⟨is, rfl⟩
    next => rw [empty] at isClass; cases isClass
  have indexes : Indexes (classIndex p) (fun datum => some datum.value) p.pClasses.nprim := fun _ _ _ => rfl
  obtain ⟨names, indexed, _⟩ := indexTable_ok (Hashtab.linked_wellFormed formed (empty _)) indexes ⟨by
      intro key datum value isClass is
      cases is
      rw [(only isClass).2]
      exact ⟨by decide, (by decide : (1 : UInt32) ≤ 1)⟩, by
      intro key datum value key' datum' isClass _ isClass' _
      rw [(only isClass).1, (only isClass').1]⟩
  have commons : indexTable (commonIndex p) p.pCommons.table = .ok (0, fun _ => none) := rfl
  rw [policydbIndexClasses]
  change (indexTable (commonIndex p) p.pCommons.table >>= _) = _
  rw [commons, Exec.ok_bind]
  have classes : indexTable (classIndex p) p.pClasses.table = .ok (0, names) := indexed
  change (indexTable (classIndex p) p.pClasses.table >>= _) = _
  rw [classes]
  rfl

structure NamedTypes (src tgt : Bytes) (table : Hashtab CString TypeDatum) : Prop where
  source : hashtabSearch table (cstring src) = some (namedType 1)
  target : hashtabSearch table (cstring tgt) = some (namedType (if cstring src = cstring tgt then 1 else 2))
  only : ∀ key type, hashtabSearch table key = some type → key = cstring src ∧ type = namedType 1 ∨
    cstring src ≠ cstring tgt ∧ key = cstring tgt ∧ type = namedType 2

theorem namedTypes_length (src tgt : Bytes) :
    UInt32.ofNat (namedTypes src tgt).length = if cstring src = cstring tgt then 1 else 2 := by
  rw [namedTypes]
  split <;> rfl

theorem NamedTypes.indexable {table : Hashtab CString TypeDatum} (named : NamedTypes src tgt table) :
    Indexable table listedType (UInt32.ofNat (namedTypes src tgt).length) := by
  rw [namedTypes_length]
  constructor
  case range =>
    intro key type value found is
    rcases named.only key type found with ⟨_, rfl⟩ | ⟨differ, _, rfl⟩
    · cases is
      split <;> decide
    · cases is
      rw [if_neg differ]
      decide
  case unique =>
    intro key type value key' type' found is found' is'
    rcases named.only key type found with ⟨same, rfl⟩ | ⟨_, same, rfl⟩ <;>
      rcases named.only key' type' found' with ⟨same', rfl⟩ | ⟨_, same', rfl⟩
    · exact same.trans same'.symm
    · exact absurd (is.trans is'.symm) (by decide)
    · exact absurd (is.trans is'.symm) (by decide)
    · exact same.trans same'.symm

theorem roles_named (key : CString) : hashtabSearch policydbInit.pRoles.table key =
    if key = objectR then some ⟨objectRVal, ⟨.empty, .empty, 0⟩, .empty⟩ else none := by
  have empty (key : CString) : hashtabSearch (symtabInit RoleDatum 16).table key = none := search_empty (by decide) _
  have linked : policydbInit.pRoles.table =
      (symtabInit RoleDatum 16).table.linked objectR ⟨objectRVal, ⟨.empty, .empty, 0⟩, .empty⟩ := by
    rw [policydbInit]
    simp only [Hashtab.insert_fresh (empty objectR)]
  rw [linked, Hashtab.search_linked (symtabInit_wellFormed (by decide)) (empty objectR), empty]

theorem indexOthers_named {table : Hashtab CString TypeDatum} {te : Avtab} (named : NamedTypes src tgt table)
    (tables : Tables (namedTables table (UInt32.ofNat (namedTypes src tgt).length) cls perm te)) :
    ∃ q, policydbIndexOthers (namedTables table (UInt32.ofNat (namedTypes src tgt).length) cls perm te) =
      .ok (0, q) := by
  let p := namedTables table (UInt32.ofNat (namedTypes src tgt).length) cls perm te
  have counted : p.pTypes.nprim ≠ 0 := by
    change UInt32.ofNat (namedTypes src tgt).length ≠ 0
    rw [namedTypes_length]
    split <;> decide
  have roleValues : Indexable p.pRoles.table listedRole p.pRoles.nprim := by
    constructor
    case range =>
      intro key role value found is
      rw [show hashtabSearch p.pRoles.table key = _ from roles_named key] at found
      split at found
      next => cases found; cases is; exact ⟨by decide, (by decide : (1 : UInt32) ≤ 1)⟩
      next => cases found
    case unique =>
      intro key role value key' role' found _ found' _
      rw [show hashtabSearch p.pRoles.table key = _ from roles_named key] at found
      rw [show hashtabSearch p.pRoles.table key' = _ from roles_named key'] at found'
      split at found
      next same =>
        split at found'
        next same' => rw [same, same']
        next => cases found'
      next => cases found
  obtain ⟨roleNames, roles, _⟩ := indexTable_ok tables.roles (roleIndex_indexes p) roleValues
  obtain ⟨typeNames, types, _⟩ := indexTable_ok tables.types (typeIndex_indexes p) named.indexable
  obtain ⟨table', cached, _⟩ := @cacheRoles_ok (indexed p roleNames typeNames) p.pRoles.table tables.roles (by
    intro key role found
    rw [show hashtabSearch p.pRoles.table key = _ from roles_named key] at found
    split at found
    next =>
      cases found
      obtain ⟨cache, expanded, _⟩ := @typeSetExpand_ok (indexed p roleNames typeNames) ⟨.empty, .empty, 0⟩
        ⟨.empty, rfl, rfl⟩ (by
        intro i holds
        exact absurd holds (Ebitmap.not_holds_empty i))
      exact ⟨cache, expanded⟩
    next => cases found)
  refine ⟨_, indexOthers_iff.mpr ⟨roleNames, typeNames, table', ?_, ?_, ⟨_, rfl⟩, ⟨_, rfl⟩, ⟨_, rfl⟩,
    ⟨_, rfl⟩, cached, rfl⟩⟩
  · exact (if_neg (by decide : (1 : UInt32) ≠ 0)).trans roles
  · exact (if_neg counted).trans types

/-- The loop over the types succeeds if every type has no attributes in the image and is none. -/
theorem readTypeMaps_ok {image : PolicyImage} (versions : image.policyvers ≥ policydbVersionAvtab)
    {is : List Nat} {p : Policydb} (none : ∀ i ∈ is, image.typeAttr i = ⟨0, []⟩)
    (room : ∀ i ∈ is, i ≤ Ebitmap.maxBit)
    (regular : ∀ i ∈ is, ∃ type, typeStruct p i = .ok (some type) ∧ type.flavor ≠ typeAttrib)
    (maps : ∀ i ∈ is, ∃ types, p.attrTypeMap i = some types ∧ types.WellFormed) :
    ∃ q, readTypeMaps image is p = .ok (some q) := by
  induction is generalizing p with
  | nil => exact ⟨p, rfl⟩
  | cons i rest ih =>
    obtain ⟨noAttributes, none⟩ := List.forall_mem_cons.mp none
    obtain ⟨fits, room⟩ := List.forall_mem_cons.mp room
    obtain ⟨⟨type, struct, noAttribute⟩, regular⟩ := List.forall_mem_cons.mp regular
    obtain ⟨⟨types, loaded, formed⟩, maps⟩ := List.forall_mem_cons.mp maps
    obtain ⟨own, set, _⟩ := setBit_ofNat .empty fits
    obtain ⟨with_i, set', formed', _⟩ := setBit_ofNat formed fits
    have attrs : ebitmapRead ⟨0, []⟩ = some .empty := rfl
    have bits : ebitmapPositiveBits .empty = [] := rfl
    have struct' : typeStruct { p with typeAttrMap := Function.update p.typeAttrMap i (some own) } i =
      .ok (some type) := struct
    have step : readTypeMaps image (i :: rest) p = readTypeMaps image rest
        { p with
          typeAttrMap := Function.update p.typeAttrMap i (some own)
          attrTypeMap := Function.update p.attrTypeMap i (some with_i) } := by
      rw [readTypeMaps, if_pos versions, noAttributes, attrs]
      simp only [bits, invertAttrs, set, struct', ne_eq, not_true_eq_false, if_false, Exec.ok_bind, Option.any_some,
        bne_iff_ne, noAttribute, not_false_eq_true, if_true, HeapArray.load, loaded, set']
    rw [step]
    refine ih none room regular ?_
    intro j later
    by_cases same : j = i
    · subst same
      exact ⟨with_i, Function.update_self .., formed'⟩
    · obtain ⟨types', loaded', wellFormed⟩ := maps j later
      exact ⟨types', by rw [← loaded']; exact Function.update_of_ne same .., wellFormed⟩

/-- The policy of the image has the names, and a table that takes rules. -/
theorem named_loaded (isSource : src ≠ []) (isTarget : tgt ≠ []) (isClass : cls ≠ []) (isPerm : perm ≠ []) :
    ∃ p, Loaded p ∧
    (∃ s, hashtabSearch p.pTypes.table (cstring src) = some s) ∧
      (∃ t, hashtabSearch p.pTypes.table (cstring tgt) = some t) ∧
    hashtabSearch p.pClasses.table (cstring cls) = some (namedClass perm) ∧ p.teAvtab.htable ≠ none := by
  obtain ⟨table, typesRead, source, target, only⟩ := @readTypes_named src tgt cls perm isSource isTarget
  have named : NamedTypes src tgt table := ⟨source, target, only⟩
  obtain ⟨te, rules, allocated⟩ := readRules_named
  have tablesRead := readTables_named isClass isPerm typesRead rules
  obtain ⟨q, done⟩ := @indexOthers_named src tgt cls perm table te named (readTables_tables tablesRead)
  have consistent := indexOthers_consistent (readTables_tables tablesRead) done
  obtain ⟨roleNames, typeNames, roles, _, _, _, _, _, _, _, rfl⟩ := indexOthers_iff.mp done
  have few : (UInt32.ofNat (namedTypes src tgt).length).toNat ≤ 2 := by
    rw [namedTypes_length]
    split <;> decide
  obtain ⟨q, maps⟩ := @readTypeMaps_ok (namedImage src tgt cls perm)
    (by decide : (30 : UInt32) ≥ policydbVersionAvtab)
    (List.range (UInt32.ofNat (namedTypes src tgt).length).toNat)
    { indexed (namedTables table (UInt32.ofNat (namedTypes src tgt).length) cls perm te) roleNames typeNames with
      pRoles := ⟨roles, 1⟩
      typeAttrMap := .calloc (UInt32.ofNat (namedTypes src tgt).length).toNat .empty
      attrTypeMap := .calloc (UInt32.ofNat (namedTypes src tgt).length).toNat .empty }
    (fun _ _ => rfl)
    (fun i member => by
      have := List.mem_range.mp member
      rw [Ebitmap.maxBit, mapsize]
      omega)
    (fun i member => by
      have inside := List.mem_range.mp member
      rw [namedTypes_length] at inside
      have at_i {type : TypeDatum} := @typeStruct_iff _ consistent.typeValues consistent.typeArray i type
      by_cases first : i = 0
      · exact ⟨namedType 1, at_i.mpr ⟨cstring src, source, (by decide : (1 : UInt32) ≠ 0), by rw [first]; rfl⟩,
          (by decide : typeType ≠ typeAttrib)⟩
      · split at inside
        next => exact absurd inside (by change ¬ i < 1; omega)
        next differ =>
          rw [if_neg differ] at target
          change i < 2 at inside
          have second : i = 1 := by omega
          exact ⟨namedType 2, at_i.mpr ⟨cstring tgt, target, (by decide : (1 : UInt32) ≠ 0),
            by rw [second]; rfl⟩,
            (by decide : typeType ≠ typeAttrib)⟩)
    (fun i member => ⟨.empty, if_pos (List.mem_range.mp member), .empty⟩)
  obtain ⟨⟨typeAttrMap, attrTypeMap, shape⟩, _⟩ := readTypeMaps_spec (fun i member => by
    have := List.mem_range.mp member
    omega) maps
  refine ⟨q, ⟨namedImage src tgt cls perm, ?_⟩, ?_⟩
  · rw [policydbRead, tablesRead]
    dsimp only
    rw [indexClasses_named, Exec.ok_bind, if_neg (by decide), done, Exec.ok_bind]
    exact maps
  · subst shape
    refine ⟨⟨_, source⟩, ⟨_, target⟩, ?_, allocated⟩
    have empty (key : CString) : hashtabSearch policydbInit.pClasses.table key = none := search_empty (by decide) _
    exact (Hashtab.search_linked (symtabInit_wellFormed (by decide)) (empty _) _).trans (if_pos rfl)

theorem findPerm_own {c : ClassDatum} (alone : c.comdatum = none) (perm : CString) :
    findPerm c perm = hashtabSearch c.permissions.table perm := by
  rw [findPerm, alone]
  cases hashtabSearch c.permissions.table perm with
  | none => rfl
  | some p => rfl

theorem findPerm_named (perm : Bytes) (name : CString) :
    findPerm (namedClass perm) name = if name = cstring perm then some ⟨1⟩ else none := by
  have empty (key : CString) : hashtabSearch (symtabInit PermDatum permSymtabSize).table key = none :=
    search_empty (by decide) _
  have found := @Hashtab.search_linked _ _ _ _ _ (⟨1⟩ : PermDatum) (symtabInit_wellFormed (by decide))
    (empty (cstring perm)) name
  rw [empty] at found
  rw [findPerm_own rfl]
  exact found

end Symbols
section Edits
variable {src tgt cls perm : Bytes}

theorem editRule_ok {te : Avtab} (formed : te.WellFormed) (allocated : te.htable ≠ none) {k : AvtabKey}
    (self : SelfHit k) (disallow : Bool) (mask : UInt32) (malloc : AvtabDatum) :
    ∃ after, editRule te k disallow mask malloc = .ok (bxxtSuccess, after) := by
  rw [editRule]
  split
  next => exact ⟨_, rfl⟩
  next fresh =>
    obtain ⟨inserted, result, found, _⟩ := @insert_modify_edited _ _ id formed allocated fresh self malloc
    rw [result]
    simp only [ne_eq, not_true_eq_false, if_false, found]
    exact ⟨_, rfl⟩

/-- For any four names there is a policy in which a rule with them is edited. Another
permission is unknown there. -/
theorem rule_succeeds (isSource : src ≠ []) (isTarget : tgt ≠ []) (isClass : cls ≠ []) (isPerm : perm ≠ []) :
    ∃ p, Loaded p ∧
    ∀ disallow malloc, (∃ q, bxxtSepolAllowExt p (cstring src) (cstring tgt) (cstring cls) (cstring perm) disallow
      malloc = .ok (0, q)) ∧
      ∀ other, isStar other = false → other ≠ cstring perm →
        bxxtSepolAllowExt p (cstring src) (cstring tgt) (cstring cls) other disallow malloc = .ok (bxxtFailed, p) := by
  obtain ⟨p, loaded, ⟨s, source⟩, ⟨t, target⟩, ofClass, allocated⟩ :=
    named_loaded isSource isTarget isClass isPerm
  refine ⟨p, loaded, ?_⟩
  intro disallow malloc
  have edits (mask : UInt32) := editRule_ok (loaded_consistent loaded).1.rules allocated
    (allowKey_selfHit s t (namedClass perm))
    disallow mask malloc
  constructor
  · simp only [bxxtSepolAllowExt, source, target, ofClass]
    split
    next =>
      obtain ⟨after, edited⟩ := edits (~~~0)
      rw [edited]
      exact ⟨_, rfl⟩
    next =>
      rw [findPerm_named, if_pos rfl]
      obtain ⟨after, edited⟩ := edits 1
      have mask : permMask 1 = .ok 1 := rfl
      simp only [mask, Exec.ok_bind, edited]
      exact ⟨_, rfl⟩
  · intro other plain differs
    simp only [bxxtSepolAllowExt, source, target, ofClass, plain, findPerm_named, if_neg differs]
    rfl

end Edits
end Bxxt.Proofs
