import Bxxt.Sepol
import Bxxt.Proofs.PolicyLoad

/-! What an edit of a rule does to the access vector table. The edit starts from the datum
of the rule, or from the memory that the inserted datum is copied from. -/

namespace Bxxt.Proofs
open Bxxt SortedChain

/-- The bit of a permission in an access vector. Values beyond its width have none. -/
def permBit (value : UInt32) : UInt32 := if value = 0 ∨ 32 < value then 0 else 1 <<< (value - 1)

theorem permMask_ok {value mask : UInt32} (defined : permMask value = .ok mask) : mask = permBit value := by
  rw [permMask] at defined
  rw [permBit]
  split at defined
  next => cases defined
  next inside =>
    cases defined
    rw [if_neg inside]

/-- The vector of the key, without permissions if there is no such rule. -/
def allowedVector (te : Avtab) (k : AvtabKey) : UInt32 := ((avtabSearch te k).map fun node => node.datum.data).getD 0

/-- A key that is searched by one of its own specifiers, so that a rule that is inserted under it is
found again. -/
def SelfHit (k : AvtabKey) : Prop := k.specifiedBits &&& k.specified ≠ 0

theorem allowKey_selfHit (s t : TypeDatum) (c : ClassDatum) : SelfHit (allowKey s t c) := by
  change avtabAllowed &&& ~~~avtabEnabled &&& avtabAllowed ≠ 0
  decide

/-- One rule of the table is changed, from `start`: a rule that was there, or a new one. All other
nodes of its chain and all other chains stay. -/
structure RuleEdited (te after : Avtab) (k : AvtabKey) (start : AvtabNode) (change : AvtabDatum → AvtabDatum) :
    Prop where
  formed : after.WellFormed
  mask : after.mask = te.mask
  chains : ∃ front back,
    (∀ node ∈ front, k.hits node.key = false) ∧ k.hits start.key = true ∧
    (te.chain k = front ++ start :: back ∨ te.chain k = front ++ back ∧ avtabSearch te k = none ∧
      start.key = k) ∧
    ∀ other, after.chain other =
      if avtabHash other te.mask = avtabHash k te.mask then front ++ { start with datum := change start.datum } :: back
      else te.chain other

section Modify
variable {te : Avtab} {k : AvtabKey} {node : AvtabNode} {change : AvtabDatum → AvtabDatum}

theorem modify_edited (formed : te.WellFormed) (found : avtabSearch te k = some node) :
    RuleEdited te (avtabModify te k change) k node change := by
  obtain ⟨wellFormed, _, mask, _, front, back, shape, before, hits, chains⟩ := Avtab.modify_spec formed found change
  exact ⟨wellFormed, mask, front, back, before, hits, Or.inl shape, chains⟩

theorem insert_modify_edited (formed : te.WellFormed) (allocated : te.htable ≠ none) (fresh : avtabSearch te k = none)
    (self : SelfHit k) (datum : AvtabDatum) : ∃ inserted, avtabInsert te k datum = (0, inserted) ∧
      avtabSearch inserted k = some (avtabNewnode k datum) ∧
      RuleEdited te (avtabModify inserted k change) k (avtabNewnode k datum) change := by
  obtain ⟨inserted, result, wellFormed, _, mask, _, chains⟩ := Avtab.insert_fresh formed allocated fresh datum
  have slot : inserted.chain k = te.linkedChain k datum := by rw [chains, if_pos rfl]
  have found : avtabSearch inserted k = some (avtabNewnode k datum) := by
    rw [Avtab.search_eq wellFormed, slot]
    exact Avtab.find?_linkedChain_fresh formed fresh datum self
  obtain ⟨formedAfter, _, maskAfter, _, front, back, shape, before, hits, chainsAfter⟩ :=
    Avtab.modify_spec wellFormed found change
  refine ⟨inserted, result, found, formedAfter, maskAfter.trans mask, ?_⟩
  -- nothing of the old chain is hit, so the new rule is the one that was linked
  have missed : ∀ cur ∈ te.chain k, k.hits cur.key = false := by
    rw [Avtab.search_eq formed, List.find?_eq_none] at fresh
    exact fun cur member => by simpa using fresh cur member
  refine ⟨(te.chain k).takeWhile fun cur => !k.precedes cur.key, (te.chain k).dropWhile fun cur =>
    !k.precedes cur.key, ?_, hits,
    Or.inr ⟨(List.takeWhile_append_dropWhile).symm, fresh, by simp⟩, ?_⟩
  · exact fun cur member => missed cur ((List.takeWhile_sublist _).subset member)
  · intro other
    rw [chainsAfter, mask, chains]
    have linked : front ++ avtabNewnode k datum :: back = te.linkedChain k datum := by rw [← shape, slot]
    have same : (te.chain k).takeWhile (fun cur => !k.precedes cur.key) = front ∧
        (te.chain k).dropWhile (fun cur => !k.precedes cur.key) = back := by
      rw [Avtab.linkedChain, insertBehind] at linked
      obtain ⟨first, _, second⟩ := split_unique before hits
        (fun cur member => missed cur ((List.takeWhile_sublist _).subset member)) hits linked
      exact ⟨first.symm, second.symm⟩
    rw [same.1, same.2]
    split <;> rfl

/-- An edit that succeeds starts from the rule that is there, or from the new one. -/
theorem editRule_edited {after : Avtab} {disallow : Bool} {mask : UInt32} {malloc : AvtabDatum} (formed : te.WellFormed)
    (self : SelfHit k) (edited : editRule te k disallow mask malloc = .ok (bxxtSuccess, after)) :
    RuleEdited te after k ((avtabSearch te k).getD (avtabNewnode k malloc)) (editVector disallow mask) := by
  rw [editRule] at edited
  split at edited
  next node found =>
    cases edited
    rw [found]
    exact modify_edited formed found
  next fresh =>
    by_cases allocated : te.htable = none
    · simp [avtabInsert, allocated, sepolEnomem, bxxtFailed, bxxtSuccess] at edited
    · obtain ⟨inserted, result, found, spec⟩ :=
        @insert_modify_edited _ _ (editVector disallow mask) formed allocated fresh self malloc
      rw [result] at edited
      simp only [ne_eq, not_true_eq_false, if_false, found] at edited
      cases edited
      rw [fresh]
      exact spec

theorem RuleEdited.search {after : Avtab} {start : AvtabNode} (edited : RuleEdited te after k start change) :
    avtabSearch after k = some { start with datum := change start.datum } := by
  obtain ⟨front, back, before, hits, _, chains⟩ := edited.chains
  rw [Avtab.search_eq edited.formed, chains, if_pos rfl, List.find?_append,
    List.find?_eq_none.mpr fun cur member => by simp [before cur member], List.find?_cons]
  simp [hits]

end Modify

/-- What `bxxt_sepol_allow_ext` does, whatever its result: nothing, or an edit of one rule. -/
theorem allowExt_cases {pdb after : Policydb} {src tgt cls perm : CString} {disallow : Bool}
    {malloc : AvtabDatum} {r : Int} (run : bxxtSepolAllowExt pdb src tgt cls perm disallow malloc = .ok (r, after)) :
    after = pdb ∨
      ∃ s t c mask teAvtab, hashtabSearch pdb.pTypes.table src = some s ∧
        hashtabSearch pdb.pTypes.table tgt = some t ∧
        hashtabSearch pdb.pClasses.table cls = some c ∧ after = { pdb with teAvtab } ∧
        editRule pdb.teAvtab (allowKey s t c) disallow mask malloc = .ok (r, teAvtab) := by
  rw [bxxtSepolAllowExt] at run
  split at run
  next => cases run; exact .inl rfl
  next c isClass =>
    split at run
    next => cases run; exact .inl rfl
    next s isSource =>
      split at run
      next => cases run; exact .inl rfl
      next t isTarget =>
        have edits {mask : UInt32} (run : (editRule pdb.teAvtab (allowKey s t c) disallow mask malloc >>= fun result =>
            .ok (result.1, { pdb with teAvtab := result.2 })) = .ok (r, after)) :
              ∃ teAvtab, after = { pdb with teAvtab } ∧
              editRule pdb.teAvtab (allowKey s t c) disallow mask malloc = .ok (r, teAvtab) := by
          obtain ⟨⟨code, teAvtab⟩, edited, result⟩ := Exec.bind_eq_ok.mp run
          cases result
          exact ⟨teAvtab, rfl, edited⟩
        dsimp only at run
        split at run
        next =>
          obtain ⟨teAvtab, edited⟩ := edits run
          exact .inr ⟨s, t, c, _, teAvtab, isSource, isTarget, isClass, edited⟩
        next =>
          split at run
          next => cases run; exact .inl rfl
          next =>
            obtain ⟨mask, _, inner⟩ := Exec.bind_eq_ok.mp run
            obtain ⟨teAvtab, edited⟩ := edits inner
            exact .inr ⟨s, t, c, mask, teAvtab, isSource, isTarget, isClass, edited⟩

theorem allowExt_edited {pdb after : Policydb} {src tgt cls perm : CString} {disallow : Bool} {malloc : AvtabDatum}
    {s t : TypeDatum} {c : ClassDatum} {p : PermDatum} (isClass : hashtabSearch pdb.pClasses.table cls = some c)
    (isSource : hashtabSearch pdb.pTypes.table src = some s) (isTarget : hashtabSearch pdb.pTypes.table tgt = some t)
    (isPerm : findPerm c perm = some p)
    (allowed : bxxtSepolAllowExt pdb src tgt cls perm disallow malloc = .ok (bxxtSuccess, after)) :
    ∃ teAvtab, after = { pdb with teAvtab } ∧
      editRule pdb.teAvtab (allowKey s t c) disallow (if isStar perm then ~~~0 else permBit p.value) malloc =
        .ok (bxxtSuccess, teAvtab) := by
  simp only [bxxtSepolAllowExt, isClass, isSource, isTarget, isPerm] at allowed
  split at allowed
  next star =>
    obtain ⟨⟨r, teAvtab⟩, edit, result⟩ := Exec.bind_eq_ok.mp allowed
    cases result
    exact ⟨teAvtab, rfl, by rw [if_pos star]; exact edit⟩
  next named =>
    obtain ⟨mask, defined, inner⟩ := Exec.bind_eq_ok.mp allowed
    obtain ⟨⟨r, teAvtab⟩, edit, result⟩ := Exec.bind_eq_ok.mp inner
    cases result
    refine ⟨teAvtab, rfl, ?_⟩
    rw [if_neg named, ← permMask_ok defined]
    exact edit

section Vectors

theorem or_eq_right_iff {a b : UInt32} : a ||| b = b ↔ a &&& ~~~b = 0 := by
  rw [← UInt32.toBitVec_inj, ← UInt32.toBitVec_inj]
  simp only [UInt32.toBitVec_or, UInt32.toBitVec_and, UInt32.toBitVec_not]
  constructor
  · intro same
    apply BitVec.eq_of_getLsbD_eq
    intro i inside
    have bit := congrArg (fun map : BitVec 32 => map.getLsbD i) same
    simp only [BitVec.getLsbD_or] at bit
    simp [inside]
    grind
  · intro none
    apply BitVec.eq_of_getLsbD_eq
    intro i inside
    have bit := congrArg (fun map : BitVec 32 => map.getLsbD i) none
    simp [inside] at bit
    simp
    grind

end Vectors

variable {pdb after : Policydb} {src tgt cls perm : CString} {disallow : Bool} {malloc : AvtabDatum}
  {s t : TypeDatum} {c : ClassDatum} {p : PermDatum}

/-- The vector is the old one with or without the permission exactly if the edit starts
from the right bits and has the right mask: a rule that is inserted starts from memory that
nobody has set, and a name that starts with a star stands for all permissions. -/
theorem vector_edited_iff (formed : pdb.teAvtab.WellFormed) (isClass : hashtabSearch pdb.pClasses.table cls = some c)
    (isSource : hashtabSearch pdb.pTypes.table src = some s) (isTarget : hashtabSearch pdb.pTypes.table tgt = some t)
    (isPerm : findPerm c perm = some p)
    (allowed : bxxtSepolAllowExt pdb src tgt cls perm disallow malloc = .ok (bxxtSuccess, after)) :
    allowedVector after.teAvtab (allowKey s t c) =
        (if disallow then allowedVector pdb.teAvtab (allowKey s t c) &&& ~~~permBit p.value
          else allowedVector pdb.teAvtab (allowKey s t c) ||| permBit p.value) ↔
      if isStar perm then
        if disallow then allowedVector pdb.teAvtab (allowKey s t c) &&& ~~~permBit p.value = 0
        else allowedVector pdb.teAvtab (allowKey s t c) ||| permBit p.value = ~~~0
      else avtabSearch pdb.teAvtab (allowKey s t c) ≠ none ∨ malloc.data &&& ~~~permBit p.value = 0 := by
  obtain ⟨teAvtab, rfl, edited⟩ := allowExt_edited isClass isSource isTarget isPerm allowed
  have result := (editRule_edited formed (allowKey_selfHit s t c) edited).search
  have vector : allowedVector teAvtab (allowKey s t c) =
      (editVector disallow (if isStar perm then ~~~0 else permBit p.value)
        ((avtabSearch pdb.teAvtab (allowKey s t c)).getD (avtabNewnode (allowKey s t c) malloc)).datum).data := by
    rw [allowedVector, result]
    rfl
  dsimp only
  rw [vector]
  cases found : avtabSearch pdb.teAvtab (allowKey s t c) with
  | some node =>
    have old : allowedVector pdb.teAvtab (allowKey s t c) = node.datum.data := by rw [allowedVector, found]; rfl
    rw [old]
    cases star : isStar perm with
    | false => cases disallow <;> simp [editVector]
    | true => cases disallow <;> simp [editVector, eq_comm]
  | none =>
    have old : allowedVector pdb.teAvtab (allowKey s t c) = 0 := by rw [allowedVector, found]; rfl
    rw [old, Option.getD_none]
    cases star : isStar perm with
    | false => cases disallow <;> simp [editVector, Avtab.newnode_data, or_eq_right_iff]
    | true =>
      cases disallow with
      | false =>
        simp [editVector]
        exact eq_comm
      | true => simp [editVector]

section FileRule

def fileEdit (perm : CString) (disallow : Bool) (malloc : AvtabDatum)
    (test : AvtabKey → PermDatum → Policydb → Policydb → Bool) (pdb : Policydb) : Bool :=
  (hashtabSearch pdb.pClasses.table (ascii "file")).any fun c =>
    (hashtabSearch pdb.pTypes.table (ascii "init")).any fun s =>
      (hashtabSearch pdb.pTypes.table (ascii "kernel")).any fun t =>
        (findPerm c perm).any fun p =>
          passes (bxxtSepolAllowExt pdb (ascii "init") (ascii "kernel") (ascii "file") perm disallow malloc)
            fun result =>
            result.1 == bxxtSuccess && test (allowKey s t c) p pdb result.2

variable {test : AvtabKey → PermDatum → Policydb → Policydb → Bool}

theorem fileEdit_run (edits : readsTo fileImage (fileEdit perm disallow malloc test) = true) : ∃ pdb c s t p after,
    Loaded pdb ∧ hashtabSearch pdb.pClasses.table (ascii "file") = some c ∧
      hashtabSearch pdb.pTypes.table (ascii "init") = some s ∧
        hashtabSearch pdb.pTypes.table (ascii "kernel") = some t ∧
      findPerm c perm = some p ∧
      bxxtSepolAllowExt pdb (ascii "init") (ascii "kernel") (ascii "file") perm disallow malloc =
        .ok (bxxtSuccess, after) ∧
      test (allowKey s t c) p pdb after = true := by
  obtain ⟨pdb, loaded, tested⟩ := loaded_of_readsTo edits
  simp only [fileEdit, Option.any_eq_true, passes_iff, Bool.and_eq_true, beq_iff_eq] at tested
  obtain ⟨c, isClass, s, isSource, t, isTarget, p, isPerm, ⟨r, after⟩, run, rfl, passed⟩ := tested
  exact ⟨pdb, c, s, t, p, after, loaded, isClass, isSource, isTarget, isPerm, run, passed⟩

theorem clear_rule_grants_read : ∃ pdb c s t p after, Loaded pdb ∧
    hashtabSearch pdb.pClasses.table (ascii "file") = some c ∧ findPerm c (ascii "read") = some p ∧
      bxxtSepolAllowExt pdb (ascii "init") (ascii "kernel") (ascii "file") (ascii "read") false ⟨0, none⟩ =
        .ok (bxxtSuccess, after) ∧
      allowedVector after.teAvtab (allowKey s t c) = allowedVector pdb.teAvtab (allowKey s t c) |||
        permBit p.value := by
  obtain ⟨pdb, c, s, t, p, after, loaded, isClass, isSource, isTarget, isPerm, run, _⟩ :=
    @fileEdit_run (ascii "read") false ⟨0, none⟩ (fun _ _ _ _ => true) (by decide +kernel)
  refine ⟨pdb, c, s, t, p, after, loaded, isClass, isPerm, run, ?_⟩
  apply (vector_edited_iff (loaded_consistent loaded).1.rules isClass isSource isTarget isPerm run).mpr
  rw [if_neg (by decide)]
  exact Or.inr (by simp)

/-- A new rule with other bits in its memory grants what nobody asked for. -/
theorem dirty_rule_grants_more : ∃ pdb c s t p malloc after, Loaded pdb ∧
    hashtabSearch pdb.pClasses.table (ascii "file") = some c ∧
      hashtabSearch pdb.pTypes.table (ascii "init") = some s ∧
      hashtabSearch pdb.pTypes.table (ascii "kernel") = some t ∧ findPerm c (ascii "read") = some p ∧
      bxxtSepolAllowExt pdb (ascii "init") (ascii "kernel") (ascii "file") (ascii "read") false malloc =
        .ok (bxxtSuccess, after) ∧
      allowedVector after.teAvtab (allowKey s t c) ≠ allowedVector pdb.teAvtab (allowKey s t c) |||
        permBit p.value := by
  obtain ⟨pdb, c, s, t, p, after, loaded, isClass, isSource, isTarget, isPerm, run, passed⟩ :=
    @fileEdit_run (ascii "read") false ⟨0xffffffff, none⟩ (fun k p pdb after =>
      allowedVector after.teAvtab k != allowedVector pdb.teAvtab k ||| permBit p.value) (by decide +kernel)
  exact ⟨pdb, c, s, t, p, _, after, loaded, isClass, isSource, isTarget, isPerm, run, by simpa using passed⟩

end FileRule
end Bxxt.Proofs
