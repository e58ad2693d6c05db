import Bxxt.Policydb

/-! The type enforcement part of an access decision (`services.c`, `conditional.c`): the rules
of every attribute of the source with every attribute of the target. -/

namespace Bxxt

/-- `sepol_av_decision`, without its sequence number. -/
structure AvDecision where
  allowed : UInt32
  decided : UInt32
  auditallow : UInt32
  auditdeny : UInt32

def teRule (avd : AvDecision) (node : AvtabNode) : AvDecision :=
  if node.key.specified = avtabAllowed then { avd with allowed := avd.allowed ||| node.datum.data }
  else if node.key.specified = avtabAuditallow then { avd with auditallow := avd.auditallow ||| node.datum.data }
  else if node.key.specified = avtabAuditdeny then { avd with auditdeny := avd.auditdeny &&& node.datum.data }
  else avd

/-- One rule of `te_cond_avtab`, which has to be enabled. -/
def condRule (avd : AvDecision) (node : AvtabNode) : AvDecision :=
  let has (kind : UInt16) : Bool := node.key.specified &&& (kind ||| avtabEnabled) == kind ||| avtabEnabled
  let avd := if has avtabAllowed then { avd with allowed := avd.allowed ||| node.datum.data } else avd
  let avd := if has avtabAuditdeny then { avd with auditdeny := avd.auditdeny &&& node.datum.data } else avd
  if has avtabAuditallow then { avd with auditallow := avd.auditallow ||| node.datum.data } else avd

def condComputeAv (ctab : Avtab) (key : AvtabKey) (avd : AvDecision) : AvDecision :=
  (avtabSearchNodes ctab key).foldl condRule avd

/-- The key of two attributes, whose values are cut to 16 bits. -/
def avKey (tclass : UInt16) (i j : Nat) : AvtabKey := ⟨UInt16.ofNat (i + 1), UInt16.ofNat (j + 1), tclass, avtabAv⟩

def teRound (pdb : Policydb) (tclass : UInt16) (i : Nat) (avd : AvDecision) (j : Nat) : AvDecision :=
  condComputeAv pdb.teCondAvtab (avKey tclass i j) ((avtabSearchNodes pdb.teAvtab (avKey tclass i j)).foldl teRule avd)

/-- The beginning of `context_struct_compute_av`: two nested loops over the attributes of the two
types collect what the rules on each pair allow. No decision is made for a class that does not
exist. -/
def contextStructComputeAv (pdb : Policydb) (stype ttype : UInt32) (tclass : UInt16) : Exec (Option AvDecision) :=
  if tclass = 0 ∨ pdb.pClasses.nprim < tclass.toUInt32 then .ok none
  else do
    let sattr ← pdb.typeAttrMap.load (stype - 1).toNat
    let tattr ← pdb.typeAttrMap.load (ttype - 1).toNat
    let avd : AvDecision := ⟨0, 0xffffffff, 0, 0xffffffff⟩
    .ok (some ((ebitmapPositiveBits sattr).foldl
      (fun avd i => (ebitmapPositiveBits tattr).foldl (teRound pdb tclass i) avd) avd))

end Bxxt
