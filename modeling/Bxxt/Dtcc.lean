import Bxxt.DtSource
import Bxxt.FlatTree

/-! `dtcc.c`: a device tree source becomes a blob. The checks of the compiler, which find the references and the paths,
are not run. -/

namespace Bxxt
open ByteLayout SiblingTree

/-- The static variables of the compiler: the number of the next fragment and the last number that a node was given. -/
structure Compiler where
  nextOrphanFragment : Nat
  phandle : Nat

def Compiler.fresh : Compiler := ⟨0, 1⟩

/-- `bxxt_dtcc_dtb_from_source`, behind the parser. -/
def dtbFromTree (dti : DtInfo) (phandle : Nat) : Exec Bytes := do
  let state ← generateLabelTree ⟨dti.dt, phandle⟩ (ascii "__symbols__") true
  dtToMem { dti with dt := state.dt } defaultFdtVersion

def bxxtDtccDtbFromSource (source : DtSource) (compiler : Compiler) : Exec Bytes := do
  let dti ← dtFromSource source compiler.nextOrphanFragment
  dtbFromTree dti compiler.phandle

end Bxxt
