import Bxxt.Lib.EventLog
import Bxxt.Sepol

/-! `sepol_main` and `sepol_rtexec`, with a log of what they do outside of the process and with
freed memory. How a policy is cut from its bytes, and put together, is up to the machine. -/

namespace Bxxt
open ByteLayout EventLog

inductive Stage where
  | load
  | execute
  | serialise
  deriving DecidableEq

inductive SepolEvent where
  | failed (stage : Stage)
  | wrote (file : CString) (data : Bytes)
  | usedFreed
  deriving DecidableEq

abbrev SepolRun := Logged Fault SepolEvent

/-- What `policydb_read` makes of a file. A policy has fields behind those that are modelled. Of a
refused one remains whether its version is one that `policydb_lookup_compat` knows. -/
inductive ReadResult (ρ : Type) where
  | accepted (pdb : Policydb) (rest : ρ)
  | refused (versioned : Bool)

/-- The database of a run. `policydb_destroy` keeps the pointers to the tables. -/
inductive Database (ρ : Type) where
  | live (pdb : Policydb) (rest : ρ)
  | destroyed (versioned : Bool)

structure Machine (ρ : Type) where
  content : CString → Option Bytes
  writable : CString → Bool
  /-- What `write` returns. -/
  written : CString → Bytes → Int
  policydbRead : Bytes → Exec (ReadResult ρ)
  /-- `policydb_to_image` of a database with its tables. -/
  toImage : Policydb → ρ → Exec (Option Bytes)
  /-- What `policydb_init` leaves in the other fields. -/
  init : ρ
  hyphen : Bool
  malloc : AvtabDatum

/-- `/sys/fs/selinux/policy`. -/
def kernelPolicy : CString := ascii "/sys/fs/selinux/policy"

/-- `/sys/fs/selinux/load`. -/
def kernelLoad : CString := ascii "/sys/fs/selinux/load"

section Database
variable {ρ : Type} (m : Machine ρ)

/-- A step into tables that are not there any more. The run is marked before it ends, so that the use of
freed memory can be told from other faults. -/
def useFreed {α : Type} : SepolRun α := do
  emit .usedFreed
  quiet (.error .outOfBounds)

/-- The formats of all statements, with the number of names that each has to yield. -/
def stmtFormats (hyphen : Bool) : List (List ScanFormat.Directive × Nat) :=
  [(ruleFormat hyphen "allow", 4), (ruleFormat hyphen "disallow", 4), (nameFormat "permissive", 1),
    (nameFormat "enforce", 1), (nameFormat "create", 1)]

/-- Whether a statement comes to an edit. Every edit begins with a search in a table. -/
def searchesTables (hyphen : Bool) (stmt : CString) : List (List ScanFormat.Directive × Nat) → Exec Bool
  | [] => .ok false
  | (format, count) :: rest => do
    let names ← sscanf stmt format
    if names.length = count then .ok true else searchesTables hyphen stmt rest

def bxxtSepolLoadPolicyFile (file : CString) : SepolRun (Int × Database ρ) :=
  match bxxtFileOpenMm (m.content file) with
  | none => do
    emit (.failed .load)
    return (bxxtFailed, .live policydbInit m.init)
  | some sepol => do
    match ← quiet (m.policydbRead sepol.bytes) with
    | .accepted pdb rest => return (bxxtSuccess, .live pdb rest)
    | .refused versioned => do
      emit (.failed .load)
      return (bxxtFailed, .destroyed versioned)

def executeOn (stmt : CString) : Database ρ → SepolRun (Int × Database ρ)
  | .live pdb rest => do
    let (r, pdb) ← quiet (bxxtSepolExecuteStmt m.hyphen pdb stmt m.malloc)
    if r ≠ 0 then emit (.failed .execute)
    return (r, .live pdb rest)
  | .destroyed versioned => do
    if ← quiet (searchesTables m.hyphen stmt (stmtFormats m.hyphen)) then useFreed
    else do
      emit (.failed .execute)
      return (-1, .destroyed versioned)

/-- `policydb_to_image`. The version is looked up before the tables are written. -/
def policydbToImage : Database ρ → SepolRun (Option Bytes)
  | .live pdb rest => do
    let image ← quiet (m.toImage pdb rest)
    if image.isNone then emit (.failed .serialise)
    return image
  | .destroyed versioned =>
    if versioned then useFreed
    else do
      emit (.failed .serialise)
      return none

def bxxtSepolSavePolicyFile (db : Database ρ) (file : CString) : SepolRun Int := do
  match ← policydbToImage m db with
  | none => return bxxtFailed
  | some data =>
    if m.writable file then do
      emit (.wrote file data)
      return asInt data.length
    else return bxxtFailed

/-- `bxxt_sepol_reload_kernel_policy`. Without an image it writes the no bytes it began with. -/
def bxxtSepolReloadKernelPolicy (db : Database ρ) : SepolRun Int := do
  let data := (← policydbToImage m db).getD []
  if m.writable kernelLoad then do
    emit (.wrote kernelLoad data)
    return if m.written kernelLoad data = data.length then bxxtSuccess else bxxtFailed
  else return bxxtFailed

/-- `bxxt_sepol_free`, which destroys the database again where loading did. -/
def bxxtSepolFree : Database ρ → SepolRun Unit
  | .live _ _ => pure ()
  | .destroyed _ => useFreed

end Database

section Files

structure OpenFlags where
  creat : Bool
  trunc : Bool

def OpenFlags.content (flags : OpenFlags) : Option Bytes → Option Bytes
  | none => if flags.creat then some [] else none
  | some content => some (if flags.trunc then [] else content)

/-- `O_RDWR|O_CREAT`, with which a policy is saved. -/
def saveFlags : OpenFlags := ⟨true, false⟩

/-- A file behind a `write` to its start, which need not take all of the data. -/
def overwrite (content data : Bytes) (written : Int) : Bytes :=
  let count := min written.toNat data.length
  data.take count ++ content.drop count

def Machine.onFile {ρ : Type} (m : Machine ρ) (file : CString) (content : Option Bytes) : SepolEvent → Option Bytes
  | .wrote name data =>
    if name = file then (saveFlags.content content).map fun content => overwrite content data (m.written file data)
    else content
  | _ => content

end Files

section Main
variable {ρ : Type} (m : Machine ρ)

inductive SepolOption where
  | input (optarg : CString)
  | output (optarg : CString)
  | stmt (optarg : CString)
  | reload
  | unknown

structure SepolArgs where
  input : CString
  output : CString
  stmt : CString
  reload : Bool

/-- The buffers of the options, all of one size. -/
def optSize : Nat := 4096

def strcpyTo (size : Nat) (src : CString) : Exec CString :=
  if src.length < size then .ok src else .error .stackOverflow

def setOption (args : SepolArgs) : SepolOption → Exec SepolArgs
  | .input optarg => return { args with input := ← strcpyTo optSize optarg }
  | .output optarg => return { args with output := ← strcpyTo optSize optarg }
  | .stmt optarg => return { args with stmt := ← strcpyTo optSize optarg }
  | .reload => return { args with reload := true }
  | .unknown => return args

def getopts (argv : List SepolOption) : Exec SepolArgs := argv.foldlM setOption ⟨kernelPolicy, [], [], false⟩

def sepolMain (argv : List SepolOption) : SepolRun Int := do
  let args ← quiet (getopts argv)
  let (_, db) ← bxxtSepolLoadPolicyFile m args.input
  let (_, db) ← executeOn m args.stmt db
  let _ ← (if List.length args.output ≠ 0 then bxxtSepolSavePolicyFile m db args.output else pure 0 : SepolRun Int)
  let _ ← (if args.reload then bxxtSepolReloadKernelPolicy m db else pure 0 : SepolRun Int)
  bxxtSepolFree db
  return 0

/-- `sepol_rtexec`, the same edit of the running policy for the other commands. -/
def sepolRtexec (stmt : CString) : SepolRun Int := do
  let (_, db) ← bxxtSepolLoadPolicyFile m kernelPolicy
  let (r, db) ← executeOn m stmt db
  if r ≠ 0 then do
    bxxtSepolFree db
    return bxxtFailed
  else do
    let _ ← bxxtSepolReloadKernelPolicy m db
    bxxtSepolFree db
    return bxxtSuccess

end Main
end Bxxt
