import Bxxt.InitLog
import Bxxt.Proofs.ReaderLayout

/-! The limits of the header against the uses of the header. The kernel's first bytes are looked at
through a pointer that was computed from the page size, before any limit was checked. -/

namespace Bxxt.Proofs
open ByteLayout EventLog

section Results
variable (ptr : Region) (b : Boot)

@[simp] theorem sliceLogged_result (addr count : Nat) : (sliceLogged ptr addr count).result = ptr.slice addr count := by
  unfold sliceLogged
  split
  next none =>
    rw [none]
    rfl
  next => rfl

@[simp] theorem readLogged_result (addr count : Nat) : (b.readLogged addr count).result = b.read addr count := by
  unfold Boot.readLogged
  split
  next none =>
    rw [none, Boot.read]
    cases b.mm <;> rfl
  next => rfl

@[simp] theorem detectKernelCompressionLogged_result :
    (bxxtBootDetectKernelCompressionLogged b).result = bxxtBootDetectKernelCompression b := by
  rw [bxxtBootDetectKernelCompressionLogged, bxxtBootDetectKernelCompression, result_bind, readLogged_result]
  congr 1
  funext half
  split
  · rfl
  · split <;> rfl

theorem bPsLogged_result (ps bs : UInt32) :
    (bPsLogged ps bs).result = if ps = 0 then .error .divideByZero else .ok (bPs ps bs) := by
  rw [bPsLogged, result_bind, result_emit, Exec.ok_bind]
  split <;> rfl

theorem offsetLogged_result {ps : UInt32} (positive : ps ≠ 0) (sizes : List UInt32) :
    (offsetLogged ps sizes).result = .ok (sizes.foldl (fun offset bs => offset + bPs ps bs) ps) := by
  have step : ∀ offset, (sizes.foldlM (fun offset bs => do return offset + (← bPsLogged ps bs)) offset :
    InitRun UInt32).result =
      .ok (sizes.foldl (fun offset bs => offset + bPs ps bs) offset) := by
    induction sizes with
    | nil =>
      intro offset
      rfl
    | cons bs sizes ih =>
      intro offset
      rw [List.foldlM_cons, result_bind, result_bind, bPsLogged_result, if_neg positive, List.foldl_cons, Exec.ok_bind,
        result_pure, Exec.ok_bind, ih]
  exact step ps

theorem initPointersLogged_result (size : Nat) :
    (initPointersLogged b size).result = if b.pageSize = 0 then .error .divideByZero
      else .ok (initPointers b size) := by
  split
  next zero =>
    rw [initPointersLogged, result_bind, offsetLogged, List.foldlM_cons, result_bind, result_bind,
      bPsLogged_result, if_pos zero]
    rfl
  next positive =>
    simp only [initPointersLogged, result_bind, offsetLogged_result positive, Exec.ok_bind, result_pure]
    rfl

theorem trimPadLogged_result (mmPadPtr addr : Nat) :
    (trimPadLogged ptr mmPadPtr addr).result = trimPad ptr mmPadPtr addr := by
  induction addr with
  | zero =>
    rw [trimPadLogged, trimPad]
    split
    · rfl
    · rw [result_bind]
      congr 1
      funext byte
      split <;> rfl
  | succ addr ih =>
    rw [trimPadLogged, trimPad]
    split
    · rfl
    · rw [result_bind]
      congr 1
      funext byte
      split
      · rfl
      · by_cases far : (addr : Int) - mmPadPtr < -2 ^ 31
        · simp only [if_pos far]
          rfl
        · simp only [if_neg far]
          exact ih

theorem trimmedPadSizeLogged_result (mmPadPtr : Nat) (padSize : UInt32) :
    (trimmedPadSizeLogged ptr mmPadPtr padSize).result = trimmedPadSize ptr mmPadPtr padSize := by
  have trimmed (start : Int) : (trimFromLogged ptr mmPadPtr start padSize).result =
      trimFrom ptr mmPadPtr start padSize := by
    unfold trimFromLogged trimFrom
    split
    · rfl
    · rw [result_bind, trimPadLogged_result]
      cases trimPad ptr mmPadPtr start.toNat <;> rfl
  exact trimmed _

theorem initLayoutLogged_result (size : Nat) :
    (bxxtBootInit1LayoutLogged ptr b size).result = bxxtBootInit1Layout b ptr size := by
  unfold bxxtBootInit1LayoutLogged bxxtBootInit1Layout
  generalize initSizes b ptr = sized
  dsimp only
  rw [result_bind, detectKernelCompressionLogged_result]
  congr 1
  funext kernelCompression
  rw [result_bind, initPointersLogged_result]
  by_cases zero : sized.pageSize = 0
  · rw [if_pos zero, if_pos zero]
    rfl
  · rw [if_neg zero, if_neg zero, Exec.ok_bind, result_bind, trimmedPadSizeLogged_result]
    rfl

theorem memmemLogged_result (needle : Bytes) (addr candidates : Nat) :
    (memmemLogged ptr needle addr candidates).result = memmem ptr needle addr candidates := by
  induction candidates generalizing addr with
  | zero => rfl
  | succ candidates ih =>
    rw [memmemLogged, memmem, result_bind, sliceLogged_result]
    congr 1
    funext window
    split
    · rfl
    · exact ih (addr + 1)

theorem dtbStepLogged_result (finish base : Nat) :
    (dtbStepLogged ptr finish base).result = dtbStep ptr finish base := by
  unfold dtbStepLogged dtbStep
  dsimp only
  split
  · rfl
  · rw [result_bind, memmemLogged_result]
    congr 1
    funext found
    cases found with
    | none => rfl
    | some knldtbPtr => simp only [result_bind, sliceLogged_result, result_pure]; rfl

theorem dtbLoopLogged_result (finish room base : Nat) :
    (dtbLoopLogged ptr finish room base).result = dtbLoop ptr finish room base := by
  induction room generalizing base with
  | zero =>
    rw [dtbLoopLogged, dtbLoop, result_bind, dtbStepLogged_result]
    congr 1
    funext step
    cases step with
    | none => rfl
    | some step => rfl
  | succ room ih =>
    rw [dtbLoopLogged, dtbLoop, result_bind, dtbStepLogged_result]
    congr 1
    funext step
    cases step with
    | none => rfl
    | some step => simp only [result_bind, result_emit, Exec.ok_bind, ih, result_pure]; rfl

theorem imgMessageLogged_result : (bxxtBootImgMessageLogged b).result = bxxtBootImgMessage b := by
  have optional (addr : Nat) (size : UInt32) : (hashOptionalLogged b addr size).result = hashOptional b addr size := by
    unfold hashOptionalLogged hashOptional
    split
    · exact readLogged_result b addr size.toNat
    · rfl
  have since (version : UInt32) (addr : Nat) (size : UInt32) :
      (hashSinceLogged b version addr size).result = hashSince b version addr size := by
    unfold hashSinceLogged hashSince
    split
    · rw [result_bind, optional]
      rfl
    · rfl
  simp only [bxxtBootImgMessageLogged, bxxtBootImgMessage, result_bind, readLogged_result, optional, since, result_pure]
  rfl

end Results

section Reader
variable (sha1 : Bytes → Vector UInt8 20) (opts : Options)

theorem initCheckLogged_result (b : Boot) (check : Bool) :
    (initCheckLogged sha1 opts b check).result = initCheck sha1 opts b check := by
  unfold initCheckLogged initCheck
  split
  · unfold bxxtBootImgCompatCheckLogged bxxtBootImgCompatCheck
    split
    · rfl
    · rw [result_bind, imgMessageLogged_result, bxxtBootImgSignature]
      cases bxxtBootImgMessage b with
      | error fault => rfl
      | ok message =>
        change Except.ok (if _ then bxxtSuccess else bxxtFailed) = if _ then Except.ok bxxtSuccess
          else Except.ok bxxtFailed
        split <;> rfl
  · rfl

theorem initFinishLogged_result (b : Boot) (check : Bool) :
    (bxxtBootInit1FinishLogged sha1 opts b check).result = bxxtBootInit1Finish sha1 opts b check := by
  unfold bxxtBootInit1FinishLogged bxxtBootInit1Finish
  split
  · rfl
  · rw [result_bind, initCheckLogged_result]
    congr 1
    funext compatible
    split
    · rfl
    · simp only [result_bind, bxxtBootParseDtbSectionsLogged, dtbLoopLogged_result, result_quiet, result_pure]
      rfl

/-- The log does not change what `bxxt_boot_init1` returns. -/
theorem init1Logged_result (b : Boot) (ptr : Region) (size : Nat) (check : Bool) :
    (bxxtBootInit1Logged sha1 opts b ptr size check).result = bxxtBootInit1 sha1 opts b ptr size check := by
  rw [bxxtBootInit1Logged, bxxtBootInit1, result_bind]
  congr 1
  funext hdrBytes
  dsimp only
  split
  · rfl
  · rw [result_bind, initLayoutLogged_result]
    simp only [initFinishLogged_result]

end Reader

/-- What may happen before the limits are known to hold. -/
def Harmless : InitEvent → Prop
  | .divided divisor => divisor ≠ 0
  | .sectionRead _ _ => False
  | .recorded _ => False

structure RefusedFirst (run : InitRun (Int × Boot)) : Prop where
  failed : ∃ b, run.result = .ok (bxxtFailed, b)
  harmless : ∀ event ∈ run.log, Harmless event

/-- A known header that violates a limit is refused before it is used. -/
def LimitsFirst (hdr : BootImgHdr) (run : InitRun (Int × Boot)) : Prop := Supported hdr →
    ¬ BaseLimits hdr → RefusedFirst run

section Trees
variable {α β : Type}

def RecordsNothing (run : InitRun α) : Prop := ∀ entry, .recorded entry ∉ run.log

theorem recordsNothing_bind {first : InitRun α} {next : α → InitRun β} (here : RecordsNothing first)
    (later : ∀ value, RecordsNothing (next value)) : RecordsNothing (first >>= next) := by
  intro entry member
  obtain first | ⟨value, _, rest⟩ := mem_log_bind.mp member
  · exact here entry first
  · exact later value entry rest

theorem recordsNothing_pure (value : α) : RecordsNothing (pure value) := fun _ => List.not_mem_nil

theorem recordsNothing_quiet (run : Exec α) : RecordsNothing (quiet run) := fun _ => List.not_mem_nil

theorem recordsNothing_emit {event : InitEvent} (other : ∀ entry, event ≠ .recorded entry) :
    RecordsNothing (emit event) := by
  intro entry member
  exact other entry (List.mem_singleton.mp member).symm

theorem recordsNothing_offset (ps : UInt32) (sizes : List UInt32) : RecordsNothing (offsetLogged ps sizes) := by
  have step :
      ∀ offset, RecordsNothing (sizes.foldlM (fun offset bs => do return offset + (← bPsLogged ps bs)) offset) := by
    induction sizes with
    | nil => exact recordsNothing_pure
    | cons bs sizes ih =>
      intro offset
      rw [List.foldlM_cons]
      refine recordsNothing_bind (recordsNothing_bind (recordsNothing_bind (recordsNothing_emit nofun) fun _ => ?_)
        fun _ => ?_) ih
      · split
        · exact recordsNothing_quiet _
        · exact recordsNothing_pure _
      · exact recordsNothing_pure _
  exact step ps

variable (ptr : Region)

theorem recordsNothing_trimPad (mmPadPtr addr : Nat) : RecordsNothing (trimPadLogged ptr mmPadPtr addr) := by
  have loaded (addr : Nat) : RecordsNothing (loadLogged ptr addr) :=
    recordsNothing_bind (recordsNothing_emit nofun) fun _ => recordsNothing_quiet _
  induction addr with
  | zero =>
    rw [trimPadLogged]
    split
    · exact recordsNothing_pure _
    · refine recordsNothing_bind (loaded 0) fun byte => ?_
      split
      · exact recordsNothing_pure _
      · exact recordsNothing_bind (recordsNothing_emit nofun) fun _ => recordsNothing_quiet _
  | succ addr ih =>
    rw [trimPadLogged]
    split
    · exact recordsNothing_pure _
    · refine recordsNothing_bind (loaded (addr + 1)) fun byte => ?_
      split
      · exact recordsNothing_pure _
      · split
        · exact recordsNothing_quiet _
        · exact ih

theorem recordsNothing_layout (b : Boot) (size : Nat) : RecordsNothing (bxxtBootInit1LayoutLogged ptr b size) := by
  have read (b : Boot) (addr count : Nat) : RecordsNothing (b.readLogged addr count) := by
    unfold Boot.readLogged
    split
    · exact recordsNothing_pure _
    · exact recordsNothing_bind (recordsNothing_emit nofun) fun _ => recordsNothing_quiet _
  have detected (b : Boot) : RecordsNothing (bxxtBootDetectKernelCompressionLogged b) := by
    refine recordsNothing_bind (read b _ _) fun half => ?_
    split
    · exact recordsNothing_pure _
    · split
      · exact recordsNothing_pure _
      · exact recordsNothing_pure _
  have points (b : Boot) : RecordsNothing (initPointersLogged b size) := by
    have offset := recordsNothing_offset
    refine recordsNothing_bind (offset _ _) fun _ => recordsNothing_bind (offset _ _) fun _ => ?_
    refine recordsNothing_bind (offset _ _) fun _ => recordsNothing_bind (offset _ _) fun _ => ?_
    refine recordsNothing_bind (offset _ _) fun _ => recordsNothing_bind (offset _ _) fun _ => recordsNothing_pure _
  have trimmed (mmPadPtr : Nat) (start : Int) (padSize : UInt32) :
      RecordsNothing (trimFromLogged ptr mmPadPtr start padSize) := by
    unfold trimFromLogged
    split
    · exact recordsNothing_bind (recordsNothing_emit nofun) fun _ => recordsNothing_quiet _
    · exact recordsNothing_bind (recordsNothing_trimPad ptr _ _) fun _ => recordsNothing_pure _
  refine recordsNothing_bind (detected _) fun _ => recordsNothing_bind (points _) fun _ => ?_
  exact recordsNothing_bind (trimmed _ _ _) fun _ => recordsNothing_pure _

end Trees

section Limits
variable {sha1 : Bytes → Vector UInt8 20} {opts : Options} {b : Boot} {ptr : Region} {size : Nat} {check : Bool}
  {hdr : BootImgHdr}

theorem init1Logged_supported (header : ptr.slice 0 BootImgHdr.size = .ok hdr.bytes) (known : Supported hdr) :
    bxxtBootInit1Logged sha1 opts b ptr size check =
      bxxtBootInit1LayoutLogged ptr { b with hdr } size >>= fun b => bxxtBootInit1FinishLogged sha1 opts b check := by
  have passed : bxxtBootImgVersionCheck hdr ≠ bxxtFailed := by
    rw [(bxxtBootImgVersionCheck_iff _).mpr known]
    decide
  rw [bxxtBootInit1Logged, header, bind_eq]
  dsimp only [result_quiet, log_quiet, List.nil_append]
  rw [BootImgHdr.ofBytes_bytes, if_neg passed]
  rfl

/-- The first two bytes behind the page of the header are read whatever the header says. -/
theorem kernel_read_logged (header : ptr.slice 0 BootImgHdr.size = .ok hdr.bytes) (known : Supported hdr) :
    .sectionRead hdr.pageSize.toNat 2 ∈ (bxxtBootInit1Logged sha1 opts b ptr size check).log := by
  rw [init1Logged_supported header known]
  refine mem_log_bind.mpr
    (Or.inl (mem_log_bind.mpr (Or.inl (mem_log_bind.mpr (Or.inl (mem_log_bind.mpr (Or.inl ?_)))))))
  exact List.mem_singleton_self _

/-- A header that violates a limit leaves no device tree behind. -/
theorem violation_records_nothing (header : ptr.slice 0 BootImgHdr.size = .ok hdr.bytes) (known : Supported hdr)
    (violates : ¬ BaseLimits hdr) : RecordsNothing (bxxtBootInit1Logged sha1 opts b ptr size check) := by
  rw [init1Logged_supported header known]
  intro entry member
  obtain layout | ⟨laid, run, finish⟩ := mem_log_bind.mp member
  · exact recordsNothing_layout ptr _ size entry layout
  · rw [initLayoutLogged_result] at run
    have same : laid.hdr = hdr := (bxxtBootInit1Layout_iff.mp run).1
    have refused : bxxtBootImgBaseCheck laid.hdr = bxxtFailed := by
      rw [same]
      exact (bxxtBootImgBaseCheck_cases hdr).resolve_left fun passed =>
        violates ((bxxtBootImgBaseCheck_iff hdr).mp passed)
    rw [bxxtBootInit1FinishLogged, if_pos refused] at finish
    exact recordsNothing_pure _ entry finish

/-- Limits come first exactly where there is nothing to refuse. -/
theorem limits_first_iff (header : ptr.slice 0 BootImgHdr.size = .ok hdr.bytes) :
    LimitsFirst hdr (bxxtBootInit1Logged sha1 opts b ptr size check) ↔ (Supported hdr → BaseLimits hdr) := by
  constructor
  · intro first known
    by_contra violates
    exact (first known violates).harmless _ (kernel_read_logged header known)
  · intro within known violates
    exact absurd (within known) violates

end Limits

def hdrWithPages (pageSize : UInt32) : BootImgHdr :=
  { BootImgHdr.zero with magic := bootMagic, kernelSize := 1, pageSize }

theorem hdrWithPages_header (pageSize : UInt32) :
    (Region.ofFile (hdrWithPages pageSize).bytes).slice 0 BootImgHdr.size = .ok (hdrWithPages pageSize).bytes := by
  have length := BootImgHdr.length_bytes (hdrWithPages pageSize)
  rw [Region.slice_inside (by rw [Region.ofFile_bytes, length, Nat.zero_add]), Region.ofFile_bytes, List.drop_zero,
    List.take_of_length_le (Nat.le_of_eq length)]

/-- Without a page size the pages are counted before the page size is refused. -/
theorem unpaged_header_divides_by_zero : ∃ sha1 opts ptr,
    ptr.slice 0 BootImgHdr.size = .ok (hdrWithPages 0).bytes ∧ Supported (hdrWithPages 0) ∧
      ¬ BaseLimits (hdrWithPages 0) ∧
      bxxtBootInit1 sha1 opts bxxtBootNew ptr BootImgHdr.size true = .error .divideByZero ∧
      ¬ LimitsFirst (hdrWithPages 0) (bxxtBootInit1Logged sha1 opts bxxtBootNew ptr BootImgHdr.size true) := by
  have header := hdrWithPages_header 0
  have known : Supported (hdrWithPages 0) := ⟨rfl, by decide⟩
  have violates : ¬ BaseLimits (hdrWithPages 0) := fun limits => absurd limits.page (by decide)
  refine ⟨fun _ => Vector.replicate 20 0, ⟨false, false⟩, _, header, known, violates, ?_, ?_⟩
  · have length := BootImgHdr.length_bytes (hdrWithPages 0)
    have half : (initSizes { bxxtBootNew with hdr := hdrWithPages 0 } (Region.ofFile (hdrWithPages 0).bytes)).read 0 2 =
      .ok _ :=
      Region.slice_inside (by rw [Region.ofFile_bytes, length]; decide)
    obtain ⟨kernelCompression, detected⟩ := bxxtBootDetectKernelCompression_total half
    have passed : bxxtBootImgVersionCheck (hdrWithPages 0) ≠ bxxtFailed := by
      rw [(bxxtBootImgVersionCheck_iff _).mpr known]
      decide
    have divided : bxxtBootInit1Layout { bxxtBootNew with hdr := hdrWithPages 0 } (Region.ofFile (hdrWithPages 0).bytes)
        BootImgHdr.size = .error .divideByZero := by
      rw [bxxtBootInit1Layout, detected]
      rfl
    rw [bxxtBootInit1, header, Exec.ok_bind, BootImgHdr.ofBytes_bytes, if_neg passed, divided]
    rfl
  · intro first
    exact (first known violates).harmless _ (kernel_read_logged header known)

theorem paged_header_first : ∃ sha1 opts ptr, ptr.slice 0 BootImgHdr.size = .ok (hdrWithPages 2048).bytes ∧
    LimitsFirst (hdrWithPages 2048) (bxxtBootInit1Logged sha1 opts bxxtBootNew ptr BootImgHdr.size true) := by
  refine ⟨fun _ => Vector.replicate 20 0, ⟨false, false⟩, _, hdrWithPages_header 2048, ?_⟩
  exact (limits_first_iff (hdrWithPages_header 2048)).mpr fun _ =>
    ⟨by decide, by decide, by decide, by decide, by decide⟩

end Bxxt.Proofs
