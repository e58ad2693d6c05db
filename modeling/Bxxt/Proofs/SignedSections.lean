import Bxxt.Lib.LengthSuffix
import Bxxt.Proofs.PackedImage

/-! What the signature says of the sections. They are hashed one after the other, each with its size
behind it, so that no byte can be moved from one section to the next. -/

namespace Bxxt.Proofs
open ByteLayout LengthSuffix

variable {b b' : Boot} {message : Bytes}

structure SameSections (b b' : Boot) : Prop where
  kernel : b.read b.mmKernelPtr b.kernelSize.toNat = b'.read b'.mmKernelPtr b'.kernelSize.toNat
  ramdisk : b.read b.mmRamdiskPtr b.ramdiskSize.toNat = b'.read b'.mmRamdiskPtr b'.ramdiskSize.toNat
  second : b.read b.mmSecondPtr b.secondSize.toNat = b'.read b'.mmSecondPtr b'.secondSize.toNat
  recoveryDtbo : b.version > 0 → b.read b.mmRecoveryDtboPtr b.recoveryDtboSize.toNat =
    b'.read b'.mmRecoveryDtboPtr b'.recoveryDtboSize.toNat
  dtb : b.version > 1 → b.read b.mmDtbPtr b.dtbSize.toNat = b'.read b'.mmDtbPtr b'.dtbSize.toNat

theorem section_short {addr : Nat} {size : UInt32} {data : Bytes} (read : b.read addr size.toNat = .ok data) :
    Short 4 data := by
  rw [Short, ← length_of_read read]
  exact size.toNat_lt

theorem section_sized {addr : Nat} {size : UInt32} {data : Bytes} (read : b.read addr size.toNat = .ok data) :
    data ++ leBytes 4 size.toNat = sizedAll 4 [data] := by
  rw [sizedAll_singleton, sized, length_of_read read]

theorem hashSince_sized {version : UInt32} {addr : Nat} {size : UInt32} {bytes : Bytes}
    (hashed : hashSince b version addr size = .ok bytes) :
    ∃ data, (b.version > version → b.read addr size.toNat = .ok data) ∧
      Short 4 data ∧ bytes = sizedAll 4 (if b.version > version then [data] else []) := by
  unfold hashSince at hashed
  split at hashed
  next since =>
    rw [hashOptional_eq] at hashed
    cases read : b.read addr size.toNat with
    | error fault =>
      rw [read] at hashed
      cases hashed
    | ok data =>
      rw [read] at hashed
      cases hashed
      refine ⟨data, fun _ => rfl, section_short read, ?_⟩
      rw [if_pos since]
      exact section_sized read
  next before =>
    cases hashed
    refine ⟨[], fun since => absurd since before, Nat.pow_pos (by decide), ?_⟩
    rw [if_neg before]
    rfl

def signedItems (version : UInt32) (kernel ramdisk second recoveryDtbo dtb : Bytes) : List Bytes :=
  [kernel] ++ [ramdisk] ++ [second] ++ (if version > 0 then [recoveryDtbo] else []) ++
    (if version > 1 then [dtb] else [])

theorem message_sized (fed : bxxtBootImgMessage b = .ok message) : ∃ kernel ramdisk second recoveryDtbo dtb,
    b.read b.mmKernelPtr b.kernelSize.toNat = .ok kernel ∧ b.read b.mmRamdiskPtr b.ramdiskSize.toNat = .ok ramdisk ∧
      b.read b.mmSecondPtr b.secondSize.toNat = .ok second ∧
      (b.version > 0 → b.read b.mmRecoveryDtboPtr b.recoveryDtboSize.toNat = .ok recoveryDtbo) ∧
      (b.version > 1 → b.read b.mmDtbPtr b.dtbSize.toNat = .ok dtb) ∧
      (∀ item ∈ signedItems b.version kernel ramdisk second recoveryDtbo dtb, Short 4 item) ∧
      message = sizedAll 4 (signedItems b.version kernel ramdisk second recoveryDtbo dtb) := by
  unfold bxxtBootImgMessage at fed
  obtain ⟨kernel, kernelRead, fed⟩ := Exec.bind_eq_ok.mp fed
  obtain ⟨ramdisk, ramdiskRead, fed⟩ := Exec.bind_eq_ok.mp fed
  obtain ⟨second, secondRead, fed⟩ := Exec.bind_eq_ok.mp fed
  rw [hashOptional_eq] at secondRead
  obtain ⟨dtboBytes, dtboHashed, fed⟩ := Exec.bind_eq_ok.mp fed
  obtain ⟨dtbBytes, dtbHashed, fed⟩ := Exec.bind_eq_ok.mp fed
  cases fed
  obtain ⟨recoveryDtbo, dtboRead, dtboShort, rfl⟩ := hashSince_sized dtboHashed
  obtain ⟨dtb, dtbRead, dtbShort, rfl⟩ := hashSince_sized dtbHashed
  refine ⟨kernel, ramdisk, second, recoveryDtbo, dtb, kernelRead, ramdiskRead, secondRead, dtboRead,
    dtbRead, ?_, ?_⟩
  · intro item member
    simp only [signedItems, List.mem_append, List.mem_singleton, List.mem_ite_nil_right] at member
    rcases member with (((rfl | rfl) | rfl) | ⟨_, rfl⟩) | ⟨_, rfl⟩
    · exact section_short kernelRead
    · exact section_short ramdiskRead
    · exact section_short secondRead
    · exact dtboShort
    · exact dtbShort
  · simp only [signedItems, sizedAll_append, ← section_sized kernelRead, ← section_sized ramdiskRead,
      ← section_sized secondRead, List.append_assoc]

theorem signedItems_length (version : UInt32) (kernel ramdisk second recoveryDtbo dtb : Bytes) :
    (signedItems version kernel ramdisk second recoveryDtbo dtb).length =
      3 + (if version > 0 then 1 else 0) + (if version > 1 then 1 else 0) := by
  simp only [signedItems, List.length_append, apply_ite List.length, List.length_singleton, List.length_nil]

/-- The items of a version are its sections. -/
theorem signedItems_injective {version : UInt32} {kernel ramdisk second recoveryDtbo dtb : Bytes}
    {kernel' ramdisk' second' recoveryDtbo' dtb' : Bytes}
    (same : signedItems version kernel ramdisk second recoveryDtbo dtb =
      signedItems version kernel' ramdisk' second' recoveryDtbo' dtb') :
    kernel = kernel' ∧ ramdisk = ramdisk' ∧ second = second' ∧ (version > 0 → recoveryDtbo = recoveryDtbo') ∧
      (version > 1 → dtb = dtb') := by
  unfold signedItems at same
  obtain ⟨front, last⟩ := List.append_inj' same (by split <;> rfl)
  obtain ⟨front, dtbo⟩ := List.append_inj' front (by split <;> rfl)
  cases front
  refine ⟨rfl, rfl, rfl, fun since => ?_, fun since => ?_⟩
  · rw [if_pos since, if_pos since] at dtbo
    exact List.singleton_inj.mp dtbo
  · rw [if_pos since, if_pos since] at last
    exact List.singleton_inj.mp last

/-- Two images of one version for which the same bytes are hashed have the same sections. -/
theorem message_determines_sections (version : b'.version = b.version) (fed : bxxtBootImgMessage b = .ok message)
    (fed' : bxxtBootImgMessage b' = .ok message) : SameSections b b' := by
  obtain ⟨_, _, _, _, _, kernel, ramdisk, second, recoveryDtbo, dtb, short, text⟩ := message_sized fed
  obtain ⟨_, _, _, _, _, kernel', ramdisk', second', recoveryDtbo', dtb', short', text'⟩ := message_sized fed'
  rw [version] at recoveryDtbo' dtb' short' text'
  have items := sizedAll_injective (by rw [signedItems_length, signedItems_length]) short short' (text.symm.trans text')
  obtain ⟨rfl, rfl, rfl, sameDtbo, sameDtb⟩ := signedItems_injective items
  constructor
  · rw [kernel, kernel']
  · rw [ramdisk, ramdisk']
  · rw [second, second']
  · intro since
    rw [recoveryDtbo since, recoveryDtbo' since, sameDtbo since]
  · intro since
    rw [dtb since, dtb' since, sameDtb since]

/-- An image of version 2 whose sections have one byte each, from this offset on. -/
def byteSections (before : Bytes) : Boot :=
  { bxxtBootNew with
    mm := some (Region.ofBuffer (before ++ ascii "krsot"))
    version := 2
    kernelSize := 1
    mmKernelPtr := before.length
    ramdiskSize := 1
    mmRamdiskPtr := before.length + 1
    secondSize := 1
    mmSecondPtr := before.length + 2
    recoveryDtboSize := 1
    mmRecoveryDtboPtr := before.length + 3
    dtbSize := 1
    mmDtbPtr := before.length + 4 }

theorem moved_sections_same : SameSections (byteSections []) (byteSections [0]) :=
  @message_determines_sections (byteSections []) (byteSections [0]) _ rfl rfl rfl

end Bxxt.Proofs
