import Mathlib

/-! Fixed-width byte formats. A layout carries the proofs that its decoder reads
back an encoding whatever follows it, and that encoding a decoded value gives the
bytes that were read. Packed records are layouts sequenced one after the other. -/

namespace ByteLayout

abbrev Bytes := List UInt8

/-- The `width` low bytes of a number, least significant first. -/
def leBytes : Nat → Nat → Bytes
  | 0, _ => []
  | width + 1, value => UInt8.ofNat value :: leBytes width (value / 256)

def leValue : Bytes → Nat
  | [] => 0
  | byte :: rest => byte.toNat + 256 * leValue rest

/-- Most significant byte first. -/
def beValue (bytes : Bytes) : Nat := leValue bytes.reverse

@[simp] theorem length_leBytes (width value : Nat) : (leBytes width value).length = width := by
  induction width generalizing value with
  | zero => rfl
  | succ width ih => simp [leBytes, ih]

theorem leValue_lt (bytes : Bytes) : leValue bytes < 256 ^ bytes.length := by
  induction bytes with
  | nil => simp [leValue]
  | cons byte rest ih =>
    have small := byte.toNat_lt
    simp only [leValue, List.length_cons, Nat.pow_succ]
    omega

theorem leValue_leBytes (width value : Nat) (fits : value < 256 ^ width) :
    leValue (leBytes width value) = value := by
  induction width generalizing value with
  | zero => simp only [Nat.pow_zero] at fits; simp only [leBytes, leValue]; omega
  | succ width ih =>
    have high : value / 256 < 256 ^ width := by
      rw [Nat.pow_succ] at fits
      omega
    have low : (UInt8.ofNat value).toNat = value % 256 := rfl
    simp only [leBytes, leValue, ih _ high, low]
    omega

theorem leBytes_leValue (bytes : Bytes) : leBytes bytes.length (leValue bytes) = bytes := by
  induction bytes with
  | nil => rfl
  | cons byte rest ih =>
    have small : byte.toNat < 256 := byte.toNat_lt
    have high : (byte.toNat + 256 * leValue rest) / 256 = leValue rest := by omega
    have low : UInt8.ofNat (byte.toNat + 256 * leValue rest) = byte := by
      apply UInt8.toNat_inj.mp
      rw [UInt8.toNat_ofNat']
      omega
    simp only [List.length_cons, leBytes, leValue, high, low, ih]

structure Layout (α : Type) where
  width : Nat
  encode : α → Bytes
  decode : Bytes → α
  length_encode : ∀ value, (encode value).length = width
  decode_append : ∀ value rest, decode (encode value ++ rest) = value
  encode_decode : ∀ bytes, width ≤ bytes.length → encode (decode bytes) = bytes.take width

namespace Layout

variable {α β : Type}

attribute [simp] length_encode decode_append

@[simp] theorem decode_encode (layout : Layout α) (value : α) :
    layout.decode (layout.encode value) = value := by
  simpa using layout.decode_append value []

theorem encode_injective (layout : Layout α) {first second : α}
    (same : layout.encode first = layout.encode second) : first = second := by
  rw [← layout.decode_encode first, same, layout.decode_encode]

/-- A byte array of fixed length; bytes missing from a short buffer read as zero. -/
def byteArray (count : Nat) : Layout (Vector UInt8 count) where
  width := count
  encode value := value.toList
  decode bytes := Vector.ofFn fun index : Fin count => bytes.getD index.val 0
  length_encode value := by simp
  decode_append value rest := by
    ext index inside
    simp [List.getElem?_append]
  encode_decode bytes enough := by
    apply List.ext_getElem (by simp [enough])
    intro index first last
    have inside : index < bytes.length := by simp at last; omega
    simp [inside]

/-- An unsigned machine word of `width` bytes, stored little-endian. -/
def word (width : Nat) (toNat : α → Nat) (ofNat : Nat → α) (bound : ∀ value, toNat value < 256 ^ width)
    (ofNat_toNat : ∀ value, ofNat (toNat value) = value)
    (toNat_ofNat : ∀ number, number < 256 ^ width → toNat (ofNat number) = number) : Layout α where
  width := width
  encode value := leBytes width (toNat value)
  decode bytes := ofNat (leValue (bytes.take width))
  length_encode value := by simp
  decode_append value rest := by
    have stored : (leBytes width (toNat value) ++ rest).take width = leBytes width (toNat value) :=
      List.take_left' (by simp)
    rw [stored, leValue_leBytes width _ (bound value), ofNat_toNat]
  encode_decode bytes enough := by
    have length : (bytes.take width).length = width := by simp [enough]
    have small := leValue_lt (bytes.take width)
    rw [length] at small
    rw [toNat_ofNat _ small]
    simpa only [length] using leBytes_leValue (bytes.take width)

def word32 : Layout UInt32 :=
  word 4 UInt32.toNat UInt32.ofNat UInt32.toNat_lt (fun _ => UInt32.ofNat_toNat)
    (fun _ small => UInt32.toNat_ofNat_of_lt' small)

def word64 : Layout UInt64 :=
  word 8 UInt64.toNat UInt64.ofNat UInt64.toNat_lt (fun _ => UInt64.ofNat_toNat)
    (fun _ small => UInt64.toNat_ofNat_of_lt' small)

/-- One layout directly after another, without padding between them. -/
def seq (first : Layout α) (second : Layout β) : Layout (α × β) where
  width := first.width + second.width
  encode value := first.encode value.1 ++ second.encode value.2
  decode bytes := (first.decode bytes, second.decode (bytes.drop first.width))
  length_encode value := by simp
  decode_append value rest := by
    have skipped : ((first.encode value.1 ++ second.encode value.2) ++ rest).drop first.width =
        second.encode value.2 ++ rest := by
      rw [List.append_assoc]
      exact List.drop_left' (first.length_encode value.1)
    rw [skipped, List.append_assoc, first.decode_append, second.decode_append]
  encode_decode bytes enough := by
    rw [first.encode_decode bytes (by omega),
      second.encode_decode (bytes.drop first.width) (by simp; omega), ← List.take_add]

/-- The same bytes seen as an equivalent type, such as a record of the parts. -/
def via (layout : Layout α) (shape : α ≃ β) : Layout β where
  width := layout.width
  encode value := layout.encode (shape.symm value)
  decode bytes := shape (layout.decode bytes)
  length_encode value := by simp
  decode_append value rest := by simp
  encode_decode bytes enough := by simpa using layout.encode_decode bytes enough

theorem drop_encode (layout : Layout α) (value : α) (rest : Bytes) (count : Nat) :
    (layout.encode value ++ rest).drop (layout.width + count) = rest.drop count := by
  rw [← layout.length_encode value, List.drop_length_add_append]

@[simp] theorem seq_encode (first : Layout α) (second : Layout β) (value : α × β) :
    (first.seq second).encode value = first.encode value.1 ++ second.encode value.2 := rfl

@[simp] theorem via_encode (layout : Layout α) (shape : α ≃ β) (value : β) :
    (layout.via shape).encode value = layout.encode (shape.symm value) := rfl

end Layout
end ByteLayout
