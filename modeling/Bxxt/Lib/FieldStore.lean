import Bxxt.Lib.ByteLayout

/-! Stores into the bytes of a record. A field of a layout is where a store of the field's bytes
gives the record with the new value, and composes along the layout. -/

namespace ByteLayout

/-- The bytes with `data` in the place of what was at `offset`. -/
def splice (bytes : Bytes) (offset : Nat) (data : Bytes) : Bytes :=
  bytes.take offset ++ data ++ bytes.drop (offset + data.length)

section Splice
variable {bytes data front back : Bytes} {offset : Nat}

@[simp] theorem length_splice (room : offset + data.length ≤ bytes.length) : (splice bytes offset data).length =
    bytes.length := by
  simp only [splice, List.length_append, List.length_take, List.length_drop]
  omega

theorem splice_whole (same : data.length = bytes.length) : splice bytes 0 data = data := by
  rw [splice, List.take_zero, List.nil_append, Nat.zero_add, same, List.drop_length, List.append_nil]

theorem splice_left (room : offset + data.length ≤ front.length) :
    splice (front ++ back) offset data = splice front offset data ++ back := by
  rw [splice, splice, List.take_append_of_le_length (by omega), List.drop_append_of_le_length room,
    List.append_assoc _ _ back]

theorem splice_right : splice (front ++ back) (front.length + offset) data = front ++ splice back offset data := by
  rw [splice, splice, Nat.add_assoc, List.take_length_add_append, List.drop_length_add_append, List.append_assoc front,
    List.append_assoc front]

theorem drop_splice (room : offset ≤ bytes.length) :
    (splice bytes offset data).drop offset = data ++ bytes.drop (offset + data.length) := by
  rw [splice, List.append_assoc, List.drop_left' (by rw [List.length_take]; omega)]

theorem splice_kept (kept : (bytes.drop (offset + front.length)).take back.length = back) :
    splice bytes offset (front ++ back) = splice bytes offset front := by
  have whole := List.take_append_drop back.length (bytes.drop (offset + front.length))
  rw [kept, List.drop_drop] at whole
  rw [splice, splice, List.length_append, ← Nat.add_assoc, List.append_assoc, List.append_assoc,
    List.append_assoc, whole]

end Splice

namespace Layout
variable {α β γ : Type} {whole first : Layout α} {part : Layout β} {second : Layout γ}

/-- A part of a record: where its bytes are, and the record with another value for it. A store of
these bytes into the memory of the record is then the same as setting the part. -/
structure Field (whole : Layout α) (part : Layout β) where
  offset : Nat
  get : α → β
  set : β → α → α
  room : offset + part.width ≤ whole.width
  load : ∀ value, ((whole.encode value).drop offset).take part.width = part.encode (get value)
  store : ∀ item value, whole.encode (set item value) = splice (whole.encode value) offset (part.encode item)

namespace Field

def self : Field whole whole where
  offset := 0
  get := id
  set item _ := item
  room := by omega
  load value := by rw [List.drop_zero, List.take_of_length_le (by simp), id]
  store item value := by rw [splice_whole (by simp)]

def here (field : Field first part) : Field (first.seq second) part where
  offset := field.offset
  get value := field.get value.1
  set item value := (field.set item value.1, value.2)
  room := by
    have room := field.room
    change _ ≤ first.width + second.width
    omega
  load value := by
    have room := field.room
    rw [seq_encode, List.drop_append_of_le_length (by simp; omega), List.take_append_of_le_length (by simp; omega),
      field.load]
  store item value := by
    have room := field.room
    rw [seq_encode, seq_encode, field.store, splice_left (by simpa using room)]

def next (field : Field second part) : Field (first.seq second) part where
  offset := first.width + field.offset
  get value := field.get value.2
  set item value := (value.1, field.set item value.2)
  room := by
    have room := field.room
    change _ ≤ first.width + second.width
    omega
  load value := by rw [seq_encode, drop_encode, field.load]
  store item value := by
    rw [seq_encode, seq_encode, field.store, ← first.length_encode value.1, splice_right]

def via {shape : α ≃ γ} (field : Field whole part) : Field (whole.via shape) part where
  offset := field.offset
  get value := field.get (shape.symm value)
  set item value := shape (field.set item (shape.symm value))
  room := field.room
  load value := field.load (shape.symm value)
  store item value := by rw [via_encode, via_encode, Equiv.symm_apply_apply, field.store]

end Field
end Layout
end ByteLayout
