import Bxxt.Proofs.Sha1Rounds
import Bxxt.Proofs.ReaderLayout

/-! SHA-1 of data that comes in pieces. Whatever they are, the digest is that of the standard for all of the data, as
long as the buffer's fill and a piece together are less than 2 ^ 32 bytes. -/

namespace Bxxt.Proofs
open Bxxt ByteLayout BlobBytes BlockStream

section Context
variable {context : Sha1Ctx} {message data : Bytes}

structure Fed (context : Sha1Ctx) (message : Bytes) : Prop where
  state : wordsOf context.state = absorb SecureHash.compress 64 SecureHash.initial message
  count : context.count0.toNat + 2 ^ 32 * context.count1.toNat = 8 * message.length % 2 ^ 64
  buffer : rest 64 message <+: context.buffer.toList

theorem fed_init (context : Sha1Ctx) : Fed (sha1Init context) [] where
  state := rfl
  count := rfl
  buffer := by
    rw [rest_nil]
    exact List.nil_prefix

theorem Fed.fill (fed : Fed context message) : (context.count0 >>> 3 &&& 63).toNat = message.length % 64 := by
  have count := fed.count
  have small := context.count0.toNat_lt
  have value : (context.count0 >>> 3 &&& 63).toNat = context.count0.toNat / 8 % 64 := by
    rw [UInt32.toNat_and, UInt32.toNat_shiftRight]
    change context.count0.toNat >>> 3 &&& 63 = _
    rw [Nat.shiftRight_eq_div_pow]
    exact Nat.and_two_pow_sub_one_eq_mod _ 6
  rw [value]
  omega

theorem count_step (fed : Fed context message) {len : UInt32} (whole : len.toNat = data.length) :
    (countBits context len).count0.toNat + 2 ^ 32 * (countBits context len).count1.toNat =
      8 * (message ++ data).length % 2 ^ 64 := by
  have count := fed.count
  have small0 := context.count0.toNat_lt
  have small1 := context.count1.toNat_lt
  have small := len.toNat_lt
  have shifted : (len <<< 3).toNat = 8 * len.toNat % 2 ^ 32 := by
    rw [UInt32.toNat_shiftLeft]
    change len.toNat <<< 3 % 2 ^ 32 = _
    rw [Nat.shiftLeft_eq, Nat.mul_comm]
  have high : (len >>> 29).toNat = len.toNat / 2 ^ 29 := by
    rw [UInt32.toNat_shiftRight]
    exact Nat.shiftRight_eq_div_pow ..
  rw [List.length_append, ← whole, countBits]
  dsimp only
  split
  next carry =>
    rw [UInt32.lt_iff_toNat_lt, UInt32.toNat_add, shifted] at carry
    have one : (context.count1 + 1).toNat = (context.count1.toNat + 1) % 2 ^ 32 := UInt32.toNat_add ..
    rw [UInt32.toNat_add, UInt32.toNat_add, shifted, high, one]
    omega
  next none =>
    rw [UInt32.lt_iff_toNat_lt, UInt32.toNat_add, shifted] at none
    rw [UInt32.toNat_add, UInt32.toNat_add, shifted, high]
    omega

theorem readData_eq {i count : Nat} (inside : i + count ≤ data.length) :
    readData data i count = .ok ((data.drop i).take count) :=
  if_pos inside

theorem memcpyBuffer_eq {buffer : Vector UInt8 64} {j : Nat} (room : j + data.length ≤ 64) :
    ∃ copied, memcpyBuffer buffer j data = .ok copied ∧ copied.toList = splice buffer.toList j data := by
  rw [memcpyBuffer, dif_pos room]
  exact ⟨_, rfl, rfl⟩

/-- The blocks that are not copied. The index does not go round. -/
theorem sha1Blocks_spec {len : UInt32} (whole : len.toNat = data.length) {fuel : Nat}
    {state : Vector UInt32 5} {i : UInt32} (inside : i.toNat ≤ data.length)
    (enough : (data.length - i.toNat) / 64 < fuel) (bound : i.toNat + (data.length - i.toNat) / 64 * 64 + 63 < 2 ^ 32) :
    ∃ last next, sha1Blocks data len fuel state i = .ok (last, next) ∧
      wordsOf last = absorb SecureHash.compress 64 (wordsOf state) (data.drop i.toNat) ∧
      next.toNat = i.toNat + (data.length - i.toNat) / 64 * 64 := by
  induction fuel generalizing state i with
  | zero => exact absurd enough (Nat.not_lt_zero _)
  | succ fuel ih =>
    have ahead : (i + 63).toNat = i.toNat + 63 := by
      rw [UInt32.toNat_add]
      exact Nat.mod_eq_of_lt (by change i.toNat + 63 < 2 ^ 32; omega)
    rw [sha1Blocks]
    by_cases more : i + 63 < len
    · have room : i.toNat + 64 ≤ data.length := by
        rw [UInt32.lt_iff_toNat_lt, ahead, whole] at more
        omega
      have next : (i + 64).toNat = i.toNat + 64 := by
        rw [UInt32.toNat_add]
        exact Nat.mod_eq_of_lt (by change i.toNat + 64 < 2 ^ 32; omega)
      have block : ((data.drop i.toNat).take 64).length = 64 := by
        rw [List.length_take, List.length_drop]
        omega
      obtain ⟨last, final, run, absorbed, place⟩ := @ih (sha1Transform state ((data.drop i.toNat).take 64)) (i + 64)
        (by omega) (by omega) (by omega)
      refine ⟨last, final, ?_, ?_, by omega⟩
      · rw [if_pos more, readData_eq room, Exec.ok_bind]
        exact run
      · have split : data.drop i.toNat = (data.drop i.toNat).take 64 ++ data.drop (i.toNat + 64) := by
          rw [← List.drop_drop, List.take_append_drop]
        rw [absorbed, next, split, absorb_block (by decide) _ block, ← split,
          sha1Transform_eq (Nat.le_of_eq block.symm)]
    · have short : data.length - i.toNat < 64 := by
        rw [UInt32.lt_iff_toNat_lt, ahead, whole] at more
        omega
      rw [if_neg more]
      refine ⟨state, i, rfl, ?_, by omega⟩
      rw [absorb_short]
      rw [List.length_drop]
      exact short

/-- What is spliced in behind the fill of the buffer continues it. -/
theorem splice_continues {buffer front : Bytes} (fill : front <+: buffer)
    (room : front.length + data.length ≤ buffer.length) :
    front ++ data <+: splice buffer front.length data := by
  obtain ⟨back, rfl⟩ := fill
  rw [splice, List.take_left]
  exact List.prefix_append _ _

theorem update_short (fed : Fed context message) {len : UInt32} (whole : len.toNat = data.length)
    (short : message.length % 64 + data.length < 64) : ∃ next, sha1Update context data len = .ok next ∧
    Fed next (message ++ data) := by
  have fill := fed.fill
  have sum : ((context.count0 >>> 3 &&& 63) + len).toNat = message.length % 64 + data.length := by
    rw [UInt32.toNat_add, fill, whole]
    exact Nat.mod_eq_of_lt (by omega)
  have notFull : ¬ (63 : UInt32) < (context.count0 >>> 3 &&& 63) + len := by
    rw [UInt32.lt_iff_toNat_lt, sum]
    change ¬ 63 < _
    omega
  have room : message.length % 64 + data.length ≤ 64 := by omega
  obtain ⟨copied, run, bytes⟩ := @memcpyBuffer_eq _ context.buffer _ room
  have read : readData data 0 len.toNat = .ok data := by
    rw [readData_eq (by omega), whole, List.drop_zero, List.take_length]
  refine ⟨{ countBits context len with buffer := copied }, ?_, ?_, ?_, ?_⟩
  · simp only [sha1Update, if_neg notFull, read, Exec.ok_bind, fill, run]
    rfl
  · rw [absorb_append (by decide), absorb_short]
    · exact fed.state
    · rw [List.length_append, length_rest]
      exact short
  · exact count_step fed whole
  · have left := @length_rest _ 64 message
    rw [rest_append (by decide), rest_short (by rw [List.length_append, left]; exact short), bytes, ← left]
    apply splice_continues fed.buffer
    rw [left, Vector.length_toList]
    exact room

/-- A piece that fills the buffer. What is left of it behind the last block starts the buffer anew. -/
theorem update_long (fed : Fed context message) {len : UInt32} (whole : len.toNat = data.length)
    (full : 64 ≤ message.length % 64 + data.length) (bound : message.length % 64 + data.length < 2 ^ 32) :
    ∃ next, sha1Update context data len = .ok next ∧ Fed next (message ++ data) := by
  have fill := fed.fill
  have left := @length_rest _ 64 message
  have sum : ((context.count0 >>> 3 &&& 63) + len).toNat = message.length % 64 + data.length := by
    rw [UInt32.toNat_add, fill, whole]
    exact Nat.mod_eq_of_lt bound
  have fills : (63 : UInt32) < (context.count0 >>> 3 &&& 63) + len := by
    rw [UInt32.lt_iff_toNat_lt, sum]
    change 63 < _
    omega
  have rim : ((64 : UInt32) - (context.count0 >>> 3 &&& 63)).toNat = 64 - message.length % 64 := by
    rw [UInt32.toNat_sub_of_le, fill]
    · rfl
    · rw [UInt32.le_iff_toNat_le, fill]
      change _ ≤ 64
      omega
  -- the piece up to the end of the buffer
  have front : (data.take (64 - message.length % 64)).length = 64 - message.length % 64 := by
    rw [List.length_take]
    omega
  have room : message.length % 64 + (data.take (64 - message.length % 64)).length ≤ 64 := by omega
  have read : readData data 0 (64 - message.length % 64) = .ok (data.take (64 - message.length % 64)) := by
    rw [readData_eq (by omega), List.drop_zero]
  obtain ⟨block, filled, bytes⟩ := @memcpyBuffer_eq _ context.buffer _ room
  have continues : rest 64 message ++ data.take (64 - message.length % 64) = block.toList := by
    have inside : rest 64 message ++ data.take (64 - message.length % 64) <+: block.toList := by
      rw [bytes, ← left]
      apply splice_continues fed.buffer
      rw [left, Vector.length_toList]
      exact room
    apply inside.eq_of_length
    rw [List.length_append, left, front, Vector.length_toList]
    omega
  -- the blocks that are not copied
  obtain ⟨last, next, blocks, absorbed, place⟩ := @sha1Blocks_spec data len whole (data.length + 1)
    (sha1Transform context.state block.toList) ((64 : UInt32) - (context.count0 >>> 3 &&& 63)) (by omega)
      (by omega) (by omega)
  rw [rim] at absorbed place
  have behind : (len - next).toNat = data.length - next.toNat := by
    rw [UInt32.toNat_sub_of_le, whole]
    rw [UInt32.le_iff_toNat_le, whole]
    omega
  have tail : readData data next.toNat (len - next).toNat = .ok (data.drop next.toNat) := by
    rw [readData_eq (by omega), behind]
    exact congrArg Except.ok (List.take_of_length_le (by rw [List.length_drop]))
  have fits : 0 + (data.drop next.toNat).length ≤ 64 := by
    rw [List.length_drop]
    omega
  obtain ⟨started, copied, start⟩ := @memcpyBuffer_eq _ block _ fits
  have shape : rest 64 message ++ data = block.toList ++ data.drop (64 - message.length % 64) := by
    rw [← continues, List.append_assoc, List.take_append_drop]
  refine ⟨{ countBits context len with state := last, buffer := started }, ?_, ?_, ?_, ?_⟩
  · simp only [sha1Update, if_pos fills, rim, read, Exec.ok_bind, fill, filled, blocks, tail, copied]
    rfl
  · rw [absorbed, absorb_append (by decide), shape, absorb_block (by decide) _ (Vector.length_toList ..),
      ← fed.state, sha1Transform_eq (Nat.le_of_eq (Vector.length_toList ..).symm)]
  · exact count_step fed whole
  · have ending : rest 64 (message ++ data) = data.drop next.toNat := by
      rw [rest_append (by decide), shape, rest_block (by decide) (Vector.length_toList ..), rest, List.drop_drop,
        place, List.length_drop]
    rw [ending, start, splice, List.take_zero, List.nil_append]
    exact List.prefix_append _ _

/-- A piece with which the fill of the buffer goes round is copied into the buffer. -/
theorem update_overflow (fed : Fed context message) {len : UInt32} (whole : len.toNat = data.length)
    (wraps : 2 ^ 32 ≤ message.length % 64 + data.length) : sha1Update context data len = .error .outOfBounds := by
  have fill := fed.fill
  have small := len.toNat_lt
  have sum : ((context.count0 >>> 3 &&& 63) + len).toNat = message.length % 64 + data.length - 2 ^ 32 := by
    rw [UInt32.toNat_add, fill, whole]
    omega
  have notFull : ¬ (63 : UInt32) < (context.count0 >>> 3 &&& 63) + len := by
    rw [UInt32.lt_iff_toNat_lt, sum]
    change ¬ 63 < _
    omega
  have read : readData data 0 len.toNat = .ok data := by
    rw [readData_eq (by omega), whole, List.drop_zero, List.take_length]
  have overrun : memcpyBuffer context.buffer (message.length % 64) data = .error .outOfBounds := dif_neg (by omega)
  simp only [sha1Update, if_neg notFull, read, Exec.ok_bind, fill, overrun]
  rfl

/-- A piece is taken exactly if the fill of the buffer and its length do not go round. -/
theorem update_iff (fed : Fed context message) {len : UInt32} (whole : len.toNat = data.length) :
    (message.length % 64 + data.length < 2 ^ 32 → ∃ next, sha1Update context data len = .ok next ∧
      Fed next (message ++ data)) ∧
      (2 ^ 32 ≤ message.length % 64 + data.length → sha1Update context data len = .error .outOfBounds) := by
  refine ⟨fun bound => ?_, update_overflow fed whole⟩
  by_cases full : 64 ≤ message.length % 64 + data.length
  · exact update_long fed whole full bound
  · exact update_short fed whole (by omega)

end Context
section Final
variable {context : Sha1Ctx} {message : Bytes}

theorem byteOf_eq (word : UInt32) (i : Nat) : byteOf word i = UInt8.ofNat (word.toNat / 256 ^ (3 - i % 4)) := by
  apply UInt8.toNat_inj.mp
  have shift : (UInt32.ofNat ((3 - i % 4) * 8)).toNat % 32 = (3 - i % 4) * 8 := by
    rw [UInt32.toNat_ofNat']
    omega
  have power : (2 : Nat) ^ ((3 - i % 4) * 8) = 256 ^ (3 - i % 4) := by
    rw [Nat.mul_comm, Nat.pow_mul]
  have masked : (word >>> UInt32.ofNat ((3 - i % 4) * 8) &&& 255).toNat = word.toNat / 256 ^ (3 - i % 4) % 256 := by
    rw [UInt32.toNat_and, UInt32.toNat_shiftRight, shift, Nat.shiftRight_eq_div_pow, power]
    exact Nat.and_two_pow_sub_one_eq_mod _ 8
  rw [byteOf, UInt32.toNat_toUInt8, masked, UInt8.toNat_ofNat', Nat.mod_mod]

theorem wordBytes_eq (word : UInt32) :
    SecureHash.wordBytes word = [byteOf word 0, byteOf word 1, byteOf word 2, byteOf word 3] := by
  simp only [byteOf_eq, SecureHash.wordBytes, beBytes, leBytes, List.reverse_cons, List.reverse_nil,
    List.nil_append, List.cons_append, Nat.div_div_eq_div_mul]
  norm_num

theorem count_bytes (fed : Fed context message) :
    (List.range 8).map (fun i => byteOf (if 4 ≤ i then context.count0 else context.count1) i) =
      beBytes 8 (8 * message.length) := by
  have words : (List.range 8).map (fun i => byteOf (if 4 ≤ i then context.count0 else context.count1) i) =
      SecureHash.wordBytes context.count1 ++ SecureHash.wordBytes context.count0 := by
    rw [wordBytes_eq, wordBytes_eq]
    rfl
  rw [words]
  exact (SecureHash.beBytes_halves context.count0.toNat_lt fed.count).symm

/-- The loop of the padding looks at the fill of the buffer. -/
theorem Fed.unfilled_iff (fed : Fed context message) :
    context.count0 &&& 504 ≠ 448 ↔ message.length % 64 ≠ 56 := by
  have count := fed.count
  have small := context.count0.toNat_lt
  have shape : context.count0.toNat = 8 * (context.count0.toNat / 8) := by omega
  have masked : (context.count0 &&& 504).toNat = 8 * (message.length % 64) := by
    have low : 8 * (context.count0.toNat / 8) &&& 8 * 63 = 8 * ((context.count0.toNat / 8) &&& 63) := by
      rw [Nat.mul_comm 8, Nat.mul_comm 8, Nat.mul_comm 8]
      exact (Nat.shiftLeft_eq _ 3) ▸ (Nat.shiftLeft_eq _ 3) ▸ (Nat.shiftLeft_eq _ 3) ▸
        Nat.shiftLeft_and_distrib.symm
    have fill : (context.count0.toNat / 8) &&& 63 = context.count0.toNat / 8 % 64 := Nat.and_two_pow_sub_one_eq_mod _ 6
    rw [UInt32.toNat_and]
    change context.count0.toNat &&& 8 * 63 = _
    rw [shape, low, fill]
    omega
  rw [not_iff_not, ← UInt32.toNat_inj, masked]
  change 8 * (message.length % 64) = 448 ↔ _
  omega

theorem sha1Zeros_spec (fed : Fed context message) {fuel : Nat} (enough : (120 - message.length % 64) % 64 < fuel) :
    ∃ next, sha1Zeros fuel context = .ok next ∧
      Fed next (message ++ List.replicate ((120 - message.length % 64) % 64) 0) := by
  induction fuel generalizing context message with
  | zero => exact absurd enough (Nat.not_lt_zero _)
  | succ fuel ih =>
    rw [sha1Zeros]
    by_cases more : context.count0 &&& 504 ≠ 448
    · have unfilled := fed.unfilled_iff.mp more
      obtain ⟨next, run, fedNext⟩ := (@update_iff context message [0] fed 1 rfl).1
        (by rw [List.length_singleton]; omega)
      have length : (message ++ [(0 : UInt8)]).length = message.length + 1 := List.length_append
      have fewer : (120 - message.length % 64) % 64 = (120 - (message ++ [(0 : UInt8)]).length % 64) % 64 + 1 := by
        omega
      obtain ⟨last, rest, ends⟩ := ih fedNext (by omega)
      refine ⟨last, ?_, ?_⟩
      · rw [if_pos more, run, Exec.ok_bind]
        exact rest
      · rw [fewer, List.replicate_succ, List.append_cons]
        exact ends
    · have filled : message.length % 64 = 56 := not_ne_iff.mp (fed.unfilled_iff.not.mp more)
      rw [if_neg more, filled]
      exact ⟨context,
        rfl, by rwa [show List.replicate ((120 - 56) % 64) (0 : UInt8) = [] from rfl, List.append_nil]⟩

/-- The digest is that of the standard, whatever has been taken. -/
theorem sha1Final_spec (fed : Fed context message) :
    ∃ digest, sha1Final context = .ok digest ∧ digest.toList = SecureHash.sha1 message := by
  obtain ⟨marked, mark, fedMarked⟩ := (@update_iff context message [0x80] fed 1 rfl).1
    (by rw [List.length_singleton]; omega)
  obtain ⟨filled, zeros, fedFilled⟩ := @sha1Zeros_spec marked (message ++ [0x80]) fedMarked 64
    (Nat.mod_lt _ (by decide))
  have eight : (UInt32.ofNat 8).toNat = (beBytes 8 (8 * message.length)).length := by
    rw [length_beBytes]
    rfl
  obtain ⟨last, counted, fedLast⟩ := (@update_iff filled _ _ fedFilled 8 eight).1 (by rw [length_beBytes]; omega)
  have shape : message ++ [0x80] ++ List.replicate ((120 - (message ++ [(0x80 : UInt8)]).length % 64) % 64) 0 ++
      beBytes 8 (8 * message.length) = SecureHash.padded message := by
    have zeros : (120 - (message ++ [(0x80 : UInt8)]).length % 64) % 64 = SecureHash.zeroCount message.length := by
      rw [SecureHash.zeroCount, List.length_append, List.length_singleton]
      omega
    rw [zeros, SecureHash.padded]
    simp only [List.append_assoc]
  rw [shape] at fedLast
  refine ⟨Vector.ofFn fun i : Fin 20 => byteOf (last.state.get ⟨i / 4, by omega⟩) i, ?_, ?_⟩
  · simp only [sha1Final, mark, zeros, count_bytes fed, counted, Exec.ok_bind]
    rfl
  · rw [Vector.toList_ofFn, SecureHash.sha1, ← fedLast.state]
    simp only [SecureHash.Words.bytes, wordBytes_eq]
    rfl

end Final
section Pieces
variable {context : Sha1Ctx} {message : Bytes} {pieces : List Bytes}

/-- Nowhere does the sum of the buffer's fill and the length of the next piece go round at 32 bits.
-/
def PiecesFit (message : Bytes) (pieces : List Bytes) : Prop :=
  ∀ front data back, pieces = front ++ data :: back → (message ++ front.flatten).length % 64 + data.length < 2 ^ 32

theorem piecesFit_nil : PiecesFit message [] := fun front _ _ none => by cases front <;> cases none

theorem piecesFit_cons {data : Bytes} :
    PiecesFit message (data :: pieces) ↔ message.length % 64 + data.length < 2 ^ 32 ∧
      PiecesFit (message ++ data) pieces := by
  constructor
  · intro fit
    refine ⟨?_, fun front next back same => ?_⟩
    · have first := fit [] data pieces rfl
      rwa [List.flatten_nil, List.append_nil] at first
    · have later := fit (data :: front) next back (congrArg (data :: ·) same)
      rwa [List.flatten_cons, ← List.append_assoc] at later
  · rintro ⟨first, later⟩ front next back same
    cases front with
    | nil =>
      cases same
      rwa [List.flatten_nil, List.append_nil]
    | cons piece front =>
      rw [List.cons_append, List.cons.injEq] at same
      obtain ⟨rfl, same⟩ := same
      rw [List.flatten_cons, ← List.append_assoc]
      exact later front next back same

/-- The run over the pieces, by induction on them: what has come is taken, or a copy leaves the buffer. -/
theorem pieces_run (fed : Fed context message) (sized : ∀ data ∈ pieces, data.length < 2 ^ 32) :
    (PiecesFit message pieces → ∃ last,
        pieces.foldlM (fun context data => sha1Update context data (UInt32.ofNat data.length)) context = .ok last ∧
        Fed last (message ++ pieces.flatten)) ∧
      (¬ PiecesFit message pieces →
        pieces.foldlM (fun context data => sha1Update context data (UInt32.ofNat data.length)) context =
          .error .outOfBounds) := by
  induction pieces generalizing context message with
  | nil =>
    refine ⟨fun _ => ⟨context, rfl, ?_⟩, fun unfit => absurd piecesFit_nil unfit⟩
    rwa [List.flatten_nil, List.append_nil]
  | cons data pieces ih =>
    have len : (UInt32.ofNat data.length).toNat = data.length := by
      rw [UInt32.toNat_ofNat']
      exact Nat.mod_eq_of_lt (sized data List.mem_cons_self)
    have step := update_iff fed len
    have smaller : ∀ later ∈ pieces, later.length < 2 ^ 32 := fun later inside =>
      sized later (List.mem_cons_of_mem _ inside)
    rw [piecesFit_cons, List.foldlM_cons]
    by_cases room : message.length % 64 + data.length < 2 ^ 32
    · obtain ⟨next, run, fedNext⟩ := step.1 room
      have later := ih fedNext smaller
      rw [run, Exec.ok_bind, List.flatten_cons, ← List.append_assoc]
      exact ⟨fun fit => later.1 fit.2, fun unfit => later.2 fun fit => unfit ⟨room, fit⟩⟩
    · refine ⟨fun fit => absurd fit.1 room, fun _ => ?_⟩
      rw [step.2 (Nat.le_of_not_lt room)]
      rfl

theorem pieces_digest (context : Sha1Ctx) (sized : ∀ data ∈ pieces, data.length < 2 ^ 32)
    (fit : PiecesFit [] pieces) :
    ∃ digest, sha1Pieces context pieces = .ok digest ∧ digest.toList = SecureHash.sha1 pieces.flatten := by
  obtain ⟨last, taken, fed⟩ := (pieces_run (fed_init context) sized).1 fit
  obtain ⟨digest, final, standard⟩ := sha1Final_spec fed
  refine ⟨digest, ?_, standard⟩
  rw [sha1Pieces, taken, Exec.ok_bind, final]

/-- In whatever pieces the data comes, the digest is that of the standard for all of it. It fails only where the fill of
the buffer goes round with a piece, and then it has written behind the buffer. -/
theorem sha1Pieces_iff (context : Sha1Ctx) (sized : ∀ data ∈ pieces, data.length < 2 ^ 32) :
    (PiecesFit [] pieces → ∃ digest, sha1Pieces context pieces = .ok digest ∧
      digest.toList = SecureHash.sha1 pieces.flatten) ∧
      (¬ PiecesFit [] pieces → sha1Pieces context pieces = .error .outOfBounds) := by
  refine ⟨pieces_digest context sized, fun unfit => ?_⟩
  rw [sha1Pieces, (pieces_run (fed_init context) sized).2 unfit]
  rfl

/-- Two pieces, of which the second goes over the end of a block. -/
theorem sha1Pieces_two : ∃ digest,
    sha1Pieces ⟨Vector.replicate 5 0, 0, 0, Vector.replicate 64 0⟩ [List.replicate 60 97, List.replicate 10 98] =
      .ok digest ∧
    digest.toList = SecureHash.sha1 (List.replicate 60 97 ++ List.replicate 10 98) := by
  refine (sha1Pieces_iff ⟨Vector.replicate 5 0, 0, 0, Vector.replicate 64 0⟩ (by decide)).1 ?_
  rw [piecesFit_cons, piecesFit_cons]
  exact ⟨by decide, by decide, piecesFit_nil⟩

end Pieces
section Strings
variable {context : Sha1Ctx} {str : Bytes} {len : UInt32}

/-- The loop of `SHA1`, by induction on the bytes that are still to come: they are taken, or a read
leaves the string. -/
theorem sha1Bytes_spec {fuel : Nat} {ii : UInt32} (fed : Fed context (str.take ii.toNat))
    (inside : ii.toNat ≤ str.length) (enough : len.toNat < ii.toNat + fuel) (bound : ii.toNat ≤ len.toNat) :
    (len.toNat ≤ str.length → ∃ last, sha1Bytes str len fuel context ii = .ok last ∧
      Fed last (str.take len.toNat)) ∧
      (str.length < len.toNat → sha1Bytes str len fuel context ii = .error .outOfBounds) := by
  induction fuel generalizing context ii with
  | zero => omega
  | succ fuel ih =>
    have small := len.toNat_lt
    rw [sha1Bytes]
    by_cases more : ii < len
    · have below := UInt32.lt_iff_toNat_lt.mp more
      have next : (ii + 1).toNat = ii.toNat + 1 := by
        rw [UInt32.toNat_add]
        exact Nat.mod_eq_of_lt (by change ii.toNat + 1 < 2 ^ 32; omega)
      rw [if_pos more]
      by_cases room : ii.toNat < str.length
      · have single : (str.drop ii.toNat).take 1 = [str[ii.toNat]] := by
          rw [List.drop_eq_getElem_cons room, List.take_succ_cons, List.take_zero]
        have longer : str.take (ii + 1).toNat = str.take ii.toNat ++ [str[ii.toNat]] := by
          rw [next, List.take_succ_eq_append_getElem room]
        have fill := Nat.mod_lt (str.take ii.toNat).length (by decide : 0 < 64)
        obtain ⟨following, run, fedNext⟩ :=
          (@update_iff context _ [str[ii.toNat]] fed 1 rfl).1 (by rw [List.length_singleton]; omega)
        rw [readData_eq room, single, Exec.ok_bind, run, Exec.ok_bind]
        rw [← longer] at fedNext
        exact ih fedNext (by omega) (by omega) (by omega)
      · rw [readData, if_neg (show ¬ ii.toNat + 1 ≤ str.length from room)]
        exact ⟨fun whole => absurd whole (by omega), fun _ => rfl⟩
    · have same : len.toNat = ii.toNat := by
        rw [UInt32.lt_iff_toNat_lt] at more
        omega
      rw [if_neg more, same]
      exact ⟨fun _ => ⟨context, rfl, fed⟩, fun short => absurd inside (Nat.not_le_of_lt short)⟩

/-- The first bytes of a string, through a byte at a time, and the NUL. It fails only where the
string has fewer bytes. -/
theorem sha1_eq (context : Sha1Ctx) (str : Bytes) (len : UInt32) :
    sha1 context str len =
      if len.toNat ≤ str.length then .ok (SecureHash.sha1 (str.take len.toNat) ++ [0]) else .error .outOfBounds := by
  have bytes := @sha1Bytes_spec (sha1Init context) str len (len.toNat + 1) 0 (fed_init context) (Nat.zero_le _)
    (by change len.toNat < 0 + (len.toNat + 1); omega) (Nat.zero_le _)
  split
  next whole =>
    obtain ⟨last, run, fed⟩ := bytes.1 whole
    obtain ⟨digest, final, standard⟩ := sha1Final_spec fed
    rw [sha1, run, Exec.ok_bind, final, Exec.ok_bind, standard]
    rfl
  next short =>
    rw [sha1, bytes.2 (Nat.lt_of_not_le short)]
    rfl

end Strings
section Signature
variable {context : Sha1Ctx} {message : Bytes} {b : Boot}

def standardDigest (message : Bytes) : Vector UInt8 20 :=
  ⟨(SecureHash.sha1 message).toArray, SecureHash.length_sha1 message⟩

/-- A step that feeds the bytes of a read behind the message, or fails as the read does. -/
def Feeds (run : Exec Sha1Ctx) (message : Bytes) (read : Exec Bytes) : Prop :=
  match read with
  | .ok data => ∃ next, run = .ok next ∧ Fed next (message ++ data)
  | .error e => run = .error e

/-- What comes behind a read may look at the data only. -/
theorem Feeds.bind {β : Type} {run : Exec Sha1Ctx} {read : Exec Bytes} {hashed : Sha1Ctx → Exec β}
    {plain : Bytes → Exec β} (feeds : Feeds run message read)
    (behind : ∀ next data, Fed next (message ++ data) → hashed next = plain data) :
    run >>= hashed = read >>= plain := by
  cases read with
  | ok data =>
    obtain ⟨next, done, fed⟩ := feeds
    rw [done, Exec.ok_bind, Exec.ok_bind, behind next data fed]
  | error e =>
    rw [show run = .error e from feeds]
    rfl

theorem feeds_section (fed : Fed context message) {addr : Nat} {size : UInt32} (short : size.toNat + 63 < 2 ^ 32) :
    Feeds (b.read addr size.toNat >>= fun data => sha1Update context data size) message (b.read addr size.toNat) := by
  cases read : b.read addr size.toNat with
  | error e => rfl
  | ok data =>
    have whole := length_of_read read
    have fill := Nat.mod_lt message.length (by decide : 0 < 64)
    exact (update_iff fed whole).1 (by omega)

theorem feeds_optional (fed : Fed context message) {addr : Nat} {size : UInt32} (short : size.toNat + 63 < 2 ^ 32) :
    Feeds (updateOptional context b addr size) message (hashOptional b addr size) := by
  rw [updateOptional, hashOptional]
  split
  next => exact feeds_section fed short
  next => exact ⟨context, rfl, by rwa [List.append_nil]⟩

theorem updateSize_spec (fed : Fed context message) (size : UInt32) :
    ∃ next, updateSize context size = .ok next ∧ Fed next (message ++ leBytes 4 size.toNat) := by
  have fill := Nat.mod_lt message.length (by decide : 0 < 64)
  have four : (4 : UInt32).toNat = (leBytes 4 size.toNat).length := by
    rw [length_leBytes]
    rfl
  exact (update_iff fed four).1 (by rw [length_leBytes]; omega)

theorem feeds_since (fed : Fed context message) (version : UInt32) {addr : Nat} {size : UInt32}
    (short : size.toNat + 63 < 2 ^ 32) :
    Feeds (updateSince context b version addr size) message (hashSince b version addr size) := by
  rw [updateSince, hashSince]
  split
  next =>
    have feeds := @feeds_optional _ _ b fed addr _ short
    cases read : hashOptional b addr size with
    | error e =>
      rw [read] at feeds
      rw [show updateOptional context b addr size = .error e from feeds]
      rfl
    | ok data =>
      rw [read] at feeds
      obtain ⟨next, run, fedNext⟩ := feeds
      obtain ⟨last, sized, fedLast⟩ := updateSize_spec fedNext size
      rw [run, Exec.ok_bind]
      exact ⟨last, sized, by rwa [← List.append_assoc]⟩
  next => exact ⟨context, rfl, by rwa [List.append_nil]⟩

structure SectionsShort (b : Boot) : Prop where
  kernel : b.kernelSize.toNat + 63 < 2 ^ 32
  ramdisk : b.ramdiskSize.toNat + 63 < 2 ^ 32
  second : b.secondSize.toNat + 63 < 2 ^ 32
  recoveryDtbo : b.recoveryDtboSize.toNat + 63 < 2 ^ 32
  dtb : b.dtbSize.toNat + 63 < 2 ^ 32

/-- The signature of an image is the digest of the standard for its sections and their sizes, and fails only as a read
of a section does. -/
theorem bxxtBootImgSignatureFed_eq (context : Sha1Ctx) (short : SectionsShort b) :
    bxxtBootImgSignatureFed context b = bxxtBootImgSignature standardDigest b := by
  simp only [bxxtBootImgSignatureFed, bxxtBootImgSignature, bxxtBootImgMessage, bind_assoc]
  rw [← bind_assoc]
  refine (feeds_section (fed_init context) short.kernel).bind fun afterKernel kernel fedKernel => ?_
  obtain ⟨kernelSized, kernelSize, fedKernelSize⟩ := updateSize_spec fedKernel b.kernelSize
  rw [kernelSize, Exec.ok_bind, ← bind_assoc]
  refine (feeds_section fedKernelSize short.ramdisk).bind fun afterRamdisk ramdisk fedRamdisk => ?_
  obtain ⟨ramdiskSized, ramdiskSize, fedRamdiskSize⟩ := updateSize_spec fedRamdisk b.ramdiskSize
  rw [ramdiskSize, Exec.ok_bind]
  refine (feeds_optional fedRamdiskSize short.second).bind fun afterSecond second fedSecond => ?_
  obtain ⟨secondSized, secondSize, fedSecondSize⟩ := updateSize_spec fedSecond b.secondSize
  rw [secondSize, Exec.ok_bind]
  refine (feeds_since fedSecondSize 0 short.recoveryDtbo).bind fun afterDtbo dtbo fedDtbo => ?_
  refine (feeds_since fedDtbo 1 short.dtb).bind fun last dtb fed => ?_
  obtain ⟨digest, final, standard⟩ := sha1Final_spec fed
  have same : digest = standardDigest (kernel ++ leBytes 4 b.kernelSize.toNat ++ ramdisk ++
    leBytes 4 b.ramdiskSize.toNat ++
      second ++ leBytes 4 b.secondSize.toNat ++ dtbo ++ dtb) := Vector.toList_inj.mp standard
  rw [final, Exec.ok_bind, same]
  rfl

/-- An image of version 2 with a kernel of more than a block, and with all the other sections. -/
def sectionedBoot : Boot :=
  { bxxtBootNew with
    mm := some (Region.ofFile (List.range 90 |>.map UInt8.ofNat))
    version := 2
    kernelSize := 70
    ramdiskSize := 8
    mmRamdiskPtr := 70
    secondSize := 1
    mmSecondPtr := 78
    recoveryDtboSize := 4
    mmRecoveryDtboPtr := 79
    dtbSize := 7
    mmDtbPtr := 83 }

theorem sections_signed :
    bxxtBootImgSignatureFed ⟨Vector.replicate 5 0, 0, 0, Vector.replicate 64 0⟩ sectionedBoot =
    bxxtBootImgSignature standardDigest sectionedBoot :=
  bxxtBootImgSignatureFed_eq _ ⟨by decide, by decide, by decide, by decide, by decide⟩

end Signature
end Bxxt.Proofs
