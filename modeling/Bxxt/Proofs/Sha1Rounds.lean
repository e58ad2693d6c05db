import Bxxt.Sha1
import Bxxt.Lib.SecureHash

/-! The unrolled rounds of SHA-1 against those of the standard. The variables do not move from one round to the next,
the macros are called with other ones. Of the expanded words only the last sixteen are kept. -/

namespace Bxxt.Proofs
open Bxxt ByteLayout BlobBytes

section Words

theorem bytes_word (b0 b1 b2 b3 : UInt8) :
    (UInt32.ofNat (leValue [b0, b1, b2, b3])).toBitVec = b3.toBitVec ++ b2.toBitVec ++ b1.toBitVec ++ b0.toBitVec := by
  apply BitVec.eq_of_toNat_eq
  have small0 := b0.toNat_lt
  have small1 := b1.toNat_lt
  have small2 := b2.toNat_lt
  have small3 := b3.toNat_lt
  simp only [BitVec.toNat_append, UInt8.toNat_toBitVec, UInt32.toNat_toBitVec, UInt32.toNat_ofNat', leValue]
  rw [← Nat.shiftLeft_add_eq_or_of_lt small2, ← Nat.shiftLeft_add_eq_or_of_lt small1,
    ← Nat.shiftLeft_add_eq_or_of_lt small0]
  simp only [Nat.shiftLeft_eq]
  omega

section Bytes
variable (b0 b1 b2 b3 : BitVec 8)

theorem rotate_down : (b3 ++ b2 ++ b1 ++ b0) <<< 24 ||| (b3 ++ b2 ++ b1 ++ b0) >>> 8 = b0 ++ b3 ++ b2 ++ b1 := by
  apply BitVec.eq_of_getLsbD_eq
  intro i inside
  have beyond {b : BitVec 8} {k : Nat} (big : 8 ≤ k) : b.getLsbD k = false := BitVec.getLsbD_of_ge b k big
  simp only [BitVec.getLsbD_or, BitVec.getLsbD_shiftLeft, BitVec.getLsbD_ushiftRight, BitVec.getLsbD_append]
  grind

theorem rotate_up : (b3 ++ b2 ++ b1 ++ b0) <<< 8 ||| (b3 ++ b2 ++ b1 ++ b0) >>> 24 = b2 ++ b1 ++ b0 ++ b3 := by
  apply BitVec.eq_of_getLsbD_eq
  intro i inside
  have beyond {b : BitVec 8} {k : Nat} (big : 8 ≤ k) : b.getLsbD k = false := BitVec.getLsbD_of_ge b k big
  simp only [BitVec.getLsbD_or, BitVec.getLsbD_shiftLeft, BitVec.getLsbD_ushiftRight, BitVec.getLsbD_append]
  grind

/-- Every other byte of the one, and the bytes between them of the other. -/
theorem masked_bytes :
    (b0 ++ b3 ++ b2 ++ b1) &&& 0xFF00FF00#32 ||| (b2 ++ b1 ++ b0 ++ b3) &&& 0x00FF00FF#32 = b0 ++ b1 ++ b2 ++ b3 := by
  have all (b : BitVec 8) : b &&& 0xFF#8 = b := BitVec.and_allOnes
  have parts : (((b0 ++ b3 ++ b2 ++ b1) &&& (0xFF#8 ++ 0#8 ++ 0xFF#8 ++ 0#8)) |||
      ((b2 ++ b1 ++ b0 ++ b3) &&& (0#8 ++ 0xFF#8 ++ 0#8 ++ 0xFF#8)) : BitVec (8 + 8 + 8 + 8)) =
        b0 ++ b1 ++ b2 ++ b3 := by
    simp only [BitVec.and_append, BitVec.or_append, all, BitVec.and_zero, BitVec.zero_or, BitVec.or_zero]
  exact parts

end Bytes

/-- The swap of `blk0`. -/
theorem swap_word (b0 b1 b2 b3 : UInt8) :
    rol (UInt32.ofNat (leValue [b0, b1, b2, b3])) 24 &&& 0xFF00FF00 ||| rol (UInt32.ofNat (leValue [b0, b1, b2, b3]))
      8 &&& 0x00FF00FF =
      UInt32.ofNat (beValue [b0, b1, b2, b3]) := by
  apply UInt32.toBitVec_inj.mp
  have word := bytes_word b0 b1 b2 b3
  have swapped : (UInt32.ofNat (beValue [b0, b1, b2, b3])).toBitVec = b0.toBitVec ++ b1.toBitVec ++
    b2.toBitVec ++ b3.toBitVec :=
    bytes_word b3 b2 b1 b0
  have down : (rol (UInt32.ofNat (leValue [b0, b1, b2, b3])) 24).toBitVec = b0.toBitVec ++ b3.toBitVec ++
      b2.toBitVec ++ b1.toBitVec := by
    rw [← rotate_down, ← word]
    rfl
  have up : (rol (UInt32.ofNat (leValue [b0, b1, b2, b3])) 8).toBitVec = b2.toBitVec ++ b1.toBitVec ++
      b0.toBitVec ++ b3.toBitVec := by
    rw [← rotate_up, ← word]
    rfl
  rw [UInt32.toBitVec_or, UInt32.toBitVec_and, UInt32.toBitVec_and, down, up, swapped]
  exact masked_bytes _ _ _ _

end Words
section Rounds

def macroOf (t : Nat) : Sha1Macro :=
  if t < 16 then .r0 else if t < 20 then .r1 else if t < 40 then .r2 else if t < 60 then .r3 else .r4

theorem mix_choose (x y z : UInt32) : (x &&& (y ^^^ z)) ^^^ z = SecureHash.choose x y z := by
  apply UInt32.toBitVec_inj.mp
  ext i inside
  simp only [SecureHash.choose, UInt32.toBitVec_and, UInt32.toBitVec_xor, UInt32.toBitVec_not, BitVec.getElem_and,
    BitVec.getElem_xor, BitVec.getElem_not]
  cases x.toBitVec[i] <;> simp

theorem mix_majority (x y z : UInt32) : ((x ||| y) &&& z) ||| (x &&& y) = SecureHash.majority x y z := by
  apply UInt32.toBitVec_inj.mp
  ext i inside
  simp only [SecureHash.majority, UInt32.toBitVec_and, UInt32.toBitVec_xor, UInt32.toBitVec_or, BitVec.getElem_and,
    BitVec.getElem_xor, BitVec.getElem_or]
  cases x.toBitVec[i] <;> cases y.toBitVec[i] <;> simp

theorem mix_macroOf (t : Nat) (x y z : UInt32) : (macroOf t).mix x y z = SecureHash.mix t x y z := by
  rw [macroOf, SecureHash.mix]
  by_cases first : t < 16
  · rw [if_pos first, if_pos (by omega)]
    exact mix_choose x y z
  by_cases second : t < 20
  · rw [if_neg first, if_pos second, if_pos second]
    exact mix_choose x y z
  by_cases third : t < 40
  · rw [if_neg first, if_neg second, if_pos third, if_neg second, if_pos third]
    rfl
  by_cases fourth : t < 60
  · rw [if_neg first, if_neg second, if_neg third, if_pos fourth, if_neg second, if_neg third, if_pos fourth]
    exact mix_majority x y z
  · rw [if_neg first, if_neg second, if_neg third, if_neg fourth, if_neg second, if_neg third, if_neg fourth]
    rfl

theorem constant_macroOf (t : Nat) : (macroOf t).constant = SecureHash.constant t := by
  rw [macroOf, SecureHash.constant]
  by_cases first : t < 16
  · rw [if_pos first, if_pos (by omega)]
    rfl
  rw [if_neg first]
  split
  · rfl
  · split
    · rfl
    · split <;> rfl

/-- The variable that is in a place of the standard's after so many rounds. -/
def varAt (t place : Nat) : Fin 5 := ⟨(place + 4 * t) % 5, Nat.mod_lt _ (Nat.succ_pos 4)⟩

theorem varAt_succ (t place : Nat) : varAt (t + 1) (place + 1) = varAt t place := by
  apply Fin.ext
  simp only [varAt]
  omega

theorem varAt_first (t : Nat) : varAt (t + 1) 0 = varAt t 4 := by
  apply Fin.ext
  simp only [varAt]
  omega

theorem varAt_ne {t first second : Nat} (one : first < 5) (two : second < 5) (apart : first ≠ second) :
    varAt t first ≠ varAt t second := by
  intro same
  have values := congrArg Fin.val same
  simp only [varAt] at values
  omega

def callOf (t : Nat) : Sha1Call := ⟨macroOf t, varAt t 0, varAt t 1, varAt t 2, varAt t 3, varAt t 4, t⟩

theorem sha1Calls_eq : sha1Calls = (List.range 80).map callOf := by
  decide

end Rounds
section Simulation
variable {buffer : Bytes} {h : SecureHash.Words} {s : Sha1Working} {t : Nat}

def loadedWord (buffer : Bytes) (t : Nat) : UInt32 := UInt32.ofNat (leValue ((buffer.drop (4 * t)).take 4))

def item {n : Nat} (items : Vector UInt32 n) (place : Fin n) : UInt32 := items[place]

/-- The invariant of the unrolled rounds: the variables are those of the standard after `t` rounds,
in other places, and the block has the words of the last sixteen rounds. -/
structure Simulates (buffer : Bytes) (t : Nat) (w : SecureHash.Words) (s : Sha1Working) : Prop where
  a : item s.vars (varAt t 0) = w.a
  b : item s.vars (varAt t 1) = w.b
  c : item s.vars (varAt t 2) = w.c
  d : item s.vars (varAt t 3) = w.d
  e : item s.vars (varAt t 4) = w.e
  used : ∀ u, u < t → t ≤ u + 16 → item s.block (wordPlace u) = SecureHash.schedule buffer u
  fresh : ∀ u, t ≤ u → u < 16 → item s.block (wordPlace u) = loadedWord buffer u

theorem four_bytes {count : Nat} (long : 64 ≤ buffer.length) (inside : count < 16) :
    ∃ b0 b1 b2 b3, (buffer.drop (4 * count)).take 4 = [b0, b1, b2, b3] := by
  have four : ((buffer.drop (4 * count)).take 4).length = 4 := by
    rw [List.length_take, List.length_drop]
    omega
  match (buffer.drop (4 * count)).take 4, four with
  | [b0, b1, b2, b3], _ => exact ⟨b0, b1, b2, b3, rfl⟩

theorem word_swapped (block : Vector UInt32 16) (i : Nat) : Sha1Macro.r0.word block i =
    (rol (item block (wordPlace i)) 24 &&& 0xFF00FF00 ||| rol (item block (wordPlace i)) 8 &&& 0x00FF00FF,
      block.set (wordPlace i)
        (rol (item block (wordPlace i)) 24 &&& 0xFF00FF00 ||| rol (item block (wordPlace i)) 8 &&& 0x00FF00FF)
        (wordPlace i).isLt) := rfl

theorem blk_eq (block : Vector UInt32 16) (i : Nat) : blk block i =
    (rol (item block (wordPlace (i + 13)) ^^^ item block (wordPlace (i + 8)) ^^^ item block (wordPlace (i + 2)) ^^^ item
      block (wordPlace i)) 1,
      block.set (wordPlace i)
        (rol (item block (wordPlace (i + 13)) ^^^ item block (wordPlace (i + 8)) ^^^ item block (wordPlace (i + 2)) ^^^
        item block (wordPlace i)) 1) (wordPlace i).isLt) := rfl

/-- The word of a round, which takes the place of the one sixteen rounds before. -/
theorem word_spec (long : 64 ≤ buffer.length) {w : SecureHash.Words} (simulates : Simulates buffer t w s) :
    (macroOf t).word s.block t = (SecureHash.schedule buffer t, s.block.set (wordPlace t)
      (SecureHash.schedule buffer t)) := by
  by_cases first : t < 16
  · have kind : macroOf t = .r0 := if_pos first
    have own : SecureHash.schedule buffer t = UInt32.ofNat (beValue ((buffer.drop (4 * t)).take 4)) := by
      rw [SecureHash.schedule, if_pos first, SecureHash.messageWord]
    obtain ⟨b0, b1, b2, b3, bytes⟩ := four_bytes long first
    rw [kind, word_swapped, simulates.fresh t (Nat.le_refl t) first, own, loadedWord, bytes, swap_word]
  · have expanded : (macroOf t).word s.block t = blk s.block t := by
      rw [macroOf, if_neg first]
      repeat' split
      all_goals rfl
    have before (back : Nat) (positive : 0 < back) (few : back ≤ 16) {i : Nat}
      (same : wordPlace i = wordPlace (t - back)) :
        item s.block (wordPlace i) = SecureHash.schedule buffer (t - back) :=
      (congrArg (item s.block) same).trans (simulates.used (t - back) (by omega) (by omega))
    have place {i back : Nat} (same : i % 16 = (t - back) % 16) : wordPlace i = wordPlace (t - back) := Fin.ext same
    rw [expanded, blk_eq, before 3 (by decide) (by decide) (place (by omega)), before 8 (by decide) (by decide)
      (place (by omega)),
      before 14 (by decide) (by decide) (place (by omega)), before 16 (by decide) (by decide) (place (by omega))]
    have own : SecureHash.schedule buffer t =
      rol (SecureHash.schedule buffer (t - 3) ^^^ SecureHash.schedule buffer (t - 8) ^^^
        SecureHash.schedule buffer (t - 14) ^^^ SecureHash.schedule buffer (t - 16)) 1 := by
      rw [SecureHash.schedule, if_neg first]
      rfl
    rw [← own]

theorem set_same {n : Nat} (items : Vector UInt32 n) (place : Fin n) (word : UInt32) :
    item (items.set place word) place = word :=
  Vector.getElem_set_self ..

theorem set_other {n : Nat} (items : Vector UInt32 n) {place other : Fin n} (apart : place ≠ other) (word : UInt32) :
    item (items.set place word) other = item items other :=
  Vector.getElem_set_ne _ _ fun same => apart (Fin.ext same)

/-- What a call does to the variables and the block. -/
theorem run_spec (long : 64 ≤ buffer.length) {w : SecureHash.Words} (simulates : Simulates buffer t w s) :
    (callOf t).run s =
    ⟨(s.vars.set (varAt t 4) (SecureHash.round buffer t w).a).set (varAt t 1) (rol w.b 30),
      s.block.set (wordPlace t) (SecureHash.schedule buffer t)⟩ := by
  have sum : item s.vars (varAt t 4) + ((macroOf t).mix (item s.vars (varAt t 1)) (item s.vars (varAt t 2))
    (item s.vars (varAt t 3)) + SecureHash.schedule buffer t +
      (macroOf t).constant + rol (item s.vars (varAt t 0)) 5) = (SecureHash.round buffer t w).a := by
    rw [simulates.a, simulates.b, simulates.c, simulates.d, simulates.e, mix_macroOf, constant_macroOf]
    change _ = rol w.a 5 + SecureHash.mix t w.b w.c w.d + w.e + SecureHash.constant t + SecureHash.schedule buffer t
    ac_rfl
  have kept : item (s.vars.set (varAt t 4) (SecureHash.round buffer t w).a) (varAt t 1) = w.b := by
    rw [set_other _ (varAt_ne (by decide) (by decide) (by decide))]
    exact simulates.b
  have call : (callOf t).run s =
      let next := (macroOf t).word s.block t
      let z := item s.vars (varAt t 4) + ((macroOf t).mix (item s.vars (varAt t 1)) (item s.vars (varAt t 2))
        (item s.vars (varAt t 3)) +
        next.1 + (macroOf t).constant + rol (item s.vars (varAt t 0)) 5)
      ⟨(s.vars.set (varAt t 4) z).set (varAt t 1) (rol (item (s.vars.set (varAt t 4) z) (varAt t 1)) 30), next.2⟩ :=
        rfl
  rw [call, word_spec long simulates]
  simp only [sum, kept]

theorem Simulates.step (long : 64 ≤ buffer.length) {w : SecureHash.Words} (simulates : Simulates buffer t w s) :
    Simulates buffer (t + 1) (SecureHash.round buffer t w) ((callOf t).run s) := by
  rw [run_spec long simulates]
  have apart {first second : Nat} (one : first < 5) (two : second < 5) (differ : first ≠ second) :
    varAt t first ≠ varAt t second :=
    varAt_ne one two differ
  refine ⟨?_, ?_, ?_, ?_, ?_, ?_, ?_⟩
  · rw [varAt_first, set_other _ (apart (by decide) (by decide) (by decide)), set_same]
  · rw [varAt_succ, set_other _ (apart (by decide) (by decide) (by decide)),
      set_other _ (apart (by decide) (by decide) (by decide))]
    exact simulates.a
  · rw [varAt_succ, set_same]
    rfl
  · rw [varAt_succ, set_other _ (apart (by decide) (by decide) (by decide)),
      set_other _ (apart (by decide) (by decide) (by decide))]
    exact simulates.c
  · rw [varAt_succ, set_other _ (apart (by decide) (by decide) (by decide)),
      set_other _ (apart (by decide) (by decide) (by decide))]
    exact simulates.d
  · intro u before near
    by_cases last : u = t
    · subst last
      exact set_same ..
    · rw [set_other]
      · exact simulates.used u (by omega) (by omega)
      · intro same
        have values := congrArg Fin.val same
        simp only [wordPlace, Fin.ofNat] at values
        omega
  · intro u after inside
    rw [set_other]
    · exact simulates.fresh u (by omega) inside
    · intro same
      have values := congrArg Fin.val same
      simp only [wordPlace, Fin.ofNat] at values
      omega

theorem Simulates.rounds (long : 64 ≤ buffer.length) (simulates : Simulates buffer 0 h s) (count : Nat) :
    Simulates buffer count (SecureHash.rounds buffer h count)
      (((List.range count).map callOf).foldl Sha1Call.run s) := by
  induction count with
  | zero => exact simulates
  | succ count ih =>
    rw [List.range_succ, List.map_append, List.foldl_append]
    exact ih.step long

end Simulation
section Transform

def wordsOf (state : Vector UInt32 5) : SecureHash.Words := ⟨state[0], state[1], state[2], state[3], state[4]⟩

/-- The unrolled transformation is the one of the standard. -/
theorem sha1Transform_eq {buffer : Bytes} (long : 64 ≤ buffer.length) (state : Vector UInt32 5) :
    wordsOf (sha1Transform state buffer) = SecureHash.compress (wordsOf state) buffer := by
  let start : Sha1Working := ⟨state, Vector.ofFn fun i : Fin 16 =>
    UInt32.ofNat (leValue ((buffer.drop (4 * i)).take 4))⟩
  have begins : Simulates buffer 0 (wordsOf state) start := by
    refine ⟨rfl, rfl, rfl, rfl, rfl, fun u none => absurd none (Nat.not_lt_zero u), fun u _ inside => ?_⟩
    have place : (wordPlace u).val = u := Nat.mod_eq_of_lt inside
    have loaded : item start.block (wordPlace u) = loadedWord buffer (wordPlace u) := Vector.getElem_ofFn ..
    rw [loaded, place]
  have last := begins.rounds long 80
  rw [← sha1Calls_eq] at last
  have shape : sha1Transform state buffer = Vector.zipWith (· + ·) state (sha1Calls.foldl Sha1Call.run start).vars :=
    rfl
  have sums (place : Fin 5) : item (sha1Transform state buffer) place = item state place +
      item (sha1Calls.foldl Sha1Call.run start).vars place := by
    rw [shape]
    exact Vector.getElem_zipWith ..
  generalize sha1Calls.foldl Sha1Call.run start = final at last sums
  generalize ended : SecureHash.rounds buffer (wordsOf state) 80 = w at last
  rw [SecureHash.compress, ended, wordsOf, SecureHash.Words.mk.injEq]
  exact ⟨(sums 0).trans (congrArg (item state 0 + ·) last.a), (sums 1).trans (congrArg (item state 1 + ·) last.b),
    (sums 2).trans (congrArg (item state 2 + ·) last.c), (sums 3).trans (congrArg (item state 3 + ·) last.d),
    (sums 4).trans (congrArg (item state 4 + ·) last.e)⟩

end Transform
end Bxxt.Proofs
