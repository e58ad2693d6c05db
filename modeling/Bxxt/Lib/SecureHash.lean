import Bxxt.Lib.BlobBytes
import Bxxt.Lib.BlockStream

/-! SHA-1 as the standard defines it: a message is filled up to whole blocks, its length behind it, and each block
goes into five words in eighty rounds. -/

namespace SecureHash
open ByteLayout BlobBytes BlockStream

section Functions

def rotl (value bits : UInt32) : UInt32 := value <<< bits ||| value >>> (32 - bits)

def choose (x y z : UInt32) : UInt32 := (x &&& y) ^^^ (~~~x &&& z)
def parity (x y z : UInt32) : UInt32 := x ^^^ y ^^^ z
def majority (x y z : UInt32) : UInt32 := (x &&& y) ^^^ (x &&& z) ^^^ (y &&& z)

def mix (t : Nat) : UInt32 → UInt32 → UInt32 → UInt32 :=
  if t < 20 then choose else if t < 40 then parity else if t < 60 then majority else parity

def constant (t : Nat) : UInt32 :=
  if t < 20 then 0x5A827999 else if t < 40 then 0x6ED9EBA1 else if t < 60 then 0x8F1BBCDC else 0xCA62C1D6

/-- A word of a block, most significant byte first. -/
def messageWord (block : Bytes) (t : Nat) : UInt32 := UInt32.ofNat (beValue ((block.drop (4 * t)).take 4))

def schedule (block : Bytes) (t : Nat) : UInt32 :=
  if t < 16 then messageWord block t
  else rotl (schedule block (t - 3) ^^^ schedule block (t - 8) ^^^ schedule block (t - 14) ^^^
    schedule block (t - 16)) 1
termination_by t

end Functions
section Compression

structure Words where
  a : UInt32
  b : UInt32
  c : UInt32
  d : UInt32
  e : UInt32

def round (block : Bytes) (t : Nat) (s : Words) : Words :=
  ⟨rotl s.a 5 + mix t s.b s.c s.d + s.e + constant t + schedule block t, s.a, rotl s.b 30, s.c, s.d⟩

def rounds (block : Bytes) (h : Words) : Nat → Words
  | 0 => h
  | t + 1 => round block t (rounds block h t)

def compress (h : Words) (block : Bytes) : Words :=
  let s := rounds block h 80
  ⟨h.a + s.a, h.b + s.b, h.c + s.c, h.d + s.d, h.e + s.e⟩

def initial : Words := ⟨0x67452301, 0xEFCDAB89, 0x98BADCFE, 0x10325476, 0xC3D2E1F0⟩

end Compression
section Digest

/-- So many zeros that the length fills the last block. -/
def zeroCount (length : Nat) : Nat := (119 - length % 64) % 64

/-- The length is in bits, modulo 2 ^ 64. -/
def padded (message : Bytes) : Bytes :=
  message ++ ([0x80] ++ List.replicate (zeroCount message.length) 0 ++ beBytes 8 (8 * message.length))

def wordBytes (word : UInt32) : Bytes := beBytes 4 word.toNat

def Words.bytes (h : Words) : Bytes := wordBytes h.a ++ wordBytes h.b ++ wordBytes h.c ++ wordBytes h.d ++ wordBytes h.e

def sha1 (message : Bytes) : Bytes := (absorb compress 64 initial (padded message)).bytes

theorem length_sha1 (message : Bytes) : (sha1 message).length = 20 := by
  simp only [sha1, Words.bytes, wordBytes, List.length_append, length_beBytes]

theorem leBytes_add (first second value : Nat) :
    leBytes (first + second) value = leBytes first value ++ leBytes second (value / 256 ^ first) := by
  induction first generalizing value with
  | zero => rw [Nat.zero_add, Nat.pow_zero, Nat.div_one, leBytes, List.nil_append]
  | succ first ih => rw [Nat.succ_add, leBytes, leBytes, ih, List.cons_append, Nat.div_div_eq_div_mul,
      Nat.pow_succ, Nat.mul_comm 256]

theorem leBytes_mod (width value : Nat) : leBytes width (value % 256 ^ width) = leBytes width value := by
  induction width generalizing value with
  | zero => rfl
  | succ width ih =>
    have low : UInt8.ofNat (value % 256 ^ (width + 1)) = UInt8.ofNat value := by
      apply UInt8.toNat_inj.mp
      rw [UInt8.toNat_ofNat', UInt8.toNat_ofNat', Nat.pow_succ]
      exact Nat.mod_mod_of_dvd _ (Nat.dvd_mul_left ..)
    have high : value % 256 ^ (width + 1) / 256 = value / 256 % 256 ^ width := by
      rw [Nat.pow_succ, Nat.mul_comm, Nat.mod_mul_right_div_self]
    rw [leBytes, leBytes, low, high, ih]

theorem beBytes_halves {high low value : Nat} (small : low < 2 ^ 32) (same : low + 2 ^ 32 * high = value % 2 ^ 64) :
    beBytes 8 value = beBytes 4 high ++ beBytes 4 low := by
  have whole : leBytes 8 value = leBytes 8 (low + 2 ^ 32 * high) := by
    rw [same]
    exact (leBytes_mod 8 value).symm
  have top : (low + 2 ^ 32 * high) / 256 ^ 4 = high := by omega
  have bottom : leBytes 4 (low + 2 ^ 32 * high) = leBytes 4 low := by
    have same : (low + 2 ^ 32 * high) % 256 ^ 4 = low := by omega
    rw [← leBytes_mod, same]
  rw [beBytes, whole, leBytes_add 4 4, top, bottom, List.reverse_append, beBytes, beBytes]

end Digest
end SecureHash
