import Bxxt.BootImage
import Bxxt.Lib.FieldStore

/-! SHA-1 (`sha1.c`), on a little-endian machine, and the signature of an image that is made with it. -/

namespace Bxxt
open ByteLayout

section Transform

def rol (value bits : UInt32) : UInt32 := value <<< bits ||| value >>> (32 - bits)

/-- The place of a word in its block, `i & 15`. -/
def wordPlace (i : Nat) : Fin 16 := Fin.ofNat 16 i

def blk0 (block : Vector UInt32 16) (i : Nat) : UInt32 × Vector UInt32 16 :=
  let word := rol block[wordPlace i] 24 &&& 0xFF00FF00 ||| rol block[wordPlace i] 8 &&& 0x00FF00FF
  (word, block.set (wordPlace i) word)

def blk (block : Vector UInt32 16) (i : Nat) : UInt32 × Vector UInt32 16 :=
  let word := rol (block[wordPlace (i + 13)] ^^^ block[wordPlace (i + 8)] ^^^
    block[wordPlace (i + 2)] ^^^ block[wordPlace i]) 1
  (word, block.set (wordPlace i) word)

/-- The macros `R0` to `R4`. -/
inductive Sha1Macro where
  | r0
  | r1
  | r2
  | r3
  | r4
  deriving DecidableEq

def Sha1Macro.mix : Sha1Macro → UInt32 → UInt32 → UInt32 → UInt32
  | r0, w, x, y | r1, w, x, y => (w &&& (x ^^^ y)) ^^^ y
  | r2, w, x, y | r4, w, x, y => w ^^^ x ^^^ y
  | r3, w, x, y => ((w ||| x) &&& y) ||| (w &&& x)

def Sha1Macro.constant : Sha1Macro → UInt32
  | r0 | r1 => 0x5A827999
  | r2 => 0x6ED9EBA1
  | r3 => 0x8F1BBCDC
  | r4 => 0xCA62C1D6

def Sha1Macro.word (block : Vector UInt32 16) (i : Nat) : Sha1Macro → UInt32 × Vector UInt32 16
  | r0 => blk0 block i
  | r1 | r2 | r3 | r4 => blk block i

structure Sha1Call where
  name : Sha1Macro
  v : Fin 5
  w : Fin 5
  x : Fin 5
  y : Fin 5
  z : Fin 5
  i : Nat
  deriving DecidableEq

structure Sha1Working where
  vars : Vector UInt32 5
  block : Vector UInt32 16

def Sha1Call.run (s : Sha1Working) (c : Sha1Call) : Sha1Working :=
  let (word, block) := c.name.word s.block c.i
  let z := s.vars[c.z] + (c.name.mix s.vars[c.w] s.vars[c.x] s.vars[c.y] + word + c.name.constant + rol s.vars[c.v] 5)
  let vars := s.vars.set c.z z
  ⟨vars.set c.w (rol vars[c.w] 30), block⟩

/-- The unrolled loop. -/
def sha1Calls : List Sha1Call :=
  let a : Fin 5 := 0
  let b : Fin 5 := 1
  let c : Fin 5 := 2
  let d : Fin 5 := 3
  let e : Fin 5 := 4
  [⟨.r0, a, b, c, d, e, 0⟩, ⟨.r0, e, a, b, c, d, 1⟩, ⟨.r0, d, e, a, b, c, 2⟩, ⟨.r0, c, d, e, a, b, 3⟩,
    ⟨.r0, b, c, d, e, a, 4⟩, ⟨.r0, a, b, c, d, e, 5⟩, ⟨.r0, e, a, b, c, d, 6⟩, ⟨.r0, d, e, a, b, c, 7⟩,
    ⟨.r0, c, d, e, a, b, 8⟩, ⟨.r0, b, c, d, e, a, 9⟩, ⟨.r0, a, b, c, d, e, 10⟩, ⟨.r0, e, a, b, c, d, 11⟩,
    ⟨.r0, d, e, a, b, c, 12⟩, ⟨.r0, c, d, e, a, b, 13⟩, ⟨.r0, b, c, d, e, a, 14⟩, ⟨.r0, a, b, c, d, e, 15⟩,
    ⟨.r1, e, a, b, c, d, 16⟩, ⟨.r1, d, e, a, b, c, 17⟩, ⟨.r1, c, d, e, a, b, 18⟩, ⟨.r1, b, c, d, e, a, 19⟩,
    ⟨.r2, a, b, c, d, e, 20⟩, ⟨.r2, e, a, b, c, d, 21⟩, ⟨.r2, d, e, a, b, c, 22⟩, ⟨.r2, c, d, e, a, b, 23⟩,
    ⟨.r2, b, c, d, e, a, 24⟩, ⟨.r2, a, b, c, d, e, 25⟩, ⟨.r2, e, a, b, c, d, 26⟩, ⟨.r2, d, e, a, b, c, 27⟩,
    ⟨.r2, c, d, e, a, b, 28⟩, ⟨.r2, b, c, d, e, a, 29⟩, ⟨.r2, a, b, c, d, e, 30⟩, ⟨.r2, e, a, b, c, d, 31⟩,
    ⟨.r2, d, e, a, b, c, 32⟩, ⟨.r2, c, d, e, a, b, 33⟩, ⟨.r2, b, c, d, e, a, 34⟩, ⟨.r2, a, b, c, d, e, 35⟩,
    ⟨.r2, e, a, b, c, d, 36⟩, ⟨.r2, d, e, a, b, c, 37⟩, ⟨.r2, c, d, e, a, b, 38⟩, ⟨.r2, b, c, d, e, a, 39⟩,
    ⟨.r3, a, b, c, d, e, 40⟩, ⟨.r3, e, a, b, c, d, 41⟩, ⟨.r3, d, e, a, b, c, 42⟩, ⟨.r3, c, d, e, a, b, 43⟩,
    ⟨.r3, b, c, d, e, a, 44⟩, ⟨.r3, a, b, c, d, e, 45⟩, ⟨.r3, e, a, b, c, d, 46⟩, ⟨.r3, d, e, a, b, c, 47⟩,
    ⟨.r3, c, d, e, a, b, 48⟩, ⟨.r3, b, c, d, e, a, 49⟩, ⟨.r3, a, b, c, d, e, 50⟩, ⟨.r3, e, a, b, c, d, 51⟩,
    ⟨.r3, d, e, a, b, c, 52⟩, ⟨.r3, c, d, e, a, b, 53⟩, ⟨.r3, b, c, d, e, a, 54⟩, ⟨.r3, a, b, c, d, e, 55⟩,
    ⟨.r3, e, a, b, c, d, 56⟩, ⟨.r3, d, e, a, b, c, 57⟩, ⟨.r3, c, d, e, a, b, 58⟩, ⟨.r3, b, c, d, e, a, 59⟩,
    ⟨.r4, a, b, c, d, e, 60⟩, ⟨.r4, e, a, b, c, d, 61⟩, ⟨.r4, d, e, a, b, c, 62⟩, ⟨.r4, c, d, e, a, b, 63⟩,
    ⟨.r4, b, c, d, e, a, 64⟩, ⟨.r4, a, b, c, d, e, 65⟩, ⟨.r4, e, a, b, c, d, 66⟩, ⟨.r4, d, e, a, b, c, 67⟩,
    ⟨.r4, c, d, e, a, b, 68⟩, ⟨.r4, b, c, d, e, a, 69⟩, ⟨.r4, a, b, c, d, e, 70⟩, ⟨.r4, e, a, b, c, d, 71⟩,
    ⟨.r4, d, e, a, b, c, 72⟩, ⟨.r4, c, d, e, a, b, 73⟩, ⟨.r4, b, c, d, e, a, 74⟩, ⟨.r4, a, b, c, d, e, 75⟩,
    ⟨.r4, e, a, b, c, d, 76⟩, ⟨.r4, d, e, a, b, c, 77⟩, ⟨.r4, c, d, e, a, b, 78⟩, ⟨.r4, b, c, d, e, a, 79⟩]

/-- `SHA1Transform`, of the 64 bytes of a buffer. -/
def sha1Transform (state : Vector UInt32 5) (buffer : Bytes) : Vector UInt32 5 :=
  let block := Vector.ofFn fun i : Fin 16 => UInt32.ofNat (leValue ((buffer.drop (4 * i)).take 4))
  let last := sha1Calls.foldl Sha1Call.run ⟨state, block⟩
  Vector.zipWith (· + ·) state last.vars

end Transform
section Context

structure Sha1Ctx where
  state : Vector UInt32 5
  count0 : UInt32
  count1 : UInt32
  buffer : Vector UInt8 64

/-- `SHA1Init`. The buffer stays as it was. -/
def sha1Init (context : Sha1Ctx) : Sha1Ctx :=
  { context with state := #v[0x67452301, 0xEFCDAB89, 0x98BADCFE, 0x10325476, 0xC3D2E1F0], count0 := 0, count1 := 0 }

def readData (data : Bytes) (i count : Nat) : Exec Bytes :=
  if i + count ≤ data.length then .ok ((data.drop i).take count) else .error .outOfBounds

def memcpyBuffer (buffer : Vector UInt8 64) (j : Nat) (data : Bytes) : Exec (Vector UInt8 64) :=
  if room : j + data.length ≤ 64 then
    .ok ⟨(splice buffer.toList j data).toArray,
      by rw [List.size_toArray, length_splice (by simpa using room), Vector.length_toList]⟩
  else .error .outOfBounds

/-- The loop over the blocks that are not copied, which ends when no block is left or runs out of the data. -/
def sha1Blocks (data : Bytes) (len : UInt32) : Nat → Vector UInt32 5 → UInt32 → Exec (Vector UInt32 5 × UInt32)
  | 0, state, i => .ok (state, i)
  | fuel + 1, state, i =>
    if i + 63 < len then do
      let block ← readData data i.toNat 64
      sha1Blocks data len fuel (sha1Transform state block) (i + 64)
    else .ok (state, i)

def countBits (context : Sha1Ctx) (len : UInt32) : Sha1Ctx :=
  let count0 := context.count0 + len <<< 3
  { context with
    count0 := count0
    count1 := (if count0 < context.count0 then context.count1 + 1 else context.count1) + len >>> 29 }

def sha1Update (context : Sha1Ctx) (data : Bytes) (len : UInt32) : Exec Sha1Ctx := do
  let j := context.count0 >>> 3 &&& 63
  let counted := countBits context len
  if 63 < j + len then
    let i := 64 - j
    let buffer ← memcpyBuffer context.buffer j.toNat (← readData data 0 i.toNat)
    let (state, i) ← sha1Blocks data len (data.length + 1) (sha1Transform context.state buffer.toList) i
    let buffer ← memcpyBuffer buffer 0 (← readData data i.toNat (len - i).toNat)
    return { counted with state := state, buffer := buffer }
  else
    let buffer ← memcpyBuffer context.buffer j.toNat (← readData data 0 len.toNat)
    return { counted with buffer := buffer }

/-- The loop of `SHA1Final`: a zero at a time, until there is room for the count only. -/
def sha1Zeros : Nat → Sha1Ctx → Exec Sha1Ctx
  | 0, context => .ok context
  | fuel + 1, context =>
    if context.count0 &&& 504 ≠ 448 then do sha1Zeros fuel (← sha1Update context [0] 1) else .ok context

def byteOf (word : UInt32) (i : Nat) : UInt8 := (word >>> UInt32.ofNat ((3 - i % 4) * 8) &&& 255).toUInt8

def sha1Final (context : Sha1Ctx) : Exec (Vector UInt8 20) := do
  let finalcount := (List.range 8).map fun i => byteOf (if 4 ≤ i then context.count0 else context.count1) i
  let context ← sha1Update context [0x80] 1
  let context ← sha1Zeros 64 context
  let context ← sha1Update context finalcount 8
  return Vector.ofFn fun i : Fin 20 => byteOf (context.state.get ⟨i / 4, by omega⟩) i

/-- The digest of data that comes in these pieces. -/
def sha1Pieces (context : Sha1Ctx) (pieces : List Bytes) : Exec (Vector UInt8 20) := do
  let context ← pieces.foldlM
    (fun context data => sha1Update context data (UInt32.ofNat data.length)) (sha1Init context)
  sha1Final context

/-- The loop of `SHA1`: a byte at a time, up to the length. -/
def sha1Bytes (str : Bytes) (len : UInt32) : Nat → Sha1Ctx → UInt32 → Exec Sha1Ctx
  | 0, context, _ => .ok context
  | fuel + 1, context, ii =>
    if ii < len then do
      let context ← sha1Update context (← readData str ii.toNat 1) 1
      sha1Bytes str len fuel context (ii + 1)
    else .ok context

/-- `SHA1`, with a context that nobody has set. The length is an `int` that the loop compares as an
unsigned one. The result has a NUL behind it. -/
def sha1 (context : Sha1Ctx) (str : Bytes) (len : UInt32) : Exec Bytes := do
  let digest ← sha1Final (← sha1Bytes str len (len.toNat + 1) (sha1Init context) 0)
  return digest.toList ++ [0]

end Context
section Signature

def updateOptional (context : Sha1Ctx) (b : Boot) (addr : Nat) (size : UInt32) : Exec Sha1Ctx :=
  if size > 0 then do sha1Update context (← b.read addr size.toNat) size else .ok context

def updateSize (context : Sha1Ctx) (size : UInt32) : Exec Sha1Ctx := sha1Update context (leBytes 4 size.toNat) 4

def updateSince (context : Sha1Ctx) (b : Boot) (version : UInt32) (addr : Nat) (size : UInt32) : Exec Sha1Ctx :=
  if b.version > version then do updateSize (← updateOptional context b addr size) size else .ok context

/-- `bxxt_boot_img_signature`, with the context that it feeds. -/
def bxxtBootImgSignatureFed (context : Sha1Ctx) (b : Boot) : Exec (Vector UInt8 32) := do
  let context ← sha1Update (sha1Init context) (← b.read b.mmKernelPtr b.kernelSize.toNat) b.kernelSize
  let context ← updateSize context b.kernelSize
  let context ← sha1Update context (← b.read b.mmRamdiskPtr b.ramdiskSize.toNat) b.ramdiskSize
  let context ← updateSize context b.ramdiskSize
  let context ← updateOptional context b b.mmSecondPtr b.secondSize
  let context ← updateSize context b.secondSize
  let context ← updateSince context b 0 b.mmRecoveryDtboPtr b.recoveryDtboSize
  let context ← updateSince context b 1 b.mmDtbPtr b.dtbSize
  return signatureBytes (← sha1Final context)

end Signature
end Bxxt
