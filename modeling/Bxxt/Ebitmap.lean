import Mathlib

/-! The extensible bitmaps of libsepol (`ebitmap.c`): a chain of 64-bit maps in the order
of their first bits. A map without a bit is not kept, and `highbit` is the end of the
last map. -/

namespace Bxxt

def mapsize : Nat := 64

def einval : Int := -22

structure EbitmapNode where
  startbit : Nat
  map : BitVec 64
  deriving DecidableEq, Repr

structure Ebitmap where
  node : List EbitmapNode
  highbit : Nat
  deriving DecidableEq, Repr

/-- `ebitmap_init`, and what `ebitmap_destroy` leaves. -/
def Ebitmap.empty : Ebitmap := ⟨[], 0⟩

def mapbit (shift : Nat) : BitVec 64 := 1#64 <<< shift

def getBitLoop (bit : Nat) : List EbitmapNode → Bool
  | [] => false
  | n :: next =>
    if n.startbit ≤ bit then
      if bit < n.startbit + mapsize then (n.map &&& mapbit (bit - n.startbit)) != 0#64 else getBitLoop bit next
    else false

def ebitmapGetBit (e : Ebitmap) (bit : UInt32) : Bool :=
  if e.highbit < bit.toNat then false else getBitLoop bit.toNat e.node

/-- The walk of `ebitmap_set_bit` from a node on: the nodes, and the high bit. -/
def setBitLoop (bit : Nat) (value : Bool) (highbit : Nat) : List EbitmapNode → Option EbitmapNode →
    List EbitmapNode × Nat
  | [], _ =>
    if value then
      let startbit := bit / mapsize * mapsize
      ([⟨startbit, mapbit (bit - startbit)⟩], (startbit + mapsize) % 2 ^ 32)
    else ([], highbit)
  | n :: next, prev =>
    if n.startbit ≤ bit then
      if bit < n.startbit + mapsize then
        if value then ({ n with map := n.map ||| mapbit (bit - n.startbit) } :: next, highbit)
        else
          let map := n.map &&& ~~~mapbit (bit - n.startbit)
          if map = 0#64 then
            -- the node is dropped, and was the highest one if none is behind it
            (next, if next.isEmpty then prev.elim 0 fun prev => (prev.startbit + mapsize) % 2 ^ 32 else highbit)
          else ({ n with map } :: next, highbit)
      else
        let (rest, highbit) := setBitLoop bit value highbit next (some n)
        (n :: rest, highbit)
    else if value then
      let startbit := bit / mapsize * mapsize
      (⟨startbit, mapbit (bit - startbit)⟩ :: n :: next, highbit)
    else (n :: next, highbit)

def ebitmapSetBit (e : Ebitmap) (bit : UInt32) (value : Bool) : Int × Ebitmap :=
  if (bit.toNat / mapsize * mapsize + mapsize) % 2 ^ 32 = 0 then (einval, e)
  else
    let (node, highbit) := setBitLoop bit.toNat value e.highbit e.node none
    (0, ⟨node, highbit⟩)

/-- The bits that `ebitmap_for_each_positive_bit` visits, in its order. -/
def ebitmapPositiveBits (e : Ebitmap) : List Nat :=
  let bits := e.node.flatMap fun n => (List.range mapsize).map fun shift => (n.startbit + shift, n.map &&& mapbit shift)
  ((bits.takeWhile fun bit => bit.1 < e.highbit).filter fun bit => bit.2 != 0#64).map Prod.fst

def orLoop : List EbitmapNode → List EbitmapNode → List EbitmapNode
  | [], n2 => n2
  | n1 :: next1, [] => n1 :: next1
  | n1 :: next1, n2 :: next2 =>
    if n1.startbit = n2.startbit then ⟨n1.startbit, n1.map ||| n2.map⟩ :: orLoop next1 next2
    else if n1.startbit < n2.startbit then n1 :: orLoop next1 (n2 :: next2)
    else n2 :: orLoop (n1 :: next1) next2
termination_by n1 n2 => n1.length + n2.length

def ebitmapUnion (dst e1 : Ebitmap) : Ebitmap := ⟨orLoop dst.node e1.node, max dst.highbit e1.highbit⟩

/-- What `ebitmap_read` makes of the words of a bitmap: its high bit, and the first bit and
the map of every node. -/
structure EbitmapRecord where
  highbit : UInt32
  nodes : List (UInt32 × BitVec 64)
  deriving DecidableEq, Repr

def readNodes (highbit : Nat) : Option Nat → List (UInt32 × BitVec 64) → Option (List EbitmapNode)
  | last, [] => if last.all (· + mapsize == highbit) then some [] else none
  | last, (startbit, map) :: rest =>
    if startbit.toNat % mapsize ≠ 0 then none
    else if highbit - mapsize < startbit.toNat then none
    else if map = 0#64 then none
    else if last.any (startbit.toNat ≤ ·) then none
    else (readNodes highbit (some startbit.toNat) rest).map (⟨startbit.toNat, map⟩ :: ·)

def ebitmapRead (record : EbitmapRecord) : Option Ebitmap :=
  if record.highbit = 0 then some .empty
  else if record.highbit.toNat % mapsize ≠ 0 then none
  else if record.nodes = [] then none
  else (readNodes record.highbit.toNat none record.nodes).map fun node => ⟨node, record.highbit.toNat⟩

def ebitmapWrite (e : Ebitmap) : EbitmapRecord :=
  ⟨UInt32.ofNat e.highbit, e.node.map fun n => (UInt32.ofNat n.startbit, n.map)⟩

def EbitmapNode.Holds (n : EbitmapNode) (bit : Nat) : Prop :=
  n.startbit ≤ bit ∧ bit < n.startbit + mapsize ∧ n.map.getLsbD (bit - n.startbit) = true

/-- The set of bits that a chain of maps stands for. The specifications of the bitmaps speak of this
set only and not of the nodes. -/
def HoldsBit (nodes : List EbitmapNode) (bit : Nat) : Prop := ∃ n ∈ nodes, n.Holds bit

def Ebitmap.Holds (e : Ebitmap) (bit : Nat) : Prop := HoldsBit e.node bit

def lastEnd (prev : Option EbitmapNode) : List EbitmapNode → Nat
  | [] => prev.elim 0 fun prev => prev.startbit + mapsize
  | n :: next => lastEnd (some n) next

/-- Maps one behind the other, each on its boundary and with a bit, so that a set has one chain
only. -/
structure ChainFormed (nodes : List EbitmapNode) : Prop where
  apart : nodes.Pairwise fun first second => first.startbit + mapsize ≤ second.startbit
  aligned : ∀ n ∈ nodes, n.startbit % mapsize = 0
  nonzero : ∀ n ∈ nodes, n.map ≠ 0#64
  bounded : ∀ n ∈ nodes, n.startbit + mapsize < 2 ^ 32

structure Ebitmap.WellFormed (e : Ebitmap) : Prop extends ChainFormed e.node where
  high : e.highbit = lastEnd none e.node

section Bits

@[simp] theorem getLsbD_mapbit (shift other : Nat) (inside : other < 64) :
    (mapbit shift).getLsbD other = decide (other = shift) := by
  rw [mapbit, BitVec.getLsbD_shiftLeft, BitVec.getLsbD_one]
  rcases Nat.lt_trichotomy other shift with less | same | more
  · have apart : other ≠ shift := by omega
    simp [less, inside, apart]
  · simp [same]
    omega
  · have apart : other - shift ≠ 0 := by omega
    have other_ne : other ≠ shift := by omega
    simp [inside, other_ne, apart]

theorem and_mapbit (map : BitVec 64) {shift : Nat} (inside : shift < 64) :
    (map &&& mapbit shift != 0#64) = map.getLsbD shift := by
  cases holds : map.getLsbD shift with
  | true =>
    rw [bne_iff_ne]
    intro zero
    have bit : (map &&& mapbit shift).getLsbD shift = false := by rw [zero, BitVec.getLsbD_zero]
    rw [BitVec.getLsbD_and, holds, getLsbD_mapbit shift shift inside] at bit
    simp at bit
  | false =>
    rw [bne_eq_false_iff_eq]
    apply BitVec.eq_of_getLsbD_eq
    intro other below
    rw [BitVec.getLsbD_and, getLsbD_mapbit shift other below, BitVec.getLsbD_zero]
    by_cases same : other = shift
    · rw [same, holds, Bool.false_and]
    · simp [same]

theorem mapbit_ne_zero {shift : Nat} (inside : shift < 64) : mapbit shift ≠ 0#64 := by
  intro zero
  have bit := getLsbD_mapbit shift shift inside
  rw [zero, BitVec.getLsbD_zero] at bit
  simp at bit

end Bits

section Chain
variable {n : EbitmapNode} {next nodes : List EbitmapNode} {bit : Nat}

@[simp] theorem holdsBit_nil : ¬ HoldsBit [] bit := by
  simp [HoldsBit]

@[simp] theorem holdsBit_cons : HoldsBit (n :: next) bit ↔ n.Holds bit ∨ HoldsBit next bit := by
  simp [HoldsBit]

theorem ChainFormed.nil : ChainFormed [] :=
  ⟨List.Pairwise.nil, by simp, by simp, by simp⟩

theorem chainFormed_cons : ChainFormed (n :: next) ↔
    (∀ other ∈ next, n.startbit + mapsize ≤ other.startbit) ∧ n.startbit % mapsize = 0 ∧ n.map ≠ 0#64 ∧
      n.startbit + mapsize < 2 ^ 32 ∧ ChainFormed next := by
  constructor
  · rintro ⟨apart, aligned, nonzero, bounded⟩
    simp only [List.pairwise_cons, List.forall_mem_cons] at apart aligned nonzero bounded
    exact ⟨apart.1, aligned.1, nonzero.1, bounded.1, apart.2, aligned.2, nonzero.2, bounded.2⟩
  · rintro ⟨behind, aligned, nonzero, bounded, formed⟩
    exact ⟨List.pairwise_cons.mpr ⟨behind, formed.apart⟩, List.forall_mem_cons.mpr ⟨aligned, formed.aligned⟩,
      List.forall_mem_cons.mpr ⟨nonzero, formed.nonzero⟩, List.forall_mem_cons.mpr ⟨bounded, formed.bounded⟩⟩

theorem not_holdsBit_before (before : ∀ n ∈ nodes, bit < n.startbit) : ¬ HoldsBit nodes bit := by
  rintro ⟨n, member, inside, _⟩
  exact absurd (before n member) (by omega)

/-- Only the node whose range a bit is in can hold it. -/
theorem holdsBit_of_inside (formed : ChainFormed (n :: next)) (low : n.startbit ≤ bit)
    (high : bit < n.startbit + mapsize) :
    HoldsBit (n :: next) bit ↔ n.map.getLsbD (bit - n.startbit) = true := by
  obtain ⟨behind, _⟩ := chainFormed_cons.mp formed
  rw [holdsBit_cons, or_iff_left (not_holdsBit_before fun other member => by have := behind other member; omega)]
  exact ⟨fun holds => holds.2.2, fun set => ⟨low, high, set⟩⟩

theorem getBitLoop_iff (formed : ChainFormed nodes) : getBitLoop bit nodes = true ↔ HoldsBit nodes bit := by
  induction nodes with
  | nil => simp [getBitLoop]
  | cons n next ih =>
    obtain ⟨behind, _, _, _, rest⟩ := chainFormed_cons.mp formed
    rw [getBitLoop]
    by_cases low : n.startbit ≤ bit
    · rw [if_pos low]
      by_cases high : bit < n.startbit + mapsize
      · have inside : bit - n.startbit < 64 := by rw [mapsize] at high; omega
        rw [if_pos high, and_mapbit _ inside, holdsBit_of_inside formed low high]
      · rw [if_neg high, ih rest, holdsBit_cons, or_iff_right (fun holds => high holds.2.1)]
    · rw [if_neg low, holdsBit_cons]
      have none := @not_holdsBit_before next bit fun other member => by
        have := behind other member
        omega
      simp [none, EbitmapNode.Holds, low]

theorem le_lastEnd {prev : Option EbitmapNode} (formed : ChainFormed nodes) (member : n ∈ nodes) :
    n.startbit + mapsize ≤ lastEnd prev nodes := by
  have mono {prev : EbitmapNode} {nodes : List EbitmapNode} (formed : ChainFormed nodes)
      (after : ∀ n ∈ nodes, prev.startbit + mapsize ≤ n.startbit) :
      prev.startbit + mapsize ≤ lastEnd (some prev) nodes := by
    induction nodes generalizing prev with
    | nil => exact le_rfl
    | cons first others ih =>
      obtain ⟨later, _, _, _, rest⟩ := chainFormed_cons.mp formed
      rw [lastEnd]
      have := after first List.mem_cons_self
      exact le_trans (by omega) (ih rest later)
  induction nodes generalizing prev with
  | nil => exact absurd member List.not_mem_nil
  | cons first others ih =>
    obtain ⟨behind, _, _, _, rest⟩ := chainFormed_cons.mp formed
    rw [lastEnd]
    rcases List.mem_cons.mp member with rfl | later
    · exact mono rest behind
    · exact ih rest later

end Chain

section Set
variable {bit : Nat} {value : Bool} {nodes : List EbitmapNode} {prev : Option EbitmapNode}

/-- What the walk leaves behind: the same bits but for the one that was set or cleared, in a chain
that is still formed. -/
structure SetBit (bit : Nat) (value : Bool) (prev : Option EbitmapNode) (nodes : List EbitmapNode)
    (result : List EbitmapNode × Nat) : Prop where
  formed : ChainFormed result.1
  holds : ∀ other, HoldsBit result.1 other ↔ if other = bit then value = true else HoldsBit nodes other
  high : result.2 = lastEnd prev result.1
  starts : ∀ n ∈ result.1, n.startbit = bit / mapsize * mapsize ∨ ∃ old ∈ nodes, n.startbit = old.startbit

theorem newNode_holds (bit other : Nat) :
    (EbitmapNode.mk (bit / mapsize * mapsize) (mapbit (bit - bit / mapsize * mapsize))).Holds other ↔
      other = bit := by
  have split := Nat.div_add_mod' bit mapsize
  have below : bit % mapsize < mapsize := Nat.mod_lt _ (by decide)
  constructor
  · intro ⟨low, high, set⟩
    dsimp only at low high set
    rw [mapsize] at low high set split below
    rw [getLsbD_mapbit _ _ (by omega), decide_eq_true_eq] at set
    omega
  · rintro rfl
    have inside : other - other / mapsize * mapsize < 64 := by rw [mapsize] at split below ⊢; omega
    refine ⟨?_, ?_, ?_⟩
    · dsimp only
      omega
    · dsimp only
      omega
    · dsimp only
      rw [getLsbD_mapbit _ _ inside]
      simp

theorem newNode_formed {bit : Nat} (room : bit / mapsize * mapsize + mapsize < 2 ^ 32)
    (behind : ∀ n ∈ nodes, bit / mapsize * mapsize + mapsize ≤ n.startbit) (formed : ChainFormed nodes) :
    ChainFormed (⟨bit / mapsize * mapsize, mapbit (bit - bit / mapsize * mapsize)⟩ :: nodes) := by
  refine chainFormed_cons.mpr ⟨behind, Nat.mul_mod_left _ _, mapbit_ne_zero ?_, room, formed⟩
  have split := Nat.div_add_mod' bit mapsize
  have below : bit % mapsize < mapsize := Nat.mod_lt _ (by decide)
  rw [mapsize] at split below ⊢
  omega

theorem lastEnd_map (prev : Option EbitmapNode) (n : EbitmapNode) (map : BitVec 64) (next : List EbitmapNode) :
    lastEnd prev (n :: next) = lastEnd prev ({ n with map } :: next) := by
  cases next <;> rfl

theorem holds_or_mapbit {n : EbitmapNode} (low : n.startbit ≤ bit) (high : bit < n.startbit + mapsize) (other : Nat) :
    EbitmapNode.Holds { n with map := n.map ||| mapbit (bit - n.startbit) } other ↔ other = bit ∨
      n.Holds other := by
  simp only [EbitmapNode.Holds, BitVec.getLsbD_or, Bool.or_eq_true]
  by_cases inside : n.startbit ≤ other ∧ other < n.startbit + mapsize
  · have shift : other - n.startbit < 64 := by rw [mapsize] at inside; omega
    rw [getLsbD_mapbit _ _ shift, decide_eq_true_eq]
    have same : other - n.startbit = bit - n.startbit ↔ other = bit := by omega
    rw [same]
    tauto
  · have away : other ≠ bit := by
      rintro rfl
      exact inside ⟨low, high⟩
    tauto

theorem holds_and_not_mapbit {n : EbitmapNode} (low : n.startbit ≤ bit) (other : Nat) :
    EbitmapNode.Holds { n with map := n.map &&& ~~~mapbit (bit - n.startbit) } other ↔ other ≠ bit ∧
      n.Holds other := by
  simp only [EbitmapNode.Holds, BitVec.getLsbD_and, Bool.and_eq_true, BitVec.getLsbD_not]
  by_cases inside : n.startbit ≤ other ∧ other < n.startbit + mapsize
  · have shift : other - n.startbit < 64 := by rw [mapsize] at inside; omega
    have same : other - n.startbit = bit - n.startbit ↔ other = bit := by omega
    simp only [getLsbD_mapbit _ _ shift, shift, same, decide_true, Bool.not_eq_true', decide_eq_false_iff_not]
    tauto
  · tauto

section Node
variable {n : EbitmapNode} {next : List EbitmapNode} {highbit : Nat}

theorem SetBit.set (formed : ChainFormed (n :: next)) (high : highbit = lastEnd prev (n :: next))
    (low : n.startbit ≤ bit) (inside : bit < n.startbit + mapsize) :
    SetBit bit true prev (n :: next) ({ n with map := n.map ||| mapbit (bit - n.startbit) } :: next, highbit) := by
  obtain ⟨behind, aligned, _, bound, rest⟩ := chainFormed_cons.mp formed
  have more : n.map ||| mapbit (bit - n.startbit) ≠ 0#64 := by
    intro zero
    have set := (holds_or_mapbit low inside bit).mpr (Or.inl rfl)
    rw [EbitmapNode.Holds, zero, BitVec.getLsbD_zero] at set
    exact Bool.false_ne_true set.2.2
  constructor
  case formed => exact chainFormed_cons.mpr ⟨behind, aligned, more, bound, rest⟩
  case holds =>
    intro other
    rw [holdsBit_cons, holds_or_mapbit low inside, holdsBit_cons]
    split <;> simp_all
  case high => exact high.trans (lastEnd_map prev n _ next)
  case starts =>
    intro node member
    rcases List.mem_cons.mp member with rfl | later
    · exact Or.inr ⟨n, List.mem_cons_self, rfl⟩
    · exact Or.inr ⟨node, List.mem_cons_of_mem _ later, rfl⟩

theorem not_holdsBit_next (formed : ChainFormed (n :: next)) (inside : bit < n.startbit + mapsize) :
    ¬ HoldsBit next bit := by
  obtain ⟨behind, _⟩ := chainFormed_cons.mp formed
  refine not_holdsBit_before fun other member => ?_
  have := behind other member
  omega

theorem SetBit.drop (formed : ChainFormed (n :: next)) (high : highbit = lastEnd prev (n :: next))
    (bounded : ∀ node, prev = some node → node.startbit + mapsize < 2 ^ 32) (low : n.startbit ≤ bit)
    (inside : bit < n.startbit + mapsize) (zero : n.map &&& ~~~mapbit (bit - n.startbit) = 0#64) :
    SetBit bit false prev (n :: next)
      (next, if next.isEmpty then prev.elim 0 fun prev => (prev.startbit + mapsize) % 2 ^ 32 else highbit) := by
  obtain ⟨_, _, _, _, rest⟩ := chainFormed_cons.mp formed
  have none := not_holdsBit_next formed inside
  have gone (other : Nat) (away : other ≠ bit) : ¬ n.Holds other := by
    intro holds
    have set := (holds_and_not_mapbit low other).mpr ⟨away, holds⟩
    rw [EbitmapNode.Holds, zero, BitVec.getLsbD_zero] at set
    exact Bool.false_ne_true set.2.2
  constructor
  case formed => exact rest
  case holds =>
    intro other
    change HoldsBit next other ↔ _
    rw [holdsBit_cons]
    split
    next same => simp [same, none]
    next away => simp [gone other away]
  case high =>
    cases next with
    | nil =>
      cases prev with
      | none => rfl
      | some prev => exact Nat.mod_eq_of_lt (bounded prev rfl)
    | cons => exact high
  case starts => exact fun node member => Or.inr ⟨node, List.mem_cons_of_mem _ member, rfl⟩

theorem SetBit.clear (formed : ChainFormed (n :: next)) (high : highbit = lastEnd prev (n :: next))
    (low : n.startbit ≤ bit) (inside : bit < n.startbit + mapsize)
    (kept : n.map &&& ~~~mapbit (bit - n.startbit) ≠ 0#64) :
    SetBit bit false prev (n :: next) ({ n with map := n.map &&& ~~~mapbit (bit - n.startbit) } :: next, highbit) := by
  obtain ⟨behind, aligned, _, bound, rest⟩ := chainFormed_cons.mp formed
  have none := not_holdsBit_next formed inside
  constructor
  case formed => exact chainFormed_cons.mpr ⟨behind, aligned, kept, bound, rest⟩
  case holds =>
    intro other
    rw [holdsBit_cons, holds_and_not_mapbit low, holdsBit_cons]
    split
    next same => simp [same, none]
    next away => simp [away]
  case high => exact high.trans (lastEnd_map prev n _ next)
  case starts =>
    intro node member
    rcases List.mem_cons.mp member with rfl | later
    · exact Or.inr ⟨n, List.mem_cons_self, rfl⟩
    · exact Or.inr ⟨node, List.mem_cons_of_mem _ later, rfl⟩

theorem SetBit.behind {result : List EbitmapNode × Nat} (formed : ChainFormed (n :: next))
    (inside : n.startbit + mapsize ≤ bit) (later : SetBit bit value (some n) next result) :
    SetBit bit value prev (n :: next) (n :: result.1, result.2) := by
  obtain ⟨behind, aligned, nonzero, bound, _⟩ := chainFormed_cons.mp formed
  have outside : ¬ n.Holds bit := fun holds => absurd holds.2.1 (by omega)
  constructor
  case formed =>
    refine chainFormed_cons.mpr ⟨?_, aligned, nonzero, bound, later.formed⟩
    intro node member
    rcases later.starts node member with same | ⟨old, oldMember, same⟩
    · rw [mapsize] at *
      omega
    · exact same ▸ behind old oldMember
  case holds =>
    intro other
    rw [holdsBit_cons, later.holds, holdsBit_cons]
    split
    next same => simp [same, outside]
    next => rfl
  case high => exact later.high
  case starts =>
    intro node member
    rcases List.mem_cons.mp member with rfl | inRest
    · exact Or.inr ⟨node, List.mem_cons_self, rfl⟩
    · rcases later.starts node inRest with new | ⟨old, oldMember, same⟩
      · exact Or.inl new
      · exact Or.inr ⟨old, List.mem_cons_of_mem _ oldMember, same⟩

end Node

theorem SetBit.insert {highbit : Nat} (formed : ChainFormed nodes) (room : bit / mapsize * mapsize + mapsize < 2 ^ 32)
    (before : ∀ n ∈ nodes, bit < n.startbit)
    (high : highbit = lastEnd (some ⟨bit / mapsize * mapsize, mapbit (bit - bit / mapsize * mapsize)⟩) nodes) :
    SetBit bit true prev nodes (⟨bit / mapsize * mapsize, mapbit (bit - bit / mapsize * mapsize)⟩ ::
      nodes, highbit) := by
  have none := not_holdsBit_before before
  constructor
  case formed =>
    refine newNode_formed room ?_ formed
    intro node member
    have later := before node member
    have aligned := formed.aligned node member
    rw [mapsize] at *
    omega
  case holds =>
    intro other
    rw [holdsBit_cons, newNode_holds]
    split <;> simp_all
  case high => exact high
  case starts =>
    intro node member
    rcases List.mem_cons.mp member with rfl | old
    · exact Or.inl rfl
    · exact Or.inr ⟨node, old, rfl⟩

theorem SetBit.absent {highbit : Nat} (formed : ChainFormed nodes) (high : highbit = lastEnd prev nodes)
    (before : ∀ n ∈ nodes, bit < n.startbit) : SetBit bit false prev nodes (nodes, highbit) where
  formed := formed
  holds other := by
    split
    next same => simpa [same] using not_holdsBit_before before
    next => rfl
  high := high
  starts node member := Or.inr ⟨node, member, rfl⟩

theorem setBitLoop_spec {highbit : Nat} (formed : ChainFormed nodes) (room : bit / mapsize * mapsize + mapsize < 2 ^ 32)
    (high : highbit = lastEnd prev nodes) (bounded : ∀ node, prev = some node → node.startbit + mapsize < 2 ^ 32) :
    SetBit bit value prev nodes (setBitLoop bit value highbit nodes prev) := by
  induction nodes generalizing prev with
  | nil =>
    rw [setBitLoop]
    cases value with
    | false => exact .absent formed high (by simp)
    | true => exact .insert formed room (by simp) (Nat.mod_eq_of_lt room)
  | cons n next ih =>
    obtain ⟨behind, _, _, bound, rest⟩ := chainFormed_cons.mp formed
    rw [setBitLoop]
    by_cases low : n.startbit ≤ bit
    · rw [if_pos low]
      by_cases inside : bit < n.startbit + mapsize
      · rw [if_pos inside]
        cases value with
        | true => exact .set formed high low inside
        | false =>
          by_cases zero : n.map &&& ~~~mapbit (bit - n.startbit) = 0#64
          · rw [if_neg Bool.false_ne_true, if_pos zero]
            exact .drop formed high bounded low inside zero
          · rw [if_neg Bool.false_ne_true, if_neg zero]
            exact .clear formed high low inside zero
      · rw [if_neg inside]
        exact .behind formed (by omega) (ih rest high fun node same => Option.some.inj same ▸ bound)
    · rw [if_neg low]
      have before : ∀ other ∈ n :: next, bit < other.startbit := by
        refine List.forall_mem_cons.mpr ⟨by omega, fun other member => ?_⟩
        have := behind other member
        omega
      cases value with
      | false => exact .absent formed high before
      | true => exact .insert formed room before high

end Set

section Read
variable {highbit : Nat} {words : List (UInt32 × BitVec 64)} {nodes : List EbitmapNode}

theorem readNodes_formed {last : Option Nat} (small : highbit < 2 ^ 32) (wide : mapsize ≤ highbit)
    (aligned : ∀ at_last, last = some at_last → at_last % mapsize = 0)
    (read : readNodes highbit last words = some nodes) :
    ChainFormed nodes ∧ (∀ n ∈ nodes, ∀ at_last, last = some at_last → at_last + mapsize ≤ n.startbit) ∧
      ∀ prev : Option EbitmapNode, prev.map EbitmapNode.startbit = last → (last = none → words ≠ []) →
        lastEnd prev nodes = highbit := by
  induction words generalizing last nodes with
  | nil =>
    rw [readNodes] at read
    split at read
    next reaches =>
      cases read
      refine ⟨.nil, by simp, ?_⟩
      intro prev same filled
      cases prev with
      | none => exact absurd rfl (filled same.symm)
      | some prev =>
        subst same
        simpa [lastEnd] using reaches
    next => cases read
  | cons word rest ih =>
    obtain ⟨startbit, map⟩ := word
    rw [readNodes] at read
    split at read
    next => cases read
    next boundary =>
      split at read
      next => cases read
      next inside =>
        split at read
        next => cases read
        next filled =>
          split at read
          next => cases read
          next later =>
            obtain ⟨behind, readBehind, rfl⟩ := Option.map_eq_some_iff.mp read
            have multiple : startbit.toNat % mapsize = 0 := by omega
            obtain ⟨formed, apart, ends⟩ := ih (by intro at_last same; cases same; exact multiple) readBehind
            refine ⟨chainFormed_cons.mpr ⟨?_, ?_, ?_, ?_, formed⟩, ?_, ?_⟩
            · exact fun n member => apart n member _ rfl
            · exact multiple
            · exact filled
            · change startbit.toNat + mapsize < 2 ^ 32
              omega
            · have gap : ∀ at_last, last = some at_last → at_last + mapsize ≤ startbit.toNat := by
                rintro at_last rfl
                have before : at_last < startbit.toNat := by simpa using later
                have start := aligned at_last rfl
                rw [mapsize] at *
                omega
              intro n member at_last same
              rcases List.mem_cons.mp member with rfl | old
              · exact gap at_last same
              · have := gap at_last same
                have := apart n old _ rfl
                omega
            · intro prev _ _
              exact ends (some ⟨startbit.toNat, map⟩) rfl (by simp)

theorem Ebitmap.wellFormed_of_read {record : EbitmapRecord} {e : Ebitmap} (read : ebitmapRead record = some e) :
    e.WellFormed := by
  rw [ebitmapRead] at read
  split at read
  next => cases read; exact ⟨.nil, rfl⟩
  next positive =>
    split at read
    next => cases read
    next aligned =>
      split at read
      next => cases read
      next filled =>
        obtain ⟨nodes, walked, rfl⟩ := Option.map_eq_some_iff.mp read
        have wide : mapsize ≤ record.highbit.toNat := by
          have nonzero : record.highbit.toNat ≠ 0 := fun zero => positive (UInt32.toNat_inj.mp zero)
          rw [mapsize] at *
          omega
        obtain ⟨formed, _, ends⟩ := readNodes_formed record.highbit.toNat_lt wide (by simp) walked
        exact ⟨formed, (ends none rfl fun _ => filled).symm⟩

end Read

section Unique
variable {first second : List EbitmapNode}

theorem EbitmapNode.exists_holds {n : EbitmapNode} (nonzero : n.map ≠ 0#64) : ∃ bit, n.Holds bit := by
  by_contra none
  refine nonzero (BitVec.eq_of_getLsbD_eq fun shift inside => ?_)
  rw [BitVec.getLsbD_zero, ← Bool.not_eq_true]
  intro set
  refine none ⟨n.startbit + shift, Nat.le_add_right _ _, Nat.add_lt_add_left inside _, ?_⟩
  rwa [Nat.add_sub_cancel_left]

theorem startbit_le {n m : EbitmapNode} (formed : ChainFormed (n :: first)) (formed' : ChainFormed (m :: second))
    (same : ∀ bit, HoldsBit (n :: first) bit → HoldsBit (m :: second) bit) : m.startbit ≤ n.startbit := by
  obtain ⟨_, aligned, nonzero, _⟩ := chainFormed_cons.mp formed
  obtain ⟨behind, aligned', _⟩ := chainFormed_cons.mp formed'
  obtain ⟨bit, low, high, set⟩ := EbitmapNode.exists_holds nonzero
  obtain ⟨other, member, below, _⟩ := same bit (holdsBit_cons.mpr (Or.inl ⟨low, high, set⟩))
  have least : m.startbit ≤ other.startbit := by
    rcases List.mem_cons.mp member with rfl | later
    · exact le_rfl
    · have := behind other later
      omega
  rw [mapsize] at *
  omega

/-- A chain is determined by its bits. -/
theorem chain_ext (formed : ChainFormed first) (formed' : ChainFormed second)
    (same : ∀ bit, HoldsBit first bit ↔ HoldsBit second bit) : first = second := by
  have filled {n : EbitmapNode} {next : List EbitmapNode} (formed : ChainFormed (n :: next)) :
      ∃ bit, HoldsBit (n :: next) bit := by
    obtain ⟨bit, holds⟩ := EbitmapNode.exists_holds (formed.nonzero n List.mem_cons_self)
    exact ⟨bit, holdsBit_cons.mpr (Or.inl holds)⟩
  induction first generalizing second with
  | nil =>
    cases second with
    | nil => rfl
    | cons m next =>
      obtain ⟨bit, holds⟩ := filled formed'
      exact absurd ((same bit).mpr holds) holdsBit_nil
  | cons n next ih =>
    cases second with
    | nil =>
      obtain ⟨bit, holds⟩ := filled formed
      exact absurd ((same bit).mp holds) holdsBit_nil
    | cons m rest =>
      have start : n.startbit = m.startbit :=
        Nat.le_antisymm (startbit_le formed' formed fun bit => (same bit).mpr)
          (startbit_le formed formed' fun bit => (same bit).mp)
      have maps : n.map = m.map := by
        refine BitVec.eq_of_getLsbD_eq fun shift inside => ?_
        have low : n.startbit ≤ n.startbit + shift := Nat.le_add_right _ _
        have high : n.startbit + shift < n.startbit + mapsize := Nat.add_lt_add_left inside _
        have held := same (n.startbit + shift)
        rw [holdsBit_of_inside formed low high, holdsBit_of_inside formed' (start ▸ low) (start ▸ high), ← start,
          Nat.add_sub_cancel_left] at held
        exact Bool.eq_iff_iff.mpr held
      have node : n = m := by
        cases n
        cases m
        simp only at start maps
        rw [start, maps]
      subst node
      have behind (bit : Nat) : HoldsBit next bit ↔ HoldsBit rest bit := by
        by_cases inside : bit < n.startbit + mapsize
        · simp [not_holdsBit_next formed inside, not_holdsBit_next formed' inside]
        · have outside : ¬ n.Holds bit := fun holds => inside holds.2.1
          simpa [outside] using same bit
      rw [ih (chainFormed_cons.mp formed).2.2.2.2 (chainFormed_cons.mp formed').2.2.2.2 behind]

theorem Ebitmap.WellFormed.ext {e e' : Ebitmap} (formed : e.WellFormed) (formed' : e'.WellFormed)
    (same : ∀ bit, e.Holds bit ↔ e'.Holds bit) : e = e' := by
  have nodes : e.node = e'.node := chain_ext formed.toChainFormed formed'.toChainFormed same
  have high : e.highbit = e'.highbit := by rw [formed.high, formed'.high, nodes]
  cases e
  cases e'
  simp only at nodes high
  rw [nodes, high]

end Unique

section Write

theorem readNodes_write {nodes : List EbitmapNode} {prev : Option EbitmapNode} {highbit : Nat}
    (formed : ChainFormed nodes) (later : ∀ last, prev = some last → ∀ n ∈ nodes, last.startbit < n.startbit)
    (high : highbit = lastEnd prev nodes) :
    readNodes highbit (prev.map EbitmapNode.startbit)
      (nodes.map fun n => (UInt32.ofNat n.startbit, n.map)) = some nodes := by
  induction nodes generalizing prev with
  | nil =>
    rw [List.map_nil, readNodes, if_pos]
    cases prev with
    | none => rfl
    | some last => simpa [lastEnd] using high.symm
  | cons n next ih =>
    obtain ⟨behind, aligned, nonzero, bound, rest⟩ := chainFormed_cons.mp formed
    have start : (UInt32.ofNat n.startbit).toNat = n.startbit := by
      rw [UInt32.toNat_ofNat']
      omega
    have inside : n.startbit + mapsize ≤ highbit := high ▸ le_lastEnd formed List.mem_cons_self
    have ordered : ∀ last, some n = some last → ∀ m ∈ next, last.startbit < m.startbit := by
      intro last same m member
      cases same
      have := behind m member
      rw [mapsize] at this
      omega
    rw [List.map_cons, readNodes]
    simp only [start]
    rw [if_neg (by omega), if_neg (by omega), if_neg nonzero, if_neg]
    · have walked : readNodes highbit (some n.startbit) _ = some next := ih rest ordered high
      rw [walked]
      rfl
    · cases prev with
      | none => simp
      | some last =>
        have := later last rfl n List.mem_cons_self
        simp
        omega

theorem lastEnd_mem {nodes : List EbitmapNode} {prev : Option EbitmapNode} (filled : nodes ≠ []) :
    ∃ n ∈ nodes, lastEnd prev nodes = n.startbit + mapsize := by
  induction nodes generalizing prev with
  | nil => exact absurd rfl filled
  | cons n next ih =>
    rw [lastEnd]
    by_cases last : next = []
    · subst last
      exact ⟨n, List.mem_cons_self, rfl⟩
    · obtain ⟨m, member, ends⟩ := @ih (some n) last
      exact ⟨m, List.mem_cons_of_mem _ member, ends⟩

theorem ebitmapRead_write {e : Ebitmap} (formed : e.WellFormed) : ebitmapRead (ebitmapWrite e) = some e := by
  by_cases none : e.node = []
  · have same : e = .empty := formed.ext ⟨.nil, rfl⟩ fun bit => by rw [Ebitmap.Holds, none]; rfl
    rw [same]
    rfl
  · obtain ⟨n, member, ends⟩ := @lastEnd_mem _ Option.none none
    have bound := formed.bounded n member
    have aligned := formed.aligned n member
    rw [← formed.high] at ends
    have high : (UInt32.ofNat e.highbit).toNat = e.highbit := by
      rw [UInt32.toNat_ofNat']
      omega
    have positive : UInt32.ofNat e.highbit ≠ 0 := by
      intro zero
      rw [zero, UInt32.toNat_zero] at high
      rw [mapsize] at ends
      omega
    have walked : readNodes e.highbit Option.none _ = some e.node :=
      @readNodes_write _ Option.none _ formed.toChainFormed (by simp) formed.high
    rw [ebitmapRead, ebitmapWrite]
    simp only [high]
    rw [if_neg positive, if_neg, if_neg, walked]
    · rfl
    · rw [List.map_eq_nil_iff]
      exact none
    · rw [mapsize] at *
      omega

end Write
namespace Ebitmap
variable {e : Ebitmap}

theorem WellFormed.empty : Ebitmap.empty.WellFormed := ⟨.nil, rfl⟩

@[simp] theorem union_empty (e : Ebitmap) : ebitmapUnion e .empty = e := by
  have kept : orLoop e.node [] = e.node := by cases e.node <;> rw [orLoop]
  rw [ebitmapUnion, Ebitmap.empty, kept, Nat.max_eq_left (Nat.zero_le _)]

theorem not_holds_empty (bit : Nat) : ¬ Ebitmap.empty.Holds bit := holdsBit_nil

theorem getBit_iff (formed : e.WellFormed) (bit : UInt32) : ebitmapGetBit e bit = true ↔ e.Holds bit.toNat := by
  rw [ebitmapGetBit]
  split
  next above =>
    have none : ¬ e.Holds bit.toNat := by
      intro holds
      obtain ⟨n, member, _, inside, _⟩ := holds
      have below := @le_lastEnd _ _ none formed.toChainFormed member
      rw [← formed.high] at below
      omega
    simp [none]
  next => exact getBitLoop_iff formed.toChainFormed

/-- The last bit position that a map can be made for. -/
def maxBit : Nat := 2 ^ 32 - mapsize - 1

theorem setBit_overflow {bit : UInt32} (large : maxBit < bit.toNat) (value : Bool) :
    ebitmapSetBit e bit value = (einval, e) := by
  have bound := bit.toNat_lt
  rw [ebitmapSetBit, if_pos]
  rw [maxBit, mapsize] at large
  rw [mapsize]
  omega

/-- Below the last position a bit is set or cleared, and no other bit changes. -/
theorem setBit_spec (formed : e.WellFormed) {bit : UInt32} (room : bit.toNat ≤ maxBit) (value : Bool) :
    ∃ after, ebitmapSetBit e bit value = (0, after) ∧ after.WellFormed ∧
      ∀ other, after.Holds other ↔ if other = bit.toNat then value = true else e.Holds other := by
  have fits : bit.toNat / mapsize * mapsize + mapsize < 2 ^ 32 := by
    rw [maxBit, mapsize] at room
    rw [mapsize]
    omega
  have walked := @setBitLoop_spec _ value _ none _ formed.toChainFormed fits formed.high (by simp)
  refine ⟨⟨(setBitLoop bit.toNat value e.highbit e.node none).1,
    (setBitLoop bit.toNat value e.highbit e.node none).2⟩, ?_,
    ⟨walked.formed, walked.high⟩, walked.holds⟩
  rw [ebitmapSetBit, if_neg]
  rw [Nat.mod_eq_of_lt fits, mapsize]
  omega

theorem holds_bounded (formed : e.WellFormed) {bit : Nat} (holds : e.Holds bit) : bit ≤ maxBit := by
  obtain ⟨n, member, low, high, _⟩ := holds
  have bound := formed.bounded n member
  have aligned := formed.aligned n member
  rw [mapsize] at *
  rw [maxBit, mapsize]
  omega

theorem mem_positiveBits (formed : e.WellFormed) {bit : Nat} : bit ∈ ebitmapPositiveBits e ↔ e.Holds bit := by
  have below {n : EbitmapNode} (member : n ∈ e.node) : n.startbit + mapsize ≤ e.highbit :=
    formed.high ▸ le_lastEnd formed.toChainFormed member
  rw [ebitmapPositiveBits, List.takeWhile_eq_self_iff.mpr]
  · simp only [List.mem_map, List.mem_filter, List.mem_flatMap, List.mem_range]
    constructor
    · rintro ⟨_, ⟨⟨n, member, shift, inside, rfl⟩, set⟩, rfl⟩
      refine ⟨n, member, Nat.le_add_right _ _, Nat.add_lt_add_left inside _, ?_⟩
      rw [Nat.add_sub_cancel_left, ← and_mapbit _ inside]
      exact set
    · rintro ⟨n, member, low, high, set⟩
      have inside : bit - n.startbit < mapsize := by omega
      refine ⟨_, ⟨⟨n, member, bit - n.startbit, inside, rfl⟩, ?_⟩, by dsimp only; omega⟩
      rw [← and_mapbit _ inside] at set
      exact set
  · simp only [List.mem_flatMap, List.mem_map, List.mem_range]
    rintro _ ⟨n, member, shift, inside, rfl⟩
    have := below member
    exact decide_eq_true (by dsimp only; omega)

end Ebitmap
end Bxxt
