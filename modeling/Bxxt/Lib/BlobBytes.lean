import Bxxt.Lib.ByteLayout
import Bxxt.Lib.PagedBytes

/-! What flat formats are made of: big-endian cells, tables of strings that share their ends, and buffers that grow
by doubling. -/

namespace BlobBytes
open ByteLayout

section Cells

def beBytes (width value : Nat) : Bytes := (leBytes width value).reverse

@[simp] theorem length_beBytes (width value : Nat) : (beBytes width value).length = width := by
  rw [beBytes, List.length_reverse, length_leBytes]

theorem beValue_beBytes {width value : Nat} (fits : value < 256 ^ width) : beValue (beBytes width value) = value := by
  rw [beValue, beBytes, List.reverse_reverse, leValue_leBytes width value fits]

theorem beBytes_injective {width first second : Nat} (small : first < 256 ^ width) (small' : second < 256 ^ width)
    (same : beBytes width first = beBytes width second) : first = second := by
  rw [← beValue_beBytes small, same, beValue_beBytes small']

end Cells
section Strings
variable {table str : Bytes} {offset : Nat}

def stringAt (table : Bytes) (offset : Nat) : Bytes := (table.drop offset).takeWhile (· ≠ 0)

def findString (table str : Bytes) : Option Nat :=
  (List.range table.length).find? fun offset => decide (stringAt table offset = str)

/-- A string is added where no string of the table ends with it. -/
def insertString (table str : Bytes) : Nat × Bytes :=
  match findString table str with
  | some offset => (offset, table)
  | none => (table.length, table ++ str ++ [0])

def Holds (table : Bytes) (offset : Nat) (str : Bytes) : Prop := ∃ rest, table.drop offset = str ++ 0 :: rest

def Terminated (table : Bytes) : Prop := table = [] ∨ ∃ front, table = front ++ [0]

theorem Holds.append (holds : Holds table offset str) (more : Bytes) : Holds (table ++ more) offset str := by
  obtain ⟨rest, found⟩ := holds
  have inside : offset ≤ table.length := by
    by_contra beyond
    rw [List.drop_eq_nil_of_le (by omega)] at found
    cases str <;> cases found
  refine ⟨rest ++ more, ?_⟩
  rw [List.drop_append_of_le_length inside, found, List.append_assoc, List.cons_append]

theorem Holds.inside (holds : Holds table offset str) : offset + str.length < table.length := by
  obtain ⟨rest, found⟩ := holds
  have length := congrArg List.length found
  rw [List.length_drop, List.length_append, List.length_cons] at length
  omega

theorem holds_stringAt (closed : Terminated table) (inside : offset < table.length) :
    Holds table offset (stringAt table offset) := by
  rcases closed with rfl | ⟨front, rfl⟩
  · cases inside
  · rw [List.length_append, List.length_singleton] at inside
    have tail : (front ++ [0]).drop offset = front.drop offset ++ [0] := List.drop_append_of_le_length (by omega)
    cases rest : ((front ++ [0]).drop offset).dropWhile (· ≠ 0) with
    | nil =>
      have all := List.dropWhile_eq_nil_iff.mp rest 0 (by rw [tail]; simp)
      simp at all
    | cons first rest' =>
      have stops : first = 0 := by
        have some : ((front ++ [0]).drop offset).dropWhile (· ≠ 0) ≠ [] := by rw [rest]; simp
        have head := List.head_dropWhile_not (fun byte : UInt8 => decide (byte ≠ 0)) some
        simp only [rest, List.head_cons] at head
        simpa using head
      subst stops
      refine ⟨rest', ?_⟩
      rw [stringAt, ← rest, List.takeWhile_append_dropWhile]

theorem insertString_holds (closed : Terminated table) (str : Bytes) :
    Holds (insertString table str).2 (insertString table str).1 str := by
  unfold insertString
  cases found : findString table str with
  | some offset =>
    have same := List.find?_some found
    have inside := List.mem_range.mp (List.mem_of_find?_eq_some found)
    rw [decide_eq_true_eq] at same
    rw [← same]
    exact holds_stringAt closed inside
  | none =>
    refine ⟨[], ?_⟩
    rw [List.append_assoc, List.drop_left]

theorem insertString_extends (table str : Bytes) : ∃ more, (insertString table str).2 = table ++ more := by
  unfold insertString
  cases findString table str with
  | some offset => exact ⟨[], (List.append_nil _).symm⟩
  | none => exact ⟨str ++ [0], List.append_assoc ..⟩

theorem insertString_closed (closed : Terminated table) (str : Bytes) : Terminated (insertString table str).2 := by
  unfold insertString
  cases findString table str with
  | some offset => exact closed
  | none => exact Or.inr ⟨table ++ str, rfl⟩

theorem Holds.stringAt (holds : Holds table offset str) (plain : 0 ∉ str) :
    BlobBytes.stringAt table offset = str := by
  obtain ⟨rest, found⟩ := holds
  have inside : ∀ byte ∈ str, decide (byte ≠ 0) = true := fun byte member =>
    decide_eq_true fun same => plain (same ▸ member)
  rw [BlobBytes.stringAt, found, List.takeWhile_append_of_pos inside,
    List.takeWhile_cons_of_neg (by simp), List.append_nil]

end Strings
section Growth

/-- A buffer has room for more bytes after the space asked for has been doubled as often as is needed, up to a limit. -/
def CanGrow (limit length more : Nat) : Prop := more = 0 ∨ ∃ times, length + more ≤ more * 2 ^ times ∧
    more * 2 ^ times ≤ limit

theorem CanGrow.fits {limit length more : Nat} (grows : CanGrow limit length more) (before : length ≤ limit) :
    length + more ≤ limit := by
  rcases grows with rfl | ⟨times, enough, small⟩
  · exact before
  · exact Nat.le_trans enough small

theorem canGrow_of_le_half {limit half length more : Nat} (room : 2 * half ≤ limit + 1)
    (fits : length + more ≤ half) :
    CanGrow limit length more := by
  rcases Nat.eq_zero_or_pos more with none | some
  · exact Or.inl none
  · have reached : ∃ times, length + more ≤ more * 2 ^ times := by
      refine ⟨length + more, Nat.le_trans (Nat.le_of_lt Nat.lt_two_pow_self) (Nat.le_mul_of_pos_left _ some)⟩
    classical
    refine Or.inr ⟨Nat.find reached, Nat.find_spec reached, ?_⟩
    cases count : Nat.find reached with
    | zero =>
      rw [Nat.pow_zero, Nat.mul_one]
      omega
    | succ times =>
      have short := Nat.find_min reached (show times < Nat.find reached by omega)
      rw [Nat.pow_succ, ← Nat.mul_assoc]
      omega

theorem CanGrow.le_power {top length power : Nat} (grows : CanGrow (2 ^ (top + 1) - 1) length (2 ^ power)) :
    length + 2 ^ power ≤ 2 ^ top := by
  rcases grows with none | ⟨times, enough, small⟩
  · have positive : 0 < 2 ^ power := Nat.two_pow_pos power
    omega
  · rw [← Nat.pow_add] at enough small
    have below : 2 ^ (power + times) < 2 ^ (top + 1) := by
      have positive : 0 < 2 ^ (top + 1) := Nat.two_pow_pos _
      omega
    have exponent : power + times ≤ top := Nat.le_of_lt_succ ((Nat.pow_lt_pow_iff_right (by omega)).mp below)
    exact Nat.le_trans enough (Nat.pow_le_pow_right (by omega) exponent)

end Growth
end BlobBytes
