namespace OrderedHash

/-!
# Integers of a range

An integer type of the domain is a range of `Int`; its values are the integers of the
range. Any integer can be wrapped into a range, modulo the number of its values.
-/

/-- A range of integers that is not empty. -/
structure IntRange where
  least : Int
  greatest : Int
  nonempty : least ≤ greatest

namespace IntRange

/-- The integers of two's complement with the given number of bits, which is not zero. -/
def signed (bits : Nat) : IntRange :=
  ⟨-(1 <<< (bits - 1) : Nat), (1 <<< (bits - 1) : Nat) - 1, by
    have : 0 < 1 <<< (bits - 1) := Nat.one_shiftLeft _ ▸ Nat.two_pow_pos _
    omega⟩

/-- The natural numbers of the given number of bits. -/
def unsigned (bits : Nat) : IntRange :=
  ⟨0, (1 <<< bits : Nat) - 1, by
    have : 0 < 1 <<< bits := Nat.one_shiftLeft _ ▸ Nat.two_pow_pos _
    omega⟩

/-- Zero and one. -/
def bit : IntRange := ⟨0, 1, by decide⟩

/-- Whether an integer is in the range. -/
def Holds (r : IntRange) (x : Int) : Prop := r.least ≤ x ∧ x ≤ r.greatest

instance (r : IntRange) (x : Int) : Decidable (r.Holds x) :=
  inferInstanceAs (Decidable (_ ∧ _))

/-- The number of integers in the range. -/
def count (r : IntRange) : Int := r.greatest - r.least + 1

end IntRange

/-- An integer of the range `r`. -/
structure Integer (r : IntRange) where
  val : Int
  holds : r.Holds val
  deriving DecidableEq

namespace Integer

variable {r : IntRange}

/-- The integer of the range that differs from `x` by a multiple of the range's count. -/
def wrap (r : IntRange) (x : Int) : Integer r :=
  ⟨r.least + (x - r.least) % r.count, by
    have pos : 0 < r.count := by have := r.nonempty; unfold IntRange.count; omega
    have low := Int.emod_nonneg (x - r.least) (by omega : r.count ≠ 0)
    have high := Int.emod_lt_of_pos (x - r.least) pos
    unfold IntRange.Holds
    unfold IntRange.count at *
    omega⟩

/-- The integer `x`, if it is in the range. -/
def ofInt? (r : IntRange) (x : Int) : Option (Integer r) :=
  if h : r.Holds x then some ⟨x, h⟩ else none

/-- The word of 64 bits that stands for an integer, its sign extended. -/
def toWord (x : Integer r) : UInt64 := UInt64.ofInt x.val

instance : Inhabited (Integer r) := ⟨wrap r 0⟩

/-- Wrapping leaves an integer of the range as it is. -/
@[simp] theorem wrap_val (x : Integer r) : wrap r x.val = x := by
  obtain ⟨v, low, high⟩ := x
  have small : (v - r.least) % r.count = v - r.least :=
    Int.emod_eq_of_lt (by omega) (by unfold IntRange.count; omega)
  have back : r.least + (v - r.least) = v := by omega
  simp only [wrap, small, back]

@[simp] theorem ofInt?_val (x : Integer r) : ofInt? r x.val = some x := dif_pos x.holds

end Integer

end OrderedHash
