import OrderedHash.Binary.Format

namespace OrderedHash

/-!
# Decimal values of binary formats

A finite value is exact as a quotient of natural numbers, so its decimal digits are
found, and decimal numbers are rounded to it, without error.
-/

namespace Binary

/-- The power of ten not above `num / den`, a value above zero. -/
def decimalExponent (num den : Nat) : Int :=
  let guess : Int := ((Nat.toDigits 10 num).length : Int) - (Nat.toDigits 10 den).length
  let high : Bool :=
    match guess with
    | .ofNat k => den * Nat.pow 10 k ≤ num
    | .negSucc k => den ≤ num * Nat.pow 10 (k + 1)
  if high then guess else guess - 1

/-- The quotient of `num` by `den * 10 ^ e`, rounded to nearest. -/
def roundDecimal (num den : Nat) (e : Int) : Nat :=
  match e with
  | .ofNat k => roundDiv num (den * Nat.pow 10 k)
  | .negSucc k => roundDiv (num * Nat.pow 10 (k + 1)) den

/-- The `count` leading decimal digits of `num / den`, rounded to nearest, as one number
    with the power of ten of its first digit. -/
def leadingDigits (count num den : Nat) : Nat × Int :=
  let e := decimalExponent num den
  let n := roundDecimal num den (e + 1 - count)
  if n < Nat.pow 10 count then (n, e) else (n / 10, e + 1)

/-- The bit pattern nearest to `digits * 10 ^ e`; none if that is beyond the finite
    values. Exponents far out of the format's reach are decided without the power. -/
def ofDecimal (f : Binary) (digits : Nat) (e : Int) : Option Nat :=
  let top : Int := e + (Nat.toDigits 10 digits).length
  if digits = 0 then some 0
  else if (1 <<< (f.exponentBits - 1) : Nat) < 3 * (top - 1) then none
  else if 3 * top < f.leastExponent - 1 then some 0
  else
    match e with
    | .ofNat k => f.roundRatio (digits * Nat.pow 10 k) 1
    | .negSucc k => f.roundRatio digits (Nat.pow 10 (k + 1))

end Binary

/-- A value of a binary format, given by its bit pattern. -/
structure Real (f : Binary) where
  bits : Nat

namespace Real

variable {f : Binary}

/-- Equality as numbers: both zeros are equal, and a pattern that is no number equals none. -/
def same (a b : Real f) : Bool :=
  match f.decode a.bits, f.decode b.bits with
  | .nan, _ | _, .nan => false
  | .finite _ 0 _, .finite _ 0 _ => true
  | _, _ => a.bits == b.bits

instance : BEq (Real f) := ⟨same⟩

end Real

end OrderedHash
