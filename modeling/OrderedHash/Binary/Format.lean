namespace OrderedHash

/-!
# Binary floating-point formats

A `Binary` format has a sign bit, an exponent field and a fraction field. `decode`
reads a bit pattern as an exact value, and `roundRatio` gives the bit pattern nearest
to a quotient of natural numbers, a tie going to the even pattern.
-/

/-- An interchange format, given by the widths of its two fields. -/
structure Binary where
  fractionBits : Nat
  exponentBits : Nat

namespace Binary

/-- The format of 32 bits. -/
def single : Binary := ⟨23, 8⟩

/-- The format of 64 bits. -/
def double : Binary := ⟨52, 11⟩

/-- What a bit pattern stands for; the finite value is `± significand * 2 ^ exponent`. -/
inductive Datum where
  | finite (negative : Bool) (significand : Nat) (exponent : Int)
  | infinite (negative : Bool)
  | nan
  deriving DecidableEq, Repr

/-- The exponent of the last place of the least values. -/
def leastExponent (f : Binary) : Int :=
  2 - (1 <<< (f.exponentBits - 1) : Nat) - f.fractionBits

/-- The pattern of infinity, all exponent bits set and no other. -/
def infinityBits (f : Binary) : Nat := (1 <<< f.exponentBits - 1) <<< f.fractionBits

/-- The sign bit. -/
def signBit (f : Binary) : Nat := 1 <<< (f.exponentBits + f.fractionBits)

/-- Reads a bit pattern. -/
def decode (f : Binary) (bits : Nat) : Datum :=
  let negative := bits / f.signBit % 2 == 1
  let field := bits / 1 <<< f.fractionBits % 1 <<< f.exponentBits
  let fraction := bits % 1 <<< f.fractionBits
  if field = 1 <<< f.exponentBits - 1 then
    if fraction = 0 then .infinite negative else .nan
  else if field = 0 then .finite negative fraction f.leastExponent
  else .finite negative (1 <<< f.fractionBits + fraction) (f.leastExponent + field - 1)

/-- The quotient rounded to the nearest natural number, a tie going to the even one. -/
def roundDiv (num den : Nat) : Nat :=
  let q := num / den
  let r := num % den
  if 2 * r < den ∨ (2 * r = den ∧ q % 2 = 0) then q else q + 1

/-- The quotient of `num` by `den * 2 ^ e`, rounded to nearest. -/
def roundScaled (num den : Nat) (e : Int) : Nat :=
  match e with
  | .ofNat k => roundDiv num (den <<< k)
  | .negSucc k => roundDiv (num <<< (k + 1)) den

/-- The exponent of the last place for a value `num / den` above zero: a value of this
    exponent has one bit more than the fraction field, unless the exponent is the least. -/
def exponentOf (f : Binary) (num den : Nat) : Int :=
  let guess : Int := (num.log2 : Int) - den.log2 - f.fractionBits
  let low : Bool :=
    match guess with
    | .ofNat k => num < den <<< (k + f.fractionBits)
    | .negSucc k => num <<< (k + 1) < den <<< f.fractionBits
  max f.leastExponent (if low then guess - 1 else guess)

/-- The bit pattern nearest to `num / den`; none if that is beyond the finite values. -/
def roundRatio (f : Binary) (num den : Nat) : Option Nat :=
  if num = 0 then some 0
  else
    let e := f.exponentOf num den
    let bits := (e - f.leastExponent).toNat <<< f.fractionBits + roundScaled num den e
    if bits < f.infinityBits then some bits else none

end Binary

end OrderedHash
