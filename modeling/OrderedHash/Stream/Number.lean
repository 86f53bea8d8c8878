import OrderedHash.Scalar.Integer
import OrderedHash.Stream.Source

namespace OrderedHash

/-!
# Integers on a stream

An integer is written in decimal. It is read, after white space, as an optional sign and
at least one digit, and has to lie in its range. The magnitude of a natural number of
some bits may have a minus sign too, which negates it modulo the number of values.
-/

/-- The bytes of an ASCII text. -/
def Bytes.ofText (text : String) : Bytes := text.toUTF8.toList

namespace Numeral

/-- Whether a byte is a decimal digit. -/
def isDigit (b : UInt8) : Bool := 48 ≤ b && b ≤ 57

/-- Whether a byte is a sign. -/
def isSign (b : UInt8) : Bool := b == 43 || b == 45

/-- The digit of a number below ten. -/
def digit (n : Nat) : UInt8 := (48 + n).toUInt8

/-- The digits of a number in front of those given; the fuel bounds their number. -/
def digitsOnto : (fuel n : Nat) → Bytes → Bytes
  | 0, _, acc => acc
  | fuel + 1, n, acc =>
    let acc := digit (n % 10) :: acc
    if n < 10 then acc else digitsOnto fuel (n / 10) acc

/-- The decimal digits of a number. -/
def digits (n : Nat) : Bytes := digitsOnto (n + 1) n []

/-- The number with the given decimal digits. -/
def ofDigits (bytes : Bytes) : Nat := bytes.foldl (fun n b => 10 * n + (b.toNat - 48)) 0

/-- The decimal text of an integer. -/
def ofInt (x : Int) : Bytes := if x < 0 then 45 :: digits x.natAbs else digits x.natAbs

/-- Reads an optional sign and digits: whether the sign is a minus, and the digits. -/
def signed : Reader (Bool × Bytes) := do
  let sign ← Reader.optionally isSign
  return (sign == some 45, ← Reader.span isDigit)

/-- Reads a number with an optional sign: whether it is negative, and its magnitude. -/
def read : Reader (Bool × Nat) := do
  Reader.readyAfterBlanks
  let (negative, digits) ← signed
  if digits.isEmpty then Reader.fail else return (negative, ofDigits digits)

/-- Reads an integer of a range. -/
def readIn (r : IntRange) : Reader (Integer r) := do
  let (negative, magnitude) ← read
  match Integer.ofInt? r (if negative then -magnitude else magnitude) with
  | some x => return x
  | none => Reader.fail

/-- Reads an integer of a range of natural numbers; a negative one is wrapped into it. -/
def readModulo (r : IntRange) : Reader (Integer r) := do
  let (negative, magnitude) ← read
  if magnitude ≤ r.greatest then
    return Integer.wrap r (if negative then -magnitude else magnitude)
  else Reader.fail

/-- Reads a number of 64 bits, by which sizes are written. -/
def readSize : Reader Nat := return (← readModulo (.unsigned 64)).val.toNat

end Numeral

end OrderedHash
