import OrderedHash.Binary.Decimal
import OrderedHash.Stream.Codec

namespace OrderedHash

/-!
# Binary floating-point values on a stream

A value is written with as many significant decimal digits as tell all values of its
format apart, without trailing zeros, and with an exponent if that is below `-4` or not
below the number of digits. It is read as the longest text that can begin a decimal
number, all of which has to be one.
-/

/-- The decimal digits that tell all values of a binary format apart. -/
def Binary.distinguishingDigits (f : Binary) : Nat :=
  2 + (f.fractionBits + 1) * 30103 / 100000

namespace Numeral

/-- The digits without the zeros at their end. -/
def withoutTrailingZeros (digits : Bytes) : Bytes :=
  (digits.reverse.dropWhile (· == 48)).reverse

/-- Digits with a point after the first `whole` of them, unless none would follow. -/
def withPoint (whole : Nat) (digits : Bytes) : Bytes :=
  let fraction := withoutTrailingZeros (digits.drop whole)
  if fraction.isEmpty then digits.take whole else digits.take whole ++ 46 :: fraction

/-- An exponent with its sign and at least two digits. -/
def exponent (e : Int) : Bytes :=
  let text := digits e.natAbs
  101 :: (if e < 0 then 45 else 43) :: (if text.length < 2 then 48 :: text else text)

/-- The text of `num / den` with at most `count` significant digits. -/
def ofRatio (count num den : Nat) : Bytes :=
  if num = 0 then [48]
  else
    let (n, e) := Binary.leadingDigits count num den
    let text := digits n
    if e < -4 ∨ count ≤ e then withPoint 1 text ++ exponent e
    else if e < 0 then withPoint 1 (List.replicate (-e).toNat 48 ++ text)
    else withPoint (e.toNat + 1) text

/-- The text of a value. -/
def ofReal {f : Binary} (x : Real f) : Bytes :=
  let sign (negative : Bool) : Bytes := if negative then [45] else []
  match f.decode x.bits with
  | .finite negative significand e =>
    sign negative ++ match e with
      | .ofNat k => ofRatio f.distinguishingDigits (significand <<< k) 1
      | .negSucc k => ofRatio f.distinguishingDigits significand (1 <<< (k + 1))
  | .infinite negative => sign negative ++ Bytes.ofText "inf"
  | .nan => sign (x.bits / f.signBit % 2 == 1) ++ Bytes.ofText "nan"

/-- Reads the exponent that follows a mantissa with a digit; nothing if there is no
    exponent. One without a digit fails. -/
def readExponent : Reader Int := do
  match ← Reader.optionally fun b => b == 101 || b == 69 with
  | none => return 0
  | some _ =>
    let (negative, digits) ← signed
    if digits.isEmpty then Reader.fail
    else return if negative then -(ofDigits digits) else ofDigits digits

/-- Reads a value of a binary format, rounded to nearest. -/
def readReal (f : Binary) : Reader (Real f) := do
  Reader.readyAfterBlanks
  let (negative, whole) ← signed
  let point ← Reader.optionally (· == 46)
  let fraction ← if point.isSome then Reader.span isDigit else pure []
  if whole.isEmpty && fraction.isEmpty then Reader.fail
  else
    let e ← readExponent
    match f.ofDecimal (ofDigits (whole ++ fraction)) (e - fraction.length) with
    | some bits => return ⟨if negative then bits + f.signBit else bits⟩
    | none => Reader.fail

end Numeral

namespace Codec

/-- Values of a binary format. -/
def real (f : Binary) : Codec (Real f) := ⟨Numeral.ofReal, Numeral.readReal f⟩

end Codec

end OrderedHash
