import OrderedHash.Binary.Format
import OrderedHash.Hash.Mix

namespace OrderedHash

/-!
# Load factors and table sizes

The maximum load factor of a slot index is an exact fraction between one tenth and
nineteen twentieths. Every size derived from it is a natural number, rounded down.
-/

/-- A fraction between one tenth and nineteen twentieths. -/
structure LoadFactor where
  num : Nat
  den : Nat
  den_pos : 0 < den
  tenth_le : den ≤ 10 * num
  le_nineteen_twentieths : 20 * num ≤ 19 * den

namespace LoadFactor

/-- The fraction `num / 2 ^ 27`, for a numerator that puts it in range. -/
def ofNumerator (num : Nat) (lo : 0x8000000 ≤ 10 * num) (hi : 20 * num ≤ 19 * 0x8000000) :
    LoadFactor :=
  ⟨num, 0x8000000, by decide, lo, hi⟩

/-- The single-precision value nearest to one tenth, the least load factor that can
    be asked for. -/
def least : LoadFactor := ofNumerator 13421773 (by decide) (by decide)

/-- The single-precision value nearest to nineteen twentieths, the greatest load
    factor that can be asked for. -/
def greatest : LoadFactor := ofNumerator 127506840 (by decide) (by decide)

/-- The load factor of a new index: the single-precision value nearest to three fifths. -/
def standard : LoadFactor := ofNumerator 80530640 (by decide) (by decide)

/-- The fraction `num / 2 ^ 27` if it lies between the least and the greatest load
    factor, and the nearer of these otherwise. -/
def clamp (num : Nat) : LoadFactor :=
  if h : 13421773 ≤ num ∧ num ≤ 127506840 then
    ofNumerator num (by omega) (by omega)
  else if num < 13421773 then least
  else greatest

/-- The load factor asked for by a single-precision bit pattern, brought into range. What is
    not a number is not in any range. -/
def ofSingle? (bits : UInt32) : Option LoadFactor :=
  match Binary.single.decode bits.toNat with
  | .finite false significand exponent =>
    -- values whose last place is below 2 ^ -27 are below one tenth
    some (if exponent < -27 then least else clamp (significand <<< (exponent + 27).toNat))
  | .infinite false => some greatest
  | .finite true _ _ | .infinite true => some least
  | .nan => none

/-- The single-precision bit pattern of a load factor. -/
def toSingle (f : LoadFactor) : UInt32 :=
  ((Binary.single.roundRatio f.num f.den).getD 0).toUInt32

instance : Inhabited LoadFactor := ⟨standard⟩

/-- The least number of buckets of an index that has any. -/
def minBuckets : Nat := 64

/-- The least power of two, not below `minBuckets`, of buckets that hold `count`
    positions under the load factor. -/
def bucketCountFor (f : LoadFactor) (count : Nat) : Nat :=
  Hash.nextPowerOfTwo (max minBuckets (count * f.den / f.num + 1))

/-- The number of positions from which `buckets` buckets are too full under the load
    factor. -/
def target (f : LoadFactor) (buckets : Nat) : Nat := buckets * f.num / f.den

/-- The number of used buckets from which `buckets` buckets are too full under any
    load factor. -/
def fillLimit (buckets : Nat) : Nat := buckets * 19 / 20

end LoadFactor

end OrderedHash
