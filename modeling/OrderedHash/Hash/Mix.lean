namespace OrderedHash

/-!
# Hash values of 64 bits

`mix` spreads the bits of a word, `combine` adds a word to a running value, and
`Hasher.sequence` hashes a list in an order-sensitive way, seeded with its length.
-/

namespace Hash

/-- Spreads the bits of a word: a shift down, a product and another shift down. -/
def mix (a : UInt64) : UInt64 :=
  let a := a ^^^ (a >>> 23)
  let a := a * 0x2127599bf4325c37
  a ^^^ (a >>> 47)

/-- The odd factor of `combine`. -/
def combineFactor : UInt64 := 14313749767032793493

/-- Adds the hash value `h` to the running value `seed`. -/
def combine (seed h : UInt64) : UInt64 :=
  let h := h * combineFactor
  let h := h ^^^ (h >>> 47)
  let h := h * combineFactor
  (seed ^^^ h) * combineFactor

/-- The position of the highest bit that is set, for a word that is not zero. -/
def highestBit (x : Nat) : Nat := x.log2

/-- The least power of two that is not below `x`; zero for zero. -/
def nextPowerOfTwo (x : Nat) : Nat :=
  if x &&& (x - 1) = 0 then x else 1 <<< (highestBit x + 1)

end Hash

/-- A hash function on `α`. One that does not avalanche by itself has its values
    passed through `mix` before they are used. -/
structure Hasher (α : Type) where
  code : α → UInt64
  avalanches : Bool

namespace Hasher

variable {α β : Type}

/-- The hash value that is used for `a`. -/
def value (h : Hasher α) (a : α) : UInt64 :=
  if h.avalanches then h.code a else Hash.mix (h.code a)

/-- The hash function of integers, which are taken as words of 64 bits. -/
def integer : Hasher UInt64 := ⟨Hash.mix, true⟩

/-- The hash function of signed integers of 64 bits. -/
def int64 : Hasher Int64 := ⟨fun x => integer.code x.toUInt64, true⟩

/-- The hash function of pairs: the second hash value is combined into the first. -/
def pair (ha : Hasher α) (hb : Hasher β) : Hasher (α × β) :=
  ⟨fun p => Hash.combine (ha.code p.1) (hb.code p.2), true⟩

/-- The hash value of a list: its length seeds a value into which the hash value of
    each element is combined in order. -/
def sequence (h : Hasher α) (xs : List α) : UInt64 :=
  xs.foldl (fun seed x => Hash.combine seed (h.value x)) (Hash.mix xs.length.toUInt64)

end Hasher

end OrderedHash
