import OrderedHash.Map.Basic
import OrderedHash.Random.Twister
import OrderedHash.Scalar.Integer
import OrderedHash.Set.Basic
import OrderedHash.Stream.Source

namespace OrderedHash

/-!
# Containers drawn from a seed

The number of items is drawn first, then the key and the value of each in turn. Keys may
repeat: a map then takes the last value and a set leaves the key out.
-/

/-- A step on a generator that draws a value. -/
abbrev Draw (α : Type) := StateM Twister α

namespace Draw

variable {α β : Type}

/-- Draws a word. -/
def word : Draw UInt64 := fun g => g.next

/-- Draws a number below `bound`, which is not zero. -/
def below (bound : Nat) : Draw Nat := return (← word).toNat % bound

/-- Draws `count` values in a row. -/
def many (draw : Draw α) : (count : Nat) → Draw (List α)
  | 0 => pure []
  | count + 1 => do
    let a ← draw
    return a :: (← many draw count)

/-- Draws an integer up to `greatest` and wraps it into a range. -/
def integer (r : IntRange) (greatest : Nat) : Draw (Integer r) :=
  return Integer.wrap r (← below (greatest + 1))

/-- Draws a printable character, from `!` on. -/
def character : Draw UInt8 := return ((← word) &&& 63).toUInt8 + 33

/-- Draws a text of fewer than `bound` characters, or of just as many if the length is fixed. -/
def text (bound : Nat) (fixed : Bool) : Draw Bytes := do
  let length ← if fixed then pure bound else below bound
  many character length

/-- Draws a text whose length is bounded by what a range of values suggests. -/
def shortText (greatest : Nat) : Draw Bytes := text (max greatest 1 % 32 + 1) false

/-- Draws a pair, its first component first. -/
def pair (a : Draw α) (b : Draw β) : Draw (α × β) := do
  let x ← a
  let y ← b
  return (x, y)

/-- Draws at most `maxSize` values; none is drawn, not even their number, if that is zero. -/
def upTo (draw : Draw α) (maxSize : Nat) : Draw (List α) := do
  if maxSize = 0 then return []
  many draw (← below (maxSize + 1))

end Draw

/-- The map drawn from a seed. -/
def Map.random {K T : Type} (κ : Hashing K) (item : Draw (K × T)) (seed : UInt64) (maxSize : Nat) :
    Map K T :=
  let (items, _) := (Draw.upTo item maxSize).run (Twister.ofSeed seed)
  items.foldl (fun m item => ((Map.insertOrAssign κ item.1 item.2).step m).2)
    (Table.empty .standard)

/-- The set drawn from a seed. -/
def Set.random {K : Type} (κ : Hashing K) (key : Draw K) (seed : UInt64) (maxSize : Nat) : Set K :=
  let (keys, _) := (Draw.upTo key maxSize).run (Twister.ofSeed seed)
  keys.foldl (fun s k => ((Set.insert κ k).step s).2) (Table.empty .standard)

end OrderedHash
