import OrderedHash.Stream.Number

namespace OrderedHash

/-!
# Values on a stream

A codec writes the values of a type and reads them back. Texts are written as their
length, a colon and their bytes, whatever these are, and are read in chunks, so that a
length that is announced but not there costs nothing.
-/

/-- How the values of a type are written and read. -/
structure Codec (α : Type) where
  write : α → Bytes
  read : Reader α

namespace Codec

variable {α β : Type}

/-- Integers of a range, those that do not fit being refused. -/
def integer (r : IntRange) : Codec (Integer r) := ⟨fun x => Numeral.ofInt x.val, Numeral.readIn r⟩

/-- Integers of a range of natural numbers, negative ones being wrapped into it. -/
def natural (r : IntRange) : Codec (Integer r) :=
  ⟨fun x => Numeral.ofInt x.val, Numeral.readModulo r⟩

/-- The number of bytes that are asked for at once. -/
def chunkSize : Nat := 4096

/-- Reads `count` bytes in chunks and appends them to those read before. -/
def readChunks (count : Nat) (before : Bytes) : Reader Bytes :=
  if count = 0 then pure before
  else do
    let chunk ← Reader.block (min count chunkSize)
    readChunks (count - min count chunkSize) (before ++ chunk)
termination_by count
decreasing_by unfold chunkSize; omega

/-- Byte strings of any content. -/
def text : Codec Bytes where
  write v := Numeral.digits v.length ++ 58 :: v
  read := do
    let count ← Numeral.readSize
    if (← Reader.byte) == 58 then readChunks count [] else Reader.fail

/-- Pairs, with a space between the two. -/
def pair (a : Codec α) (b : Codec β) : Codec (α × β) where
  write p := a.write p.1 ++ 32 :: b.write p.2
  read := do
    let x ← a.read
    let y ← b.read
    return (x, y)

end Codec

end OrderedHash
