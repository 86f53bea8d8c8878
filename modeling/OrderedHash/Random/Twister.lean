namespace OrderedHash

/-!
# The 64-bit Mersenne Twister

A generator of 64-bit words whose state is a ring of 312 words. Each draw renews the word
at the front from three words of the ring and answers it in a tempered form.
-/

/-- A ring of words and the place of the next one to renew. -/
structure Twister where
  words : Array UInt64
  front : Nat

namespace Twister

/-- The number of words of the ring. -/
def length : Nat := 312

/-- The distance to the word that a renewed word is taken from. -/
def offset : Nat := 156

/-- The words that follow `last` in a fresh ring, the first of them at place `i`. -/
def seedFrom : (count i : Nat) → (last : UInt64) → Array UInt64 → Array UInt64
  | 0, _, _, words => words
  | count + 1, i, last, words =>
    let mixed : UInt64 := last ^^^ (last >>> 62)
    let word := mixed * 6364136223846793005 + i.toUInt64
    seedFrom count (i + 1) word (words.push word)

/-- The generator started from a seed. -/
def ofSeed (seed : UInt64) : Twister := ⟨seedFrom (length - 1) 1 seed #[seed], 0⟩

/-- The word at a place of the ring, counted from the front. -/
def word (g : Twister) (i : Nat) : UInt64 := g.words.getD ((g.front + i) % length) 0

/-- The word that replaces the one at the front. -/
def renewed (g : Twister) : UInt64 :=
  let mixed := (g.word 0 &&& 0xffffffff80000000) ||| (g.word 1 &&& 0x7fffffff)
  let folded := (mixed >>> 1) ^^^ (if mixed &&& 1 = 0 then 0 else 0xb5026f5aa96619e9)
  g.word offset ^^^ folded

/-- The tempered form of a word. -/
def temper (x : UInt64) : UInt64 :=
  let x := x ^^^ ((x >>> 29) &&& 0x5555555555555555)
  let x := x ^^^ ((x <<< 17) &&& 0x71d67fffeda60000)
  let x := x ^^^ ((x <<< 37) &&& 0xfff7eee000000000)
  x ^^^ (x >>> 43)

/-- Draws a word. -/
def next (g : Twister) : UInt64 × Twister :=
  let word := g.renewed
  (temper word, ⟨g.words.setIfInBounds g.front word, (g.front + 1) % length⟩)

end Twister

end OrderedHash
