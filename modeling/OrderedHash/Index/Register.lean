import OrderedHash.Index.Remove
import OrderedHash.Index.Resize
import OrderedHash.Index.Transfer

namespace OrderedHash

/-!
# Indexed hash values

A register is a list of hash values with a slot index of its positions. Its steps are
the ways in which containers use their index, without the keys and items.
-/

/-- Hash values in order, and an index from them to their positions. -/
structure Register where
  index : Index
  hashes : Array UInt64

namespace Register

/-- One use of the index of a register. -/
inductive Step where
  /-- Inserts a hash value at a position, which may be the end. -/
  | insertAt (pos : Nat) (hash : UInt64)
  /-- Removes a position and shifts those after it. -/
  | removeShifting (pos : Nat)
  /-- Removes a position and moves the last one there. -/
  | removeSwapping (pos : Nat)
  /-- Reverses the positions. -/
  | reverse
  /-- Builds the index anew. -/
  | rebuild
  /-- Keeps the first `count` positions and builds the index anew in its buckets. -/
  | rebuildInPlace (count : Nat)
  /-- Makes room for `count` positions in all. -/
  | reserve (count : Nat)
  /-- Reduces the buckets to those that are needed. -/
  | shrinkToFit
  /-- Removes all positions. -/
  | clear
  /-- Removes all positions and the buckets. -/
  | release
  /-- Changes the maximum load factor. -/
  | setLoadFactor (f : LoadFactor)

/-- The register without hash values, whose index is null. -/
def empty : Register := ⟨.null .standard, #[]⟩

variable (r : Register)

/-- The number of positions. -/
def size : Nat := r.hashes.size

/-- The hash value at a position. -/
def hashAt (p : Nat) : UInt64 := r.hashes.getD p 0

/-- The register after a step. -/
def apply : Step → Register
  | .insertAt pos hash =>
    ⟨r.index.insertAt pos r.size hash r.hashAt, r.hashes.insertIdxIfInBounds pos hash⟩
  | .removeShifting pos =>
    ⟨r.index.removeShifting pos r.size r.hashAt, r.hashes.eraseIdxIfInBounds pos⟩
  | .removeSwapping pos =>
    ⟨r.index.removeSwapping pos r.size r.hashAt,
      (r.hashes.setIfInBounds pos (r.hashAt (r.size - 1))).pop⟩
  | .reverse => ⟨r.index.reversePositions r.size, r.hashes.reverse⟩
  | .rebuild => { r with index := r.index.rebuild r.size r.hashAt }
  | .rebuildInPlace count => ⟨r.index.rebuildInPlace count r.hashAt, r.hashes.take count⟩
  | .reserve count => { r with index := r.index.reserve count r.hashAt }
  | .shrinkToFit => { r with index := r.index.shrinkToFit r.hashAt }
  | .clear => ⟨r.index.clear, #[]⟩
  | .release => ⟨r.index.release, #[]⟩
  | .setLoadFactor f => { r with index := r.index.setLoadFactor f }

/-- The register that takes over from `source`, and what is left of `source`. -/
def takeOver (source : Register) (sharedStorage : Bool) : Register × Register :=
  let (taken, left) := source.index.takeOver sharedStorage
  (⟨taken, source.hashes⟩, ⟨left.clear, #[]⟩)

/-- Whether every position is found by its hash value. -/
def allFound : Bool :=
  (List.range r.size).all fun p => r.index.findPosition (r.hashAt p) (· == p) == some p

end Register

end OrderedHash
