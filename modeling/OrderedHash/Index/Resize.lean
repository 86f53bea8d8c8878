import OrderedHash.Index.Insert
import OrderedHash.Index.Renumber

namespace OrderedHash

/-!
# Rebuilding and growing

A rebuild empties the buckets and adds the positions again in order. An index grows
before an insertion when it is full, or when it is full under its load factor and some
distance has become long.
-/

namespace Index

variable (ix : Index)

/-- Adds the positions below `count` in order, where `hashAt` gives the hash value of each. -/
def insertAll (count : Nat) (hashAt : Nat → UInt64) : Index :=
  (List.range count).foldl (fun ix p => ix.insertNode (hashAt p) p) ix

/-- The index of the positions below `count` in the given number of buckets. -/
def rehash (buckets count : Nat) (hashAt : Nat → UInt64) : Index :=
  (ix.emptied buckets).insertAll count hashAt

/-- The number of buckets that `count` positions need under the load factor. -/
def required (count : Nat) : Nat := ix.loadFactor.bucketCountFor count

/-- Whether the index has to grow before it takes one more node. -/
def isCrowded : Bool :=
  ix.maxFill ≤ ix.size + ix.tombstones ||
    (growDistance < ix.maxDist && ix.capacity ≤ ix.size)

/-- Makes room for one more node. -/
def growForInsert (hashAt : Nat → UInt64) : Index :=
  if ix.isCrowded then ix.rehash (ix.required (ix.size + 1)) ix.size hashAt else ix

/-- The index of the positions below `count`, in the present buckets. -/
def rebuildInPlace (count : Nat) (hashAt : Nat → UInt64) : Index :=
  ix.rehash ix.bucketCount count hashAt

/-- The index of the positions below `count`, in the present buckets if they are enough. -/
def rebuild (count : Nat) (hashAt : Nat → UInt64) : Index :=
  if count ≠ 0 ∧ ix.bucketCount < ix.required count then
    ix.rehash (ix.required count) count hashAt
  else ix.rebuildInPlace count hashAt

/-- Makes room for `count` positions in all. -/
def reserve (count : Nat) (hashAt : Nat → UInt64) : Index :=
  if count ≠ 0 ∧ ix.bucketCount < ix.required count then
    ix.rehash (ix.required count) ix.size hashAt
  else ix

/-- Reduces the buckets to the number that the positions need, and to none if there is
    no position. -/
def shrinkToFit (hashAt : Nat → UInt64) : Index :=
  if ix.size = 0 then ix.release
  else if ix.required ix.size ≠ ix.bucketCount ∨ ix.tombstones ≠ 0 then
    ix.rehash (ix.required ix.size) ix.size hashAt
  else ix

/-- Adds a position at `pos` to an index of the positions below `count`, shifting those
    from `pos` on up by one; `hashAt` gives the hash values before the insertion. -/
def insertAt (pos count : Nat) (hash : UInt64) (hashAt : Nat → UInt64) : Index :=
  ((ix.growForInsert hashAt).shiftPositions pos count 1 hashAt).insertNode hash pos

end Index

end OrderedHash
