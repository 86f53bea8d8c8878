import OrderedHash.Index.Basic

namespace OrderedHash

/-!
# Removing a node

In distance order the nodes after the removed one move back by one bucket, up to the
first that is at home or to an empty bucket. Under linear probing a tombstone is left.
-/

namespace Index

variable (ix : Index)

/-- Fills bucket `b` with the node after it as long as that one is away from its home,
    and empties the last bucket so vacated. -/
def shiftBack (ix : Index) : (fuel b : Nat) → Index
  | 0, b => ix.setNode b .empty
  | fuel + 1, b =>
    let c := ix.next b
    let n := ix.node c
    if 0 < n.distance then
      shiftBack (ix.setNode b (n.withDistance (n.distance - 1))) fuel c
    else ix.setNode b .empty

/-- Removes the node in bucket `b`. -/
def eraseNode (b : Nat) : Index :=
  let ix := { ix with size := ix.size - 1 }
  if ix.isLinear then
    { ix with tombstones := ix.tombstones + 1 }.setNode b .tombstone
  else ix.shiftBack ix.bucketCount b

end Index

end OrderedHash
