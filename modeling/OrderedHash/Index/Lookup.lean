import OrderedHash.Index.Basic

namespace OrderedHash

/-!
# Looking up a position

A lookup walks the ring from the home bucket of its hash value and asks the caller's
test about the positions of nodes with the right tiny hash. It gives up where the node
is nearer to its home than the lookup has come from its own, which an empty bucket
always is. Under linear probing the distance walked is not counted, so that only an
empty bucket ends the walk.

Every walk is bounded by the number of buckets.
-/

namespace Index

variable (ix : Index)

/-- The bucket at which a lookup from bucket `b` at distance `dist` succeeds. -/
def findFrom (tiny : UInt8) (test : Nat → Bool) : (fuel b dist : Nat) → Option Nat
  | 0, _, _ => none
  | fuel + 1, b, dist =>
    let n := ix.node b
    if n.distance < dist then none
    else if n.tinyHash == tiny && test n.pos then some b
    else findFrom tiny test fuel (ix.next b) (if ix.isLinear then dist else dist + 1)

/-- The bucket of a node with the tiny hash of `hash` whose position passes the test. -/
def find (hash : UInt64) (test : Nat → Bool) : Option Nat :=
  ix.findFrom (Node.tiny hash) test ix.bucketCount (ix.home hash) 0

/-- The positions about which a lookup from bucket `b` at distance `dist` asks. -/
def askedFrom (tiny : UInt8) (test : Nat → Bool) : (fuel b dist : Nat) → List Nat
  | 0, _, _ => []
  | fuel + 1, b, dist =>
    let n := ix.node b
    let rest := fun (_ : Unit) =>
      askedFrom tiny test fuel (ix.next b) (if ix.isLinear then dist else dist + 1)
    if n.distance < dist then []
    else if n.tinyHash == tiny then
      if test n.pos then [n.pos] else n.pos :: rest ()
    else rest ()

/-- The positions about which `find` asks the test, in order. -/
def asked (hash : UInt64) (test : Nat → Bool) : List Nat :=
  ix.askedFrom (Node.tiny hash) test ix.bucketCount (ix.home hash) 0

/-- The position that `find` arrives at. -/
def findPosition (hash : UInt64) (test : Nat → Bool) : Option Nat :=
  (ix.find hash test).map fun b => (ix.node b).pos

/-- The first bucket from `b` on whose node holds the position `p`. -/
def findNodeFrom (p : Nat) : (fuel b : Nat) → Option Nat
  | 0, _ => none
  | fuel + 1, b => if (ix.node b).holds p then some b else findNodeFrom p fuel (ix.next b)

/-- The bucket of the node that holds position `p`, whose hash value is `hash`. -/
def findNode (hash : UInt64) (p : Nat) : Option Nat :=
  ix.findNodeFrom p ix.bucketCount (ix.home hash)

end Index

end OrderedHash
