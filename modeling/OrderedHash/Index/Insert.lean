import OrderedHash.Index.Basic

namespace OrderedHash

/-!
# Adding a node

A new node goes to the first bucket whose node is nearer to its home than the new one
would be. The node found there is carried on by the same rule, and so on up to an empty
bucket. A distance above `Node.maxDistance` is cut to it, and reaching it turns the
index to linear probing, under which a new node takes the first bucket without a live one.
-/

namespace Index

variable (ix : Index)

/-- The first bucket from `b` on without a live node. -/
def freeFrom : (fuel b : Nat) → Nat
  | 0, b => b
  | fuel + 1, b => if (ix.node b).isLive then freeFrom fuel (ix.next b) else b

/-- Adds a node under linear probing. Its distance tells only whether it is at home. -/
def insertLinear (hash : UInt64) (pos : Nat) : Index :=
  let start := ix.home hash
  let b := ix.freeFrom ix.bucketCount start
  let tombstones := if (ix.node b).isTombstone then ix.tombstones - 1 else ix.tombstones
  let distance := if b = start then 0 else Node.maxDistance
  { ix with tombstones }.setNode b (.make (Node.tiny hash) distance pos)

/-- The first bucket from `b` on whose node is nearer to its home than `dist`, which
    grows by one from bucket to bucket, and the distance at that bucket. -/
def seatFrom : (fuel b dist : Nat) → Nat × Nat
  | 0, b, dist => (b, dist)
  | fuel + 1, b, dist =>
    if dist ≤ (ix.node b).distance then seatFrom fuel (ix.next b) (dist + 1) else (b, dist)

/-- Seats the node `n`, which was displaced from bucket `b` at distance `dist`, and the
    nodes displaced by it in turn. -/
def displace (ix : Index) : (fuel b : Nat) → (n : Node) → (dist : Int) → Index
  | 0, _, _, _ => ix
  | fuel + 1, b, n, dist =>
    let b := ix.next b
    let dist := dist + 1
    let here := ix.node b
    if dist ≤ here.distance then displace ix fuel b n dist
    else
      let dist := if ix.maxDist < dist then min dist Node.maxDistance else dist
      let ix := { ix with maxDist := max ix.maxDist dist.toNat }.setNode b (n.withDistance dist)
      if here.isEmpty then ix else displace ix fuel b here here.distance

/-- Adds a node in distance order. -/
def insertOrdered (hash : UInt64) (pos : Nat) : Index :=
  let (b, dist) := ix.seatFrom ix.bucketCount (ix.home hash) 0
  let dist := min dist Node.maxDistance
  let here := ix.node b
  let ix := { ix with maxDist := max ix.maxDist dist }.setNode b
    (.make (Node.tiny hash) dist pos)
  if here.isEmpty then ix else ix.displace ix.bucketCount b here here.distance

/-- Adds a node for a position that no node holds. The index must have room for it. -/
def insertNode (hash : UInt64) (pos : Nat) : Index :=
  let ix := { ix with size := ix.size + 1 }
  if ix.isLinear then ix.insertLinear hash pos else ix.insertOrdered hash pos

end Index

end OrderedHash
