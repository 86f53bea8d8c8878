import OrderedHash.Index.LoadFactor
import OrderedHash.Index.Node

namespace OrderedHash

/-!
# The slot index

A slot index maps hash values to positions. Its buckets form a ring in which a node
lies at or after its home bucket, the one its hash value points to. The index does not
know the keys: callers supply the hash values of positions.

While every distance is below `Node.maxDistance` the nodes of a run of buckets are
ordered by their home buckets and each holds its distance from home. Once a node has
reached that distance the index probes linearly: nodes take the first free bucket and
leave tombstones, until the index is rebuilt.

A new index is *null*: it has a single bucket, which stays empty.
-/

/-- A table from hash values to positions. -/
structure Index where
  /-- The ring of buckets. -/
  buckets : Array Node
  /-- The number of live nodes. -/
  size : Nat
  /-- The number of tombstones. -/
  tombstones : Nat
  /-- The greatest distance given to a node since the index was last cleared, at least one. -/
  maxDist : Nat
  /-- The maximum load factor. -/
  loadFactor : LoadFactor

namespace Index

/-- The distance above which the load factor makes an index grow. -/
def growDistance : Nat := 7

/-- The null index with the given maximum load factor. -/
def null (f : LoadFactor) : Index := ⟨#[Node.empty], 0, 0, 1, f⟩

instance : Inhabited Index := ⟨null .standard⟩

variable (ix : Index)

/-- The number of buckets, one for a null index. -/
def bucketCount : Nat := ix.buckets.size

/-- Whether the index has only the bucket that stays empty. -/
def isNull : Bool := ix.bucketCount ≤ 1

/-- Whether the index probes linearly. -/
def isLinear : Bool := Node.maxDistance ≤ ix.maxDist

/-- The number of positions from which the index is too full under its load factor. -/
def capacity : Nat := if ix.isNull then 0 else ix.loadFactor.target ix.bucketCount

/-- The number of used buckets from which the index is too full in any case. -/
def maxFill : Nat := if ix.isNull then 0 else LoadFactor.fillLimit ix.bucketCount

/-- The node in bucket `b`. -/
def node (b : Nat) : Node := ix.buckets.getD b .empty

/-- The index with another node in bucket `b`. -/
def setNode (b : Nat) (n : Node) : Index :=
  { ix with buckets := ix.buckets.setIfInBounds b n }

/-- The bucket a hash value points to. -/
def home (hash : UInt64) : Nat := hash.toNat % ix.bucketCount

/-- The bucket after `b` on the ring. -/
def next (b : Nat) : Nat := (b + 1) % ix.bucketCount

/-- The live nodes with their buckets, in bucket order. -/
def liveNodes : List (Nat × Node) :=
  (ix.buckets.toList.zipIdx.map fun (n, b) => (b, n)).filter fun (_, n) => n.isLive

/-- The index with `buckets` empty buckets and no node. -/
def emptied (buckets : Nat) : Index :=
  { ix with buckets := Array.replicate buckets .empty, size := 0, tombstones := 0, maxDist := 1 }

/-- Removes all nodes and keeps the buckets. -/
def clear : Index := ix.emptied ix.bucketCount

/-- Removes all nodes and the buckets with them. -/
def release : Index := null ix.loadFactor

/-- Changes the maximum load factor; the nodes stay where they are. -/
def setLoadFactor (f : LoadFactor) : Index := { ix with loadFactor := f }

/-- The part of the buckets that is live, as a single-precision bit pattern. -/
def fillRatio : UInt32 :=
  if ix.isNull then 0 else ((Binary.single.roundRatio ix.size ix.bucketCount).getD 0).toUInt32

/-! ### What the changes do to the buckets -/

@[simp] theorem bucketCount_setNode (b : Nat) (n : Node) :
    (ix.setNode b n).bucketCount = ix.bucketCount := by
  simp [setNode, bucketCount]

/-- Setting a node changes the bucket it is set in, and no other. -/
theorem node_setNode (b c : Nat) (n : Node) :
    (ix.setNode b n).node c = if b = c ∧ b < ix.bucketCount then n else ix.node c := by
  simp only [setNode, node, bucketCount, Array.getD_eq_getD_getElem?, Array.getElem?_setIfInBounds]
  by_cases h : b = c
  · subst h
    by_cases hb : b < ix.buckets.size <;> simp [hb]
  · simp [h]

@[simp] theorem bucketCount_emptied (buckets : Nat) :
    (ix.emptied buckets).bucketCount = buckets := by
  simp [emptied, bucketCount]

@[simp] theorem node_emptied (buckets b : Nat) : (ix.emptied buckets).node b = .empty := by
  by_cases h : b < buckets <;> simp [emptied, node, h]

@[simp] theorem bucketCount_clear : ix.clear.bucketCount = ix.bucketCount :=
  ix.bucketCount_emptied ix.bucketCount

/-- A home bucket is a bucket. -/
theorem home_lt (hash : UInt64) (h : 0 < ix.bucketCount) : ix.home hash < ix.bucketCount :=
  Nat.mod_lt _ h

/-- The ring has no bucket after its last one but the first. -/
theorem next_lt (b : Nat) (h : 0 < ix.bucketCount) : ix.next b < ix.bucketCount :=
  Nat.mod_lt _ h

end Index

end OrderedHash
