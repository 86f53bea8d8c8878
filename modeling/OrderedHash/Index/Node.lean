namespace OrderedHash

/-!
# Nodes of the slot index

A node is one word of 64 bits. From the low end it holds a position (48 bits), the
signed distance of the node from its home bucket (8 bits) and a tiny hash (8 bits).
Two distances are codes: `-1` marks an empty bucket and `127` a tombstone.
-/

/-- One word of the slot index. -/
structure Node where
  word : UInt64
  deriving DecidableEq

namespace Node

/-- The bits of a word that hold the position. -/
def positionMask : UInt64 := 0x0000ffffffffffff

/-- The bits of a word that hold the distance. -/
def distanceMask : UInt64 := 0x00ff000000000000

/-- The position held by empty buckets and tombstones, which no item has. -/
def noPosition : Nat := 0xffffffffffff

/-- The position held by a node while the positions around its own are shifted. -/
def movingPosition : Nat := 0xfffffffffffe

/-- The greatest distance a live node can hold. -/
def maxDistance : Nat := 126

/-- The distance code of a tombstone. -/
def tombstoneDistance : Int := 127

/-- The distance code of an empty bucket. -/
def emptyDistance : Int := -1

/-- The highest byte of a hash value, except that zero, which marks a node that is
    not live, becomes one. -/
def tiny (hash : UInt64) : UInt8 :=
  let top := (hash >>> 56).toUInt8
  if top = 0 then 1 else top

/-- A distance in the place it has within a word, cut to eight bits. -/
def encodeDistance (distance : Int) : UInt64 :=
  (Int8.ofInt distance).toUInt8.toUInt64 <<< 48

/-- A position in the place it has within a word, cut to 48 bits. -/
def encodePosition (pos : Nat) : UInt64 := pos.toUInt64 &&& positionMask

/-- The node with the given tiny hash, distance and position. -/
def make (tinyHash : UInt8) (distance : Int) (pos : Nat) : Node :=
  ⟨encodePosition pos ||| encodeDistance distance ||| (tinyHash.toUInt64 <<< 56)⟩

/-- The node of an empty bucket. -/
def empty : Node := make 0 emptyDistance noPosition

/-- The node left where a node was removed under linear probing. -/
def tombstone : Node := make 0 tombstoneDistance noPosition

instance : Inhabited Node := ⟨empty⟩

/-- The position held by a node. -/
def pos (n : Node) : Nat := (n.word &&& positionMask).toNat

/-- The tiny hash held by a node. -/
def tinyHash (n : Node) : UInt8 := (n.word >>> 56).toUInt8

/-- The distance held by a node, read as a signed byte. -/
def distance (n : Node) : Int := (n.word >>> 48).toUInt8.toInt8.toInt

/-- Whether the node marks an empty bucket. -/
def isEmpty (n : Node) : Bool := n.distance == emptyDistance

/-- Whether the node is a tombstone. -/
def isTombstone (n : Node) : Bool := n.distance == tombstoneDistance

/-- Whether the node stands for an item. -/
def isLive (n : Node) : Bool := !n.isEmpty && !n.isTombstone

/-- Whether the node holds exactly the position `p`, which is not cut to 48 bits. -/
def holds (n : Node) (p : Nat) : Bool := n.pos == p

/-- The node with another distance. -/
def withDistance (n : Node) (distance : Int) : Node :=
  ⟨(n.word &&& ~~~distanceMask) ||| encodeDistance distance⟩

/-- The node with another position. -/
def withPosition (n : Node) (pos : Nat) : Node :=
  ⟨(n.word &&& ~~~positionMask) ||| encodePosition pos⟩

end Node

end OrderedHash
