import OrderedHash.Table.Basic

namespace OrderedHash

/-!
# Checking a table

The check compares the number of nodes with the number of items, passes once over the live
nodes, and looks the key of every item up. The pass marks the position of each node and
fails at a node whose position is marked already or belongs to no item, and at one that has
not the tiny hash of its key.
-/

namespace Table

variable {K V : Type} (κ : Keying K V) (t : Table V)

/-- How far a pass over the live nodes has come. -/
structure Scan where
  /-- The marks of the positions. -/
  seen : Array Bool
  /-- Whether no node was wrong. -/
  ok : Bool

/-- Goes on to the next live node. -/
def visit (s : Scan) (n : Node) : Scan :=
  if t.size ≤ n.pos || s.seen.getD n.pos false then { s with ok := false }
  else
    ⟨s.seen.setIfInBounds n.pos true, s.ok && n.tinyHash == Node.tiny (hashAt κ t.items n.pos)⟩

/-- The pass over the live nodes, in the order of their buckets. -/
def scan : Scan :=
  (t.index.liveNodes.map Prod.snd).foldl (t.visit κ) ⟨Array.replicate t.size false, true⟩

/-- Whether the key at a position is found there. -/
def isFoundAt (p : Nat) : Bool :=
  match t.items[p]? with
  | some v => t.find κ (κ.key v) == some p
  | none => false

/-- Whether the index and the items agree. -/
def checkConsistency : Bool :=
  t.index.size == t.size && (t.scan κ).ok && (List.range t.size).all (t.isFoundAt κ)

end Table

end OrderedHash
