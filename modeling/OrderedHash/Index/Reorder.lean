import OrderedHash.Index.Renumber

namespace OrderedHash

/-!
# Reordering positions

The nodes concerned are found before any of them is renumbered, since a lookup of a
position must not meet another node that already holds it.
-/

namespace Index

variable (ix : Index)

/-- Moves position `source` to `target`, shifting the positions in between by one. The
    node moved holds a position of its own meanwhile. -/
def move (source target : Nat) (hashAt : Nat → UInt64) : Index :=
  match ix.findNode (hashAt source) source with
  | none => ix
  | some b =>
    let lifted := ix.setPosition b Node.movingPosition
    let shifted :=
      if source < target then lifted.shiftPositions (source + 1) (target + 1) (-1) hashAt
      else lifted.shiftPositions target source 1 hashAt
    shifted.setPosition b target

/-- Exchanges two positions. -/
def exchange (p q : Nat) (hashAt : Nat → UInt64) : Index :=
  match ix.findNode (hashAt p) p, ix.findNode (hashAt q) q with
  | some b, some c => (ix.setPosition b q).setPosition c p
  | _, _ => ix

/-- Reorders the positions from `first` on: position `first + i` is given to the node
    that held the position `order[i]`. -/
def permute (first : Nat) (order : List Nat) (hashAt : Nat → UInt64) : Index :=
  let buckets := (List.range' first order.length).map fun p => ix.findNode (hashAt p) p
  (order.zipIdx first).foldl (fun ix (source, target) =>
    match buckets[source - first]? with
    | some (some b) => ix.setPosition b target
    | _ => ix) ix

end Index

end OrderedHash
