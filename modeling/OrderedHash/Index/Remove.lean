import OrderedHash.Index.Erase
import OrderedHash.Index.Renumber

namespace OrderedHash

/-!
# Removing positions

A position is removed with its node, and the positions after it are shifted down so that
none is missing; or else the last position takes its place.
-/

namespace Index

variable (ix : Index)

/-- Removes the node of position `pos`, whose hash value is `hash`. -/
def unlink (hash : UInt64) (pos : Nat) : Index :=
  match ix.findNode hash pos with
  | some b => ix.eraseNode b
  | none => ix

/-- Removes position `pos` from an index of the positions below `count`, shifting those
    after it down by one. -/
def removeShifting (pos count : Nat) (hashAt : Nat → UInt64) : Index :=
  (ix.unlink (hashAt pos) pos).shiftPositions (pos + 1) count (-1) hashAt

/-- Removes position `pos` from an index of the positions below `count` and gives it to
    the last of them. -/
def removeSwapping (pos count : Nat) (hashAt : Nat → UInt64) : Index :=
  let last := count - 1
  let rest := ix.unlink (hashAt pos) pos
  if pos = last then rest else rest.renumber (hashAt last) last pos

/-- Removes the positions from `first` up to `last` one by one from an index of the
    positions below `count`, and shifts those after them down together. -/
def removeRange (first last count : Nat) (hashAt : Nat → UInt64) : Index :=
  let rest := (List.range' first (last - first)).foldl (fun ix p => ix.unlink (hashAt p) p) ix
  rest.shiftPositions last count (-((last - first : Nat) : Int)) hashAt

end Index

end OrderedHash
