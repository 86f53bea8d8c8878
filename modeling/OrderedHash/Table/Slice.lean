import OrderedHash.Table.Search
import OrderedHash.Table.Sort

namespace OrderedHash

/-!
# Slices

A slice is a range of the positions of a table, on which positions count from its start.
A slice of a slice is again a range of the table.
-/

/-- The positions from `first` up to `last`. -/
structure Slice where
  first : Nat
  last : Nat

namespace Slice

variable {K V C σ : Type} (s : Slice)

/-- The slice of the given ends in a table of `bound` items. -/
def ofRange (first last bound : Nat) : Except Fault Slice :=
  if first ≤ last ∧ last ≤ bound then .ok ⟨first, last⟩ else .error .invalidRange

/-- The slice of a whole table. -/
def whole (t : Table V) : Slice := ⟨0, t.size⟩

/-- The number of positions. -/
def size : Nat := s.last - s.first

/-- The part of a slice between two of its positions. -/
def range (first last : Nat) : Except Fault Slice :=
  if first ≤ last ∧ last ≤ s.size then .ok ⟨s.first + first, s.first + last⟩
  else .error .invalidRange

/-- The items of the slice in order. -/
def items (t : Table V) : List V := t.itemsIn s.first s.last

/-- The item at a position of the slice, or nothing past its end. -/
def item? (t : Table V) (i : Nat) : Option V :=
  if i < s.size then t.items[s.first + i]? else none

/-- The item at a position that has to be in the slice. -/
def itemAt (t : Table V) (i : Nat) : Except Fault V :=
  match s.item? t i with
  | some v => .ok v
  | none => .error .positionOutOfRange

/-- Changes the item at a position that has to be in the slice. -/
def modifyAt (i : Nat) (f : V → V) : Action (Table V) Unit := do
  Table.checkPosition i s.size
  modify fun t => { t with items := t.items.modify (s.first + i) f }

/-- Searches the slice by halves. -/
def bisect (t : Table V) (compare : V → Action σ Ordering) : Action σ (Nat × Bool) := do
  let (pos, found) ← Table.bisect t.items compare s.first s.last
  return (pos - s.first, found)

/-- Searches the slice by halves for a key under an ordering of keys. -/
def binarySearchKeys (κ : Keying K V) (t : Table V) (less : K → K → Action σ Bool) (k : K) :
    Action σ (Nat × Bool) :=
  s.bisect t fun v => Table.compareKeys less k (κ.key v)

/-- The number of leading items of the slice that pass a test, if these are all that do. -/
def partitionPoint (t : Table V) (test : V → Action σ Bool) : Action σ Nat :=
  return (← Table.partitionFrom t.items test s.first s.size) - s.first

/-- Sorts the items of the slice. -/
def sortBy (κ : Keying K V) (less : V → V → Action σ Bool) : Action (Table V × σ) Unit :=
  Table.sortRange κ s.first s.last less

/-- Sorts the items of the slice by a key computed for each comparison. -/
def sortByKey (κ : Keying K V) (less : C → C → Bool) (f : V → Action σ C) :
    Action (Table V × σ) Unit :=
  s.sortBy κ (Table.lessByKey less f)

/-- Reverses the items of the slice. -/
def reverse (κ : Keying K V) (t : Table V) : Table V := t.reverseRange κ s.first s.last

end Slice

end OrderedHash
