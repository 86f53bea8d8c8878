import OrderedHash.Index.Remove
import OrderedHash.Table.Basic

namespace OrderedHash

/-!
# Removing items from a table

A single item is removed either by shifting the items after it down or by giving its
place to the last one. A range is removed at once; when it is more than half of the
items the index is built anew, and otherwise its nodes are removed one by one.
-/

namespace Table

variable {K V : Type} (κ : Keying K V) (t : Table V)

/-- Removes the item at a position and shifts those after it down. -/
def removeShifting (pos : Nat) : Table V :=
  ⟨t.items.eraseIdxIfInBounds pos, t.index.removeShifting pos t.size (hashAt κ t.items)⟩

/-- Removes the item at a position and moves the last one there. -/
def removeSwapping (pos : Nat) : Table V :=
  let last := t.items.back?
  let items := (match last with
    | some v => t.items.setIfInBounds pos v
    | none => t.items).pop
  ⟨items, t.index.removeSwapping pos t.size (hashAt κ t.items)⟩

/-- The two ways to fill the place of an item that is removed. -/
inductive Removal where
  /-- The items after it move down by one. -/
  | shift
  /-- The last item moves there. -/
  | swap

/-- Removes the item at a position. -/
def removeAt (way : Removal) (pos : Nat) : Table V :=
  match way with
  | .shift => t.removeShifting κ pos
  | .swap => t.removeSwapping κ pos

/-- Removes the item at a position; answers it, or nothing past the end. -/
def takeAt (way : Removal) (pos : Nat) : Action (Table V) (Option V) := do
  match (← get).items[pos]? with
  | none => return none
  | some v =>
    modify fun t => t.removeAt κ way pos
    return some v

/-- Removes the item of a key; answers it, or nothing if the key is absent. -/
def takeKey (way : Removal) (k : K) : Action (Table V) (Option V) := do
  match ← Action.ofExcept ((← get).lookup κ k) with
  | none => return none
  | some pos => takeAt κ way pos

/-- Removes the last item and answers it. -/
def pop : Action (Table V) (Option V) := do takeAt κ .swap ((← get).size - 1)

/-! ### Ranges -/

/-- Removes the items from `first` up to `last`. -/
def removeRange (first last : Nat) : Table V :=
  let items := t.items.extract 0 first ++ t.items.extract last
  if t.size / 2 < last - first then
    ⟨items, t.index.rebuild items.size (hashAt κ items)⟩
  else
    ⟨items, t.index.removeRange first last t.size (hashAt κ t.items)⟩

/-- Removes a range of items. -/
def eraseRange (first last : Nat) : Action (Table V) Unit := do
  checkRange first last (← get).size
  modify fun t => t.removeRange κ first last

/-- Removes a range of items and answers them in order. -/
def drain (first last : Nat) : Action (Table V) (List V) := do
  let taken := (← get).itemsIn first last
  eraseRange κ first last
  return taken

/-- Removes the items from position `count` on. -/
def truncate (count : Nat) : Action (Table V) Unit := do
  let size := (← get).size
  if count < size then eraseRange κ count size

/-- Removes the items from position `pos` on; answers a table of them, which has the same
    load factor. -/
def splitOff (pos : Nat) : Action (Table V) (Table V) := do
  let t ← get
  Action.demand (pos ≤ t.size) .splitOutOfRange
  let items := t.items.extract pos
  set (t.removeRange κ pos t.size)
  return ⟨items, (Index.null t.index.loadFactor).rebuild items.size (hashAt κ items)⟩

end Table

end OrderedHash
