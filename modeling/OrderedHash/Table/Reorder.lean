import OrderedHash.Index.Reorder
import OrderedHash.Table.Basic

namespace OrderedHash

/-!
# Reordering the items of a table

A range of items is permuted in the store, and the index follows: it is built anew when
the range is more than half of the items, and otherwise the nodes of the range are
renumbered in place.
-/

namespace Table

variable {K V : Type} (κ : Keying K V) (t : Table V)

/-- Reorders the items from `first` on: position `first + i` receives the item that was
    at the position `order[i]`. -/
def permuteRange (first : Nat) (order : List Nat) : Table V :=
  let count := order.length
  let middle := order.filterMap fun p => t.items[p]?
  let items := t.items.extract 0 first ++ middle.toArray ++ t.items.extract (first + count)
  if t.size / 2 < count then ⟨items, t.index.rebuild t.size (hashAt κ items)⟩
  else ⟨items, t.index.permute first order (hashAt κ t.items)⟩

/-- Reverses the items from `first` up to `last`. -/
def reverseRange (first last : Nat) : Table V :=
  if last - first < 2 then t
  else if first = 0 ∧ last = t.size then
    ⟨t.items.reverse, t.index.reversePositions t.size⟩
  else t.permuteRange κ first (List.range' first (last - first)).reverse

/-- Takes the item at `source` out and puts it back at `target`. -/
def moved (source target : Nat) : Table V :=
  match t.items[source]? with
  | none => t
  | some v =>
    ⟨(t.items.eraseIdxIfInBounds source).insertIdxIfInBounds target v,
      t.index.move source target (hashAt κ t.items)⟩

/-- Moves the item at `source` to `target`, shifting the items in between by one. -/
def moveIndex (source target : Nat) : Action (Table V) Unit := do
  let size := (← get).size
  checkPosition source size
  checkPosition target size
  if source ≠ target then modify fun t => t.moved κ source target

/-- Exchanges the items at two positions. -/
def swapIndices (p q : Nat) : Action (Table V) Unit := do
  let size := (← get).size
  checkPosition p size
  checkPosition q size
  if p ≠ q then
    modify fun t =>
      ⟨t.items.swapIfInBounds p q, t.index.exchange p q (hashAt κ t.items)⟩

end Table

end OrderedHash
