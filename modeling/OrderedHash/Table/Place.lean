import OrderedHash.Table.Insert
import OrderedHash.Table.Reorder
import OrderedHash.Table.Search

namespace OrderedHash

/-!
# Adding items at a position

An item whose key is absent is added at the position asked for. One whose key is present
refreshes the stored item, which is then moved to where it was asked for.
-/

namespace Table

variable {K V σ : Type} (κ : Keying K V)

/-- The number of leading items that pass a test, if these are all that pass it. -/
def partitionPoint (test : V → Action σ Bool) : Action (Table V × σ) Nat := do
  let (t, _) ← get
  Action.onSnd (partitionFrom t.items test 0 t.size)

/-- Adds an item before the first one that is not `before` it, or refreshes the item that
    has its key. Answers the position of the key and the item that was refreshed. -/
def insertSorted (before : V → Action σ Bool) (v : V) : Action (Table V × σ) (Nat × Option V) := do
  let (t, _) ← get
  let hash ← Action.ofExcept (κ.accept (κ.key v))
  match t.findHash κ hash (κ.key v) with
  | some pos =>
    Action.onFst (modify fun t => t.refreshAt κ pos v)
    return (pos, t.items[pos]?)
  | none =>
    let pos ← partitionPoint before
    Action.onFst (addAt κ pos hash v)
    return (pos, none)

/-- Adds an item before the one at position `target`, or refreshes and moves the item
    that has its key there. Answers the position of the key and the item refreshed. -/
def insertBefore (target : Nat) (v : V) : Action (Table V) (Nat × Option V) := do
  checkPosition target ((← get).size + 1)
  onKey κ (κ.key v)
    (fun pos => do
      let old := (← get).items[pos]?
      modify fun t => t.refreshAt κ pos v
      -- the item leaves a place before the target, which moves down by one
      let target := if pos < target then target - 1 else target
      moveIndex κ pos target
      return (target, old))
    fun hash => do
      addAt κ target hash v
      return (target, none)

/-- Adds an item at position `target`, or refreshes the item that has its key and moves
    it to that very position. Answers the item that was refreshed. -/
def shiftInsert (target : Nat) (v : V) : Action (Table V) (Option V) :=
  onKey κ (κ.key v)
    (fun pos => do
      checkPosition target (← get).size
      let old := (← get).items[pos]?
      modify fun t => t.refreshAt κ pos v
      moveIndex κ pos target
      return old)
    fun hash => do
      checkPosition target ((← get).size + 1)
      addAt κ target hash v
      return none

end Table

end OrderedHash
