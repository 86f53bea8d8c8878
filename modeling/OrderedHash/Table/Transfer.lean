import OrderedHash.Index.Transfer
import OrderedHash.Table.Insert

namespace OrderedHash

/-!
# Exchanges between two tables

The operations below concern a container and where its new contents come from: another
container or the container itself, in which case nothing changes.
-/

/-- Where an operation on a container takes from. -/
inductive Origin where
  | self
  | other

/-- What is left in a container of an item that was moved to another one: of an item that was
    added there, and of an item by which the one with its key was refreshed. -/
structure Remnant (V : Type) where
  added : V → V
  refreshing : V → V

/-- What is left of the items of maps, by what moving leaves of keys and of values. Of an item
    by which another one was refreshed only the value is gone. -/
def Map.remnant {K T : Type} (key : K → K) (value : T → T) : Remnant (K × T) where
  added item := (key item.1, value item.2)
  refreshing item := (item.1, value item.2)

/-- What is left of the keys of sets. A key that the other set holds is not moved. -/
def Set.remnant {K : Type} (key : K → K) : Remnant K := ⟨key, id⟩

namespace Table

variable {K V : Type} (κ : Keying K V)

/-- Moves the item at a position of the source to the end, or refreshes the item that has its
    key. Nothing is moved if the hash function fails on the key. -/
def giveAway (left : Remnant V) (v : V) (pos : Nat) : Action (Table V × Table V) Unit := do
  let (_, old) ← Action.onFst (put κ v)
  let rest := if old.isSome then left.refreshing v else left.added v
  modify fun (t, other) => (t, other.setItem pos rest)

/-- Moves the items of the source in turn, and clears the source after the last. -/
def append (left : Remnant V) : Origin → Action (Table V × Table V) Unit
  | .self => pure ()
  | .other => do
    let (t, other) ← get
    set (t.reserve κ (t.size + other.size), other)
    Action.forEach (fun e => giveAway κ left e.1 e.2) other.items.toList.zipIdx
    modify fun (t, other) => (t, other.clear)

/-- The pair of tables after the first was made a copy of the source. -/
def copyFrom : Origin → Table V × Table V → Table V × Table V
  | .self, pair => pair
  | .other, (_, other) => (other, other)

/-- The pair of tables after the first took over the items of the source, which is left
    empty. The buckets change owner only if the two tables share their storage. -/
def moveFrom (sharedStorage : Bool) : Origin → Table V × Table V → Table V × Table V
  | .self, pair => pair
  | .other, (_, other) =>
    let (index, left) := other.index.takeOver sharedStorage
    (⟨other.items, index⟩, ⟨#[], left.clear⟩)

/-- The pair of tables after they exchanged their contents. -/
def swapWith : Origin → Table V × Table V → Table V × Table V
  | .self, pair => pair
  | .other, (t, other) => (other, t)

end Table

end OrderedHash
