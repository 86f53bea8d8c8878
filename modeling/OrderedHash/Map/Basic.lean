import OrderedHash.Table.Place
import OrderedHash.Table.Remove
import OrderedHash.Table.Sort

namespace OrderedHash

/-!
# Ordered maps

An ordered map is an ordered table of keys with their values. Giving a value to a key
that is present changes neither the stored key nor its place, unless a place is asked for.
-/

/-- Keys with their values, in an order that does not depend on the keys. -/
abbrev Map (K T : Type) := Table (K × T)

namespace Map

variable {K T C σ : Type} (κ : Hashing K)

/-! ### Lookup -/

/-- The position of a key. -/
def indexOf? (m : Map K T) (k : K) : Except Fault (Option Nat) := m.lookup κ.map k

/-- The position and the item of a key. -/
def getFull? (m : Map K T) (k : K) : Except Fault (Option (Nat × K × T)) :=
  m.lookupItem κ.map k

/-- The value of a key. -/
def get? (m : Map K T) (k : K) : Except Fault (Option T) :=
  return (← m.getFull? κ k).map fun found => found.2.2

/-- The value of a key that has to be present. -/
def valueOf (m : Map K T) (k : K) : Except Fault T := do
  match ← m.get? κ k with
  | some v => return v
  | none => throw .keyNotFound

/-- Changes the value at a position. -/
def setValue (m : Map K T) (pos : Nat) (v : T) : Map K T :=
  { m with items := m.items.modify pos fun item => (item.1, v) }

/-- Changes the value of a key that has to be present. -/
def assign (k : K) (v : T) : Action (Map K T) Unit := do
  match ← Action.ofExcept ((← get).indexOf? κ k) with
  | some pos => modify fun m => m.setValue pos v
  | none => throw .keyNotFound

/-- Changes the value at a position that has to be below the size. -/
def assignAt (pos : Nat) (v : T) : Action (Map K T) Unit := do
  Table.checkPosition pos (← get).size
  modify fun m => m.setValue pos v

/-! ### Insertion -/

/-- Adds a key with its value at the end unless the key is present. Answers the position
    of the key and whether it was added. -/
def insert (k : K) (v : T) : Action (Map K T) (Nat × Bool) := Table.insert κ.map (k, v)

/-- Adds a key as `insert` does, but builds the item in the store before the lookup. -/
def emplace (k : K) (v : T) : Action (Map K T) (Nat × Bool) := Table.emplace κ.map (k, v)

/-- Adds a key at the end or gives it a new value. Answers the position of the key and
    the value before. -/
def insertFull (k : K) (v : T) : Action (Map K T) (Nat × Option T) := do
  let (pos, old) ← Table.put κ.map (k, v)
  return (pos, old.map Prod.snd)

/-- Adds a key at the end or gives it a new value. Answers the position of the key and
    whether it was added. -/
def insertOrAssign (k : K) (v : T) : Action (Map K T) (Nat × Bool) := do
  let (pos, old) ← insertFull κ k v
  return (pos, old.isNone)

/-- The value of a key, which is added at the end with the value `d` if it is absent. -/
def valueOrInsert (k : K) (d : T) : Action (Map K T) T := do
  let (pos, _) ← insert κ k d
  return (← Action.ofExcept ((← get).itemAt pos)).2

/-- Adds a key before the first one that is not less than it, or gives it a new value in
    its place. Answers the position of the key and the value before. -/
def insertSorted (less : K → K → Action σ Bool) (k : K) (v : T) :
    Action (Map K T × σ) (Nat × Option T) := do
  let (pos, old) ← Table.insertSorted κ.map (fun item => less item.1 k) (k, v)
  return (pos, old.map Prod.snd)

/-- Adds an item before the first one that is not less than it, or gives its key a new
    value in its place. Answers the position of the key and the value before. -/
def insertSortedBy (less : K × T → K × T → Action σ Bool) (k : K) (v : T) :
    Action (Map K T × σ) (Nat × Option T) := do
  let (pos, old) ← Table.insertSorted κ.map (fun item => less item (k, v)) (k, v)
  return (pos, old.map Prod.snd)

/-- Adds a key before position `target`, or moves it there with a new value. Answers the
    position of the key and the value before. -/
def insertBefore (target : Nat) (k : K) (v : T) : Action (Map K T) (Nat × Option T) := do
  let (pos, old) ← Table.insertBefore κ.map target (k, v)
  return (pos, old.map Prod.snd)

/-- Adds a key at position `target`, or moves it to that very position with a new value.
    Answers the value before. -/
def shiftInsert (target : Nat) (k : K) (v : T) : Action (Map K T) (Option T) :=
  return (← Table.shiftInsert κ.map target (k, v)).map Prod.snd

/-! ### Removal -/

/-- Removes a key and answers its value, or nothing if it is absent. -/
def remove (way : Table.Removal) (k : K) : Action (Map K T) (Option T) :=
  return (← Table.takeKey κ.map way k).map Prod.snd

/-! ### Order and search -/

/-- Sorts the items by a comparison of items. -/
def sortBy (less : K × T → K × T → Action σ Bool) : Action (Map K T × σ) Unit := do
  Table.sortRange κ.map 0 (← get).1.size less

/-- Sorts the items by a comparison of keys. -/
def sortKeys (less : K → K → Action σ Bool) : Action (Map K T × σ) Unit :=
  sortBy κ fun a b => less a.1 b.1

/-- Sorts the items by what a function gives for them at each comparison. -/
def sortByKey (less : C → C → Bool) (f : K × T → Action σ C) : Action (Map K T × σ) Unit :=
  sortBy κ (Table.lessByKey less f)

/-- Sorts the items by what a function gives for them, which is asked once for each. -/
def sortByCachedKey (less : C → C → Bool) (f : K × T → Action σ C) :
    Action (Map K T × σ) Unit := do
  Table.sortRangeByCachedKey κ.map 0 (← get).1.size less f

/-- Searches by halves for a key under an ordering of keys. -/
def binarySearchKeys (m : Map K T) (less : K → K → Action σ Bool) (k : K) :
    Action σ (Nat × Bool) :=
  Table.bisect m.items (fun item => Table.compareKeys less k item.1) 0 m.size

/-- Searches by halves for an item on which a comparison gives equality. -/
def binarySearchBy (m : Map K T) (compare : K × T → Action σ Ordering) : Action σ (Nat × Bool) :=
  Table.bisect m.items compare 0 m.size

end Map

end OrderedHash
