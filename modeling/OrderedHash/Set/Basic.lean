import OrderedHash.Table.Place
import OrderedHash.Table.Remove
import OrderedHash.Table.Sort

namespace OrderedHash

/-!
# Ordered sets

An ordered set is an ordered table whose items are the keys themselves. Adding a key that
is present leaves the stored one, unless it is to be replaced.
-/

/-- Keys in an order that does not depend on them. -/
abbrev Set (K : Type) := Table K

namespace Set

variable {K C σ : Type} (κ : Hashing K)

/-! ### Lookup -/

/-- The position of a key. -/
def indexOf? (s : Set K) (k : K) : Except Fault (Option Nat) := s.lookup κ.set k

/-- The position of a key and the stored key. -/
def getFull? (s : Set K) (k : K) : Except Fault (Option (Nat × K)) := s.lookupItem κ.set k

/-- The stored key that equals `k`. -/
def get? (s : Set K) (k : K) : Except Fault (Option K) :=
  return (← s.getFull? κ k).map Prod.snd

/-! ### Insertion -/

/-- Adds a key at the end unless it is present. Answers its position and whether it was
    added. -/
def insert (k : K) : Action (Set K) (Nat × Bool) := Table.insert κ.set k

/-- Adds a key as `insert` does, but puts it in the store before the lookup. -/
def emplace (k : K) : Action (Set K) (Nat × Bool) := Table.emplace κ.set k

/-- Adds a key at the end, or puts it in the place of the stored one, which is answered. -/
def replace (k : K) : Action (Set K) (Option K) :=
  Table.onKey κ.set k
    (fun pos => do
      let old := (← get).items[pos]?
      modify fun s => s.setItem pos k
      return old)
    fun hash => do
      let pos := (← get).size
      Table.addAt κ.set pos hash k
      return none

/-- Adds a key before the first one that is not less than it, unless it is present. -/
def insertSorted (less : K → K → Action σ Bool) (k : K) : Action (Set K × σ) (Nat × Bool) := do
  let (pos, old) ← Table.insertSorted κ.set (fun stored => less stored k) k
  return (pos, old.isNone)

/-- Adds a key before position `target`, or moves the stored one there. -/
def insertBefore (target : Nat) (k : K) : Action (Set K) (Nat × Bool) := do
  let (pos, old) ← Table.insertBefore κ.set target k
  return (pos, old.isNone)

/-- Adds a key at position `target`, or moves the stored one to that very position.
    Answers whether the key was added. -/
def shiftInsert (target : Nat) (k : K) : Action (Set K) Bool :=
  return (← Table.shiftInsert κ.set target k).isNone

/-! ### Removal -/

/-- Removes a key; answers whether it was present. -/
def remove (way : Table.Removal) (k : K) : Action (Set K) Bool :=
  return (← Table.takeKey κ.set way k).isSome

/-- Removes a key and answers the stored one, or nothing if it is absent. -/
def take (way : Table.Removal) (k : K) : Action (Set K) (Option K) := Table.takeKey κ.set way k

/-! ### Order and search -/

/-- Sorts the keys. -/
def sortBy (less : K → K → Action σ Bool) : Action (Set K × σ) Unit := do
  Table.sortRange κ.set 0 (← get).1.size less

/-- Sorts the keys by what a function gives for them at each comparison. -/
def sortByKey (less : C → C → Bool) (f : K → Action σ C) : Action (Set K × σ) Unit :=
  sortBy κ (Table.lessByKey less f)

/-- Sorts the keys by what a function gives for them, which is asked once for each. -/
def sortByCachedKey (less : C → C → Bool) (f : K → Action σ C) : Action (Set K × σ) Unit := do
  Table.sortRangeByCachedKey κ.set 0 (← get).1.size less f

/-- Searches by halves for a key under an ordering. -/
def binarySearch (s : Set K) (less : K → K → Action σ Bool) (k : K) : Action σ (Nat × Bool) :=
  Table.bisect s.items (Table.compareKeys less k) 0 s.size

/-- Searches by halves for a key on which a comparison gives equality. -/
def binarySearchBy (s : Set K) (compare : K → Action σ Ordering) : Action σ (Nat × Bool) :=
  Table.bisect s.items compare 0 s.size

end Set

end OrderedHash
