import OrderedHash.Set.Basic

namespace OrderedHash

/-!
# Set algebra

The results keep the order of their sources. Each of two sets is looked through by its own hash
function, and a result has the hash function of the first set. Nothing comes of two sets if a
hash function fails on one of the keys for which it is asked.
-/

namespace Set

variable {K : Type} (κ κ' : Hashing K) (a b : Set K)

/-- Whether all keys of a list are in a set, or all of them are not. -/
def allAre (present : Bool) (s : Set K) (ks : List K) : Except Fault Bool :=
  ks.allM fun k => return (← s.contains κ.set k) == present

/-- Adds a key if it is in another set, or if it is not. -/
def addIf (present : Bool) (other : Set K) (k : K) : Action (Set K) Unit := do
  if (← Action.ofExcept (other.contains κ'.set k)) == present then
    let _ ← insert κ k

/-- Adds the keys of a list that are in another set, or those that are not. -/
def gather (present : Bool) (other : Set K) : List K → Action (Set K) Unit :=
  Action.forEach (addIf κ κ' present other)

/-- Whether every key of `a` is in `b`. -/
def isSubset : Except Fault Bool :=
  if b.size < a.size then .ok false else allAre κ' true b a.items.toList

/-- Whether every key of `b` is in `a`. -/
def isSuperset : Except Fault Bool := isSubset κ b a

/-- Whether no key is in both sets; the smaller one is gone through. -/
def isDisjoint : Except Fault Bool :=
  if a.size ≤ b.size then allAre κ' false b a.items.toList else allAre κ false a b.items.toList

/-- The keys of `a` followed by those of `b` that are not in `a`. -/
def union : Except Fault (Set K) := Table.build a (Table.extend κ.set b.items.toList true)

/-- The keys of `a` that are in `b`. -/
def intersection : Except Fault (Set K) :=
  Table.build (Table.empty .standard) (gather κ κ' true b a.items.toList)

/-- The keys of `a` that are not in `b`. -/
def difference : Except Fault (Set K) :=
  Table.build (Table.empty .standard) (gather κ κ' false b a.items.toList)

/-- The keys of `a` that are not in `b` followed by those of `b` that are not in `a`. -/
def symmetricDifference : Except Fault (Set K) := do
  Table.build (← difference κ κ' a b) (gather κ κ false a b.items.toList)

end Set

end OrderedHash
