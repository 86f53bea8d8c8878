import OrderedHash.Table.Insert
import OrderedHash.Table.Remove

namespace OrderedHash

/-!
# Replacing a range by other items

The range is removed, then the new items are added one after another in its place. A new
item whose key is held by an item outside the range, or by one already added, refreshes
that item where it stands.
-/

namespace Table

variable {K V : Type} (κ : Keying K V)

/-- Adds items in turn, the first at position `pos` and each next one after the last
    that was added, or refreshes the items that have their keys. -/
def placeFrom (pos : Nat) : List V → Action (Table V) Unit
  | [] => pure ()
  | v :: rest => do
    let pos ← onKey κ (κ.key v)
      (fun found => do
        modify fun t => t.refreshAt κ found v
        return pos)
      fun hash => do
        addAt κ pos hash v
        return pos + 1
    placeFrom pos rest

/-- Replaces the items from `first` up to `last`, which are answered, by those given. -/
def splice (first last : Nat) (vs : List V) : Action (Table V) (List V) := do
  let removed ← drain κ first last
  placeFrom κ first vs
  return removed

end Table

end OrderedHash
