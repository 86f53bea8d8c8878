import OrderedHash.Table.Basic

namespace OrderedHash

/-!
# Searching by halves

Both searches look at the middle of the part that is left. Neither requires the items to
be sorted, but only on sorted items does the answer say more than what was compared.
-/

namespace Table

variable {V C σ : Type} (items : Array V)

/-- Searches positions from `lo` up to `hi` for an item on which the comparison with the
    target gives equality. Answers a match, or else the position where the search ended. -/
def bisect (compare : V → Action σ Ordering) (lo hi : Nat) : Action σ (Nat × Bool) :=
  if lo < hi then
    let mid := lo + (hi - lo) / 2
    match items[mid]? with
    | none => pure (lo, false)
    | some v => do
      match ← compare v with
      | .lt => bisect compare (mid + 1) hi
      | .gt => bisect compare lo mid
      | .eq => return (mid, true)
  else pure (lo, false)
termination_by hi - lo

/-- The first of `count` positions from `first` on at which the test fails, provided that
    it fails from there on. -/
def partitionFrom (test : V → Action σ Bool) (first count : Nat) : Action σ Nat :=
  if 0 < count then
    let half := count / 2
    match items[first + half]? with
    | none => pure first
    | some v => do
      if ← test v then partitionFrom test (first + half + 1) (count - half - 1)
      else partitionFrom test first half
  else pure first
termination_by count

/-- The comparison with a target that an ordering of keys gives. -/
def compareKeys (less : C → C → Action σ Bool) (target c : C) : Action σ Ordering := do
  if ← less c target then return .lt
  else if ← less target c then return .gt
  else return .eq

/-- Searches all items for one for which a function, asked once for each item that is looked
    at, gives the target. -/
def bisectByKey (t : Table V) (less : C → C → Action σ Bool) (f : V → Action σ C) (target : C) :
    Action σ (Nat × Bool) :=
  bisect t.items (fun v => do compareKeys less target (← f v)) 0 t.size

end Table

end OrderedHash
