import OrderedHash.Table.Reorder

namespace OrderedHash

/-!
# Sorting ranges of a table

Items are sorted by a merge sort that keeps the order of equivalent ones. The comparison
may fail. It sees the items while only their positions are sorted, so a comparison that
fails leaves the table as it was.
-/

namespace MergeSort

variable {α σ : Type} (less : α → α → Action σ Bool)

/-- Merges two sorted lists; of equivalent elements those of the first list come first. -/
def merge : List α → List α → Action σ (List α)
  | [], ys => pure ys
  | x :: xs, [] => pure (x :: xs)
  | x :: xs, y :: ys => do
    if ← less y x then
      return y :: (← merge (x :: xs) ys)
    else
      return x :: (← merge xs (y :: ys))
termination_by xs ys => xs.length + ys.length

/-- Sorts a list by halves; the fuel is at least its length. -/
def sortWithin : (fuel : Nat) → List α → Action σ (List α)
  | 0, xs => pure xs
  | _ + 1, [] => pure []
  | _ + 1, [x] => pure [x]
  | fuel + 1, x :: y :: xs => do
    let all := x :: y :: xs
    let half := (all.length + 1) / 2
    let front ← sortWithin fuel (all.take half)
    let back ← sortWithin fuel (all.drop half)
    merge less front back

/-- Sorts a list. -/
def sort (xs : List α) : Action σ (List α) := sortWithin less xs.length xs

end MergeSort

namespace Table

variable {K V C σ : Type} (κ : Keying K V)

/-- Sorts the items from `first` up to `last` by a comparison of items. -/
def sortRange (first last : Nat) (less : V → V → Action σ Bool) : Action (Table V × σ) Unit := do
  if 2 ≤ last - first then
    let numbered := ((← get).1.itemsIn first last).zipIdx first
    let sorted ← Action.onSnd (MergeSort.sort (fun a b => less a.1 b.1) numbered)
    modify fun (t, s) => (t.permuteRange κ first (sorted.map Prod.snd), s)

/-- Pairs each element of a list with what a function gives for it, which is asked once
    for each, in order. -/
def withKeys {α : Type} (f : α → Action σ C) : List α → Action σ (List (C × α))
  | [] => pure []
  | a :: rest => do
    let c ← f a
    return (c, a) :: (← withKeys f rest)

/-- Sorts the items from `first` up to `last` by a key that is computed once for each. -/
def sortRangeByCachedKey (first last : Nat) (less : C → C → Bool) (f : V → Action σ C) :
    Action (Table V × σ) Unit := do
  if 2 ≤ last - first then
    let numbered := ((← get).1.itemsIn first last).zipIdx first
    let keyed ← Action.onSnd (withKeys (fun a => f a.1) numbered)
    let sorted ← Action.onSnd (MergeSort.sort (fun a b => pure (less a.1 b.1)) keyed)
    modify fun (t, s) => (t.permuteRange κ first (sorted.map fun c => c.2.2), s)

/-- The comparison of items by a key computed anew for each comparison. -/
def lessByKey (less : C → C → Bool) (f : V → Action σ C) (a b : V) : Action σ Bool := do
  let ca ← f a
  let cb ← f b
  return less ca cb

end Table

end OrderedHash
