import OrderedHash.Table.Basic

namespace OrderedHash

/-!
# Keeping the items that pass a test

The items are filtered where they are. One position goes over the store, and a second one
follows it, to which the next item that is kept is moved down.

The test may keep a state of its own, may change the item it is shown (though not its
key), and may fail. When it fails, the item it was shown and all items after it are kept.
-/

/-- A store that is filtered in place. -/
structure Sieve (V : Type) where
  items : Array V
  /-- The next position to visit. -/
  read : Nat
  /-- The position of the next item that is kept. -/
  write : Nat

namespace Sieve

variable {V σ : Type}

/-- Keeps the item at the position to visit. -/
def keep (w : Sieve V) : Sieve V :=
  let items :=
    if w.write = w.read then w.items
    else
      match w.items[w.read]? with
      | some v => w.items.setIfInBounds w.write v
      | none => w.items
  ⟨items, w.read + 1, w.write + 1⟩

/-- Leaves the item at the position to visit to be written over. -/
def drop (w : Sieve V) : Sieve V := { w with read := w.read + 1 }

/-- Shows at most `left` items to a test in order and keeps those that pass, up to the first
    on which the test fails: the outcome, the store and the state in which the test is left. -/
def sift (test : Action (V × σ) Bool) :
    (left : Nat) → Sieve V → σ → Except Fault Unit × Sieve V × σ
  | 0, w, s => (.ok (), w, s)
  | left + 1, w, s =>
    match w.items[w.read]? with
    | none => (.ok (), w, s)
    | some v =>
      let (answer, v, s) := test.step (v, s)
      -- the test changes the item where it is
      let w := { w with items := w.items.setIfInBounds w.read v }
      match answer with
      | .ok true => sift test left w.keep s
      | .ok false => sift test left w.drop s
      | .error fault => (.error fault, w, s)

/-- Keeps a number of items without showing them to a test. -/
def keepEach : (count : Nat) → Sieve V → Sieve V
  | 0, w => w
  | count + 1, w => keepEach count w.keep

end Sieve

namespace Table

variable {K V σ : Type} (κ : Keying K V)

/-- The table of the given items, which come from `t` in their order. Unless none of them
    is missing the index is built anew in its present buckets. -/
def compacted (t : Table V) (items : Array V) : Table V :=
  if items.size = t.size then { t with items }
  else ⟨items, t.index.rebuildInPlace items.size (hashAt κ items)⟩

/-- Removes the items that do not pass the test; answers their number. -/
def retain (keep : Action (V × σ) Bool) : Action (Table V × σ) Nat :=
  Action.ofStep fun (t, s) =>
    let (outcome, w, s) := Sieve.sift keep t.size ⟨t.items, 0, 0⟩ s
    -- no item is left to be visited unless the test failed
    let w := w.keepEach (t.size - w.read)
    (outcome.map fun _ => t.size - w.write, (t.compacted κ (w.items.take w.write), s))

/-- Removes the items that pass the test; answers their number. -/
def eraseIf (drop : Action (V × σ) Bool) : Action (Table V × σ) Nat :=
  retain κ (return !(← drop))

end Table

end OrderedHash
