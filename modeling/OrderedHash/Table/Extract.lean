import OrderedHash.Table.Remove
import OrderedHash.Table.Retain

namespace OrderedHash

/-!
# Removing items on demand

An extraction visits a range of a table in order and hands out, one at a time, the items
that pass a test. It may be left off at any point and resumed later. Items that are not
handed out move down in the store as the extraction goes along, over the places of those
that were; the index is left as it is meanwhile. Only when the extraction ends are the
items after it moved down and is the index built anew, in its present buckets.
-/

/-- An extraction under way, apart from the table that it works on. -/
structure Extraction where
  /-- Whether the extraction still has its table. -/
  attached : Bool
  /-- The next position to visit. -/
  read : Nat
  /-- The position of the next item that is kept. -/
  write : Nat
  /-- The end of the range. -/
  stop : Nat
  /-- The number of items handed out. -/
  removed : Nat
  deriving DecidableEq, Repr

namespace Extraction

variable {K V σ : Type}

/-- Starts an extraction from the items from `first` up to `last`. -/
def ofRange (t : Table V) (first last : Nat) : Except Fault Extraction :=
  if first ≤ last ∧ last ≤ t.size then .ok ⟨true, first, first, last, 0⟩
  else .error .invalidRange

/-- The extraction after it has handed out the item that it visits. -/
def handOut (x : Extraction) : Extraction :=
  { x with read := x.read + 1, removed := x.removed + 1 }

/-- The extraction after it has kept the item that it visits. -/
def keep (x : Extraction) : Extraction := { x with read := x.read + 1, write := x.write + 1 }

/-- Visits at most `left` items of a store, up to the first that passes the test: the
    outcome, the extraction, the store and the state in which the test is left. -/
def seek (test : Action (V × σ) Bool) :
    (left : Nat) → Extraction → Array V → σ → Except Fault (Option V) × Extraction × Array V × σ
  | 0, x, items, s => (.ok none, x, items, s)
  | left + 1, x, items, s =>
    match items[x.read]? with
    | none => (.ok none, x, items, s)
    | some v =>
      let (answer, v, s) := test.step (v, s)
      -- the test changes the item where it is
      let items := items.setIfInBounds x.read v
      match answer with
      | .ok true => (.ok (some v), x.handOut, items, s)
      | .ok false =>
        let items := if x.write = x.read then items else items.setIfInBounds x.write v
        seek test left x.keep items s
      | .error fault => (.error fault, x, items, s)

/-- Hands out the next item that passes the test, or nothing at the end of the range. -/
def next (test : Action (V × σ) Bool) : Action ((Extraction × Table V) × σ) (Option V) :=
  Action.ofStep fun ((x, t), s) =>
    let (outcome, x, items, s) := x.seek test (x.stop - x.read) t.items s
    (outcome, ((x, { t with items }), s))

/-- Hands out at most `count` items: these, the fault that ended it if there was one, and
    the states left. -/
def take (test : Action (V × σ) Bool) :
    (count : Nat) → (Extraction × Table V) × σ →
      List V × Option Fault × ((Extraction × Table V) × σ)
  | 0, s => ([], none, s)
  | count + 1, s =>
    match (next test).step s with
    | (.ok none, s) => ([], none, s)
    | (.error fault, s) => ([], some fault, s)
    | (.ok (some v), s) =>
      let (items, fault, s) := take test count s
      (v :: items, fault, s)

/-- The extraction that takes over the table from another one, and what is left of that. -/
def handOver (x : Extraction) : Extraction × Extraction := (x, { x with attached := false })

/-- Moves `count` items from position `source` on down to those from `target` on. -/
def moveDown : (count source target : Nat) → Array V → Array V
  | 0, _, _, items => items
  | count + 1, source, target, items =>
    moveDown count (source + 1) (target + 1)
      (match items[source]? with
      | some v => items.setIfInBounds target v
      | none => items)

/-- Ends an extraction that still has its table: closes the gap that the items handed out
    have left, and builds the index anew if there is one. -/
def finish (κ : Keying K V) (x : Extraction) (t : Table V) : Extraction × Table V :=
  let done := { x with attached := false }
  if x.attached = false ∨ x.write = x.read then (done, t)
  else
    let rest := t.size - x.read
    let items := moveDown rest x.read x.write t.items
    (done, t.compacted κ (items.take (x.write + rest)))

/-- What a program does with an extraction before it ends it. -/
inductive Use where
  /-- Takes at most as many items as asked for, or all that are left where no number is given. -/
  | take (count : Option Nat)
  /-- Has another extraction take over, and ends the one that is left. -/
  | handOver

/-- Uses an extraction several times in turn. A fault of the test ends it. -/
def useEach (κ : Keying K V) (test : Action (V × σ) Bool) :
    List Use → (Extraction × Table V) × σ → List V × Option Fault × ((Extraction × Table V) × σ)
  | [], s => ([], none, s)
  | .take count :: rest, ((x, t), s) =>
    -- one more than the items ahead, so that the end is met
    match take test (count.getD (x.stop - x.read + 1)) ((x, t), s) with
    | (items, some fault, s) => (items, some fault, s)
    | (items, none, s) =>
      let (more, fault, s) := useEach κ test rest s
      (items ++ more, fault, s)
  | .handOver :: rest, ((x, t), s) =>
    let (x, left) := x.handOver
    useEach κ test rest ((x, (left.finish κ t).2), s)

end Extraction

namespace Table

variable {K V σ : Type} (κ : Keying K V)

/-- Extracts items of a range that pass a test, by an extraction that is used in the given
    ways and ended. Answers the items, their number, and the fault of the test. -/
def extractUsing (first last : Nat) (test : Action (V × σ) Bool) (uses : List Extraction.Use) :
    Action (Table V × σ) (List V × Nat × Option Fault) := do
  let (t, s) ← get
  let x ← Action.ofExcept (Extraction.ofRange t first last)
  let (items, fault, ((x, t), s)) := Extraction.useEach κ test uses ((x, t), s)
  set ((x.finish κ t).2, s)
  return (items, x.removed, fault)

/-- Extracts items of a range that pass a test, as many as a list of requests takes. -/
def extractIf (first last : Nat) (test : Action (V × σ) Bool) (requests : List (Option Nat)) :
    Action (Table V × σ) (List V × Nat × Option Fault) :=
  extractUsing κ first last test (requests.map .take)

end Table

end OrderedHash
