import OrderedHash.Table.Place
import OrderedHash.Table.Remove

namespace OrderedHash

/-!
# Handles

An `Entry` is a handle on a key: occupied while the table holds the key, vacant while it
does not, and consumed once the item was removed through the handle. An `IndexedEntry` is
a handle on an item given by its position. Operations run on a handle together with its
table; one that fails leaves both as they were, unless a function of the caller failed
after it had changed the item it was shown.
-/

/-- A handle on a key. -/
inductive Entry (K : Type) where
  /-- The key is absent; the handle keeps it with its hash value. -/
  | vacant (key : K) (hash : UInt64)
  /-- The key is at a position. -/
  | occupied (pos : Nat)
  /-- The item was removed through the handle. -/
  | consumed

namespace Entry

variable {K V σ : Type} (κ : Keying K V)

/-- The handle on the key `k`. -/
def ofKey (t : Table V) (k : K) : Except Fault (Entry K) := do
  let hash ← κ.accept k
  match t.findHash κ hash k with
  | some pos => return .occupied pos
  | none => return .vacant k hash

/-- Whether the handle designates an item. -/
def isOccupied : Entry K → Bool
  | .occupied _ => true
  | _ => false

/-- Whether the handle waits for an item. -/
def isVacant : Entry K → Bool
  | .vacant _ _ => true
  | _ => false

/-- The position of an occupied handle. -/
def position : Entry K → Except Fault Nat
  | .occupied pos => .ok pos
  | .vacant _ _ => .error .entryVacant
  | .consumed => .error .entryConsumed

/-- The key of a vacant handle and its hash value. -/
def vacancy : Entry K → Except Fault (K × UInt64)
  | .vacant k hash => .ok (k, hash)
  | .occupied _ => .error .entryOccupied
  | .consumed => .error .entryConsumed

/-- The position of the key, or the one that it would have at the end of the table. -/
def index (e : Entry K) (t : Table V) : Except Fault Nat :=
  match e with
  | .occupied pos => .ok pos
  | .vacant _ _ => .ok t.size
  | .consumed => .error .entryConsumed

/-- The item of an occupied handle. -/
def item (e : Entry K) (t : Table V) : Except Fault V := do t.itemAt (← e.position)

/-- The stored key of an occupied handle, or the key of a vacant one. -/
def key (e : Entry K) (t : Table V) : Except Fault K :=
  match e with
  | .occupied pos => return κ.key (← t.itemAt pos)
  | .vacant k _ => .ok k
  | .consumed => .error .entryConsumed

/-- Changes the item of an occupied handle. -/
def modifyItem (f : V → V) : Action (Entry K × Table V) Unit := do
  let pos ← Action.ofExcept (← get).1.position
  modify fun (e, t) => (e, { t with items := t.items.modify pos f })

/-- Adds the item of an absent key at a position, which the handle then designates. -/
def occupyAt (pos : Nat) (hash : UInt64) (v : V) : Action (Entry K × Table V) Unit :=
  modify fun (_, t) => (.occupied pos, t.insertAt κ pos hash v)

/-- Adds an item made from the key of a vacant handle at the end. Answers the item of the
    handle, the stored one if there was one. -/
def orInsertWith (make : K → Action σ V) : Action ((Entry K × Table V) × σ) V := do
  let ((e, t), _) ← get
  match e with
  | .consumed => throw .entryConsumed
  | .occupied _ => pure ()
  | .vacant k hash =>
    let v ← Action.onSnd (make k)
    Action.onFst (occupyAt κ t.size hash v)
  let ((e, t), _) ← get
  Action.ofExcept (e.item t)

/-- Shows the item of an occupied handle to a function that may change it. -/
def andModify (f : Action (V × σ) Unit) : Action ((Entry K × Table V) × σ) Unit := do
  let ((e, t), s) ← get
  match e with
  | .consumed => throw .entryConsumed
  | .vacant _ _ => pure ()
  | .occupied pos =>
    match t.items[pos]? with
    | none => pure ()
    | some v =>
      let (outcome, (v, s)) := f.step (v, s)
      set ((e, t.setItem pos v), s)
      Action.ofExcept outcome

/-- Adds the item that `make` gives for the key at the end, or refreshes the stored one. -/
def insertEntry (make : K → V) : Action (Entry K × Table V) Unit := do
  let (e, t) ← get
  match e with
  | .consumed => throw .entryConsumed
  | .vacant k hash => occupyAt κ t.size hash (make k)
  | .occupied pos =>
    set (e, { t with items := t.items.modify pos fun v => κ.refresh v (make (κ.key v)) })

/-- Adds the item that `make` gives for the key of a vacant handle before the first item
    whose key is not `less`. -/
def insertSortedBy (less : K → K → Action σ Bool) (make : K → V) :
    Action ((Entry K × Table V) × σ) Unit := do
  let ((e, t), _) ← get
  let (k, hash) ← Action.ofExcept e.vacancy
  let pos ← Action.onSnd (Table.partitionFrom t.items (fun v => less (κ.key v) k) 0 t.size)
  Action.onFst (occupyAt κ pos hash (make k))

/-- Adds the item that `make` gives for the key of a vacant handle at a position. -/
def shiftInsert (target : Nat) (make : K → V) : Action (Entry K × Table V) Unit := do
  let (e, t) ← get
  let (k, hash) ← Action.ofExcept e.vacancy
  Table.checkPosition target (t.size + 1)
  occupyAt κ target hash (make k)

/-- Removes the item of an occupied handle, which is consumed, and answers it. -/
def remove (way : Table.Removal) : Action (Entry K × Table V) V := do
  let (e, t) ← get
  let pos ← Action.ofExcept e.position
  let v ← Action.ofExcept (t.itemAt pos)
  set ((.consumed : Entry K), t.removeAt κ way pos)
  return v

/-- Moves the item of an occupied handle to another position. -/
def moveIndex (target : Nat) : Action (Entry K × Table V) Unit := do
  let pos ← Action.ofExcept (← get).1.position
  Action.onSnd (Table.moveIndex κ pos target)
  modify fun (_, t) => (.occupied target, t)

/-- Exchanges the item of an occupied handle with the one at another position. -/
def swapIndices (other : Nat) : Action (Entry K × Table V) Unit := do
  let pos ← Action.ofExcept (← get).1.position
  Action.onSnd (Table.swapIndices κ pos other)
  modify fun (_, t) => (.occupied other, t)

end Entry

/-- A handle on the item at a position. -/
inductive IndexedEntry where
  | held (pos : Nat)
  /-- The item was removed through the handle. -/
  | consumed

namespace IndexedEntry

variable {K V : Type} (κ : Keying K V)

/-- The handle on the item at a position. -/
def ofPosition (t : Table V) (pos : Nat) : Except Fault IndexedEntry :=
  if pos < t.size then .ok (.held pos) else .error .positionOutOfRange

/-- The position of the handle. -/
def index : IndexedEntry → Except Fault Nat
  | .held pos => .ok pos
  | .consumed => .error .indexedEntryConsumed

/-- The item of the handle. -/
def item (e : IndexedEntry) (t : Table V) : Except Fault V := do t.itemAt (← e.index)

/-- Changes the item of the handle, and answers the item before. -/
def modifyItem (f : V → V) : Action (IndexedEntry × Table V) V := do
  let (e, t) ← get
  let pos ← Action.ofExcept e.index
  let v ← Action.ofExcept (t.itemAt pos)
  set (e, t.setItem pos (f v))
  return v

/-- Removes the item of the handle, which is consumed, and answers it. -/
def remove (way : Table.Removal) : Action (IndexedEntry × Table V) V := do
  let (e, t) ← get
  let pos ← Action.ofExcept e.index
  let v ← Action.ofExcept (t.itemAt pos)
  set (IndexedEntry.consumed, t.removeAt κ way pos)
  return v

/-- Moves the item of the handle to another position. -/
def moveIndex (target : Nat) : Action (IndexedEntry × Table V) Unit := do
  let pos ← Action.ofExcept (← get).1.index
  Action.onSnd (Table.moveIndex κ pos target)
  modify fun (_, t) => (.held target, t)

/-- Exchanges the item of the handle with the one at another position. -/
def swapIndices (other : Nat) : Action (IndexedEntry × Table V) Unit := do
  let pos ← Action.ofExcept (← get).1.index
  Action.onSnd (Table.swapIndices κ pos other)
  modify fun (_, t) => (.held other, t)

end IndexedEntry

end OrderedHash
