import OrderedHash.Table.Basic

namespace OrderedHash

/-!
# Adding items to a table

A key occurs once in a table. An item whose key is present is either left out or used to
refresh the stored one; an item whose key is absent is added at the end or at a position.
-/

namespace Table

variable {K V σ : Type} (κ : Keying K V)

/-- Adds an item at position `pos`; its key must be absent and have the given hash value. -/
def insertAt (t : Table V) (pos : Nat) (hash : UInt64) (v : V) : Table V :=
  ⟨t.items.insertIdxIfInBounds pos v, t.index.insertAt pos t.size hash (hashAt κ t.items)⟩

/-- Puts another item with the same key at a position. -/
def setItem (t : Table V) (pos : Nat) (v : V) : Table V :=
  { t with items := t.items.setIfInBounds pos v }

/-- Refreshes the item at a position with the one given. -/
def refreshAt (t : Table V) (pos : Nat) (v : V) : Table V :=
  { t with items := t.items.modify pos fun stored => κ.refresh stored v }

/-- Looks the key of an item up, and goes on with its position or with its hash value. -/
def onKey {α : Type} (k : K) (present : Nat → Action (Table V) α)
    (absent : UInt64 → Action (Table V) α) : Action (Table V) α := do
  let hash ← Action.ofExcept (κ.accept k)
  match (← get).findHash κ hash k with
  | some pos => present pos
  | none => absent hash

/-- Adds an item whose key is absent at position `pos`. -/
def addAt (pos : Nat) (hash : UInt64) (v : V) : Action (Table V) Unit :=
  modify fun t => t.insertAt κ pos hash v

/-- Adds an item at the end unless its key is present. Answers the position of the key
    and whether the item was added. -/
def insert (v : V) : Action (Table V) (Nat × Bool) :=
  onKey κ (κ.key v) (fun pos => pure (pos, false)) fun hash => do
    let pos := (← get).size
    addAt κ pos hash v
    return (pos, true)

/-- Adds an item as `insert` does, but puts it in the store before its key is looked up
    and takes it back if the key is present or is refused. -/
def emplace (v : V) : Action (Table V) (Nat × Bool) := do
  let pos := (← get).size
  modify fun t => { t with items := t.items.push v }
  let takeBack : Action (Table V) Unit := modify fun t => { t with items := t.items.pop }
  match κ.accept (κ.key v) with
  | .error fault =>
    takeBack
    throw fault
  | .ok hash =>
    match (← get).findHash κ hash (κ.key v) with
    | some found =>
      takeBack
      return (found, false)
    | none =>
      modify fun t => t.withIndex (t.index.insertAt pos pos hash (hashAt κ t.items))
      return (pos, true)

/-- Adds an item at the end, or refreshes the item that has its key. Answers the position
    of the key and the item that was refreshed. -/
def put (v : V) : Action (Table V) (Nat × Option V) :=
  onKey κ (κ.key v)
    (fun pos => do
      let old := (← get).items[pos]?
      modify fun t => t.refreshAt κ pos v
      return (pos, old))
    fun hash => do
      let pos := (← get).size
      addAt κ pos hash v
      return (pos, none)

/-- Adds or refreshes items in turn. Room for all is made first if their number is known
    beforehand. -/
def extend (vs : List V) (countKnown : Bool) : Action (Table V) Unit := do
  if countKnown then
    modify fun t => t.reserve κ (t.size + vs.length)
  Action.forEach (fun v => do let _ ← put κ v) vs

/-- Adds items in turn as `emplace` does. -/
def insertEach (vs : List V) : Action (Table V) Unit :=
  Action.forEach (fun v => do let _ ← emplace κ v) vs

/-- What an action makes of a table that nothing else uses. -/
def build (t : Table V) (x : Action (Table V) Unit) : Except Fault (Table V) :=
  let (answer, t) := x.step t
  answer.map fun _ => t

/-- A table of the given items, with the standard load factor. -/
def ofList (vs : List V) (countKnown : Bool) : Except Fault (Table V) :=
  build (empty .standard) (extend κ vs countKnown)

end Table

end OrderedHash
