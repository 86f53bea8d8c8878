import OrderedHash.Fault
import OrderedHash.Index.Resize

namespace OrderedHash

/-!
# Ordered tables

An ordered table keeps its items in a dense store, in an order of its own, and an index
from the hash values of their keys to their positions in the store. Maps and sets are
tables that differ in what an item is, which a `Keying` tells.
-/

/-- How the keys of a container are hashed and compared. -/
structure Hashing (K : Type) where
  /-- The hash value of a key, as the index uses it. -/
  hash : K → UInt64
  /-- Whether a stored key, given first, equals a key that is looked for. -/
  same : K → K → Bool
  /-- The failure of the hash function on a key, if it fails there. -/
  refusal : K → Option Fault

/-- How a table finds the key of an item, and what it stores when it is given an item
    whose key it holds already. -/
structure Keying (K V : Type) extends Hashing K where
  key : V → K
  refresh : (stored given : V) → V

namespace Hashing

variable {K T : Type}

/-- The hashing by a hash function that never fails. -/
def ofHasher (h : Hasher K) (same : K → K → Bool) : Hashing K := ⟨h.value, same, fun _ => none⟩

variable (κ : Hashing K)

/-- The hash value of a key given by the caller. -/
def accept (k : K) : Except Fault UInt64 :=
  match κ.refusal k with
  | some fault => .error fault
  | none => .ok (κ.hash k)

/-- The keying of maps: an item is a key with its value. Of two items with one key the
    stored key stays and takes the value given. -/
def map : Keying K (K × T) := ⟨κ, Prod.fst, fun stored given => (stored.1, given.2)⟩

/-- The keying of sets: an item is a key, and the stored one stays. -/
def set : Keying K K := ⟨κ, id, fun stored _ => stored⟩

end Hashing

/-- Items in order, with an index from the hash values of their keys. -/
structure Table (V : Type) where
  items : Array V
  index : Index

namespace Table

variable {K V σ : Type}

/-- The table without items whose index is null. -/
def empty (f : LoadFactor) : Table V := ⟨#[], .null f⟩

instance : Inhabited (Table V) := ⟨empty .standard⟩

/-- The number of items. -/
def size (t : Table V) : Nat := t.items.size

variable (κ : Keying K V) (t : Table V)

/-- The hash value of the key at a position. -/
def hashAt (items : Array V) (p : Nat) : UInt64 :=
  match items[p]? with
  | some v => κ.hash (κ.key v)
  | none => 0

/-- Whether the key at a position equals `k`. -/
def keyAtIs (items : Array V) (k : K) (p : Nat) : Bool :=
  match items[p]? with
  | some v => κ.same (κ.key v) k
  | none => false

/-- The position of the key `k`, whose hash value is given. -/
def findHash (hash : UInt64) (k : K) : Option Nat :=
  t.index.findPosition hash (keyAtIs κ t.items k)

/-- The position of the key `k`. -/
def find (k : K) : Option Nat := t.findHash κ (κ.hash k) k

/-- The position of the key `k`, or the failure of the hash function on it. -/
def lookup (k : K) : Except Fault (Option Nat) := return t.findHash κ (← κ.accept k) k

/-- The position and the item of the key `k`. -/
def lookupItem (k : K) : Except Fault (Option (Nat × V)) :=
  return (← t.lookup κ k).bind fun p => t.items[p]?.map fun v => (p, v)

/-- Whether the key `k` is present. -/
def contains (k : K) : Except Fault Bool := return (← t.lookup κ k).isSome

/-- The item at a position that has to be below the size. -/
def itemAt (p : Nat) : Except Fault V :=
  match t.items[p]? with
  | some v => .ok v
  | none => .error .positionOutOfRange

/-- The items from `first` up to `last`. -/
def itemsIn (first last : Nat) : List V := (t.items.extract first last).toList

/-- Fails unless a position is below `bound`. -/
def checkPosition (pos bound : Nat) : Action σ Unit :=
  Action.demand (pos < bound) .positionOutOfRange

/-- Fails unless the two ends are those of a range below `bound`. -/
def checkRange (first last bound : Nat) : Action σ Unit :=
  Action.demand (first ≤ last ∧ last ≤ bound) .invalidRange

/-- The first item. -/
def first? : Option V := t.items[0]?

/-- The last item. -/
def last? : Option V := t.items.back?

/-! ### Capacity -/

/-- The number of items that the index holds before its load factor makes it grow. -/
def capacity : Nat := t.index.capacity

/-- The table with another index. -/
def withIndex (index : Index) : Table V := { t with index }

/-- Makes room in the index for `count` items in all. -/
def reserve (count : Nat) : Table V := t.withIndex (t.index.reserve count (hashAt κ t.items))

/-- Builds the index anew. -/
def rehash : Table V := t.withIndex (t.index.rebuild t.size (hashAt κ t.items))

/-- Reduces the index to the buckets that the items need. -/
def shrinkToFit : Table V := t.withIndex (t.index.shrinkToFit (hashAt κ t.items))

/-- Changes the maximum load factor. -/
def setLoadFactor (f : LoadFactor) : Table V := t.withIndex (t.index.setLoadFactor f)

/-- Removes all items and keeps the buckets. -/
def clear : Table V := ⟨#[], t.index.clear⟩

/-- The empty table with the standard load factor and room for `count` items. -/
def withCapacity (count : Nat) : Table V := (empty .standard : Table V).reserve κ count

/-! ### What concerns the capacity leaves the items alone -/

@[simp] theorem items_withIndex (index : Index) : (t.withIndex index).items = t.items := rfl

@[simp] theorem items_reserve (count : Nat) : (t.reserve κ count).items = t.items := rfl

@[simp] theorem items_rehash : (t.rehash κ).items = t.items := rfl

@[simp] theorem items_shrinkToFit : (t.shrinkToFit κ).items = t.items := rfl

@[simp] theorem items_setLoadFactor (f : LoadFactor) : (t.setLoadFactor f).items = t.items := rfl

end Table

end OrderedHash
