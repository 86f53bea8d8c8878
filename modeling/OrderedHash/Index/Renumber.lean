import OrderedHash.Index.Lookup

namespace OrderedHash

/-!
# Changing the positions that nodes hold

Nodes stay in their buckets while the positions they hold change. A range of positions
is shifted either node by node, found through their hash values, or in one walk over
all buckets when the range is large against their number.
-/

namespace Index

variable (ix : Index)

/-- Gives the position `q` to the node in bucket `b`. -/
def setPosition (b q : Nat) : Index := ix.setNode b ((ix.node b).withPosition q)

/-- Gives the position `q` to the node that holds `p`, whose hash value is `hash`. -/
def renumber (hash : UInt64) (p q : Nat) : Index :=
  match ix.findNode hash p with
  | some b => ix.setPosition b q
  | none => ix

/-- Applies `f` to the position of every live node. -/
def mapPositions (f : Nat → Nat) : Index :=
  { ix with buckets := ix.buckets.map fun n => if n.isLive then n.withPosition (f n.pos) else n }

/-- A position moved by a signed offset. -/
def moved (p : Nat) (offset : Int) : Nat := (p + offset).toNat

/-- Adds `offset` to the positions from `first` up to `last` in one walk over the buckets. -/
def shiftWhole (first last : Nat) (offset : Int) : Index :=
  ix.mapPositions fun p => if first ≤ p ∧ p < last then moved p offset else p

/-- Adds `offset` to the positions from `first` up to `last` one by one, where `hashAt`
    gives the hash value of each. A position is freed before another takes it: upward
    for a negative offset and downward for a positive one. -/
def shiftEach (first last : Nat) (offset : Int) (hashAt : Nat → UInt64) : Index :=
  let positions := List.range' first (last - first)
  let ordered := if offset < 0 then positions else positions.reverse
  ordered.foldl (fun ix p => ix.renumber (hashAt p) p (moved p offset)) ix

/-- Adds `offset` to the positions from `first` up to `last`. -/
def shiftPositions (first last : Nat) (offset : Int) (hashAt : Nat → UInt64) : Index :=
  if last ≤ first ∨ offset = 0 then ix
  else if ix.bucketCount / 2 < last - first then ix.shiftWhole first last offset
  else ix.shiftEach first last offset hashAt

/-- Reverses the positions below `count`. -/
def reversePositions (count : Nat) : Index :=
  ix.mapPositions fun p => if p < count then count - 1 - p else p

/-! ### Renumbering keeps the buckets -/

@[simp] theorem bucketCount_setPosition (b q : Nat) :
    (ix.setPosition b q).bucketCount = ix.bucketCount :=
  ix.bucketCount_setNode b _

@[simp] theorem bucketCount_renumber (hash : UInt64) (p q : Nat) :
    (ix.renumber hash p q).bucketCount = ix.bucketCount := by
  unfold renumber
  split <;> simp

@[simp] theorem bucketCount_mapPositions (f : Nat → Nat) :
    (ix.mapPositions f).bucketCount = ix.bucketCount := by
  simp [mapPositions, bucketCount]

@[simp] theorem bucketCount_shiftWhole (first last : Nat) (offset : Int) :
    (ix.shiftWhole first last offset).bucketCount = ix.bucketCount :=
  ix.bucketCount_mapPositions _

@[simp] theorem bucketCount_shiftEach (first last : Nat) (offset : Int) (hashAt : Nat → UInt64) :
    (ix.shiftEach first last offset hashAt).bucketCount = ix.bucketCount := by
  have fold (ps : List Nat) : ∀ ix : Index,
      (ps.foldl (fun ix p => ix.renumber (hashAt p) p (moved p offset)) ix).bucketCount =
        ix.bucketCount := by
    induction ps with
    | nil => exact fun _ => rfl
    | cons p rest ih => exact fun ix => (ih _).trans (bucketCount_renumber ix _ _ _)
  exact fold _ ix

@[simp] theorem bucketCount_shiftPositions (first last : Nat) (offset : Int)
    (hashAt : Nat → UInt64) :
    (ix.shiftPositions first last offset hashAt).bucketCount = ix.bucketCount := by
  unfold shiftPositions
  split
  · rfl
  · split <;> simp

@[simp] theorem bucketCount_reversePositions (count : Nat) :
    (ix.reversePositions count).bucketCount = ix.bucketCount :=
  ix.bucketCount_mapPositions _

end Index

end OrderedHash
