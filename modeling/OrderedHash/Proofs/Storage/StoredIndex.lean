import OrderedHash.Index.Transfer
import OrderedHash.Proofs.Storage.Memory

namespace OrderedHash

/-!
# Indexes as they are stored

A stored index points to its buckets, or to none while it is null, and keeps what it has to
know about them in fields, two of which follow from the others: the size from which it is too
full under its load factor, and the number of used buckets from which it is too full in any
case. The fields of an index that are `Right` go with each other and with the block they point
to; they stand for an `Index` (`StoredIndex.index`).

Copying, moving and clearing keep them right and give the index that they should
(`becomes_copyFrom`, `becomes_moveFrom`, `becomes_clear`), on every way that allocators allow.
-/

/-- The occasions on which the allocator of another container replaces that of a container. -/
structure Propagation where
  onCopy : Bool
  onMove : Bool
  onSwap : Bool

/-- The fields of an index. -/
structure StoredIndex where
  allocator : Nat
  /-- The address of the buckets, none for a null index. -/
  buckets : Option Nat
  /-- The number of buckets less one. -/
  mask : Nat
  size : Nat
  tombstones : Nat
  /-- The number of positions from which the index is too full under its load factor. -/
  target : Nat
  /-- The number of used buckets from which the index is too full in any case. -/
  maxFill : Nat
  maxDist : Nat
  loadFactor : LoadFactor

namespace StoredIndex

/-- A new index. -/
def new (allocator : Nat) : StoredIndex := ⟨allocator, none, 0, 0, 0, 0, 0, 1, .standard⟩

variable (f other : StoredIndex) (m : Memory)

/-- Whether the buckets are the block at an address. -/
def Holds (p : Nat) : Prop := f.buckets = some p

/-- The number of buckets that the index takes itself to have, one while it is null. -/
def bucketCount : Nat := f.mask + 1

/-- The node in bucket `b`. All null indexes share one bucket, which is empty. -/
def node (b : Nat) : Node :=
  match f.buckets with
  | some p => m.node p b
  | none => .empty

/-- The nodes in all the buckets. -/
def nodes : Array Node := (Array.range f.bucketCount).map (f.node m)

/-- The index that the fields and the buckets stand for. -/
def index : Index := ⟨f.nodes m, f.size, f.tombstones, f.maxDist, f.loadFactor⟩

/-! ### Parts of the operations -/

/-- Computes the two bounds. -/
def updateTargets : StoredIndex :=
  { f with
    target := if f.buckets.isNone then 0 else f.loadFactor.target f.bucketCount
    maxFill := if f.buckets.isNone then 0 else LoadFactor.fillLimit f.bucketCount }

/-- Forgets what was counted. -/
def resetCounters : StoredIndex := { f with size := 0, tombstones := 0, maxDist := 1 }

/-- Counts what the other index has counted, under its load factor. -/
def takeCounters : StoredIndex :=
  updateTargets { f with
    size := other.size
    tombstones := other.tombstones
    maxDist := other.maxDist
    loadFactor := other.loadFactor }

/-- Gives the buckets back to the allocator. -/
def freeBuckets : StoredIndex × Memory :=
  ({ f with buckets := none, mask := 0 },
    match f.buckets with
    | some p => m.free p f.allocator f.bucketCount
    | none => m)

/-- A block from an allocator with the same nodes, if there are buckets at all. -/
def copied (allocator : Nat) : Option Block := f.buckets.map fun _ => ⟨f.nodes m, allocator⟩

/-- Copies the nodes of the other index to a null one. -/
def copyNodes : StoredIndex × Memory :=
  let (buckets, m) := m.place (other.copied m f.allocator)
  (takeCounters { f with buckets, mask := if buckets.isSome then other.mask else f.mask } other, m)

/-- Takes over the buckets of the other index, which is null afterwards. -/
def steal : StoredIndex × StoredIndex :=
  (takeCounters { f with buckets := other.buckets, mask := other.mask } other,
    (resetCounters { other with buckets := none, mask := 0 }).updateTargets)

/-- Writes all the buckets in place. -/
def overwrite (nodes : Array Node) : Memory :=
  match f.buckets with
  | some p => m.write p nodes
  | none => m

/-! ### Operations -/

/-- Makes the index a copy of the other one. The new buckets are there before the old ones
    are given back. -/
def copyFrom (rule : Propagation) : StoredIndex × Memory :=
  let allocator := if rule.onCopy then other.allocator else f.allocator
  let (buckets, m) := m.place (other.copied m allocator)
  let (f, m) := f.freeBuckets m
  (takeCounters { f with allocator, buckets, mask := other.mask } other, m)

/-- Whether the buckets of the other index may be taken over, or have to be copied. -/
def maySteal (rule : Propagation) : Bool := rule.onMove || f.allocator == other.allocator

/-- Moves the other index to this one. -/
def moveFrom (rule : Propagation) : StoredIndex × StoredIndex × Memory :=
  if f.maySteal other rule then
    let (f, m) := f.freeBuckets m
    let f := if rule.onMove then { f with allocator := other.allocator } else f
    let (f, other) := f.steal other
    (f, other, m)
  else
    let (f, m) := f.copyFrom other m rule
    (f, other, m)

/-- A new index that the other one is moved to. -/
def moveConstruct (allocator : Nat) : StoredIndex × StoredIndex × Memory :=
  if allocator == other.allocator then
    let (f, other) := (new allocator).steal other
    (f, other, m)
  else
    let (f, m) := (new allocator).copyNodes other m
    (f, other, m)

/-- The two indexes after they were exchanged. -/
def swap (rule : Propagation) : StoredIndex × StoredIndex :=
  if rule.onSwap then (other, f)
  else ({ other with allocator := f.allocator }, { f with allocator := other.allocator })

/-- Removes all nodes and keeps the buckets. -/
def clear : StoredIndex × Memory :=
  (f.resetCounters.updateTargets, f.overwrite m (Array.replicate f.bucketCount .empty))

/-- Brings the index into any other state. As long as the number of buckets stays the same
    they are written in place; otherwise there are new ones before the old ones are given
    back. -/
def rewrite (ix : Index) : StoredIndex × Memory :=
  let (f, m) :=
    if ix.isNull || f.bucketCount != ix.bucketCount then
      let (buckets, m) := m.place (if ix.isNull then none else some ⟨ix.buckets, f.allocator⟩)
      let (f, m) := f.freeBuckets m
      ({ f with buckets, mask := ix.bucketCount - 1 }, m)
    else (f, f.overwrite m ix.buckets)
  (updateTargets { f with
    size := ix.size
    tombstones := ix.tombstones
    maxDist := ix.maxDist
    loadFactor := ix.loadFactor }, m)

/-! ### Fields that go with each other -/

/-- The pointer and the mask go with the block that is pointed to, which came from the
    allocator of the index. -/
structure Placed : Prop where
  null : f.buckets = none → f.mask = 0
  block : ∀ p, f.Holds p → ∃ b, m.block p = some b ∧ b.allocator = f.allocator ∧
    b.nodes.size = f.bucketCount
  several : ∀ p, f.Holds p → 0 < f.mask

/-- All fields go with each other. -/
structure Right : Prop extends f.Placed m where
  targets : f.updateTargets = f

variable {f other m}

/-! ### What the fields stand for -/

/-- An index whose buckets were put in their place is right once its targets are computed. -/
theorem Placed.right (h : f.Placed m) : f.updateTargets.Right m :=
  ⟨⟨h.null, h.block, h.several⟩, rfl⟩

/-- The fields of an index whose block is left alone stay right. -/
theorem Right.congr (h : f.Right m) {m' : Memory}
    (hsame : ∀ p, f.Holds p → m'.block p = m.block p) : f.Right m' where
  null := h.null
  block p hp := (hsame p hp).symm ▸ h.block p hp
  several := h.several
  targets := h.targets

/-- The nodes depend only on the block that the index holds. -/
theorem nodes_congr {m' : Memory} (hsame : ∀ p, f.Holds p → m'.block p = m.block p) :
    f.nodes m' = f.nodes m := by
  have hnode : f.node m' = f.node m := by
    funext b
    unfold node
    cases hp : f.buckets with
    | none => rfl
    | some p => simp only [Memory.node, hsame p hp]
  rw [nodes, nodes, hnode]

/-- What an index stands for depends only on the block that it holds. -/
theorem index_congr {m' : Memory} (hsame : ∀ p, f.Holds p → m'.block p = m.block p) :
    f.index m' = f.index m := by
  rw [index, index, nodes_congr hsame]

/-- A null index has one node, which is empty. -/
theorem nodes_of_null (hnull : f.buckets = none) (hmask : f.mask = 0) :
    f.nodes m = #[.empty] := by
  have hrange : Array.range (0 + 1) = #[0] := rfl
  rw [nodes, bucketCount, hmask, hrange]
  simp [node, hnull]

/-- The nodes are those of the block that the index holds, if their number is right. -/
theorem nodes_of_block {p : Nat} {b : Block} (hp : f.Holds p) (hb : m.block p = some b)
    (hsize : b.nodes.size = f.bucketCount) : f.nodes m = b.nodes := by
  refine Array.ext (by simp [nodes, hsize]) fun i hi hi' => ?_
  have hp : f.buckets = some p := hp
  simp [nodes, node, hp, Memory.node, hb, hi']

/-- An index stands for as many buckets as its fields say. -/
@[simp] theorem bucketCount_index : (f.index m).bucketCount = f.bucketCount := by
  simp [index, Index.bucketCount, nodes]

/-- The index of a container that never had an item is the one that holds no block. -/
theorem Right.isNull_index (h : f.Right m) : (f.index m).isNull = f.buckets.isNone := by
  rw [Index.isNull, bucketCount_index, bucketCount]
  cases hp : f.buckets with
  | none => simp [h.null hp]
  | some p =>
    have hmask := h.several p hp
    simp
    omega

/-- The two bounds are those of the index. -/
theorem Right.target_eq (h : f.Right m) : f.target = (f.index m).capacity := by
  rw [Index.capacity, h.isNull_index, bucketCount_index]
  exact (congrArg StoredIndex.target h.targets).symm

/-- The greatest fill that is kept is the one that is computed from the other fields. -/
theorem Right.maxFill_eq (h : f.Right m) : f.maxFill = (f.index m).maxFill := by
  rw [Index.maxFill, h.isNull_index, bucketCount_index]
  exact (congrArg StoredIndex.maxFill h.targets).symm

/-! ### What the operations come to -/

/-- What holds the blocks at some addresses comes to hold those of an index with right fields. -/
structure Becomes (before : Nat → Prop) (m : Memory) (ix : Index) (r : StoredIndex × Memory) :
    Prop where
  changes : Memory.Changes before m r.1.Holds r.2
  right : r.1.Right r.2
  index : r.1.index r.2 = ix

/-- What holds the blocks at some addresses comes to hold those of two indexes with right
    fields, which do not share any. -/
structure BecomeBoth (before : Nat → Prop) (m : Memory) (ix left : Index)
    (r : StoredIndex × StoredIndex × Memory) : Prop where
  changes : Memory.Changes before m (fun p => r.1.Holds p ∨ r.2.1.Holds p) r.2.2
  right : r.1.Right r.2.2
  right_left : r.2.1.Right r.2.2
  apart : ∀ p, r.1.Holds p → ¬ r.2.1.Holds p
  index : r.1.index r.2.2 = ix
  index_left : r.2.1.index r.2.2 = left

/-- A change to the memory comes before an operation without being seen in its result. -/
theorem Becomes.trans {before middle : Nat → Prop} {m' : Memory} {ix : Index}
    {r : StoredIndex × Memory} (hfirst : Memory.Changes before m middle m')
    (h : Becomes middle m' ix r) : Becomes before m ix r :=
  { h with changes := hfirst.trans h.changes }

/-- A change to the memory comes before an operation on two indexes without being seen in its
    results. -/
theorem BecomeBoth.trans {before middle : Nat → Prop} {m' : Memory} {ix left : Index}
    {r : StoredIndex × StoredIndex × Memory} (hfirst : Memory.Changes before m middle m')
    (h : BecomeBoth middle m' ix left r) : BecomeBoth before m ix left r :=
  { h with changes := hfirst.trans h.changes }

/-- The other index keeps its buckets and its fields. -/
theorem Becomes.withOther {before : Nat → Prop} {ix : Index} {r : StoredIndex × Memory}
    (h : Becomes before m ix r) (hother : other.Right m)
    (hapart : ∀ p, before p → ¬ other.Holds p) :
    BecomeBoth (fun p => before p ∨ other.Holds p) m ix (other.index m) (r.1, other, r.2) := by
  -- a block that the other index holds is there, so that it is not given out again
  have hnew : ∀ p, other.Holds p → ¬ r.1.Holds p := fun p hp hr => by
    obtain ⟨b, hb, -⟩ := hother.block p hp
    rcases h.changes.new p hr with hbefore | hnone
    · exact hapart p hbefore hp
    · rw [hb] at hnone
      cases hnone
  have hsame : ∀ p, other.Holds p → r.2.block p = m.block p := fun p hp =>
    h.changes.other p (fun hbefore => hapart p hbefore hp) (hnew p hp)
  exact ⟨h.changes.frame other.Holds, h.right, hother.congr hsame, fun p hr hp => hnew p hp hr,
    h.index, index_congr hsame⟩

/-- The fields point to the given nodes. -/
structure Points (f : StoredIndex) (m : Memory) (nodes : Array Node) : Prop where
  null : f.buckets = none → f.mask = 0 ∧ nodes = #[.empty]
  block : ∀ p, f.Holds p → m.block p = some ⟨nodes, f.allocator⟩
  size : f.buckets ≠ none → nodes.size = f.bucketCount ∧ 0 < f.mask

/-- An index that points to nodes has its buckets in their place. -/
theorem Points.placed {nodes : Array Node} (h : f.Points m nodes) : f.Placed m where
  null hnull := (h.null hnull).1
  block p hp := ⟨_, h.block p hp, rfl, (h.size (hp ▸ nofun)).1⟩
  several _ hp := (h.size (hp ▸ nofun)).2

/-- The nodes are those that the index points to. -/
theorem Points.nodes_eq {nodes : Array Node} (h : f.Points m nodes) : f.nodes m = nodes := by
  cases hp : f.buckets with
  | none => rw [nodes_of_null hp (h.null hp).1, (h.null hp).2]
  | some p => exact nodes_of_block hp (h.block p hp) (h.size (hp ▸ nofun)).1

/-- An index points to its own nodes. -/
theorem Right.points (h : f.Right m) : f.Points m (f.nodes m) where
  null hnull := ⟨h.null hnull, nodes_of_null hnull (h.null hnull)⟩
  block p hp := by
    obtain ⟨b, hb, hallocator, hsize⟩ := h.block p hp
    rw [nodes_of_block hp hb hsize, hb, ← hallocator]
  size hsome := by
    obtain ⟨p, hp⟩ := Option.ne_none_iff_exists'.mp hsome
    exact ⟨bucketCount_index, h.several p hp⟩

/-- The block that an index held is gone, and nothing else changes. -/
theorem changes_freeBuckets (h : f.Right m) :
    Memory.Changes f.Holds m (fun _ => False) (f.freeBuckets m).2 := by
  unfold freeBuckets Holds
  cases hp : f.buckets with
  | none => exact ⟨fun _ hfalse => hfalse.elim, nofun, fun _ _ _ => rfl⟩
  | some p =>
    obtain ⟨b, hb, hallocator, hsize⟩ := h.block p hp
    rw [← hallocator, ← hsize]
    simpa using Memory.changes_free hb

/-- Fields that point to the buckets of an index, with its counters and its load factor. -/
theorem becomes_of_points {before : Nat → Prop} {m' : Memory} {ix : Index}
    (hchanges : Memory.Changes before m f.Holds m') (hpoints : f.Points m' ix.buckets) :
    Becomes before m ix (updateTargets { f with
      size := ix.size
      tombstones := ix.tombstones
      maxDist := ix.maxDist
      loadFactor := ix.loadFactor }, m') := by
  have hplaced := hpoints.placed
  refine ⟨hchanges, Placed.right ⟨hplaced.null, hplaced.block, hplaced.several⟩, ?_⟩
  show (⟨f.nodes m', ix.size, ix.tombstones, ix.maxDist, ix.loadFactor⟩ : Index) = ix
  rw [hpoints.nodes_eq]

/-! ### New buckets in the place of the old ones -/

/-- A new block is not the one that the index holds. -/
theorem not_holds_of_place (h : f.Right m) {b : Option Block} {p : Nat}
    (hp : (m.place b).1 = some p) : ¬ f.Holds p := by
  intro hheld
  obtain ⟨old, hold, -⟩ := h.block p hheld
  rcases (Memory.changes_place b).new p hp with hfalse | hnone
  · exact hfalse
  · rw [hold] at hnone
    cases hnone

/-- An index is right in a memory that has a block more. -/
theorem right_place (h : f.Right m) (b : Option Block) : f.Right (m.place b).2 :=
  h.congr fun _ hp => (Memory.changes_place b).other _ id fun hnew =>
    not_holds_of_place h hnew hp

/-- The old block is gone, and the new one is there. -/
theorem changes_renew (h : f.Right m) (b : Option Block) :
    Memory.Changes f.Holds m (fun p => (m.place b).1 = some p)
      (f.freeBuckets (m.place b).2).2 := by
  have hplace := (Memory.changes_place (m := m) b).frame f.Holds
  have hfree := (changes_freeBuckets (right_place h b)).frame fun p => (m.place b).1 = some p
  exact (hplace.congr (fun _ => by simp) fun _ => or_comm).trans
    (hfree.congr (fun _ => Iff.rfl) fun _ => by simp)

/-- The new block is what it was made, also after the old one was freed. -/
theorem block_renew (h : f.Right m) {b : Option Block} {p : Nat} (hp : (m.place b).1 = some p) :
    (f.freeBuckets (m.place b).2).2.block p = b := by
  have hfree := changes_freeBuckets (right_place h b)
  rw [hfree.other p (not_holds_of_place h hp) id, Memory.block_place hp]

/-! ### Copies -/

/-- Fields with the mask of another index, the pointer of which is to a copy of its buckets. -/
theorem points_copied (hother : other.Right m) {r : StoredIndex} {m' : Memory}
    (hnull : r.buckets = none ↔ other.buckets = none) (hmask : r.mask = other.mask)
    (hblock : ∀ p, r.Holds p → m'.block p = other.copied m r.allocator) :
    r.Points m' (other.nodes m) where
  null hr := by
    have hzero := hother.null (hnull.mp hr)
    exact ⟨hmask.trans hzero, nodes_of_null (hnull.mp hr) hzero⟩
  block p hp := by
    obtain ⟨q, hq⟩ := Option.ne_none_iff_exists'.mp (mt hnull.mpr (hp ▸ nofun : r.buckets ≠ none))
    rw [hblock p hp, copied, hq, Option.map_some]
  size hr := by
    rw [bucketCount, hmask]
    exact hother.points.size (mt hnull.mpr hr)

/-- A copy holds a block if and only if the original does. -/
theorem place_copied_eq_none {allocator : Nat} :
    (m.place (other.copied m allocator)).1 = none ↔ other.buckets = none := by
  rw [Memory.place_eq_none, copied, Option.map_eq_none_iff]

/-- New buckets with the nodes of another index make the index what that one is. -/
theorem becomes_copyNodes (hother : other.Right m) (hmask : f.mask = 0) :
    Becomes (fun _ => False) m (other.index m) (f.copyNodes other m) := by
  refine becomes_of_points (Memory.changes_place _)
    (points_copied hother place_copied_eq_none ?_ ?_)
  · show (if (m.place (other.copied m f.allocator)).1.isSome then other.mask else f.mask) = _
    by_cases hnull : other.buckets = none
    · rw [place_copied_eq_none.mpr hnull, hother.null hnull]
      exact hmask
    · exact if_pos (Option.isSome_iff_ne_none.mpr (mt place_copied_eq_none.mp hnull))
  · exact fun p hp => Memory.block_place hp

/-- An index that is assigned a copy of another one becomes what that one is. -/
theorem becomes_copyFrom (h : f.Right m) (hother : other.Right m) (rule : Propagation) :
    Becomes f.Holds m (other.index m) (f.copyFrom other m rule) :=
  becomes_of_points (changes_renew h _)
    (points_copied hother place_copied_eq_none rfl fun _ hp => block_renew h hp)

/-! ### Buckets that are taken over -/

/-- Under one allocator everything is taken over. -/
theorem steal_fst (hother : other.Right m) (hallocator : f.allocator = other.allocator) :
    (f.steal other).1 = other := by
  have hfields : (f.steal other).1 = updateTargets { other with allocator := f.allocator } := rfl
  rw [hfields, hallocator]
  exact hother.targets

/-- An index that steals the buckets of another one becomes what that one was. -/
theorem becomeBoth_steal (hother : other.Right m) (hallocator : f.allocator = other.allocator) :
    BecomeBoth other.Holds m (other.index m) (other.index m).release
      ((f.steal other).1, (f.steal other).2, m) := by
  have hnull : (f.steal other).2.buckets = none := rfl
  have hleft : (f.steal other).2.Placed m := ⟨fun _ => rfl, nofun, nofun⟩
  rw [steal_fst hother hallocator]
  refine ⟨(Memory.Changes.refl other.Holds m).congr (fun _ => Iff.rfl) fun p => ?_, hother,
    hleft.right, fun p _ => nofun, rfl, ?_⟩
  · exact (or_iff_left nofun).symm
  · rw [index, nodes_of_null hnull rfl]
    rfl

/-! ### An index beside another one -/

section Beside

variable (h : f.Right m) (hother : other.Right m) (hapart : ∀ p, f.Holds p → ¬ other.Holds p)

include h hapart in
/-- The block of another index is still there when the buckets of an index are freed. -/
theorem same_of_freeBuckets (p : Nat) (hp : other.Holds p) :
    (f.freeBuckets m).2.block p = m.block p :=
  (changes_freeBuckets h).other p (fun hf => hapart p hf hp) id

include h hother hapart

/-- A new index in the place of one that gave its buckets back. -/
theorem becomes_construct (allocator : Nat) :
    Becomes f.Holds m (other.index m) ((new allocator).copyNodes other (f.freeBuckets m).2) := by
  have hsame := same_of_freeBuckets h hapart
  have hcopy := becomes_copyNodes (f := new allocator) (hother.congr hsame) rfl
  rw [index_congr hsame] at hcopy
  exact hcopy.trans (changes_freeBuckets h)

/-- The buckets of the other index in the place of those that were given back. -/
theorem becomeBoth_free_steal {base : StoredIndex} (hallocator : base.allocator = other.allocator) :
    BecomeBoth (fun p => f.Holds p ∨ other.Holds p) m (other.index m) (other.index m).release
      ((base.steal other).1, (base.steal other).2, (f.freeBuckets m).2) := by
  have hsame := same_of_freeBuckets h hapart
  have hsteal := becomeBoth_steal (hother.congr hsame) hallocator
  rw [index_congr hsame] at hsteal
  have hfree := (changes_freeBuckets h).frame other.Holds
  exact hsteal.trans (hfree.congr (fun _ => Iff.rfl) fun _ => by simp)

/-- An index that another one is moved to becomes what that one was, whether the buckets change
    owner or are copied. -/
theorem becomeBoth_moveFrom (rule : Propagation) :
    BecomeBoth (fun p => f.Holds p ∨ other.Holds p) m (other.index m)
      ((other.index m).takeOver (f.maySteal other rule)).2 (f.moveFrom other m rule) := by
  unfold moveFrom Index.takeOver
  by_cases hsteal : f.maySteal other rule = true
  · rw [if_pos hsteal, if_pos hsteal]
    refine becomeBoth_free_steal h hother hapart ?_
    unfold maySteal at hsteal
    split
    · rfl
    · rename_i hmove
      simpa [hmove] using hsteal
  · rw [if_neg hsteal, if_neg hsteal]
    exact (becomes_copyFrom h hother rule).withOther hother hapart

/-- An index that is made by moving another one to it is what that one was, for any allocator. -/
theorem becomeBoth_moveConstruct (allocator : Nat) :
    BecomeBoth (fun p => f.Holds p ∨ other.Holds p) m (other.index m)
      ((other.index m).takeOver (allocator == other.allocator)).2
      (other.moveConstruct (f.freeBuckets m).2 allocator) := by
  unfold moveConstruct Index.takeOver
  by_cases hsteal : (allocator == other.allocator) = true
  · rw [if_pos hsteal, if_pos hsteal]
    exact becomeBoth_free_steal h hother hapart (beq_iff_eq.mp hsteal)
  · rw [if_neg hsteal, if_neg hsteal]
    exact (becomes_construct h hother hapart allocator).withOther hother hapart

/-- Two indexes that are swapped become what the other one was. -/
theorem becomeBoth_swap {rule : Propagation}
    (hallocator : rule.onSwap = true ∨ f.allocator = other.allocator) :
    BecomeBoth (fun p => f.Holds p ∨ other.Holds p) m (other.index m) (f.index m)
      ((f.swap other rule).1, (f.swap other rule).2, m) := by
  have hswap : f.swap other rule = (other, f) := by
    unfold swap
    split
    · rfl
    · rename_i hpropagate
      have hsame := hallocator.resolve_left hpropagate
      rw [hsame]
      exact Prod.ext rfl (by rw [← hsame])
  rw [hswap]
  exact ⟨(Memory.Changes.refl _ m).congr (fun _ => Iff.rfl) fun _ => or_comm, hother, h,
    fun p hp hf => hapart p hf hp, rfl, rfl⟩

end Beside

/-! ### Any other change -/

/-- Only the block that the index holds changes when its nodes are written over. -/
theorem changes_overwrite (nodes : Array Node) :
    Memory.Changes f.Holds m f.Holds (f.overwrite m nodes) := by
  unfold overwrite Holds
  cases f.buckets with
  | none => exact .refl _ m
  | some p => simpa using Memory.changes_write p nodes

/-- An index points to the nodes that were written to its block. -/
theorem points_overwrite (h : f.Right m) {nodes : Array Node} (hsize : nodes.size = f.bucketCount)
    (hnull : f.buckets = none → nodes = #[.empty]) : f.Points (f.overwrite m nodes) nodes where
  null hnone := ⟨h.null hnone, hnull hnone⟩
  block p hp := by
    obtain ⟨b, hb, hallocator, -⟩ := h.block p hp
    have hp : f.buckets = some p := hp
    simp only [overwrite, hp, Memory.block_write hb, hallocator]
  size hsome := by
    obtain ⟨p, hp⟩ := Option.ne_none_iff_exists'.mp hsome
    exact ⟨hsize, h.several p hp⟩

/-- An index that is cleared in the memory stands for the cleared one. -/
theorem becomes_clear (h : f.Right m) : Becomes f.Holds m (f.index m).clear (f.clear m) := by
  refine becomes_of_points (changes_overwrite _) ?_
  have hbuckets : (f.index m).clear.buckets = Array.replicate f.bucketCount .empty := by
    rw [← bucketCount_index (m := m)]
    rfl
  rw [hbuckets]
  refine points_overwrite h Array.size_replicate fun hnone => ?_
  rw [bucketCount, h.null hnone]
  rfl

/-- An index with new buckets, or none. One that is null has only the bucket that stays empty. -/
theorem points_renew (h : f.Right m) {ix : Index} (hnull : ix.isNull → ix.buckets = #[.empty])
    {r : StoredIndex} {b : Option Block} (hr : r.buckets = (m.place b).1)
    (hmask : r.mask = ix.bucketCount - 1)
    (hb : b = if ix.isNull then none else some ⟨ix.buckets, r.allocator⟩) :
    r.Points (f.freeBuckets (m.place b).2).2 ix.buckets := by
  have hnone : r.buckets = none ↔ ix.isNull = true := by
    rw [hr, Memory.place_eq_none, hb]
    simp
  refine ⟨fun hbuckets => ?_, fun p hp => ?_, fun hsome => ?_⟩
  · have hone := hnone.mp hbuckets
    rw [Index.isNull, decide_eq_true_eq] at hone
    exact ⟨by omega, hnull (hnone.mp hbuckets)⟩
  · have hp : r.buckets = some p := hp
    rw [block_renew h (hr.symm.trans hp), hb, if_neg (mt hnone.mpr (hp ▸ nofun))]
  · have hmany := mt hnone.mpr hsome
    rw [Index.isNull, decide_eq_true_eq] at hmany
    rw [bucketCount, hmask, ← Index.bucketCount]
    omega

/-- An index may be written over by any other one, since only its own block changes. -/
theorem becomes_rewrite (h : f.Right m) {ix : Index} (hnull : ix.isNull → ix.buckets = #[.empty]) :
    Becomes f.Holds m ix (f.rewrite m ix) := by
  unfold rewrite
  by_cases hnew : (ix.isNull || f.bucketCount != ix.bucketCount) = true
  · rw [if_pos hnew]
    exact becomes_of_points (changes_renew h _) (points_renew h hnull rfl rfl rfl)
  · rw [if_neg hnew]
    simp only [Bool.or_eq_true, bne_iff_ne, ne_eq, not_or, not_not] at hnew
    obtain ⟨hmany, hsize⟩ := hnew
    refine becomes_of_points (changes_overwrite _) (points_overwrite h hsize.symm fun hnone => ?_)
    -- as many buckets as a null index are those of a null index
    refine absurd ?_ hmany
    rw [Index.isNull, ← hsize, bucketCount, h.null hnone]
    rfl

end StoredIndex

end OrderedHash
