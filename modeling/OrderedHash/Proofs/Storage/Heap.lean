import OrderedHash.Proofs.Storage.StoredIndex
import OrderedHash.Table.Transfer

namespace OrderedHash

/-!
# Containers as they are stored

A heap is a memory with containers by number, each of which is a hashing, a store of items and
a stored index. In a `Sound` heap the fields of every index are right, no two containers hold
one block, and every block is held.

Copying, moving and exchanging containers, by assignment or by construction and with any
allocators, gives the tables that it should and keeps the heap sound (`Transfer.sound_perform`,
`Transfer.container_perform`).
-/

open Function (update)

/-- A container: how it hashes and compares keys, its items and its index. -/
structure StoredTable (K V : Type) where
  hashing : Hashing K
  items : Array V
  index : StoredIndex

/-- A memory, and the containers that share it. -/
structure Heap (K V : Type) where
  object : Nat → StoredTable K V
  memory : Memory

namespace Heap

variable {K V : Type}

/-- New containers, each with a hashing of its own. -/
def start (κs : Nat → Hashing K) (allocator : Nat → Nat) : Heap K V :=
  ⟨fun i => ⟨κs i, #[], .new (allocator i)⟩, .vacant⟩

variable (hp : Heap K V)

/-- Whether the buckets of a container are the block at an address. -/
def Holds (i p : Nat) : Prop := (hp.object i).index.Holds p

/-- The table that a container stands for. -/
def table (i : Nat) : Table V := ⟨(hp.object i).items, (hp.object i).index.index hp.memory⟩

/-- What a container is to its users. -/
def container (i : Nat) : Hashing K × Table V := ((hp.object i).hashing, hp.table i)

/-- The heap with another container of a number and another memory. -/
def put (i : Nat) (o : StoredTable K V) (m : Memory) : Heap K V := ⟨update hp.object i o, m⟩

/-- Removes all items of a container. -/
def clear (i : Nat) : Heap K V :=
  let (index, m) := (hp.object i).index.clear hp.memory
  hp.put i { hp.object i with items := #[], index } m

/-- Makes a container a copy of another one. -/
def copyAssign (rule : Propagation) (i j : Nat) : Heap K V :=
  if i = j then hp
  else
    let other := hp.object j
    let (index, m) := (hp.object i).index.copyFrom other.index hp.memory rule
    hp.put i ⟨other.hashing, other.items, index⟩ m

/-- Destroys a container and constructs a copy of another one in its place. -/
def copyConstruct (allocator i j : Nat) : Heap K V :=
  let (_, m) := (hp.object i).index.freeBuckets hp.memory
  let other := hp.object j
  let (index, m) := (StoredIndex.new allocator).copyNodes other.index m
  hp.put i ⟨other.hashing, other.items, index⟩ m

/-- Moves a container to another one. Whatever the store of the source is left with is cleared. -/
def moveAssign (rule : Propagation) (left : Array V) (i j : Nat) : Heap K V :=
  if i = j then hp
  else
    let other := hp.object j
    let (index, index', m) := (hp.object i).index.moveFrom other.index hp.memory rule
    let hp := hp.put j ⟨other.hashing, left, index'⟩ m
    let hp := hp.put i ⟨other.hashing, other.items, index⟩ m
    hp.clear j

/-- Destroys a container and moves another one to a new one in its place, with its allocator.
    A store that is moved in this way is left empty. -/
def moveConstruct (i j : Nat) : Heap K V :=
  let (_, m) := (hp.object i).index.freeBuckets hp.memory
  let other := hp.object j
  let (index, index') := (StoredIndex.new other.index.allocator).steal other.index
  let hp := hp.put j ⟨other.hashing, #[], index'⟩ m
  hp.put i ⟨other.hashing, other.items, index⟩ m

/-- Destroys a container and moves another one to a new one in its place, with any allocator. -/
def moveConstructWith (left : Array V) (allocator i j : Nat) : Heap K V :=
  let (_, m) := (hp.object i).index.freeBuckets hp.memory
  let other := hp.object j
  let (index, index', m) := other.index.moveConstruct m allocator
  let hp := hp.put j ⟨other.hashing, left, index'⟩ m
  let hp := hp.put i ⟨other.hashing, other.items, index⟩ m
  hp.clear j

/-- Exchanges two containers. -/
def swap (rule : Propagation) (i j : Nat) : Heap K V :=
  if i = j then hp
  else
    let (index, index') := (hp.object i).index.swap (hp.object j).index rule
    let m := hp.memory
    (hp.put j { hp.object i with index := index' } m).put i { hp.object j with index } m

/-- Brings a container into any other state. -/
def rewrite (i : Nat) (c : Hashing K × Table V) : Heap K V :=
  let (index, m) := (hp.object i).index.rewrite hp.memory c.2.index
  hp.put i ⟨c.1, c.2.items, index⟩ m

/-! ### Sound heaps -/

/-- The fields of all containers are right, and every block is held by one of them. -/
structure Sound : Prop where
  right : ∀ i, (hp.object i).index.Right hp.memory
  apart : ∀ i j p, hp.Holds i p → hp.Holds j p → i = j
  held : ∀ p, hp.memory.block p ≠ none → ∃ i, hp.Holds i p

variable {hp}

/-- A heap of empty containers holds no blocks, and is sound. -/
theorem sound_start (κs : Nat → Hashing K) (allocator : Nat → Nat) :
    (start κs allocator : Heap K V).Sound where
  right _ := ⟨⟨fun _ => rfl, nofun, nofun⟩, rfl⟩
  apart _ _ _ := nofun
  held _ hsome := absurd rfl hsome

/-- Every container is empty at first, and has the hash function that it was given. -/
theorem container_start (κs : Nat → Hashing K) (allocator : Nat → Nat) (i : Nat) :
    (start κs allocator : Heap K V).container i = (κs i, .empty .standard) := by
  have htable : (start κs allocator : Heap K V).table i =
      ⟨#[], ⟨(StoredIndex.new (allocator i)).nodes .vacant, 0, 0, 1, .standard⟩⟩ := rfl
  rw [container, htable, StoredIndex.nodes_of_null rfl rfl]
  rfl

section Change

variable {hp' : Heap K V} {i j : Nat} (h : hp.Sound)
  (hchanges : Memory.Changes (fun p => hp.Holds i p ∨ hp.Holds j p) hp.memory
    (fun p => hp'.Holds i p ∨ hp'.Holds j p) hp'.memory)

include h hchanges

/-- The block of a third container is not given out again. -/
theorem Sound.not_given {k p : Nat} (hki : k ≠ i) (hkj : k ≠ j) (hk : hp.Holds k p) :
    ¬ (hp'.Holds i p ∨ hp'.Holds j p) := by
  intro hafter
  obtain ⟨b, hb, -⟩ := (h.right k).block p hk
  rcases hchanges.new p hafter with (hbefore | hbefore) | hnone
  · exact hki (h.apart k i p hk hbefore)
  · exact hkj (h.apart k j p hk hbefore)
  · rw [hb] at hnone
    cases hnone

/-- A block of another container does not change. -/
theorem Sound.block_eq {k p : Nat} (hki : k ≠ i) (hkj : k ≠ j) (hk : hp.Holds k p) :
    hp'.memory.block p = hp.memory.block p := by
  refine hchanges.other p ?_ (h.not_given hchanges hki hkj hk)
  rintro (hbefore | hbefore)
  · exact hki (h.apart k i p hk hbefore)
  · exact hkj (h.apart k j p hk hbefore)

/-- Two containers may change what they hold if it is not the same that they come to hold. -/
theorem Sound.change (hi : (hp'.object i).index.Right hp'.memory)
    (hj : (hp'.object j).index.Right hp'.memory)
    (hapart : ∀ p, hp'.Holds i p → hp'.Holds j p → i = j)
    (hothers : ∀ k, k ≠ i → k ≠ j → hp'.object k = hp.object k) :
    hp'.Sound ∧ ∀ k, k ≠ i → k ≠ j → hp'.container k = hp.container k := by
  have hholds : ∀ k p, k ≠ i → k ≠ j → (hp'.Holds k p ↔ hp.Holds k p) := fun k p hki hkj => by
    rw [Holds, Holds, hothers k hki hkj]
  -- a third container holds what none of the two holds
  have hthird : ∀ k l p, k ≠ i → k ≠ j → hp'.Holds k p → hp'.Holds l p → k = l := by
    intro k l p hki hkj hk hl
    have hold := (hholds k p hki hkj).mp hk
    have hnot := h.not_given hchanges hki hkj hold
    have hli : l ≠ i := fun hli => hnot (.inl (hli ▸ hl))
    have hlj : l ≠ j := fun hlj => hnot (.inr (hlj ▸ hl))
    exact h.apart k l p hold ((hholds l p hli hlj).mp hl)
  refine ⟨⟨fun k => ?_, fun k l p hk hl => ?_, fun p hsome => ?_⟩, fun k hki hkj => ?_⟩
  · by_cases hki : k = i
    · exact hki ▸ hi
    by_cases hkj : k = j
    · exact hkj ▸ hj
    rw [hothers k hki hkj]
    exact (h.right k).congr fun p hheld => h.block_eq hchanges hki hkj hheld
  · by_cases hk' : k ≠ i ∧ k ≠ j
    · exact hthird k l p hk'.1 hk'.2 hk hl
    by_cases hl' : l ≠ i ∧ l ≠ j
    · exact (hthird l k p hl'.1 hl'.2 hl hk).symm
    have hkij : k = i ∨ k = j := by omega
    have hlij : l = i ∨ l = j := by omega
    rcases hkij with rfl | rfl <;> rcases hlij with rfl | rfl
    · rfl
    · exact hapart p hk hl
    · exact (hapart p hl hk).symm
    · rfl
  · by_cases hafter : hp'.Holds i p ∨ hp'.Holds j p
    · exact hafter.elim (fun hheld => ⟨i, hheld⟩) fun hheld => ⟨j, hheld⟩
    by_cases hbefore : hp.Holds i p ∨ hp.Holds j p
    · exact absurd (hchanges.freed p hbefore hafter) hsome
    rw [hchanges.other p hbefore hafter] at hsome
    obtain ⟨k, hk⟩ := h.held p hsome
    have hki : k ≠ i := fun hki => hbefore (.inl (hki ▸ hk))
    have hkj : k ≠ j := fun hkj => hbefore (.inr (hkj ▸ hk))
    exact ⟨k, (hholds k p hki hkj).mpr hk⟩
  · rw [container, container, table, table, hothers k hki hkj,
      StoredIndex.index_congr fun p hheld => h.block_eq hchanges hki hkj hheld]

end Change

/-- A sound heap is sound after the index of a container became another one, and only that container
    is new. -/
theorem Sound.put_of_becomes (h : hp.Sound) {i : Nat} {ix : Index} {r : StoredIndex × Memory}
    (hr : StoredIndex.Becomes (hp.Holds i) hp.memory ix r) (κ : Hashing K) (items : Array V) :
    (hp.put i ⟨κ, items, r.1⟩ r.2).Sound ∧
      (hp.put i ⟨κ, items, r.1⟩ r.2).container = update hp.container i (κ, ⟨items, ix⟩) := by
  have hi : (hp.put i ⟨κ, items, r.1⟩ r.2).object i = ⟨κ, items, r.1⟩ := Function.update_self _ _ _
  have hholds : ∀ p, (hp.put i ⟨κ, items, r.1⟩ r.2).Holds i p ↔ r.1.Holds p := fun p => by
    rw [Holds, hi]
  have hright : ((hp.put i ⟨κ, items, r.1⟩ r.2).object i).index.Right r.2 := by
    rw [hi]
    exact hr.right
  -- only the blocks of this container were changed, so that the others are as they were
  obtain ⟨hsound, hothers⟩ := h.change (i := i) (j := i)
    (hr.changes.congr (fun p => or_self_iff.symm) fun p => (hholds p).symm.trans or_self_iff.symm)
    hright hright (fun _ _ _ => rfl) fun k hk _ => Function.update_of_ne hk _ _
  refine ⟨hsound, funext fun k => ?_⟩
  by_cases hk : k = i
  · subst hk
    rw [Function.update_self, container, table, hi, ← hr.index]
    rfl
  · rw [Function.update_of_ne hk, hothers k hk hk]

/-- A sound heap is sound after the indexes of two containers became others, and only those two are
    new. -/
theorem Sound.put_of_becomeBoth (h : hp.Sound) {i j : Nat} (hij : i ≠ j) {ix left : Index}
    {r : StoredIndex × StoredIndex × Memory}
    (hr : StoredIndex.BecomeBoth (fun p => hp.Holds i p ∨ hp.Holds j p) hp.memory ix left r)
    (κ κ' : Hashing K) (items items' : Array V) :
    ((hp.put j ⟨κ', items', r.2.1⟩ r.2.2).put i ⟨κ, items, r.1⟩ r.2.2).Sound ∧
      ((hp.put j ⟨κ', items', r.2.1⟩ r.2.2).put i ⟨κ, items, r.1⟩ r.2.2).container =
        update (update hp.container j (κ', ⟨items', left⟩)) i (κ, ⟨items, ix⟩) := by
  generalize hnext : (hp.put j ⟨κ', items', r.2.1⟩ r.2.2).put i ⟨κ, items, r.1⟩ r.2.2 = next
  have hmemory : next.memory = r.2.2 := hnext ▸ rfl
  have hi : next.object i = ⟨κ, items, r.1⟩ := by
    rw [← hnext]
    exact Function.update_self _ _ _
  have hj : next.object j = ⟨κ', items', r.2.1⟩ := by
    rw [← hnext]
    exact (Function.update_of_ne hij.symm _ _).trans (Function.update_self _ _ _)
  have hothers : ∀ k, k ≠ i → k ≠ j → next.object k = hp.object k := fun k hki hkj => by
    rw [← hnext]
    exact (Function.update_of_ne hki _ _).trans (Function.update_of_ne hkj _ _)
  -- the two containers hold different blocks, as the operation says
  have hapart : ∀ p, next.Holds i p → next.Holds j p → i = j := fun p hpi hpj => by
    rw [Holds, hi] at hpi
    rw [Holds, hj] at hpj
    exact absurd hpj (hr.apart p hpi)
  have hchanges : Memory.Changes (fun p => hp.Holds i p ∨ hp.Holds j p) hp.memory
      (fun p => next.Holds i p ∨ next.Holds j p) next.memory := by
    simpa only [Holds, hi, hj, hmemory] using hr.changes
  obtain ⟨hsound, hothers⟩ := h.change hchanges
    (by simpa only [hi, hmemory] using hr.right) (by simpa only [hj, hmemory] using hr.right_left)
    hapart hothers
  refine ⟨hsound, funext fun k => ?_⟩
  by_cases hki : k = i
  · subst hki
    rw [Function.update_self, container, table, hi, hmemory, ← hr.index]
  rw [Function.update_of_ne hki]
  -- all but the two containers are what they were
  by_cases hkj : k = j
  · subst hkj
    rw [Function.update_self, container, table, hj, hmemory, ← hr.index_left]
  · rw [Function.update_of_ne hkj, hothers k hki hkj]

/-! ### Operations -/

/-- A container that is cleared keeps its hash function, and the others are as before. -/
theorem Sound.clear (h : hp.Sound) (i : Nat) : (hp.clear i).Sound ∧
    (hp.clear i).container = update hp.container i ((hp.container i).1, (hp.table i).clear) :=
  h.put_of_becomes (StoredIndex.becomes_clear (h.right i)) _ _

/-- A container may be replaced by any other one, and the others are as before. -/
theorem Sound.rewrite (h : hp.Sound) (i : Nat) {c : Hashing K × Table V}
    (hnull : c.2.index.isNull → c.2.index.buckets = #[.empty]) :
    (hp.rewrite i c).Sound ∧ (hp.rewrite i c).container = update hp.container i c :=
  h.put_of_becomes (StoredIndex.becomes_rewrite (h.right i) hnull) _ _

/-- Two containers hold no block in common. -/
theorem Sound.not_holds (h : hp.Sound) {i j : Nat} (hij : i ≠ j) (p : Nat)
    (hi : hp.Holds i p) : ¬ hp.Holds j p :=
  fun hj => hij (h.apart i j p hi hj)

/-- A container that is assigned from another one is what that is, its hash function included. -/
theorem Sound.copyAssign (h : hp.Sound) (rule : Propagation) (i j : Nat) :
    (hp.copyAssign rule i j).Sound ∧
      (hp.copyAssign rule i j).container = update hp.container i (hp.container j) := by
  unfold Heap.copyAssign
  split
  · rename_i hij
    rw [hij, Function.update_eq_self]
    exact ⟨h, rfl⟩
  · exact h.put_of_becomes (StoredIndex.becomes_copyFrom (h.right i) (h.right j) rule) _ _

/-- A copy is what the original is, its hash function included. -/
theorem Sound.copyConstruct (h : hp.Sound) (allocator : Nat) {i j : Nat} (hij : i ≠ j) :
    (hp.copyConstruct allocator i j).Sound ∧
      (hp.copyConstruct allocator i j).container = update hp.container i (hp.container j) :=
  h.put_of_becomes
    (StoredIndex.becomes_construct (h.right i) (h.right j) (h.not_holds hij) allocator) _ _

/-- Two containers that are swapped are what the other one was, their hash functions included. -/
theorem Sound.swap (h : hp.Sound) {rule : Propagation} {i j : Nat}
    (hallocator : rule.onSwap = true ∨
      (hp.object i).index.allocator = (hp.object j).index.allocator) :
    (hp.swap rule i j).Sound ∧ (hp.swap rule i j).container =
      update (update hp.container j (hp.container i)) i (hp.container j) := by
  unfold Heap.swap
  split
  · rename_i hij
    rw [hij, Function.update_eq_self, Function.update_eq_self]
    exact ⟨h, rfl⟩
  · rename_i hij
    exact h.put_of_becomeBoth hij (StoredIndex.becomeBoth_swap (h.right i) (h.right j)
      (h.not_holds hij) hallocator) _ _ _ _

/-- A container whose items were moved is cleared at last. -/
theorem Sound.put_clear (h : hp.Sound) {i j : Nat} (hij : i ≠ j) {ix left : Index}
    {r : StoredIndex × StoredIndex × Memory}
    (hr : StoredIndex.BecomeBoth (fun p => hp.Holds i p ∨ hp.Holds j p) hp.memory ix left r)
    (κ κ' : Hashing K) (items items' : Array V) :
    (((hp.put j ⟨κ', items', r.2.1⟩ r.2.2).put i ⟨κ, items, r.1⟩ r.2.2).clear j).Sound ∧
      (((hp.put j ⟨κ', items', r.2.1⟩ r.2.2).put i ⟨κ, items, r.1⟩ r.2.2).clear j).container =
        update (update hp.container j (κ', ⟨#[], left.clear⟩)) i (κ, ⟨items, ix⟩) := by
  obtain ⟨hput, hcontainer⟩ := h.put_of_becomeBoth hij hr κ κ' items items'
  obtain ⟨hsound, hclear⟩ := hput.clear j
  refine ⟨hsound, ?_⟩
  have hj := congrFun hcontainer j
  rw [Function.update_of_ne hij.symm, Function.update_self] at hj
  rw [hclear, hj, show Heap.table _ j = _ from congrArg Prod.snd hj, hcontainer,
    Function.update_comm hij, Function.update_idem]
  rfl

/-- The container that was moved away from. -/
abbrev leftBehind (hp : Heap K V) (j : Nat) (sharedStorage : Bool) : Hashing K × Table V :=
  ((hp.container j).1, ⟨#[], ((hp.table j).index.takeOver sharedStorage).2.clear⟩)

/-- A container that another one is moved to is what that was, and the other one is left behind. -/
theorem Sound.moveAssign (h : hp.Sound) (rule : Propagation) (left : Array V) {i j : Nat}
    (hij : i ≠ j) :
    (hp.moveAssign rule left i j).Sound ∧ (hp.moveAssign rule left i j).container =
      update (update hp.container j
        (hp.leftBehind j ((hp.object i).index.maySteal (hp.object j).index rule)))
        i (hp.container j) := by
  unfold Heap.moveAssign
  rw [if_neg hij]
  exact h.put_clear hij (StoredIndex.becomeBoth_moveFrom (h.right i) (h.right j)
    (h.not_holds hij) rule) _ _ _ _

/-- A container that is made by a move is what the other one was, which is left behind without its
    buckets. -/
theorem Sound.moveConstruct (h : hp.Sound) {i j : Nat} (hij : i ≠ j) :
    (hp.moveConstruct i j).Sound ∧ (hp.moveConstruct i j).container =
      update (update hp.container j (hp.leftBehind j true)) i (hp.container j) :=
  h.put_of_becomeBoth hij (StoredIndex.becomeBoth_free_steal (h.right i) (h.right j)
    (h.not_holds hij) rfl) _ _ _ _

/-- A container that is made by a move with an allocator of its own is what the other one was. -/
theorem Sound.moveConstructWith (h : hp.Sound) (left : Array V) (allocator : Nat) {i j : Nat}
    (hij : i ≠ j) : (hp.moveConstructWith left allocator i j).Sound ∧
      (hp.moveConstructWith left allocator i j).container =
        update (update hp.container j
          (hp.leftBehind j (allocator == (hp.object j).index.allocator))) i (hp.container j) :=
  h.put_clear hij (StoredIndex.becomeBoth_moveConstruct (h.right i) (h.right j)
    (h.not_holds hij) allocator) _ _ _ _

end Heap

end OrderedHash
