import OrderedHash.Proofs.Runs.Consistency
import OrderedHash.Proofs.Runs.Exchanges
import OrderedHash.Proofs.Storage.Heap

namespace OrderedHash

/-!
# Containers that are copied, moved and swapped

A run of turns on a world can be made on a heap (`Heap.Run`): copies, moves and exchanges are
made on the stored containers, with any allocators, and other turns bring the containers that
they change into their new states. Each container has a hash function of its own, which is
stored with it, and the heap stands for the world and the hash functions at every moment
(`Heap.Implements`).

So after every run a copy is what its source was, a container that was moved to is what its
source was, two containers are exchanged, and no turn has an effect on a container that it does
not change (`Heap.transfers_of_reachable`). A container that was moved from cannot be told from
a new one by what it answers and by the items it holds.
-/

open Function (update)

variable {K V σ : Type}

/-- A null index has only the bucket that stays empty. -/
theorem Table.Coherent.buckets_of_isNull {κ : Keying K V} {t : Table V} (h : t.Coherent κ)
    (hnull : t.index.isNull) : t.index.buckets = #[.empty] := by
  have hformed := h.indexes.formed
  obtain ⟨b, hb, hempty⟩ := hformed.empty
  rw [Index.isNull, decide_eq_true_eq] at hnull
  obtain rfl : b = 0 := by omega
  have hone : t.index.buckets.size = 1 := by
    rw [Index.bucketCount] at hb hnull
    omega
  -- the bucket is not a tombstone, which does not count as empty
  have hnode : t.index.node 0 = .empty := by
    refine (hformed.dead 0 (by simp [Node.isLive, hempty])).resolve_right fun htombstone => ?_
    rw [htombstone, Node.isEmpty_tombstone] at hempty
    cases hempty
  refine Array.ext hone fun p hp hp' => ?_
  obtain rfl : p = 0 := by omega
  rw [← Index.node_eq_getElem hp]
  exact hnode

/-! ### Runs on heaps -/

namespace Heap

variable {I : Interface K V} {κs : Nat → Hashing K} {rule : Propagation} {hp : Heap K V}
  {w : World K V σ}

/-- Brings some containers into the states that are given by number. -/
def adopt (hp : Heap K V) (containers : Nat → Hashing K × Table V) : List Nat → Heap K V
  | [] => hp
  | i :: is => (hp.rewrite i (containers i)).adopt containers is

/-- The heap stands for the containers of the world, which have these hash functions. The bounds
    in the fields of their indexes are those of the tables. -/
structure Implements (κs : Nat → Hashing K) (hp : Heap K V) (w : World K V σ) : Prop where
  sound : hp.Sound
  container : hp.container = fun i => (κs i, w.table i)
  target : ∀ i, (hp.object i).index.target = (w.table i).capacity
  maxFill : ∀ i, (hp.object i).index.maxFill = (w.table i).index.maxFill

/-- How copies, moves and exchanges of two containers are made on a heap. They are assignments
    or constructions, and which of them take buckets over depends on the allocators. Only
    containers that have or get the same allocator may be exchanged. -/
inductive Transfers (rule : Propagation) (hp : Heap K V) : Turn I σ Unit → Heap K V → Prop where
  | copyAssign (i j : Nat) : Transfers rule hp (.copy i j) (hp.copyAssign rule i j)
  | copyConstruct (allocator : Nat) {i j : Nat} (hij : i ≠ j) :
      Transfers rule hp (.copy i j) (hp.copyConstruct allocator i j)
  | moveAssign (left : Array V) (i j : Nat) :
      Transfers rule hp (.move ((hp.object i).index.maySteal (hp.object j).index rule) i j)
        (hp.moveAssign rule left i j)
  | moveConstruct {i j : Nat} (hij : i ≠ j) :
      Transfers rule hp (.move true i j) (hp.moveConstruct i j)
  | moveConstructWith (left : Array V) (allocator : Nat) {i j : Nat} (hij : i ≠ j) :
      Transfers rule hp (.move (allocator == (hp.object j).index.allocator) i j)
        (hp.moveConstructWith left allocator i j)
  | swap {i j : Nat} (hallocator : rule.onSwap = true ∨
      (hp.object i).index.allocator = (hp.object j).index.allocator) :
      Transfers rule hp (.swap i j) (hp.swap rule i j)

/-- The heaps, hash functions and worlds that a run can arrive at from given ones without a turn
    that changes a container to be kept. Turns other than transfers may do to the memory of
    the containers that they change whatever gives them their tables. -/
inductive Run (I : Interface K V) (rule : Propagation) (kept : Nat → Prop) (hp : Heap K V)
    (κs : Nat → Hashing K) (w : World K V σ) :
    Heap K V → (Nat → Hashing K) → World K V σ → Prop where
  | here : Run I rule kept hp κs w hp κs w
  | turn {α : Type} {hp' : Heap K V} {κs' : Nat → Hashing K} {w' : World K V σ}
      (h : Run I rule kept hp κs w hp' κs' w') (refuse : Nat → K → Option Fault)
      (turn : Turn I σ α) (hkept : ∀ k ∈ turn.changes, ¬ kept k)
      (hfits : ((turn.actEach fun i => (κs' i).refusing (refuse i)).step w').2.Fits) :
      Run I rule kept hp κs w
        (hp'.adopt (fun i => (κs' (turn.former
            ((turn.actEach fun i => (κs' i).refusing (refuse i)).step w').1 i),
          (turn.nextEach (fun i => (κs' i).refusing (refuse i)) w').table i)) turn.changes)
        (fun i => κs' (turn.former
          ((turn.actEach fun i => (κs' i).refusing (refuse i)).step w').1 i))
        (turn.nextEach (fun i => (κs' i).refusing (refuse i)) w')
  | transfer {hp' hp'' : Heap K V} {κs' : Nat → Hashing K} {w' : World K V σ}
      (h : Run I rule kept hp κs w hp' κs' w') {turn : Turn I σ Unit}
      (htransfer : hp'.Transfers rule turn hp'') (hkept : ∀ k ∈ turn.changes, ¬ kept k) :
      Run I rule kept hp κs w hp'' (fun i => κs' (turn.former (.ok ()) i))
        ((turn.actEach κs').step w').2

/-- The heaps, hash functions and worlds that a run can arrive at that starts with new
    containers. -/
def Reachable (I : Interface K V) (rule : Propagation) (hp : Heap K V) (κs : Nat → Hashing K)
    (w : World K V σ) : Prop :=
  ∃ κs₀ allocator s, (∀ i, (κs₀ i).Lawful) ∧
    Run I rule (fun _ => False) (.start κs₀ allocator) κs₀ (.start s) hp κs w

/-! #### The heap stands for the world -/

/-- A sound heap stands for the world whose containers it has. -/
theorem Sound.implements (h : hp.Sound) (hcontainer : hp.container = fun i => (κs i, w.table i)) :
    hp.Implements κs w := by
  have htable : ∀ i, hp.table i = w.table i := fun i => congrArg Prod.snd (congrFun hcontainer i)
  refine ⟨h, hcontainer, fun i => ?_, fun i => ?_⟩
  · rw [← htable]
    exact (h.right i).target_eq
  · rw [← htable]
    exact (h.right i).maxFill_eq

/-- A heap of empty containers stands for the first world. -/
theorem implements_start (κs : Nat → Hashing K) (allocator : Nat → Nat) (s : σ) :
    (start κs allocator : Heap K V).Implements κs (World.start s : World K V σ) :=
  (sound_start κs allocator).implements (funext (container_start κs allocator))

/-- The containers of the list are what they were to become, and the others are what they
    were. -/
theorem Sound.adopt (h : hp.Sound) (containers : Nat → Hashing K × Table V)
    (hnull : ∀ i, (containers i).2.index.isNull → (containers i).2.index.buckets = #[.empty])
    (is : List Nat) :
    (hp.adopt containers is).Sound ∧ ∀ k, (hp.adopt containers is).container k =
      if k ∈ is then containers k else hp.container k := by
  induction is generalizing hp with
  | nil => exact ⟨h, fun k => by simp [Heap.adopt]⟩
  | cons i is ih =>
    obtain ⟨hsound, hcontainer⟩ := h.rewrite i (hnull i)
    obtain ⟨hnext, hrest⟩ := ih hsound
    refine ⟨hnext, fun k => ?_⟩
    rw [Heap.adopt, hrest, hcontainer]
    by_cases hk : k = i
    · simp [hk]
    · simp [hk]

section Implements

variable (h : hp.Implements κs w)

include h

/-- The heap has the tables of the world that it stands for. -/
theorem Implements.table_eq : hp.table = w.table :=
  funext fun i => congrArg Prod.snd (congrFun h.container i)

/-- The heap has the containers of the world that it stands for, with their hash functions. -/
theorem Implements.container_eq (k : Nat) : hp.container k = (κs k, w.table k) :=
  congrFun h.container k

/-- What a move leaves behind is empty, and keeps its hash function. -/
theorem Implements.leftBehind_eq (j : Nat) (sharedStorage : Bool) :
    hp.leftBehind j sharedStorage =
      (κs j, ⟨#[], ((w.table j).index.takeOver sharedStorage).2.clear⟩) := by
  rw [leftBehind, h.table_eq, h.container_eq]

/-- A heap in which a container was replaced by a copy stands for the world after that turn. -/
theorem Implements.of_copy {hp' : Heap K V} {i j : Nat}
    (hafter : hp'.Sound ∧ hp'.container = update hp.container i (hp.container j)) :
    hp'.Implements (fun k => κs (update id i j k))
      (((Turn.copy i j : Turn I σ Unit).actEach κs).step w).2 := by
  refine hafter.1.implements (funext fun k => ?_)
  rw [hafter.2, h.container_eq, Turn.table_copy]
  by_cases hk : k = i
  · simp [hk]
  · simp [hk, h.container_eq]

/-- A heap in which a container was moved to another one stands for the world after that turn. -/
theorem Implements.of_move {hp' : Heap K V} {i j : Nat} {sharedStorage : Bool} (hij : i ≠ j)
    (hafter : hp'.Sound ∧ hp'.container =
      update (update hp.container j (hp.leftBehind j sharedStorage)) i (hp.container j)) :
    hp'.Implements (fun k => κs (update id i j k))
      (((Turn.move sharedStorage i j : Turn I σ Unit).actEach κs).step w).2 := by
  refine hafter.1.implements (funext fun k => ?_)
  rw [hafter.2, h.leftBehind_eq, h.container_eq, Turn.table_move κs w _ hij]
  by_cases hki : k = i
  · simp [hki]
  by_cases hkj : k = j
  · simp [hkj, hij.symm]
  · simp [hki, hkj, h.container_eq]

/-- A transfer comes to what it does to the world and to the hash functions. -/
theorem Implements.transfer {turn : Turn I σ Unit} {hp' : Heap K V}
    (htransfer : hp.Transfers rule turn hp') :
    hp'.Implements (fun k => κs (turn.former (.ok ()) k)) ((turn.actEach κs).step w).2 := by
  cases htransfer with
  | copyAssign i j => exact h.of_copy (h.sound.copyAssign rule i j)
  | copyConstruct allocator hij => exact h.of_copy (h.sound.copyConstruct allocator hij)
  | moveAssign left i j =>
    by_cases hij : i = j
    · -- a container that is assigned to itself is left alone
      subst hij
      rw [moveAssign, if_pos rfl]
      refine h.sound.implements (funext fun k => ?_)
      have hformer : update id i i k = k := congrFun (Function.update_eq_self i id) k
      rw [h.container_eq, Turn.table_move_self, Turn.former, hformer]
    · exact h.of_move hij (h.sound.moveAssign rule left hij)
  | moveConstruct hij => exact h.of_move hij (h.sound.moveConstruct hij)
  | moveConstructWith left allocator hij =>
    exact h.of_move hij (h.sound.moveConstructWith left allocator hij)
  | @swap i j hallocator =>
    obtain ⟨hsound, hafter⟩ := h.sound.swap hallocator
    refine hsound.implements (funext fun k => ?_)
    rw [hafter, h.container_eq, h.container_eq, Turn.table_swap, Turn.former]
    -- the two hash functions go with their containers
    by_cases hki : k = i
    · simp [hki]
    by_cases hkj : k = j
    · simp [hkj, show j ≠ i from hkj ▸ hki]
    · simp [hki, hkj, h.container_eq]

/-- Any other turn is made on the containers that it changes. -/
theorem Implements.adopt {κs' : Nat → Hashing K} {w' : World K V σ} {is : List Nat}
    (hnull : ∀ i, (w'.table i).index.isNull → (w'.table i).index.buckets = #[.empty])
    (hothers : ∀ k, k ∉ is → κs' k = κs k ∧ w'.table k = w.table k) :
    (hp.adopt (fun i => (κs' i, w'.table i)) is).Implements κs' w' := by
  obtain ⟨hsound, hafter⟩ := h.sound.adopt (fun i => (κs' i, w'.table i)) hnull is
  refine hsound.implements (funext fun k => ?_)
  rw [hafter]
  split
  · rfl
  · rename_i hk
    obtain ⟨hhashing, htable⟩ := hothers k hk
    rw [h.container_eq, hhashing, htable]

end Implements

/-! #### Runs -/

/-- No container gets larger than one was. -/
theorem Transfers.fits {turn : Turn I σ Unit} {hp' : Heap K V}
    (htransfer : hp.Transfers rule turn hp') (h : w.Fits) : ((turn.actEach κs).step w).2.Fits := by
  cases htransfer with
  | copyAssign i j => exact h.copy κs i j
  | copyConstruct allocator hij => exact h.copy κs _ _
  | moveAssign left i j => exact h.move κs _ i j
  | moveConstruct hij => exact h.move κs _ _ _
  | moveConstructWith left allocator hij => exact h.move κs _ _ _
  | swap hallocator => exact h.swap κs _ _

/-- A run goes on with a transfer. -/
theorem Transfers.reachable {turn : Turn I σ Unit} {hp' : Heap K V}
    (htransfer : hp.Transfers rule turn hp') (h : w.ReachableEach I κs) :
    ((turn.actEach κs).step w).2.ReachableEach I fun k => κs (turn.former (.ok ()) k) := by
  have hnext := h.turn (fun i => (κs i).refusal) turn (htransfer.fits h.fits)
  cases htransfer <;> exact hnext

section Run

variable {kept : Nat → Prop} {hp' : Heap K V} {κs' : Nat → Hashing K} {w' : World K V σ}

/-- The heap stands for the world throughout a run, in which the world remains reachable. -/
theorem Run.implements (hrun : Run I rule kept hp κs w hp' κs' w') (h : hp.Implements κs w)
    (hw : w.ReachableEach I κs) : hp'.Implements κs' w' ∧ w'.ReachableEach I κs' := by
  induction hrun with
  | here => exact ⟨h, hw⟩
  | turn _ refuse turn _ hfits ih =>
    have hnext := ih.2.turn refuse turn hfits
    refine ⟨ih.1.adopt (fun i => (hnext.coherent i).buckets_of_isNull) fun k hk => ⟨?_, ?_⟩, hnext⟩
    · rw [turn.former_of_notMem _ hk]
    · exact turn.table_nextEach _ _ hk
  | transfer _ htransfer _ ih => exact ⟨ih.1.transfer htransfer, htransfer.reachable ih.2⟩

/-- A container stays what it is while no turn changes it. -/
theorem Run.stays (hrun : Run I rule kept hp κs w hp' κs' w') {k : Nat} (hk : kept k) :
    κs' k = κs k ∧ w'.table k = w.table k := by
  induction hrun with
  | here => exact ⟨rfl, rfl⟩
  | turn _ refuse turn hkept _ ih =>
    have hnot : k ∉ turn.changes := fun hmem => hkept k hmem hk
    exact ⟨(congrArg _ (turn.former_of_notMem _ hnot)).trans ih.1,
      (turn.table_nextEach _ _ hnot).trans ih.2⟩
  | @transfer _ _ _ _ _ turn _ hkept ih =>
    have hnot : k ∉ turn.changes := fun hmem => hkept k hmem hk
    exact ⟨(congrArg _ (turn.former_of_notMem _ hnot)).trans ih.1,
      (turn.table_actEach _ _ hnot).trans ih.2⟩

/-- A container that a run keeps out of is what it was. -/
theorem Run.container_kept (hrun : Run I rule kept hp κs w hp' κs' w') (h : hp.Implements κs w)
    (hw : w.ReachableEach I κs) {k : Nat} (hk : kept k) : hp'.container k = hp.container k := by
  obtain ⟨hhashing, htable⟩ := hrun.stays hk
  rw [(hrun.implements h hw).1.container_eq, h.container_eq, hhashing, htable]

end Run

/-! ### What transfers come to -/

section Outcomes

variable (I : Interface K V) (rule : Propagation) (hp : Heap K V) (κs : Nat → Hashing K)
  (w : World K V σ)

/-- Container `i` has become a copy of container `j`: the same items and the same index with
    the same hash function and equality of keys, so that keys are found at the same positions.
    Whatever is done to other containers, each of the two stays so. -/
structure Copied (i j : Nat) (hp' : Heap K V) : Prop where
  target : hp'.container i = hp.container j
  others : ∀ k, k ≠ i → hp'.container k = hp.container k
  apart : ∀ {k : Nat} {hp'' : Heap K V} {κs'' : Nat → Hashing K} {w'' : World K V σ},
    k = i ∨ k = j →
      Run I rule (· = k) hp' (fun l => κs (update id i j l))
        (((Turn.copy i j : Turn I σ Unit).actEach κs).step w).2 hp'' κs'' w'' →
          hp''.container k = hp.container j

/-- Container `j` was moved to container `i`, which is what the other one was, the nodes of the
    index included. The other one is empty and consistent, and no program can tell it from a
    new container, whatever the load factor of that is and its hash function for the same
    equality of keys. -/
structure Moved (sharedStorage : Bool) (i j : Nat) (hp' : Heap K V) : Prop where
  target : hp'.container i = hp.container j
  others : ∀ k, k ≠ i → k ≠ j → hp'.container k = hp.container k
  empty : (hp'.table j).items = #[]
  hashing : (hp'.container j).1 = κs j
  consistent : (hp'.table j).Consistent (I.keying (κs j))
  new : ∀ (load : LoadFactor) {κ : Hashing K} {κs' : Nat → Hashing K} {w' : World K V σ},
    κs' = (fun l => κs (update id i j l)) →
      w' = (((Turn.move sharedStorage i j : Turn I σ Unit).actEach κs).step w).2 →
        κ.Lawful → κ.same = (κs j).same →
          ∀ {f : Nat → Nat} {v v' : World K V σ},
            World.Alongside I κs' (update κs' j κ) w' (w'.setTable j (.empty load)) f v v' →
              World.AlikeEach I (fun l => κs' (f l)) (fun l => update κs' j κ (f l)) v v'

/-- Containers `i` and `j` were exchanged. -/
structure Exchanged (i j : Nat) (hp' : Heap K V) : Prop where
  first : hp'.container i = hp.container j
  second : hp'.container j = hp.container i
  others : ∀ k, k ≠ i → k ≠ j → hp'.container k = hp.container k

end Outcomes

section Outcomes

variable (h : hp.Implements κs w) (hw : w.ReachableEach I κs) {i j : Nat} {hp' : Heap K V}

include h

/-- After a transfer every container is the one of the turn, and has the hash function that comes
    with it. -/
theorem Implements.container_transfer {turn : Turn I σ Unit}
    (htransfer : hp.Transfers rule turn hp') (k : Nat) :
    hp'.container k = (κs (turn.former (.ok ()) k), ((turn.actEach κs).step w).2.table k) :=
  (h.transfer htransfer).container_eq k

/-- A swap exchanges two containers. -/
theorem Implements.exchanged
    (htransfer : hp.Transfers rule (.swap i j : Turn I σ Unit) hp') : Exchanged hp i j hp' := by
  have hafter := h.container_transfer htransfer
  simp only [Turn.table_swap, Turn.former] at hafter
  refine ⟨?_, ?_, fun k hki hkj => ?_⟩
  · rw [hafter, h.container_eq, Function.update_self, Function.update_self]
  · by_cases hij : j = i
    · rw [hafter, h.container_eq, hij, Function.update_self, Function.update_self]
    · rw [hafter, h.container_eq, Function.update_of_ne hij, Function.update_of_ne hij,
        Function.update_self, Function.update_self]
  · rw [hafter, h.container_eq, Function.update_of_ne hki, Function.update_of_ne hki,
      Function.update_of_ne hkj, Function.update_of_ne hkj]
    rfl

include hw

/-- A copy is made, and has nothing to do with the original from then on. -/
theorem Implements.copied (htransfer : hp.Transfers rule (.copy i j : Turn I σ Unit) hp') :
    Copied I rule hp κs w i j hp' := by
  have hafter := h.container_transfer htransfer
  simp only [Turn.table_copy, Turn.former] at hafter
  have htarget : hp'.container i = hp.container j := by
    rw [hafter, h.container_eq, Function.update_self, Function.update_self]
  have hothers : ∀ k, k ≠ i → hp'.container k = hp.container k := fun k hk => by
    rw [hafter, h.container_eq, Function.update_of_ne hk, Function.update_of_ne hk]
    rfl
  refine ⟨htarget, hothers, fun {k hp'' κs'' w''} hk hrun => ?_⟩
  rw [hrun.container_kept (h.transfer htransfer) (htransfer.reachable hw) rfl]
  by_cases hki : k = i
  · rw [hki, htarget]
  · rw [hothers k hki, hk.resolve_left hki]

/-- A container is moved, and is as good as new. -/
theorem Implements.moved {sharedStorage : Bool} (hij : i ≠ j)
    (htransfer : hp.Transfers rule (.move sharedStorage i j : Turn I σ Unit) hp') :
    Moved I hp κs w sharedStorage i j hp' := by
  have hafter := h.container_transfer htransfer
  have himplements := h.transfer htransfer
  have hreach := htransfer.reachable hw
  have hmove := Turn.table_move (I := I) κs w sharedStorage hij
  have hformer : update id i j j = j := Function.update_of_ne hij.symm _ _
  -- the container that is left behind is empty, and keeps its own hash function
  have hempty : ((((Turn.move sharedStorage i j : Turn I σ Unit).actEach κs).step w).2.table
      j).items = #[] := by
    rw [hmove, Function.update_of_ne hij.symm, Function.update_self]
  simp only [Turn.former] at hafter hreach
  refine ⟨?_, fun k hki hkj => ?_, ?_, ?_, ?_, ?_⟩
  · rw [hafter, h.container_eq, hmove, Function.update_self, Function.update_self]
  · rw [hafter, h.container_eq, hmove, Function.update_of_ne hki, Function.update_of_ne hki,
      Function.update_of_ne hkj]
    rfl
  · rw [himplements.table_eq]
    exact hempty
  · rw [hafter, hformer]
  · have hconsistent := hreach.consistent j
    rw [hformer] at hconsistent
    rw [himplements.table_eq]
    exact hconsistent
  · -- an empty container is the twin of a fresh one, and a run cannot tell twins apart
    intro load κ κs' w' hκs' hw' hκ hsame f v v' hrun
    subst hκs' hw'
    have hclosed := World.closed_move (I := I) κs w sharedStorage hij
    have hsame' : κ.same = (κs (update id i j j)).same := by rwa [hformer]
    have htwin := hreach.twin_setTable hempty hclosed load hκ hsame'
    have hall : ∀ k, (update (fun l => κs (update id i j l)) j κ k).same =
        (κs (update id i j k)).same := fun k => by
      by_cases hk : k = j
      · rw [hk, Function.update_self, hsame']
      · rw [Function.update_of_ne hk]
    exact (hrun.twin htwin hall).alikeEach fun k => hall (f k)

end Outcomes

/-- After every run of a program on containers of one kind, each with a hash function of its own,
    on a heap and with any allocators, the heap stands for the containers, and it still does
    after any of them were copied, moved or exchanged, by assignment or by construction. A copy
    is what its source is, hash function and equality of keys included, a container that was
    moved to is what its source was, whether the buckets were taken over or copied, and a
    container is left as it is by an exchange with itself. -/
theorem transfers_of_reachable (h : hp.Reachable I rule κs w) :
    hp.Implements κs w ∧
      (∀ {turn : Turn I σ Unit} {hp' : Heap K V}, hp.Transfers rule turn hp' →
        hp'.Implements (fun k => κs (turn.former (.ok ()) k)) ((turn.actEach κs).step w).2) ∧
      (∀ {i j : Nat} {hp' : Heap K V}, hp.Transfers rule (.copy i j : Turn I σ Unit) hp' →
        Copied I rule hp κs w i j hp') ∧
      (∀ {sharedStorage : Bool} {i j : Nat} {hp' : Heap K V}, i ≠ j →
        hp.Transfers rule (.move sharedStorage i j : Turn I σ Unit) hp' →
          Moved I hp κs w sharedStorage i j hp') ∧
      (∀ {i j : Nat} {hp' : Heap K V}, hp.Transfers rule (.swap i j : Turn I σ Unit) hp' →
        Exchanged hp i j hp') ∧
      ∀ (i : Nat) (left : Array V), hp.copyAssign rule i i = hp ∧
        hp.moveAssign rule left i i = hp ∧ hp.swap rule i i = hp := by
  obtain ⟨κs₀, allocator, s, hκs, hrun⟩ := h
  obtain ⟨himplements, hreach⟩ :=
    hrun.implements (implements_start κs₀ allocator s) (.start hκs s)
  exact ⟨himplements, himplements.transfer, himplements.copied hreach,
    himplements.moved hreach, himplements.exchanged,
    fun i left => ⟨if_pos rfl, if_pos rfl, if_pos rfl⟩⟩

/-- The first container has another hash function than the others. -/
def mixed : Nat → Hashing Nat
  | 0 => .constant
  | _ => .numeral

/-- A heap on which two items were added to the first map. Each map has an allocator of its own. -/
def withTwo : Heap Nat (Nat × Nat) :=
  (start mixed id).adopt
    (fun i => (mixed i, (World.withTwo .constant (.start ())).table i)) [0]

/-- No allocator replaces that of another container. -/
def noPropagation : Propagation := ⟨false, false, false⟩

/-- All of these hash functions give equal numbers equal hash values. -/
theorem mixed_lawful (i : Nat) : (mixed i).Lawful := by
  cases i with
  | zero => exact Hashing.lawful_ofHasher _
  | succ n => exact Hashing.lawful_ofHasher _

/-- The heap of a map with two keys is reached by a run. -/
theorem withTwo_reachable : withTwo.Reachable (Map.interface Nat Nat) noPropagation mixed
    (World.withTwo .constant (.start ())) :=
  ⟨mixed, id, (), mixed_lawful, Run.here.turn (fun _ _ => none)
    (Turn.use (I := Map.interface Nat Nat) 0 (.common (.extend [(5, 1), (9, 2)] true)))
    (fun _ _ => id) World.fits_withTwo⟩

/-- The items are moved to a map with another allocator, so that the buckets have to be copied,
    and the hash function goes with them. -/
theorem transfers_of_reachable_withTwo :
    (withTwo.object 1).index.maySteal (withTwo.object 0).index noPropagation = false ∧
      (withTwo.container 1).1 = .numeral ∧
      (withTwo.moveAssign noPropagation #[] 1 0).container 1 = withTwo.container 0 ∧
      (withTwo.container 0).1 = .constant ∧ (withTwo.table 0).items = #[(5, 1), (9, 2)] ∧
      ((withTwo.moveAssign noPropagation #[] 1 0).table 0).items = #[] := by
  obtain ⟨himplements, -, -, hmoved, -⟩ := transfers_of_reachable withTwo_reachable
  have hmove := hmoved (by decide) (.moveAssign #[] 1 0)
  refine ⟨by decide +kernel, rfl, hmove.target, rfl, ?_, hmove.empty⟩
  rw [himplements.table_eq]
  exact Array.toList_inj.mp World.items_withTwo

end Heap

end OrderedHash
