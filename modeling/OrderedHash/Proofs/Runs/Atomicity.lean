import OrderedHash.Proofs.Runs.Consistency
import OrderedHash.Proofs.Table.Atomic

namespace OrderedHash

/-!
# Turns that fail

A turn that handles one item, a position, a range or an order is all or nothing: if it
fails, each container holds the same items in the same order, and every query answers as
before (`World.untouched_of_error`). It does not matter whether a position or a range was
out of bounds, the hash function failed on the key, or a comparison or another function of
the client failed when it was called for the first or for the last time.

The turns left are `Piecemeal`. They take items one after another, or show an item to a
function that may change it, and when they fail what was done before stays.
-/

open OrderedHash.Action (Answers Atomic)

variable {K V T C σ α : Type}

/-! ### Handles -/

namespace Entry

/-- The calls that show the item to a function that may change it. -/
def Call.Piecemeal {key : V → K} : Call key σ α → Prop
  | .andModify _ => True
  | _ => False

variable {κ : Keying K V}

/-- Nothing that is computed while the handle waits is in the table yet, and what is
    answered was just added. -/
theorem orInsertWith_atomic (make : K → Action σ V) (p : (Entry K × Table V) × σ) :
    Atomic Prod.fst (orInsertWith κ make) p := by
  obtain ⟨⟨e, t⟩, s⟩ := p
  unfold orInsertWith
  refine .get_bind ?_
  cases e with
  | consumed => exact .throw _
  | occupied pos => exact .get_bind (.ofExcept _)
  | vacant k hash =>
    -- only the call of the client can fail: what is added then is found at once
    refine .onSnd_bind fun v c _ => .of_answers ?_
    let added := t.insertAt κ t.size hash v
    have hadd : (Action.onFst (occupyAt κ t.size hash v)).step
        (((.vacant k hash : Entry K), t), c) = (.ok ⟨⟩, ((.occupied t.size, added), c)) := rfl
    refine ⟨v, ((.occupied t.size, added), c), ?_⟩
    rw [Action.step_bind_of_ok hadd, Action.step_get_bind, Action.step_ofExcept]
    exact Prod.ext (Table.itemAt_insertAt t le_rfl hash v) rfl

/-- To insert the key of a handle fails only before anything is changed. -/
theorem insertEntry_atomic (make : K → V) (p : Entry K × Table V) :
    Atomic id (insertEntry κ make) p := by
  obtain ⟨e, t⟩ := p
  unfold insertEntry
  refine .get_bind ?_
  cases e with
  | consumed => exact .throw _
  | vacant k hash => exact .modify _
  | occupied pos => exact .set _

/-- To insert the key of a handle in order fails in the comparisons only, before anything is
    changed. -/
theorem insertSortedBy_atomic (less : K → K → Action σ Bool) (make : K → V)
    (p : (Entry K × Table V) × σ) : Atomic Prod.fst (insertSortedBy κ less make) p := by
  unfold insertSortedBy
  exact .get_bind (.ofExcept_bind fun _ _ => .onSnd_bind fun _ _ _ => .onFst (.modify _))

/-- To modify the item of a handle fails only if there is none. -/
theorem modifyItem_atomic (f : V → V) (p : Entry K × Table V) : Atomic id (modifyItem f) p := by
  unfold modifyItem
  exact .get_bind (.ofExcept_bind fun _ _ => .modify _)

/-- To insert the key of a handle at a position fails only before anything is changed. -/
theorem shiftInsert_atomic (target : Nat) (make : K → V) (p : Entry K × Table V) :
    Atomic id (shiftInsert κ target make) p := by
  unfold shiftInsert
  exact .get_bind (.ofExcept_bind fun _ _ => .demand_bind fun _ => .modify _)

/-- To remove the item of a handle fails only if there is none. -/
theorem remove_atomic (way : Table.Removal) (p : Entry K × Table V) :
    Atomic id (remove κ way) p := by
  unfold remove
  exact .get_bind (.ofExcept_bind fun _ _ => .ofExcept_bind fun _ _ => (Atomic.set _).map _)

/-- To move the item of a handle fails only before anything is changed. -/
theorem moveIndex_atomic (target : Nat) (p : Entry K × Table V) :
    Atomic id (moveIndex κ target) p := by
  unfold moveIndex
  refine .get_bind (.ofExcept_bind fun pos _ => ?_)
  exact (Atomic.onSnd (Table.moveIndex_atomic pos target)).bind fun _ _ _ => .modify _ _

/-- To exchange the item of a handle fails only before anything is changed. -/
theorem swapIndices_atomic (other : Nat) (p : Entry K × Table V) :
    Atomic id (swapIndices κ other) p := by
  unfold swapIndices
  refine .get_bind (.ofExcept_bind fun pos _ => ?_)
  exact (Atomic.onSnd (Table.swapIndices_atomic pos other)).bind fun _ _ _ => .modify _ _

/-- A call that fails leaves the handle and the table. -/
theorem Call.atomic (κ : Keying K V) (call : Call κ.key σ α) (h : ¬ call.Piecemeal)
    (p : (Entry K × Table V) × σ) : Atomic Prod.fst (call.run κ) p := by
  cases call with
  | isOccupied => exact .get_bind (.pure _)
  | isVacant => exact .get_bind (.pure _)
  | index => exact .get_bind (.get_bind (.ofExcept _))
  | item => exact .get_bind (.get_bind (.ofExcept _))
  | key => exact .get_bind (.get_bind (.ofExcept _))
  | modifyItem f => exact .onFst (modifyItem_atomic f.edit p.1)
  | orInsertWith make => exact orInsertWith_atomic make.make p
  -- the client may have modified the item before it failed
  | andModify f => exact absurd trivial h
  | insertEntry make => exact .onFst (insertEntry_atomic make.make p.1)
  | insertSortedBy less make => exact insertSortedBy_atomic less make.make p
  | shiftInsert target make => exact .onFst (shiftInsert_atomic target make.make p.1)
  | remove way => exact .onFst (remove_atomic way p.1)
  | moveIndex target => exact .onFst (moveIndex_atomic target p.1)
  | swapIndices other => exact .onFst (swapIndices_atomic other p.1)

end Entry

namespace IndexedEntry

variable {κ : Keying K V}

/-- To modify the item at the position of a handle fails only if the handle was consumed. -/
theorem modifyItem_atomic (f : V → V) (p : IndexedEntry × Table V) :
    Atomic id (modifyItem f) p := by
  unfold modifyItem
  exact .get_bind (.ofExcept_bind fun _ _ => .ofExcept_bind fun _ _ => (Atomic.set _).map _)

/-- To remove the item at the position of a handle fails only if the handle was consumed. -/
theorem remove_atomic (way : Table.Removal) (p : IndexedEntry × Table V) :
    Atomic id (remove κ way) p := by
  unfold remove
  exact .get_bind (.ofExcept_bind fun _ _ => .ofExcept_bind fun _ _ => (Atomic.set _).map _)

/-- To move the item at the position of a handle fails only before anything is changed. -/
theorem moveIndex_atomic (target : Nat) (p : IndexedEntry × Table V) :
    Atomic id (moveIndex κ target) p := by
  unfold moveIndex
  refine .get_bind (.ofExcept_bind fun pos _ => ?_)
  exact (Atomic.onSnd (Table.moveIndex_atomic pos target)).bind fun _ _ _ => .modify _ _

/-- To exchange the item at the position of a handle fails only before anything is changed. -/
theorem swapIndices_atomic (other : Nat) (p : IndexedEntry × Table V) :
    Atomic id (swapIndices κ other) p := by
  unfold swapIndices
  refine .get_bind (.ofExcept_bind fun pos _ => ?_)
  exact (Atomic.onSnd (Table.swapIndices_atomic pos other)).bind fun _ _ _ => .modify _ _

/-- A call that fails leaves the handle and the table. -/
theorem Call.atomic (κ : Keying K V) (call : Call κ.key α) (p : IndexedEntry × Table V) :
    Atomic id (call.run κ) p := by
  cases call with
  | index => exact .get_bind (.ofExcept _)
  | item => exact .get_bind (.get_bind (.ofExcept _))
  | modifyItem f => exact modifyItem_atomic f.edit p
  | remove way => exact remove_atomic way p
  | moveIndex target => exact moveIndex_atomic target p
  | swapIndices other => exact swapIndices_atomic other p

end IndexedEntry

/-! ### Operations -/

namespace Slice

/-- A failing operation on a slice changes nothing. -/
theorem Op.atomic {κ : Keying K V} (s : Slice) (op : Op κ.key σ α) (p : Table V × σ) :
    Atomic Prod.fst (op.run κ s) p := by
  cases op with
  | modifyAt i f => exact .onFst (Table.checkPosition_bind fun _ => .modify _)
  | sortBy less => exact Table.sortRange_atomic s.first s.last less p
  | sortByKey less f => exact Table.sortRange_atomic s.first s.last _ p
  | reverse => exact .modify _

end Slice

namespace Table

/-- The operations that take items one after another. A splice does so once its range is
    known to be one of the table. -/
def Op.Piecemeal {key : V → K} (t : Table V) : Op key σ α → Prop
  | .extend .. | .insertEach .. | .assignAll .. | .retain .. | .eraseIf .. => True
  | .splice first last _ => first ≤ last ∧ last ≤ t.size
  | _ => False

/-- A failing operation that maps and sets share changes nothing, unless it is piecemeal. -/
theorem Op.atomic (κ : Keying K V) (op : Op κ.key σ α) (p : Table V × σ)
    (h : ¬ op.Piecemeal p.1) : Atomic Prod.fst (op.run κ) p := by
  cases op with
  -- what works on one item after another is piecemeal
  | extend vs countKnown => exact absurd trivial h
  | insertEach vs => exact absurd trivial h
  | assignAll vs => exact absurd trivial h
  | retain keep => exact absurd trivial h
  | eraseIf drop => exact absurd trivial h
  | takeAt way pos => exact .onFst (takeAt_atomic way pos)
  | takeKey way k => exact .onFst (takeKey_atomic way k)
  | pop => exact .onFst (.get_bind (takeAt_atomic .swap _))
  | eraseRange first last => exact .onFst (eraseRange_atomic first last)
  | drain first last => exact .onFst (drain_atomic first last)
  | truncate count => exact .onFst (truncate_atomic count)
  | splice first last vs => exact .onFst (splice_atomic h vs)
  | extractIf first last test requests => exact extractIf_atomic first last test.visit requests p
  | moveIndex source target => exact .onFst (moveIndex_atomic source target)
  | swapIndices q r => exact .onFst (swapIndices_atomic q r)
  | slice first last parts op => exact .get_bind (.ofExcept_bind fun s _ => op.atomic s p)
  | clear | reverse | reserve | rehash | shrinkToFit | setLoadFactor =>
    simp only [run]
    exact .onFst (.modify _)

end Table

namespace Map

/-- The operations that take items one after another. -/
def Op.Piecemeal (m : Map K T) : Op K T σ α → Prop
  | .common op => op.Piecemeal m
  | _ => False

variable {κ : Hashing K}

/-- To assign a value to a key fails only on the hash value of the key. -/
theorem assign_atomic (k : K) (v : T) (m : Map K T) : Atomic id (assign κ k v) m := by
  unfold assign
  refine .get_bind (.ofExcept_bind fun found _ => ?_)
  cases found with
  | none => exact .throw _
  | some pos => exact .modify _

/-- To assign a value at a position fails only if there is no item. -/
theorem assignAt_atomic (pos : Nat) (v : T) (m : Map K T) : Atomic id (assignAt pos v) m := by
  unfold assignAt
  exact .get_bind (Table.checkPosition_bind fun _ => .modify _)

/-- A value that is asked for is that of a key found, or of one just added. -/
theorem valueOrInsert_atomic {m : Map K T} (h : m.Coherent κ.map) (hκ : κ.Lawful) (k : K) (d : T) :
    Atomic id (valueOrInsert κ k d) m := by
  unfold valueOrInsert
  refine (Table.insert_atomic (k, d)).bind fun found u hstep => .get_bind ?_
  obtain ⟨item, hitem⟩ := Table.itemAt_of_step_insert h hκ hstep
  rw [hitem]
  exact .pure _ _

/-- A failing operation on a map changes nothing, unless it is piecemeal. -/
theorem Op.atomic (hκ : κ.Lawful) (op : Op K T σ α) (p : Map K T × σ) (hm : p.1.Coherent κ.map)
    (h : ¬ op.Piecemeal p.1) : Atomic Prod.fst (op.run κ) p := by
  cases op with
  | common op => exact Table.Op.atomic κ.map op p h
  | assign k v => exact .onFst (assign_atomic k v p.1)
  | assignAt pos v => exact .onFst (assignAt_atomic pos v p.1)
  | insert k v => exact .onFst (Table.insert_atomic (k, v))
  | emplace k v => exact .onFst (Table.emplace_atomic (k, v))
  | insertFull k v => exact .onFst ((Table.put_atomic (k, v)).map _)
  | insertOrAssign k v => exact .onFst (((Table.put_atomic (k, v)).map _).map _)
  | valueOrInsert k d => exact .onFst (valueOrInsert_atomic hm hκ k d)
  | insertSorted less k v => exact (Table.insertSorted_atomic _ (k, v) p).map _
  | insertSortedBy less k v => exact (Table.insertSorted_atomic _ (k, v) p).map _
  | insertBefore target k v => exact .onFst ((Table.insertBefore_atomic hm hκ target (k, v)).map _)
  | shiftInsert target k v => exact .onFst ((Table.shiftInsert_atomic hm hκ target (k, v)).map _)
  | remove way k => exact .onFst ((Table.takeKey_atomic way k).map _)
  | sortBy less => exact .get_bind (Table.sortRange_atomic 0 _ less p)
  | sortKeys less => exact .get_bind (Table.sortRange_atomic 0 _ _ p)
  | sortByKey less f => exact .get_bind (Table.sortRange_atomic 0 _ _ p)
  | sortByCachedKey less f => exact .get_bind (Table.sortRangeByCachedKey_atomic 0 _ less f p)

end Map

namespace Set

/-- The operations that take items one after another. -/
def Op.Piecemeal (s : Set K) : Op K σ α → Prop
  | .common op => op.Piecemeal s
  | _ => False

variable {κ : Hashing K}

/-- To replace a key fails only on its hash value. -/
theorem replace_atomic (k : K) (s : Set K) : Atomic id (replace κ k) s :=
  Table.onKey_atomic (fun _ _ => .get_bind ((Atomic.modify _).map _))
    (.get_bind ((Table.addAt_atomic _ _ _).map _))

/-- A failing operation on a set changes nothing, unless it is piecemeal. -/
theorem Op.atomic (hκ : κ.Lawful) (op : Op K σ α) (p : Set K × σ) (hs : p.1.Coherent κ.set)
    (h : ¬ op.Piecemeal p.1) : Atomic Prod.fst (op.run κ) p := by
  cases op with
  | common op => exact Table.Op.atomic κ.set op p h
  | insert k => exact .onFst (Table.insert_atomic k)
  | emplace k => exact .onFst (Table.emplace_atomic k)
  | replace k => exact .onFst (replace_atomic k p.1)
  | insertSorted less k => exact (Table.insertSorted_atomic _ k p).map _
  | insertBefore target k => exact .onFst ((Table.insertBefore_atomic hs hκ target k).map _)
  | shiftInsert target k => exact .onFst ((Table.shiftInsert_atomic hs hκ target k).map _)
  | remove way k => exact .onFst ((Table.takeKey_atomic way k).map _)
  | take way k => exact .onFst (Table.takeKey_atomic way k)
  | sortBy less => exact .get_bind (Table.sortRange_atomic 0 _ less p)
  | sortByKey less f => exact .get_bind (Table.sortRange_atomic 0 _ _ p)
  | sortByCachedKey less f => exact .get_bind (Table.sortRangeByCachedKey_atomic 0 _ less f p)

end Set

/-! ### Turns -/

variable {I : Interface K V} {w : World K V σ}

/-- The turns that take items one after another, or show an item to a function that may
    change it. Which operations of a kind of containers do so is a parameter. -/
def Turn.Piecemeal (part : ∀ {α : Type}, Table V → I.Op σ α → Prop) (w : World K V σ) :
    Turn I σ α → Prop
  | .use i op => part (w.table i) op
  | .callEntry _ call => call.Piecemeal
  | .append .. => True
  | _ => False

/-- A failing turn changes no container if the operations that it may consist of do not. -/
theorem Turn.atomic {κ : Hashing K} {part : ∀ {α : Type}, Table V → I.Op σ α → Prop}
    (hop : ∀ {α : Type} (i : Nat) (op : I.Op σ α), ¬ part (w.table i) op →
      Atomic Prod.fst (I.run κ op) (w.table i, w.client))
    (turn : Turn I σ α) (h : ¬ turn.Piecemeal part w) : Atomic World.table (turn.act κ) w := by
  cases turn with
  | ask i query =>
    -- a query has nothing that it could change
    intro fault u hstep
    rw [← (Prod.mk.inj hstep).2]
    rfl
  | use i op =>
    intro fault u hstep
    obtain ⟨herror, rfl⟩ := Prod.mk.inj hstep
    have hsame := hop i op h fault _ (Prod.ext herror rfl)
    exact World.table_setCell hsame
  | create i count => exact .modify _
  | openEntry i k => exact .get_bind (.ofExcept_bind fun _ _ => .set _)
  | callEntry i call =>
    intro fault u hstep
    obtain ⟨herror, rfl⟩ := Prod.mk.inj hstep
    have hsame := Entry.Call.atomic (I.keying κ) call h _ fault _ (Prod.ext herror rfl)
    exact World.table_setCell (congrArg Prod.snd hsame)
  | openIndexed i pos => exact .get_bind (.ofExcept_bind fun _ _ => .set _)
  | callIndexed i call =>
    intro fault u hstep
    obtain ⟨herror, rfl⟩ := Prod.mk.inj hstep
    have hsame := IndexedEntry.Call.atomic (I.keying κ) call _ fault _ (Prod.ext herror rfl)
    exact World.table_setCell (congrArg Prod.snd hsame)
  | append left i j => exact absurd trivial h
  | splitOff i pos j => exact .get_bind (.ofExcept_bind fun _ _ => .set _)
  | copy i j => exact .modify _
  | move sharedStorage i j => exact .modify _
  | swap i j => exact .modify _
  | combine algebra i j k => exact .get_bind (.ofExcept_bind fun _ _ => .set _)
  | relate relation i j => exact .get_bind (.ofExcept _)
  | sameItems equal i j => exact .get_bind (.pure _)
  | precedes less i j => exact .get_bind (.pure _)

/-! ### After every run -/

namespace World

/-- Every container holds the same items in the same order, and every query of it, lookups
    of keys among them, answers the same, on whichever keys the hash function fails. -/
structure Untouched (I : Interface K V) (κ : Hashing K) (w w' : World K V σ) : Prop where
  items : ∀ i, (w'.table i).items = (w.table i).items
  ask : ∀ (i : Nat) (refuse : K → Option Fault) {ρ β : Type} (query : I.Query ρ β),
    I.ask (κ.refusing refuse) (w'.table i) query = I.ask (κ.refusing refuse) (w.table i) query

/-- Worlds with the same tables cannot be told apart. -/
theorem Untouched.of_table {κ : Hashing K} {w' : World K V σ} (h : w'.table = w.table) :
    Untouched I κ w w' := by
  refine ⟨fun i => ?_, fun i refuse _ _ query => ?_⟩ <;> rw [h]

variable {κ : Hashing K}

/-- After every run on maps or on sets a turn that is not piecemeal and fails changes no
    container. -/
theorem untouched_of_error (hκ : κ.Lawful) :
    (∀ {T σ α : Type} {w w' : World K (K × T) σ}, Reachable (Map.interface K T) κ w →
      ∀ (refuse : K → Option Fault) (turn : Turn (Map.interface K T) σ α) (fault : Fault),
        ¬ turn.Piecemeal Map.Op.Piecemeal w →
          (turn.act (κ.refusing refuse)).step w = (.error fault, w') →
            Untouched (Map.interface K T) κ w w') ∧
    ∀ {σ α : Type} {w w' : World K K σ}, Reachable (Set.interface K) κ w →
      ∀ (refuse : K → Option Fault) (turn : Turn (Set.interface K) σ α) (fault : Fault),
        ¬ turn.Piecemeal Set.Op.Piecemeal w →
          (turn.act (κ.refusing refuse)).step w = (.error fault, w') →
            Untouched (Set.interface K) κ w w' := by
  constructor
  · intro T σ α w w' h refuse turn fault hwhole hstep
    refine .of_table (turn.atomic (fun i op hop => ?_) hwhole fault w' hstep)
    have hcoherent : (w.table i).Coherent (κ.refusing refuse).map := (h.coherent hκ i).refusing
    exact op.atomic (hκ.refusing refuse) _ hcoherent hop
  · intro σ α w w' h refuse turn fault hwhole hstep
    refine .of_table (turn.atomic (fun i op hop => ?_) hwhole fault w' hstep)
    have hcoherent : (w.table i).Coherent (κ.refusing refuse).set := (h.coherent hκ i).refusing
    exact op.atomic (hκ.refusing refuse) _ hcoherent hop

/-- A map is given a key in order, but a comparison of the keys fails. -/
def failingSort : Turn (Map.interface Nat Nat) Unit (Nat × Option Nat) :=
  .use 0 (.insertSorted (fun _ _ => throw (.client "incomparable")) 7 3)

/-- A key is put into the store of a set before its hash value is asked for. -/
def failingHash : Turn (Set.interface Nat) Unit (Nat × Bool) := .use 0 (.emplace 4)

/-- A comparison fails while a map is given a key in order, and the hash function fails on a key
    that was put into the store of a set. -/
theorem untouched_of_error_client :
    ((withTwo .constant (start ())).table 0).items = #[(5, 1), (9, 2)] ∧
      Untouched (Map.interface Nat Nat) .constant (withTwo .constant (start ()))
        ((failingSort.act (Hashing.constant.refusing refuseFour)).step
          (withTwo .constant (start ()))).2 ∧
      (collided.table 0).items = #[5, 9] ∧
      Untouched (Set.interface Nat) .constant collided
        ((failingHash.act (Hashing.constant.refusing refuseFour)).step collided).2 := by
  have hconstant : Hashing.constant.Lawful := Hashing.lawful_ofHasher _
  have hmap : Reachable (Map.interface Nat Nat) .constant (withTwo .constant (start ())) :=
    (Reachable.start ()).turn (fun _ => none) _ fits_withTwo
  have hsort : ((failingSort.act (Hashing.constant.refusing refuseFour)).step
      (withTwo .constant (start ()))).1 = .error (.client "incomparable") := by
    decide +kernel
  have hhash : ((failingHash.act (Hashing.constant.refusing refuseFour)).step collided).1 =
      .error (.client "four") := by
    decide +kernel
  refine ⟨by decide +kernel, ?_, by decide +kernel, ?_⟩
  · exact (untouched_of_error hconstant).1 hmap refuseFour failingSort _ id (Prod.ext hsort rfl)
  · exact (untouched_of_error hconstant).2 collided_reachable refuseFour failingHash _ id
      (Prod.ext hhash rfl)

end World

end OrderedHash
