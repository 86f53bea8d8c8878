import Mathlib.Algebra.Group.Nat.Defs
import Mathlib.Logic.Function.Basic
import OrderedHash.Proofs.Runs.Sets
import OrderedHash.Table.Compare

namespace OrderedHash

/-!
# Programs that use many containers

A program works on a `World` of containers of one kind, each with the handles that are open
on it, and on a state of its own. It takes a `Turn` at a time, which queries or changes one
container, uses a handle, or has two containers exchange their contents. A turn that changes
a container by other means than a handle closes the handles on it.

Each container has a hash function of its own, and a turn may hand it over to another container
(`Turn.former`). The containers of `Turn.act` all have one and the same. After an append that
was cut short the program has to clear the source before it goes on (`Turn.recover`), since some
of the items were moved away and the index of the source is still what it was.

What maps and sets have in common is an `Interface`, whose laws say that what it offers
agrees on twins. Then every turn agrees on worlds of twins (`Turn.agree`).
-/

open OrderedHash.Action (Agree Beside)
open Function (update)

/-- What a kind of containers offers besides handles, reordering and exchange. -/
structure Interface (K V : Type) where
  key : V → K
  refresh : (stored given : V) → V
  Query : Type → Type → Type 1
  ask {σ α : Type} : Hashing K → Table V → Query σ α → Action σ α
  Op : Type → Type → Type 1
  run {σ α : Type} : Hashing K → Op σ α → Action (Table V × σ) α
  Algebra : Type
  combine : (κ κ' : Hashing K) → Table V → Table V → Algebra → Except Fault (Table V)
  Relation : Type
  relate : (κ κ' : Hashing K) → Table V → Table V → Relation → Except Fault Bool
  key_refresh : ∀ stored given, key (refresh stored given) = key stored
  ask_eq : ∀ {κ : Hashing K} {g : Variant K} {t t' : Table V},
    Table.Twin ⟨κ, key, refresh⟩ g t t' → ∀ {σ α : Type} (query : Query σ α),
      ask (κ.hashedBy g) t' query = ask κ t query
  run_agree : ∀ {κ : Hashing K} {g : Variant K} {σ α : Type} {s s' : Table V × σ},
    Beside (Table.Twin ⟨κ, key, refresh⟩ g) s s' → ∀ op : Op σ α,
      ((run κ op).step s).2.1.size < Node.movingPosition →
        Agree (Beside (Table.Twin ⟨κ, key, refresh⟩ g)) ((run κ op).step s)
          ((run (κ.hashedBy g) op).step s')
  combine_made : ∀ {κ κ' : Hashing K} {g g' : Variant K} {t t' u u' : Table V},
    Table.Twin ⟨κ, key, refresh⟩ g t t' → Table.Twin ⟨κ', key, refresh⟩ g' u u' →
      ∀ algebra, Table.Twin.Made ⟨κ, key, refresh⟩ g (combine κ κ' t u algebra)
        (combine (κ.hashedBy g) (κ'.hashedBy g') t' u' algebra)
  relate_eq : ∀ {κ κ' : Hashing K} {g g' : Variant K} {t t' u u' : Table V},
    Table.Twin ⟨κ, key, refresh⟩ g t t' → Table.Twin ⟨κ', key, refresh⟩ g' u u' →
      ∀ relation, relate (κ.hashedBy g) (κ'.hashedBy g') t' u' relation = relate κ κ' t u relation

/-- The keying of the containers of an interface. -/
def Interface.keying {K V : Type} (I : Interface K V) (κ : Hashing K) : Keying K V :=
  ⟨κ, I.key, I.refresh⟩

/-- Maps. No map is made of two others, other than by appending. -/
def Map.interface (K T : Type) : Interface K (K × T) where
  key := Prod.fst
  refresh stored given := (stored.1, given.2)
  Query := Map.Query K T
  ask κ m query := query.run κ m
  Op := Map.Op K T
  run κ op := op.run κ
  Algebra := Empty
  combine _ _ _ _ algebra := algebra.elim
  Relation := Empty
  relate _ _ _ _ relation := relation.elim
  key_refresh _ _ := rfl
  ask_eq h _ _ query := query.run_eq h
  run_agree h op hsmall := op.agree h hsmall
  combine_made _ _ algebra := algebra.elim
  relate_eq _ _ relation := relation.elim

/-- Sets. -/
def Set.interface (K : Type) : Interface K K where
  key := id
  refresh stored _ := stored
  Query := Set.Query K
  ask κ s query := query.run κ s
  Op := Set.Op K
  run κ op := op.run κ
  Algebra := Set.Algebra
  combine κ κ' a b algebra := algebra.apply κ κ' a b
  Relation := Set.Relation
  relate κ κ' a b relation := relation.holds κ κ' a b
  key_refresh _ _ := rfl
  ask_eq h _ _ query := query.run_eq h
  run_agree h op hsmall := op.agree h hsmall
  combine_made ha hb algebra := algebra.made ha hb
  relate_eq ha hb relation := relation.holds_eq ha hb

/-! ### Worlds -/

/-- A container and the handles on it, which are consumed while none is open. -/
structure Cell (K V : Type) where
  table : Table V
  entry : Entry K
  indexed : IndexedEntry

/-- Containers by number, and the state of the program that uses them. -/
structure World (K V σ : Type) where
  cell : Nat → Cell K V
  client : σ

namespace World

variable {K V σ : Type} (w : World K V σ)

/-- The container of a number. -/
def table (i : Nat) : Table V := (w.cell i).table

/-- A world in which all containers are empty. -/
def start (s : σ) : World K V σ := ⟨fun _ => ⟨.empty .standard, .consumed, .consumed⟩, s⟩

/-- The world with another container and other handles of a number. -/
def setCell (i : Nat) (c : Cell K V) : World K V σ := { w with cell := update w.cell i c }

/-- The world with another container of a number, on which no handles are open. -/
def setTable (i : Nat) (t : Table V) : World K V σ := w.setCell i ⟨t, .consumed, .consumed⟩

/-- The world with another state of the program. -/
def setClient (s : σ) : World K V σ := { w with client := s }

/-- Every container holds few enough items for their positions to be stored. -/
def Fits : Prop := ∀ i, (w.table i).size < 2 ^ 48 - 2

/-! What the containers of a world are after one of them was replaced. -/

/-- Only the table of the number is another one after a cell was replaced. -/
theorem table_setCell_eq (i : Nat) (c : Cell K V) :
    (w.setCell i c).table = update w.table i c.table :=
  funext fun k => by
    show (update w.cell i c k).table = update w.table i c.table k
    by_cases hk : k = i
    · rw [hk, Function.update_self, Function.update_self]
    · rw [Function.update_of_ne hk, Function.update_of_ne hk]
      rfl

/-- What replaces a container by itself changes no container. -/
theorem table_setCell {w : World K V σ} {i : Nat} {c : Cell K V} (h : c.table = w.table i) :
    (w.setCell i c).table = w.table := by
  rw [table_setCell_eq, h, Function.update_eq_self]

/-- Only the table of the number is another one after it was replaced. -/
theorem table_setTable (i : Nat) (t : Table V) : (w.setTable i t).table = update w.table i t :=
  w.table_setCell_eq i _

/-- The table that replaces another one is the one of the number. -/
theorem table_setTable_self (i : Nat) (t : Table V) : (w.setTable i t).table i = t := by
  rw [table_setTable, Function.update_self]

/-- A table stays when the one of another number is replaced. -/
theorem table_setTable_of_ne {i k : Nat} (h : k ≠ i) (t : Table V) :
    (w.setTable i t).table k = w.table k := by
  rw [table_setTable, Function.update_of_ne h]

theorem table_setClient (s : σ) : (w.setClient s).table = w.table := rfl

/-- A world stays the same when a cell is replaced by itself. -/
theorem setCell_self (i : Nat) : w.setCell i (w.cell i) = w := by
  unfold setCell
  rw [Function.update_eq_self]

/-- Of two replacements of one container only the second counts, also if another container was
    replaced between them. -/
theorem setTable_between {i j : Nat} (h : i ≠ j) (s t u : Table V) :
    ((w.setTable j s).setTable i t).setTable j u = (w.setTable i t).setTable j u := by
  unfold setTable setCell
  rw [Function.update_comm h.symm, Function.update_idem]

end World

/-! ### Turns -/

/-- The turns of a program, with the types of their answers. -/
inductive Turn {K V : Type} (I : Interface K V) (σ : Type) : Type → Type 1 where
  | ask {α : Type} (i : Nat) (query : I.Query σ α) : Turn I σ α
  | use {α : Type} (i : Nat) (op : I.Op σ α) : Turn I σ α
  | create (i count : Nat) : Turn I σ Unit
  | openEntry (i : Nat) (k : K) : Turn I σ Unit
  | callEntry {α : Type} (i : Nat) (call : Entry.Call I.key σ α) : Turn I σ α
  | openIndexed (i pos : Nat) : Turn I σ Unit
  | callIndexed {α : Type} (i : Nat) (call : IndexedEntry.Call I.key α) : Turn I σ α
  | append (left : Remnant V) (i j : Nat) : Turn I σ Unit
  | splitOff (i pos j : Nat) : Turn I σ Unit
  | copy (i j : Nat) : Turn I σ Unit
  | move (sharedStorage : Bool) (i j : Nat) : Turn I σ Unit
  | swap (i j : Nat) : Turn I σ Unit
  | combine (algebra : I.Algebra) (i j k : Nat) : Turn I σ Unit
  | relate (relation : I.Relation) (i j : Nat) : Turn I σ Bool
  | sameItems (equal : V → V → Bool) (i j : Nat) : Turn I σ Bool
  | precedes (less : V → V → Bool) (i j : Nat) : Turn I σ Bool

/-- Where a container takes from: from another one or from itself. -/
def Origin.between (i j : Nat) : Origin := if i = j then .self else .other

/-- A container takes from itself if it is given itself. -/
theorem Origin.between_self (i : Nat) : between i i = .self := if_pos rfl

/-- Different containers take from each other. -/
theorem Origin.between_of_ne {i j : Nat} (h : i ≠ j) : between i j = .other := if_neg h

namespace Turn

variable {K V σ α : Type} {I : Interface K V}

/-- What a turn does to a world in which each container has a hash function of its own. -/
def actEach (κs : Nat → Hashing K) : Turn I σ α → Action (World K V σ) α
  | .ask i query => Action.ofStep fun w =>
    let r := (I.ask (κs i) (w.table i) query).step w.client
    (r.1, w.setClient r.2)
  | .use i op => Action.ofStep fun w =>
    let r := (I.run (κs i) op).step (w.table i, w.client)
    (r.1, (w.setTable i r.2.1).setClient r.2.2)
  | .create i count => modify fun w => w.setTable i (Table.withCapacity (I.keying (κs i)) count)
  | .openEntry i k => do
    let w ← get
    let e ← Action.ofExcept (Entry.ofKey (I.keying (κs i)) (w.table i) k)
    set (w.setCell i { w.cell i with entry := e })
  | .callEntry i call => Action.ofStep fun w =>
    let r := (call.run (I.keying (κs i))).step (((w.cell i).entry, w.table i), w.client)
    (r.1, (w.setCell i ⟨r.2.1.2, r.2.1.1, .consumed⟩).setClient r.2.2)
  | .openIndexed i pos => do
    let w ← get
    let e ← Action.ofExcept (IndexedEntry.ofPosition (w.table i) pos)
    set (w.setCell i { w.cell i with indexed := e })
  | .callIndexed i call => Action.ofStep fun w =>
    let r := (call.run (I.keying (κs i))).step ((w.cell i).indexed, w.table i)
    (r.1, w.setCell i ⟨r.2.2, .consumed, r.2.1⟩)
  | .append left i j => Action.ofStep fun w =>
    let r := (Table.append (I.keying (κs i)) left (Origin.between i j)).step (w.table i, w.table j)
    (r.1, (w.setTable j r.2.2).setTable i r.2.1)
  | .splitOff i pos j => do
    let w ← get
    let r := (Table.splitOff (I.keying (κs i)) pos).step (w.table i)
    let tail ← Action.ofExcept r.1
    set ((w.setTable i r.2).setTable j tail)
  | .copy i j => modify fun w =>
    let pair := Table.copyFrom (Origin.between i j) (w.table i, w.table j)
    (w.setTable j pair.2).setTable i pair.1
  | .move sharedStorage i j => modify fun w =>
    let pair := Table.moveFrom sharedStorage (Origin.between i j) (w.table i, w.table j)
    (w.setTable j pair.2).setTable i pair.1
  | .swap i j => modify fun w =>
    let pair := Table.swapWith (Origin.between i j) (w.table i, w.table j)
    (w.setTable j pair.2).setTable i pair.1
  | .combine algebra i j k => do
    let w ← get
    let t ← Action.ofExcept (I.combine (κs i) (κs j) (w.table i) (w.table j) algebra)
    set (w.setTable k t)
  | .relate relation i j => do
    let w ← get
    Action.ofExcept (I.relate (κs i) (κs j) (w.table i) (w.table j) relation)
  | .sameItems equal i j => do
    let w ← get
    return Table.sameItems equal (w.table i).items.toList (w.table j).items.toList
  | .precedes less i j => do
    let w ← get
    return Table.precedes less (w.table i).items.toList (w.table j).items.toList

/-- What a turn does to a world in which all containers have the same hash function. -/
def act (κ : Hashing K) (turn : Turn I σ α) : Action (World K V σ) α :=
  turn.actEach fun _ => κ

/-- The container from which one has its hash function after a turn with a given answer. A hash
    function goes with a container that is copied, moved or exchanged, and a container that is
    made of others gets that of the first of them. -/
def former (turn : Turn I σ α) (answer : Except Fault α) : Nat → Nat :=
  match turn, answer with
  | .splitOff i _ j, .ok _ => update id j i
  | .copy i j, _ => update id i j
  | .move _ i j, _ => update id i j
  | .swap i j, _ => update (update id j i) i j
  | .combine _ i _ k, .ok _ => update id k i
  | _, _ => id

/-- The world in which a program goes on after a turn. It has to clear the source of an append
    that was cut short. -/
def recover (turn : Turn I σ α) (r : Except Fault α × World K V σ) : World K V σ :=
  match turn, r.1 with
  | .append _ _ j, .error _ => r.2.setTable j (r.2.table j).clear
  | _, _ => r.2

/-- Where a program goes on after a turn on containers with hash functions of their own. -/
def nextEach (κs : Nat → Hashing K) (turn : Turn I σ α) (w : World K V σ) : World K V σ :=
  turn.recover ((turn.actEach κs).step w)

/-- Where a program goes on after a turn on containers with the same hash function. -/
def next (κ : Hashing K) (turn : Turn I σ α) (w : World K V σ) : World K V σ :=
  turn.recover ((turn.act κ).step w)

/-- There is nothing to clear after a turn that was not cut short. -/
theorem recover_ok (turn : Turn I σ α) (a : α) (w : World K V σ) :
    turn.recover (.ok a, w) = w := by
  cases turn <;> rfl

/-- A program goes on where a turn that comes to an end leaves it. -/
theorem next_of_ok {κ : Hashing K} {turn : Turn I σ α} {w w' : World K V σ} {a : α}
    (h : (turn.act κ).step w = (.ok a, w')) : turn.next κ w = w' := by
  rw [next, h, recover_ok]

end Turn

/-! ### Worlds of twins -/

section Twin

variable {K V σ α : Type} {I : Interface K V}

/-- Twins with the same handles on them, all of which are right. -/
structure Cell.Twin (κ : Keying K V) (g : Variant K) (c c' : Cell K V) : Prop where
  table : Table.Twin κ g c.table c'.table
  entry : Entry.Twin κ g c.table c.entry c'.entry
  indexed : IndexedEntry.Held κ g (c.indexed, c.table) (c'.indexed, c'.table)

/-- Without handles twins are enough. -/
theorem Cell.Twin.closed {κ : Keying K V} {g : Variant K} {t t' : Table V} (h : Table.Twin κ g t t') :
    Cell.Twin κ g ⟨t, .consumed, .consumed⟩ ⟨t', .consumed, .consumed⟩ :=
  ⟨h, .consumed, .consumed h⟩

/-- Worlds whose containers are twins by number, used by the same program in the same state. -/
structure World.Twin (I : Interface K V) (κs : Nat → Hashing K) (gs : Nat → Variant K)
    (w w' : World K V σ) : Prop where
  cell : ∀ i, Cell.Twin (I.keying (κs i)) (gs i) (w.cell i) (w'.cell i)
  client : w'.client = w.client

/-- Worlds whose containers hold the same items in the same order, used by programs in the
    same state. -/
structure World.SameItems (w w' : World K V σ) : Prop where
  items : ∀ i, (w'.table i).items = (w.table i).items
  client : w'.client = w.client

/-- What holds of all containers by number still does after one of them was replaced. -/
theorem World.forall_setCell {P : Nat → Cell K V → Cell K V → Prop} {w w' : World K V σ}
    (h : ∀ i, P i (w.cell i) (w'.cell i)) {i : Nat} {c c' : Cell K V} (hc : P i c c') (k : Nat) :
    P k ((w.setCell i c).cell k) ((w'.setCell i c').cell k) := by
  show P k (update w.cell i c k) (update w'.cell i c' k)
  by_cases hk : k = i
  · subst hk
    rw [Function.update_self, Function.update_self]
    exact hc
  · rw [Function.update_of_ne hk, Function.update_of_ne hk]
    exact h k

/-- Worlds with the same items stay so when tables of one number with the same items are put into
    both. -/
theorem World.SameItems.setTable {w w' : World K V σ} (h : SameItems w w') (i : Nat)
    {t t' : Table V} (ht : t'.items = t.items) : SameItems (w.setTable i t) (w'.setTable i t') :=
  ⟨forall_setCell (P := fun _ c c' => c'.table.items = c.table.items) h.items ht, h.client⟩

namespace World.Twin

variable {κs : Nat → Hashing K} {gs : Nat → Variant K} {w w' : World K V σ}

/-- The tables of one number are twins. -/
theorem table (h : World.Twin I κs gs w w') (i : Nat) :
    Table.Twin (I.keying (κs i)) (gs i) (w.table i) (w'.table i) :=
  (h.cell i).table

/-- Worlds of twins hold the same items. -/
theorem sameItems (h : World.Twin I κs gs w w') : SameItems w w' :=
  ⟨fun i => (h.table i).items, h.client⟩

/-- Twins are seen by operations beside the state of the program. -/
theorem beside (h : World.Twin I κs gs w w') (i : Nat) :
    Beside (Table.Twin (I.keying (κs i)) (gs i)) (w.table i, w.client) (w'.table i, w'.client) :=
  ⟨h.table i, h.client⟩

/-- Worlds stay worlds of twins when cells of one number that are twins are put into both. -/
theorem setCell (h : World.Twin I κs gs w w') (i : Nat) {c c' : Cell K V}
    (hc : Cell.Twin (I.keying (κs i)) (gs i) c c') :
    World.Twin I κs gs (w.setCell i c) (w'.setCell i c') :=
  ⟨forall_setCell (P := fun k => Cell.Twin (I.keying (κs k)) (gs k)) h.cell hc, h.client⟩

/-- Worlds stay worlds of twins when tables of one number that are twins are put into both. -/
theorem setTable (h : World.Twin I κs gs w w') (i : Nat) {t t' : Table V}
    (ht : Table.Twin (I.keying (κs i)) (gs i) t t') :
    World.Twin I κs gs (w.setTable i t) (w'.setTable i t') :=
  h.setCell i (.closed ht)

/-- Worlds of twins are those of programs in the same state, whichever it is. -/
theorem setClient (h : World.Twin I κs gs w w') (s : σ) :
    World.Twin I κs gs (w.setClient s) (w'.setClient s) :=
  ⟨h.cell, rfl⟩

/-- A container is replaced by one that has the hash function of any container. -/
theorem adopt {f : Nat → Nat}
    (h : World.Twin I (fun k => κs (f k)) (fun k => gs (f k)) w w') (i : Nat) {j : Nat}
    {t t' : Table V} (ht : Table.Twin (I.keying (κs j)) (gs j) t t') :
    World.Twin I (fun k => κs (update f i j k)) (fun k => gs (update f i j k))
      (w.setTable i t) (w'.setTable i t') := by
  refine ⟨fun k => ?_, h.client⟩
  show Cell.Twin (I.keying (κs (update f i j k))) (gs (update f i j k))
    (update w.cell i ⟨t, .consumed, .consumed⟩ k) (update w'.cell i ⟨t', .consumed, .consumed⟩ k)
  by_cases hk : k = i
  · subst hk
    rw [Function.update_self, Function.update_self, Function.update_self]
    exact .closed ht
  · rw [Function.update_of_ne hk, Function.update_of_ne hk, Function.update_of_ne hk]
    exact h.cell k

end World.Twin

/-- There is nothing in the first world. -/
theorem World.fits_start (s : σ) : (World.start s : World K V σ).Fits := by
  intro i
  show 0 < 2 ^ 48 - 2
  decide

/-- A world still fits after a cell was replaced by one whose table does. -/
theorem World.Fits.setCell {w : World K V σ} (h : w.Fits) (i : Nat) {c : Cell K V}
    (hc : c.table.size < 2 ^ 48 - 2) : (w.setCell i c).Fits := by
  intro j
  show (update w.cell i c j).table.size < 2 ^ 48 - 2
  by_cases hj : j = i
  · rw [hj, Function.update_self]
    exact hc
  · rw [Function.update_of_ne hj]
    exact h j

/-- A world still fits after a table was replaced by one that does. -/
theorem World.Fits.setTable {w : World K V σ} (h : w.Fits) (i : Nat) {t : Table V}
    (ht : t.size < 2 ^ 48 - 2) : (w.setTable i t).Fits :=
  h.setCell i ht

/-- The container that a turn was about is small if the world fits. -/
theorem World.Fits.small_of_setCell {w : World K V σ} {i : Nat} {c : Cell K V}
    (h : (w.setCell i c).Fits) : c.table.size < Node.movingPosition := by
  have hsize : (update w.cell i c i).table.size < 2 ^ 48 - 2 := h i
  rw [Function.update_self] at hsize
  exact hsize

/-- What a turn comes to on worlds of twins: it answers the same in both and leaves the same
    items, and where the program goes on the worlds are twins. -/
structure Turn.Agreed (turn : Turn I σ α) (κs : Nat → Hashing K) (gs : Nat → Variant K)
    (r r' : Except Fault α × World K V σ) : Prop extends Agree World.SameItems r r' where
  next : World.Twin I (fun i => κs (turn.former r.1 i)) (fun i => gs (turn.former r.1 i))
    (turn.recover r) (turn.recover r')

section Agreed

variable {κs : Nat → Hashing K} {gs : Nat → Variant K} {w w' : World K V σ}

/-- After most turns there is nothing to clear. -/
theorem Turn.Agreed.of_twin {turn : Turn I σ α} {r r' : Except Fault α × World K V σ}
    (hanswer : r'.1 = r.1)
    (h : World.Twin I (fun i => κs (turn.former r.1 i)) (fun i => gs (turn.former r.1 i)) r.2 r'.2)
    (hrecover : turn.recover r = r.2) (hrecover' : turn.recover r' = r'.2) :
    turn.Agreed κs gs r r' := by
  refine ⟨⟨hanswer, h.sameItems⟩, ?_⟩
  rw [hrecover, hrecover']
  exact h

/-- A container is appended to another one, or to itself, which changes nothing. -/
theorem World.Twin.append (h : World.Twin I κs gs w w') (left : Remnant V) (i j : Nat)
    (hfits : (((Turn.append left i j : Turn I σ Unit).actEach κs).step w).2.Fits) :
    (Turn.append left i j : Turn I σ Unit).Agreed κs gs
      (((Turn.append left i j : Turn I σ Unit).actEach κs).step w)
      (((Turn.append left i j : Turn I σ Unit).actEach fun k => (κs k).hashedBy (gs k)).step w') := by
  simp only [Turn.actEach, Action.step_ofStep] at hfits ⊢
  by_cases hij : i = j
  · subst hij
    rw [Origin.between_self]
    exact .of_twin rfl ((h.setTable i (h.table i)).setTable i (h.table i)) rfl rfl
  · rw [Origin.between_of_ne hij] at hfits ⊢
    have hrun := (h.table i).append (h.table j) left (World.Fits.small_of_setCell hfits)
    rw [show I.keying ((κs i).hashedBy (gs i)) = (I.keying (κs i)).hashedBy (gs i) from rfl]
    generalize (Table.append (I.keying (κs i)) left .other).step (w.table i, w.table j) = r at hrun ⊢
    generalize (Table.append ((I.keying (κs i)).hashedBy (gs i)) left .other).step
      (w'.table i, w'.table j) = r' at hrun ⊢
    obtain ⟨answer, t, source⟩ := r
    obtain ⟨answer', t', source'⟩ := r'
    obtain ⟨⟨hanswer, hstate⟩, hsource⟩ := hrun
    obtain rfl : answer' = answer := hanswer
    refine ⟨⟨rfl, (h.sameItems.setTable j hstate.items).setTable i hstate.fst.items⟩, ?_⟩
    cases answer' with
    | ok _ => exact (h.setTable j (hsource rfl)).setTable i hstate.fst
    | error fault =>
      -- the source is left with the items that were not moved, and is cleared
      have hcleared := (h.setTable i hstate.fst).setTable j hstate.cleared
      simp only [Turn.recover, World.table_setTable_of_ne _ (Ne.symm hij),
        World.table_setTable_self, World.setTable_between _ hij]
      exact hcleared

/-- A copy of a container has its hash function. -/
theorem World.Twin.copy (h : World.Twin I κs gs w w') (i j : Nat) :
    World.Twin I (fun k => κs (update id i j k)) (fun k => gs (update id i j k))
      (((Turn.copy i j : Turn I σ Unit).actEach κs).step w).2
      (((Turn.copy i j : Turn I σ Unit).actEach fun k => (κs k).hashedBy (gs k)).step w').2 := by
  simp only [Turn.actEach, Action.step_modify]
  by_cases hij : i = j
  · subst hij
    rw [Origin.between_self]
    exact (h.setTable i (h.table i)).adopt (f := id) i (h.table i)
  · rw [Origin.between_of_ne hij]
    exact (h.setTable j (h.table j)).adopt (f := id) i (h.table j)

/-- A container that is moved takes its hash function along, and leaves it behind as well. -/
theorem World.Twin.move (h : World.Twin I κs gs w w') (sharedStorage : Bool) (i j : Nat) :
    World.Twin I (fun k => κs (update id i j k)) (fun k => gs (update id i j k))
      (((Turn.move sharedStorage i j : Turn I σ Unit).actEach κs).step w).2
      (((Turn.move sharedStorage i j : Turn I σ Unit).actEach fun k =>
        (κs k).hashedBy (gs k)).step w').2 := by
  simp only [Turn.actEach, Action.step_modify]
  by_cases hij : i = j
  · subst hij
    rw [Origin.between_self]
    exact (h.setTable i (h.table i)).adopt (f := id) i (h.table i)
  · rw [Origin.between_of_ne hij]
    have hsource := h.setTable j ((h.table j).leftBehind sharedStorage)
    exact hsource.adopt (f := id) i (h.table j)

/-- Worlds stay worlds of twins when two containers change places, and their hash functions with
    them. -/
theorem World.Twin.swap (h : World.Twin I κs gs w w') (i j : Nat) :
    World.Twin I (fun k => κs (update (update id j i) i j k))
      (fun k => gs (update (update id j i) i j k))
      (((Turn.swap i j : Turn I σ Unit).actEach κs).step w).2
      (((Turn.swap i j : Turn I σ Unit).actEach fun k => (κs k).hashedBy (gs k)).step w').2 := by
  simp only [Turn.actEach, Action.step_modify]
  by_cases hij : i = j
  · subst hij
    rw [Origin.between_self]
    exact (h.adopt (f := id) i (h.table i)).adopt i (h.table i)
  · rw [Origin.between_of_ne hij]
    exact (h.adopt (f := id) j (h.table i)).adopt i (h.table j)

/-- A container is made of two others and gets the hash function of the first. -/
theorem World.Twin.combine (h : World.Twin I κs gs w w') (algebra : I.Algebra) (i j k : Nat)
    (hfits : (((Turn.combine algebra i j k : Turn I σ Unit).actEach κs).step w).2.Fits) :
    (Turn.combine algebra i j k : Turn I σ Unit).Agreed κs gs
      (((Turn.combine algebra i j k : Turn I σ Unit).actEach κs).step w)
      (((Turn.combine algebra i j k : Turn I σ Unit).actEach fun l =>
        (κs l).hashedBy (gs l)).step w') := by
  have hmade := I.combine_made (h.table i) (h.table j) algebra
  simp only [Turn.actEach, Action.step_get_bind] at hfits ⊢
  generalize I.combine (κs i) (κs j) (w.table i) (w.table j) algebra = made at hfits hmade ⊢
  generalize I.combine ((κs i).hashedBy (gs i)) ((κs j).hashedBy (gs j)) (w'.table i) (w'.table j)
    algebra = made' at hmade ⊢
  -- both sets are made, or neither for the same reason
  cases made with
  | error fault =>
    cases made' with
    | error fault' =>
      obtain rfl : fault' = fault := Except.error.inj hmade.answer
      exact .of_twin rfl h rfl rfl
    | ok t' => cases hmade.answer
  | ok t =>
    cases made' with
    | error fault' => cases hmade.answer
    | ok t' =>
      have htwin := hmade.twin rfl rfl (World.Fits.small_of_setCell hfits)
      exact .of_twin rfl (h.adopt (f := id) k htwin) rfl rfl

/-- A turn on worlds of twins answers the same in both and leaves the same items, and leaves
    worlds of twins where the program goes on, unless positions run out. -/
theorem Turn.agree (h : World.Twin I κs gs w w') (turn : Turn I σ α)
    (hfits : ((turn.actEach κs).step w).2.Fits) :
    turn.Agreed κs gs ((turn.actEach κs).step w)
      ((turn.actEach fun i => (κs i).hashedBy (gs i)).step w') := by
  cases turn with
  | ask i query =>
    have hsame := I.ask_eq (h.table i) query
    simp only [actEach, Action.step_ofStep, hsame, h.client]
    exact .of_twin rfl (h.setClient _) rfl rfl
  | use i op =>
    simp only [actEach, Action.step_ofStep] at hfits ⊢
    have hrun := I.run_agree (h.beside i) op (World.Fits.small_of_setCell (w := w) (i := i) hfits)
    have htable := h.setTable i hrun.state.fst
    exact .of_twin hrun.answer ⟨htable.cell, hrun.state.snd⟩ rfl rfl
  | create i count =>
    have hnew := Table.Twin.withCapacity (h.table i).admits count
    exact .of_twin rfl (h.setTable i hnew) rfl rfl
  | openEntry i k =>
    simp only [actEach, Action.step_get_bind]
    rcases Entry.ofKey_twin (h.table i) k with ⟨fault, he, he'⟩ | ⟨e, e', he, he', hright⟩
    · have he' : Entry.ofKey (I.keying ((κs i).hashedBy (gs i))) (w'.table i) k =
          .error fault := he'
      rw [he, he']
      exact .of_twin rfl h rfl rfl
    · have he' : Entry.ofKey (I.keying ((κs i).hashedBy (gs i))) (w'.table i) k = .ok e' := he'
      rw [he, he']
      exact .of_twin rfl (h.setCell i ⟨h.table i, hright, (h.cell i).indexed⟩) rfl rfl
  | callEntry i call =>
    simp only [actEach, Action.step_ofStep] at hfits ⊢
    have hbefore : Beside (Entry.Held (I.keying (κs i)) (gs i))
        (((w.cell i).entry, w.table i), w.client) (((w'.cell i).entry, w'.table i), w'.client) :=
      ⟨⟨h.table i, (h.cell i).entry⟩, h.client⟩
    have hrun := call.agree hbefore (World.Fits.small_of_setCell (w := w) (i := i) hfits)
    have htable := hrun.state.fst.table
    -- the handle by position is closed, since the table may have changed
    have hafter : Cell.Twin (I.keying (κs i)) (gs i) ⟨_, _, .consumed⟩ ⟨_, _, .consumed⟩ :=
      ⟨htable, hrun.state.fst.entry, .consumed htable⟩
    exact .of_twin hrun.answer ⟨(h.setCell i hafter).cell, hrun.state.snd⟩ rfl rfl
  | openIndexed i pos =>
    simp only [actEach, Action.step_get_bind]
    rcases IndexedEntry.ofPosition_twin (h.table i) pos with ⟨fault, he, he'⟩ | ⟨he, he', hlt⟩
    · rw [he, he']
      exact .of_twin rfl h rfl rfl
    · rw [he, he']
      have hcell : Cell.Twin (I.keying (κs i)) (gs i) { w.cell i with indexed := .held pos }
          { w'.cell i with indexed := .held pos } :=
        ⟨h.table i, (h.cell i).entry, .held (h.table i) hlt⟩
      exact .of_twin rfl (h.setCell i hcell) rfl rfl
  | callIndexed i call =>
    have hrun := call.agree (h.cell i).indexed
    have hcell : Cell.Twin (I.keying (κs i)) (gs i) ⟨_, .consumed, _⟩ ⟨_, .consumed, _⟩ :=
      ⟨hrun.state.table, .consumed, hrun.state⟩
    exact .of_twin hrun.answer (h.setCell i hcell) rfl rfl
  | append left i j => exact h.append left i j hfits
  | splitOff i pos j =>
    simp only [actEach, Action.step_get_bind]
    rcases (h.table i).splitOff pos with ⟨fault, hs, hs'⟩ | ⟨u, u', r, r', hs, hs', hu, hr⟩
    · have hs' : (Table.splitOff (I.keying ((κs i).hashedBy (gs i))) pos).step (w'.table i) =
          (.error fault, w'.table i) := hs'
      rw [hs, hs']
      exact .of_twin rfl h rfl rfl
    · have hs' : (Table.splitOff (I.keying ((κs i).hashedBy (gs i))) pos).step (w'.table i) =
          (.ok r', u') := hs'
      rw [hs, hs']
      exact .of_twin rfl ((h.setTable i hu).adopt (f := id) j hr) rfl rfl
  | copy i j => exact .of_twin rfl (h.copy i j) rfl rfl
  | move sharedStorage i j => exact .of_twin rfl (h.move sharedStorage i j) rfl rfl
  | swap i j => exact .of_twin rfl (h.swap i j) rfl rfl
  | combine algebra i j k => exact h.combine algebra i j k hfits
  | relate relation i j =>
    have hsame := I.relate_eq (h.table i) (h.table j) relation
    simp only [actEach, Action.step_get_bind, hsame, Action.step_ofExcept]
    exact .of_twin rfl h rfl rfl
  | sameItems equal i j =>
    simp only [actEach, Action.step_get_bind, (h.table i).items, (h.table j).items]
    exact .of_twin rfl h rfl rfl
  | precedes less i j =>
    simp only [actEach, Action.step_get_bind, (h.table i).items, (h.table j).items]
    exact .of_twin rfl h rfl rfl

end Agreed

end Twin

end OrderedHash
