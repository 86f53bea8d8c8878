import OrderedHash.Proofs.Index.Growth
import OrderedHash.Proofs.Runs.Lockstep

namespace OrderedHash

/-!
# Consistent tables

A table is `Consistent` if no two of its keys are equal, if the live nodes of its index
hold the positions of its items and each of them once, and if a key is found exactly where
an equal one is stored. Coherent tables are consistent (`Table.Coherent.consistent`).

A hash function gives equal keys equal hash values and may fail on some keys, on the same ones
whenever it is asked about them. No container then holds a key on which it fails, which is why
no append is cut short (`World.Steady.twin`), and every container is consistent after every run,
whatever faults occurred on it (`World.consistent_of_reachable`). A hash function that fails now
and then, or another one in every container, does no harm either, but for one turn: an append
that is cut short leaves a source whose index still stands for the items that were moved
(`Turn.Spoils`, `World.not_consistent_cutShort`). All other containers are consistent even then,
and so is the source once it is cleared.
-/

/-- The index stands for exactly the items, and keys are found where they are stored. -/
structure Table.Consistent {K V : Type} (κ : Keying K V) (t : Table V) : Prop where
  distinct : (t.items.toList.map κ.key).Pairwise fun a b => κ.same a b = false
  positions : (t.index.liveNodes.map fun e => e.2.pos).Perm (List.range t.size)
  find : ∀ k p, t.find κ k = some p ↔ ∃ v, t.items[p]? = some v ∧ κ.same (κ.key v) k

/-- Coherent tables are consistent under a lawful hash function. -/
theorem Table.Coherent.consistent {K V : Type} {κ : Keying K V} {t : Table V}
    (h : t.Coherent κ) (hκ : κ.Lawful) : t.Consistent κ where
  distinct := (distinct_iff_pairwise hκ t.items).mp h.distinct
  positions := h.indexes.positions_perm
  find := h.find_eq_some hκ

/-! ### Appends that are cut short -/

section Spoils

variable {K V σ α : Type} {I : Interface K V}

/-- The container that is left with some of its items moved and others not: the source of an
    append that was cut short. -/
def Turn.Spoils (turn : Turn I σ α) (answer : Except Fault α) (k : Nat) : Prop :=
  match turn, answer with
  | .append _ _ j, .error _ => k = j
  | _, _ => False

/-- The program has to clear no other container before it goes on. -/
theorem Turn.table_recover (turn : Turn I σ α) (r : Except Fault α × World K V σ) {k : Nat}
    (hk : ¬ turn.Spoils r.1 k) : (turn.recover r).table k = r.2.table k := by
  obtain ⟨answer, w⟩ := r
  cases turn with
  | append left i j =>
    cases answer with
    | ok a => rfl
    | error fault => exact World.table_setTable_of_ne _ hk _
  | _ => rfl

end Spoils

namespace World

section Coherent

variable {K V σ : Type} {I : Interface K V} {κ : Hashing K} {κs : Nat → Hashing K}
  {w : World K V σ}

/-- In a reachable world the tables are coherent, since it is a twin of itself. -/
theorem ReachableEach.coherent (h : ReachableEach I κs w) (i : Nat) :
    (w.table i).Coherent (I.keying (κs i)) :=
  (h.twin.table i).left

/-- Wherever a hash function came from, it gives equal keys equal hash values. -/
theorem ReachableEach.lawful (h : ReachableEach I κs w) (i : Nat) : (κs i).Lawful :=
  (h.twin.table i).admits.lawful

/-- In a reachable world the tables are coherent under the one hash function. -/
theorem Reachable.coherent (h : Reachable I κ w) (hκ : κ.Lawful) (i : Nat) :
    (w.table i).Coherent (I.keying κ) :=
  (h.each hκ).coherent i

end Coherent

variable {K : Type} {κ : Hashing K}

theorem Reachable.coherent_map {T σ : Type} {w : World K (K × T) σ}
    (h : Reachable (Map.interface K T) κ w) (hκ : κ.Lawful) (i : Nat) :
    (w.table i).Coherent κ.map :=
  h.coherent hκ i

theorem Reachable.coherent_set {σ : Type} {w : World K K σ} (h : Reachable (Set.interface K) κ w)
    (hκ : κ.Lawful) (i : Nat) : (w.table i).Coherent κ.set :=
  h.coherent hκ i

/-- In a reachable world the tables are consistent. -/
theorem ReachableEach.consistent {V σ : Type} {I : Interface K V} {κs : Nat → Hashing K}
    {w : World K V σ} (h : ReachableEach I κs w) (i : Nat) :
    (w.table i).Consistent (I.keying (κs i)) :=
  (h.coherent i).consistent (h.lawful i)

/-- The turn that adds numbers to the first set. -/
def addNumbers (ns : List Nat) : Turn (Set.interface Nat) Unit Unit :=
  .use 0 (.common (.extend ns true))

/-- The world after numbers were added to its first set. -/
def numbers (κ : Hashing Nat) (ns : List Nat) : World Nat Nat Unit :=
  (((addNumbers ns).act (κ.refusing fun _ => none)).step (start ())).2

/-- There are positions for the numbers that were added. -/
theorem fits_numbers (κ : Hashing Nat) (ns : List Nat)
    (h : ((numbers κ ns).table 0).size < 2 ^ 48 - 2) : (numbers κ ns).Fits :=
  (fits_start ()).setTable 0 h

/-- A set of numbers is reached by one turn. -/
theorem numbers_reachable (κ : Hashing Nat) (ns : List Nat)
    (h : ((numbers κ ns).table 0).size < 2 ^ 48 - 2) :
    Reachable (Set.interface Nat) κ (numbers κ ns) :=
  (Reachable.start ()).turn (fun _ => none) (addNumbers ns) (fits_numbers κ ns h)

/-- Keys that collide, one of which is added to a set although the set has it. -/
def collided : World Nat Nat Unit := numbers .constant [5, 9, 5]

/-- The set of keys that collide is reached by one turn. -/
theorem collided_reachable : Reachable (Set.interface Nat) .constant collided :=
  numbers_reachable .constant [5, 9, 5] (by decide +kernel)

/-- The hash function fails on the number four. -/
def refuseFour (k : Nat) : Option Fault := if k = 4 then some (.client "four") else none

/-- The turn that appends the first set to the second. Of numbers that are moved zero is left. -/
def appendNumbers : Turn (Set.interface Nat) Unit Unit := .append (Set.remnant fun _ => 0) 1 0

/-- What comes of an append if the hash function fails on the last of three numbers, on which it
    did not fail before. -/
def cutShort : Except Fault Unit × World Nat Nat Unit :=
  (appendNumbers.actEach fun _ => Hashing.numeral.refusing refuseFour).step
    (numbers .numeral [5, 9, 4])

/-- The exception has to be made: what is left of the numbers that were moved is equal. -/
theorem not_consistent_cutShort : cutShort.1 = .error (.client "four") ∧
    (cutShort.2.table 1).items = #[5, 9] ∧ (cutShort.2.table 0).items = #[0, 0, 4] ∧
      ¬ (cutShort.2.table 0).Consistent Hashing.numeral.set := by
  have hleft : (cutShort.2.table 0).items = #[0, 0, 4] := by decide +kernel
  refine ⟨by decide +kernel, by decide +kernel, hleft, fun h => ?_⟩
  have hdistinct := h.distinct
  rw [hleft] at hdistinct
  exact absurd hdistinct (by decide)

end World

end OrderedHash
