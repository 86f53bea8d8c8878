import OrderedHash.Proofs.Runs.Consistency

namespace OrderedHash

/-!
# Filters of containers of a run

A container is filtered where it is, to keep either the items that pass a test or those that
do not. The test may change the values of a map, and it may fail.

A filter shows the items to the test in order and once each. Where the test answers for all
of them, those with the other answer are gone; where it fails, the items that it has not
answered for are all left, behind those that were kept (`World.filters_of_reachable`).
-/

variable {K V T σ ρ : Type}

/-- The two ways to filter a container. -/
inductive Filter where
  /-- The items that pass the test are kept. -/
  | retain
  /-- The items that pass the test are removed. -/
  | eraseIf

namespace Filter

/-- The answer of the test for the items that are kept. -/
def keeps : Filter → Bool
  | retain => true
  | eraseIf => false

/-- What a filter does to a table. -/
def run (κ : Keying K V) (test : Action (V × ρ) Bool) : Filter → Action (Table V × ρ) Nat
  | retain => Table.retain κ test
  | eraseIf => Table.eraseIf κ test

end Filter

namespace Table

/-- What a filter of a table has done when it ends, told by an inspection of the items. -/
structure Filters (κ : Keying K V) (filter : Filter) (test : Action (V × ρ) Bool) (t : Table V)
    (s : ρ) (answer : Except Fault Nat) (t' : Table V) (s' : ρ) (d : Inspection V ρ) : Prop where
  asked : Asked test t.items.toList s d
  /-- The test is asked about all items, unless it fails. -/
  all : d.fault = none → d.rest = []
  /-- The items that were shown to the test are those of the table, with their keys. -/
  keys_eq : (d.seen.map Prod.fst ++ d.rest).map κ.key = t.items.toList.map κ.key
  answer_eq : answer = d.outcome.map fun _ => (d.answered !filter.keeps).length
  client_eq : s' = d.client
  items_eq : t'.items.toList = d.answered filter.keeps ++ d.rest
  consistent : t'.Consistent κ
  bucketCount_eq : t'.index.bucketCount = t.index.bucketCount

variable {κ : Keying K V} {t : Table V}

/-- A filter makes one inspection of the items. -/
theorem step_filter (κ : Keying K V) (filter : Filter) (test : Action (V × ρ) Bool) (t : Table V)
    (s : ρ) : (filter.run κ test).step (t, s) =
      let d := inspect test none t.items.toList s
      (d.outcome.map fun _ => (d.answered !filter.keeps).length,
        (t.compacted κ (d.answered filter.keeps ++ d.rest).toArray, d.client)) := by
  cases filter with
  | retain =>
    simp only [Filter.keeps, Bool.not_true, Inspection.answered_true, Inspection.answered_false]
    exact step_retain κ test t s
  | eraseIf =>
    simp only [Filter.keeps, Bool.not_false, Inspection.answered_true, Inspection.answered_false]
    exact step_eraseIf κ test t s

/-- A coherent table is filtered by a test that leaves the keys. -/
theorem Coherent.filters (h : t.Coherent κ) (hκ : κ.Lawful) (filter : Filter)
    (test : Visitor κ.key ρ Bool) (s : ρ) : ∃ answer t' s' d,
      (filter.run κ test.visit).step (t, s) = (answer, (t', s')) ∧
        Filters κ filter test.visit t s answer t' s' d := by
  set d := inspect test.visit none t.items.toList s
  -- the keys that are left are in the order of before, which is all that coherence asks for
  have hkeys : ((d.answered filter.keeps ++ d.rest).map κ.key).Sublist (t.items.toList.map κ.key) :=
    answered_keys test.keeps none filter.keeps t.items.toList s
  have hsize := hkeys.length_le
  simp only [List.length_map, Array.length_toList] at hsize
  refine ⟨_, _, _, d, step_filter κ filter test.visit t s, ?_⟩
  exact {
    asked := asked_inspect none _ s
    all := fun hfault => (rest_inspect test.visit none _ s hfault).resolve_right nofun
    keys_eq := keys_inspect test.keeps none _ s
    answer_eq := rfl
    client_eq := rfl
    items_eq := by rw [items_compacted, List.toList_toArray]
    consistent := (h.compacted hκ hkeys).consistent hκ
    bucketCount_eq := h.bucketCount_compacted hsize }

end Table

namespace World

variable {κ : Hashing K}

/-- After every run on maps or on sets a filter of any container shows the items to the test in
    order and once each, and keeps those with one answer and those without an answer. -/
theorem filters_of_reachable (hκ : κ.Lawful) :
    (∀ {w : World K (K × T) σ}, Reachable (Map.interface K T) κ w →
      ∀ (i : Nat) (filter : Filter) (test : Visitor Prod.fst ρ Bool) (s : ρ), ∃ answer t' s' d,
        (filter.run κ.map test.visit).step (w.table i, s) = (answer, (t', s')) ∧
          Table.Filters κ.map filter test.visit (w.table i) s answer t' s' d) ∧
    ∀ {w : World K K σ}, Reachable (Set.interface K) κ w →
      ∀ (i : Nat) (filter : Filter) (test : Visitor id ρ Bool) (s : ρ), ∃ answer t' s' d,
        (filter.run κ.set test.visit).step (w.table i, s) = (answer, (t', s')) ∧
          Table.Filters κ.set filter test.visit (w.table i) s answer t' s' d := by
  constructor
  · intro w h i filter test s
    exact (h.coherent_map hκ i).filters hκ filter test s
  · intro w h i filter test s
    exact (h.coherent_set hκ i).filters hκ filter test s

/-- A test that doubles the values, fails on the key nine, and that no other key passes. -/
def doubleUpToNine : Visitor (Prod.fst : Nat × Nat → Nat) Unit Bool where
  visit := Action.ofStep fun ((k, n), s) =>
    (if k = 9 then .error (.client "nine") else .ok false, ((k, 2 * n), s))
  keeps _ := rfl

/-- A test that the odd keys below seven pass, and that counts the keys it is shown. -/
def oddBelowSeven : Visitor (id : Nat → Nat) Nat Bool where
  visit := Action.ofStep fun (k, n) => (.ok (k % 2 == 1 && k < 7), (k, n + 1))
  keeps _ := rfl

/-- A filter of a map is interrupted behind an item that is gone; one of a set goes to the end. -/
theorem filters_of_reachable_interrupted :
    ((Filter.retain.run Hashing.constant.map doubleUpToNine.visit).step
        ((withTwo .constant (start ())).table 0, ())).2.1.items = #[(9, 4)] ∧
      (∃ answer t' s' d,
        (Filter.retain.run Hashing.constant.map doubleUpToNine.visit).step
            ((withTwo .constant (start ())).table 0, ()) = (answer, (t', s')) ∧
          Table.Filters Hashing.constant.map .retain doubleUpToNine.visit
            ((withTwo .constant (start ())).table 0) () answer t' s' d) ∧
      ((Filter.eraseIf.run Hashing.constant.set oddBelowSeven.visit).step
        (collided.table 0, 0)).2.1.items = #[9] ∧
      ∃ answer t' s' d,
        (Filter.eraseIf.run Hashing.constant.set oddBelowSeven.visit).step
            (collided.table 0, 0) = (answer, (t', s')) ∧
          Table.Filters Hashing.constant.set .eraseIf oddBelowSeven.visit (collided.table 0) 0
            answer t' s' d := by
  have hconstant : Hashing.constant.Lawful := Hashing.lawful_ofHasher _
  refine ⟨by decide +kernel, ?_, by decide +kernel, ?_⟩
  · exact (filters_of_reachable hconstant).1 withTwo_reachable 0 .retain doubleUpToNine ()
  · exact (filters_of_reachable (T := Nat) hconstant).2 collided_reachable 0 .eraseIf
      oddBelowSeven 0

end World

end OrderedHash
