import OrderedHash.Proofs.Runs.Consistency

namespace OrderedHash

/-!
# Extractions from containers of a run

An extraction removes exactly the items that it hands out (`World.extracts_of_reachable`).
Whether it is never used, left off after some items, resumed, handed over, run to the end or
ended by a fault of the test, what was done to the container when it ends is told by one
inspection of the range: the test was asked about its items in order and only as long as
more were wanted, the items that passed are those handed out, and the others are left where
they were with what the test made of them.
-/

open Extraction (Use)

variable {K V T σ ρ : Type}

namespace Table

/-- What an extraction from a table has done when it ends, told by an inspection of the range. -/
structure Extracts (κ : Keying K V) (test : Action (V × ρ) Bool) (first last : Nat)
    (wanted : Option Nat) (t : Table V) (s : ρ) (answer : List V × Nat × Option Fault)
    (t' : Table V) (s' : ρ) (d : Inspection V ρ) : Prop where
  asked : Asked test (t.itemsIn first last) s d
  /-- The test is asked only while fewer items have passed than are wanted. -/
  needed : ∀ n, wanted = some n → ∀ front e, d.seen = front ++ [e] →
    (front.filter fun e => e.2).length < n
  /-- A number of items are wanted, and the test is asked until so many have passed, unless
      the range ends before or the test fails. -/
  enough : d.fault = none → d.rest = [] ∨ wanted = some d.passed.length
  answer_eq : answer = (d.passed, d.passed.length, d.fault)
  client_eq : s' = d.client
  items_eq : t'.items.toList =
    t.items.toList.take first ++ d.kept ++ d.rest ++ t.items.toList.drop last
  consistent : t'.Consistent κ
  bucketCount_eq : t'.index.bucketCount = t.index.bucketCount

variable {κ : Keying K V} {t : Table V}

/-- An extraction from a coherent table removes exactly the items that it hands out. -/
theorem Coherent.extracts (h : t.Coherent κ) (hκ : κ.Lawful) {first last : Nat}
    (hle : first ≤ last) (hlast : last ≤ t.size) (test : Visitor κ.key ρ Bool) (uses : List Use)
    (s : ρ) : ∃ answer t' s' d,
      (extractUsing κ first last test.visit uses).step (t, s) = (.ok answer, (t', s')) ∧
        Extracts κ test.visit first last (Extraction.wanted uses) t s answer t' s' d := by
  have hkeys := left_keys test.keeps t hle (Extraction.wanted uses) s
  have hsize := hkeys.length_le
  rw [List.length_map, List.length_map] at hsize
  refine ⟨_, _, _, inspect test.visit (Extraction.wanted uses) (t.itemsIn first last) s,
    step_extractUsing ⟨hle, hlast⟩ test.visit uses s, ?_⟩
  refine ⟨asked_inspect _ _ _, fun n hn front e hseen => ?_, rest_inspect _ _ _ _, rfl, rfl, ?_,
    (h.compacted hκ hkeys).consistent hκ, h.bucketCount_compacted hsize⟩
  · rw [hn] at hseen
    exact needed_inspect hseen
  · rw [items_compacted, left, List.toList_toArray]

end Table

namespace World

variable {κ : Hashing K}

/-- After every run on maps or on sets an extraction from any container, over any range and
    however it is used, removes exactly the items that it hands out. -/
theorem extracts_of_reachable (hκ : κ.Lawful) :
    (∀ {w : World K (K × T) σ}, Reachable (Map.interface K T) κ w →
      ∀ (i : Nat) {first last : Nat}, first ≤ last → last ≤ (w.table i).size →
        ∀ (test : Visitor Prod.fst ρ Bool) (uses : List Use) (s : ρ), ∃ answer t' s' d,
          (Table.extractUsing κ.map first last test.visit uses).step (w.table i, s) =
              (.ok answer, (t', s')) ∧
            Table.Extracts κ.map test.visit first last (Extraction.wanted uses) (w.table i) s
              answer t' s' d) ∧
    ∀ {w : World K K σ}, Reachable (Set.interface K) κ w →
      ∀ (i : Nat) {first last : Nat}, first ≤ last → last ≤ (w.table i).size →
        ∀ (test : Visitor id ρ Bool) (uses : List Use) (s : ρ), ∃ answer t' s' d,
          (Table.extractUsing κ.set first last test.visit uses).step (w.table i, s) =
              (.ok answer, (t', s')) ∧
            Table.Extracts κ.set test.visit first last (Extraction.wanted uses) (w.table i) s
              answer t' s' d := by
  constructor
  · intro w h i first last hle hlast test uses s
    have hcoherent : (w.table i).Coherent κ.map := h.coherent hκ i
    exact hcoherent.extracts hκ hle hlast test uses s
  · intro w h i first last hle hlast test uses s
    have hcoherent : (w.table i).Coherent κ.set := h.coherent hκ i
    exact hcoherent.extracts hκ hle hlast test uses s

/-- A test that counts an item up before it fails on the key nine, and that all others pass. -/
def countUp : Visitor (Prod.fst : Nat × Nat → Nat) Unit Bool where
  visit := Action.ofStep fun ((k, n), s) =>
    (if k = 9 then .error (.client "nine") else .ok true, ((k, n + 1), s))
  keeps _ := rfl

/-- A test that only the key five passes. -/
def isFive : Visitor (id : Nat → Nat) Unit Bool where
  visit := Action.ofStep fun (k, s) => (.ok (k == 5), (k, s))
  keeps _ := rfl

/-- An extraction from a map is handed over and ended by a fault; one from a set is left off
    and resumed. -/
theorem extracts_of_reachable_resumed :
    ((Table.extractUsing Hashing.constant.map 0 2 countUp.visit [.handOver, .take none]).step
        ((withTwo .constant (start ())).table 0, ())).2.1.items = #[(9, 3)] ∧
      (∃ answer t' s' d,
        (Table.extractUsing Hashing.constant.map 0 2 countUp.visit [.handOver, .take none]).step
            ((withTwo .constant (start ())).table 0, ()) = (.ok answer, (t', s')) ∧
          Table.Extracts Hashing.constant.map countUp.visit 0 2 none
            ((withTwo .constant (start ())).table 0) () answer t' s' d) ∧
      ((Table.extractUsing Hashing.constant.set 0 2 isFive.visit [.take (some 1), .take (some 1)]).step
        (collided.table 0, ())).2.1.items = #[9] ∧
      ∃ answer t' s' d,
        (Table.extractUsing Hashing.constant.set 0 2 isFive.visit
            [.take (some 1), .take (some 1)]).step (collided.table 0, ()) = (.ok answer, (t', s')) ∧
          Table.Extracts Hashing.constant.set isFive.visit 0 2 (some 2) (collided.table 0) ()
            answer t' s' d := by
  have hconstant : Hashing.constant.Lawful := Hashing.lawful_ofHasher _
  have hmap : Reachable (Map.interface Nat Nat) .constant (withTwo .constant (start ())) :=
    (Reachable.start ()).turn (fun _ => none) _ fits_withTwo
  refine ⟨by decide +kernel, ?_, by decide +kernel, ?_⟩
  · exact (extracts_of_reachable hconstant).1 hmap 0 (Nat.zero_le 2)
      (by decide +kernel) countUp _ ()
  · exact (extracts_of_reachable (T := Nat) hconstant).2 collided_reachable 0 (Nat.zero_le 2)
      (by decide +kernel) isFive _ ()

end World

end OrderedHash
