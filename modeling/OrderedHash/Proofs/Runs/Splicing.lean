import OrderedHash.Proofs.Runs.Consistency
import OrderedHash.Proofs.Table.Splicing

namespace OrderedHash

/-!
# Ranges replaced in containers of a run

A range is replaced by a list of items, some of whose keys may occur more than once, be those
of items of the range, or be those of items outside of it. In the place of the range there
are afterwards the items with keys that are not outside of it, one for each key, in the order
in which the keys occur first. In a map the values are in either case the last ones that the
list has for their keys; the items of a set that are outside of the range stay as they are
(`World.splices_of_reachable`).
-/

variable {K V T σ : Type}

namespace Table

/-- The items before a range and those after it. -/
def outside (t : Table V) (first last : Nat) : List V :=
  t.items.toList.take first ++ t.items.toList.drop last

/-- A list of items has taken the place of those from `first` up to `last`, which are answered,
    and left `front` before and `back` after it. -/
structure Splices (κ : Keying K V) (first last : Nat) (vs front back : List V) (t : Table V)
    (removed : List V) (u : Table V) : Prop where
  removed_eq : removed = t.itemsIn first last
  items_eq : u.items.toList = front ++ κ.additions (t.outside first last) vs ++ back
  consistent : u.Consistent κ

variable {κ : Keying K V} {t : Table V}

/-- A range of a coherent table is replaced by items whose keys the hash function accepts. -/
theorem Coherent.splices (h : t.Coherent κ) (hκ : κ.Lawful) (hr : κ.Refreshes) {first last : Nat}
    (hle : first ≤ last) (hlast : last ≤ t.size) {vs : List V}
    (haccepted : ∀ v ∈ vs, κ.refusal (κ.key v) = none)
    (hsmall : (t.outside first last).length + (κ.additions (t.outside first last) vs).length <
      2 ^ 48 - 2) :
    ∃ removed u, (splice κ first last vs).step t = (.ok removed, u) ∧
      Splices κ first last vs ((t.items.toList.take first).map (κ.latest · vs))
        ((t.items.toList.drop last).map (κ.latest · vs)) t removed u := by
  have hlength : (t.items.toList.take first ++ κ.additions (t.outside first last) vs ++
      t.items.toList.drop last).length < Node.movingPosition := by
    refine lt_of_eq_of_lt ?_ hsmall
    simp only [outside, List.length_append]
    omega
  obtain ⟨u, hrun, hu, hitems⟩ := h.step_splice hκ hr hle hlast haccepted rfl rfl hlength
  exact ⟨_, u, hrun, rfl, hitems, hu.consistent hκ⟩

end Table

namespace World

variable {κ : Hashing K}

/-- After every run on maps or on sets every range of any container can be replaced by every
    list of items, as long as these leave positions for all. -/
theorem splices_of_reachable (hκ : κ.Lawful) :
    (∀ {w : World K (K × T) σ}, Reachable (Map.interface K T) κ w →
      ∀ (i : Nat) {first last : Nat}, first ≤ last → last ≤ (w.table i).size →
        ∀ vs : List (K × T), (∀ v ∈ vs, κ.refusal v.1 = none) →
          ((w.table i).outside first last).length +
              (κ.map.additions ((w.table i).outside first last) vs).length < 2 ^ 48 - 2 →
            ∃ removed u, (Table.splice κ.map first last vs).step (w.table i) = (.ok removed, u) ∧
              Table.Splices κ.map first last vs
                (((w.table i).items.toList.take first).map (κ.map.latest · vs))
                (((w.table i).items.toList.drop last).map (κ.map.latest · vs))
                (w.table i) removed u) ∧
    ∀ {w : World K K σ}, Reachable (Set.interface K) κ w →
      ∀ (i : Nat) {first last : Nat}, first ≤ last → last ≤ (w.table i).size →
        ∀ ks : List K, (∀ k ∈ ks, κ.refusal k = none) →
          ((w.table i).outside first last).length +
              (κ.set.additions ((w.table i).outside first last) ks).length < 2 ^ 48 - 2 →
            ∃ removed u, (Table.splice κ.set first last ks).step (w.table i) = (.ok removed, u) ∧
              Table.Splices κ.set first last ks ((w.table i).items.toList.take first)
                ((w.table i).items.toList.drop last) (w.table i) removed u := by
  constructor
  · intro w h i first last hle hlast vs haccepted hsmall
    exact (h.coherent_map hκ i).splices hκ (Keying.refreshes_map κ) hle hlast haccepted hsmall
  · intro w h i first last hle hlast ks haccepted hsmall
    have hsplices :=
      (h.coherent_set hκ i).splices hκ (Keying.refreshes_set κ) hle hlast haccepted hsmall
    simpa only [Keying.latest_set, List.map_id'] using hsplices

/-- Items with one key twice, with the key five and with the key nine. -/
def mixedItems : List (Nat × Nat) := [(7, 70), (9, 90), (5, 50), (7, 71)]

/-- The first item of a map makes way for others, among them its own key and the one after it;
    the last key of a set comes back behind a new one. -/
theorem splices_of_reachable_repeated :
    (∃ removed u, (Table.splice Hashing.constant.map 0 1 mixedItems).step
          ((withTwo .constant (start ())).table 0) = (.ok removed, u) ∧
        Table.Splices Hashing.constant.map 0 1 mixedItems [] [(9, 90)]
          ((withTwo .constant (start ())).table 0) removed u) ∧
      Hashing.constant.map.additions [(9, 2)] mixedItems = [(7, 71), (5, 50)] ∧
      (∃ removed u, (Table.splice Hashing.constant.set 1 2 [5, 3, 9, 3]).step (collided.table 0) =
          (.ok removed, u) ∧
        Table.Splices Hashing.constant.set 1 2 [5, 3, 9, 3] [5] [] (collided.table 0)
          removed u) ∧
      Hashing.constant.set.additions [5] [5, 3, 9, 3] = [3, 9] := by
  have hconstant : Hashing.constant.Lawful := Hashing.lawful_ofHasher _
  have hkeys : (collided.table 0).items.toList = [5, 9] := by decide +kernel
  refine ⟨?_, by decide, ?_, by decide⟩
  · have hsplices := (splices_of_reachable hconstant).1 withTwo_reachable 0 (Nat.zero_le 1)
      (by decide +kernel) mixedItems (fun _ _ => rfl) (by decide +kernel)
    rw [items_withTwo] at hsplices
    exact hsplices
  · have hsplices := (splices_of_reachable (T := Nat) hconstant).2 collided_reachable 0
      (Nat.le_succ 1) (by decide +kernel) [5, 3, 9, 3] (fun _ _ => rfl) (by decide +kernel)
    rw [hkeys] at hsplices
    exact hsplices

end World

end OrderedHash
