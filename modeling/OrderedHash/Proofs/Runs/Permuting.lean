import OrderedHash.Proofs.Index.Termination
import OrderedHash.Proofs.Runs.Consistency
import OrderedHash.Proofs.Table.Permuting

namespace OrderedHash

/-!
# Ranges permuted and reversed in containers of a run

The index of a permuted range is repaired node by node or built anew, depending on the length
of the range, and that of a container reversed as a whole in one walk over the buckets. The
container is the same for its users in all cases: its items have gone where the order puts
them and are found there (`Table.PermutesRange`, `Table.ReversesRange`).

This holds of every container of a run and of every range and order
(`World.reorderings_of_reachable`).
-/

variable {K V T σ : Type}

namespace Table

/-- One table is another one with the items from `first` on in another order: position
    `first + i` has the item that was at `order[i]`. -/
structure PermutesRange (κ : Keying K V) (first : Nat) (order : List Nat) (t u : Table V) :
    Prop where
  size_eq : u.size = t.size
  inside : ∀ i p, order[i]? = some p → u.items[first + i]? = t.items[p]?
  outside : ∀ p, p < first ∨ first + order.length ≤ p → u.items[p]? = t.items[p]?
  consistent : u.Consistent κ
  /-- A key is found at the position that its item was given. -/
  found : ∀ k, u.find κ k = (t.find κ k).map (Index.permutedTo first order)

/-- One table is another one with the items from `first` up to `last` in the opposite order. -/
structure ReversesRange (κ : Keying K V) (first last : Nat) (t u : Table V) : Prop where
  refills : RefillsRange first last (t.itemsIn first last).reverse t u
  consistent : u.Consistent κ
  found : ∀ k, u.find κ k = (t.find κ k).map (mirrored first last)

/-- What a permutation of the items from `first` on leaves of a table. -/
structure RangePermutations (κ : Keying K V) (first : Nat) (order : List Nat) (t : Table V) :
    Prop where
  either_way : ∀ way, PermutesRange κ first order t (t.permuteRangeBy κ way first order)
  /-- The same is left under any other index of the items. -/
  any_index : ∀ index : Index, index.Indexes t.size (hashAt κ t.items) → ∀ way,
    PermutesRange κ first order t ((t.withIndex index).permuteRangeBy κ way first order)
  /-- The way that is taken depends on the length of the range. -/
  taken : t.permuteRange κ first order = t.permuteRangeBy κ (t.repair order.length) first order
  /-- All nodes of the range are found before any of them is renumbered. -/
  nodes_found : Index.Unbounded.permute t.index first order (hashAt κ t.items) =
    Part.some (t.index.permute first order (hashAt κ t.items))

/-- What a reversal of the items from `first` up to `last` leaves of a table. -/
structure RangeReversals (κ : Keying K V) (first last : Nat) (t : Table V) : Prop where
  taken : ReversesRange κ first last t (t.reverseRange κ first last)
  /-- A whole table is reversed in one walk over the buckets. -/
  whole : first = 0 → last = t.size → 2 ≤ t.size →
    t.reverseRange κ first last = ⟨t.items.reverse, t.index.reversePositions t.size⟩
  /-- The same is left by a permutation, in either way. -/
  either_way : ∀ way,
    ReversesRange κ first last t (t.permuteRangeBy κ way first (descending first last))
  any_index : ∀ index : Index, index.Indexes t.size (hashAt κ t.items) →
    ReversesRange κ first last t ((t.withIndex index).reverseRange κ first last)
  twice_items : ((t.reverseRange κ first last).reverseRange κ first last).items = t.items
  twice_find : ∀ k, ((t.reverseRange κ first last).reverseRange κ first last).find κ k = t.find κ k

/-- What the permutations and reversals of all ranges leave of a table. -/
structure Reorderings (κ : Keying K V) (t : Table V) : Prop where
  permutations : ∀ (first : Nat) (order : List Nat), order.Perm (List.range' first order.length) →
    first + order.length ≤ t.size → RangePermutations κ first order t
  reversals : ∀ first last, first ≤ last → last ≤ t.size → RangeReversals κ first last t

variable {κ : Keying K V} {t u : Table V} {first last : Nat} {order : List Nat}

namespace Coherent

theorem permutesRange (h : t.Coherent κ) (hκ : κ.Lawful) (way : Repair)
    (hperm : order.Perm (List.range' first order.length)) (hle : first + order.length ≤ t.size) :
    PermutesRange κ first order t (t.permuteRangeBy κ way first order) where
  size_eq := (refillsRange_permute way hperm hle).size_eq
  inside _ _ hp := getElem?_permuteRangeBy_inside way hperm hle hp
  outside _ hp := (refillsRange_permute way hperm hle).getElem?_outside hp
  consistent := (h.permuteRangeBy way hperm hle).consistent hκ
  found := h.find_permuteRangeBy way hperm hle hκ

theorem rangePermutations (h : t.Coherent κ) (hκ : κ.Lawful)
    (hperm : order.Perm (List.range' first order.length)) (hle : first + order.length ≤ t.size) :
    RangePermutations κ first order t where
  either_way way := h.permutesRange hκ way hperm hle
  any_index index hindex way := by
    obtain ⟨hsize, hinside, houtside, hconsistent, hfound⟩ :=
      (h.withIndex hindex).permutesRange hκ way hperm hle
    refine ⟨hsize, hinside, houtside, hconsistent, fun k => ?_⟩
    rw [hfound, h.find_congr (h.withIndex hindex) hκ fun _ => rfl]
  taken := permuteRange_eq κ t first order
  nodes_found := Index.Unbounded.permute_eq h.indexes hperm hle

theorem reversesRange (h : t.Coherent κ) (hκ : κ.Lawful) (hu : u.Coherent κ)
    (r : RefillsRange first last (t.itemsIn first last).reverse t u) :
    ReversesRange κ first last t u :=
  ⟨r, hu.consistent hκ, r.find_mirrored h hu hκ⟩

theorem rangeReversals (h : t.Coherent κ) (hκ : κ.Lawful) (hle : first ≤ last)
    (hlast : last ≤ t.size) : RangeReversals κ first last t := by
  have hu : (t.reverseRange κ first last).Coherent κ := h.reverseRange hlast
  have hrefills := t.refillsRange_reverse κ hle hlast
  -- the reversal keeps the size, so that it can be reversed again
  have hlast' : last ≤ (t.reverseRange κ first last).size := hrefills.size_eq.symm ▸ hlast
  have htwice := hrefills.items_reversed_twice
    ((t.reverseRange κ first last).refillsRange_reverse κ hle hlast')
  refine ⟨h.reversesRange hκ hu hrefills, ?_, fun way => ?_, fun index hindex => ?_, htwice,
    fun k => ?_⟩
  · -- a reversal of the whole table goes through the index alone
    rintro rfl rfl hsize
    rw [Table.reverseRange, if_neg (by omega), if_pos ⟨rfl, rfl⟩]
  · have hend : first + (descending first last).length ≤ t.size := by
      rw [length_descending, Nat.add_sub_cancel' hle]
      exact hlast
    exact h.reversesRange hκ (h.permuteRangeBy way (descending_perm first last) hend)
      (t.refillsRange_descending κ way hle hlast)
  · -- any other index of the items leads to the same items
    have hother := h.withIndex hindex
    have hrefills' := (t.withIndex index).refillsRange_reverse κ hle hlast
    exact h.reversesRange hκ (hother.reverseRange hlast)
      ⟨hle, hlast, hrefills'.length_eq, hrefills'.items_eq⟩
  · refine h.find_congr (hu.reverseRange hlast') hκ (fun p => ?_) k
    rw [htwice]

theorem reorderings (h : t.Coherent κ) (hκ : κ.Lawful) : Reorderings κ t where
  permutations _ _ hperm hle := h.rangePermutations hκ hperm hle
  reversals _ _ hle hlast := h.rangeReversals hκ hle hlast

end Coherent

end Table

namespace World

variable {κ : Hashing K}

/-- After every run on maps or on sets every range of every container can be permuted and
    reversed, with the same outcome by all ways. -/
theorem reorderings_of_reachable (hκ : κ.Lawful) :
    (∀ {w : World K (K × T) σ}, Reachable (Map.interface K T) κ w →
      ∀ i, (w.table i).Reorderings κ.map) ∧
    ∀ {w : World K K σ}, Reachable (Set.interface K) κ w →
      ∀ i, (w.table i).Reorderings κ.set := by
  constructor
  · intro w h i
    exact (h.coherent_map hκ i).reorderings hκ
  · intro w h i
    exact (h.coherent_set hκ i).reorderings hκ

/-- Five keys that collide. -/
def gathered : World Nat Nat Unit := numbers .constant [5, 9, 4, 7, 6]

theorem gathered_reachable : Reachable (Set.interface Nat) .constant gathered :=
  numbers_reachable .constant [5, 9, 4, 7, 6] (by decide +kernel)

/-- Two of five items are exchanged node by node, and three are moved in a circle by building
    the index anew; the whole is reversed, and so is a map. -/
theorem reorderings_of_reachable_gathered :
    (gathered.table 0).repair 2 = .nodewise ∧ (gathered.table 0).repair 3 = .rebuilding ∧
      Table.RangePermutations Hashing.constant.set 3 [4, 3] (gathered.table 0) ∧
      Table.RangePermutations Hashing.constant.set 1 [3, 1, 2] (gathered.table 0) ∧
      Table.RangeReversals Hashing.constant.set 0 5 (gathered.table 0) ∧
      Table.RangeReversals Hashing.constant.map 0 2 ((withTwo .constant (start ())).table 0) := by
  have hconstant : Hashing.constant.Lawful := Hashing.lawful_ofHasher _
  have hset := (reorderings_of_reachable (T := Nat) hconstant).2 gathered_reachable 0
  have hmap := (reorderings_of_reachable hconstant).1 withTwo_reachable 0
  refine ⟨by decide +kernel, by decide +kernel, ?_, ?_, ?_, ?_⟩
  · exact hset.permutations 3 [4, 3] (by decide) (by decide +kernel)
  · exact hset.permutations 1 [3, 1, 2] (by decide) (by decide +kernel)
  · exact hset.reversals 0 5 (Nat.zero_le 5) (by decide +kernel)
  · exact hmap.reversals 0 2 (Nat.zero_le 2) (by decide +kernel)

end World

end OrderedHash
