import OrderedHash.Proofs.Runs.Consistency
import OrderedHash.Proofs.Runs.Permuting
import OrderedHash.Proofs.Table.Sorting

namespace OrderedHash

/-!
# Ranges sorted in containers of a run

A sort of a range leaves what is outside, and permutes the items of the range into an order in
which none is less than one before it; each key is found where its item has gone
(`Table.RangeSorts`). For that it is enough that the positions were sorted correctly, by
whatever algorithm. If they were sorted by a stable one, the outcome is that of the merge sort.

A sort by keys that are computed once for each item leaves the very table that is left by a
sort which computes them for each comparison (`Table.Sortings`).
-/

variable {K V T σ : Type}

namespace Table

/-- Equivalent items of the range are in the same order in two tables. -/
def KeepsEquivalent (lt : V → V → Bool) (first last : Nat) (t u : Table V) : Prop :=
  ∀ v, (u.itemsIn first last).filter (equivalent lt v) =
    (t.itemsIn first last).filter (equivalent lt v)

/-- What sorts of the items from `first` up to `last` leave of a table. -/
structure RangeSorts (κ : Keying K V) (lt : V → V → Bool) (first last : Nat) (t : Table V) :
    Prop where
  /-- The sort ends whenever the comparison does, whatever it does to the caller's state. -/
  sortRange : ∀ {σ : Type} (less : V → V → Action σ Bool), MergeSort.Decides less lt → ∀ s,
    ∃ u s', (sortRange κ first last less).step (t, s) = (.ok (), (u, s')) ∧
      SortedRange lt first last t u ∧ KeepsEquivalent lt first last t u ∧ u.Consistent κ ∧
      (2 ≤ last - first → ∃ order, SortsStably lt t first last order ∧
        u = t.permuteRange κ first order)
  /-- Any other correct sort of the positions may be used. -/
  any_sort : ∀ order, Sorts lt t first last order →
    SortedRange lt first last t (t.permuteRange κ first order) ∧
      (t.permuteRange κ first order).Consistent κ
  any_stable_sort : ∀ order, SortsStably lt t first last order →
    KeepsEquivalent lt first last t (t.permuteRange κ first order)
  /-- All stable sorts put the positions in one order. -/
  stable_unique : ∀ order order', SortsStably lt t first last order →
    SortsStably lt t first last order' → order = order'

/-- What the sorts of a container leave of it. -/
structure Sortings (κ : Keying K V) (t : Table V)
    (sortBy : {σ : Type} → (V → V → Action σ Bool) → Action (Table V × σ) Unit)
    (sortByCachedKey : {σ C : Type} → (C → C → Bool) → (V → Action σ C) →
      Action (Table V × σ) Unit) : Prop where
  ranges : ∀ lt, StrictWeak lt → ∀ first last, first ≤ last → last ≤ t.size →
    RangeSorts κ lt first last t
  /-- The container is sorted as the range of all items. -/
  whole : ∀ {σ : Type} (less : V → V → Action σ Bool) (s : σ),
    (sortBy less).step (t, s) = (Table.sortRange κ 0 t.size less).step (t, s)
  /-- With keys that are kept the outcome is the same, and the function is called once for each
      item if there are two items or more, and otherwise not at all. -/
  keys : ∀ {σ C : Type} (less : C → C → Bool) (f : V → Action σ C) (g : V → C), StrictWeak less →
    Gives f g → ∀ s, ∃ u s',
      (sortBy (lessByKey less f)).step (t, s) = (.ok (), (u, s')) ∧
        (sortByCachedKey less f).step (t, s) =
          (.ok (), (u, if 2 ≤ t.size then callEach f t.items.toList s else s))
  /-- Every stable sort of the positions with the keys of their items puts them in the order in
      which every stable sort by the keys does. -/
  any_sort_of_keys : ∀ {C : Type} (less : C → C → Bool) (g : V → C) (pairs : List (C × Nat))
    (order : List Nat), SortsKeyed less g t 0 t.size pairs →
      SortsStably (fun v w => less (g v) (g w)) t 0 t.size order → pairs.map Prod.snd = order

variable {κ : Keying K V} {t : Table V} {lt : V → V → Bool} {first last : Nat}

namespace Coherent

theorem sorted (h : t.Coherent κ) (hκ : κ.Lawful) {order : List Nat}
    (hs : Sorts lt t first last order) (hle : first ≤ last) (hlast : last ≤ t.size) :
    SortedRange lt first last t (t.permuteRange κ first order) ∧
      (t.permuteRange κ first order).Consistent κ := by
  exact ⟨hs.sortedRange κ hle hlast, (hs.coherent h hle hlast).consistent hκ⟩

theorem rangeSorts (h : t.Coherent κ) (hκ : κ.Lawful) (hlt : StrictWeak lt) (hle : first ≤ last)
    (hlast : last ≤ t.size) : RangeSorts κ lt first last t where
  sortRange less hless s := by
    by_cases hlength : 2 ≤ last - first
    · obtain ⟨s', hstep⟩ := step_sortRange (κ := κ) (t := t) hless hlength s
      have hstable : SortsStably lt t first last _ := sortsStably_sortedOrder hlt hlast
      obtain ⟨hsorted, hconsistent⟩ := h.sorted hκ hstable.toSorts hle hlast
      exact ⟨_, s', hstep, hsorted, hstable.filter_itemsIn κ hlt hle hlast, hconsistent,
        fun _ => ⟨_, hstable, rfl⟩⟩
    -- a range of one item or none is sorted
    · have hshort : last - first < 2 := Nat.lt_of_not_le hlength
      refine ⟨t, s, step_sortRange_of_lt hshort s, ⟨rfl, rfl, List.Perm.refl _, ?_⟩,
        fun _ => rfl, h.consistent hκ, fun htwo => absurd htwo hlength⟩
      rcases t.itemsIn_of_short hlast hshort with hitems | ⟨v, hitems⟩ <;> rw [hitems]
      · exact List.Pairwise.nil
      · exact List.pairwise_singleton _ v
  any_sort order hs := h.sorted hκ hs hle hlast
  any_stable_sort _ hs := hs.filter_itemsIn κ hlt hle hlast
  stable_unique _ _ hs hs' := hs.eq hs' hlast

end Coherent

/-- The two sorts by keys, of all items. -/
theorem exists_sorted_by_key (κ : Keying K V) (t : Table V) {C : Type} {less : C → C → Bool}
    {f : V → Action σ C} {g : V → C} (hf : Gives f g) (s : σ) : ∃ u s',
      (sortRange κ 0 t.size (lessByKey less f)).step (t, s) = (.ok (), (u, s')) ∧
        (sortRangeByCachedKey κ 0 t.size less f).step (t, s) =
          (.ok (), (u, if 2 ≤ t.size then callEach f t.items.toList s else s)) := by
  by_cases hlength : 2 ≤ t.size
  · have hlength' : 2 ≤ t.size - 0 := hlength
    obtain ⟨s', hstep⟩ :=
      step_sortRange (κ := κ) (t := t) (decides_lessByKey less hf) hlength' s
    have hcached : (sortRangeByCachedKey κ 0 t.size less f).step (t, s) = _ :=
      step_sortRangeByCachedKey hf hlength' s
    rw [itemsIn_whole] at hcached
    rw [if_pos hlength]
    exact ⟨_, s', hstep, hcached⟩
  · rw [if_neg hlength]
    exact ⟨t, s, step_sortRange_of_lt (by omega) s, step_sortRangeByCachedKey_of_lt (by omega) s⟩

end Table

namespace World

variable {κ : Hashing K}

/-- After every run on maps or on sets every range of every container can be sorted. -/
theorem sortings_of_reachable (hκ : κ.Lawful) :
    (∀ {w : World K (K × T) σ}, Reachable (Map.interface K T) κ w → ∀ i,
      (w.table i).Sortings κ.map (Map.sortBy κ) (Map.sortByCachedKey κ)) ∧
    ∀ {w : World K K σ}, Reachable (Set.interface K) κ w → ∀ i,
      (w.table i).Sortings κ.set (Set.sortBy κ) (Set.sortByCachedKey κ) := by
  constructor
  · intro w h i
    refine ⟨fun lt hlt first last hle hlast => ?_, fun less s => rfl, fun less f g _ hf s => ?_,
      fun less g pairs order hp ho => (hp.sortsStably le_rfl).eq ho le_rfl⟩
    · exact (h.coherent_map hκ i).rangeSorts hκ hlt hle hlast
    · exact Table.exists_sorted_by_key κ.map (w.table i) hf s
  · intro w h i
    refine ⟨fun lt hlt first last hle hlast => ?_, fun less s => rfl, fun less f g _ hf s => ?_,
      fun less g pairs order hp ho => (hp.sortsStably le_rfl).eq ho le_rfl⟩
    · exact (h.coherent_set hκ i).rangeSorts hκ hlt hle hlast
    · exact Table.exists_sorted_by_key κ.set (w.table i) hf s

/-- Whether one remainder is less than another. -/
def byRemainder (a b : Nat) : Bool := decide (a % 3 < b % 3)

theorem byRemainder_strictWeak : StrictWeak byRemainder := by
  constructor <;> simp only [byRemainder, decide_eq_true_eq, decide_eq_false_iff_not] <;> omega

/-- The remainder of a key, which is entered in a list. -/
def noteRemainder (k : Nat) : Action (List Nat) Nat := do
  modify fun noted => noted ++ [k]
  return k % 3

/-- Four of five keys are sorted by their remainders; so are all, where each remainder is
    computed once. -/
theorem sortings_of_reachable_gathered :
    Table.RangeSorts Hashing.constant.set byRemainder 1 5 (gathered.table 0) ∧
      (∃ u s', (Set.sortBy .constant (Table.lessByKey (fun a b => decide (a < b))
          noteRemainder)).step (gathered.table 0, []) = (.ok (), (u, s')) ∧
        (Set.sortByCachedKey .constant (fun a b => decide (a < b)) noteRemainder).step
          (gathered.table 0, []) = (.ok (), (u, [5, 9, 4, 7, 6]))) ∧
      ((withTwo .constant (start ())).table 0).Sortings Hashing.constant.map
        (Map.sortBy .constant) (Map.sortByCachedKey .constant) := by
  have hconstant : Hashing.constant.Lawful := Hashing.lawful_ofHasher _
  have hset := (sortings_of_reachable (T := Nat) hconstant).2 gathered_reachable 0
  have hitems : (gathered.table 0).items = #[5, 9, 4, 7, 6] := by decide +kernel
  have hsize : (gathered.table 0).size = 5 := congrArg Array.size hitems
  refine ⟨?_, ?_, (sortings_of_reachable hconstant).1 withTwo_reachable 0⟩
  · exact hset.ranges byRemainder byRemainder_strictWeak 1 5 (by decide) hsize.ge
  · have hless : StrictWeak fun a b : Nat => decide (a < b) := by
      constructor <;> simp only [decide_eq_true_eq, decide_eq_false_iff_not] <;> omega
    have hkeys := hset.keys _ noteRemainder (· % 3) hless (fun _ _ => rfl) []
    rw [hsize, hitems] at hkeys
    exact hkeys

end World

end OrderedHash
