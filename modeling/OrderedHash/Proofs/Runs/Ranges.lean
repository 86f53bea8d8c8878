import OrderedHash.Proofs.Runs.Consistency

namespace OrderedHash

/-!
# Ranges removed from containers of a run

When a range is removed the index is either repaired node by node or built anew, depending on
the length of the range. The container is the same for its users in both cases: it has the
items before the range and those after it, finds each of them where it is, and does not find
the keys of the range (`Table.LosesRange`).

So do all operations that remove a range, from every container of a run, whatever the state
of its index (`World.rangeRemovals_of_reachable`).
-/

variable {K V T σ : Type}

namespace Table

/-- One table is left of another one without the items from `first` up to `last`. -/
structure LosesRange (κ : Keying K V) (first last : Nat) (t u : Table V) : Prop where
  items_eq : u.items.toList = t.items.toList.take first ++ t.items.toList.drop last
  consistent : u.Consistent κ
  absent : ∀ v ∈ t.itemsIn first last, u.find κ (κ.key v) = none

/-- What the removals of the items from `first` up to `last` answer and leave. -/
structure RangeRemovals (κ : Keying K V) (first last : Nat) (t : Table V) : Prop where
  either_way : ∀ way, LosesRange κ first last t (t.removeRangeBy κ way first last)
  /-- The same is left under any other index of the items, be it probed linearly or not. -/
  any_index : ∀ index : Index, index.Indexes t.size (hashAt κ t.items) → ∀ way,
    LosesRange κ first last t ((t.withIndex index).removeRangeBy κ way first last)
  /-- The way that is taken depends on the length of the range. -/
  eraseRange : (eraseRange κ first last).step t =
    (.ok (), t.removeRangeBy κ (t.unlinking (last - first)) first last)
  drain : (drain κ first last).step t =
    (.ok (t.itemsIn first last), t.removeRangeBy κ (t.unlinking (last - first)) first last)
  truncate : last = t.size → ∃ u, (truncate κ first).step t = (.ok (), u) ∧
    LosesRange κ first last t u
  splitOff : last = t.size → ∃ tail, (splitOff κ first).step t =
    (.ok tail, t.removeRangeBy κ (t.unlinking (last - first)) first last) ∧
      tail.items.toList = t.items.toList.drop first ∧ tail.Consistent κ

variable {κ : Keying K V} {t : Table V} {first last : Nat}

theorem Coherent.losesRange (h : t.Coherent κ) (hκ : κ.Lawful) (way : Unlinking)
    (hle : first ≤ last) (hlast : last ≤ t.size) :
    LosesRange κ first last t (t.removeRangeBy κ way first last) where
  items_eq := toList_removeRangeBy κ t way first last
  consistent := (h.removeRangeBy way hle hlast).consistent hκ
  absent _ hv := h.find_removeRangeBy hκ way hle hlast hv

/-- A table loses nothing with an empty range at its end. -/
theorem Coherent.losesRange_size (h : t.Coherent κ) (hκ : κ.Lawful) :
    LosesRange κ t.size t.size t t where
  items_eq := (List.take_append_drop t.size t.items.toList).symm
  consistent := h.consistent hκ
  absent v hv := by
    rw [itemsIn, Array.toList_extract, List.extract_eq_take_drop, Nat.sub_self] at hv
    cases hv

/-- A range is removed from a coherent table by each of the operations. -/
theorem Coherent.rangeRemovals (h : t.Coherent κ) (hκ : κ.Lawful) (hle : first ≤ last)
    (hlast : last ≤ t.size) : RangeRemovals κ first last t where
  either_way way := h.losesRange hκ way hle hlast
  any_index index hindex way := by
    have hloses := (h.withIndex hindex).losesRange hκ way hle hlast
    exact ⟨hloses.items_eq, hloses.consistent, hloses.absent⟩
  eraseRange := by rw [step_eraseRange hle hlast, removeRange_eq]
  drain := by rw [step_drain hle hlast, removeRange_eq]
  truncate := by
    intro hsize
    refine ⟨_, step_truncate first, ?_⟩
    subst hsize
    -- nothing is removed if there are no more items than are to be left
    split
    · rw [removeRange_eq]
      exact h.losesRange hκ _ hle hlast
    · obtain rfl : first = t.size := by omega
      exact h.losesRange_size hκ
  splitOff := by
    intro hsize
    subst hsize
    refine ⟨_, ?_, t.toList_extract first, (h.splitPart first t.index.loadFactor).consistent hκ⟩
    rw [step_splitOff hle, removeRange_eq]

end Table

namespace World

variable {κ : Hashing K}

/-- After every run on maps or on sets every range can be removed from every container, with
    the same outcome in both ways and by all operations. -/
theorem rangeRemovals_of_reachable (hκ : κ.Lawful) :
    (∀ {w : World K (K × T) σ}, Reachable (Map.interface K T) κ w →
      ∀ (i : Nat) {first last : Nat}, first ≤ last → last ≤ (w.table i).size →
        Table.RangeRemovals κ.map first last (w.table i)) ∧
    ∀ {w : World K K σ}, Reachable (Set.interface K) κ w →
      ∀ (i : Nat) {first last : Nat}, first ≤ last → last ≤ (w.table i).size →
        Table.RangeRemovals κ.set first last (w.table i) := by
  constructor
  · intro w h i first last hle hlast
    exact (h.coherent_map hκ i).rangeRemovals hκ hle hlast
  · intro w h i first last hle hlast
    exact (h.coherent_set hκ i).rangeRemovals hκ hle hlast

/-- A range of half of a set is removed node by node, and one of a whole map by building the
    index anew. -/
theorem rangeRemovals_of_reachable_halves :
    (collided.table 0).unlinking 1 = .nodewise ∧
      Table.RangeRemovals Hashing.constant.set 0 1 (collided.table 0) ∧
      ((withTwo .constant (start ())).table 0).unlinking 2 = .rebuilding ∧
      Table.RangeRemovals Hashing.constant.map 0 2 ((withTwo .constant (start ())).table 0) := by
  have hconstant : Hashing.constant.Lawful := Hashing.lawful_ofHasher _
  refine ⟨by decide +kernel, ?_, by decide +kernel, ?_⟩
  · exact (rangeRemovals_of_reachable (T := Nat) hconstant).2 collided_reachable 0
      (Nat.zero_le 1) (by decide +kernel)
  · exact (rangeRemovals_of_reachable hconstant).1 withTwo_reachable 0 (Nat.zero_le 2)
      (by decide +kernel)

end World

end OrderedHash
