import OrderedHash.Proofs.Agree
import OrderedHash.Proofs.Table.Changes

namespace OrderedHash

/-!
# Tables that lose a range

All operations that remove a range of valid ends leave the same table (`step_eraseRange`,
`step_drain`, `step_truncate`, `step_splitOff`). It has the items before the range and those
after it (`toList_removeRangeBy`), and the keys of the range are not found any more
(`Coherent.find_removeRangeBy`), in whichever way the index was brought in line.
-/

namespace Table

variable {K V : Type} {κ : Keying K V} {t : Table V} {first last : Nat}

/-! ### The items -/

/-- The items of a table are those before a range, those of the range and those after it. -/
theorem items_parts (t : Table V) (hle : first ≤ last) :
    t.items.toList =
      t.items.toList.take first ++ (t.itemsIn first last ++ t.items.toList.drop last) := by
  have hrest : t.items.toList.drop last = (t.items.toList.drop first).drop (last - first) := by
    rw [List.drop_drop, Nat.add_sub_cancel' hle]
  rw [itemsIn, Array.toList_extract, List.extract_eq_take_drop, hrest, List.take_append_drop,
    List.take_append_drop]

/-- The items from a position on. -/
theorem toList_extract (t : Table V) (pos : Nat) :
    (t.items.extract pos).toList = t.items.toList.drop pos := by
  have hall : (t.items.toList.drop pos).length ≤ t.items.size - pos := by simp
  rw [Array.toList_extract, List.extract_eq_take_drop, List.take_of_length_le hall]

/-- The items left are those before the range and those after it. -/
@[simp] theorem toList_removeRangeBy (κ : Keying K V) (t : Table V) (way : Unlinking)
    (first last : Nat) : (t.removeRangeBy κ way first last).items.toList =
      t.items.toList.take first ++ t.items.toList.drop last := by
  have hfront : (t.items.extract 0 first).toList = t.items.toList.take first := by
    simp [Array.toList_extract, List.extract_eq_take_drop]
  rw [items_removeRangeBy, Array.toList_append, hfront, toList_extract]

theorem toList_removeRange (κ : Keying K V) (t : Table V) (first last : Nat) :
    (t.removeRange κ first last).items.toList =
      t.items.toList.take first ++ t.items.toList.drop last := by
  rw [removeRange_eq, toList_removeRangeBy]

/-- A key of the range is not found any more. -/
theorem Coherent.find_removeRangeBy (h : t.Coherent κ) (hκ : κ.Lawful) (way : Unlinking)
    (hle : first ≤ last) (hlast : last ≤ t.size) {v : V} (hv : v ∈ t.itemsIn first last) :
    (t.removeRangeBy κ way first last).find κ (κ.key v) = none := by
  have hdistinct := (distinct_iff_pairwise hκ t.items).mp h.distinct
  rw [t.items_parts hle, List.pairwise_map, List.pairwise_append, List.pairwise_append] at hdistinct
  obtain ⟨-, ⟨-, -, hafter⟩, hbefore⟩ := hdistinct
  refine ((h.removeRangeBy way hle hlast).find_eq_none hκ _).mpr fun w hw => ?_
  rw [← Array.mem_toList_iff, toList_removeRangeBy, List.mem_append] at hw
  rcases hw with hw | hw
  · exact hbefore w hw v (List.mem_append_left _ hv)
  · -- an item after the range is compared with those of the range the other way round
    have hne := hafter v hv w hw
    refine Bool.eq_false_iff.mpr fun hsame => ?_
    rw [hκ.symm _ _ hsame] at hne
    cases hne

/-! ### The operations -/

theorem step_eraseRange (hle : first ≤ last) (hlast : last ≤ t.size) :
    (eraseRange κ first last).step t = (.ok (), t.removeRange κ first last) := by
  unfold eraseRange checkRange
  rw [Action.step_get_bind, Action.step_demand_bind (decide_eq_true ⟨hle, hlast⟩)]
  rfl

/-- A range of invalid ends is refused. -/
theorem step_eraseRange_of_invalid (h : ¬ (first ≤ last ∧ last ≤ t.size)) :
    (eraseRange κ first last).step t = (.error .invalidRange, t) := by
  unfold eraseRange checkRange
  rw [Action.step_get_bind, decide_eq_false h]
  rfl

theorem step_drain (hle : first ≤ last) (hlast : last ≤ t.size) :
    (drain κ first last).step t = (.ok (t.itemsIn first last), t.removeRange κ first last) := by
  unfold drain
  rw [Action.step_get_bind, Action.step_bind_of_ok (step_eraseRange hle hlast)]
  rfl

/-- A table that has no more items than are to be left is not changed. -/
theorem step_truncate (count : Nat) : (truncate κ count).step t =
    (.ok (), if count < t.size then t.removeRange κ count t.size else t) := by
  unfold truncate
  rw [Action.step_get_bind]
  dsimp only
  split
  · rename_i hlt
    exact step_eraseRange hlt.le le_rfl
  · rfl

theorem step_splitOff {pos : Nat} (hpos : pos ≤ t.size) : (splitOff κ pos).step t =
    (.ok ⟨t.items.extract pos, (Index.null t.index.loadFactor).rebuild (t.items.extract pos).size
      (hashAt κ (t.items.extract pos))⟩, t.removeRange κ pos t.size) := by
  unfold splitOff
  rw [Action.step_get_bind, Action.step_demand_bind (decide_eq_true hpos)]
  rfl

end Table

end OrderedHash
