import OrderedHash.Proofs.Table.Extending
import OrderedHash.Proofs.Table.Splicing

namespace OrderedHash

/-!
# Ranges put back where they were

Items that stood between two others have keys that these do not have. So they refresh none of
them when they are placed between them again, and all of them are added (`Keying.placed_back`).

This holds of a range that was drained and is spliced in again, and of the end of a table that
was split off and is appended again, whatever has become of the index in between
(`Coherent.step_splice_back`, `Coherent.step_extend_back`).
-/

variable {K V : Type}

/-- Items with keys that differ from each other are the same after some of them were placed
    between the others. -/
theorem Keying.placed_back {κ : Keying K V} (hκ : κ.Lawful) {front vs back : List V}
    (h : ((front ++ (vs ++ back)).map κ.key).Pairwise fun a b => κ.same a b = false) :
    front.map (κ.latest · vs) ++ κ.additions (front ++ back) vs ++ back.map (κ.latest · vs) =
      front ++ (vs ++ back) := by
  rw [List.pairwise_map, List.pairwise_append, List.pairwise_append] at h
  obtain ⟨-, ⟨hvs, -, hafter⟩, hbefore⟩ := h
  -- what comes back has none of the keys that were left
  have hfront : ∀ w ∈ front, ∀ v ∈ vs, κ.alike w v = false :=
    fun w hw v hv => hbefore w hw v (List.mem_append_left _ hv)
  have hback : ∀ w ∈ back, ∀ v ∈ vs, κ.alike w v = false :=
    fun w hw v hv => (alike_symm hκ w v).trans (hafter v hv w hw)
  have hkept : ∀ items : List V, (∀ w ∈ items, ∀ v ∈ vs, κ.alike w v = false) →
      items.map (κ.latest · vs) = items := fun items hitems =>
    (List.map_congr_left fun w hw => latest_eq_self (hitems w hw)).trans (List.map_id' items)
  have hnew : κ.additions (front ++ back) vs = vs := by
    rw [additions, collapse_eq_self (List.pairwise_map.mpr hvs), List.filter_eq_self]
    intro v hv
    rw [Bool.not_eq_true', holds, List.any_eq_false]
    intro w hw
    rw [Bool.not_eq_true]
    exact (List.mem_append.mp hw).elim (fun hw => hfront w hw v hv) fun hw => hback w hw v hv
  rw [hkept front hfront, hkept back hback, hnew, List.append_assoc]

namespace Table

variable {κ : Keying K V} {t : Table V}

namespace Coherent

/-- A range that was removed from a table takes its place again. -/
theorem step_splice_back (h : t.Coherent κ) (hκ : κ.Lawful) (hr : κ.Refreshes) {first last : Nat}
    (hle : first ≤ last) (hlast : last ≤ t.size)
    (haccepted : ∀ v ∈ t.itemsIn first last, κ.refusal (κ.key v) = none) :
    ∃ u, (splice κ first first (t.itemsIn first last)).step (t.removeRange κ first last) =
        (.ok [], u) ∧
      u.Coherent κ ∧ u.items.toList = t.items.toList := by
  have hparts := t.items_parts hle
  have hdistinct := (distinct_iff_pairwise hκ t.items).mp h.distinct
  rw [hparts] at hdistinct
  have hplaced := Keying.placed_back hκ hdistinct
  rw [← hparts] at hplaced
  -- what is left consists of the items before the range and of those after it
  have hitems := toList_removeRange κ t first last
  have hlength : (t.items.toList.take first).length = first :=
    List.length_take_of_le (hle.trans hlast)
  have hfront : t.items.toList.take first =
      (t.removeRange κ first last).items.toList.take first := by
    rw [hitems, List.take_left' hlength]
  have hback : t.items.toList.drop last =
      (t.removeRange κ first last).items.toList.drop first := by
    rw [hitems, List.drop_left' hlength]
  obtain ⟨u, hrun, hu, hall⟩ := (h.removeRange hle hlast).step_splice hκ hr le_rfl
    (le_of_step_drain (step_drain hle hlast)) haccepted hfront hback (by
      have hlen := congrArg List.length hplaced
      simp only [List.length_append, List.length_map, Array.length_toList] at hlen ⊢
      exact hlen ▸ h.small)
  have hnone : (t.removeRange κ first last).itemsIn first first = [] := by
    simp [itemsIn]
  rw [hnone] at hrun
  exact ⟨u, hrun, hu, hall.trans hplaced⟩

/-- The end of a table that was removed is put behind the rest again. -/
theorem step_extend_back (h : t.Coherent κ) (hκ : κ.Lawful) (hr : κ.Refreshes) {pos : Nat}
    (hpos : pos ≤ t.size)
    (haccepted : ∀ v ∈ t.items.toList.drop pos, κ.refusal (κ.key v) = none) (countKnown : Bool) :
    ∃ u, (extend κ (t.items.toList.drop pos) countKnown).step (t.removeRange κ pos t.size) =
        (.ok (), u) ∧
      u.Coherent κ ∧ u.items.toList = t.items.toList := by
  have hparts : t.items.toList = t.items.toList.take pos ++ (t.items.toList.drop pos ++ []) := by
    rw [List.append_nil, List.take_append_drop]
  have hdistinct := (distinct_iff_pairwise hκ t.items).mp h.distinct
  rw [hparts] at hdistinct
  have hplaced := Keying.placed_back hκ hdistinct
  rw [← hparts, List.append_nil, List.map_nil, List.append_nil,
    ← Keying.foldl_absorb hκ hr] at hplaced
  have hend : t.items.toList.drop t.size = [] :=
    List.drop_of_length_le (Nat.le_of_eq Array.length_toList)
  have hitems : (t.removeRange κ pos t.size).items.toList = t.items.toList.take pos := by
    rw [toList_removeRange, hend, List.append_nil]
  have hrest := (h.removeRange hpos le_rfl).step_extend hκ hr haccepted
  rw [hitems, hplaced, Array.length_toList] at hrest
  exact hrest h.small countKnown

end Coherent

end Table

end OrderedHash
