import OrderedHash.Proofs.Table.Collapse

namespace OrderedHash

/-!
# What replacing a range comes to

The place where the next item is added divides the items of a table into those before it and
those from it on. An item whose key is absent is added behind the first of these lists, and
one whose key is present refreshes an item of either list where it is, as `Keying.place` tells
(`Coherent.step_placeAt`).

So items that take the place of a range refresh those that are left, and in between there is
what they add to them (`Coherent.step_splice`).
-/

namespace Table

variable {K V : Type} {κ : Keying K V} {t : Table V}

/-- An item is added between two lists, or refreshes the one that has its key. -/
theorem Coherent.step_placeAt (h : t.Coherent κ) (hκ : κ.Lawful) (hr : κ.Refreshes)
    {parts : List V × List V} (hitems : t.items.toList = parts.1 ++ parts.2) {v : V}
    (haccepted : κ.refusal (κ.key v) = none)
    (hsmall : ((κ.place parts v).1 ++ (κ.place parts v).2).length < Node.movingPosition) :
    ∃ u, (placeAt κ parts.1.length v).step t = (.ok (κ.place parts v).1.length, u) ∧
      u.Coherent κ ∧ u.items.toList = (κ.place parts v).1 ++ (κ.place parts v).2 := by
  have hheld := h.holds_eq hκ v
  rw [hitems] at hheld
  unfold placeAt
  cases hfind : t.find κ (κ.key v) with
  | some pos =>
    -- the item is refreshed on whichever side it is stored
    rw [hfind, Option.isSome_some] at hheld
    have hplace : κ.place parts v = (κ.refreshAll parts.1 v, κ.refreshAll parts.2 v) :=
      if_pos hheld
    have hlength : (κ.refreshAll parts.1 v).length = parts.1.length := List.length_map _
    refine ⟨t.refreshAt κ pos v, ?_, h.refreshAt hr.key pos v, ?_⟩
    · rw [step_onKey_of_find haccepted hfind, Action.step_modify_bind, hplace, hlength]
      rfl
    · rw [h.toList_refreshAt hκ hfind, hitems, hplace]
      exact List.map_append
  | none =>
    -- the item is placed behind those of the first side
    rw [hfind, Option.isSome_none] at hheld
    have hplace : κ.place parts v = (parts.1 ++ [v], parts.2) := if_neg (by simp [hheld])
    have hadded : (t.insertAt κ parts.1.length (κ.hash (κ.key v)) v).items.toList =
        (κ.place parts v).1 ++ (κ.place parts v).2 := by
      have hinsert : (parts.1 ++ parts.2).insertIdx parts.1.length v = parts.1 ++ v :: parts.2 :=
        List.modifyTailIdx_add (List.cons v) 0 parts.1 parts.2
      rw [toList_insertAt, hitems, hinsert, hplace]
      simp
    have hpos : parts.1.length ≤ t.size := by
      show _ ≤ t.items.size
      rw [← Array.length_toList, hitems, List.length_append]
      exact Nat.le_add_right _ _
    rw [← hadded] at hsmall
    refine ⟨_, ?_, h.insertAt hκ hpos hfind hsmall, hadded⟩
    rw [step_onKey_of_absent haccepted hfind, hplace, List.length_append]
    rfl

/-- Items are placed between two lists in turn. -/
theorem Coherent.step_placeFrom (h : t.Coherent κ) (hκ : κ.Lawful) (hr : κ.Refreshes)
    {parts : List V × List V} (hitems : t.items.toList = parts.1 ++ parts.2) {vs : List V}
    (haccepted : ∀ v ∈ vs, κ.refusal (κ.key v) = none)
    (hsmall : ((vs.foldl κ.place parts).1 ++ (vs.foldl κ.place parts).2).length <
      Node.movingPosition) :
    ∃ u, (placeFrom κ parts.1.length vs).step t = (.ok (), u) ∧ u.Coherent κ ∧
      u.items.toList = (vs.foldl κ.place parts).1 ++ (vs.foldl κ.place parts).2 := by
  induction vs generalizing t parts with
  | nil => exact ⟨t, rfl, h, hitems⟩
  | cons v vs ih =>
    rw [List.foldl_cons] at hsmall ⊢
    obtain ⟨hv, hvs⟩ := List.forall_mem_cons.mp haccepted
    obtain ⟨u, hplace, hu, hitems'⟩ := h.step_placeAt hκ hr hitems hv
      (lt_of_le_of_lt (Keying.length_le_foldl_place vs _) hsmall)
    obtain ⟨last, hrun, hlast⟩ := ih hu hitems' hvs hsmall
    exact ⟨last, by rw [placeFrom_cons, Action.step_bind_of_ok hplace, hrun], hlast⟩

/-- The items that take the place of a range refresh those outside of it, and in its place is
    what they add to these. -/
theorem Coherent.step_splice (h : t.Coherent κ) (hκ : κ.Lawful) (hr : κ.Refreshes)
    {first last : Nat} (hle : first ≤ last) (hlast : last ≤ t.size) {vs : List V}
    (haccepted : ∀ v ∈ vs, κ.refusal (κ.key v) = none) {front back : List V}
    (hfront : front = t.items.toList.take first) (hback : back = t.items.toList.drop last)
    (hsmall : (front ++ κ.additions (front ++ back) vs ++ back).length < Node.movingPosition) :
    ∃ u, (splice κ first last vs).step t = (.ok (t.itemsIn first last), u) ∧ u.Coherent κ ∧
      u.items.toList = front.map (κ.latest · vs) ++ κ.additions (front ++ back) vs ++
        back.map (κ.latest · vs) := by
  have hrest := h.removeRange hle hlast
  have hitems : (t.removeRange κ first last).items.toList =
      (front, back).1 ++ (front, back).2 := by
    rw [toList_removeRange, hfront, hback]
  have hlength : front.length = first := by
    rw [hfront, List.length_take]
    exact min_eq_left (hle.trans hlast)
  -- the given items are placed between what is left of the table
  have hplaced := hrest.step_placeFrom hκ hr hitems haccepted
  rw [Keying.foldl_place hκ hr] at hplaced
  obtain ⟨u, hrun, hu, hitems'⟩ := hplaced (by simpa using hsmall)
  refine ⟨u, ?_, hu, hitems'⟩
  rw [hlength] at hrun
  unfold splice
  rw [Action.step_bind_of_ok (step_drain hle hlast), Action.step_bind_of_ok hrun]
  rfl

end Table

end OrderedHash
