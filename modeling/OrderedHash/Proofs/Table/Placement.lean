import OrderedHash.Proofs.Table.Collapse
import OrderedHash.Proofs.Table.Finding

namespace OrderedHash

/-!
# What putting an item in a place comes to

An item whose key is absent is inserted at a position. One whose key is present refreshes the
stored item, which is then taken out and put back: `insertBefore` puts it before the item that
was at the position asked for, and `shiftInsert` at that very position. The two differ in this
and in the positions that they accept for a key that is present.
-/

namespace Table

variable {K V : Type} {κ : Keying K V} {t : Table V} {v stored : V} {pos target : Nat}

/-! ### Keys that are present -/

/-- Where the item at a position is put for it to come before the one at another position. -/
def placeBefore (target pos : Nat) : Nat := if pos < target then target - 1 else target

theorem toList_refreshAt_of_getElem? (hstored : t.items[pos]? = some stored) :
    (t.refreshAt κ pos v).items.toList = t.items.toList.set pos (κ.refresh stored v) := by
  obtain ⟨hpos, -⟩ := Array.getElem?_eq_some_iff.mp hstored
  refine List.ext_getElem? fun p => ?_
  rw [Array.getElem?_toList, List.getElem?_set, Array.getElem?_toList, Array.length_toList]
  show (t.items.modify pos fun stored => κ.refresh stored v)[p]? = _
  rw [Array.getElem?_modify]
  split
  · rename_i heq
    rw [← heq, hstored]
    rfl
  · rfl

/-- An item is refreshed, taken out and put back. -/
theorem Coherent.step_refresh_move (h : t.Coherent κ) (hr : κ.Refreshes)
    (hstored : t.items[pos]? = some stored) (htarget : target < t.size) :
    ∃ u, (moveIndex κ pos target).step (t.refreshAt κ pos v) = (.ok (), u) ∧ u.Coherent κ ∧
      u.items.toList = (t.items.toList.eraseIdx pos).insertIdx target (κ.refresh stored v) := by
  have hitems := toList_refreshAt_of_getElem? (κ := κ) (v := v) hstored
  obtain ⟨hpos, -⟩ := Array.getElem?_eq_some_iff.mp hstored
  have hsize := size_refreshAt (κ := κ) t pos v
  have hrefreshed : (t.refreshAt κ pos v).items[pos]? = some (κ.refresh stored v) := by
    rw [← Array.getElem?_toList, hitems, List.getElem?_set_self (by simpa using hpos)]
  obtain ⟨u, hstep, hu, hmoved⟩ :=
    step_moveIndex_toList (κ := κ) (hsize.symm ▸ hpos) (hsize.symm ▸ htarget) hrefreshed
  rw [hitems, List.eraseIdx_set_eq] at hmoved
  exact ⟨u, hstep, hu (h.refreshAt hr.key pos v), hmoved⟩

/-- A key that is present is put before the item at the target. -/
theorem Coherent.step_insertBefore_of_find (h : t.Coherent κ) (hr : κ.Refreshes)
    (haccepted : κ.refusal (κ.key v) = none)
    (htarget : target ≤ t.size) (hfind : t.find κ (κ.key v) = some pos)
    (hstored : t.items[pos]? = some stored) :
    ∃ u, (insertBefore κ target v).step t = (.ok (placeBefore target pos, some stored), u) ∧
      u.Coherent κ ∧ u.items.toList =
        (t.items.toList.eraseIdx pos).insertIdx (placeBefore target pos) (κ.refresh stored v) := by
  have hpos : pos < t.size := (Array.getElem?_eq_some_iff.mp hstored).1
  have hplace : placeBefore target pos < t.size := by
    unfold placeBefore
    split <;> omega
  obtain ⟨u, hmove, hu⟩ := h.step_refresh_move (v := v) hr hstored hplace
  refine ⟨u, ?_, hu⟩
  unfold insertBefore checkPosition
  rw [Action.step_get_bind, Action.step_demand_bind (decide_eq_true (Nat.lt_succ_of_le htarget)),
    step_onKey_of_find haccepted hfind, Action.step_get_bind, Action.step_modify_bind, hstored]
  exact Action.step_bind_of_ok hmove _

/-- A key that is present is put at the target. -/
theorem Coherent.step_shiftInsert_of_find (h : t.Coherent κ) (hr : κ.Refreshes)
    (haccepted : κ.refusal (κ.key v) = none)
    (htarget : target < t.size) (hfind : t.find κ (κ.key v) = some pos)
    (hstored : t.items[pos]? = some stored) :
    ∃ u, (shiftInsert κ target v).step t = (.ok (some stored), u) ∧ u.Coherent κ ∧
      u.items.toList = (t.items.toList.eraseIdx pos).insertIdx target (κ.refresh stored v) := by
  obtain ⟨u, hmove, hu⟩ := h.step_refresh_move (v := v) hr hstored htarget
  refine ⟨u, ?_, hu⟩
  unfold shiftInsert checkPosition
  rw [step_onKey_of_find haccepted hfind, Action.step_get_bind,
    Action.step_demand_bind (decide_eq_true htarget), Action.step_get_bind,
    Action.step_modify_bind, hstored]
  exact Action.step_bind_of_ok hmove _

/-! ### Keys that are absent -/

theorem step_insertBefore_of_absent (haccepted : κ.refusal (κ.key v) = none)
    (htarget : target ≤ t.size) (hfind : t.find κ (κ.key v) = none) :
    (insertBefore κ target v).step t =
      (.ok (target, none), t.insertAt κ target (κ.hash (κ.key v)) v) := by
  unfold insertBefore checkPosition
  rw [Action.step_get_bind, Action.step_demand_bind (decide_eq_true (Nat.lt_succ_of_le htarget)),
    step_onKey_of_absent haccepted hfind]
  rfl

theorem step_shiftInsert_of_absent (haccepted : κ.refusal (κ.key v) = none)
    (htarget : target ≤ t.size) (hfind : t.find κ (κ.key v) = none) :
    (shiftInsert κ target v).step t = (.ok none, t.insertAt κ target (κ.hash (κ.key v)) v) := by
  unfold shiftInsert checkPosition
  rw [step_onKey_of_absent haccepted hfind, Action.step_get_bind,
    Action.step_demand_bind (decide_eq_true (Nat.lt_succ_of_le htarget))]
  rfl

/-! ### Positions out of range -/

/-- A position behind the end is refused before the key is looked at. -/
theorem step_insertBefore_of_lt (htarget : t.size < target) :
    (insertBefore κ target v).step t = (.error .positionOutOfRange, t) := by
  unfold insertBefore checkPosition
  rw [Action.step_get_bind, decide_eq_false (Nat.not_lt.mpr (Nat.succ_le_of_lt htarget))]
  rfl

theorem step_shiftInsert_of_find_of_le (haccepted : κ.refusal (κ.key v) = none)
    (htarget : t.size ≤ target) (hfind : t.find κ (κ.key v) = some pos) :
    (shiftInsert κ target v).step t = (.error .positionOutOfRange, t) := by
  unfold shiftInsert checkPosition
  rw [step_onKey_of_find haccepted hfind, Action.step_get_bind,
    decide_eq_false (Nat.not_lt.mpr htarget)]
  rfl

theorem step_shiftInsert_of_absent_of_lt (haccepted : κ.refusal (κ.key v) = none)
    (htarget : t.size < target) (hfind : t.find κ (κ.key v) = none) :
    (shiftInsert κ target v).step t = (.error .positionOutOfRange, t) := by
  unfold shiftInsert checkPosition
  rw [step_onKey_of_absent haccepted hfind, Action.step_get_bind,
    decide_eq_false (Nat.not_lt.mpr (Nat.succ_le_of_lt htarget))]
  rfl

end Table

end OrderedHash
