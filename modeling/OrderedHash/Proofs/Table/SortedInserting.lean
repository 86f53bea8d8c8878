import Mathlib.Data.List.InsertIdx
import OrderedHash.Proofs.Table.Adding
import OrderedHash.Proofs.Table.Collapse
import OrderedHash.Proofs.Table.Searching

namespace OrderedHash

/-!
# Items inserted where they keep an order

In a sorted list the items that are less than a given one come first, so that their number is
the position of the first item that is not less (`rank`). A search for a partition point arrives
there (`Table.rank_endsWith`), and the list stays sorted with the item inserted there
(`SortedBy.insertIdx_rank`). Nothing of that depends on which keys are equal.
-/

variable {K V σ : Type}

/-- No item of the list is less than one before it. -/
def SortedBy (lt : V → V → Bool) (vs : List V) : Prop := vs.Pairwise fun v w => lt w v = false

/-- The position of the first item that is not less than `v`, or the end of the list. -/
def rank (lt : V → V → Bool) (vs : List V) (v : V) : Nat := vs.findIdx fun w => !lt w v

/-- Items are less if their keys are. -/
def Keying.lessByKey (κ : Keying K V) (lt : K → K → Bool) (v w : V) : Bool :=
  lt (κ.key v) (κ.key w)

variable {lt : V → V → Bool} {vs : List V}

/-- Only the keys matter to an ordering of keys. -/
theorem sortedBy_lessByKey (κ : Keying K V) (lt : K → K → Bool) (vs : List V) :
    SortedBy (κ.lessByKey lt) vs ↔ SortedBy lt (vs.map κ.key) := by
  rw [SortedBy, SortedBy, List.pairwise_map]
  rfl

theorem rank_le (lt : V → V → Bool) (vs : List V) (v : V) : rank lt vs v ≤ vs.length :=
  List.findIdx_le_length

theorem rank_cons (lt : V → V → Bool) (w : V) (vs : List V) (v : V) :
    rank lt (w :: vs) v = if lt w v then rank lt vs v + 1 else 0 := by
  rw [rank, List.findIdx_cons]
  cases lt w v <;> rfl

/-- The items before the rank are less. -/
theorem lt_of_mem_take_rank (vs : List V) {v w : V} (hw : w ∈ vs.take (rank lt vs v)) : lt w v := by
  induction vs with
  | nil => cases hw
  | cons x vs ih =>
    rw [rank_cons] at hw
    cases hx : lt x v with
    | false =>
      rw [hx, if_neg Bool.false_ne_true] at hw
      cases hw
    | true =>
      rw [hx, if_pos rfl, List.take_succ_cons] at hw
      rcases List.mem_cons.mp hw with rfl | hmem
      · exact hx
      · exact ih hmem

namespace SortedBy

/-- The items from the rank on are not less. -/
theorem not_lt_of_mem_drop_rank (h : SortedBy lt vs) (hlt : StrictWeak lt) {v w : V}
    (hw : w ∈ vs.drop (rank lt vs v)) : lt w v = false := by
  induction vs with
  | nil => cases hw
  | cons x vs ih =>
    obtain ⟨hfirst, hrest⟩ := List.pairwise_cons.mp h
    rw [rank_cons] at hw
    cases hx : lt x v with
    | true =>
      rw [hx, if_pos rfl, List.drop_succ_cons] at hw
      exact ih hrest hw
    | false =>
      rw [hx, if_neg Bool.false_ne_true, List.drop_zero] at hw
      rcases List.mem_cons.mp hw with rfl | hmem
      · exact hx
      -- a later item is not less than the first one, which is not less itself
      · have htrans := hlt.notLess_trans v x w (by rw [notLess, hx]; rfl)
          (by rw [notLess, hfirst w hmem]; rfl)
        exact Bool.not_eq_true' _ ▸ htrans

theorem insertIdx_rank (h : SortedBy lt vs) (hlt : StrictWeak lt) (v : V) :
    SortedBy lt (vs.insertIdx (rank lt vs v) v) := by
  induction vs with
  | nil => exact List.pairwise_singleton _ v
  | cons x vs ih =>
    obtain ⟨hfirst, hrest⟩ := List.pairwise_cons.mp h
    have hdrop := fun w => h.not_lt_of_mem_drop_rank (v := v) (w := w) hlt
    rw [rank_cons] at hdrop ⊢
    -- the item is put behind the first one if that is less, and else before it
    cases hx : lt x v with
    | true =>
      rw [if_pos rfl, List.insertIdx_succ_cons]
      refine List.pairwise_cons.mpr ⟨fun w hw => ?_, ih hrest⟩
      rcases List.eq_or_mem_of_mem_insertIdx hw with rfl | hmem
      · exact hlt.asymm hx
      · exact hfirst w hmem
    | false =>
      rw [hx, if_neg Bool.false_ne_true] at hdrop
      rw [if_neg Bool.false_ne_true, List.insertIdx_zero]
      exact List.pairwise_cons.mpr ⟨hdrop, h⟩

end SortedBy

namespace Table

variable {κ : Keying K V} {t : Table V} {before : V → Action σ Bool} {v : V}

/-- A table that is sorted as the range of all items has them in a sorted order. -/
theorem SortedRange.whole {u : Table V} (h : SortedRange lt 0 t.size t u) :
    u.items.toList.Perm t.items.toList ∧ SortedBy lt u.items.toList := by
  have hdrop : u.items.toList.drop t.size = [] := by
    rw [h.after]
    exact List.drop_eq_nil_of_le Array.length_toList.le
  have hall : u.itemsIn 0 t.size = u.items.toList := by
    rw [itemsIn, Array.toList_extract, List.extract_eq_take_drop, List.drop_zero, Nat.sub_zero]
    exact List.take_of_length_le (List.drop_eq_nil_iff.mp hdrop)
  have hperm := h.perm
  have hsorted := h.sorted
  rw [hall, t.itemsIn_whole] at hperm
  rw [hall] at hsorted
  exact ⟨hperm, hsorted⟩

/-- An item that is refreshed keeps its key, and the others are left. -/
theorem map_key_refreshAt (hr : κ.Refreshes) (t : Table V) (pos : Nat) (v : V) :
    (t.refreshAt κ pos v).items.toList.map κ.key = t.items.toList.map κ.key := by
  refine List.ext_getElem? fun p => ?_
  rw [List.getElem?_map, List.getElem?_map, Array.getElem?_toList, Array.getElem?_toList]
  show (t.items.modify pos fun stored => κ.refresh stored v)[p]?.map κ.key = _
  rw [Array.getElem?_modify]
  split
  · rw [Option.map_map]
    exact congrArg (Option.map · _) (funext fun stored => hr.key stored v)
  · rfl

/-- In a sorted table the search for a partition point arrives at the rank. -/
theorem rank_endsWith (hlt : StrictWeak lt) (hsorted : SortedBy lt t.items.toList)
    (hbefore : Gives before (lt · v)) :
    (partitionFrom t.items before 0 t.size).EndsWith (· = rank lt t.items.toList v) := by
  have hvs : (t.items.extract 0 t.size).toList =
      t.items.toList.take (rank lt t.items.toList v) ++
        t.items.toList.drop (rank lt t.items.toList v) := by
    rw [List.take_append_drop]
    exact t.itemsIn_whole
  have hpoint := partitionFrom_endsWith (Nat.zero_le _) le_rfl hbefore hvs
    (fun w hw => lt_of_mem_take_rank _ hw) fun w hw => hsorted.not_lt_of_mem_drop_rank hlt hw
  rwa [List.length_take_of_le (rank_le lt _ v), Nat.zero_add] at hpoint

/-- An item whose key is absent is inserted at its rank. -/
theorem step_insertSorted_rank (hlt : StrictWeak lt) (hsorted : SortedBy lt t.items.toList)
    (hbefore : Gives before (lt · v)) (haccepted : κ.refusal (κ.key v) = none)
    (hfind : t.find κ (κ.key v) = none) (s : σ) :
    ∃ s', (insertSorted κ before v).step (t, s) = (.ok (rank lt t.items.toList v, none),
      (t.insertAt κ (rank lt t.items.toList v) (κ.hash (κ.key v)) v, s')) := by
  obtain ⟨_, s', hpoint, rfl⟩ := rank_endsWith hlt hsorted hbefore s
  have hsearch : (Action.onSnd (partitionFrom t.items before 0 t.size)).step (t, s) =
      (.ok (rank lt t.items.toList v), (t, s')) := by
    rw [Action.step_onSnd, hpoint]
  refine ⟨s', ?_⟩
  rw [step_insertSorted_of_absent haccepted hfind, Action.step_bind_of_ok hsearch]
  rfl

end Table

end OrderedHash
