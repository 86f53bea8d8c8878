import OrderedHash.Proofs.Table.Extending
import OrderedHash.Proofs.Table.Finding

namespace OrderedHash

/-!
# Single items inserted

Whichever way an item is inserted, it comes to stand at the end if its key is absent. If the key
is present it stays at its place, where the item is either left as it is or refreshed: the items
of the table adopt the new one or absorb it, and in both ways they have the same keys
(`Keying.keys_absorb`). So the key is found at the same position after all of them
(`Coherent.find_spot`).
-/

variable {K V : Type}

namespace Keying

variable {κ : Keying K V}

/-- Items that absorb another one have the keys of those that adopt it. -/
theorem keys_absorb (hr : κ.Refreshes) (items : List V) (v : V) :
    (κ.absorb items v).map κ.key = (κ.adopt items v).map κ.key := by
  unfold absorb adopt
  split
  · rw [List.map_map]
    refine List.map_congr_left fun w _ => ?_
    dsimp only [Function.comp]
    split
    · exact hr.key w v
    · rfl
  · rfl

theorem length_absorb (hr : κ.Refreshes) (items : List V) (v : V) :
    (κ.absorb items v).length = (κ.adopt items v).length := by
  simpa using congrArg List.length (keys_absorb hr items v)

theorem length_adopt_congr (hκ : κ.Lawful) (items : List V) {w v : V} (hwv : κ.alike w v) :
    (κ.adopt items w).length = (κ.adopt items v).length := by
  rw [adopt, adopt, holds_congr hκ hwv]
  split
  · rfl
  · rw [List.length_append, List.length_append]
    rfl

/-- An item that is refreshed with another one of its key might as well not have been there. -/
theorem absorb_adopt (hκ : κ.Lawful) (items : List V) {w v : V} (hwv : κ.alike w v)
    (hrefresh : κ.refresh w v = v) : κ.absorb (κ.adopt items w) v = κ.absorb items v := by
  unfold adopt
  cases hw : κ.holds items w with
  | true => rw [if_pos rfl]
  | false =>
    have hv : κ.holds items v = false := (holds_congr hκ hwv items).symm.trans hw
    rw [if_neg Bool.false_ne_true, absorb, absorb, if_pos (holds_concat items hwv), hv,
      if_neg Bool.false_ne_true, List.map_append, ← refreshAll, refreshAll_eq_self hv]
    simp [hwv, hrefresh]

end Keying

namespace Table

variable {κ : Keying K V} {t u : Table V} {v : V}

namespace Coherent

theorem isNone_find_iff (h : t.Coherent κ) (hκ : κ.Lawful) (k : K) :
    (t.find κ k).isNone ↔ Lacks κ t k :=
  Option.isNone_iff_eq_none.trans (h.find_eq_none hκ k)

/-- There is an item in the place of a key exactly if the key is found. -/
theorem isNone_spot (h : t.Coherent κ) (hκ : κ.Lawful) (k : K) :
    t.items[t.spot κ k]?.isNone = (t.find κ k).isNone := by
  rw [spot]
  cases hfind : t.find κ k with
  | some pos =>
    obtain ⟨w, hw, -⟩ := (h.find_eq_some hκ k pos).mp hfind
    rw [Option.getD_some, hw]
    rfl
  | none =>
    have hend : t.items[t.size]? = none := Array.getElem?_eq_none (Nat.le_refl t.items.size)
    rw [Option.getD_none, hend]
    rfl

/-- The key of an item is found at its place if the item was adopted or absorbed. -/
theorem find_spot (h : t.Coherent κ) (hκ : κ.Lawful) (hu : u.Coherent κ)
    (hkeys : u.items.toList.map κ.key = (κ.adopt t.items.toList v).map κ.key) :
    u.find κ (κ.key v) = some (t.spot κ (κ.key v)) := by
  have hat (p : Nat) :
      u.items[p]?.map κ.key = (κ.adopt t.items.toList v)[p]?.map κ.key := by
    rw [← Array.getElem?_toList, ← List.getElem?_map, hkeys, List.getElem?_map]
  rw [spot]
  -- the adopted items have the key where it was, or at the end
  cases hfind : t.find κ (κ.key v) with
  | some pos =>
    rw [h.adopt_of_find hκ hfind] at hat
    rw [h.find_congr hu hκ fun p => (hat p).trans (by rw [Array.getElem?_toList]), hfind]
    rfl
  | none =>
    rw [h.adopt_of_absent hκ hfind] at hat
    refine (hu.find_eq_some_iff_key hκ _ _).mpr ⟨κ.key v, ?_, hκ.refl _⟩
    have hlength : t.items.toList.length = t.size := Array.length_toList
    rw [hat, Option.getD_none, ← hlength, List.getElem?_concat_length, Option.map_some]

/-- An item is inserted at the end unless its key is present. -/
theorem step_insert (h : t.Coherent κ) (hκ : κ.Lawful) (haccepted : κ.refusal (κ.key v) = none)
    (hsmall : (κ.adopt t.items.toList v).length < Node.movingPosition) :
    ∃ u, (insert κ v).step t = (.ok (t.spot κ (κ.key v), (t.find κ (κ.key v)).isNone), u) ∧
      u.Coherent κ ∧ u.items.toList = κ.adopt t.items.toList v := by
  rw [spot]
  cases hfind : t.find κ (κ.key v) with
  | some pos =>
    exact ⟨t, step_onKey_of_find haccepted hfind, h, (h.adopt_of_find hκ hfind).symm⟩
  | none =>
    rw [h.adopt_of_absent hκ hfind, List.length_append, Array.length_toList] at hsmall
    rw [h.adopt_of_absent hκ hfind]
    exact ⟨_, step_onKey_of_absent haccepted hfind, h.insertAt_size hκ hfind hsmall⟩

end Coherent

end Table

end OrderedHash
