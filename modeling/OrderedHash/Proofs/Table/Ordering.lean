import OrderedHash.Proofs.Table.Twin
import OrderedHash.Table.Sort

namespace OrderedHash

/-!
# Twins are reordered alike

A sort answers a permutation of what it is given, for any comparison (`MergeSort.sort_perm`).
The items of twins are moved, exchanged and sorted in the same way.
-/

namespace MergeSort

variable {α σ : Type} {less : α → α → Action σ Bool}

theorem merge_perm (xs ys : List α) {zs : List α} {s s' : σ}
    (h : (merge less xs ys).step s = (.ok zs, s')) : zs.Perm (xs ++ ys) := by
  induction xs, ys using merge.induct generalizing zs s s' with
  | case1 ys =>
    rw [merge] at h
    cases h
    exact List.Perm.refl _
  | case2 x xs =>
    rw [merge] at h
    cases h
    rw [List.append_nil]
  | case3 x xs y ys ih₁ ih₂ =>
    rw [merge] at h
    obtain ⟨first, t, -, h⟩ := Action.of_step_bind_eq_ok h
    -- the element taken first comes from the one or from the other list
    cases first with
    | true =>
      obtain ⟨rest, u, hrest, h⟩ := Action.of_step_bind_eq_ok h
      cases h
      exact ((ih₁ hrest).cons y).trans List.perm_middle.symm
    | false =>
      obtain ⟨rest, u, hrest, h⟩ := Action.of_step_bind_eq_ok h
      cases h
      exact (ih₂ hrest).cons x

theorem sortWithin_perm (fuel : Nat) (xs : List α) {zs : List α} {s s' : σ}
    (h : (sortWithin less fuel xs).step s = (.ok zs, s')) : zs.Perm xs := by
  induction fuel generalizing xs zs s s' with
  | zero =>
    cases h
    exact List.Perm.refl _
  | succ fuel ih =>
    match xs with
    | [] =>
      cases h
      exact List.Perm.refl _
    | [x] =>
      cases h
      exact List.Perm.refl _
    | x :: y :: xs =>
      rw [sortWithin] at h
      obtain ⟨front, t, hfront, h⟩ := Action.of_step_bind_eq_ok h
      obtain ⟨back, u, hback, h⟩ := Action.of_step_bind_eq_ok h
      -- the two halves together are the list
      have hmerge := merge_perm front back h
      have hparts := (ih _ hfront).append (ih _ hback)
      rw [List.take_append_drop] at hparts
      exact hmerge.trans hparts

/-- Whatever the comparison, a sort answers a permutation of the list. -/
theorem sort_perm {xs zs : List α} {s s' : σ} (h : (sort less xs).step s = (.ok zs, s')) :
    zs.Perm xs :=
  sortWithin_perm xs.length xs h

end MergeSort

namespace Table

variable {K V C σ : Type}

/-- The keys that a list is paired with do not change the list. -/
theorem withKeys_snd {α : Type} (f : α → Action σ C) (xs : List α) {zs : List (C × α)} {s s' : σ}
    (h : (withKeys f xs).step s = (.ok zs, s')) : zs.map Prod.snd = xs := by
  induction xs generalizing zs s s' with
  | nil =>
    cases h
    rfl
  | cons a rest ih =>
    rw [withKeys] at h
    obtain ⟨c, t, -, h⟩ := Action.of_step_bind_eq_ok h
    obtain ⟨keyed, u, hkeyed, h⟩ := Action.of_step_bind_eq_ok h
    cases h
    rw [List.map_cons, ih hkeyed]

/-- The items of a range with their positions. -/
theorem numbered_snd (t : Table V) {first last : Nat} (hlast : last ≤ t.size) :
    ((t.itemsIn first last).zipIdx first).map Prod.snd = List.range' first (last - first) := by
  have hmin : min last t.items.size = last := Nat.min_eq_left hlast
  rw [List.zipIdx_map_snd, itemsIn, Array.length_toList, Array.size_extract, hmin]

/-- A move leaves the number of items, and arrives at a position of the table. -/
theorem of_step_moveIndex {κ : Keying K V} {t u : Table V} {source target : Nat}
    {r : Except Fault Unit} (h : (moveIndex κ source target).step t = (r, u)) :
    u.size = t.size ∧ (r = .ok () → target < t.size) := by
  unfold moveIndex checkPosition at h
  rw [Action.step_get_bind] at h
  dsimp only at h
  by_cases hs : source < t.size
  · rw [Action.step_demand_bind (decide_eq_true hs)] at h
    by_cases ht : target < t.size
    · rw [Action.step_demand_bind (decide_eq_true ht)] at h
      refine ⟨?_, fun _ => ht⟩
      -- an item moved onto itself is left
      split at h
      · cases h
        have hv := Array.getElem?_eq_getElem hs
        show (t.moved κ source target).items.size = t.items.size
        rw [items_moved κ t target hv]
        exact Index.size_moved hs ht
      · cases h
        rfl
    · rw [decide_eq_false ht] at h
      cases h
      refine ⟨rfl, fun hok => ?_⟩
      cases hok
  · rw [decide_eq_false hs] at h
    cases h
    refine ⟨rfl, fun hok => ?_⟩
    cases hok

/-- An exchange leaves the number of items, and is of two positions of the table. -/
theorem of_step_swapIndices {κ : Keying K V} {t u : Table V} {p q : Nat} {r : Except Fault Unit}
    (h : (swapIndices κ p q).step t = (r, u)) : u.size = t.size ∧ (r = .ok () → q < t.size) := by
  unfold swapIndices checkPosition at h
  rw [Action.step_get_bind] at h
  dsimp only at h
  by_cases hp : p < t.size
  · rw [Action.step_demand_bind (decide_eq_true hp)] at h
    by_cases hq : q < t.size
    · rw [Action.step_demand_bind (decide_eq_true hq)] at h
      refine ⟨?_, fun _ => hq⟩
      -- an item exchanged with itself is left
      split at h
      · cases h
        exact Array.size_swapIfInBounds
      · cases h
        rfl
    · rw [decide_eq_false hq] at h
      cases h
      refine ⟨rfl, fun hok => ?_⟩
      cases hok
  · rw [decide_eq_false hp] at h
    cases h
    refine ⟨rfl, fun hok => ?_⟩
    cases hok

open OrderedHash.Action (Agree Beside)

namespace Twin

variable {κ : Keying K V} {g : Variant K} {t t' : Table V}

/-! ### Single items -/

theorem moveIndex (h : Twin κ g t t') (source target : Nat) :
    Agree (Twin κ g) ((Table.moveIndex κ source target).step t)
      ((Table.moveIndex (κ.hashedBy g) source target).step t') := by
  unfold Table.moveIndex checkPosition
  rw [Action.step_get_bind, Action.step_get_bind, h.size_eq]
  refine Agree.demand h fun hsource => Agree.demand h fun htarget => ?_
  split
  · exact Agree.modify (h.moved (of_decide_eq_true hsource) (of_decide_eq_true htarget))
  · exact Agree.pure h ()

theorem swapIndices (h : Twin κ g t t') (p q : Nat) :
    Agree (Twin κ g) ((Table.swapIndices κ p q).step t)
      ((Table.swapIndices (κ.hashedBy g) p q).step t') := by
  unfold Table.swapIndices checkPosition
  rw [Action.step_get_bind, Action.step_get_bind, h.size_eq]
  refine Agree.demand h fun hp => Agree.demand h fun hq => ?_
  split
  · rename_i hne
    exact Agree.modify (h.exchanged (of_decide_eq_true hp) (of_decide_eq_true hq) hne)
  · exact Agree.pure h ()

/-! ### Sorting -/

/-- After the order of a range was found, which changed the client state only, the range is
    permuted in both tables. -/
theorem permute {s s' : Table V × σ} (h : Beside (Twin κ g) s s') {first last : Nat}
    (hle : first ≤ last) (hlast : last ≤ s.1.size) {order : List Nat}
    (hperm : order.Perm (List.range' first (last - first))) :
    Beside (Twin κ g) (s.1.permuteRange κ first order, s.2)
      (s'.1.permuteRange (κ.hashedBy g) first order, s'.2) := by
  have hlen : order.length = last - first := by
    rw [hperm.length_eq, List.length_range']
  refine ⟨h.fst.permuteRange (hlen.symm ▸ hperm) ?_, h.snd⟩
  omega

theorem sortRange (h : Twin κ g t t') {first last : Nat} (hlast : last ≤ t.size)
    (less : V → V → Action σ Bool) (s : σ) :
    Agree (Beside (Twin κ g)) ((Table.sortRange κ first last less).step (t, s))
      ((Table.sortRange (κ.hashedBy g) first last less).step (t', s)) := by
  unfold Table.sortRange
  split
  · rename_i hle
    rw [Action.step_get_bind, Action.step_get_bind, h.itemsIn_eq]
    refine (Agree.onSnd (h.beside s) _).bind (fun _ _ _ _ h => h) fun sorted u u' hsorted hR => ?_
    obtain ⟨heq, hsorted⟩ := Action.of_step_onSnd_eq hsorted
    -- the comparisons leave the table as it is
    have hlast' : last ≤ u.1.size := by
      rw [heq]
      exact hlast
    refine Agree.modify (permute hR (Nat.le_of_lt (Nat.lt_of_sub_pos (by omega))) hlast' ?_)
    rw [← numbered_snd t hlast]
    exact (MergeSort.sort_perm hsorted).map Prod.snd
  · exact Agree.pure (h.beside s) ()

theorem sortRangeByCachedKey (h : Twin κ g t t') {first last : Nat} (hlast : last ≤ t.size)
    (less : C → C → Bool) (f : V → Action σ C) (s : σ) :
    Agree (Beside (Twin κ g)) ((Table.sortRangeByCachedKey κ first last less f).step (t, s))
      ((Table.sortRangeByCachedKey (κ.hashedBy g) first last less f).step (t', s)) := by
  unfold Table.sortRangeByCachedKey
  split
  · rename_i hle
    rw [Action.step_get_bind, Action.step_get_bind, h.itemsIn_eq]
    refine (Agree.onSnd (h.beside s) _).bind (fun _ _ _ _ h => h) fun keyed u u' hkeyed hR => ?_
    obtain ⟨heq, hkeyed⟩ := Action.of_step_onSnd_eq hkeyed
    refine (Agree.onSnd hR _).bind (fun _ _ _ _ h => h) fun sorted v v' hsorted hR => ?_
    obtain ⟨heq', hsorted⟩ := Action.of_step_onSnd_eq hsorted
    have hlast' : last ≤ v.1.size := by
      rw [heq', heq]
      exact hlast
    refine Agree.modify (permute hR (Nat.le_of_lt (Nat.lt_of_sub_pos (by omega))) hlast' ?_)
    -- the items in the order of their keys, and the positions of these items
    have hperm := (MergeSort.sort_perm hsorted).map Prod.snd
    rw [withKeys_snd _ _ hkeyed] at hperm
    rw [← numbered_snd t hlast, ← Function.comp_def, ← List.map_map]
    exact hperm.map Prod.snd
  · exact Agree.pure (h.beside s) ()

end Twin

end Table

end OrderedHash
