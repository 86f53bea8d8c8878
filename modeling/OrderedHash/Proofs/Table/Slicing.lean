import OrderedHash.Proofs.Table.Collapse
import OrderedHash.Proofs.Table.Sorting
import OrderedHash.Table.Slice

namespace OrderedHash

/-!
# Work on a range of a table

What is done to a range depends on the items of the range only, and changes nothing else
(`Table.WorksOn`). So it is the same as on a container that holds these items and no others,
where the range is the whole. A search in a range looks at the same items as a search in such
a container, at positions that differ by the start of the range (`Table.bisect_shift`,
`Table.partitionFrom_shift`), and a sort sees the items without their positions
(`MergeSort.sort_map`).
-/

variable {K V C σ α β : Type}

namespace MergeSort

/-! ### Sorts see what the comparison sees -/

theorem merge_map (less : β → β → Action σ Bool) (f : α → β) (xs ys : List α) :
    merge less (xs.map f) (ys.map f) =
      List.map f <$> merge (fun a b => less (f a) (f b)) xs ys := by
  induction xs, ys using merge.induct with
  | case1 ys => rw [List.map_nil, merge, merge, map_pure]
  | case2 x xs => rw [List.map_nil, List.map_cons, merge, merge, map_pure, List.map_cons]
  | case3 x xs y ys ih₁ ih₂ =>
    rw [List.map_cons, List.map_cons, merge, merge, map_bind]
    refine congrArg (less (f y) (f x) >>= ·) (funext fun first => ?_)
    cases first with
    | true =>
      rw [List.map_cons] at ih₁
      simp [ih₁]
    | false =>
      rw [List.map_cons] at ih₂
      simp [ih₂]

theorem sortWithin_map (less : β → β → Action σ Bool) (f : α → β) (fuel : Nat) (xs : List α) :
    sortWithin less fuel (xs.map f) =
      List.map f <$> sortWithin (fun a b => less (f a) (f b)) fuel xs := by
  induction fuel generalizing xs with
  | zero => rw [sortWithin, sortWithin, map_pure]
  | succ fuel ih =>
    rcases xs with _ | ⟨x, _ | ⟨y, xs⟩⟩
    · rw [List.map_nil, sortWithin, sortWithin, map_pure, List.map_nil]
    · rw [List.map_singleton, sortWithin, sortWithin, map_pure, List.map_singleton]
    · have hfront := ih ((x :: y :: xs).take (((x :: y :: xs).length + 1) / 2))
      have hback := ih ((x :: y :: xs).drop (((x :: y :: xs).length + 1) / 2))
      rw [List.map_take, List.map_cons, List.map_cons] at hfront
      rw [List.map_drop, List.map_cons, List.map_cons] at hback
      rw [List.map_cons, List.map_cons, sortWithin, sortWithin]
      simp only [List.length_cons, List.length_map] at hfront hback ⊢
      simp [hfront, hback, merge_map]

/-- Elements are sorted as what a function gives for them. -/
theorem sort_map (less : β → β → Action σ Bool) (f : α → β) (xs : List α) :
    sort less (xs.map f) = List.map f <$> sort (fun a b => less (f a) (f b)) xs := by
  rw [sort, sort, List.length_map, sortWithin_map]

end MergeSort

/-- The keying with a hash function that fails on no key. -/
def Keying.accepting (κ : Keying K V) : Keying K V := { κ with refusal := fun _ => none }

namespace Table

variable {κ : Keying K V} {t c : Table V} {first last : Nat}

/-! ### Searches in a range -/

/-- The search by halves asks about the same items, at positions that are `first` further. -/
theorem bisect_shift {xs ys : Array V} (compare : V → Action σ Ordering) {first lo hi : Nat}
    (h : ∀ p, lo ≤ p → p < hi → xs[first + p]? = ys[p]?) :
    bisect xs compare (first + lo) (first + hi) =
      (fun r => (first + r.1, r.2)) <$> bisect ys compare lo hi := by
  fun_induction bisect ys compare lo hi with
  | case1 lo hi hlt mid hmid =>
    -- the middle of the shifted range is the shifted middle
    have hmid' : first + lo + (first + hi - (first + lo)) / 2 = first + mid := by omega
    rw [bisect, if_pos (by omega)]
    dsimp only
    rw [hmid', h mid (by omega) (by omega), hmid, map_pure]
  | case2 lo hi hlt mid v hv ih₁ ih₂ =>
    have hmid' : first + lo + (first + hi - (first + lo)) / 2 = first + mid := by omega
    rw [bisect, if_pos (by omega)]
    dsimp only
    rw [hmid', h mid (by omega) (by omega), hv]
    dsimp only
    rw [map_bind]
    refine congrArg (compare v >>= ·) (funext fun order => ?_)
    cases order with
    | lt => exact ih₁ fun p hlo hp => h p (by omega) hp
    | gt => exact ih₂ fun p hlo hp => h p hlo (by omega)
    | eq => rfl
  | case3 lo hi hnot => rw [bisect, if_neg (by omega), map_pure]

theorem partitionFrom_shift {xs ys : Array V} (test : V → Action σ Bool) {first lo count : Nat}
    (h : ∀ p, lo ≤ p → p < lo + count → xs[first + p]? = ys[p]?) :
    partitionFrom xs test (first + lo) count = (first + ·) <$> partitionFrom ys test lo count := by
  fun_induction partitionFrom ys test lo count with
  | case1 lo count hlt half hhalf =>
    -- the middle of the shifted range is the shifted middle
    have hhalf' : first + lo + count / 2 = first + (lo + half) := Nat.add_assoc ..
    rw [partitionFrom, if_pos hlt]
    dsimp only
    rw [hhalf', h (lo + half) (by omega) (by omega), hhalf, map_pure]
  | case2 lo count hlt half v hv ih₁ ih₂ =>
    have hhalf' : first + lo + count / 2 = first + (lo + half) := Nat.add_assoc ..
    rw [partitionFrom, if_pos hlt]
    dsimp only
    rw [hhalf', h (lo + half) (by omega) (by omega), hv]
    dsimp only
    rw [map_bind]
    refine congrArg (test v >>= ·) (funext fun passed => ?_)
    cases passed with
    | true => exact ih₁ fun p hlo hp => h p (by omega) (by omega)
    | false => exact ih₂ fun p hlo hp => h p hlo (by omega)
  | case3 lo count hnot => rw [partitionFrom, if_neg hnot, map_pure]

/-! ### Changes of a range -/

/-- On a range of `t` an action answers what `work` answers on the items of the range, and
    leaves there what `work` makes of them. -/
def WorksOn (κ : Keying K V) (first last : Nat) (action : Action (Table V × σ) α)
    (work : List V → σ → Except Fault α × List V × σ) (t : Table V) : Prop :=
  ∀ s, ∃ u, action.step (t, s) =
      ((work (t.itemsIn first last) s).1, (u, (work (t.itemsIn first last) s).2.2)) ∧
    u.Coherent κ ∧ RefillsRange first last (work (t.itemsIn first last) s).2.1 t u

/-- What a sort makes of a list, which it leaves if the comparison fails. -/
def sortItems (less : V → V → Action σ Bool) (vs : List V) (s : σ) :
    Except Fault Unit × List V × σ :=
  if vs.length < 2 then (.ok (), vs, s)
  else
    match (MergeSort.sort less vs).step s with
    | (.ok sorted, s) => (.ok (), sorted, s)
    | (.error fault, s) => (.error fault, vs, s)

/-- What a change of one element makes of a list that is long enough. -/
def editItem (i : Nat) (f : V → V) (vs : List V) (s : σ) : Except Fault Unit × List V × σ :=
  if i < vs.length then (.ok (), vs.modify i f, s) else (.error .positionOutOfRange, vs, s)

/-- The items of a range may be put in any order that is given with their positions. -/
theorem Coherent.permuteRange_numbered (h : t.Coherent κ) (hle : first ≤ last)
    (hlast : last ≤ t.size) {sorted : List (V × Nat)} (hperm : sorted.Perm (t.numbered first last)) :
    (t.permuteRange κ first (sorted.map Prod.snd)).Coherent κ ∧
      RefillsRange first last (sorted.map Prod.fst) t
        (t.permuteRange κ first (sorted.map Prod.snd)) := by
  have hpositions : (sorted.map Prod.snd).Perm (List.range' first (last - first)) := by
    rw [← t.numbered_snd hlast]
    exact hperm.map Prod.snd
  have hlength : (sorted.map Prod.snd).length = last - first := by
    rw [hpositions.length_eq, List.length_range']
  rw [← hlength] at hpositions
  have hend : first + (sorted.map Prod.snd).length = last := by
    rw [hlength, Nat.add_sub_cancel' hle]
  -- the item given with a position is the one at it
  have hitems : t.itemsAt (sorted.map Prod.snd) = sorted.map Prod.fst := by
    rw [itemsAt, List.filterMap_map, ← List.filterMap_eq_map]
    refine List.filterMap_congr fun e he => ?_
    exact getElem?_of_mem_numbered hlast (hperm.mem_iff.mp he)
  have hrefills := refillsRange_permuteRange hpositions (hend.le.trans hlast) κ
  rw [hend, hitems] at hrefills
  exact ⟨h.permuteRange hpositions (hend.le.trans hlast), hrefills⟩

/-- What a sort of a range makes of its items is what it makes of them as a list. -/
theorem Coherent.sortRange_worksOn (h : t.Coherent κ) (hle : first ≤ last) (hlast : last ≤ t.size)
    (less : V → V → Action σ Bool) :
    WorksOn κ first last (sortRange κ first last less) (sortItems less) t := by
  intro s
  unfold sortItems
  rw [t.length_itemsIn hlast]
  by_cases hlength : last - first < 2
  · rw [if_pos hlength]
    exact ⟨t, step_sortRange_of_lt hlength s, h, t.refillsRange_self hle hlast⟩
  · rw [if_neg hlength]
    -- the sort that is run sees the items with their positions
    have hmap : MergeSort.sort less (t.itemsIn first last) = List.map Prod.fst <$>
        MergeSort.sort (fun a b => less a.1 b.1) (t.numbered first last) := by
      rw [← MergeSort.sort_map, numbered, List.zipIdx_map_fst]
    rw [hmap, map_eq_pure_bind]
    rcases hsort : (MergeSort.sort (fun a b : V × Nat => less a.1 b.1)
      (t.numbered first last)).step s with ⟨fault | sorted, s'⟩
    · rw [Action.step_bind_of_error hsort]
      exact ⟨t, step_sortRange_of_error (by omega) hsort, h, t.refillsRange_self hle hlast⟩
    · obtain ⟨hu, hrefills⟩ := h.permuteRange_numbered hle hlast (MergeSort.sort_perm hsort)
      rw [Action.step_bind_of_ok hsort]
      exact ⟨_, step_sortRange_of_ok (by omega) hsort, hu, hrefills⟩

/-- What a reversal of a range makes of its items is the list in the opposite order. -/
theorem reverseRange_worksOn (h : t.Coherent κ) (hle : first ≤ last) (hlast : last ≤ t.size) :
    WorksOn κ first last
      (modify fun p => (p.1.reverseRange κ first last, p.2) : Action (Table V × σ) PUnit)
      (fun vs s => (.ok (), vs.reverse, s)) t :=
  fun _ => ⟨_, rfl, h.reverseRange hlast, t.refillsRange_reverse κ hle hlast⟩

/-- An element is changed in the first part of a list. -/
theorem modify_append_of_lt {xs ys : List V} {i : Nat} (hi : i < xs.length) (f : V → V) :
    (xs ++ ys).modify i f = xs.modify i f ++ ys := by
  induction xs generalizing i with
  | nil => exact absurd hi (Nat.not_lt_zero i)
  | cons x xs ih =>
    cases i with
    | zero => rfl
    | succ i =>
      rw [List.cons_append, List.modify_succ_cons, ih (Nat.lt_of_succ_lt_succ hi),
        List.modify_succ_cons, List.cons_append]

theorem refillsRange_modify (t : Table V) (hle : first ≤ last) (hlast : last ≤ t.size) {i : Nat}
    (hi : i < last - first) (f : V → V) :
    RefillsRange first last ((t.itemsIn first last).modify i f) t
      { t with items := t.items.modify (first + i) f } where
  le := hle
  le_size := hlast
  length_eq := by rw [List.length_modify, t.length_itemsIn hlast]
  items_eq := by
    -- a position of the range is counted from the items before it
    have hfront : (t.items.toList.take first).length = first :=
      List.length_take_of_le (hle.trans hlast)
    have hmiddle : i < (t.itemsIn first last).length := by
      rw [t.length_itemsIn hlast]
      exact hi
    have hshift := List.modifyTailIdx_add (List.modifyHead f) i (t.items.toList.take first)
      (t.itemsIn first last ++ t.items.toList.drop last)
    rw [hfront, ← t.items_parts hle] at hshift
    rw [← modify_append_of_lt hmiddle]
    exact (Array.toList_modify ..).trans hshift

/-- One item of a range is changed in a way that keeps its key. -/
theorem modify_worksOn (h : t.Coherent κ) (hle : first ≤ last) (hlast : last ≤ t.size)
    (i : Nat) {f : V → V} (hf : ∀ v, κ.key (f v) = κ.key v) :
    WorksOn κ first last
      (Action.onFst (do
        checkPosition i (last - first)
        modify fun t => { t with items := t.items.modify (first + i) f }) :
          Action (Table V × σ) Unit)
      (editItem i f) t := by
  intro s
  unfold editItem checkPosition
  rw [t.length_itemsIn hlast, Action.step_onFst]
  by_cases hi : i < last - first
  · rw [if_pos hi, Action.step_demand_bind (decide_eq_true hi)]
    exact ⟨_, rfl, h.modify (first + i) hf, t.refillsRange_modify hle hlast hi f⟩
  · rw [if_neg hi, decide_eq_false hi]
    exact ⟨t, rfl, h, t.refillsRange_self hle hlast⟩

/-- On the range of all positions an action leaves what `work` makes of all items. -/
theorem WorksOn.whole {action : Action (Table V × σ) α}
    {work : List V → σ → Except Fault α × List V × σ} (h : WorksOn κ 0 t.size action work t)
    (s : σ) : ∃ u, action.step (t, s) =
        ((work t.items.toList s).1, (u, (work t.items.toList s).2.2)) ∧
      u.Coherent κ ∧ u.items.toList = (work t.items.toList s).2.1 := by
  obtain ⟨u, hstep, hu, hrefills⟩ := h s
  have hall := hrefills.itemsIn_eq
  rw [← hrefills.size_eq, itemsIn_whole, hrefills.size_eq] at hall
  rw [itemsIn_whole] at hstep hall
  exact ⟨u, hstep, hu, hall⟩

/-! ### Containers of the items of a range -/

/-- A container can be built of the items of a range, and has these items. -/
theorem Coherent.exists_ofList_itemsIn (h : t.Coherent κ) (hκ : κ.Lawful) (hr : κ.Refreshes)
    (first last : Nat) (countKnown : Bool) :
    ∃ c, ofList κ.accepting (t.itemsIn first last) countKnown = .ok c ∧ c.Coherent κ ∧
      c.items.toList = t.itemsIn first last := by
  have hsub : (t.itemsIn first last).Sublist t.items.toList := by
    rw [itemsIn, Array.toList_extract, List.extract_eq_take_drop]
    exact (List.take_sublist _ _).trans (List.drop_sublist _ _)
  have hdistinct := ((distinct_iff_pairwise hκ t.items).mp h.distinct).sublist (hsub.map κ.key)
  -- no key occurs twice in the range, so that nothing of it is lost
  have hself : κ.accepting.collapse (t.itemsIn first last) = t.itemsIn first last :=
    Keying.collapse_eq_self hdistinct
  have hsmall : (κ.accepting.collapse (t.itemsIn first last)).length < Node.movingPosition := by
    rw [hself]
    exact lt_of_le_of_lt hsub.length_le h.small
  obtain ⟨c, hc, hcoherent, hitems⟩ := ofList_collapse (κ := κ.accepting)
    ⟨hκ.refl, hκ.symm, hκ.trans, hκ.hash_eq⟩ ⟨hr.key, hr.again⟩ (fun _ _ => rfl) hsmall
    countKnown
  rw [hself] at hitems
  exact ⟨c, hc, ⟨hcoherent.distinct, hcoherent.small, hcoherent.mirrors⟩, hitems⟩

end Table

namespace Slice

/-! ### Slices beside containers of their items -/

variable {s : Slice} {t c : Table V} (hlast : s.last ≤ t.size)
  (hitems : c.items.toList = s.items t)

include hlast hitems

theorem size_eq_of_items : c.size = s.size := by
  have hlength := congrArg List.length hitems
  rwa [Array.length_toList, items, t.length_itemsIn hlast] at hlength

theorem getElem?_of_items {i : Nat} (hi : i < s.size) : t.items[s.first + i]? = c.items[i]? := by
  rw [← c.items.getElem?_toList, hitems, items, t.getElem?_itemsIn hlast hi]

/-- A search in a slice is one in its items. -/
theorem bisect_of_items (hs : s.first ≤ s.last) (compare : V → Action σ Ordering) :
    s.bisect t compare = Table.bisect c.items compare 0 s.size := by
  have hend : s.first + s.size = s.last := Nat.add_sub_cancel' hs
  have hshift : Table.bisect t.items compare (s.first + 0) (s.first + s.size) = _ :=
    Table.bisect_shift compare fun p _ hp => getElem?_of_items hlast hitems hp
  rw [Nat.add_zero, hend] at hshift
  rw [Slice.bisect, hshift]
  simp

theorem partitionPoint_of_items (test : V → Action σ Bool) :
    s.partitionPoint t test = Table.partitionFrom c.items test 0 s.size := by
  have hshift : Table.partitionFrom t.items test (s.first + 0) s.size = _ :=
    Table.partitionFrom_shift test fun p _ hp => getElem?_of_items hlast hitems (by omega)
  rw [Nat.add_zero] at hshift
  rw [Slice.partitionPoint, hshift]
  simp

end Slice

end OrderedHash
