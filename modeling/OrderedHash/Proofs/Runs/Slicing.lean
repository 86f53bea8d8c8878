import OrderedHash.Proofs.Runs.Consistency
import OrderedHash.Proofs.Runs.Permuting
import OrderedHash.Proofs.Table.Slicing

namespace OrderedHash

/-!
# Slices of containers of a run

The slices that are taken in turn, each of the one before, are ranges of the container, shifted
by the starts of all of them (`Slice.foldlM_range`).

What is asked of a slice and done to it is asked of and done to a container of its items
(`Slice.LikeContainer`). Both are told by what is made of a list of items (`Slice.Op.work`), be
it the range that the slice covers or all items of the container. Of the container that is
sliced the rest stays as it is, and what is in the range is found there (`Slice.Reflects`).
-/

variable {K V T σ α : Type}

namespace Slice

/-! ### Slices of slices -/

/-- The ends of slices that are taken in turn, the first one of `bound` positions, are valid. -/
def Nested : (bound : Nat) → List (Nat × Nat) → Prop
  | _, [] => True
  | bound, (first, last) :: rest => first ≤ last ∧ last ≤ bound ∧ Nested (last - first) rest

instance decidableNested : (bound : Nat) → (parts : List (Nat × Nat)) →
    Decidable (Nested bound parts)
  | _, [] => inferInstanceAs (Decidable True)
  | bound, (first, last) :: rest =>
    have := decidableNested (last - first) rest
    inferInstanceAs (Decidable (first ≤ last ∧ last ≤ bound ∧ Nested (last - first) rest))

/-- The last of the slices that are taken in turn: it starts after the starts of all of them,
    and has its own length. -/
def innermost (s : Slice) (parts : List (Nat × Nat)) : Slice :=
  let first := s.first + (parts.map Prod.fst).sum
  let part := parts.getLastD (0, s.size)
  ⟨first, first + (part.2 - part.1)⟩

/-- A part of a slice is as long as its range. -/
theorem size_part (s : Slice) (first last : Nat) :
    (⟨s.first + first, s.first + last⟩ : Slice).size = last - first :=
  Nat.add_sub_add_left ..

/-- Without parts a slice is its own innermost one. -/
theorem innermost_nil {s : Slice} (hs : s.first ≤ s.last) : s.innermost [] = s := by
  have hlast : s.first + (s.last - s.first) = s.last := Nat.add_sub_cancel' hs
  simp [innermost, size, hlast]

/-- The innermost slice of a part is that of the slice. -/
theorem innermost_cons (s : Slice) (first last : Nat) (rest : List (Nat × Nat)) :
    s.innermost ((first, last) :: rest) =
      innermost ⟨s.first + first, s.first + last⟩ rest := by
  unfold innermost
  rw [List.getLastD_cons, List.map_cons, List.sum_cons, size_part, Nat.add_assoc]
  cases rest <;> rfl

/-- A range within a slice is a slice. -/
theorem range_of_le {s : Slice} {first last : Nat} (hle : first ≤ last) (hlast : last ≤ s.size) :
    s.range first last = .ok ⟨s.first + first, s.first + last⟩ :=
  if_pos ⟨hle, hlast⟩

/-- Slices that are taken in turn are ranges of the first one, at the sum of their starts. -/
theorem foldlM_range {parts : List (Nat × Nat)} {s : Slice} (hs : s.first ≤ s.last)
    (h : Nested s.size parts) :
    parts.foldlM (fun s part => s.range part.1 part.2) s = .ok (s.innermost parts) := by
  induction parts generalizing s with
  | nil =>
    rw [innermost_nil hs]
    rfl
  | cons part rest ih =>
    obtain ⟨hle, hlast, hrest⟩ := h
    rw [innermost_cons, List.foldlM_cons, range_of_le hle hlast]
    exact ih (Nat.add_le_add_left hle _) (by rwa [size_part])

/-- Invalid ends are refused, at whichever slice they come. -/
theorem foldlM_range_of_not_nested {parts : List (Nat × Nat)} {s : Slice}
    (h : ¬ Nested s.size parts) :
    parts.foldlM (fun s part => s.range part.1 part.2) s = .error .invalidRange := by
  induction parts generalizing s with
  | nil => exact absurd trivial h
  | cons part rest ih =>
    rw [List.foldlM_cons]
    by_cases hpart : part.1 ≤ part.2 ∧ part.2 ≤ s.size
    · have hrest : ¬ Nested (⟨s.first + part.1, s.first + part.2⟩ : Slice).size rest := by
        rw [size_part]
        exact fun hrest => h ⟨hpart.1, hpart.2, hrest⟩
      rw [range_of_le hpart.1 hpart.2]
      exact ih hrest
    · rw [range, if_neg hpart]
      rfl

/-- The first of the slices is one of the whole container. -/
theorem within_eq_foldlM (first last : Nat) (parts : List (Nat × Nat)) (t : Table V) :
    within first last parts t =
      ((first, last) :: parts).foldlM (fun s part => s.range part.1 part.2) (whole t) := by
  have hrange : (whole t).range first last = ofRange first last t.size := by
    simp [range, ofRange, whole, size]
  rw [within, List.foldlM_cons, hrange]
  rfl

/-- Nested ranges lead to the innermost slice. -/
theorem within_of_nested {first last : Nat} {parts : List (Nat × Nat)} {t : Table V}
    (h : Nested t.size ((first, last) :: parts)) :
    within first last parts t = .ok ((whole t).innermost ((first, last) :: parts)) := by
  rw [within_eq_foldlM]
  exact foldlM_range (Nat.zero_le _) h

/-- Ranges that are not nested lead to none. -/
theorem within_of_not_nested {first last : Nat} {parts : List (Nat × Nat)} {t : Table V}
    (h : ¬ Nested t.size ((first, last) :: parts)) :
    within first last parts t = .error .invalidRange := by
  rw [within_eq_foldlM]
  exact foldlM_range_of_not_nested h

/-! ### The slice and a container of its items -/

/-- What a query answers on a container. -/
def Query.alone (c : Table V) : Query V σ α → Action σ α
  | .size => return c.size
  | .items => return c.items.toList
  | .item? i => return c.items[i]?
  | .itemAt i => Action.ofExcept (c.itemAt i)
  | .bisect compare => Table.bisect c.items compare 0 c.size
  | .partitionPoint test => Table.partitionFrom c.items test 0 c.size

/-- What an operation does to a container, which `sortBy` sorts. -/
def Op.alone (κ : Keying K V)
    (sortBy : (V → V → Action σ Bool) → Action (Table V × σ) Unit) :
    Op κ.key σ α → Action (Table V × σ) α
  | .modifyAt i f => Action.onFst do
    Table.checkPosition i (← get).size
    modify fun c => { c with items := c.items.modify i f.edit }
  | .sortBy less => sortBy less
  | .sortByKey less f => sortBy (Table.lessByKey less f)
  | .reverse => Table.Op.run κ .reverse

/-- One table is left of another one by what leaves `d` of a container of the items of a slice. -/
structure Reflects (κ : Keying K V) (s : Slice) (t u d : Table V) : Prop where
  items : Table.RefillsRange s.first s.last d.items.toList t u
  consistent : u.Consistent κ
  outside : ∀ p, p < s.first ∨ s.last ≤ p →
    u.items[p]? = t.items[p]? ∧ ∀ k, u.find κ k = some p ↔ t.find κ k = some p
  inside : ∀ i, i < s.size → ∀ k, u.find κ k = some (s.first + i) ↔ d.find κ k = some i

/-- The last of the slices of a table that are taken in turn is like a container of its items. -/
structure LikeContainer (κ : Keying K V)
    (sortBy : {σ : Type} → (V → V → Action σ Bool) → Action (Table V × σ) Unit)
    (first last : Nat) (parts : List (Nat × Nat)) (s : Slice) (t c : Table V) : Prop where
  query : ∀ {σ α : Type} (query : Query V σ α) (state : σ),
    ((Table.Query.slice first last parts query).run κ t).step state = (query.alone c).step state
  /-- The items are the same from the last one on. -/
  backwards : (List.range s.size).reverse.filterMap (s.item? t) = c.items.toList.reverse
  op : ∀ {σ α : Type} (op : Op κ.key σ α) (state : σ), ∃ answer u d state',
    ((Table.Op.slice first last parts op).run κ).step (t, state) = (answer, (u, state')) ∧
      (op.alone κ sortBy).step (c, state) = (answer, (d, state')) ∧ Reflects κ s t u d
  /-- So do any two correct sorts, by an ordering in which no two of the items are equivalent. -/
  any_sort : ∀ lt : V → V → Bool,
    (∀ v ∈ s.items t, ∀ w ∈ s.items t, lt v w = false → lt w v = false → v = w) →
    ∀ order order', Table.Sorts lt t s.first s.last order → Table.Sorts lt c 0 c.size order' →
      Reflects κ s t (t.permuteRange κ s.first order) (c.permuteRange κ 0 order')
  /-- Comparisons with another slice are those with a container of the items of that one. -/
  compare : ∀ (s' : Slice) (t' c' : Table V), c'.items.toList = s'.items t' →
    (∀ equal, Table.sameItems equal (s.items t) (s'.items t') =
      Table.sameItems equal c.items.toList c'.items.toList) ∧
    ∀ less, Table.precedes less (s.items t) (s'.items t') =
      Table.precedes less c.items.toList c'.items.toList

/-! ### What is made of a list of items -/

/-- What an operation makes of the items that it is done to. -/
def Op.work {key : V → K} : Op key σ α → List V → σ → Except Fault α × List V × σ
  | .modifyAt i f => Table.editItem i f.edit
  | .sortBy less => Table.sortItems less
  | .sortByKey less f => Table.sortItems (Table.lessByKey less f)
  | .reverse => fun vs state => (.ok (), vs.reverse, state)

variable {κ : Keying K V} {t u c d : Table V} {s : Slice}

open Table (Coherent WorksOn)

/-- An operation on a slice works on the positions of the slice. -/
theorem Op.worksOn (h : t.Coherent κ) (hs : s.first ≤ s.last) (hlast : s.last ≤ t.size)
    (op : Op κ.key σ α) : WorksOn κ s.first s.last (op.run κ s) op.work t := by
  cases op with
  | modifyAt i f => exact Table.modify_worksOn h hs hlast i f.keeps
  | sortBy less => exact h.sortRange_worksOn hs hlast less
  | sortByKey less f => exact h.sortRange_worksOn hs hlast (Table.lessByKey less f)
  | reverse => exact Table.reverseRange_worksOn h hs hlast

/-- The same operation on a container of its own works on all of it. -/
theorem Op.alone_worksOn (h : c.Coherent κ)
    {sortBy : (V → V → Action σ Bool) → Action (Table V × σ) Unit}
    (hsort : ∀ less state, (sortBy less).step (c, state) =
      (Table.sortRange κ 0 c.size less).step (c, state))
    (op : Op κ.key σ α) : WorksOn κ 0 c.size (op.alone κ sortBy) op.work c := by
  -- whatever sorts the container sorts it as a slice of all of it
  have hsortBy (less : V → V → Action σ Bool) :
      WorksOn κ 0 c.size (sortBy less) (Table.sortItems less) c := fun state => by
    rw [hsort]
    exact h.sortRange_worksOn (Nat.zero_le _) le_rfl less state
  cases op with
  | modifyAt i f =>
    intro state
    have hmodify := Table.modify_worksOn h (Nat.zero_le c.size) le_rfl i f.keeps state
    simp only [Nat.zero_add, Nat.sub_zero] at hmodify
    exact hmodify
  | sortBy less => exact hsortBy less
  | sortByKey less f => exact hsortBy (Table.lessByKey less f)
  | reverse =>
    intro state
    have hreverse : (Op.alone κ sortBy .reverse).step (c, state) =
        (.ok (), (c.reverseRange κ 0 c.size, state)) := rfl
    rw [hreverse]
    exact Table.reverseRange_worksOn h (Nat.zero_le c.size) le_rfl state

/-- A slice of a refilled range reflects a container with the items by which it was refilled. -/
theorem Reflects.of_refills (h : t.Coherent κ) (hκ : κ.Lawful) (hu : u.Coherent κ)
    (hd : d.Coherent κ) (r : Table.RefillsRange s.first s.last d.items.toList t u) :
    Reflects κ s t u d where
  items := r
  consistent := hu.consistent hκ
  outside _ hp := ⟨r.getElem?_outside hp, fun k => r.find_outside h hu hκ hp k⟩
  inside i hi k := by
    rw [r.find_inside hu hκ hi, hd.find_eq_some hκ, Array.getElem?_toList]

variable (hs : s.first ≤ s.last) (hlast : s.last ≤ t.size) (hitems : c.items.toList = s.items t)

section Items

include hlast hitems

/-- An item of a slice is that of a container with the same items. -/
theorem item?_of_items (i : Nat) : s.item? t i = c.items[i]? := by
  rw [item?]
  split
  · rename_i hi
    exact getElem?_of_items hlast hitems hi
  · rename_i hi
    rw [Array.getElem?_eq_none]
    exact (size_eq_of_items hlast hitems).le.trans (Nat.not_lt.mp hi)

/-- The items of the slice from the last one on. -/
theorem backwards_of_items :
    (List.range s.size).reverse.filterMap (s.item? t) = c.items.toList.reverse := by
  have hat : s.item? t = fun i => c.items[i]? := funext (item?_of_items hlast hitems)
  have hall : c.itemsAt (List.range' 0 (c.size - 0)) = c.itemsIn 0 c.size := c.itemsAt_range' le_rfl
  rw [c.itemsIn_whole, Nat.sub_zero, ← List.range_eq_range', Table.itemsAt] at hall
  rw [List.filterMap_reverse, hat, ← size_eq_of_items hlast hitems, hall]

end Items

include hs hlast hitems

/-- A query of the slice is that of a container of its items. -/
theorem Query.run_eq_alone (query : Query V σ α) : query.run s t = query.alone c := by
  have hsize := size_eq_of_items hlast hitems
  cases query with
  | size => exact congrArg pure hsize.symm
  | items => exact congrArg pure hitems.symm
  | item? i => exact congrArg pure (item?_of_items hlast hitems i)
  | itemAt i =>
    have hitem := item?_of_items hlast hitems i
    refine congrArg Action.ofExcept ?_
    -- there is an item at the position of the slice where the container has one
    cases hv : c.items[i]? with
    | none => rw [Slice.itemAt, hitem, Table.itemAt, hv]
    | some v => rw [Slice.itemAt, hitem, Table.itemAt, hv]
  | bisect compare =>
    rw [Query.run, bisect_of_items hlast hitems hs, ← hsize]
    rfl
  | partitionPoint test =>
    rw [Query.run, partitionPoint_of_items hlast hitems, ← hsize]
    rfl

/-- An operation on the slice is that on a container of its items. -/
theorem Op.run_like_alone (h : t.Coherent κ) (hc : c.Coherent κ) (hκ : κ.Lawful)
    {sortBy : (V → V → Action σ Bool) → Action (Table V × σ) Unit}
    (hsort : ∀ less state, (sortBy less).step (c, state) =
      (Table.sortRange κ 0 c.size less).step (c, state))
    (op : Op κ.key σ α) (state : σ) : ∃ answer u d state',
      (op.run κ s).step (t, state) = (answer, (u, state')) ∧
        (op.alone κ sortBy).step (c, state) = (answer, (d, state')) ∧ Reflects κ s t u d := by
  obtain ⟨u, hu, hucoherent, hrefills⟩ := Op.worksOn h hs hlast op state
  obtain ⟨d, hd, hdcoherent, hall⟩ := (Op.alone_worksOn hc hsort op).whole state
  rw [hitems, items] at hd hall
  rw [← hall] at hrefills
  exact ⟨_, u, d, _, hu, hd, Reflects.of_refills h hκ hucoherent hdcoherent hrefills⟩

/-- Sorts by an ordering in which no two items of the slice are equivalent, of the slice and of a
    container of its items, arrive at the same items. -/
theorem Reflects.of_sorts (h : t.Coherent κ) (hc : c.Coherent κ) (hκ : κ.Lawful)
    {lt : V → V → Bool}
    (hlt : ∀ v ∈ s.items t, ∀ w ∈ s.items t, lt v w = false → lt w v = false → v = w)
    {order order' : List Nat} (ho : Table.Sorts lt t s.first s.last order)
    (ho' : Table.Sorts lt c 0 c.size order') :
    Reflects κ s t (t.permuteRange κ s.first order) (c.permuteRange κ 0 order') := by
  have hr := ho.refillsRange κ hs hlast
  have hd := ho'.refillsRange κ (Nat.zero_le _) le_rfl
  have hsame : c.itemsIn 0 c.size = t.itemsIn s.first s.last := by
    rw [c.itemsIn_whole, hitems, Slice.items]
  -- there is only one order in which the items are sorted
  have heq := (ho.sortedRange κ hs hlast).itemsIn_eq (ho'.sortedRange κ (Nat.zero_le _) le_rfl)
    hsame hlt
  rw [hr.itemsIn_eq, ← hd.size_eq, Table.itemsIn_whole] at heq
  rw [heq] at hr
  exact Reflects.of_refills h hκ (ho.coherent h hs hlast) (ho'.coherent hc (Nat.zero_le _) le_rfl) hr

/-- The last of the slices that are taken in turn is like any container of its items. -/
theorem likeContainer (h : t.Coherent κ) (hc : c.Coherent κ) (hκ : κ.Lawful)
    {sortBy : {σ : Type} → (V → V → Action σ Bool) → Action (Table V × σ) Unit}
    (hsort : ∀ {σ : Type} (less : V → V → Action σ Bool) (state : σ),
      (sortBy less).step (c, state) = (Table.sortRange κ 0 c.size less).step (c, state))
    {first last : Nat} {parts : List (Nat × Nat)} (hwithin : within first last parts t = .ok s) :
    LikeContainer κ sortBy first last parts s t c where
  query query state := by
    rw [Table.Query.run, hwithin, ← Query.run_eq_alone hs hlast hitems]
    rfl
  backwards := backwards_of_items hlast hitems
  op op state := by
    rw [Table.Op.run, Action.step_get_bind, hwithin]
    exact Op.run_like_alone hs hlast hitems h hc hκ hsort op state
  any_sort _ hlt _ _ ho ho' := Reflects.of_sorts hs hlast hitems h hc hκ hlt ho ho'
  compare s' t' c' hitems' := by
    rw [hitems, hitems']
    exact ⟨fun _ => rfl, fun _ => rfl⟩

end Slice

namespace Table

/-- What holds of the slices of a container, which `sortBy` sorts. -/
structure Slices (κ : Keying K V)
    (sortBy : {σ : Type} → (V → V → Action σ Bool) → Action (Table V × σ) Unit) (t : Table V) :
    Prop where
  /-- Slices with valid ends, each of the one before, are one range of the container. -/
  shifted : ∀ first last parts, Slice.Nested t.size ((first, last) :: parts) →
    Slice.within first last parts t = .ok ((Slice.whole t).innermost ((first, last) :: parts))
  /-- A container of the items of a slice can be built, and each one is like the slice. -/
  alone : ∀ first last parts s, Slice.within first last parts t = .ok s →
    (∀ countKnown, ∃ c, ofList κ.accepting (s.items t) countKnown = .ok c ∧ c.Coherent κ ∧
        c.items.toList = s.items t) ∧
      ∀ c, c.Coherent κ → c.items.toList = s.items t →
        s.LikeContainer κ sortBy first last parts t c
  /-- An invalid end of any of the slices is refused, and nothing is done. -/
  refused : ∀ first last parts, ¬ Slice.Nested t.size ((first, last) :: parts) →
    (∀ {σ α : Type} (query : Slice.Query V σ α) (state : σ),
      ((Query.slice first last parts query).run κ t).step state = (.error .invalidRange, state)) ∧
    ∀ {σ α : Type} (op : Slice.Op κ.key σ α) (state : σ),
      ((Op.slice first last parts op).run κ).step (t, state) = (.error .invalidRange, (t, state))

/-- Every slice of a coherent table is like a container of its items. -/
theorem Coherent.slices {κ : Keying K V} {t : Table V} (h : t.Coherent κ) (hκ : κ.Lawful)
    (hr : κ.Refreshes) {sortBy : {σ : Type} → (V → V → Action σ Bool) → Action (Table V × σ) Unit}
    (hsort : ∀ {σ : Type} (c : Table V) (less : V → V → Action σ Bool) (state : σ),
      (sortBy less).step (c, state) = (sortRange κ 0 c.size less).step (c, state)) :
    t.Slices κ sortBy := by
  refine ⟨fun first last parts => Slice.within_of_nested, fun first last parts s hwithin => ?_,
    fun first last parts hnot => ⟨fun query state => ?_, fun op state => ?_⟩⟩
  · obtain ⟨hs, hlast⟩ := Slice.ends_of_within hwithin
    exact ⟨fun countKnown => h.exists_ofList_itemsIn hκ hr s.first s.last countKnown, fun c hc hitems =>
      Slice.likeContainer hs hlast hitems h hc hκ (hsort c) hwithin⟩
  · rw [Query.run, Slice.within_of_not_nested hnot]
    rfl
  · rw [Op.run, Action.step_get_bind, Slice.within_of_not_nested hnot]
    rfl

end Table

namespace World

variable {κ : Hashing K}

/-- After every run on maps or on sets the slices of every container are ranges of it, and like
    containers of their items. -/
theorem slices_of_reachable (hκ : κ.Lawful) :
    (∀ {w : World K (K × T) σ}, Reachable (Map.interface K T) κ w → ∀ i,
      (w.table i).Slices κ.map (Map.sortBy κ)) ∧
    ∀ {w : World K K σ}, Reachable (Set.interface K) κ w → ∀ i,
      (w.table i).Slices κ.set (Set.sortBy κ) := by
  constructor
  · intro w h i
    exact (h.coherent_map hκ i).slices hκ (Keying.refreshes_map κ) fun _ _ _ => rfl
  · intro w h i
    exact (h.coherent_set hκ i).slices hκ (Keying.refreshes_set κ) fun _ _ _ => rfl

/-- Of five keys the two in the middle are taken by a slice of a slice, and a slice that passes
    the end of the one before is refused. -/
theorem slices_of_reachable_gathered :
    Slice.within 1 5 [(1, 3)] (gathered.table 0) = .ok ⟨2, 4⟩ ∧
      (∃ c, Table.ofList Hashing.constant.set.accepting [4, 7] false = .ok c ∧
        Slice.LikeContainer Hashing.constant.set (Set.sortBy .constant) 1 5 [(1, 3)] ⟨2, 4⟩
          (gathered.table 0) c) ∧
      ((Table.Op.slice 1 5 [(1, 5)] .reverse).run Hashing.constant.set).step
        (gathered.table 0, ()) = (.error .invalidRange, (gathered.table 0, ())) ∧
      ((withTwo .constant (start ())).table 0).Slices Hashing.constant.map
        (Map.sortBy .constant) := by
  have hconstant : Hashing.constant.Lawful := Hashing.lawful_ofHasher _
  have hset := (slices_of_reachable (T := Nat) hconstant).2 gathered_reachable 0
  have hitems : (gathered.table 0).items = #[5, 9, 4, 7, 6] := by decide +kernel
  have hsize : (gathered.table 0).size = 5 := congrArg Array.size hitems
  have hwithin : Slice.within 1 5 [(1, 3)] (gathered.table 0) = .ok ⟨2, 4⟩ := by
    refine (hset.shifted 1 5 [(1, 3)] ?_).trans rfl
    rw [hsize]
    decide
  obtain ⟨hbuilds, hlike⟩ := hset.alone 1 5 [(1, 3)] ⟨2, 4⟩ hwithin
  obtain ⟨c, hbuilt, hc, hsame⟩ := hbuilds false
  -- the innermost slice has the third and the fourth key
  have hmiddle : (⟨2, 4⟩ : Slice).items (gathered.table 0) = [4, 7] := by
    rw [Slice.items, Table.itemsIn, hitems]
    rfl
  refine ⟨hwithin, ⟨c, ?_, hlike c hc hsame⟩, (hset.refused 1 5 [(1, 5)] ?_).2 .reverse (), ?_⟩
  · rwa [hmiddle] at hbuilt
  · rw [hsize]
    decide
  · exact (slices_of_reachable hconstant).1 withTwo_reachable 0

end World

end OrderedHash
