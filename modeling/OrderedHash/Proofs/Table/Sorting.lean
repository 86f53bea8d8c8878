import OrderedHash.Proofs.Table.Permuting

namespace OrderedHash

/-!
# Tables whose items are sorted

A sort is asked for a strict weak ordering `lt` (`StrictWeak`). A correct sort puts the
positions of a range in an order in which no later item is less than an earlier one
(`Table.Sorts`), and a stable one besides leaves equivalent items in their order
(`Table.SortsStably`). There is only one such order (`Table.SortsStably.eq`), and the
one in which the merge sort puts the positions is it (`Table.sortsStably_sortedOrder`).
-/

variable {α β σ : Type}

/-! ### Orderings -/

/-- A strict ordering in which to be equivalent, none less than the other, is transitive. -/
structure StrictWeak (lt : α → α → Bool) : Prop where
  irrefl : ∀ a, lt a a = false
  trans : ∀ a b c, lt a b → lt b c → lt a c
  incomp : ∀ a b c, lt a b = false → lt b a = false → lt b c = false → lt c b = false →
    lt a c = false ∧ lt c a = false

/-- Whether `b` is not less than `a`. -/
def notLess (lt : α → α → Bool) (a b : α) : Bool := !lt b a

/-- Whether none of two is less than the other. -/
def equivalent (lt : α → α → Bool) (a b : α) : Bool := !lt a b && !lt b a

namespace StrictWeak

variable {lt : α → α → Bool} (h : StrictWeak lt)

include h

/-- Of two items only one is less than the other. -/
theorem asymm {a b : α} (hab : lt a b) : lt b a = false := by
  refine Bool.eq_false_iff.mpr fun hba => ?_
  have haa := h.trans a b a hab hba
  rw [h.irrefl] at haa
  cases haa

/-- An item that is not less than one that is not less than a third is not less than that. -/
theorem notLess_trans (a b c : α) (hab : notLess lt a b) (hbc : notLess lt b c) :
    notLess lt a c := by
  rw [notLess, Bool.not_eq_true'] at hab hbc ⊢
  refine Bool.eq_false_iff.mpr fun hca => ?_
  -- the one in the middle is less than neither, so it is equivalent to both
  have hab' : lt a b = false := Bool.eq_false_iff.mpr fun hlt => by
    rw [h.trans c a b hca hlt] at hbc
    cases hbc
  have hbc' : lt b c = false := Bool.eq_false_iff.mpr fun hlt => by
    rw [h.trans b c a hlt hca] at hab
    cases hab
  rw [(h.incomp a b c hab' hab hbc' hbc).2] at hca
  cases hca

/-- Of two items one is not less than the other. -/
theorem notLess_total (a b : α) : notLess lt a b || notLess lt b a := by
  rw [notLess, notLess, ← Bool.not_and, Bool.not_eq_true', Bool.and_eq_false_iff]
  by_cases hab : lt a b
  · exact Or.inl (h.asymm hab)
  · exact Or.inr (Bool.eq_false_iff.mpr hab)

/-- Those that are equivalent to a third are equivalent to each other. -/
theorem notLess_of_equivalent {a b c : α} (ha : equivalent lt c a) (hb : equivalent lt c b) :
    notLess lt a b := by
  simp only [equivalent, Bool.and_eq_true, Bool.not_eq_true'] at ha hb
  rw [notLess, Bool.not_eq_true']
  exact (h.incomp a c b ha.2 ha.1 hb.1 hb.2).2

/-- A sort leaves equivalent elements in their order. -/
theorem filter_mergeSort (xs : List α) (a : α) :
    (xs.mergeSort (notLess lt)).filter (equivalent lt a) = xs.filter (equivalent lt a) := by
  -- the equivalent ones are sorted already, so that they are a sublist of what is sorted
  have hsorted : (xs.filter (equivalent lt a)).Pairwise fun x y => notLess lt x y := by
    refine List.pairwise_of_forall_mem_list fun x hx y hy => ?_
    exact h.notLess_of_equivalent (List.mem_filter.mp hx).2 (List.mem_filter.mp hy).2
  have hsub := List.sublist_mergeSort h.notLess_trans h.notLess_total hsorted List.filter_sublist
  have hfilter := hsub.filter (equivalent lt a)
  simp only [List.filter_filter, Bool.and_self] at hfilter
  refine (hfilter.eq_of_length ?_).symm
  exact ((List.mergeSort_perm xs (notLess lt)).filter _).length_eq.symm

/-- No item of a sorted list is less than one before it. -/
theorem pairwise_mergeSort (xs : List α) :
    (xs.mergeSort (notLess lt)).Pairwise fun a b => lt b a = false := by
  refine (List.pairwise_mergeSort h.notLess_trans h.notLess_total xs).imp fun hab => ?_
  rwa [notLess, Bool.not_eq_true'] at hab

/-- What is so of any two elements in a list stays so of equivalent ones when it is sorted. -/
theorem pairwise_mergeSort_of {R : α → α → Prop} {xs : List α} (hxs : xs.Pairwise R) :
    (xs.mergeSort (notLess lt)).Pairwise fun a b => lt a b = false → R a b := by
  have hsorted := h.pairwise_mergeSort xs
  rw [List.pairwise_iff_forall_sublist] at hsorted hxs ⊢
  intro a b hab hlt
  -- the two are among those equivalent to the first
  have hself : equivalent lt a a := by
    rw [equivalent, h.irrefl]
    rfl
  have hequiv : equivalent lt a b := by
    rw [equivalent, hlt, hsorted hab]
    rfl
  have hpair := hab.filter (equivalent lt a)
  rw [h.filter_mergeSort, List.filter_cons_of_pos hself, List.filter_cons_of_pos hequiv,
    List.filter_nil] at hpair
  exact hxs (hpair.trans List.filter_sublist)

/-- The ordering of what a function gives. -/
theorem comap (f : β → α) : StrictWeak fun a b => lt (f a) (f b) where
  irrefl a := h.irrefl (f a)
  trans a b c := h.trans (f a) (f b) (f c)
  incomp a b c := h.incomp (f a) (f b) (f c)

end StrictWeak

/-! ### The merge sort -/

namespace MergeSort

variable {less : α → α → Action σ Bool} {lt : α → α → Bool} {I : σ → Prop}

/-- A comparison that answers what `lt` says, whatever it does to the state of the caller. -/
def Decides (less : α → α → Action σ Bool) (lt : α → α → Bool) : Prop :=
  ∀ a b s, ((less a b).step s).1 = .ok (lt a b)

/-- What comparisons keep true of the state of the caller. -/
def Keeps (less : α → α → Action σ Bool) (I : σ → Prop) : Prop :=
  ∀ a b s, I s → I ((less a b).step s).2

/-- A comparison that decides an order answers by it, and may change the state of the client. -/
theorem Decides.step (h : Decides less lt) (a b : α) (s : σ) :
    (less a b).step s = (.ok (lt a b), ((less a b).step s).2) :=
  Prod.ext (h a b s) rfl

/-- Sorted lists are merged as the order says, and what all comparisons keep is kept. -/
theorem step_merge (h : Decides less lt) (hI : Keeps less I) (xs ys : List α) {s : σ} (hs : I s) :
    ∃ s', I s' ∧ (merge less xs ys).step s = (.ok (xs.merge ys (notLess lt)), s') := by
  induction xs, ys using merge.induct generalizing s with
  | case1 ys =>
    rw [merge, List.nil_merge]
    exact ⟨s, hs, rfl⟩
  | case2 x xs =>
    rw [merge, List.merge_right]
    exact ⟨s, hs, rfl⟩
  | case3 x xs y ys ih₁ ih₂ =>
    rw [merge, List.cons_merge_cons, notLess, Action.step_bind_of_ok (h.step y x s)]
    -- the item of the second list comes first only if it is less
    cases lt y x with
    | true =>
      obtain ⟨s', hs', hrest⟩ := ih₁ (hI y x s hs)
      exact ⟨s', hs', Action.step_bind_of_ok hrest _⟩
    | false =>
      obtain ⟨s', hs', hrest⟩ := ih₂ (hI y x s hs)
      exact ⟨s', hs', Action.step_bind_of_ok hrest _⟩

/-- A list is sorted as the order says, and what all comparisons keep is kept. -/
theorem step_sortWithin (h : Decides less lt) (hI : Keeps less I) {fuel : Nat} {xs : List α}
    (hfuel : xs.length ≤ fuel) {s : σ} (hs : I s) :
    ∃ s', I s' ∧ (sortWithin less fuel xs).step s = (.ok (xs.mergeSort (notLess lt)), s') := by
  induction fuel generalizing xs s with
  | zero =>
    rw [List.eq_nil_of_length_eq_zero (Nat.le_zero.mp hfuel), List.mergeSort_nil]
    exact ⟨s, hs, rfl⟩
  | succ fuel ih =>
    match xs with
    | [] => exact ⟨s, hs, by rw [List.mergeSort_nil]; rfl⟩
    | [x] => exact ⟨s, hs, by rw [List.mergeSort_singleton]; rfl⟩
    | x :: y :: xs =>
      rw [List.length_cons, List.length_cons] at hfuel
      -- both halves are shorter than the list
      have hfront : ((x :: y :: xs).take (((x :: y :: xs).length + 1) / 2)).length ≤ fuel := by
        rw [List.length_take, List.length_cons, List.length_cons]
        omega
      have hback : ((x :: y :: xs).drop (((x :: y :: xs).length + 1) / 2)).length ≤ fuel := by
        rw [List.length_drop, List.length_cons, List.length_cons]
        omega
      obtain ⟨s₁, hs₁, h₁⟩ := ih hfront hs
      obtain ⟨s₂, hs₂, h₂⟩ := ih hback hs₁
      obtain ⟨s₃, hs₃, h₃⟩ := step_merge h hI _ _ hs₂
      refine ⟨s₃, hs₃, ?_⟩
      rw [sortWithin, Action.step_bind_of_ok h₁, Action.step_bind_of_ok h₂, h₃, List.mergeSort,
        List.MergeSort.Internal.splitInTwo_fst, List.MergeSort.Internal.splitInTwo_snd]

/-- The merge sort sorts as the library does. -/
theorem step_sort (h : Decides less lt) (hI : Keeps less I) (xs : List α) {s : σ} (hs : I s) :
    ∃ s', I s' ∧ (sort less xs).step s = (.ok (xs.mergeSort (notLess lt)), s') :=
  step_sortWithin h hI le_rfl hs

/-- A sort by a comparison that does nothing else leaves the state of the caller. -/
theorem step_sort_pure (lt : α → α → Bool) (xs : List α) (s : σ) :
    (sort (fun a b => (pure (lt a b) : Action σ Bool)) xs).step s =
      (.ok (xs.mergeSort (notLess lt)), s) := by
  have hdecides : Decides (fun a b => (pure (lt a b) : Action σ Bool)) lt := fun _ _ _ => rfl
  have hkeeps : Keeps (fun a b => (pure (lt a b) : Action σ Bool)) (· = s) := fun _ _ _ h => h
  obtain ⟨_, rfl, hsort⟩ := step_sort hdecides hkeeps xs rfl
  exact hsort

end MergeSort

namespace Table

variable {K V : Type} {κ : Keying K V} {t u : Table V} {lt : V → V → Bool} {first last : Nat}
  {order : List Nat}

/-! ### Sorted orders of positions -/

/-- The positions of the range in an order in which no later item is less than an earlier one. -/
structure Sorts (lt : V → V → Bool) (t : Table V) (first last : Nat) (order : List Nat) : Prop where
  perm : order.Perm (List.range' first (last - first))
  sorted : order.Pairwise fun p q =>
    ∀ v w, t.items[p]? = some v → t.items[q]? = some w → lt w v = false

/-- Of equivalent items the one that was first is first. -/
structure SortsStably (lt : V → V → Bool) (t : Table V) (first last : Nat) (order : List Nat) :
    Prop extends Sorts lt t first last order where
  stable : order.Pairwise fun p q =>
    ∀ v w, t.items[p]? = some v → t.items[q]? = some w → lt v w = false → p < q

/-- One table is another one with the items from `first` up to `last` sorted. -/
structure SortedRange (lt : V → V → Bool) (first last : Nat) (t u : Table V) : Prop where
  before : u.items.toList.take first = t.items.toList.take first
  after : u.items.toList.drop last = t.items.toList.drop last
  perm : (u.itemsIn first last).Perm (t.itemsIn first last)
  sorted : (u.itemsIn first last).Pairwise fun v w => lt w v = false

namespace Sorts

variable (h : Sorts lt t first last order)

include h

/-- There are as many positions in the order as in the range. -/
theorem length_eq : order.length = last - first := by
  rw [h.perm.length_eq, List.length_range']

/-- The positions of a sorted range are those of the range. -/
theorem perm_range : order.Perm (List.range' first order.length) := by
  rw [h.length_eq]
  exact h.perm

/-- The range ends behind as many positions as were sorted. -/
theorem end_eq (hle : first ≤ last) : first + order.length = last := by
  rw [h.length_eq, Nat.add_sub_cancel' hle]

/-- There is an item at every position that is sorted. -/
theorem lt_of_mem (hlast : last ≤ t.size) {p : Nat} (hp : p ∈ order) : p < t.size := by
  have hrange := h.perm.mem_iff.mp hp
  rw [List.mem_range'_1] at hrange
  omega

/-- A coherent table is coherent after a range of it was sorted. -/
theorem coherent (ht : t.Coherent κ) (hle : first ≤ last) (hlast : last ≤ t.size) :
    (t.permuteRange κ first order).Coherent κ :=
  ht.permuteRange h.perm_range ((h.end_eq hle).le.trans hlast)

/-- Only the items of a range move when it is sorted. -/
theorem refillsRange (κ : Keying K V) (hle : first ≤ last) (hlast : last ≤ t.size) :
    RefillsRange first last (t.itemsAt order) t (t.permuteRange κ first order) := by
  have hend := h.end_eq hle
  have hrefills := refillsRange_permuteRange h.perm_range (hend.le.trans hlast) κ
  rwa [hend] at hrefills

/-- The items are sorted in the order of the positions. -/
theorem sortedRange (κ : Keying K V) (hle : first ≤ last) (hlast : last ≤ t.size) :
    SortedRange lt first last t (t.permuteRange κ first order) := by
  have r := h.refillsRange κ hle hlast
  refine ⟨r.take_eq, r.drop_eq, ?_, ?_⟩ <;> rw [r.itemsIn_eq]
  · rw [← t.itemsAt_range' hlast]
    exact h.perm.filterMap _
  · rw [itemsAt, List.pairwise_filterMap]
    exact h.sorted.imp fun hpq v hv w hw => hpq v w hv hw

end Sorts

/-- If no two of the items are equivalent there is only one order in which they are sorted. -/
theorem SortedRange.itemsIn_eq {t' u' : Table V} {first' last' : Nat}
    (h : SortedRange lt first last t u) (h' : SortedRange lt first' last' t' u')
    (hsame : t'.itemsIn first' last' = t.itemsIn first last)
    (hlt : ∀ v ∈ t.itemsIn first last, ∀ w ∈ t.itemsIn first last,
      lt v w = false → lt w v = false → v = w) :
    u.itemsIn first last = u'.itemsIn first' last' := by
  have hperm := h'.perm
  rw [hsame] at hperm
  refine List.Perm.eq_of_pairwise (fun v w hv hw hvw hwv => ?_) h.sorted h'.sorted
    (h.perm.trans hperm.symm)
  exact hlt v (h.perm.mem_iff.mp hv) w (hperm.mem_iff.mp hw) hwv hvw

/-- The items of some positions that pass a test. -/
theorem filter_itemsAt (t : Table V) (order : List Nat) (test : V → Bool) :
    (t.itemsAt order).filter test = t.itemsAt (order.filter fun p => t.items[p]?.any test) := by
  rw [itemsAt, itemsAt, List.filter_filterMap, List.filterMap_filter]
  refine List.filterMap_congr fun p _ => ?_
  cases t.items[p]? with
  | none => rfl
  | some v => rw [Option.filter_some, Option.any_some]

namespace SortsStably

variable (h : SortsStably lt t first last order)

include h

/-- Equivalent items are left in their order. -/
theorem filter_itemsIn (κ : Keying K V) (hlt : StrictWeak lt) (hle : first ≤ last)
    (hlast : last ≤ t.size) (v : V) :
    ((t.permuteRange κ first order).itemsIn first last).filter (equivalent lt v) =
      (t.itemsIn first last).filter (equivalent lt v) := by
  have hpositions : order.filter (fun p => t.items[p]?.any (equivalent lt v)) =
      (List.range' first (last - first)).filter fun p => t.items[p]?.any (equivalent lt v) := by
    refine List.Perm.eq_of_pairwise (fun p q _ _ hpq hqp => absurd hpq (Nat.lt_asymm hqp)) ?_
      (List.Pairwise.filter _ List.pairwise_lt_range') (h.perm.filter _)
    rw [List.pairwise_filter]
    refine h.stable.imp fun {p q} hpq hp hq => ?_
    obtain ⟨a, ha, hva⟩ := (Option.any_eq_true _ _).mp hp
    obtain ⟨b, hb, hvb⟩ := (Option.any_eq_true _ _).mp hq
    have hba := hlt.notLess_of_equivalent hvb hva
    rw [notLess, Bool.not_eq_true'] at hba
    exact hpq a b ha hb hba
  rw [(h.refillsRange κ hle hlast).itemsIn_eq, ← t.itemsAt_range' hlast, filter_itemsAt,
    filter_itemsAt, hpositions]

omit h in
/-- There is only one order in which a stable sort can put the positions. -/
theorem eq (h : SortsStably lt t first last order) {order' : List Nat}
    (h' : SortsStably lt t first last order') (hlast : last ≤ t.size) : order = order' := by
  refine List.Perm.eq_of_pairwise (fun p q hp hq hpq hqp => ?_) (h.sorted.and h.stable)
    (h'.sorted.and h'.stable) (h.perm.trans h'.perm.symm)
  -- two positions in both orders would be of equivalent items, and each before the other
  have hv := Array.getElem?_eq_getElem (h.lt_of_mem hlast hp)
  have hw := Array.getElem?_eq_getElem (h'.lt_of_mem hlast hq)
  have hlt := hpq.2 _ _ hv hw (hqp.1 _ _ hw hv)
  have hgt := hqp.2 _ _ hw hv (hpq.1 _ _ hv hw)
  exact absurd hlt (Nat.lt_asymm hgt)

end SortsStably

/-! ### Positions sorted with their items or keys -/

/-- The items of a range with their positions. -/
def numbered (t : Table V) (first last : Nat) : List (V × Nat) := (t.itemsIn first last).zipIdx first

/-- Items are sorted together with their positions. -/
theorem getElem?_of_mem_numbered (hlast : last ≤ t.size) {e : V × Nat}
    (he : e ∈ t.numbered first last) : t.items[e.2]? = some e.1 := by
  obtain ⟨hle, hitem⟩ := List.mem_zipIdx_iff_le_and_getElem?_sub.mp he
  have hlt := (List.getElem?_eq_some_iff.mp hitem).1
  rw [t.length_itemsIn hlast] at hlt
  rw [t.getElem?_itemsIn hlast hlt, Nat.add_sub_cancel' hle] at hitem
  exact hitem

/-- The positions of a range with the keys of their items, as a stable sort by keys puts them. -/
structure SortsKeyed {C : Type} (less : C → C → Bool) (g : V → C) (t : Table V) (first last : Nat)
    (pairs : List (C × Nat)) : Prop where
  perm : pairs.Perm ((t.numbered first last).map fun e => (g e.1, e.2))
  sorted : pairs.Pairwise fun a b => less b.1 a.1 = false
  stable : pairs.Pairwise fun a b => less a.1 b.1 = false → a.2 < b.2

/-- The positions are put in the order of the items. -/
theorem SortsKeyed.sortsStably {C : Type} {less : C → C → Bool} {g : V → C}
    {pairs : List (C × Nat)} (h : SortsKeyed less g t first last pairs) (hlast : last ≤ t.size) :
    SortsStably (fun v w => less (g v) (g w)) t first last (pairs.map Prod.snd) := by
  -- what is said of the keys is said of the items at their positions
  have hkey : ∀ a ∈ pairs, ∀ v, t.items[a.2]? = some v → a.1 = g v := fun a ha v hv => by
    obtain ⟨e, he, rfl⟩ := List.mem_map.mp (h.perm.mem_iff.mp ha)
    rw [getElem?_of_mem_numbered hlast he, Option.some.injEq] at hv
    rw [hv]
  refine ⟨⟨?_, ?_⟩, ?_⟩
  · have hpositions := h.perm.map Prod.snd
    rw [List.map_map] at hpositions
    rw [← t.numbered_snd hlast]
    exact hpositions
  · rw [List.pairwise_map]
    refine h.sorted.imp_of_mem fun {a b} ha hb hab v w hv hw => ?_
    rw [← hkey a ha v hv, ← hkey b hb w hw]
    exact hab
  · rw [List.pairwise_map]
    refine h.stable.imp_of_mem fun {a b} ha hb hab v w hv hw => ?_
    rw [← hkey a ha v hv, ← hkey b hb w hw]
    exact hab

/-- The positions of a range in the order in which the merge sort puts them. -/
def sortedOrder (lt : V → V → Bool) (t : Table V) (first last : Nat) : List Nat :=
  ((t.numbered first last).mergeSort (notLess fun a b => lt a.1 b.1)).map Prod.snd

/-- The merge sort is a correct stable sort. -/
theorem sortsStably_sortedOrder (hlt : StrictWeak lt) (hlast : last ≤ t.size) :
    SortsStably lt t first last (sortedOrder lt t first last) := by
  have hlt' := hlt.comap (Prod.fst : V × Nat → V)
  have hascending : (t.numbered first last).Pairwise fun a b => a.2 < b.2 := by
    have hnumbers : (t.numbered first last).map Prod.snd = List.range' first (last - first) :=
      t.numbered_snd hlast
    rw [← List.pairwise_map, hnumbers]
    exact List.pairwise_lt_range'
  have hkeyed : SortsKeyed lt id t first last
      ((t.numbered first last).mergeSort (notLess fun a b => lt a.1 b.1)) := by
    refine ⟨?_, hlt'.pairwise_mergeSort _, hlt'.pairwise_mergeSort_of hascending⟩
    rw [show (fun e : V × Nat => (id e.1, e.2)) = id from rfl, List.map_id]
    exact List.mergeSort_perm _ _
  exact hkeyed.sortsStably hlast

/-! ### The sorts of a table -/

section Order

variable {less : V → V → Action σ Bool} (hlength : 2 ≤ last - first) {s s' : σ}

include hlength

/-- A range of two items or more is permuted to the order that is found. -/
theorem step_sortRange_of_ok {sorted : List (V × Nat)}
    (h : (MergeSort.sort (fun a b : V × Nat => less a.1 b.1) (t.numbered first last)).step s =
      (.ok sorted, s')) :
    (sortRange κ first last less).step (t, s) =
      (.ok (), (t.permuteRange κ first (sorted.map Prod.snd), s')) := by
  unfold sortRange
  rw [if_pos hlength, Action.step_get_bind]
  have hstep : (Action.onSnd (MergeSort.sort (fun a b : V × Nat => less a.1 b.1)
      (t.numbered first last))).step (t, s) = (.ok sorted, (t, s')) := by
    rw [Action.step_onSnd, h]
  exact Action.step_bind_of_ok hstep _

/-- A range is left if the comparison fails. -/
theorem step_sortRange_of_error {fault : Fault}
    (h : (MergeSort.sort (fun a b : V × Nat => less a.1 b.1) (t.numbered first last)).step s =
      (.error fault, s')) :
    (sortRange κ first last less).step (t, s) = (.error fault, (t, s')) := by
  unfold sortRange
  rw [if_pos hlength, Action.step_get_bind]
  have hstep : (Action.onSnd (MergeSort.sort (fun a b : V × Nat => less a.1 b.1)
      (t.numbered first last))).step (t, s) = (.error fault, (t, s')) := by
    rw [Action.step_onSnd, h]
  exact Action.step_bind_of_error hstep _

end Order

/-- The order is that of the items if the comparison decides it, whatever else it does. -/
theorem step_sortRange {less : V → V → Action σ Bool} (hless : MergeSort.Decides less lt)
    (hlength : 2 ≤ last - first) (s : σ) : ∃ s', (sortRange κ first last less).step (t, s) =
      (.ok (), (t.permuteRange κ first (sortedOrder lt t first last), s')) := by
  have hpairs : MergeSort.Decides (fun a b : V × Nat => less a.1 b.1) fun a b => lt a.1 b.1 :=
    fun a b => hless a.1 b.1
  obtain ⟨s', -, hsort⟩ := MergeSort.step_sort hpairs (I := fun _ => True) (fun _ _ _ _ => trivial)
    (t.numbered first last) (s := s) trivial
  exact ⟨s', step_sortRange_of_ok hlength hsort⟩

/-- A range of fewer items is left. -/
theorem step_sortRange_of_lt {less : V → V → Action σ Bool} (hlength : last - first < 2) (s : σ) :
    (sortRange κ first last less).step (t, s) = (.ok (), (t, s)) := by
  unfold sortRange
  rw [if_neg (by omega)]
  rfl

/-! ### Sorts by keys -/

section Keys

variable {C : Type} {less : C → C → Bool} {f : V → Action σ C} {g : V → C}

/-- A function of the caller gives what `g` gives, whatever it does to the state. -/
def Gives {α : Type} (f : α → Action σ C) (g : α → C) : Prop := ∀ a s, ((f a).step s).1 = .ok (g a)

/-- What calling a function for each element in turn does to the state of the caller. -/
def callEach {α : Type} (f : α → Action σ C) (xs : List α) (s : σ) : σ :=
  xs.foldl (fun s a => ((f a).step s).2) s

/-- A function that gives keys answers them, and may change the state of the client. -/
theorem Gives.step {α : Type} {f : α → Action σ C} {g : α → C} (h : Gives f g) (a : α) (s : σ) :
    (f a).step s = (.ok (g a), ((f a).step s).2) :=
  Prod.ext (h a s) rfl

/-- Each element is paired with its key, and the function is called for it once. -/
theorem step_withKeys {α : Type} {f : α → Action σ C} {g : α → C} (h : Gives f g) (xs : List α)
    (s : σ) : (withKeys f xs).step s = (.ok (xs.map fun a => (g a, a)), callEach f xs s) := by
  induction xs generalizing s with
  | nil => rfl
  | cons a rest ih =>
    rw [withKeys, Action.step_bind_of_ok (h.step a s), Action.step_bind_of_ok (ih _)]
    rfl

/-- The comparison by keys that are computed anew. -/
theorem decides_lessByKey (less : C → C → Bool) (h : Gives f g) :
    MergeSort.Decides (lessByKey less f) fun a b => less (g a) (g b) := by
  intro a b s
  rw [lessByKey, Action.step_bind_of_ok (h.step a s), Action.step_bind_of_ok (h.step b _)]
  rfl

/-- The positions are put in one order by keys that are kept and by keys computed anew. -/
theorem sortedOrder_keyed (less : C → C → Bool) (g : V → C) (t : Table V) (first last : Nat) :
    (((t.numbered first last).map fun a => (g a.1, a)).mergeSort
      (notLess fun a b => less a.1 b.1)).map (fun c => c.2.2) =
        sortedOrder (fun a b => less (g a) (g b)) t first last := by
  have hkeyed := List.map_mergeSort (f := fun a : V × Nat => (g a.1, a))
    (r := notLess fun a b => less (g a.1) (g b.1)) (s := notLess fun a b => less a.1 b.1)
    (l := t.numbered first last) fun _ _ _ _ => rfl
  rw [← hkeyed, List.map_map]
  rfl

/-- The key of every item of the range is asked for once, before any are compared. -/
theorem step_sortRangeByCachedKey (h : Gives f g) (hlength : 2 ≤ last - first) (s : σ) :
    (sortRangeByCachedKey κ first last less f).step (t, s) =
      (.ok (), (t.permuteRange κ first (sortedOrder (fun a b => less (g a) (g b)) t first last),
        callEach f (t.itemsIn first last) s)) := by
  have hpairs : Gives (fun a : V × Nat => f a.1) fun a => g a.1 := fun a => h a.1
  -- the positions that come with the items do not matter to the calls
  have hcalls : callEach (fun a : V × Nat => f a.1) (t.numbered first last) s =
      callEach f (t.itemsIn first last) s := by
    rw [callEach, callEach, ← List.zipIdx_map_fst first (t.itemsIn first last), List.foldl_map]
    rfl
  unfold sortRangeByCachedKey
  rw [if_pos hlength, Action.step_get_bind, ← sortedOrder_keyed]
  -- the keys are asked for once, and then only keys are compared
  have hkeyed : (Action.onSnd (withKeys (fun a : V × Nat => f a.1) (t.numbered first last))).step
      (t, s) = (.ok ((t.numbered first last).map fun a => (g a.1, a)),
        (t, callEach f (t.itemsIn first last) s)) := by
    rw [Action.step_onSnd, step_withKeys hpairs, hcalls]
  have hsort : (Action.onSnd (MergeSort.sort (fun a b : C × V × Nat => pure (less a.1 b.1))
      ((t.numbered first last).map fun a => (g a.1, a)))).step
        (t, callEach f (t.itemsIn first last) s) =
          (.ok (((t.numbered first last).map fun a => (g a.1, a)).mergeSort
            (notLess fun a b => less a.1 b.1)), (t, callEach f (t.itemsIn first last) s)) := by
    rw [Action.step_onSnd, MergeSort.step_sort_pure fun a b : C × V × Nat => less a.1 b.1]
  exact (Action.step_bind_of_ok hkeyed _).trans (Action.step_bind_of_ok hsort _)

/-- No key is asked for if there is nothing to sort. -/
theorem step_sortRangeByCachedKey_of_lt (hlength : last - first < 2) (s : σ) :
    (sortRangeByCachedKey κ first last less f).step (t, s) = (.ok (), (t, s)) := by
  unfold sortRangeByCachedKey
  rw [if_neg (by omega)]
  rfl

end Keys

end Table

end OrderedHash
