import OrderedHash.Proofs.Index.Positions

namespace OrderedHash

/-!
# Indexes of arrays

An array of items and an index are changed together. `Mirrors ix f xs` says that the index
stands for the positions of the array, where `f` gives the hash value of an item.

Apart from an insertion, every change of the array draws its items from those before:
`Drawn g xs ys` says that position `q` of `ys` has the item that `xs` has at `g q`, and no
item is drawn twice. The changes of the index were given by the same functions `g`, so that
both are put together by `Mirrors.drawn`.
-/

/-- The items of `ys` are drawn from those of `xs`, that at `q` from the position `g q`. -/
structure Drawn {α : Type} (g : Nat → Nat) (xs ys : Array α) : Prop where
  lt : ∀ q < ys.size, g q < xs.size
  eq : ∀ q < ys.size, ys[q]? = xs[g q]?
  inj : ∀ q < ys.size, ∀ r < ys.size, g q = g r → q = r

namespace Index

variable {α : Type} {xs ys : Array α}

/-! ### Items drawn from an array -/

/-- To insert at the end is to push. -/
theorem insertIdx_size (xs : Array α) (v : α) :
    xs.insertIdxIfInBounds xs.size v = xs.push v := by
  rw [Array.insertIdxIfInBounds, dif_pos le_rfl, ← Array.toList_inj, Array.toList_insertIdx,
    Array.toList_push, ← Array.length_toList, List.insertIdx_length_self]

/-- One item less is left after one was erased. -/
theorem size_eraseIdxIfInBounds {pos : Nat} (h : pos < xs.size) :
    (xs.eraseIdxIfInBounds pos).size = xs.size - 1 := by
  rw [Array.eraseIdxIfInBounds, dif_pos h]
  exact Array.size_eraseIdx ..

/-- An item is erased, and those after it move down. -/
theorem drawn_eraseIdx {pos : Nat} (h : pos < xs.size) :
    Drawn (skipping pos 1) xs (xs.eraseIdxIfInBounds pos) := by
  have hsize := size_eraseIdxIfInBounds h
  refine ⟨fun q hq => ?_, fun q hq => ?_, fun q _ r _ hqr => ?_⟩
  · rw [skipping]
    split <;> omega
  · rw [← Array.eraseIdx_eq_eraseIdxIfInBounds h, Array.getElem?_eraseIdx, skipping]
    split <;> rfl
  · rw [skipping, skipping] at hqr
    split_ifs at hqr <;> omega

/-- One item less is left after the last one took the place of another. -/
theorem size_setIfInBounds_pop (xs : Array α) (pos : Nat) (v : α) :
    ((xs.setIfInBounds pos v).pop).size = xs.size - 1 := by
  rw [Array.size_pop, Array.size_setIfInBounds]

/-- The last item takes the place of another one, or is only removed. -/
theorem drawn_refilling {pos : Nat} {v : α} (h : pos < xs.size) (hv : xs[xs.size - 1]? = some v) :
    Drawn (refilling pos (xs.size - 1)) xs ((xs.setIfInBounds pos v).pop) := by
  have hsize := size_setIfInBounds_pop xs pos v
  refine ⟨fun q hq => ?_, fun q hq => ?_, fun q hq r hr hqr => ?_⟩
  · rw [refilling]
    split <;> omega
  · rw [Array.getElem?_pop, Array.size_setIfInBounds, if_pos (by omega),
      Array.getElem?_setIfInBounds, refilling]
    by_cases hqp : q = pos
    · rw [if_pos hqp.symm, if_pos h, if_pos hqp, hv]
    · rw [if_neg (Ne.symm hqp), if_neg hqp]
  · rw [refilling, refilling] at hqr
    split_ifs at hqr <;> omega

/-- The items outside a range are left. -/
theorem size_extract_append {first last : Nat} (hle : first ≤ last) (hlast : last ≤ xs.size) :
    (xs.extract 0 first ++ xs.extract last).size = xs.size - (last - first) := by
  rw [Array.size_append, Array.size_extract, Array.size_extract]
  omega

/-- A range of items is removed, and those after it move down. -/
theorem drawn_extract {first last : Nat} (hle : first ≤ last) (hlast : last ≤ xs.size) :
    Drawn (skipping first (last - first)) xs (xs.extract 0 first ++ xs.extract last) := by
  have hsize := size_extract_append hle hlast
  have hfront : (xs.extract 0 first).size = first := by
    rw [Array.size_extract]
    omega
  refine ⟨fun q hq => ?_, fun q hq => ?_, fun q _ r _ hqr => ?_⟩
  · -- the items drawn are those of the front and of the back, and none is drawn twice
    rw [skipping]
    split <;> omega
  · rw [Array.getElem?_append, hfront, skipping]
    split
    · rw [Array.getElem?_extract, if_pos (by omega), Nat.zero_add]
    · rw [Array.getElem?_extract, if_pos (by omega)]
      congr 1
      omega
  · rw [skipping, skipping] at hqr
    split_ifs at hqr <;> omega

/-- All items are taken in reverse order. -/
theorem drawn_reverse (xs : Array α) : Drawn (fun q => xs.size - 1 - q) xs xs.reverse := by
  refine ⟨fun q hq => ?_, fun q hq => ?_, fun q hq r hr hqr => ?_⟩ <;>
    rw [Array.size_reverse] at hq
  · omega
  · exact Array.getElem?_reverse hq
  · rw [Array.size_reverse] at hr
    omega

/-- As many items are left after one was moved. -/
theorem size_moved {source target : Nat} {v : α} (hs : source < xs.size) (ht : target < xs.size) :
    ((xs.eraseIdxIfInBounds source).insertIdxIfInBounds target v).size = xs.size := by
  have hsize := size_eraseIdxIfInBounds hs
  rw [Array.insertIdxIfInBounds, dif_pos (by omega), Array.size_insertIdx]
  omega

/-- An item is taken out and put back elsewhere. -/
theorem drawn_moved {source target : Nat} {v : α} (hs : source < xs.size) (ht : target < xs.size)
    (hv : xs[source]? = some v) : Drawn (movedFrom source target) xs
      ((xs.eraseIdxIfInBounds source).insertIdxIfInBounds target v) := by
  have hsize := size_moved (v := v) hs ht
  have hinv := movedFrom_inverse hs ht
  have herase := size_eraseIdxIfInBounds hs
  refine ⟨fun q hq => ?_, fun q hq => ?_, fun q hq r hr hqr => ?_⟩
  · exact (hinv q (by omega)).1
  · rw [Array.insertIdxIfInBounds, dif_pos (by omega), Array.getElem?_insertIdx]
    rw [← Array.eraseIdx_eq_eraseIdxIfInBounds hs, Array.getElem?_eraseIdx,
      Array.getElem?_eraseIdx, movedFrom]
    have herase' : (xs.eraseIdx source hs).size = xs.size - 1 := Array.size_eraseIdx ..
    split_ifs <;> first | rfl | exact hv.symm | (congr 1; omega)
  · rw [← (hinv q (by omega)).2, hqr, (hinv r (by omega)).2]

/-- Two items are exchanged. -/
theorem drawn_swap {p q : Nat} (hp : p < xs.size) (hq : q < xs.size) :
    Drawn (exchanged p q) xs (xs.swapIfInBounds p q) := by
  have hinv := exchanged_inverse hp hq
  refine ⟨fun x hx => ?_, fun x hx => ?_, fun x hx y hy hxy => ?_⟩ <;>
    rw [Array.size_swapIfInBounds] at hx
  · exact (hinv x hx).1
  · rw [Array.swapIfInBounds_def, dif_pos hp, dif_pos hq, Array.getElem?_swap,
      ← Array.getElem?_eq_getElem hp, ← Array.getElem?_eq_getElem hq, exchanged]
    -- the two positions may be one and the same
    by_cases hxq : x = q
    · subst hxq
      by_cases hxp : x = p
      · rw [if_pos rfl, if_pos hxp, hxp]
      · rw [if_pos rfl, if_neg hxp, if_pos rfl]
    · by_cases hxp : x = p
      · rw [if_neg (Ne.symm hxq), if_pos hxp.symm, if_pos hxp]
      · rw [if_neg (Ne.symm hxq), if_neg (Ne.symm hxp), if_neg hxp, if_neg hxq]
  · rw [Array.size_swapIfInBounds] at hy
    rw [← (hinv x hx).2, hxy, (hinv y hy).2]

/-- The items at positions that are all in use. -/
theorem getElem?_filterMap {order : List Nat} (h : ∀ p ∈ order, p < xs.size) (i : Nat) :
    (order.filterMap fun p => xs[p]?)[i]? = order[i]?.bind fun p => xs[p]? := by
  induction order generalizing i with
  | nil => rfl
  | cons p rest ih =>
    have hp := Array.getElem?_eq_getElem (h p List.mem_cons_self)
    rw [List.filterMap_cons_some hp]
    cases i with
    | zero => rw [List.getElem?_cons_zero, List.getElem?_cons_zero, Option.bind_some, hp]
    | succ i =>
      rw [List.getElem?_cons_succ, List.getElem?_cons_succ]
      exact ih (fun q hq => h q (List.mem_cons_of_mem p hq)) i

/-- There is an item at every position of the order. -/
theorem length_filterMap {order : List Nat} (h : ∀ p ∈ order, p < xs.size) :
    (order.filterMap fun p => xs[p]?).length = order.length := by
  induction order with
  | nil => rfl
  | cons p rest ih =>
    have hp := Array.getElem?_eq_getElem (h p List.mem_cons_self)
    rw [List.filterMap_cons_some hp, List.length_cons, List.length_cons,
      ih fun q hq => h q (List.mem_cons_of_mem p hq)]

/-- The array in which the items from `first` on are those of the positions `order`. -/
def permuted (xs : Array α) (first : Nat) (order : List Nat) : Array α :=
  xs.extract 0 first ++ (order.filterMap fun p => xs[p]?).toArray ++
    xs.extract (first + order.length)

section

variable {first : Nat} {order : List Nat}

/-- As many items are left after a range was permuted. -/
theorem size_permuted (hperm : order.Perm (List.range' first order.length))
    (hle : first + order.length ≤ xs.size) : (permuted xs first order).size = xs.size := by
  have hmem : ∀ p ∈ order, p < xs.size := fun p hp => by
    have := (mem_of_perm_range hperm p).mp hp
    omega
  have hmiddle : ((order.filterMap fun p => xs[p]?).toArray).size = order.length := by
    rw [List.size_toArray, length_filterMap hmem]
  rw [permuted, Array.size_append, Array.size_append, Array.size_extract, Array.size_extract,
    hmiddle]
  omega

/-- A range of items is permuted. -/
theorem drawn_permuted (hperm : order.Perm (List.range' first order.length))
    (hle : first + order.length ≤ xs.size) :
    Drawn (permutedFrom first order) xs (permuted xs first order) := by
  have hsize := size_permuted hperm hle
  have hinv := permutedFrom_inverse hperm hle
  have hmem : ∀ p ∈ order, p < xs.size := fun p hp => by
    have := (mem_of_perm_range hperm p).mp hp
    omega
  refine ⟨fun q hq => ?_, fun q hq => ?_, fun q hq r hr hqr => ?_⟩
  · exact (hinv q (by omega)).1
  · have hfront : (xs.extract 0 first).size = first := by
      rw [Array.size_extract]
      omega
    have hmiddle : (xs.extract 0 first ++ (order.filterMap fun p => xs[p]?).toArray).size =
        first + order.length := by
      rw [Array.size_append, hfront, List.size_toArray, length_filterMap hmem]
    rw [permuted, Array.getElem?_append, hmiddle, permutedFrom]
    -- the three parts are those before the range, in it and after it
    by_cases hlast : q < first + order.length
    · rw [if_pos hlast, Array.getElem?_append, hfront]
      by_cases hfirst : q < first
      · rw [if_pos hfirst, if_pos hfirst, Array.getElem?_extract, if_pos (by omega), Nat.zero_add]
      · have hidx : q - first < order.length := by omega
        rw [if_neg hfirst, if_neg hfirst, List.getElem?_toArray, getElem?_filterMap hmem,
          List.getElem?_eq_getElem hidx, Option.bind_some, List.getD_eq_getElem _ _ hidx]
    · rw [if_neg hlast, if_neg (by omega), List.getD_eq_default _ _ (by omega),
        Array.getElem?_extract, if_pos (by omega)]
      congr 1
      omega
  · rw [← (hinv q (by omega)).2, hqr, (hinv r (by omega)).2]

end

/-! ### Indexes of arrays -/

/-- The hash value of the item at a position. -/
def valueAt (f : α → UInt64) (xs : Array α) (p : Nat) : UInt64 :=
  match xs[p]? with
  | some v => f v
  | none => 0

/-- The index stands for the positions of the array. -/
def Mirrors (ix : Index) (f : α → UInt64) (xs : Array α) : Prop :=
  ix.Indexes xs.size (valueAt f xs)

namespace Mirrors

variable {ix ix' : Index} {f : α → UInt64}

/-- Items are drawn from those before, and the hash values with them. -/
theorem drawn {g : Nat → Nat} {m : Nat} (h : ix'.Indexes m (valueAt f xs ∘ g)) (hm : ys.size = m)
    (hd : Drawn g xs ys) : ix'.Mirrors f ys := by
  rw [Mirrors, hm]
  refine h.congr fun p hp => ?_
  rw [Function.comp_apply, valueAt, valueAt, hd.eq p (by omega)]

/-- Items may be changed in ways that leave their hash values. -/
theorem congr (h : ix.Mirrors f xs) (hsize : ys.size = xs.size)
    (heq : ∀ p : Nat, ys[p]?.map f = xs[p]?.map f) : ix.Mirrors f ys := by
  rw [Mirrors, hsize]
  refine Indexes.congr h fun p _ => ?_
  have hp := heq p
  rw [valueAt, valueAt]
  cases hx : xs[p]? <;> cases hy : ys[p]? <;> simp_all

/-- An index mirrors the items after one was inserted. -/
theorem insertAt (h : ix.Mirrors f xs) {pos : Nat} (hpos : pos ≤ xs.size)
    (hsize : xs.size < Node.noPosition) (v : α) :
    (ix.insertAt pos xs.size (f v) (valueAt f xs)).Mirrors f (xs.insertIdxIfInBounds pos v) := by
  have hinsert := Indexes.insertAt h hpos hsize (f v)
  rw [Mirrors, Array.insertIdxIfInBounds, dif_pos hpos, Array.size_insertIdx]
  refine hinsert.congr fun p hp => ?_
  rw [insertedAt, valueAt, valueAt, valueAt, Array.getElem?_insertIdx]
  by_cases hlt : p < pos
  · rw [if_pos hlt, if_pos hlt]
  · by_cases heq : p = pos
    · rw [if_neg hlt, if_neg hlt, if_pos heq, if_pos heq, if_pos (by omega)]
    · rw [if_neg hlt, if_neg hlt, if_neg heq, if_neg heq]

/-- An item may be in the store already when its position is added at the end. -/
theorem push (h : ix.Mirrors f xs) (hsize : xs.size < Node.noPosition) (v : α) :
    (ix.insertAt xs.size xs.size (f v) (valueAt f (xs.push v))).Mirrors f (xs.push v) := by
  have hbefore : ix.Indexes xs.size (valueAt f (xs.push v)) := by
    refine Indexes.congr h fun p hp => ?_
    rw [valueAt, valueAt, Array.getElem?_push, if_neg (by omega)]
  have hinsert := Indexes.insertAt hbefore le_rfl hsize (f v)
  rw [Mirrors, Array.size_push]
  refine hinsert.congr fun p hp => ?_
  rw [insertedAt]
  by_cases hlt : p < xs.size
  · rw [if_pos hlt]
  · have heq : p = xs.size := by omega
    rw [if_neg hlt, if_pos heq, valueAt, heq, Array.getElem?_push_size]

/-- An index mirrors the items after one was erased. -/
theorem removeShifting (h : ix.Mirrors f xs) {pos : Nat} (hpos : pos < xs.size) :
    (ix.removeShifting pos xs.size (valueAt f xs)).Mirrors f (xs.eraseIdxIfInBounds pos) :=
  drawn (Indexes.removeShifting h hpos) (size_eraseIdxIfInBounds hpos) (drawn_eraseIdx hpos)

/-- An index mirrors the items after the last one took the place of another. -/
theorem removeSwapping (h : ix.Mirrors f xs) {pos : Nat} {v : α} (hpos : pos < xs.size)
    (hv : xs[xs.size - 1]? = some v) : (ix.removeSwapping pos xs.size (valueAt f xs)).Mirrors f
      ((xs.setIfInBounds pos v).pop) :=
  drawn (Indexes.removeSwapping h hpos) (size_setIfInBounds_pop xs pos v) (drawn_refilling hpos hv)

/-- An index mirrors the items after a range was removed. -/
theorem removeRange (h : ix.Mirrors f xs) {first last : Nat} (hle : first ≤ last)
    (hlast : last ≤ xs.size) : (ix.removeRange first last xs.size (valueAt f xs)).Mirrors f
      (xs.extract 0 first ++ xs.extract last) :=
  drawn (Indexes.removeRange h hle hlast) (size_extract_append hle hlast) (drawn_extract hle hlast)

/-- An index mirrors the items after they were reversed. -/
theorem reverse (h : ix.Mirrors f xs) : (ix.reversePositions xs.size).Mirrors f xs.reverse :=
  drawn (Indexes.reversePositions h) Array.size_reverse (drawn_reverse xs)

/-- An index mirrors the items after one was moved. -/
theorem move (h : ix.Mirrors f xs) {source target : Nat} {v : α} (hs : source < xs.size)
    (ht : target < xs.size) (hsize : xs.size ≤ Node.movingPosition) (hv : xs[source]? = some v) :
    (ix.move source target (valueAt f xs)).Mirrors f
      ((xs.eraseIdxIfInBounds source).insertIdxIfInBounds target v) :=
  drawn (Indexes.move h hs ht hsize) (size_moved hs ht) (drawn_moved hs ht hv)

/-- An index mirrors the items after two changed places. -/
theorem exchange (h : ix.Mirrors f xs) {p q : Nat} (hp : p < xs.size) (hq : q < xs.size)
    (hpq : p ≠ q) : (ix.exchange p q (valueAt f xs)).Mirrors f (xs.swapIfInBounds p q) :=
  drawn (Indexes.exchange h hp hq hpq) Array.size_swapIfInBounds (drawn_swap hp hq)

/-- An index mirrors the items after a range was permuted. -/
theorem permute (h : ix.Mirrors f xs) {first : Nat} {order : List Nat}
    (hperm : order.Perm (List.range' first order.length)) (hle : first + order.length ≤ xs.size) :
    (ix.permute first order (valueAt f xs)).Mirrors f (permuted xs first order) :=
  drawn (Indexes.permute h hperm hle) (size_permuted hperm hle) (drawn_permuted hperm hle)

end Mirrors

end Index

end OrderedHash
