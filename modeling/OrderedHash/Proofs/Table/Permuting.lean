import OrderedHash.Proofs.Table.Finding
import OrderedHash.Proofs.Table.Ranges

namespace OrderedHash

/-!
# Tables whose items are permuted

A change of a range leaves a table with other items in the place of those of the range
(`Table.RefillsRange`). In a permutation the item of position `first + i` comes from position
`order[i]` (`getElem?_permuteRangeBy_inside`), and its key is found at the new position, in
whichever way the index was brought in line (`Coherent.find_permuteRangeBy`). A range that is
reversed, by a permutation or in one walk over the buckets, has its items in the opposite order
(`Coherent.refillsRange_reverse`).
-/

namespace Table

variable {K V : Type} {κ : Keying K V} {t u : Table V} {first last : Nat} {middle : List V}

/-! ### Other items in the place of a range -/

/-- One table has the items `middle` in the place of those that another one has from `first` up
    to `last`. -/
structure RefillsRange (first last : Nat) (middle : List V) (t u : Table V) : Prop where
  le : first ≤ last
  le_size : last ≤ t.size
  length_eq : middle.length = last - first
  items_eq : u.items.toList = t.items.toList.take first ++ (middle ++ t.items.toList.drop last)

namespace RefillsRange

variable (r : RefillsRange first last middle t u)

include r

/-- There are as many items before the range as positions. -/
theorem length_take : (t.items.toList.take first).length = first :=
  List.length_take_of_le (r.le.trans r.le_size)

/-- There are as many items after a range was refilled. -/
theorem size_eq : u.size = t.size := by
  have hle := r.le
  have hlast : last ≤ t.items.size := r.le_size
  have hlength := congrArg List.length r.items_eq
  rw [List.length_append, List.length_append, r.length_take, r.length_eq, List.length_drop,
    Array.length_toList, Array.length_toList] at hlength
  show u.items.size = t.items.size
  omega

/-- The items before the range are kept. -/
theorem take_eq : u.items.toList.take first = t.items.toList.take first := by
  rw [r.items_eq, List.take_left' r.length_take]

/-- The items after the range are kept. -/
theorem drop_eq : u.items.toList.drop last = t.items.toList.drop last := by
  have hfront : (t.items.toList.take first ++ middle).length = last := by
    rw [List.length_append, r.length_take, r.length_eq, Nat.add_sub_cancel' r.le]
  rw [r.items_eq, ← List.append_assoc, List.drop_left' hfront]

/-- The items of the range are the new ones. -/
theorem itemsIn_eq : u.itemsIn first last = middle := by
  rw [itemsIn, Array.toList_extract, List.extract_eq_take_drop, r.items_eq,
    List.drop_left' r.length_take, List.take_left' r.length_eq]

/-- In the range are the items by which it was refilled. -/
theorem getElem?_inside {i : Nat} (hi : i < last - first) : u.items[first + i]? = middle[i]? := by
  have hsize : last ≤ u.size := by
    rw [r.size_eq]
    exact r.le_size
  have hlast : last ≤ u.items.size := hsize
  rw [← r.itemsIn_eq, itemsIn, Array.getElem?_toList, Array.getElem?_extract, if_pos (by omega)]

/-- Outside the range are the items of before. -/
theorem getElem?_outside {p : Nat} (hp : p < first ∨ last ≤ p) : u.items[p]? = t.items[p]? := by
  rcases hp with hp | hp
  · have hbefore := congrArg (fun vs : List V => vs[p]?) r.take_eq
    simpa only [List.getElem?_take, if_pos hp, Array.getElem?_toList] using hbefore
  · have hafter := congrArg (fun vs : List V => vs[p - last]?) r.drop_eq
    simpa only [List.getElem?_drop, Nat.add_sub_cancel' hp, Array.getElem?_toList] using hafter

/-- A range that is refilled again has the items of the second time. -/
theorem trans {v : Table V} {middle' : List V} (r' : RefillsRange first last middle' u v) :
    RefillsRange first last middle' t v where
  le := r.le
  le_size := r.le_size
  length_eq := r'.length_eq
  items_eq := by rw [r'.items_eq, r.take_eq, r.drop_eq]

/-- The keys outside the range are found where they were. -/
theorem find_outside (h : t.Coherent κ) (hu : u.Coherent κ) (hκ : κ.Lawful) {p : Nat}
    (hp : p < first ∨ last ≤ p) (k : K) : u.find κ k = some p ↔ t.find κ k = some p := by
  rw [h.find_eq_some hκ, hu.find_eq_some hκ, r.getElem?_outside hp]

/-- The keys of the new items are found where these are. -/
theorem find_inside (hu : u.Coherent κ) (hκ : κ.Lawful) {i : Nat} (hi : i < last - first) (k : K) :
    u.find κ k = some (first + i) ↔ ∃ v, middle[i]? = some v ∧ κ.same (κ.key v) k := by
  rw [hu.find_eq_some hκ, r.getElem?_inside hi]

/-- With the items of the range put back all items are as before. -/
theorem items_restored (hmiddle : middle = t.itemsIn first last) : u.items = t.items := by
  rw [← Array.toList_inj, r.items_eq, hmiddle, ← t.items_parts r.le]

end RefillsRange

/-- There are as many items in a range as positions. -/
theorem length_itemsIn (t : Table V) (hlast : last ≤ t.size) :
    (t.itemsIn first last).length = last - first := by
  have hmin : min last t.items.size = last := Nat.min_eq_left hlast
  rw [itemsIn, Array.length_toList, Array.size_extract, hmin]

/-- The items of a range are counted from its start. -/
theorem getElem?_itemsIn (t : Table V) (hlast : last ≤ t.size) {i : Nat} (hi : i < last - first) :
    (t.itemsIn first last)[i]? = t.items[first + i]? := by
  have hlast' : last ≤ t.items.size := hlast
  rw [itemsIn, Array.getElem?_toList, Array.getElem?_extract, if_pos (by omega)]

/-- The range of all positions has all items. -/
theorem itemsIn_whole (t : Table V) : t.itemsIn 0 t.size = t.items.toList := by
  simp [itemsIn, size]

/-- A range of fewer than two positions has one item or none. -/
theorem itemsIn_of_short (t : Table V) (hlast : last ≤ t.size) (hshort : last - first < 2) :
    t.itemsIn first last = [] ∨ ∃ v, t.itemsIn first last = [v] := by
  rw [← t.length_itemsIn hlast] at hshort
  rcases hitems : t.itemsIn first last with _ | ⟨v, _ | ⟨w, vs⟩⟩
  · exact Or.inl rfl
  · exact Or.inr ⟨v, rfl⟩
  · rw [hitems, List.length_cons, List.length_cons] at hshort
    omega

/-- The items of a range take the place of themselves. -/
theorem refillsRange_self (t : Table V) (hle : first ≤ last) (hlast : last ≤ t.size) :
    RefillsRange first last (t.itemsIn first last) t t :=
  ⟨hle, hlast, t.length_itemsIn hlast, t.items_parts hle⟩

/-! ### Permutations -/

section Permutation

variable {order : List Nat} (way : Repair)

/-- The items of the positions `order`. -/
def itemsAt (t : Table V) (order : List Nat) : List V := order.filterMap fun p => t.items[p]?

/-- There is an item for every position of the order. -/
theorem length_itemsAt (t : Table V) (h : ∀ p ∈ order, p < t.size) :
    (t.itemsAt order).length = order.length :=
  Index.length_filterMap h

/-- The items of an order are those at its positions, one by one. -/
theorem getElem?_itemsAt (t : Table V) (h : ∀ p ∈ order, p < t.size) (i : Nat) :
    (t.itemsAt order)[i]? = order[i]?.bind fun p => t.items[p]? :=
  Index.getElem?_filterMap h i

/-- The items of the positions of a range in their order. -/
theorem itemsAt_range' (t : Table V) (hlast : last ≤ t.size) :
    t.itemsAt (List.range' first (last - first)) = t.itemsIn first last := by
  have hmem : ∀ p ∈ List.range' first (last - first), p < t.size := fun p hp => by
    rw [List.mem_range'_1] at hp
    omega
  refine List.ext_getElem? fun i => ?_
  rw [t.getElem?_itemsAt hmem]
  by_cases hi : i < last - first
  · rw [List.getElem?_range' hi, t.getElem?_itemsIn hlast hi, Option.bind_some, Nat.one_mul]
  · rw [List.getElem?_eq_none, List.getElem?_eq_none, Option.bind_none]
    · rw [t.length_itemsIn hlast]
      omega
    · rw [List.length_range']
      omega

variable (hperm : order.Perm (List.range' first order.length)) (hle : first + order.length ≤ t.size)

include hperm hle

/-- There is an item at every position of the order. -/
theorem lt_of_mem_order {p : Nat} (hp : p ∈ order) : p < t.size := by
  have := (Index.mem_of_perm_range hperm p).mp hp
  omega

/-- The items of the positions `order` take the place of the range. -/
theorem refillsRange_permute : RefillsRange first (first + order.length) (t.itemsAt order) t
    (t.permuteRangeBy κ way first order) where
  le := Nat.le_add_right _ _
  le_size := hle
  length_eq := by
    rw [t.length_itemsAt fun _ => lt_of_mem_order hperm hle, Nat.add_sub_cancel_left]
  items_eq := by
    rw [items_permuteRangeBy, Index.permuted, Array.toList_append, Array.toList_append,
      List.append_assoc, toList_extract, Array.toList_extract, List.extract_eq_take_drop]
    rfl

/-- In the way that depends on the range as well. -/
theorem refillsRange_permuteRange (κ : Keying K V) :
    RefillsRange first (first + order.length) (t.itemsAt order) t (t.permuteRange κ first order) := by
  rw [permuteRange_eq]
  exact refillsRange_permute _ hperm hle

/-- A range is refilled by the items at the positions of the order. -/
theorem getElem?_permuteRangeBy_inside {i p : Nat} (hp : order[i]? = some p) :
    (t.permuteRangeBy κ way first order).items[first + i]? = t.items[p]? := by
  have hi : i < order.length := (List.getElem?_eq_some_iff.mp hp).1
  rw [(refillsRange_permute way hperm hle).getElem?_inside (by omega),
    t.getElem?_itemsAt fun _ => lt_of_mem_order hperm hle, hp, Option.bind_some]

example : Index.permuted #[7, 8, 9] 0 [2, 0, 1] = #[9, 7, 8] := by decide

/-- The key of an item is found at the position that the item has been given. -/
theorem Coherent.find_permuteRangeBy (h : t.Coherent κ) (hκ : κ.Lawful) (k : K) :
    (t.permuteRangeBy κ way first order).find κ k =
      (t.find κ k).map (Index.permutedTo first order) := by
  have hsize := (refillsRange_permute (κ := κ) way hperm hle).size_eq
  have hdrawn : Drawn _ t.items (Index.permuted t.items first order) :=
    Index.drawn_permuted hperm hle
  rw [← items_permuteRangeBy κ t way] at hdrawn
  refine h.find_eq_map (h.permuteRangeBy way hperm hle) hκ hdrawn (fun p hp => ?_) k
  rw [hsize]
  exact Index.permutedTo_inverse hperm hle p hp

end Permutation

/-! ### Reversals -/

/-- The positions of a range from the last one down. -/
def descending (first last : Nat) : List Nat := (List.range' first (last - first)).reverse

/-- What becomes of a position when a range is reversed. -/
def mirrored (first last p : Nat) : Nat :=
  if first ≤ p ∧ p < last then first + (last - 1 - p) else p

/-- A range has as many positions downwards. -/
theorem length_descending (first last : Nat) : (descending first last).length = last - first := by
  rw [descending, List.length_reverse, List.length_range']

/-- The items at the positions downwards are the reverse of those upwards. -/
theorem itemsAt_descending (t : Table V) (hlast : last ≤ t.size) :
    t.itemsAt (descending first last) = (t.itemsIn first last).reverse := by
  rw [itemsAt, descending, List.filterMap_reverse, ← t.itemsAt_range' hlast, itemsAt]

/-- The positions downwards are those of the range. -/
theorem descending_perm (first last : Nat) :
    (descending first last).Perm (List.range' first (descending first last).length) := by
  rw [length_descending]
  exact List.reverse_perm _

/-- A range is reversed by a permutation, in either way. -/
theorem refillsRange_descending (κ : Keying K V) (t : Table V) (way : Repair) (hle : first ≤ last)
    (hlast : last ≤ t.size) : RefillsRange first last (t.itemsIn first last).reverse t
      (t.permuteRangeBy κ way first (descending first last)) := by
  have hend : first + (descending first last).length = last := by
    rw [length_descending, Nat.add_sub_cancel' hle]
  have hrefills := refillsRange_permute (κ := κ) way (descending_perm first last)
    (hend.le.trans hlast)
  rwa [hend, t.itemsAt_descending hlast] at hrefills

/-- A range is reversed in the way that depends on it. -/
theorem refillsRange_reverse (κ : Keying K V) (t : Table V) (hle : first ≤ last)
    (hlast : last ≤ t.size) : RefillsRange first last (t.itemsIn first last).reverse t
      (t.reverseRange κ first last) := by
  rw [reverseRange]
  split
  -- a range of one item or none is its own reverse
  · rename_i hshort
    have hself : (t.itemsIn first last).reverse = t.itemsIn first last := by
      rcases t.itemsIn_of_short hlast hshort with hitems | ⟨v, hitems⟩ <;> rw [hitems] <;> rfl
    rw [hself]
    exact t.refillsRange_self hle hlast
  · split
    · rename_i hwhole
      obtain ⟨rfl, rfl⟩ := hwhole
      refine ⟨hle, hlast, ?_, ?_⟩
      · rw [List.length_reverse, t.length_itemsIn hlast]
      · rw [t.itemsIn_whole]
        simp [Table.size]
    · rw [permuteRange_eq]
      exact t.refillsRange_descending κ _ hle hlast

namespace RefillsRange

variable (r : RefillsRange first last (t.itemsIn first last).reverse t u)

include r

/-- A reversed range draws its items from the mirrored positions. -/
theorem drawn_mirrored : Drawn (mirrored first last) t.items u.items := by
  have hsize : u.items.size = t.items.size := r.size_eq
  have hlast : last ≤ t.items.size := r.le_size
  refine ⟨fun q hq => ?_, fun q hq => ?_, fun q hq q' hq' heq => ?_⟩
  · rw [mirrored]
    split <;> omega
  · rw [mirrored]
    split
    · -- the item is as far from the end of the range as its mirror image from the start
      rename_i hin
      obtain ⟨i, rfl⟩ := Nat.exists_eq_add_of_le hin.1
      have hi : i < last - first := by omega
      rw [r.getElem?_inside hi, List.getElem?_reverse (by rw [t.length_itemsIn r.le_size]; exact hi),
        t.length_itemsIn r.le_size, t.getElem?_itemsIn r.le_size (by omega)]
      congr 2
      omega
    · rename_i hout
      exact r.getElem?_outside (by omega)
  · rw [mirrored, mirrored] at heq
    split_ifs at heq <;> omega

/-- The keys of a reversed range are found at the mirrored positions. -/
theorem find_mirrored (h : t.Coherent κ) (hu : u.Coherent κ) (hκ : κ.Lawful) (k : K) :
    u.find κ k = (t.find κ k).map (mirrored first last) := by
  refine h.find_eq_map hu hκ r.drawn_mirrored (fun p hp => ?_) k
  have hlast := r.le_size
  rw [r.size_eq, mirrored, mirrored]
  split_ifs <;> omega

/-- A range that is reversed twice is as before. -/
theorem items_reversed_twice {v : Table V}
    (r' : RefillsRange first last (u.itemsIn first last).reverse u v) : v.items = t.items := by
  refine (r.trans r').items_restored ?_
  rw [r.itemsIn_eq, List.reverse_reverse]

end RefillsRange

end Table

end OrderedHash
