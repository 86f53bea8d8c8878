import Mathlib.Data.List.InsertIdx
import OrderedHash.Proofs.Table.Ordering

namespace OrderedHash

/-!
# Where a key is found after a change

A key is found where it was as long as the keys stay in place (`Coherent.find_congr`), and
it is found at the new position of its item when the item is put elsewhere
(`Coherent.find_of_getElem?`, `Coherent.find_eq_bind`). An item that is added is found where it
was added, and a key whose item is removed is not found any more (`Coherent.find_removeAt`).
-/

namespace Table

variable {K V : Type} {κ : Keying K V} {t u : Table V}

/-- No key of the table equals `k`. -/
def Lacks (κ : Keying K V) (t : Table V) (k : K) : Prop := ∀ v ∈ t.items, κ.same (κ.key v) k = false

/-- An item that is stored at a position is given for it. -/
theorem itemAt_of_getElem? {p : Nat} {v : V} (h : t.items[p]? = some v) : t.itemAt p = .ok v := by
  rw [itemAt, h]

/-! ### Keys at positions -/

namespace Coherent

/-- Only the keys at the positions of the items matter to a lookup. -/
theorem find_eq_some_iff_key (h : t.Coherent κ) (hκ : κ.Lawful) (k : K) (p : Nat) :
    t.find κ k = some p ↔ ∃ c, t.items[p]?.map κ.key = some c ∧ κ.same c k := by
  rw [h.find_eq_some hκ]
  constructor
  · rintro ⟨v, hv, hsame⟩
    exact ⟨κ.key v, by rw [hv, Option.map_some], hsame⟩
  · rintro ⟨c, hc, hsame⟩
    obtain ⟨v, hv, rfl⟩ := Option.map_eq_some_iff.mp hc
    exact ⟨v, hv, hsame⟩

/-- Keys are found alike in coherent tables with the same keys at every position. -/
theorem find_congr (h : t.Coherent κ) (hu : u.Coherent κ) (hκ : κ.Lawful)
    (hkeys : ∀ p : Nat, u.items[p]?.map κ.key = t.items[p]?.map κ.key) (k : K) :
    u.find κ k = t.find κ k := by
  refine Option.ext fun p => ?_
  rw [hu.find_eq_some_iff_key hκ, h.find_eq_some_iff_key hκ, hkeys]

/-- The key of an item is found wherever the item is. -/
theorem find_of_getElem? (h : t.Coherent κ) (hu : u.Coherent κ) (hκ : κ.Lawful) {k : K} {p q : Nat}
    (hfind : t.find κ k = some p) (hitem : u.items[q]? = t.items[p]?) : u.find κ k = some q := by
  rw [h.find_eq_some hκ] at hfind
  rwa [hu.find_eq_some hκ, hitem]

/-- If the items that are left are put elsewhere the keys are found there, and no others are
    found. -/
theorem find_eq_bind (h : t.Coherent κ) (hu : u.Coherent κ) (hκ : κ.Lawful)
    {place : Nat → Option Nat} {g : Nat → Nat} (hdrawn : Drawn g t.items u.items)
    (hplace : ∀ p < t.size, ∀ q, place p = some q ↔ q < u.size ∧ g q = p) (k : K) :
    u.find κ k = (t.find κ k).bind place := by
  refine Option.ext fun q => ?_
  rw [Option.bind_eq_some_iff]
  constructor
  · intro hq
    have hlt := hu.lt_of_find hκ hq
    have hp := hu.find_of_getElem? h hκ hq (hdrawn.eq q hlt).symm
    exact ⟨g q, hp, (hplace _ (h.lt_of_find hκ hp) q).mpr ⟨hlt, rfl⟩⟩
  · rintro ⟨p, hp, hq⟩
    obtain ⟨hlt, rfl⟩ := (hplace p (h.lt_of_find hκ hp) q).mp hq
    exact h.find_of_getElem? hu hκ hp (hdrawn.eq q hlt)

/-- If all items are put elsewhere every key that was found is found again. -/
theorem find_eq_map (h : t.Coherent κ) (hu : u.Coherent κ) (hκ : κ.Lawful) {f g : Nat → Nat}
    (hdrawn : Drawn g t.items u.items) (hinv : ∀ p < t.size, f p < u.size ∧ g (f p) = p) (k : K) :
    u.find κ k = (t.find κ k).map f := by
  rw [Option.map_eq_bind]
  refine h.find_eq_bind hu hκ hdrawn (fun p hp q => ?_) k
  obtain ⟨hlt, hback⟩ := hinv p hp
  show some (f p) = some q ↔ q < u.size ∧ g q = p
  rw [Option.some_inj]
  constructor
  · rintro rfl
    exact ⟨hlt, hback⟩
  · rintro ⟨hq, heq⟩
    exact hdrawn.inj _ hlt q hq (hback.trans heq.symm)

/-! ### Added items -/

/-- An item that was added is found where it was added. -/
theorem find_insertAt {pos : Nat} {hash : UInt64} {v : V}
    (hu : (t.insertAt κ pos hash v).Coherent κ) (hκ : κ.Lawful) (hpos : pos ≤ t.size) :
    (t.insertAt κ pos hash v).find κ (κ.key v) = some pos := by
  have hpos : pos ≤ t.items.size := hpos
  refine (hu.find_eq_some hκ _ _).mpr ⟨v, ?_, hκ.refl _⟩
  show (t.items.insertIdxIfInBounds pos v)[pos]? = some v
  rw [Array.insertIdxIfInBounds, dif_pos hpos, Array.getElem?_insertIdx_self]

end Coherent

/-! ### Removed items -/

namespace Removal

/-- The items of a list after the one at a position was removed. -/
def without (way : Removal) (pos : Nat) (items : List V) : List V :=
  match way with
  | .shift => items.eraseIdx pos
  | .swap => (items.getLast?.elim items fun last => items.set pos last).dropLast

/-- The position that an item has once the one at `pos` of `size` positions was removed, unless
    it is that item. -/
def place (way : Removal) (size pos p : Nat) : Option Nat :=
  if p = pos then none
  else match way with
    | .shift => some (if pos < p then p - 1 else p)
    | .swap => some (if p = size - 1 then pos else p)

/-- An item is at its new place after a removal if it was not the one removed. -/
theorem place_eq_some (way : Removal) {size pos p : Nat} (hpos : pos < size) (hp : p < size)
    (q : Nat) : way.place size pos p = some q ↔ q < size - 1 ∧ way.origin size pos q = p := by
  unfold place
  cases way with
  | shift =>
    simp only [origin, Index.skipping]
    split_ifs <;> simp <;> omega
  | swap =>
    simp only [origin, Index.refilling]
    split_ifs <;> simp <;> omega

end Removal

variable {pos : Nat}

/-- One item less is left after a removal in either way. -/
theorem size_removeAt (κ : Keying K V) (t : Table V) (way : Removal) (hpos : pos < t.size) :
    (t.removeAt κ way pos).size = t.size - 1 := by
  cases way with
  | shift => exact Index.size_eraseIdxIfInBounds hpos
  | swap =>
    have hv := Array.getElem?_eq_getElem (Nat.sub_lt (Nat.zero_lt_of_lt hpos) Nat.one_pos)
    show (t.removeSwapping κ pos).items.size = _
    rw [items_removeSwapping κ t pos hv, Index.size_setIfInBounds_pop]
    rfl

/-- The list of items is left without the one that was removed. -/
theorem toList_removeAt (κ : Keying K V) (t : Table V) (way : Removal) (pos : Nat) :
    (t.removeAt κ way pos).items.toList = way.without pos t.items.toList := by
  cases way with
  | shift => exact Array.toList_eraseIdxIfInBounds
  | swap =>
    show (t.removeSwapping κ pos).items.toList = _
    rw [Removal.without, Array.getLast?_toList, removeSwapping]
    cases t.items.back? <;> simp

/-- The item at a position is answered and removed. -/
theorem step_takeAt (way : Removal) {v : V} (hv : t.items[pos]? = some v) :
    (takeAt κ way pos).step t = (.ok (some v), t.removeAt κ way pos) := by
  unfold takeAt
  rw [Action.step_get_bind, hv]
  rfl

/-- Nothing is removed past the end. -/
theorem step_takeAt_of_le (way : Removal) (hpos : t.size ≤ pos) :
    (takeAt κ way pos).step t = (.ok none, t) := by
  unfold takeAt
  rw [Action.step_get_bind, Array.getElem?_eq_none hpos]
  rfl

/-- To take the item with a key is to take the one at its position. -/
theorem step_takeKey_of_find (way : Removal) {k : K} (haccepted : κ.refusal k = none)
    (hfind : t.find κ k = some pos) : (takeKey κ way k).step t = (takeAt κ way pos).step t := by
  unfold takeKey
  rw [Action.step_get_bind, lookup_of_none haccepted, hfind]
  rfl

/-- Nothing is removed for a key that is absent. -/
theorem step_takeKey_of_absent (way : Removal) {k : K} (haccepted : κ.refusal k = none)
    (hfind : t.find κ k = none) : (takeKey κ way k).step t = (.ok none, t) := by
  unfold takeKey
  rw [Action.step_get_bind, lookup_of_none haccepted, hfind]
  rfl

/-- A key is found where its item is after a removal, unless it is the item removed. -/
theorem Coherent.find_removeAt (h : t.Coherent κ) (hκ : κ.Lawful) (way : Removal)
    (hpos : pos < t.size) (k : K) :
    (t.removeAt κ way pos).find κ k = (t.find κ k).bind (way.place t.size pos) := by
  refine h.find_eq_bind (h.removeAt way hpos) hκ (drawn_removeAt κ t way hpos)
    (fun p hp q => ?_) k
  rw [size_removeAt κ t way hpos]
  exact way.place_eq_some hpos hp q

/-- A key whose item is removed is not found any more. -/
theorem Coherent.find_removeAt_self (h : t.Coherent κ) (hκ : κ.Lawful) (way : Removal) {k : K}
    (hfind : t.find κ k = some pos) : (t.removeAt κ way pos).find κ k = none := by
  rw [h.find_removeAt hκ way (h.lt_of_find hκ hfind), hfind]
  exact if_pos rfl

/-! ### Items put elsewhere -/

/-- An item that is moved to a position of the table is taken out and put back there. -/
theorem step_moveIndex_toList {source target : Nat} (hs : source < t.size) (ht : target < t.size)
    {v : V} (hv : t.items[source]? = some v) :
    ∃ u, (moveIndex κ source target).step t = (.ok (), u) ∧ (t.Coherent κ → u.Coherent κ) ∧
      u.items.toList = (t.items.toList.eraseIdx source).insertIdx target v := by
  unfold moveIndex checkPosition
  rw [Action.step_get_bind, Action.step_demand_bind (decide_eq_true hs),
    Action.step_demand_bind (decide_eq_true ht)]
  split
  · exact ⟨_, rfl, fun h => h.moved hs ht, toList_moved κ t target hv⟩
  · rename_i heq
    obtain rfl : source = target := not_not.mp heq
    obtain ⟨hlt, rfl⟩ := Array.getElem?_eq_some_iff.mp hv
    exact ⟨t, rfl, id, (List.insertIdx_eraseIdx_getElem hlt).symm⟩

/-- An item that is moved to a position of the table arrives there. -/
theorem step_moveIndex {source target : Nat} (hs : source < t.size) (ht : target < t.size) :
    ∃ u, (moveIndex κ source target).step t = (.ok (), u) ∧
      u.items[target]? = t.items[source]? := by
  have hv := Array.getElem?_eq_getElem hs
  obtain ⟨u, hstep, -, hitems⟩ := step_moveIndex_toList (κ := κ) hs ht hv
  have hlength : target ≤ (t.items.toList.eraseIdx source).length := by
    rw [List.length_eraseIdx_of_lt hs]
    exact Nat.le_sub_one_of_lt ht
  refine ⟨u, hstep, ?_⟩
  rw [← Array.getElem?_toList, hitems, List.getElem?_insertIdx_self, if_pos hlength, hv]

/-- A key is found where its item is after an item was moved. -/
theorem Coherent.find_moved (h : t.Coherent κ) (hu : u.Coherent κ) (hκ : κ.Lawful)
    {source target : Nat} (hs : source < t.size) (ht : target < t.size) {v : V}
    (hv : t.items[source]? = some v)
    (hitems : u.items.toList = (t.items.toList.eraseIdx source).insertIdx target v) (k : K) :
    u.find κ k = (t.find κ k).map (Index.movedFrom target source) := by
  have hmoved : u.items = (t.items.eraseIdxIfInBounds source).insertIdxIfInBounds target v := by
    rw [← Array.toList_inj, hitems, toList_insertIdxIfInBounds, Array.toList_eraseIdxIfInBounds]
  have hdrawn := Index.drawn_moved hs ht hv
  rw [← hmoved] at hdrawn
  have hsize : u.size = t.size := (congrArg Array.size hmoved).trans (Index.size_moved hs ht)
  refine h.find_eq_map hu hκ hdrawn (fun p hp => ?_) k
  rw [hsize]
  exact Index.movedFrom_inverse ht hs p hp

/-- Two items of the table are exchanged. -/
theorem step_swapIndices_swap {p q : Nat} (hp : p < t.size) (hq : q < t.size) :
    ∃ u, (swapIndices κ p q).step t = (.ok (), u) ∧ (t.Coherent κ → u.Coherent κ) ∧
      u.items = t.items.swapIfInBounds p q := by
  unfold swapIndices checkPosition
  rw [Action.step_get_bind, Action.step_demand_bind (decide_eq_true hp),
    Action.step_demand_bind (decide_eq_true hq)]
  split
  · rename_i hne
    exact ⟨_, rfl, fun h => h.exchanged hp hq hne, rfl⟩
  · rename_i heq
    obtain rfl : p = q := not_not.mp heq
    refine ⟨t, rfl, id, ?_⟩
    have hv := Array.getElem?_eq_getElem hp
    rw [← Array.toList_inj, toList_swapIfInBounds hv hv, List.set_set]
    exact (List.set_getElem_self hp).symm

/-- Two items of the table that are exchanged arrive at the position of each other. -/
theorem step_swapIndices {p q : Nat} (hp : p < t.size) (hq : q < t.size) :
    ∃ u, (swapIndices κ p q).step t = (.ok (), u) ∧ u.items[q]? = t.items[p]? := by
  obtain ⟨u, hstep, -, hitems⟩ := step_swapIndices_swap (κ := κ) hp hq
  refine ⟨u, hstep, ?_⟩
  rw [hitems, (Index.drawn_swap hp hq).eq q (Array.size_swapIfInBounds.symm ▸ hq), Index.exchanged]
  split
  · rename_i heq
    rw [heq]
  · rw [if_pos rfl]

/-- A key is found where its item is after two items were exchanged. -/
theorem Coherent.find_swapped (h : t.Coherent κ) (hu : u.Coherent κ) (hκ : κ.Lawful) {p q : Nat}
    (hp : p < t.size) (hq : q < t.size) (hitems : u.items = t.items.swapIfInBounds p q) (k : K) :
    u.find κ k = (t.find κ k).map (Index.exchanged p q) := by
  have hdrawn := Index.drawn_swap hp hq
  rw [← hitems] at hdrawn
  have hsize : u.size = t.size := (congrArg Array.size hitems).trans Array.size_swapIfInBounds
  refine h.find_eq_map hu hκ hdrawn (fun x hx => ?_) k
  rw [hsize]
  exact Index.exchanged_inverse hp hq x hx

/-- Nothing is moved to a position out of range. -/
theorem step_moveIndex_of_le {source target : Nat} (hs : source < t.size) (ht : t.size ≤ target) :
    (moveIndex κ source target).step t = (.error .positionOutOfRange, t) := by
  unfold moveIndex checkPosition
  rw [Action.step_get_bind, Action.step_demand_bind (decide_eq_true hs),
    decide_eq_false (Nat.not_lt.mpr ht)]
  rfl

/-- Nothing is exchanged with a position out of range. -/
theorem step_swapIndices_of_le {p q : Nat} (hp : p < t.size) (hq : t.size ≤ q) :
    (swapIndices κ p q).step t = (.error .positionOutOfRange, t) := by
  unfold swapIndices checkPosition
  rw [Action.step_get_bind, Action.step_demand_bind (decide_eq_true hp),
    decide_eq_false (Nat.not_lt.mpr hq)]
  rfl

end Table

end OrderedHash
