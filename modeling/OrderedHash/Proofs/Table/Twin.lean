import OrderedHash.Proofs.Agree
import OrderedHash.Proofs.Table.Changes

namespace OrderedHash

/-!
# Tables that differ in their indexes only

A container may be run with another hash function on the same keys (`Keying.hashedBy`).
Two tables are `Twin` if they hold the same items and each is coherent under its own hash
function. Nothing relates their indexes. Which keys they may hold besides is up to the
`Variant`, as long as it admits those on which the hash functions do not fail.

A key is found at one place in both (`Twin.find_eq`), and each change of one table that is
also made to the other leaves twins.
-/

/-- The hash function of the second of two twins, and the keys that they may hold. -/
structure Variant (K : Type) where
  hash : K → UInt64
  Holds : K → Prop

namespace Keying

variable {K V : Type}

/-- The keying with another hash function. -/
def hashedBy (κ : Keying K V) (g : Variant K) : Keying K V := { κ with hash := g.hash }

/-- Another hash function fails on the same keys. -/
theorem refusal_hashedBy (κ : Keying K V) (g : Variant K) {k : K} {refusal : Option Fault}
    (h : κ.refusal k = refusal) : (κ.hashedBy g).refusal k = refusal :=
  h

/-- The hash function of a container and another one both go with the equality of its
    keys, a refreshed item keeps its key, and keys that are accepted may be held. -/
structure Admits (κ : Keying K V) (g : Variant K) : Prop where
  lawful : κ.Lawful
  lawful' : (κ.hashedBy g).Lawful
  key_refresh : ∀ stored given, κ.key (κ.refresh stored given) = κ.key stored
  holds : ∀ k, κ.refusal k = none → g.Holds k

end Keying

namespace Table

variable {K V σ : Type}

/-! ### Keys on which the hash function fails or does not fail -/

/-- There is no hash value for a key on which the hash function fails. -/
theorem accept_of_refusal {κ : Hashing K} {k : K} {fault : Fault} (h : κ.refusal k = some fault) :
    κ.accept k = .error fault := by
  rw [Hashing.accept, h]

/-- There is a hash value for every other key. -/
theorem accept_of_none {κ : Hashing K} {k : K} (h : κ.refusal k = none) :
    κ.accept k = .ok (κ.hash k) := by
  rw [Hashing.accept, h]

/-- A key on which the hash function fails cannot be looked up. -/
theorem lookup_of_refusal {κ : Keying K V} {t : Table V} {k : K} {fault : Fault}
    (h : κ.refusal k = some fault) : t.lookup κ k = .error fault := by
  rw [lookup, accept_of_refusal h]
  rfl

/-- Every other key is found or not. -/
theorem lookup_of_none {κ : Keying K V} {t : Table V} {k : K} (h : κ.refusal k = none) :
    t.lookup κ k = .ok (t.find κ k) := by
  rw [lookup, accept_of_none h]
  rfl

/-- An item that is given for a position is stored there. -/
theorem getElem?_of_itemAt {t : Table V} {p : Nat} {v : V} (h : t.itemAt p = .ok v) :
    t.items[p]? = some v := by
  unfold itemAt at h
  cases hv : t.items[p]? with
  | none =>
    rw [hv] at h
    cases h
  | some w =>
    rw [hv] at h
    cases h
    rfl

/-! ### Items where the strategy depends on sizes -/

/-- The items before and behind a range are left, however it is removed. -/
theorem items_removeRange (κ : Keying K V) (t : Table V) (first last : Nat) :
    (t.removeRange κ first last).items = t.items.extract 0 first ++ t.items.extract last := by
  rw [removeRange_eq, items_removeRangeBy]

/-- The items of a table that was made compact are those that were kept. -/
theorem items_compacted (κ : Keying K V) (t : Table V) (items : Array V) :
    (t.compacted κ items).items = items := by
  unfold compacted
  split <;> rfl

/-- The items of a range come in the order of their positions, however the index is repaired. -/
theorem items_permuteRange (κ : Keying K V) (t : Table V) (first : Nat) (order : List Nat) :
    (t.permuteRange κ first order).items = Index.permuted t.items first order := by
  rw [permuteRange_eq, items_permuteRangeBy]

/-! ### Twins -/

/-- Tables with the same items, whose keys they may hold, each of them coherent under a hash
    function of its own. -/
structure Twin (κ : Keying K V) (g : Variant K) (t t' : Table V) : Prop where
  admits : κ.Admits g
  items : t'.items = t.items
  held : AllKeys κ g.Holds t.items
  left : t.Coherent κ
  right : t'.Coherent (κ.hashedBy g)

namespace Twin

variable {κ : Keying K V} {g : Variant K} {t t' : Table V}

/-- Twins, each with the same client state. -/
theorem beside (h : Twin κ g t t') (s : σ) : Action.Beside (Twin κ g) (t, s) (t', s) := ⟨h, rfl⟩

/-! ### What is read from twins -/

/-- Twins are of one size. -/
theorem size_eq (h : Twin κ g t t') : t'.size = t.size := congrArg Array.size h.items

/-- Twins find a key at the same position. -/
theorem find_eq (h : Twin κ g t t') (k : K) : t'.find (κ.hashedBy g) k = t.find κ k := by
  refine Option.ext fun p => ?_
  have hleft := h.left.find_eq_some h.admits.lawful k p
  have hright := h.right.find_eq_some h.admits.lawful' k p
  rw [h.items] at hright
  exact hright.trans hleft.symm

/-- A key is looked up in twins with the same result, which may be a failure. -/
theorem lookup_eq (h : Twin κ g t t') (k : K) :
    t'.lookup (κ.hashedBy g) k = t.lookup κ k := by
  cases hrefusal : κ.refusal k with
  | some fault => rw [lookup_of_refusal hrefusal, lookup_of_refusal (κ.refusal_hashedBy g hrefusal)]
  | none =>
    rw [lookup_of_none hrefusal, lookup_of_none (κ.refusal_hashedBy g hrefusal), h.find_eq]

/-- The stored item with a key is the same in twins. -/
theorem lookupItem_eq (h : Twin κ g t t') (k : K) :
    t'.lookupItem (κ.hashedBy g) k = t.lookupItem κ k := by
  rw [lookupItem, lookupItem, h.lookup_eq, h.items]

/-- Twins contain the same keys. -/
theorem contains_eq (h : Twin κ g t t') (k : K) :
    t'.contains (κ.hashedBy g) k = t.contains κ k := by
  rw [contains, contains, h.lookup_eq]

/-- The item at a position is the same in twins. -/
theorem itemAt_eq (h : Twin κ g t t') (p : Nat) : t'.itemAt p = t.itemAt p := by
  rw [itemAt, itemAt, h.items]

/-- The items in a range are the same in twins. -/
theorem itemsIn_eq (h : Twin κ g t t') (first last : Nat) :
    t'.itemsIn first last = t.itemsIn first last := by
  rw [itemsIn, itemsIn, h.items]

/-! ### One table alone -/

/-- The index of the first table may be rebuilt in any way. -/
theorem withLeft (h : Twin κ g t t') {u : Table V} (hu : u.Coherent κ) (heq : u.items = t.items) :
    Twin κ g u t' :=
  ⟨h.admits, h.items.trans heq.symm, heq ▸ h.held, hu, h.right⟩

/-- The index of the second table may be rebuilt in any way. -/
theorem withRight (h : Twin κ g t t') {u : Table V} (hu : u.Coherent (κ.hashedBy g))
    (heq : u.items = t'.items) : Twin κ g t u :=
  ⟨h.admits, heq.trans h.items, h.held, h.left, hu⟩

/-! ### Changes made to both tables -/

/-- Twins stay twins when room is made in both, not necessarily for as many items. -/
theorem reserve (h : Twin κ g t t') (count count' : Nat) :
    Twin κ g (t.reserve κ count) (t'.reserve (κ.hashedBy g) count') :=
  (h.withLeft (h.left.reserve count) rfl).withRight (h.right.reserve count') rfl

/-- Twins stay twins when both are rehashed. -/
theorem rehash (h : Twin κ g t t') : Twin κ g (t.rehash κ) (t'.rehash (κ.hashedBy g)) :=
  (h.withLeft h.left.rehash rfl).withRight h.right.rehash rfl

/-- Twins stay twins when both are shrunk. -/
theorem shrinkToFit (h : Twin κ g t t') :
    Twin κ g (t.shrinkToFit κ) (t'.shrinkToFit (κ.hashedBy g)) :=
  (h.withLeft h.left.shrinkToFit rfl).withRight h.right.shrinkToFit rfl

/-- Twins stay twins when the load factor of both is set, not necessarily alike. -/
theorem setLoadFactor (h : Twin κ g t t') (f f' : LoadFactor) :
    Twin κ g (t.setLoadFactor f) (t'.setLoadFactor f') :=
  (h.withLeft (h.left.setLoadFactor f) rfl).withRight (h.right.setLoadFactor f') rfl

/-- Empty tables are twins, whatever their load factors. -/
theorem empty (hκ : κ.Admits g) (f f' : LoadFactor) :
    Twin κ g (Table.empty f) (Table.empty f') :=
  ⟨hκ, rfl, .empty κ g.Holds, Coherent.empty κ f, Coherent.empty _ f'⟩

/-- Empty tables with room for items are twins. -/
theorem withCapacity (hκ : κ.Admits g) (count : Nat) :
    Twin κ g (Table.withCapacity κ count) (Table.withCapacity (κ.hashedBy g) count) :=
  (empty hκ .standard .standard).reserve count count

/-- Tables that lost all their items are twins, whatever they held. -/
theorem clear (h : Twin κ g t t') : Twin κ g t.clear t'.clear :=
  ⟨h.admits, rfl, .empty κ g.Holds, h.left.clear, h.right.clear⟩

/-- An item whose key is absent is added to both. -/
theorem insertAt (h : Twin κ g t t') {pos : Nat} (hpos : pos ≤ t.size) {v : V}
    (hv : g.Holds (κ.key v)) (habsent : t.find κ (κ.key v) = none)
    (hsmall : (t.insertAt κ pos (κ.hash (κ.key v)) v).size < Node.movingPosition) :
    Twin κ g (t.insertAt κ pos (κ.hash (κ.key v)) v)
      (t'.insertAt (κ.hashedBy g) pos (g.hash (κ.key v)) v) := by
  have hitems : t'.items.insertIdxIfInBounds pos v = t.items.insertIdxIfInBounds pos v := by
    rw [h.items]
  refine ⟨h.admits, hitems, h.held.insertIdx pos hv,
    h.left.insertAt h.admits.lawful hpos habsent hsmall, ?_⟩
  refine h.right.insertAt h.admits.lawful' (h.size_eq.symm ▸ hpos) ((h.find_eq _).trans habsent) ?_
  show (t'.items.insertIdxIfInBounds pos v).size < Node.movingPosition
  rw [hitems]
  exact hsmall

/-- One item is changed by a function that leaves its key. -/
theorem modify (h : Twin κ g t t') (pos : Nat) {f : V → V} (hf : ∀ v, κ.key (f v) = κ.key v) :
    Twin κ g { t with items := t.items.modify pos f }
      { t' with items := t'.items.modify pos f } := by
  refine ⟨h.admits, ?_, h.held.congr fun p => ?_, h.left.modify pos hf, h.right.modify pos hf⟩
  · show t'.items.modify pos f = t.items.modify pos f
    rw [h.items]
  · exact map_key_modify t.items pos hf p

/-- Twins stay twins when the item at a position of both is refreshed. -/
theorem refreshAt (h : Twin κ g t t') (pos : Nat) (v : V) :
    Twin κ g (t.refreshAt κ pos v) (t'.refreshAt (κ.hashedBy g) pos v) :=
  h.modify pos fun stored => h.admits.key_refresh stored v

/-- An item is replaced by another one whose key equals its key. -/
theorem setItem (h : Twin κ g t t') {pos : Nat} {v : V} (hheld : g.Holds (κ.key v))
    (hv : ∀ w, t.items[pos]? = some w → κ.same (κ.key w) (κ.key v)) :
    Twin κ g (t.setItem pos v) (t'.setItem pos v) := by
  refine ⟨h.admits, ?_, h.held.setIfInBounds pos hheld, h.left.setItem h.admits.lawful hv,
    h.right.setItem h.admits.lawful' ?_⟩
  · show t'.items.setIfInBounds pos v = t.items.setIfInBounds pos v
    rw [h.items]
  · rw [h.items]
    exact hv

/-- Twins stay twins when the item at a position of both is removed. -/
theorem removeAt (h : Twin κ g t t') (way : Removal) {pos : Nat} (hpos : pos < t.size) :
    Twin κ g (t.removeAt κ way pos) (t'.removeAt (κ.hashedBy g) way pos) := by
  refine ⟨h.admits, ?_, ?_, h.left.removeAt way hpos, h.right.removeAt way (h.size_eq.symm ▸ hpos)⟩
  · cases way with
    | shift =>
      show t'.items.eraseIdxIfInBounds pos = t.items.eraseIdxIfInBounds pos
      rw [h.items]
    | swap =>
      show (t'.removeSwapping (κ.hashedBy g) pos).items = (t.removeSwapping κ pos).items
      unfold removeSwapping
      rw [h.items]
  · exact h.held.drawn (drawn_removeAt κ t way hpos)

/-- Twins stay twins when a range of both is removed. -/
theorem removeRange (h : Twin κ g t t') {first last : Nat} (hle : first ≤ last)
    (hlast : last ≤ t.size) :
    Twin κ g (t.removeRange κ first last) (t'.removeRange (κ.hashedBy g) first last) := by
  refine ⟨h.admits, ?_, ?_, h.left.removeRange hle hlast,
    h.right.removeRange hle (h.size_eq.symm ▸ hlast)⟩
  · rw [items_removeRange, items_removeRange, h.items]
  · rw [items_removeRange]
    exact h.held.drawn (Index.drawn_extract hle hlast)

/-- The items from a position on, as tables of their own. -/
theorem splitPart (h : Twin κ g t t') (pos : Nat) (f f' : LoadFactor) :
    Twin κ g
      ⟨t.items.extract pos, (Index.null f).rebuild (t.items.extract pos).size
        (hashAt κ (t.items.extract pos))⟩
      ⟨t'.items.extract pos, (Index.null f').rebuild (t'.items.extract pos).size
        (hashAt (κ.hashedBy g) (t'.items.extract pos))⟩ := by
  refine ⟨h.admits, ?_, h.held.drawn (drawn_extract_from t.items pos), h.left.splitPart pos f,
    h.right.splitPart pos f'⟩
  show t'.items.extract pos = t.items.extract pos
  rw [h.items]

/-- Some items are kept, perhaps changed, in their order and with their keys. -/
theorem compacted (h : Twin κ g t t') {items : Array V}
    (hsub : (items.toList.map κ.key).Sublist (t.items.toList.map κ.key)) :
    Twin κ g (t.compacted κ items) (t'.compacted (κ.hashedBy g) items) := by
  refine ⟨h.admits, ?_, ?_, h.left.compacted h.admits.lawful hsub,
    h.right.compacted h.admits.lawful' (h.items.symm ▸ hsub)⟩
  · rw [items_compacted, items_compacted]
  · rw [items_compacted]
    exact h.held.sublist hsub

/-- Twins stay twins when a range of both is permuted. -/
theorem permuteRange (h : Twin κ g t t') {first : Nat} {order : List Nat}
    (hperm : order.Perm (List.range' first order.length)) (hle : first + order.length ≤ t.size) :
    Twin κ g (t.permuteRange κ first order) (t'.permuteRange (κ.hashedBy g) first order) := by
  refine ⟨h.admits, ?_, ?_, h.left.permuteRange hperm hle,
    h.right.permuteRange hperm (h.size_eq.symm ▸ hle)⟩
  · rw [items_permuteRange, items_permuteRange, h.items]
  · rw [items_permuteRange]
    exact h.held.drawn (Index.drawn_permuted hperm hle)

/-- Twins stay twins when a range of both is reversed. -/
theorem reverseRange (h : Twin κ g t t') {first last : Nat} (hlast : last ≤ t.size) :
    Twin κ g (t.reverseRange κ first last) (t'.reverseRange (κ.hashedBy g) first last) := by
  refine ⟨h.admits, ?_, ?_, h.left.reverseRange hlast,
    h.right.reverseRange (h.size_eq.symm ▸ hlast)⟩
  -- the sizes are the same, so that both tables are reversed in the same way
  · unfold Table.reverseRange
    rw [h.size_eq]
    split
    · exact h.items
    · split
      · exact congrArg Array.reverse h.items
      · rw [items_permuteRange, items_permuteRange, h.items]
  · unfold Table.reverseRange
    split
    · exact h.held
    · rename_i hmany
      split
      · exact h.held.drawn (Index.drawn_reverse t.items)
      · obtain ⟨hperm, hle⟩ := permutes_reverse hlast hmany
        rw [items_permuteRange]
        exact h.held.drawn (Index.drawn_permuted hperm hle)

/-- Twins stay twins when an item of both is moved. -/
theorem moved (h : Twin κ g t t') {source target : Nat} (hs : source < t.size)
    (ht : target < t.size) :
    Twin κ g (t.moved κ source target) (t'.moved (κ.hashedBy g) source target) := by
  have hv := Array.getElem?_eq_getElem hs
  refine ⟨h.admits, ?_, ?_, h.left.moved hs ht,
    h.right.moved (h.size_eq.symm ▸ hs) (h.size_eq.symm ▸ ht)⟩
  · have hv' : t'.items[source]? = some t.items[source] := by
      rw [h.items]
      exact hv
    rw [items_moved κ t target hv, items_moved (κ.hashedBy g) t' target hv', h.items]
  · rw [items_moved κ t target hv]
    exact h.held.drawn (Index.drawn_moved hs ht hv)

/-- Twins stay twins when two items of both change places. -/
theorem exchanged (h : Twin κ g t t') {p q : Nat} (hp : p < t.size) (hq : q < t.size)
    (hpq : p ≠ q) : Twin κ g
      ⟨t.items.swapIfInBounds p q, t.index.exchange p q (hashAt κ t.items)⟩
      ⟨t'.items.swapIfInBounds p q, t'.index.exchange p q (hashAt (κ.hashedBy g) t'.items)⟩ := by
  refine ⟨h.admits, ?_, h.held.drawn (Index.drawn_swap hp hq), h.left.exchanged hp hq hpq,
    h.right.exchanged (h.size_eq.symm ▸ hp) (h.size_eq.symm ▸ hq) hpq⟩
  show t'.items.swapIfInBounds p q = t.items.swapIfInBounds p q
  rw [h.items]

end Twin

end Table

end OrderedHash
