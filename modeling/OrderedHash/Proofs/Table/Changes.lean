import OrderedHash.Index.Transfer
import OrderedHash.Proofs.Table.Coherent
import OrderedHash.Table.Insert
import OrderedHash.Table.Remove
import OrderedHash.Table.Reorder
import OrderedHash.Table.Retain

namespace OrderedHash

namespace Table

/-!
# Changes keep tables coherent

Each operation on a table is made of the changes below. A change keeps a table coherent
under the condition that its callers have checked before: a position that is in range, or
a key that is absent. Only an insertion needs to know, besides, that positions do not run
out.
-/

variable {K V : Type} {κ : Keying K V} {t : Table V}

/-- The last item fills the gap. -/
theorem items_removeSwapping (κ : Keying K V) (t : Table V) (pos : Nat) {v : V}
    (hv : t.items[t.items.size - 1]? = some v) :
    (t.removeSwapping κ pos).items = (t.items.setIfInBounds pos v).pop := by
  rw [removeSwapping, Array.back?, hv]

/-- A moved item is taken out and inserted at the target. -/
theorem items_moved (κ : Keying K V) (t : Table V) {source : Nat} (target : Nat) {v : V}
    (hv : t.items[source]? = some v) : (t.moved κ source target).items =
      (t.items.eraseIdxIfInBounds source).insertIdxIfInBounds target v := by
  rw [moved, hv]

/-- An item is inserted into the list of items, if the position is within its bounds. -/
@[simp] theorem toList_insertIdxIfInBounds (items : Array V) (pos : Nat) (v : V) :
    (items.insertIdxIfInBounds pos v).toList = items.toList.insertIdx pos v := by
  have harray := List.insertIdxIfInBounds_toArray items.toList pos v
  rw [Array.toArray_toList] at harray
  rw [harray]

/-- An item is added to the list of items at its position. -/
@[simp] theorem toList_insertAt (κ : Keying K V) (t : Table V) (pos : Nat) (hash : UInt64) (v : V) :
    (t.insertAt κ pos hash v).items.toList = t.items.toList.insertIdx pos v :=
  toList_insertIdxIfInBounds t.items pos v

/-- An item that is moved is taken out and put back. -/
theorem toList_moved (κ : Keying K V) (t : Table V) {source : Nat} (target : Nat) {v : V}
    (hv : t.items[source]? = some v) : (t.moved κ source target).items.toList =
      (t.items.toList.eraseIdx source).insertIdx target v := by
  rw [items_moved κ t target hv, toList_insertIdxIfInBounds, Array.toList_eraseIdxIfInBounds]

/-- Two items that are exchanged are put in the places of each other. -/
theorem toList_swapIfInBounds {items : Array V} {p q : Nat} {v w : V} (hv : items[p]? = some v)
    (hw : items[q]? = some w) :
    (items.swapIfInBounds p q).toList = (items.toList.set p w).set q v := by
  obtain ⟨hp, rfl⟩ := Array.getElem?_eq_some_iff.mp hv
  obtain ⟨hq, rfl⟩ := Array.getElem?_eq_some_iff.mp hw
  rw [Array.swapIfInBounds_def, dif_pos hp, dif_pos hq, Array.toList_swap]

/-- An item that is changed by a function that leaves its key keeps its key. -/
theorem map_key_modify (items : Array V) (pos : Nat) {f : V → V}
    (hf : ∀ v, κ.key (f v) = κ.key v) (p : Nat) :
    (items.modify pos f)[p]?.map κ.key = items[p]?.map κ.key := by
  rw [Array.getElem?_modify]
  split
  · rw [Option.map_map, show κ.key ∘ f = κ.key from funext hf]
  · rfl

/-- The position that an item which is left after a removal had before. -/
def Removal.origin (way : Removal) (size pos : Nat) : Nat → Nat :=
  match way with
  | .shift => Index.skipping pos 1
  | .swap => Index.refilling pos (size - 1)

/-- The items that a removal leaves are drawn from the other positions. -/
theorem drawn_removeAt (κ : Keying K V) (t : Table V) (way : Removal) {pos : Nat}
    (hpos : pos < t.size) :
    Drawn (way.origin t.size pos) t.items (t.removeAt κ way pos).items := by
  cases way with
  | shift => exact Index.drawn_eraseIdx hpos
  | swap =>
    have hv := Array.getElem?_eq_getElem (Nat.sub_lt (Nat.zero_lt_of_lt hpos) Nat.one_pos)
    rw [removeAt, items_removeSwapping κ t pos hv]
    exact Index.drawn_refilling hpos hv

/-- The positions of a part of a table, in the opposite order. -/
theorem permutes_reverse {t : Table V} {first last : Nat} (hlast : last ≤ t.size)
    (hmany : ¬ last - first < 2) :
    (List.range' first (last - first)).reverse.Perm
        (List.range' first (List.range' first (last - first)).reverse.length) ∧
      first + (List.range' first (last - first)).reverse.length ≤ t.size := by
  have hlen : (List.range' first (last - first)).reverse.length = last - first := by
    rw [List.length_reverse, List.length_range']
  rw [hlen]
  exact ⟨List.reverse_perm _, by omega⟩

/-! ### The two ways to remove a range -/

/-- How the index is brought in line with the items that are left of a table. -/
inductive Unlinking where
  /-- The nodes of the range are erased one by one, and the positions after it shifted down. -/
  | nodewise
  /-- The index is built anew. -/
  | rebuilding
deriving DecidableEq

/-- The way that is taken to remove a range of the given length. -/
def unlinking (t : Table V) (length : Nat) : Unlinking :=
  if t.size / 2 < length then .rebuilding else .nodewise

/-- Removes the items from `first` up to `last` in one of the two ways. -/
def removeRangeBy (κ : Keying K V) (t : Table V) (way : Unlinking) (first last : Nat) : Table V :=
  let items := t.items.extract 0 first ++ t.items.extract last
  match way with
  | .nodewise => ⟨items, t.index.removeRange first last t.size (hashAt κ t.items)⟩
  | .rebuilding => ⟨items, t.index.rebuild items.size (hashAt κ items)⟩

/-- A range is removed by the way that its size asks for. -/
theorem removeRange_eq (κ : Keying K V) (t : Table V) (first last : Nat) :
    t.removeRange κ first last = t.removeRangeBy κ (t.unlinking (last - first)) first last := by
  unfold removeRange unlinking
  split <;> rfl

/-- The items do not depend on the way. -/
theorem items_removeRangeBy (κ : Keying K V) (t : Table V) (way : Unlinking) (first last : Nat) :
    (t.removeRangeBy κ way first last).items = t.items.extract 0 first ++ t.items.extract last := by
  cases way <;> rfl

/-- A part of the items from a position on is drawn from them. -/
theorem drawn_extract_from (items : Array V) (pos : Nat) :
    Drawn (pos + ·) items (items.extract pos) := by
  refine ⟨fun q hq => ?_, fun q hq => ?_, fun q _ r _ hqr => Nat.add_left_cancel hqr⟩ <;>
    rw [Array.size_extract] at hq
  · show pos + q < items.size
    omega
  · rw [Array.getElem?_extract, if_pos (by omega)]

/-! ### The two ways to permute a range -/

/-- How the index is brought in line with items that were permuted. -/
inductive Repair where
  /-- The nodes of the range, which were found before, are renumbered. -/
  | nodewise
  /-- The index is built anew. -/
  | rebuilding
deriving DecidableEq

/-- The way that is taken to permute a range of the given length. -/
def repair (t : Table V) (length : Nat) : Repair :=
  if t.size / 2 < length then .rebuilding else .nodewise

/-- Reorders the items from `first` on in one of the two ways. -/
def permuteRangeBy (κ : Keying K V) (t : Table V) (way : Repair) (first : Nat) (order : List Nat) :
    Table V :=
  let items := Index.permuted t.items first order
  match way with
  | .nodewise => ⟨items, t.index.permute first order (hashAt κ t.items)⟩
  | .rebuilding => ⟨items, t.index.rebuild t.size (hashAt κ items)⟩

/-- A range is permuted by the way that its size asks for. -/
theorem permuteRange_eq (κ : Keying K V) (t : Table V) (first : Nat) (order : List Nat) :
    t.permuteRange κ first order = t.permuteRangeBy κ (t.repair order.length) first order := by
  unfold permuteRange repair
  dsimp only
  split <;> rfl

/-- The items do not depend on the way. -/
theorem items_permuteRangeBy (κ : Keying K V) (t : Table V) (way : Repair) (first : Nat)
    (order : List Nat) :
    (t.permuteRangeBy κ way first order).items = Index.permuted t.items first order := by
  cases way <;> rfl

namespace Coherent

/-! ### The index alone -/

/-- The index may be replaced by another one of the same positions. -/
theorem withIndex (h : t.Coherent κ) {index : Index}
    (hi : index.Indexes t.size (hashAt κ t.items)) : (t.withIndex index).Coherent κ := by
  refine ⟨h.distinct, h.small, ?_⟩
  rw [hashAt_eq] at hi
  exact hi

/-- A coherent table is coherent after room was made in it. -/
theorem reserve (h : t.Coherent κ) (count : Nat) : (t.reserve κ count).Coherent κ :=
  h.withIndex (h.indexes.reserve count)

/-- A coherent table is coherent after it was rehashed. -/
theorem rehash (h : t.Coherent κ) : (t.rehash κ).Coherent κ := h.withIndex h.indexes.rebuild

/-- A coherent table is coherent after it was shrunk. -/
theorem shrinkToFit (h : t.Coherent κ) : (t.shrinkToFit κ).Coherent κ :=
  h.withIndex h.indexes.shrinkToFit

/-- A coherent table is coherent under any load factor. -/
theorem setLoadFactor (h : t.Coherent κ) (f : LoadFactor) : (t.setLoadFactor f).Coherent κ :=
  h.withIndex (Index.Sound.setLoadFactor h.indexes f)

/-! ### No items -/

/-- Without items a table is coherent if its index has no position. -/
theorem of_indexes_zero {index : Index} {hashAt : Nat → UInt64} (hi : index.Indexes 0 hashAt) :
    Coherent κ ⟨#[], index⟩ :=
  ⟨distinct_empty κ, show 0 < Node.movingPosition by decide,
    Index.Indexes.congr hi fun _ hp => absurd hp (Nat.not_lt_zero _)⟩

/-- A table without items is coherent. -/
theorem empty (κ : Keying K V) (f : LoadFactor) : (Table.empty f : Table V).Coherent κ :=
  of_indexes_zero (Index.null_indexes f fun _ => 0)

/-- A table is coherent after it was cleared. -/
theorem clear (h : t.Coherent κ) : t.clear.Coherent κ :=
  of_indexes_zero (h.indexes.clear fun _ => 0)

/-! ### Adding and changing items -/

/-- An item whose key is absent is added. -/
theorem insertAt (h : t.Coherent κ) (hκ : κ.Lawful) {pos : Nat} (hpos : pos ≤ t.size) {v : V}
    (habsent : t.find κ (κ.key v) = none)
    (hsmall : (t.insertAt κ pos (κ.hash (κ.key v)) v).size < Node.movingPosition) :
    (t.insertAt κ pos (κ.hash (κ.key v)) v).Coherent κ := by
  have hsize : t.items.size < Node.noPosition := lt_trans h.small (by decide)
  have hmirrors := Index.Mirrors.insertAt h.mirrors hpos hsize v
  rw [← hashAt_eq] at hmirrors
  exact ⟨h.distinct.insertIdx hκ ((h.find_eq_none hκ _).mp habsent) hpos, hsmall, hmirrors⟩

/-- Items may be changed in ways that leave their keys. -/
theorem congr (h : t.Coherent κ) {items : Array V} (hsize : items.size = t.items.size)
    (heq : ∀ p : Nat, items[p]?.map κ.key = t.items[p]?.map κ.key) :
    Coherent κ { t with items } := by
  refine ⟨h.distinct.congr heq, ?_, h.mirrors.congr hsize fun p => ?_⟩
  · show items.size < Node.movingPosition
    rw [hsize]
    exact h.small
  · have hp := congrArg (Option.map κ.hash) (heq p)
    rw [Option.map_map, Option.map_map] at hp
    exact hp

/-- One item is changed by a function that leaves its key. -/
theorem modify (h : t.Coherent κ) (pos : Nat) {f : V → V} (hf : ∀ v, κ.key (f v) = κ.key v) :
    Coherent κ { t with items := t.items.modify pos f } :=
  h.congr Array.size_modify (map_key_modify t.items pos hf)

/-- A refreshed item has the key that it had, which keeps the table coherent. -/
theorem refreshAt (h : t.Coherent κ) (hκ : ∀ s g, κ.key (κ.refresh s g) = κ.key s) (pos : Nat)
    (v : V) : (t.refreshAt κ pos v).Coherent κ :=
  h.modify pos fun stored => hκ stored v

/-- An item is replaced by another one whose key equals its key. -/
theorem setItem (h : t.Coherent κ) (hκ : κ.Lawful) {pos : Nat} {v : V}
    (hv : ∀ w, t.items[pos]? = some w → κ.same (κ.key w) (κ.key v)) :
    (t.setItem pos v).Coherent κ := by
  -- the item at a position is replaced by one whose key is equal, perhaps by itself
  have hat : ∀ p : Nat, ∀ w, (t.items.setIfInBounds pos v)[p]? = some w →
      ∃ w', t.items[p]? = some w' ∧ κ.same (κ.key w') (κ.key w) := by
    intro p w hw
    rw [Array.getElem?_setIfInBounds] at hw
    split at hw
    · rename_i hp
      subst hp
      split at hw
      · rename_i hlt
        cases hw
        have hw' := Array.getElem?_eq_getElem hlt
        exact ⟨_, hw', hv _ hw'⟩
      · cases hw
    · exact ⟨w, hw, hκ.refl _⟩
  refine ⟨?_, ?_, h.mirrors.congr Array.size_setIfInBounds fun p => ?_⟩
  · intro p q w x hw hx hsame
    obtain ⟨w', hw', hsame₁⟩ := hat p w hw
    obtain ⟨x', hx', hsame₂⟩ := hat q x hx
    exact h.distinct p q w' x' hw' hx'
      (hκ.trans _ _ _ hsame₁ (hκ.trans _ _ _ hsame (hκ.symm _ _ hsame₂)))
  · show (t.items.setIfInBounds pos v).size < Node.movingPosition
    rw [Array.size_setIfInBounds]
    exact h.small
  · show Option.map (hashOf κ) (t.items.setIfInBounds pos v)[p]? = _
    cases hw : (t.items.setIfInBounds pos v)[p]? with
    | none =>
      have hge := Array.getElem?_eq_none_iff.mp hw
      rw [Array.size_setIfInBounds] at hge
      rw [Array.getElem?_eq_none hge]
    | some w =>
      obtain ⟨w', hw', hsame⟩ := hat p w hw
      rw [hw', Option.map_some, Option.map_some, hashOf, hashOf, hκ.hash_eq _ _ hsame]

/-! ### Removing items -/

/-- A coherent table is coherent after an item was removed and the later ones moved up. -/
theorem removeShifting (h : t.Coherent κ) {pos : Nat} (hpos : pos < t.size) :
    (t.removeShifting κ pos).Coherent κ := by
  have hmirrors := h.mirrors.removeShifting hpos
  rw [← hashAt_eq] at hmirrors
  refine ⟨h.distinct.drawn (Index.drawn_eraseIdx hpos), ?_, hmirrors⟩
  show (t.items.eraseIdxIfInBounds pos).size < Node.movingPosition
  rw [Index.size_eraseIdxIfInBounds hpos]
  exact lt_of_le_of_lt (Nat.sub_le _ _) h.small

/-- A coherent table is coherent after an item was removed and the last one took its place. -/
theorem removeSwapping (h : t.Coherent κ) {pos : Nat} (hpos : pos < t.size) :
    (t.removeSwapping κ pos).Coherent κ := by
  have hlast : t.items.size - 1 < t.items.size := Nat.sub_lt (Nat.zero_lt_of_lt hpos) Nat.one_pos
  have hv := Array.getElem?_eq_getElem hlast
  have hitems := items_removeSwapping κ t pos hv
  have hmirrors := h.mirrors.removeSwapping hpos hv
  rw [← hashAt_eq, ← hitems] at hmirrors
  refine ⟨?_, ?_, hmirrors⟩
  · rw [hitems]
    exact h.distinct.drawn (Index.drawn_refilling hpos hv)
  · show (t.removeSwapping κ pos).items.size < Node.movingPosition
    rw [hitems, Index.size_setIfInBounds_pop]
    exact lt_of_le_of_lt (Nat.sub_le _ _) h.small

/-- A coherent table is coherent after an item was removed in either way. -/
theorem removeAt (h : t.Coherent κ) (way : Removal) {pos : Nat} (hpos : pos < t.size) :
    (t.removeAt κ way pos).Coherent κ := by
  cases way with
  | shift => exact h.removeShifting hpos
  | swap => exact h.removeSwapping hpos

/-- Fewer items than before are drawn from them. -/
theorem small_of_le (h : t.Coherent κ) {items : Array V} (hle : items.size ≤ t.items.size) :
    items.size < Node.movingPosition :=
  lt_of_le_of_lt hle h.small

/-- A range is removed in either way. -/
theorem removeRangeBy (h : t.Coherent κ) (way : Unlinking) {first last : Nat} (hle : first ≤ last)
    (hlast : last ≤ t.size) : (t.removeRangeBy κ way first last).Coherent κ := by
  have hsize := Index.size_extract_append hle hlast
  have hdistinct := h.distinct.drawn (Index.drawn_extract hle hlast)
  have hsmall := h.small_of_le (hsize ▸ Nat.sub_le _ _)
  cases way with
  | nodewise =>
    refine ⟨hdistinct, hsmall, ?_⟩
    simp only [Table.removeRangeBy, hashAt_eq]
    exact h.mirrors.removeRange hle hlast
  | rebuilding =>
    refine ⟨hdistinct, hsmall, ?_⟩
    simp only [Table.removeRangeBy, hashAt_eq]
    exact Index.rebuild_indexes h.indexes.shape _ (Nat.le_of_lt (lt_trans hsmall (by decide)))

/-- A coherent table is coherent after a range was removed, whichever way its size asks for. -/
theorem removeRange (h : t.Coherent κ) {first last : Nat} (hle : first ≤ last)
    (hlast : last ≤ t.size) : (t.removeRange κ first last).Coherent κ := by
  rw [removeRange_eq]
  exact h.removeRangeBy _ hle hlast

/-- The items split off make up a coherent table. -/
theorem splitPart (h : t.Coherent κ) (pos : Nat) (f : LoadFactor) :
    Coherent κ ⟨t.items.extract pos, (Index.null f).rebuild (t.items.extract pos).size
      (hashAt κ (t.items.extract pos))⟩ := by
  have hsmall : (t.items.extract pos).size < Node.movingPosition := by
    refine h.small_of_le ?_
    rw [Array.size_extract]
    omega
  refine ⟨h.distinct.drawn (drawn_extract_from t.items pos), hsmall, ?_⟩
  rw [hashAt_eq]
  exact Index.rebuild_indexes (Or.inl rfl) _ (Nat.le_of_lt (lt_trans hsmall (by decide)))

/-- Some items are kept, perhaps changed, in their order and with their keys. -/
theorem compacted (h : t.Coherent κ) (hκ : κ.Lawful) {items : Array V}
    (hsub : (items.toList.map κ.key).Sublist (t.items.toList.map κ.key)) :
    (t.compacted κ items).Coherent κ := by
  have hle : items.size ≤ t.items.size := by
    have hlen := hsub.length_le
    simpa using hlen
  rw [Table.compacted]
  split
  · rename_i hsize
    refine h.congr hsize fun p => ?_
    -- nothing was dropped, so that the keys are all those before
    have heq := hsub.eq_of_length (by simpa [Table.size] using hsize)
    rw [← Array.getElem?_toList, ← Array.getElem?_toList, ← List.getElem?_map,
      ← List.getElem?_map, heq]
  · refine ⟨h.distinct.sublist hκ hsub, h.small_of_le hle, ?_⟩
    rw [hashAt_eq]
    exact h.mirrors.rebuildInPlace hle _

/-- The index of a table that loses items, all at once, keeps its buckets. -/
theorem bucketCount_compacted (h : t.Coherent κ) {items : Array V} (hle : items.size ≤ t.size) :
    (t.compacted κ items).index.bucketCount = t.index.bucketCount := by
  rw [Table.compacted]
  split
  · rfl
  · have hfits := Index.Sound.fits h.indexes
    rw [h.indexes.size_eq] at hfits
    exact (t.index.rehash_rebuilt (hashAt κ items) (hfits.mono hle)
      (le_trans hle h.indexes.le_noPosition)).bucketCount

/-! ### Reordering items -/

/-- A range is permuted in either way. -/
theorem permuteRangeBy (h : t.Coherent κ) (way : Repair) {first : Nat} {order : List Nat}
    (hperm : order.Perm (List.range' first order.length)) (hle : first + order.length ≤ t.size) :
    (t.permuteRangeBy κ way first order).Coherent κ := by
  have hsize := Index.size_permuted hperm hle
  have hdistinct := h.distinct.drawn (Index.drawn_permuted hperm hle)
  have hsmall := h.small_of_le hsize.le
  cases way with
  | nodewise =>
    -- the nodes are given other positions one by one
    refine ⟨hdistinct, hsmall, ?_⟩
    simp only [Table.permuteRangeBy, hashAt_eq]
    exact h.mirrors.permute hperm hle
  | rebuilding =>
    -- the index is built anew from the permuted items
    refine ⟨hdistinct, hsmall, ?_⟩
    have hindexes := Index.rebuild_indexes h.indexes.shape
      (Index.valueAt (hashOf κ) (Index.permuted t.items first order)) h.indexes.le_noPosition
    have hsize' : t.size = (Index.permuted t.items first order).size := hsize.symm
    simp only [Table.permuteRangeBy, hashAt_eq, hsize']
    rw [hsize'] at hindexes
    exact hindexes

/-- A coherent table is coherent after a range was permuted, whichever way its size asks for. -/
theorem permuteRange (h : t.Coherent κ) {first : Nat} {order : List Nat}
    (hperm : order.Perm (List.range' first order.length)) (hle : first + order.length ≤ t.size) :
    (t.permuteRange κ first order).Coherent κ := by
  rw [permuteRange_eq]
  exact h.permuteRangeBy _ hperm hle

/-- A coherent table is coherent after a range was reversed. -/
theorem reverseRange (h : t.Coherent κ) {first last : Nat} (hlast : last ≤ t.size) :
    (t.reverseRange κ first last).Coherent κ := by
  rw [Table.reverseRange]
  -- a whole table is reversed in one walk, and a part of it by a permutation
  split
  · exact h
  · rename_i hmany
    split
    · refine ⟨h.distinct.drawn (Index.drawn_reverse t.items), ?_, h.mirrors.reverse⟩
      exact h.small_of_le Array.size_reverse.le
    · obtain ⟨hperm, hle⟩ := permutes_reverse hlast hmany
      exact h.permuteRange hperm hle

/-- A coherent table is coherent after an item was moved. -/
theorem moved (h : t.Coherent κ) {source target : Nat} (hs : source < t.size)
    (ht : target < t.size) : (t.moved κ source target).Coherent κ := by
  have hv := Array.getElem?_eq_getElem hs
  have hmirrors := h.mirrors.move hs ht (Nat.le_of_lt h.small) hv
  rw [← hashAt_eq] at hmirrors
  rw [Table.moved, hv]
  exact ⟨h.distinct.drawn (Index.drawn_moved hs ht hv), h.small_of_le (Index.size_moved hs ht).le,
    hmirrors⟩

/-- A coherent table is coherent after two items changed places. -/
theorem exchanged (h : t.Coherent κ) {p q : Nat} (hp : p < t.size) (hq : q < t.size)
    (hpq : p ≠ q) : Coherent κ
      ⟨t.items.swapIfInBounds p q, t.index.exchange p q (hashAt κ t.items)⟩ := by
  have hmirrors := h.mirrors.exchange hp hq hpq
  rw [← hashAt_eq] at hmirrors
  exact ⟨h.distinct.drawn (Index.drawn_swap hp hq),
    h.small_of_le Array.size_swapIfInBounds.le, hmirrors⟩

end Coherent

end Table

end OrderedHash
