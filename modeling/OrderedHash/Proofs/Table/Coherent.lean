import OrderedHash.Proofs.Index.Mirror
import OrderedHash.Proofs.Index.Search
import OrderedHash.Table.Basic

namespace OrderedHash

/-!
# Tables whose index agrees with their items

The keys of a container are compared by an equivalence under which equal keys have equal
hash values (`Hashing.Lawful`). A table is `Coherent` if its keys differ from each other
and its index stands for the positions of its items.

In a coherent table a key is found exactly where an equal one is stored
(`Coherent.find_eq_some`), whatever the index looks like.
-/

namespace Hashing

variable {K : Type}

/-- The equality of keys is an equivalence, and equal keys have equal hash values. -/
structure Lawful (κ : Hashing K) : Prop where
  refl : ∀ a, κ.same a a
  symm : ∀ a b, κ.same a b → κ.same b a
  trans : ∀ a b c, κ.same a b → κ.same b c → κ.same a c
  hash_eq : ∀ a b, κ.same a b → κ.hash a = κ.hash b

end Hashing

namespace Table

variable {K V : Type} {κ : Keying K V} {t : Table V}

/-! ### Keys that differ from each other -/

/-- The keys of different items are not equal. -/
def Distinct (κ : Keying K V) (items : Array V) : Prop :=
  ∀ (p q : Nat) (v w : V), items[p]? = some v → items[q]? = some w → κ.same (κ.key v) (κ.key w) → p = q

/-- An empty table has no equal keys. -/
theorem distinct_empty (κ : Keying K V) : Distinct κ #[] := by
  intro p q v w hv
  simp at hv

/-- Items may be changed in ways that leave their keys. -/
theorem Distinct.congr {xs ys : Array V} (h : Distinct κ xs)
    (heq : ∀ p : Nat, ys[p]?.map κ.key = xs[p]?.map κ.key) : Distinct κ ys := by
  intro p q v w hv hw hsame
  have hp := heq p
  have hq := heq q
  rw [hv, Option.map_some] at hp
  rw [hw, Option.map_some] at hq
  obtain ⟨v', hv', hkey⟩ := Option.map_eq_some_iff.mp hp.symm
  obtain ⟨w', hw', hkey'⟩ := Option.map_eq_some_iff.mp hq.symm
  exact h p q v' w' hv' hw' (by rwa [hkey, hkey'])

/-- Items drawn from others have different keys if those have. -/
theorem Distinct.drawn {xs ys : Array V} (h : Distinct κ xs) {g : Nat → Nat} (hd : Drawn g xs ys) :
    Distinct κ ys := by
  intro p q v w hv hw hsame
  obtain ⟨hp, -⟩ := Array.getElem?_eq_some_iff.mp hv
  obtain ⟨hq, -⟩ := Array.getElem?_eq_some_iff.mp hw
  rw [hd.eq p hp] at hv
  rw [hd.eq q hq] at hw
  exact hd.inj p hp q hq (h _ _ v w hv hw hsame)

/-- An item whose key equals none of those stored can be put anywhere. -/
theorem Distinct.insertIdx {xs : Array V} (h : Distinct κ xs) (hκ : κ.Lawful) {v : V}
    (hv : ∀ w ∈ xs, κ.same (κ.key w) (κ.key v) = false) {pos : Nat} (hpos : pos ≤ xs.size) :
    Distinct κ (xs.insertIdxIfInBounds pos v) := by
  -- the item at a position is the new one or one of those before
  have hat : ∀ p w, (xs.insertIdxIfInBounds pos v)[p]? = some w →
      p = pos ∧ w = v ∨ p ≠ pos ∧ w ∈ xs ∧ xs[if p < pos then p else p - 1]? = some w := by
    intro p w hw
    rw [Array.insertIdxIfInBounds, dif_pos hpos, Array.getElem?_insertIdx] at hw
    split at hw
    · rename_i hlt
      rw [if_pos hlt]
      exact Or.inr ⟨by omega, Array.mem_of_getElem? hw, hw⟩
    · rename_i hge
      rw [if_neg hge]
      split at hw
      · rename_i heq
        rw [if_pos (by omega), Option.some.injEq] at hw
        exact Or.inl ⟨heq, hw.symm⟩
      · rename_i hne
        exact Or.inr ⟨hne, Array.mem_of_getElem? hw, hw⟩
  intro p q a b ha hb hsame
  rcases hat p a ha with ⟨hp, rfl⟩ | ⟨hp, hmem, ha'⟩ <;>
    rcases hat q b hb with ⟨hq, rfl⟩ | ⟨hq, hmem', hb'⟩
  · exact hp.trans hq.symm
  · have := hv b hmem'
    rw [hκ.symm _ _ hsame] at this
    cases this
  · have := hv a hmem
    rw [hsame] at this
    cases this
  · have heq := h _ _ a b ha' hb' hsame
    split at heq <;> split at heq <;> omega

/-- The items are distinct if no key in the list of them equals a later one. -/
theorem distinct_iff_pairwise (hκ : κ.Lawful) (items : Array V) :
    Distinct κ items ↔
      (items.toList.map κ.key).Pairwise fun a b => κ.same a b = false := by
  rw [List.pairwise_map, List.pairwise_iff_getElem]
  constructor
  · intro h p q hp hq hpq
    by_contra hsame
    have hv : items[p]? = some items.toList[p] := by
      rw [← Array.getElem?_toList, List.getElem?_eq_getElem hp]
    have hw : items[q]? = some items.toList[q] := by
      rw [← Array.getElem?_toList, List.getElem?_eq_getElem hq]
    have := h p q _ _ hv hw (by simpa using hsame)
    omega
  · intro h p q v w hv hw hsame
    rw [← Array.getElem?_toList, List.getElem?_eq_some_iff] at hv hw
    obtain ⟨hp, rfl⟩ := hv
    obtain ⟨hq, rfl⟩ := hw
    -- the list tells only pairs in order, and the equality is symmetric
    rcases Nat.lt_trichotomy p q with hpq | heq | hpq
    · rw [h p q hp hq hpq] at hsame
      cases hsame
    · exact heq
    · have := hκ.symm _ _ hsame
      rw [h q p hq hp hpq] at this
      cases this

/-- Some of the keys, in their order, differ from each other if all do. -/
theorem Distinct.sublist (hκ : κ.Lawful) {xs ys : Array V} (h : Distinct κ xs)
    (hsub : (ys.toList.map κ.key).Sublist (xs.toList.map κ.key)) : Distinct κ ys := by
  rw [distinct_iff_pairwise hκ] at h ⊢
  exact h.sublist hsub

/-! ### Keys of one kind -/

/-- The keys of all items are of one kind. -/
def AllKeys (κ : Keying K V) (P : K → Prop) (items : Array V) : Prop :=
  ∀ (p : Nat) (v : V), items[p]? = some v → P (κ.key v)

namespace AllKeys

variable {P : K → Prop} {xs ys : Array V}

/-- There are no keys of another kind in an empty table. -/
theorem empty (κ : Keying K V) (P : K → Prop) : AllKeys κ P #[] := by
  intro p v hv
  simp at hv

/-- The key of every item is of the kind. -/
theorem of_mem (h : AllKeys κ P xs) {v : V} (hv : v ∈ xs.toList) : P (κ.key v) := by
  obtain ⟨p, hp⟩ := List.mem_iff_getElem?.mp hv
  rw [Array.getElem?_toList] at hp
  exact h p v hp

/-- Items may be changed in ways that leave their keys. -/
theorem congr (h : AllKeys κ P xs) (heq : ∀ p : Nat, ys[p]?.map κ.key = xs[p]?.map κ.key) :
    AllKeys κ P ys := by
  intro p v hv
  have hp := heq p
  rw [hv, Option.map_some] at hp
  obtain ⟨w, hw, hkey⟩ := Option.map_eq_some_iff.mp hp.symm
  exact hkey ▸ h p w hw

/-- Items drawn from others have keys of theirs. -/
theorem drawn (h : AllKeys κ P xs) {g : Nat → Nat} (hd : Drawn g xs ys) : AllKeys κ P ys := by
  intro p v hv
  obtain ⟨hp, -⟩ := Array.getElem?_eq_some_iff.mp hv
  rw [hd.eq p hp] at hv
  exact h _ v hv

/-- Fewer keys are of the kind if all are. -/
theorem sublist (h : AllKeys κ P xs) (hsub : (ys.toList.map κ.key).Sublist (xs.toList.map κ.key)) :
    AllKeys κ P ys := by
  intro p v hv
  have hmem : v ∈ ys.toList := Array.mem_toList_iff.mpr (Array.mem_of_getElem? hv)
  obtain ⟨w, hw, hkey⟩ := List.mem_map.mp (hsub.subset (List.mem_map_of_mem hmem))
  exact hkey ▸ h.of_mem hw

/-- Another item with a key of the kind is put anywhere. -/
theorem insertIdx (h : AllKeys κ P xs) (pos : Nat) {v : V} (hv : P (κ.key v)) :
    AllKeys κ P (xs.insertIdxIfInBounds pos v) := by
  intro p w hw
  unfold Array.insertIdxIfInBounds at hw
  split at hw
  · rw [Array.getElem?_insertIdx] at hw
    -- the item is the new one, or one of those before
    split at hw
    · exact h p w hw
    · split at hw
      · cases (Option.some.inj (Option.ite_none_right_eq_some.mp hw).2)
        exact hv
      · exact h _ w hw
  · exact h p w hw

/-- An item may be replaced by one whose key is of the kind. -/
theorem setIfInBounds (h : AllKeys κ P xs) (pos : Nat) {v : V} (hv : P (κ.key v)) :
    AllKeys κ P (xs.setIfInBounds pos v) := by
  intro p w hw
  rw [Array.getElem?_setIfInBounds] at hw
  split at hw
  · cases (Option.ite_none_right_eq_some.mp hw).2
    exact hv
  · exact h p w hw

end AllKeys

/-! ### What lookups find -/

/-- A position has a key if its item does. -/
theorem keyAtIs_iff {items : Array V} {k : K} {p : Nat} :
    keyAtIs κ items k p ↔ ∃ v, items[p]? = some v ∧ κ.same (κ.key v) k := by
  rw [keyAtIs]
  cases items[p]? <;> simp

/-- A key is found at the position of the node that the index finds for it. -/
theorem find_eq_some_iff {k : K} {p : Nat} :
    t.find κ k = some p ↔ ∃ b, t.index.find (κ.hash k) (keyAtIs κ t.items k) = some b ∧
      (t.index.node b).pos = p := by
  rw [find, findHash, Index.findPosition, Option.map_eq_some_iff]

/-- What is found is a position that a live node holds, and a key there that equals the one
    looked for. -/
theorem of_find (h : t.index.Formed) {k : K} {p : Nat} (hp : t.find κ k = some p) :
    (∃ b, (t.index.node b).isLive ∧ (t.index.node b).pos = p) ∧
      ∃ v, t.items[p]? = some v ∧ κ.same (κ.key v) k := by
  obtain ⟨b, hb, rfl⟩ := find_eq_some_iff.mp hp
  obtain ⟨hlive, -, hpass⟩ := h.of_find_eq_some hb
  exact ⟨⟨b, hlive, rfl⟩, keyAtIs_iff.mp hpass⟩

/-! ### Coherent tables -/

/-- The hash value of the key of an item. -/
def hashOf (κ : Keying K V) (v : V) : UInt64 := κ.hash (κ.key v)

/-- The hash value of a position is that of the key of its item. -/
theorem hashAt_eq (κ : Keying K V) (items : Array V) :
    hashAt κ items = Index.valueAt (hashOf κ) items := by
  funext p
  rw [hashAt, Index.valueAt]
  cases items[p]? <;> rfl

/-- The keys differ from each other, and the index stands for the positions of the items,
    which are few enough for nodes to hold their positions. -/
structure Coherent (κ : Keying K V) (t : Table V) : Prop where
  distinct : Distinct κ t.items
  small : t.size < Node.movingPosition
  mirrors : t.index.Mirrors (hashOf κ) t.items

namespace Coherent

/-- The index of a coherent table indexes the positions of its items. -/
theorem indexes (h : t.Coherent κ) : t.index.Indexes t.size (hashAt κ t.items) := by
  rw [hashAt_eq]
  exact h.mirrors

/-- A key is found where an equal one is stored. -/
theorem find_eq_some (h : t.Coherent κ) (hκ : κ.Lawful) (k : K) (p : Nat) :
    t.find κ k = some p ↔ ∃ v, t.items[p]? = some v ∧ κ.same (κ.key v) k := by
  have hi := h.indexes
  refine ⟨fun hp => (of_find hi.formed hp).2, fun ⟨v, hv, hsame⟩ => ?_⟩
  have hlt : p < t.size := (Array.getElem?_eq_some_iff.mp hv).1
  have hash : hashAt κ t.items p = κ.hash k := by
    rw [hashAt, hv]
    exact hκ.hash_eq _ _ hsame
  have hstored : Index.below t.size (hashAt κ t.items) p = some (κ.hash k) := by
    rw [Index.below_of_lt hlt, hash]
  obtain ⟨b, hb⟩ := Option.isSome_iff_exists.mp
    (hi.find_isSome hstored (keyAtIs_iff.mpr ⟨v, hv, hsame⟩))
  have hfind : t.find κ k = some (t.index.node b).pos := find_eq_some_iff.mpr ⟨b, hb, rfl⟩
  obtain ⟨-, w, hw, hsame'⟩ := of_find hi.formed hfind
  rw [hfind, h.distinct _ p w v hw hv (hκ.trans _ _ _ hsame' (hκ.symm _ _ hsame))]

/-- A key is not found if no stored key equals it. -/
theorem find_eq_none (h : t.Coherent κ) (hκ : κ.Lawful) (k : K) :
    t.find κ k = none ↔ ∀ v ∈ t.items, κ.same (κ.key v) k = false := by
  constructor
  · intro hnone v hv
    -- a stored key that is equal would be found
    by_contra hsame
    obtain ⟨p, hp, rfl⟩ := Array.getElem_of_mem hv
    have hsome := (h.find_eq_some hκ k p).mpr
      ⟨t.items[p], Array.getElem?_eq_getElem hp, by simpa using hsame⟩
    rw [hnone] at hsome
    cases hsome
  · intro hall
    by_contra hsome
    obtain ⟨p, hp⟩ := Option.ne_none_iff_exists'.mp hsome
    obtain ⟨v, hv, hsame⟩ := (h.find_eq_some hκ k p).mp hp
    rw [hall v (Array.mem_of_getElem? hv)] at hsame
    cases hsame

/-- A position at which a key is found is one of the table. -/
theorem lt_of_find (h : t.Coherent κ) (hκ : κ.Lawful) {k : K} {p : Nat}
    (hp : t.find κ k = some p) : p < t.size := by
  obtain ⟨v, hv, -⟩ := (h.find_eq_some hκ k p).mp hp
  exact (Array.getElem?_eq_some_iff.mp hv).1

end Coherent

end Table

end OrderedHash
