import OrderedHash.Index.Reorder
import OrderedHash.Proofs.Index.Order

namespace OrderedHash

namespace Index

/-!
# Changing positions keeps the invariant

`Relabels f ix ix'` says that `ix'` has the nodes of `ix` in the same buckets, where the
node that held the position `p` holds `f p`. What is then stored is told by
`Renames f P P'`, and `Sound.relabel` carries the invariant over.
-/

variable {ix ix' ix'' : Index} {P P' P'' : Nat → Option UInt64} {f g : Nat → Nat}

/-! ### Indexes that differ in positions only -/

/-- The live nodes of `ix'` are those of `ix` with their positions changed by `f`. -/
structure Relabels (f : Nat → Nat) (ix ix' : Index) : Prop where
  live : ∀ b, (ix.node b).isLive → ix'.node b = (ix.node b).withPosition (f (ix.node b).pos)
  dead : ∀ b, (ix.node b).isLive = false → ix'.node b = ix.node b
  bucketCount : ix'.bucketCount = ix.bucketCount
  size : ix'.size = ix.size
  tombstones : ix'.tombstones = ix.tombstones
  maxDist : ix'.maxDist = ix.maxDist
  loadFactor : ix'.loadFactor = ix.loadFactor

/-- The positions of `P'` are those of `P` changed by `f`, with the same hash values. -/
structure Renames (f : Nat → Nat) (P P' : Nat → Option UInt64) : Prop where
  maps : ∀ p h, P p = some h → P' (f p) = some h
  onto : ∀ q h, P' q = some h → ∃ p, P p = some h ∧ f p = q
  inj : ∀ p q h k, P p = some h → P q = some k → f p = f q → p = q
  below : ∀ p h, P p = some h → f p < Node.noPosition

/-- A change of positions is told by a function and its inverse. -/
theorem Renames.of_inverse
    (hto : ∀ p h, P p = some h → P' (f p) = some h ∧ g (f p) = p ∧ f p < Node.noPosition)
    (hfrom : ∀ q h, P' q = some h → P (g q) = some h ∧ f (g q) = q) : Renames f P P' where
  maps p h hp := (hto p h hp).1
  onto q h hq := ⟨g q, hfrom q h hq⟩
  inj p q h k hp hq hpq := by rw [← (hto p h hp).2.1, hpq, (hto q k hq).2.1]
  below p h hp := (hto p h hp).2.2

namespace Relabels

@[simp] theorem isLive_node (r : Relabels f ix ix') (b : Nat) :
    (ix'.node b).isLive = (ix.node b).isLive := by
  by_cases hb : (ix.node b).isLive
  · rw [r.live b hb, Node.isLive_withPosition]
  · rw [r.dead b (by simpa using hb)]

theorem distance_node (r : Relabels f ix ix') (b : Nat) :
    (ix'.node b).distance = (ix.node b).distance := by
  by_cases hb : (ix.node b).isLive
  · rw [r.live b hb, Node.distance_withPosition]
  · rw [r.dead b (by simpa using hb)]

theorem tinyHash_node (r : Relabels f ix ix') (b : Nat) :
    (ix'.node b).tinyHash = (ix.node b).tinyHash := by
  by_cases hb : (ix.node b).isLive
  · rw [r.live b hb, Node.tinyHash_withPosition]
  · rw [r.dead b (by simpa using hb)]

theorem isEmpty_node (r : Relabels f ix ix') (b : Nat) :
    (ix'.node b).isEmpty = (ix.node b).isEmpty := by
  rw [Node.isEmpty, Node.isEmpty, r.distance_node]

theorem isTombstone_node (r : Relabels f ix ix') (b : Nat) :
    (ix'.node b).isTombstone = (ix.node b).isTombstone := by
  rw [Node.isTombstone, Node.isTombstone, r.distance_node]

/-- The position of a live node is changed by `f`, if it still fits into a node. -/
theorem pos_node (r : Relabels f ix ix') {b : Nat} (hb : (ix.node b).isLive)
    (hf : f (ix.node b).pos < Node.noPosition) : (ix'.node b).pos = f (ix.node b).pos := by
  rw [r.live b hb, Node.pos_withPosition]
  exact Nat.mod_eq_of_lt (lt_trans hf (by decide))

/-- Only what becomes of the positions in use matters. -/
theorem congr (r : Relabels f ix ix')
    (h : ∀ b, (ix.node b).isLive → f (ix.node b).pos = g (ix.node b).pos) : Relabels g ix ix' where
  live b hb := by rw [r.live b hb, h b hb]
  dead := r.dead
  bucketCount := r.bucketCount
  size := r.size
  tombstones := r.tombstones
  maxDist := r.maxDist
  loadFactor := r.loadFactor

theorem refl (ix : Index) : Relabels id ix ix where
  live _ _ := (Node.withPosition_pos _).symm
  dead _ _ := rfl
  bucketCount := rfl
  size := rfl
  tombstones := rfl
  maxDist := rfl
  loadFactor := rfl

/-- Positions are changed one after the other. -/
theorem trans (r : Relabels f ix ix') (s : Relabels g ix' ix'')
    (hf : ∀ b, (ix.node b).isLive → f (ix.node b).pos < Node.noPosition) :
    Relabels (g ∘ f) ix ix'' where
  live b hb := by
    rw [s.live b (by rwa [r.isLive_node]), r.pos_node hb (hf b hb), r.live b hb,
      Node.withPosition_withPosition]
    rfl
  dead b hb := by
    rw [s.dead b (by rwa [r.isLive_node]), r.dead b hb]
  bucketCount := s.bucketCount.trans r.bucketCount
  size := s.size.trans r.size
  tombstones := s.tombstones.trans r.tombstones
  maxDist := s.maxDist.trans r.maxDist
  loadFactor := s.loadFactor.trans r.loadFactor

/-- The same buckets pass a test that is not about positions. -/
theorem count_eq (r : Relabels f ix ix') {test : Node → Bool}
    (h : ∀ b, test (ix'.node b) = test (ix.node b)) : ix'.count test = ix.count test := by
  rw [count_eq_range, count_eq_range, r.bucketCount]
  exact List.countP_congr fun b _ => by rw [h b]

/-- What the relabelled index stores. -/
theorem holds (r : Relabels f ix ix') (h : ix.Holds P) (hf : Renames f P P') : ix'.Holds P' := by
  -- a live node of one index is one of the other, with its position changed
  have hpos : ∀ b, (ix.node b).isLive → (ix'.node b).pos = f (ix.node b).pos := by
    intro b hb
    obtain ⟨hash, hp, -⟩ := h.stored b hb
    exact r.pos_node hb (hf.below _ _ hp)
  refine ⟨fun b hb => ?_, fun b hb => ?_, fun b hb => ?_, fun q hash hq => ?_,
    fun b c hb hc hbc => ?_, fun q hash hq => ?_⟩
  · rw [r.isLive_node] at hb
    rw [r.dead b hb]
    exact h.dead b hb
  · rw [r.isLive_node] at hb
    rw [r.distance_node]
    exact h.range b hb
  · rw [r.isLive_node] at hb
    obtain ⟨hash, hp, htiny⟩ := h.stored b hb
    refine ⟨hash, ?_, by rw [r.tinyHash_node, htiny]⟩
    rw [hpos b hb]
    exact hf.maps _ _ hp
  · obtain ⟨p, hp, rfl⟩ := hf.onto q hash hq
    obtain ⟨b, hb, rfl⟩ := h.held p hash hp
    exact ⟨b, by rwa [r.isLive_node], hpos b hb⟩
  · rw [r.isLive_node] at hb hc
    rw [hpos b hb, hpos c hc] at hbc
    obtain ⟨hash, hp, -⟩ := h.stored b hb
    obtain ⟨hash', hp', -⟩ := h.stored c hc
    exact h.once b c hb hc (hf.inj _ _ _ _ hp hp' hbc)
  · obtain ⟨p, hp, rfl⟩ := hf.onto q hash hq
    exact hf.below p hash hp

/-- The hash value of a node stays the same. -/
theorem stored_iff (r : Relabels f ix ix') (h : ix.Holds P) (hf : Renames f P P') {b : Nat}
    (hb : (ix.node b).isLive) (hash : UInt64) :
    P' (ix'.node b).pos = some hash ↔ P (ix.node b).pos = some hash := by
  obtain ⟨hash', hp, -⟩ := h.stored b hb
  rw [r.pos_node hb (hf.below _ _ hp), hf.maps _ _ hp, hp]

end Relabels

/-- The invariant does not depend on which positions the nodes hold. -/
theorem Sound.relabel (h : ix.Sound P) (r : Relabels f ix ix') (hf : Renames f P P') :
    ix'.Sound P' := by
  refine ⟨r.holds h.holds hf, fun b hash hb hp => ?_, fun hlin => ?_, ?_, ?_, ?_, ?_, ?_⟩
  · rw [r.isLive_node] at hb
    rw [r.stored_iff h.holds hf hb] at hp
    obtain ⟨d, hd, hall⟩ := h.chained b hash hb hp
    rw [home_congr r.bucketCount]
    refine ⟨d, by rw [along_congr r.bucketCount, hd], fun k hk => ?_⟩
    rw [along_congr r.bucketCount, r.isEmpty_node]
    exact hall k hk
  -- distances stay, so order and chains are those before
  · have ho := h.ordered (by rwa [isLinear, r.maxDist] at hlin)
    refine ⟨fun b hb => ?_, fun b hash hb hp => ?_, fun b => ?_, fun b => ?_⟩
    · rw [r.bucketCount] at hb
      rw [next_congr r.bucketCount, r.distance_node, r.distance_node]
      exact ho.step b hb
    · rw [r.isLive_node] at hb
      rw [r.stored_iff h.holds hf hb] at hp
      rw [along_congr r.bucketCount, home_congr r.bucketCount, r.distance_node]
      exact ho.exact b hash hb hp
    · rw [r.isTombstone_node]
      exact ho.noTombstone b
    · rw [r.distance_node, r.maxDist]
      exact ho.bounded b
  · rw [r.count_eq r.isLive_node, r.size, h.liveCount]
  · rw [r.count_eq r.isTombstone_node, r.tombstones, h.tombstoneCount]
  · rw [r.maxDist]
    exact h.one_le_maxDist
  · rw [r.maxDist]
    exact h.maxDist_le
  · rw [r.bucketCount, r.size, r.tombstones]
    exact h.room

end Index

end OrderedHash
