import OrderedHash.Index.Erase
import OrderedHash.Proofs.Index.Order

namespace OrderedHash

namespace Index

open Function (update)

/-!
# Removing a node keeps the invariant

In distance order the nodes after the removed one move back. While they do, the bucket to
be filled next still shows the node that has left it. This stale node fits into the order,
so that the ring is ordered at every moment, and the contents are those of the index in
which that one bucket is empty (`shiftBack_erased`).

Under linear probing a tombstone takes the place of the node, which interrupts no chain.
Both ways end in `Sound.eraseNode`.
-/

variable {ix : Index} {P : Nat → Option UInt64}

/-! ### Moving nodes back -/

/-- The index `r` comes from `ix` by removing one node, and stores `P` in order. -/
structure Erased (ix r : Index) (P : Nat → Option UInt64) : Prop where
  holds : r.Holds P
  ordered : r.Ordered P
  liveCount : r.count Node.isLive + 1 = ix.count Node.isLive
  bucketCount : r.bucketCount = ix.bucketCount
  size : r.size = ix.size
  tombstones : r.tombstones = ix.tombstones
  maxDist : r.maxDist = ix.maxDist
  loadFactor : r.loadFactor = ix.loadFactor

/-- The last bucket vacated is emptied. -/
theorem setNode_empty_erased (ho : ix.Ordered P) {b : Nat} (hh : (ix.setNode b .empty).Holds P)
    (hone : 1 < ix.bucketCount) (hb : (ix.node b).isLive)
    (hnext : (ix.node (ix.next b)).distance ≤ 0) : Erased ix (ix.setNode b .empty) P := by
  have hlt : b < ix.bucketCount := lt_of_isLive hb
  have hord : (ix.setNode b .empty).Ordered P := by
    refine ho.setNode hlt hone Node.isTombstone_empty ?_ ?_ ?_ ?_ (fun _ _ _ _ hp => hp)
    · rw [Node.distance_empty]
      omega
    -- an empty bucket counts as one before home, which any node may follow
    · intro c hc hcb
      have hne : b ≠ c := by
        rintro rfl
        exact ix.next_ne hc hone hcb
      have hle := hh.neg_one_le_distance c
      rw [node_setNode_of_ne hne] at hle
      rw [Node.distance_empty]
      omega
    · rw [Node.distance_empty]
      omega
    · intro hlive
      rw [Node.isLive_empty] at hlive
      exact Bool.noConfusion hlive
  exact ⟨hh, hord, ix.count_setNode_sub Node.isLive hlt hb Node.isLive_empty,
    bucketCount_setNode ix b _, rfl, rfl, rfl, rfl⟩

/-- The node after a vacated bucket, as it is when it has moved back into it. -/
def movedBack (ix : Index) (b : Nat) : Node :=
  (ix.node (ix.next b)).withDistance ((ix.node (ix.next b)).distance - 1)

/-- A node that is not at home may come one bucket closer to it. -/
theorem movedBack_range (ho : ix.Ordered P) (hone : 1 < ix.bucketCount) {b : Nat}
    (hh : (ix.setNode b .empty).Holds P) (hb : b < ix.bucketCount)
    (hpos : 0 < (ix.node (ix.next b)).distance) :
    (ix.node (ix.next b)).isLive ∧
      (ix.movedBack b).distance = (ix.node (ix.next b)).distance - 1 ∧
      0 ≤ (ix.movedBack b).distance ∧ (ix.movedBack b).distance ≤ Node.maxDistance := by
  have hlive : (ix.node (ix.next b)).isLive := by
    exact ho.isLive_of_isEmpty (Node.isEmpty_of_nonneg (by omega))
  -- the vacated bucket is not the one that the node is in
  have hbound : (ix.node (ix.next b)).distance ≤ Node.maxDistance := by
    have hnode : (ix.setNode b .empty).node (ix.next b) = ix.node (ix.next b) :=
      node_setNode_of_ne (ix.next_ne hb hone).symm .empty
    have hrange := hh.range (ix.next b)
    rw [hnode] at hrange
    exact (hrange hlive).2
  have hmax : (Node.maxDistance : Int) = 126 := rfl
  have hdist : (ix.movedBack b).distance = (ix.node (ix.next b)).distance - 1 :=
    Node.distance_withDistance _ (by omega) (by omega)
  exact ⟨hlive, hdist, by omega, by omega⟩

/-- When a node has moved back, the bucket that it left still shows it, in order. -/
theorem Ordered.moveBack (ho : ix.Ordered P) (hone : 1 < ix.bucketCount) {b : Nat}
    (hh : (ix.setNode b .empty).Holds P) (hb : b < ix.bucketCount)
    (hpos : 0 < (ix.node (ix.next b)).distance) : (ix.setNode b (ix.movedBack b)).Ordered P := by
  obtain ⟨hlive, hdist, hrange⟩ := movedBack_range ho hone hh hb hpos
  have hmpos : (ix.movedBack b).pos = (ix.node (ix.next b)).pos := Node.pos_withDistance _ _
  refine ho.setNode hb hone (Node.isTombstone_of_isLive (Node.isLive_of_range hrange))
    ?_ ?_ ?_ ?_ (fun _ _ _ _ hp => hp)
  · have := ho.bounded (ix.next b)
    omega
  -- the node before was at most one closer to home than the one that left
  · intro x hx hxb
    have hstep := ho.step x hx
    have hstep' := ho.step b hb
    rw [hxb] at hstep
    omega
  · omega
  -- one bucket back is one bucket less from home
  · intro _ hash hp
    rw [hmpos] at hp
    have hexact := ho.exact _ hash hlive hp
    rw [show (ix.node (ix.next b)).distance.toNat = (ix.movedBack b).distance.toNat + 1 by omega,
      ← next_along] at hexact
    exact ix.next_inj (ix.along_lt _ _ (by omega)) hb hexact

/-- The nodes after a vacated bucket move back, up to the next one at home or to the next
    empty bucket, which is met within the given number of steps. -/
theorem shiftBack_erased {fuel : Nat} (ho : ix.Ordered P) (hone : 1 < ix.bucketCount) {b e : Nat}
    (hh : (ix.setNode b .empty).Holds P) (hb : (ix.node b).isLive) (he : 1 ≤ e) (hfuel : e ≤ fuel)
    (hlt : e < ix.bucketCount) (hempty : (ix.node (ix.along b e)).isEmpty) :
    Erased ix (shiftBack ix fuel b) P := by
  -- the induction follows the vacated bucket around the ring
  induction fuel generalizing ix b e with
  | zero => omega
  | succ fuel ih =>
    have hbc : b < ix.bucketCount := lt_of_isLive hb
    have hne : b ≠ ix.next b := (ix.next_ne hbc hone).symm
    by_cases hpos : 0 < (ix.node (ix.next b)).distance
    · rw [shiftBack, if_pos hpos]
      show Erased ix ((ix.setNode b (ix.movedBack b)).shiftBack fuel (ix.next b)) P
      obtain ⟨e, rfl⟩ := Nat.exists_eq_add_of_le' he
      obtain ⟨hlive, -, hrange⟩ := movedBack_range ho hone hh hbc hpos
      have hmlive : (ix.movedBack b).isLive := Node.isLive_of_range hrange
      have hholds : ((ix.setNode b (ix.movedBack b)).setNode (ix.next b) .empty).Holds P :=
        hh.relocate hbc hlive hne hmlive hrange (Node.pos_withDistance _ _)
          (Node.tinyHash_withDistance _ _)
      have hcount := bucketCount_setNode ix b (ix.movedBack b)
      have hnode : (ix.setNode b (ix.movedBack b)).node (ix.next b) = ix.node (ix.next b) :=
        node_setNode_of_ne hne _
      have hlen : 1 ≤ e := by
        rw [← along_next] at hempty
        exact ix.one_le_of_isEmpty_along (ix.next_lt b (by omega))
          (Node.isEmpty_of_nonneg (le_of_lt hpos)) hempty
      have hempty' : ((ix.setNode b (ix.movedBack b)).node
          ((ix.setNode b (ix.movedBack b)).along (ix.next b) e)).isEmpty := by
        rw [along_congr hcount, along_next, node_setNode_of_ne (ix.along_ne hbc he hlt).symm]
        exact hempty
      have hrest := ih (ho.moveBack hone hh hbc hpos) (hcount.symm ▸ hone) hholds
        (hnode.symm ▸ hlive) hlen (by omega) (by omega) hempty'
      have hsame : (ix.setNode b (ix.movedBack b)).count Node.isLive = ix.count Node.isLive :=
        ix.count_setNode_same Node.isLive hbc (hmlive.trans hb.symm)
      exact ⟨hrest.holds, hrest.ordered, hrest.liveCount.trans hsame,
        hrest.bucketCount.trans hcount, hrest.size, hrest.tombstones, hrest.maxDist,
        hrest.loadFactor⟩
    · rw [shiftBack, if_neg hpos]
      exact setNode_empty_erased ho hh hone hb (not_lt.mp hpos)

/-! ### Leaving a tombstone -/

/-- A tombstone interrupts no chain. -/
theorem Chained.drop (h : ix.Chained P) {b : Nat} (hb : b < ix.bucketCount) {P' : Nat → Option UInt64}
    (hle : ∀ p hash, P' p = some hash → P p = some hash) :
    (ix.setNode b .tombstone).Chained P' := by
  intro c hash hc hp
  have hne : b ≠ c := by
    rintro rfl
    rw [node_setNode_self hb, Node.isLive_tombstone] at hc
    exact Bool.noConfusion hc
  rw [node_setNode_of_ne hne] at hc hp
  obtain ⟨d, hd, hall⟩ := h c hash hc (hle _ _ hp)
  rw [home_congr (bucketCount_setNode ix b _)]
  refine ⟨d, by rw [along_congr (bucketCount_setNode ix b _), hd], fun k hk => ?_⟩
  rw [along_congr (bucketCount_setNode ix b _), node_setNode]
  split
  · exact Node.isEmpty_tombstone
  · exact hall k hk

/-! ### Removing a node -/

/-- The index `r` comes from `ix` by removing one position, and stores `P`. -/
structure Removed (ix r : Index) (P : Nat → Option UInt64) : Prop where
  sound : r.Sound P
  bucketCount : r.bucketCount = ix.bucketCount
  size : r.size + 1 = ix.size
  loadFactor : r.loadFactor = ix.loadFactor

/-- What is stored without a position was stored with it. -/
theorem of_update_none {p q : Nat} {hash : UInt64} (h : update P p none q = some hash) :
    P q = some hash := by
  by_cases hq : q = p
  · rw [hq, Function.update_self] at h
    cases h
  · rwa [Function.update_of_ne hq] at h

section Live

variable {b : Nat}

theorem Sound.size_pos (h : ix.Sound P) (hb : (ix.node b).isLive) : 0 < ix.size := by
  have hlt : b < ix.bucketCount := lt_of_isLive hb
  rw [← h.liveCount, count, Array.countP_pos_iff]
  exact ⟨ix.node b, by rw [node_eq_getElem hlt]; exact Array.getElem_mem hlt, hb⟩

/-- An index with a live node is not null. -/
theorem Sound.room_of_isLive (h : ix.Sound P) (hb : (ix.node b).isLive) :
    LoadFactor.minBuckets ≤ ix.bucketCount ∧
      ix.size + ix.tombstones ≤ LoadFactor.fillLimit ix.bucketCount := by
  have hsize := h.size_pos hb
  rcases h.room with ⟨-, hzero⟩ | hroom
  · omega
  · exact hroom

/-- Under linear probing a live node is removed by a tombstone. -/
theorem Sound.bury (h : ix.Sound P) (hb : (ix.node b).isLive) (hlinear : ix.isLinear) :
    Removed ix
      (setNode { ix with size := ix.size - 1, tombstones := ix.tombstones + 1 } b .tombstone)
      (update P (ix.node b).pos none) := by
  have hlt : b < ix.bucketCount := lt_of_isLive hb
  have hsize := h.size_pos hb
  obtain ⟨hmin, hfill⟩ := h.room_of_isLive hb
  -- the counts are compared on the index whose buckets are still those before
  set marked : Index := { ix with size := ix.size - 1, tombstones := ix.tombstones + 1 }
  have hlive := marked.count_setNode_sub Node.isLive hlt hb Node.isLive_tombstone
  have htomb := marked.count_setNode_add Node.isTombstone hlt
    (Node.isTombstone_of_isLive hb) Node.isTombstone_tombstone
  have hmarked : marked.Holds P := h.holds.congr rfl
  refine ⟨⟨hmarked.drop hb (Or.inr rfl), ?_, fun hnot => ?_, ?_, ?_,
    h.one_le_maxDist, h.maxDist_le, Or.inr ⟨?_, ?_⟩⟩, bucketCount_setNode _ _ _, ?_, rfl⟩
  · exact Chained.drop (h.chained.congr rfl) hlt fun _ _ => of_update_none
  · exact absurd (hlinear.symm.trans hnot) (by decide)
  · show (marked.setNode b .tombstone).count Node.isLive = ix.size - 1
    have hcount : marked.count Node.isLive = ix.size := h.liveCount
    omega
  · exact htomb.trans (congrArg (· + 1) h.tombstoneCount)
  · rwa [bucketCount_setNode]
  · rw [bucketCount_setNode]
    show ix.size - 1 + (ix.tombstones + 1) ≤ LoadFactor.fillLimit ix.bucketCount
    omega
  · exact Nat.sub_add_cancel hsize

/-- In distance order a live node is removed by moving those after it back. -/
theorem Sound.closeGap (h : ix.Sound P) (hb : (ix.node b).isLive) (hnot : ix.isLinear = false) :
    Removed ix (shiftBack { ix with size := ix.size - 1 } ix.bucketCount b)
      (update P (ix.node b).pos none) := by
  have hlt : b < ix.bucketCount := lt_of_isLive hb
  have hsize := h.size_pos hb
  obtain ⟨hmin, hfill⟩ := h.room_of_isLive hb
  have hone : 1 < ix.bucketCount := lt_of_lt_of_le (by decide) hmin
  have hord := h.ordered hnot
  set base : Index := { ix with size := ix.size - 1 }
  have hholds : base.Holds P := h.holds.congr rfl
  have hord' : base.Ordered (update P (ix.node b).pos none) := by
    obtain ⟨step, exact, noTombstone, bounded⟩ : base.Ordered P := hord.congr rfl le_rfl
    exact ⟨step, fun c hash hc hp => exact c hash hc (of_update_none hp), noTombstone, bounded⟩
  -- the nodes that move back are those before the next empty bucket
  obtain ⟨_, he, hempty⟩ := h.exists_isEmpty
  obtain ⟨e, helt, rfl⟩ := ix.exists_along hlt he
  have hpos : 1 ≤ e := ix.one_le_of_isEmpty_along hlt (Node.isEmpty_of_isLive hb) hempty
  have hs : Erased base (base.shiftBack ix.bucketCount b) (update P (ix.node b).pos none) :=
    shiftBack_erased hord' hone (hholds.drop hb (Or.inl rfl)) hb hpos (le_of_lt helt) helt hempty
  refine ⟨⟨hs.holds, hs.ordered.chained hs.holds, fun _ => hs.ordered, ?_, ?_, ?_, ?_,
    Or.inr ⟨?_, ?_⟩⟩, hs.bucketCount, ?_, hs.loadFactor⟩
  · have hcount : base.count Node.isLive = ix.size := h.liveCount
    have hlive := hs.liveCount
    rw [hs.size]
    show (base.shiftBack ix.bucketCount b).count Node.isLive = ix.size - 1
    omega
  · rw [hs.ordered.count_isTombstone, hs.tombstones]
    exact hord.count_isTombstone.symm.trans h.tombstoneCount
  · rw [hs.maxDist]
    exact h.one_le_maxDist
  · rw [hs.maxDist]
    exact h.maxDist_le
  · rw [hs.bucketCount]
    exact hmin
  · rw [hs.bucketCount, hs.size, hs.tombstones]
    show ix.size - 1 + ix.tombstones ≤ LoadFactor.fillLimit ix.bucketCount
    omega
  · rw [hs.size]
    exact Nat.sub_add_cancel hsize

/-- A live node is removed with its position. -/
theorem Sound.eraseNode (h : ix.Sound P) (hb : (ix.node b).isLive) :
    Removed ix (ix.eraseNode b) (update P (ix.node b).pos none) := by
  unfold Index.eraseNode
  dsimp only
  split
  · rename_i hlinear
    exact h.bury hb hlinear
  · rename_i hlinear
    exact h.closeGap hb (Bool.eq_false_iff.mpr hlinear)

end Live

end Index

end OrderedHash
