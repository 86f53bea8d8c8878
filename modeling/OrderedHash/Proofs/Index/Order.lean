import OrderedHash.Proofs.Index.Contents
import OrderedHash.Proofs.Index.Ring

namespace OrderedHash

namespace Index

/-!
# Where the nodes of a slot index lie

While an index is not linear its nodes are `Ordered`: each holds its distance from home,
and from one bucket to the next the distance grows by at most one, an empty bucket having
distance `-1`. In both modes the nodes are `Chained`: no empty bucket lies between a node
and its home. The order gives the chains as long as some bucket is empty
(`Ordered.chained`), which is how an index may turn linear in the middle of an insertion.

`Sound ix P` is the invariant of every index: its contents, the places of its nodes, its
counters, and that it is never full.
-/

variable {ix ix' : Index} {P : Nat → Option UInt64}

/-- The nodes are in the order of their homes and hold their distances from them. -/
structure Ordered (ix : Index) (P : Nat → Option UInt64) : Prop where
  /-- From a bucket to the next the distance grows by at most one. -/
  step : ∀ b < ix.bucketCount, (ix.node (ix.next b)).distance ≤ (ix.node b).distance + 1
  /-- A live node lies as far from its home as it says. -/
  exact : ∀ b h, (ix.node b).isLive → P (ix.node b).pos = some h →
    ix.along (ix.home h) (ix.node b).distance.toNat = b
  noTombstone : ∀ b, (ix.node b).isTombstone = false
  bounded : ∀ b, (ix.node b).distance ≤ ix.maxDist

/-- No empty bucket lies between a live node and its home. -/
def Chained (ix : Index) (P : Nat → Option UInt64) : Prop :=
  ∀ b h, (ix.node b).isLive → P (ix.node b).pos = some h →
    ∃ d, ix.along (ix.home h) d = b ∧
      ∀ k < d, (ix.node (ix.along (ix.home h) k)).isEmpty = false

/-- The invariant of a slot index with the contents `P`. -/
structure Sound (ix : Index) (P : Nat → Option UInt64) : Prop where
  holds : ix.Holds P
  chained : ix.Chained P
  ordered : ix.isLinear = false → ix.Ordered P
  liveCount : ix.count Node.isLive = ix.size
  tombstoneCount : ix.count Node.isTombstone = ix.tombstones
  one_le_maxDist : 1 ≤ ix.maxDist
  maxDist_le : ix.maxDist ≤ Node.maxDistance
  /-- A null index has no node; any other has the least number of buckets or more, and
      some of them are empty. -/
  room : ix.bucketCount = 1 ∧ ix.size + ix.tombstones = 0 ∨
    LoadFactor.minBuckets ≤ ix.bucketCount ∧
      ix.size + ix.tombstones ≤ LoadFactor.fillLimit ix.bucketCount

/-! ### Indexes with the same buckets -/

theorem node_congr (h : ix'.buckets = ix.buckets) (b : Nat) : ix'.node b = ix.node b := by
  rw [node, node, h]

theorem bucketCount_congr (h : ix'.buckets = ix.buckets) : ix'.bucketCount = ix.bucketCount := by
  rw [bucketCount, bucketCount, h]

/-- The contents depend on the buckets alone. -/
theorem Holds.congr (h : ix.Holds P) (hb : ix'.buckets = ix.buckets) : ix'.Holds P := by
  have hnode : ix'.node = ix.node := funext (node_congr hb)
  obtain ⟨dead, range, stored, held, once, below⟩ := h
  exact ⟨by rwa [hnode], by rwa [hnode], by rwa [hnode], by rwa [hnode], by rwa [hnode], below⟩

/-- The order depends on the buckets and on a bound of the distances. -/
theorem Ordered.congr (h : ix.Ordered P) (hb : ix'.buckets = ix.buckets)
    (hle : ix.maxDist ≤ ix'.maxDist) : ix'.Ordered P where
  step b hlt := by
    rw [bucketCount_congr hb] at hlt
    rw [next_congr (bucketCount_congr hb), node_congr hb, node_congr hb]
    exact h.step b hlt
  exact b hash hlive hp := by
    rw [node_congr hb] at hlive hp ⊢
    rw [along_congr (bucketCount_congr hb), home_congr (bucketCount_congr hb)]
    exact h.exact b hash hlive hp
  noTombstone b := by
    rw [node_congr hb]
    exact h.noTombstone b
  bounded b := by
    rw [node_congr hb]
    have := h.bounded b
    omega

/-- The chains depend on the buckets alone. -/
theorem Chained.congr (h : ix.Chained P) (hb : ix'.buckets = ix.buckets) :
    ix'.Chained P := by
  intro b hash hlive hp
  rw [node_congr hb] at hlive hp
  obtain ⟨d, hd, hall⟩ := h b hash hlive hp
  rw [home_congr (bucketCount_congr hb)]
  refine ⟨d, by rw [along_congr (bucketCount_congr hb), hd], fun k hk => ?_⟩
  rw [along_congr (bucketCount_congr hb), node_congr hb]
  exact hall k hk

/-! ### What the order gives -/

namespace Ordered

theorem distance_lt_maxDistance (h : ix.Ordered P) (hmax : ix.maxDist < Node.maxDistance)
    (b : Nat) : (ix.node b).distance < Node.maxDistance :=
  lt_of_le_of_lt (h.bounded b) (Int.ofNat_lt.mpr hmax)

/-- Along `k` buckets the distance grows by at most `k`. -/
theorem distance_along_le (h : ix.Ordered P) {b : Nat} (hb : b < ix.bucketCount) (k : Nat) :
    (ix.node (ix.along b k)).distance ≤ (ix.node b).distance + k := by
  induction k with
  | zero =>
    rw [along_zero ix hb]
    omega
  | succ k ih =>
    have hstep := h.step (ix.along b k) (ix.along_lt b k (by omega))
    rw [next_along] at hstep
    omega

/-- On the way from its home to a node every distance is at least the number of steps. -/
theorem le_distance (h : ix.Ordered P) {b : Nat} {hash : UInt64} (hb : (ix.node b).isLive)
    (hp : P (ix.node b).pos = some hash) {k : Nat} (hk : k ≤ (ix.node b).distance.toNat)
    (hpos : 0 ≤ (ix.node b).distance) :
    (k : Int) ≤ (ix.node (ix.along (ix.home hash) k)).distance := by
  have hlt : b < ix.bucketCount := lt_of_isLive hb
  have hle := h.distance_along_le (ix.along_lt (ix.home hash) k (by omega))
    ((ix.node b).distance.toNat - k)
  rw [along_along, show k + ((ix.node b).distance.toNat - k) = (ix.node b).distance.toNat by omega,
    h.exact b hash hb hp] at hle
  omega

/-- On the way from its home to a node no bucket is empty. -/
theorem isEmpty_eq_false (h : ix.Ordered P) {b : Nat} {hash : UInt64} (hb : (ix.node b).isLive)
    (hp : P (ix.node b).pos = some hash) {k : Nat} (hk : k ≤ (ix.node b).distance.toNat)
    (hpos : 0 ≤ (ix.node b).distance) :
    (ix.node (ix.along (ix.home hash) k)).isEmpty = false := by
  have hle := h.le_distance hb hp hk hpos
  exact Node.isEmpty_of_nonneg (by omega)

/-- In an ordered index no empty bucket lies between a node and its home. -/
theorem chained (h : ix.Ordered P) (hh : ix.Holds P) : ix.Chained P := by
  intro b hash hb hp
  refine ⟨(ix.node b).distance.toNat, h.exact b hash hb hp, fun k hk => ?_⟩
  exact h.isEmpty_eq_false hb hp (le_of_lt hk) (hh.range b hb).1

/-- A live node lies less than one round away from its home. -/
theorem distance_lt (h : ix.Ordered P) (hh : ix.Holds P)
    (hempty : ∃ e < ix.bucketCount, (ix.node e).isEmpty) {b : Nat} (hb : (ix.node b).isLive) :
    (ix.node b).distance.toNat < ix.bucketCount := by
  obtain ⟨e, he, hempty⟩ := hempty
  obtain ⟨hash, hp, -⟩ := hh.stored b hb
  by_contra hge
  obtain ⟨k, hk, rfl⟩ := ix.exists_along (ix.home_lt hash (by omega)) he
  have hfalse := h.isEmpty_eq_false hb hp (k := k) (by omega) (hh.range b hb).1
  rw [hempty] at hfalse
  exact Bool.noConfusion hfalse

/-- The distance of a live node is the gap between its home and its bucket. -/
theorem distance_eq_gap (h : ix.Ordered P) (hh : ix.Holds P)
    (hempty : ∃ e < ix.bucketCount, (ix.node e).isEmpty) {b : Nat} {hash : UInt64}
    (hb : (ix.node b).isLive) (hp : P (ix.node b).pos = some hash) :
    (ix.node b).distance = ix.gap (ix.home hash) b := by
  have hlt : b < ix.bucketCount := lt_of_isLive hb
  have heq : ix.along (ix.home hash) (ix.node b).distance.toNat
      = ix.along (ix.home hash) (ix.gap (ix.home hash) b) := by
    rw [h.exact b hash hb hp, ix.along_gap (ix.home_lt hash (by omega)) hlt]
  have hgap := ix.along_inj (h.distance_lt hh hempty hb) (ix.gap_lt _ _ (by omega)) heq
  have hpos := (hh.range b hb).1
  omega

/-- A node that is not empty is live, since no node is a tombstone. -/
theorem isLive_of_isEmpty (h : ix.Ordered P) {b : Nat} (hb : (ix.node b).isEmpty = false) :
    (ix.node b).isLive := by
  simp [Node.isLive, hb, h.noTombstone b]

theorem count_isTombstone (h : ix.Ordered P) : ix.count Node.isTombstone = 0 := by
  rw [count, Array.countP_eq_zero]
  intro n hn
  obtain ⟨b, hb, rfl⟩ := Array.getElem_of_mem hn
  rw [← node_eq_getElem hb, h.noTombstone]
  exact Bool.false_ne_true

/-- A node takes a place in the order if it is not too far from home for the bucket before,
    and at least as far as the node that was there. -/
theorem setNode (h : ix.Ordered P) {b : Nat} (hb : b < ix.bucketCount) (hone : 1 < ix.bucketCount)
    {n : Node} (hn : n.isTombstone = false) (hmax : n.distance ≤ ix.maxDist)
    (hprev : ∀ c < ix.bucketCount, ix.next c = b → n.distance ≤ (ix.node c).distance + 1)
    (hnext : (ix.node (ix.next b)).distance ≤ n.distance + 1) {P' : Nat → Option UInt64}
    (hexact : n.isLive → ∀ hash, P' n.pos = some hash →
      ix.along (ix.home hash) n.distance.toNat = b)
    (hother : ∀ c hash, b ≠ c → (ix.node c).isLive → P' (ix.node c).pos = some hash →
      P (ix.node c).pos = some hash) :
    (ix.setNode b n).Ordered P' where
  step c hc := by
    rw [bucketCount_setNode] at hc
    rw [next_congr (bucketCount_setNode ix b n)]
    by_cases hbc : b = c
    · subst hbc
      rw [node_setNode_self hb, node_setNode_of_ne (ix.next_ne hb hone).symm]
      exact hnext
    · rw [node_setNode_of_ne hbc]
      -- the bucket that was set may come before or after the one looked at
      by_cases hbn : b = ix.next c
      · subst hbn
        rw [node_setNode_self hb]
        exact hprev c hc rfl
      · rw [node_setNode_of_ne hbn]
        exact h.step c hc
  exact c hash hc hp := by
    rw [along_congr (bucketCount_setNode ix b n), home_congr (bucketCount_setNode ix b n)]
    by_cases hbc : b = c
    · subst hbc
      rw [node_setNode_self hb] at hc hp ⊢
      exact hexact hc hash hp
    · rw [node_setNode_of_ne hbc] at hc hp ⊢
      exact h.exact c hash hc (hother c hash hbc hc hp)
  noTombstone c := by
    by_cases hbc : b = c
    · subst hbc
      rwa [node_setNode_self hb]
    · rw [node_setNode_of_ne hbc]
      exact h.noTombstone c
  bounded c := by
    by_cases hbc : b = c
    · subst hbc
      rwa [node_setNode_self hb]
    · rw [node_setNode_of_ne hbc]
      exact h.bounded c

end Ordered

/-! ### What the invariant gives -/

namespace Sound

theorem bucketCount_pos (h : ix.Sound P) : 0 < ix.bucketCount := by
  rcases h.room with ⟨hone, -⟩ | ⟨hmin, -⟩
  · omega
  · exact Nat.lt_of_lt_of_le (by decide) hmin

/-- An index is never full. -/
theorem size_lt (h : ix.Sound P) : ix.size + ix.tombstones < ix.bucketCount := by
  rcases h.room with ⟨hone, hzero⟩ | ⟨hmin, hfill⟩
  · omega
  · have hpos : 0 < ix.bucketCount := h.bucketCount_pos
    rw [LoadFactor.fillLimit] at hfill
    omega

/-- Some bucket is empty. -/
theorem exists_isEmpty (h : ix.Sound P) : ∃ b < ix.bucketCount, (ix.node b).isEmpty := by
  apply Index.exists_isEmpty
  rw [h.liveCount, h.tombstoneCount]
  exact h.size_lt

/-- An index that is not linear has distances below the greatest. -/
theorem maxDist_lt (h : ix.isLinear = false) : ix.maxDist < Node.maxDistance := by
  simpa [isLinear] using h

end Sound

end Index

end OrderedHash
