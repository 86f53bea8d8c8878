import OrderedHash.Proofs.Index.Runs
import Mathlib.Data.Finset.Card
import Mathlib.Order.Interval.Finset.Nat

namespace OrderedHash

/-!
# The layout of an index in distance order

In distance order the number of buckets and the homes of the nodes settle what distance
stands in every bucket (`distance_eq_of_homes`): neither the order in which nodes came nor
those that have left again show.

The homes settle it by counting (`le_distance_iff`): the distance in bucket `x` is `k` or
more just if, for some positive `j`, at least `j` nodes have their homes at least `k` and
fewer than `j` places before `x`. So many nodes do not fit into the `j - 1` buckets before
`x`, so that one of them lies in `x` or beyond. Conversely the unbroken run of nodes that
ends at `x` is such a group.
-/

namespace Index

variable {ix ix' : Index} {P P' : Nat → Option UInt64} {hashAt hashAt' : Nat → UInt64}

/-- The homes of the live nodes, one for each. -/
def homes (ix : Index) (hashAt : Nat → UInt64) : List Nat :=
  ix.positions.map fun p => ix.home (hashAt p)

/-- The number of homes at least `k` and fewer than `j` places before bucket `x`. -/
def between (ix : Index) (homes : List Nat) (x k j : Nat) : Nat :=
  homes.countP fun a => decide (k ≤ ix.gap a x) && decide (ix.gap a x < j)

theorem between_congr (h : ix'.bucketCount = ix.bucketCount) (homes : List Nat) (x k j : Nat) :
    ix'.between homes x k j = ix.between homes x k j := by
  simp only [between, gap_congr h]

theorem between_perm (ix : Index) {homes homes' : List Nat} (h : homes.Perm homes')
    (x k j : Nat) : ix.between homes x k j = ix.between homes' x k j :=
  h.countP_eq _

/-- The buckets of the live nodes that have their homes at least `k` and fewer than `j`
    places before bucket `x`. -/
def group (ix : Index) (hashAt : Nat → UInt64) (x k j : Nat) : Finset Nat :=
  (Finset.range ix.bucketCount).filter fun b => (ix.node b).isLive ∧
    k ≤ ix.gap (ix.home (hashAt (ix.node b).pos)) x ∧
    ix.gap (ix.home (hashAt (ix.node b).pos)) x < j

theorem mem_group {x k j b : Nat} : b ∈ ix.group hashAt x k j ↔ (ix.node b).isLive ∧
    k ≤ ix.gap (ix.home (hashAt (ix.node b).pos)) x ∧
    ix.gap (ix.home (hashAt (ix.node b).pos)) x < j := by
  rw [group, Finset.mem_filter, Finset.mem_range]
  exact ⟨And.right, fun h => ⟨lt_of_isLive h.1, h⟩⟩

theorem between_homes (ix : Index) (hashAt : Nat → UInt64) (x k j : Nat) :
    ix.between (ix.homes hashAt) x k j = (ix.group hashAt x k j).card := by
  rw [between, homes, positions, liveNodes_eq, List.map_map, List.map_map, List.countP_map,
    List.countP_filter, List.countP_eq_length_filter]
  show _ = ((List.range ix.bucketCount).filter _).length
  congr 2
  funext b
  simp [Bool.and_comm]

/-! ### The distance in a bucket by counting homes -/

/-- Some empty bucket is the next one before `x`. -/
theorem exists_isEmpty_before (h : ∃ e < ix.bucketCount, (ix.node e).isEmpty) (x : Nat) :
    ∃ e < ix.bucketCount, (ix.node e).isEmpty ∧
      ∀ b < ix.bucketCount, ix.gap b x < ix.gap e x → (ix.node b).isEmpty = false := by
  have hex : ∃ j, ∃ e < ix.bucketCount, (ix.node e).isEmpty ∧ ix.gap e x = j := by
    obtain ⟨e, he, hempty⟩ := h
    exact ⟨_, e, he, hempty, rfl⟩
  obtain ⟨e, he, hempty, hgap⟩ := Nat.find_spec hex
  refine ⟨e, he, hempty, fun b hb hlt => ?_⟩
  by_contra hcon
  exact Nat.find_min hex (hgap ▸ hlt) ⟨b, hb, by simpa using hcon, rfl⟩

section Sound

variable (h : ix.Sound P) (hnot : ix.isLinear = false)
  (hhash : ∀ p hash, P p = some hash → hashAt p = hash)

include h hnot hhash

/-- In distance order the distance of a node is the gap from its home to it. -/
theorem distance_eq_gap_home {b : Nat} (hb : (ix.node b).isLive) :
    (ix.node b).distance = ix.gap (ix.home (hashAt (ix.node b).pos)) b := by
  obtain ⟨hash, hp, -⟩ := h.holds.stored b hb
  rw [hhash _ _ hp]
  exact (h.ordered hnot).distance_eq_gap h.holds h.exists_isEmpty hb hp

/-- A node that has its home `k` or more places before `x` lies before `x` itself if the
    distance in `x` is less than `k`. -/
theorem gap_lt_gap_home {x k b : Nat} (hx : x < ix.bucketCount) (hlow : (ix.node x).distance < k)
    (hb : (ix.node b).isLive) (hk : k ≤ ix.gap (ix.home (hashAt (ix.node b).pos)) x) :
    ix.gap (ix.home (hashAt (ix.node b).pos)) b < ix.gap (ix.home (hashAt (ix.node b).pos)) x := by
  set a := ix.home (hashAt (ix.node b).pos) with ha
  have hdist : (ix.node b).distance = ix.gap a b := distance_eq_gap_home h hnot hhash hb
  have hblt : b < ix.bucketCount := lt_of_isLive hb
  have halt : a < ix.bucketCount := ix.home_lt _ (by omega)
  by_contra hge
  -- the walk from its home to the node passes `x`, where the distance is too small for that
  have hsplit := ix.gap_add_of_le_left halt hx hblt (not_lt.mp hge)
  have hle := (h.ordered hnot).distance_along_le hx (ix.gap x b)
  rw [ix.along_gap hx hblt] at hle
  omega

/-- Where the distance is less than `k` no group of nodes is too large for the buckets
    before. -/
theorem card_group_lt {x k j : Nat} (hx : x < ix.bucketCount)
    (hlow : (ix.node x).distance < k) (hj : 0 < j) : (ix.group hashAt x k j).card < j := by
  -- different nodes of the group have different gaps to the bucket, none of which is zero
  have hcard : (ix.group hashAt x k j).card ≤ (Finset.Ico 1 j).card := by
    refine Finset.card_le_card_of_injOn (fun b => ix.gap b x) ?_ ?_
    · intro b hb
      obtain ⟨hlive, hk, hlt⟩ := mem_group.mp hb
      have hblt : b < ix.bucketCount := lt_of_isLive hlive
      have hbefore := gap_lt_gap_home h hnot hhash hx hlow hlive hk
      have hsplit := ix.gap_add_of_le_left (ix.home_lt _ (by omega)) hblt hx (le_of_lt hbefore)
      have hmem : 1 ≤ ix.gap b x ∧ ix.gap b x < j := by omega
      exact Finset.mem_coe.mpr (Finset.mem_Ico.mpr hmem)
    · intro b hb c hc hbc
      exact ix.gap_left_inj (lt_of_isLive (mem_group.mp hb).1) (lt_of_isLive (mem_group.mp hc).1)
        hx hbc
  rw [Nat.card_Ico] at hcard
  omega

/-- A node between an empty bucket and `x` has its home between them too, and `k` or more
    places before `x` if the distance in `x` is `k` or more. -/
theorem mem_group_of_isEmpty {x k e b : Nat} (hx : x < ix.bucketCount)
    (hhigh : k ≤ (ix.node x).distance) (he : e < ix.bucketCount) (hempty : (ix.node e).isEmpty)
    (hb : (ix.node b).isLive) (hlt : ix.gap b x < ix.gap e x) :
    b ∈ ix.group hashAt x k (ix.gap e x) := by
  have hord := h.ordered hnot
  have hblt : b < ix.bucketCount := lt_of_isLive hb
  have hlow : (ix.node e).distance = -1 := (Node.isEmpty_iff _).mp hempty
  have hdist := distance_eq_gap_home h hnot hhash hb
  have hhome : ix.home (hashAt (ix.node b).pos) < ix.bucketCount := ix.home_lt _ (by omega)
  have hjlt := ix.gap_lt e x (by omega)
  -- from the empty bucket on the distance has grown by less than the steps made
  have hsplit := ix.gap_add_of_le_right he hblt hx (le_of_lt hlt)
  have hfrom := hord.distance_along_le he (ix.gap e b)
  rw [ix.along_gap he hblt] at hfrom
  -- and up to `x` it can grow by no more than the steps that are left
  have hto := hord.distance_along_le hblt (ix.gap b x)
  rw [ix.along_gap hblt hx] at hto
  have hadd := ix.gap_add hhome hblt hx (by omega)
  rw [mem_group]
  exact ⟨hb, by omega, by omega⟩

/-- The nodes between the next empty bucket before `x` and `x` all have their homes `k` or
    more places before `x`, if the distance in `x` is `k` or more. -/
theorem le_card_group {x k : Nat} (hx : x < ix.bucketCount) (hhigh : k ≤ (ix.node x).distance) :
    ∃ j, 0 < j ∧ j ≤ (ix.group hashAt x k j).card := by
  obtain ⟨e, he, hempty, hfull⟩ := exists_isEmpty_before h.exists_isEmpty x
  refine ⟨ix.gap e x, ?_, ?_⟩
  · -- an empty bucket at the place itself would be farther from its home than it can be
    apply Nat.pos_of_ne_zero
    intro hzero
    have hsame : e = x := by rw [← ix.along_gap he hx, hzero, ix.along_zero he]
    have hlow : (ix.node e).distance = -1 := (Node.isEmpty_iff _).mp hempty
    rw [hsame] at hlow
    omega
  · have hbefore : ∀ i < ix.gap e x, ix.gap (ix.along e (ix.gap e x - i)) x = i :=
      fun i hi => ix.gap_along_sub he hx (le_of_lt hi)
    -- every bucket between the empty one and the place belongs to the group
    rw [← Finset.card_range (ix.gap e x)]
    refine Finset.card_le_card_of_injOn (fun i => ix.along e (ix.gap e x - i)) ?_ ?_
    · intro i hi
      have hi' : i < ix.gap e x := Finset.mem_range.mp hi
      have hlt : ix.gap (ix.along e (ix.gap e x - i)) x < ix.gap e x := by rwa [hbefore i hi']
      have hne := hfull _ (ix.along_lt _ _ (by omega)) hlt
      rw [Finset.card_range]
      exact Finset.mem_coe.mpr (mem_group_of_isEmpty h hnot hhash hx hhigh he hempty
        ((h.ordered hnot).isLive_of_isEmpty hne) hlt)
    · intro i hi i' hi' heq
      rw [← hbefore i (Finset.mem_range.mp hi), ← hbefore i' (Finset.mem_range.mp hi')]
      exact congrArg (ix.gap · x) heq

/-- The distance in a bucket is told by how many nodes have which homes. -/
theorem le_distance_iff {x : Nat} (hx : x < ix.bucketCount) (k : Nat) :
    k ≤ (ix.node x).distance ↔ ∃ j, 0 < j ∧ j ≤ ix.between (ix.homes hashAt) x k j := by
  simp only [between_homes]
  constructor
  · exact le_card_group h hnot hhash hx
  · rintro ⟨j, hj, hle⟩
    by_contra hlow
    exact absurd (card_group_lt h hnot hhash hx (not_le.mp hlow) hj) (not_lt.mpr hle)

end Sound

/-- Two indexes in distance order that have as many buckets and the same homes have the
    same distances. -/
theorem distance_eq_of_homes (h : ix.Sound P) (h' : ix'.Sound P') (hnot : ix.isLinear = false)
    (hnot' : ix'.isLinear = false) (hhash : ∀ p hash, P p = some hash → hashAt p = hash)
    (hhash' : ∀ p hash, P' p = some hash → hashAt' p = hash)
    (hcount : ix.bucketCount = ix'.bucketCount)
    (hhomes : (ix.homes hashAt).Perm (ix'.homes hashAt')) (b : Nat) :
    (ix.node b).distance = (ix'.node b).distance := by
  by_cases hb : b < ix.bucketCount
  · have hiff (k : Nat) : k ≤ (ix.node b).distance ↔ k ≤ (ix'.node b).distance := by
      rw [le_distance_iff h hnot hhash hb, le_distance_iff h' hnot' hhash' (hcount ▸ hb)]
      simp only [between_congr hcount, between_perm ix' hhomes]
    -- a distance that is at least no number of steps is the one of an empty bucket
    have hlow := h.holds.neg_one_le_distance b
    have hlow' := h'.holds.neg_one_le_distance b
    have hge := hiff (ix.node b).distance.toNat
    have hle := hiff (ix'.node b).distance.toNat
    omega
  · rw [node_of_le (not_lt.mp hb), node_of_le (hcount ▸ not_lt.mp hb)]

/-! ### Removing a node -/

theorem maxDist_shiftBack (ix : Index) (fuel b : Nat) :
    (ix.shiftBack fuel b).maxDist = ix.maxDist := by
  induction fuel generalizing ix b with
  | zero => rfl
  | succ fuel ih =>
    rw [shiftBack]
    split
    · exact ih _ _
    · rfl

theorem isLinear_eraseNode (ix : Index) (b : Nat) : (ix.eraseNode b).isLinear = ix.isLinear := by
  unfold eraseNode
  dsimp only
  split
  · rfl
  · rw [isLinear, maxDist_shiftBack]
    rfl

/-- A node that is removed takes its home along and leaves the others. -/
theorem homes_eraseNode (h : ix.Sound P) {b : Nat} (hb : (ix.node b).isLive)
    (hashAt : Nat → UInt64) : (ix.homes hashAt).Perm
      (ix.home (hashAt (ix.node b).pos) :: (ix.eraseNode b).homes hashAt) := by
  have hr := h.eraseNode hb
  have hnew : (ix.node b).pos ∉ (ix.eraseNode b).positions := by
    rw [hr.sound.holds.mem_positions, Function.update_self]
    exact nofun
  -- the node that was erased is the only one whose position is gone
  have hperm : ix.positions.Perm ((ix.node b).pos :: (ix.eraseNode b).positions) := by
    rw [List.perm_ext_iff_of_nodup h.holds.nodup_positions
      (List.nodup_cons.mpr ⟨hnew, hr.sound.holds.nodup_positions⟩)]
    intro p
    rw [List.mem_cons, h.holds.mem_positions, hr.sound.holds.mem_positions]
    by_cases hp : p = (ix.node b).pos
    · obtain ⟨hash, hstored, -⟩ := h.holds.stored b hb
      rw [hp]
      exact iff_of_true ⟨hash, hstored⟩ (Or.inl rfl)
    · rw [Function.update_of_ne hp]
      exact (or_iff_right hp).symm
  have hhome := home_congr hr.bucketCount
  simpa [homes, hhome] using hperm.map fun p => ix.home (hashAt p)

end Index

/-! ### The layout in a run -/

namespace Register

/-- The home buckets of the positions of the register. -/
def homes (r : Register) : List Nat := r.index.homes r.hashAt

end Register

namespace Bank

variable {bank bank' : Bank}

/-- Take two indexes of runs that are in distance order and have as many buckets. If their
    nodes have the same homes they have the same distances in all buckets. If the second has
    the homes of the first but for one node, then it has the distances that the first has
    once this node is removed. -/
theorem layout_of_reachable (h : Reachable bank) (h' : Reachable bank') (i j : Nat)
    (hnot : (bank i).index.isLinear = false) (hnot' : (bank' j).index.isLinear = false)
    (hcount : (bank i).index.bucketCount = (bank' j).index.bucketCount) :
    ((bank i).homes.Perm (bank' j).homes →
      ∀ b, ((bank i).index.node b).distance = ((bank' j).index.node b).distance) ∧
    ∀ c, ((bank i).index.node c).isLive →
      (bank i).homes.Perm ((bank i).index.home ((bank i).hashAt ((bank i).index.node c).pos) ::
        (bank' j).homes) →
      ∀ b, (((bank i).index.eraseNode c).node b).distance =
        ((bank' j).index.node b).distance := by
  have hi := (h.right i).indexes
  have hj := (h'.right j).indexes
  have hhash (bank : Bank) (i p : Nat) (hash : UInt64)
      (hp : Index.below (bank i).size (bank i).hashAt p = some hash) : (bank i).hashAt p = hash :=
    (Index.below_eq_some.mp hp).2
  refine ⟨fun hhomes => ?_, fun c hc hhomes => ?_⟩
  · exact Index.distance_eq_of_homes hi hj hnot hnot' (hhash bank i) (hhash bank' j) hcount hhomes
  · have hr := Index.Sound.eraseNode hi hc
    -- without the node the index still knows the hash values of the positions it holds
    have hhash' (p : Nat) (hash : UInt64)
        (hp : Function.update (Index.below (bank i).size (bank i).hashAt)
          ((bank i).index.node c).pos none p = some hash) :
        (bank i).hashAt p = hash := hhash bank i p hash (Index.of_update_none hp)
    have hleft := (Index.homes_eraseNode hi hc (bank i).hashAt).symm.trans hhomes
    exact Index.distance_eq_of_homes hr.sound hj ((Index.isLinear_eraseNode _ c).trans hnot) hnot'
      hhash' (hhash bank' j) (hr.bucketCount.trans hcount) hleft.cons_inv

/-- The homes are the last bucket, twice, and the first, in two orders of insertion. -/
theorem layout_of_reachable_wrapped :
    (∀ b, ((fill [63, 127, 64] 0).index.node b).distance =
      ((fill [64, 127, 63] 0).index.node b).distance) ∧
    ∀ b, (((fill [63, 127, 64] 0).index.eraseNode 63).node b).distance =
      ((fill [64, 127] 0).index.node b).distance := by
  have hbank := fill_reachable [63, 127, 64] (by decide)
  constructor
  · exact (layout_of_reachable hbank (fill_reachable [64, 127, 63] (by decide)) 0 0
      (by decide +kernel) (by decide +kernel) (by decide +kernel)).1 (by decide +kernel)
  · exact (layout_of_reachable hbank (fill_reachable [64, 127] (by decide)) 0 0
      (by decide +kernel) (by decide +kernel) (by decide +kernel)).2 63 (by decide +kernel)
      (by decide +kernel)

end Bank

end OrderedHash
