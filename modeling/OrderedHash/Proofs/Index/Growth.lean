import OrderedHash.Index.Resize
import OrderedHash.Index.Transfer
import OrderedHash.Proofs.Index.Insertion
import OrderedHash.Proofs.Index.Renumbering
import Mathlib.Data.List.Perm.Basic

namespace OrderedHash

/-!
# Rebuilding an index

An index that stands for the positions below a number *indexes* them (`Indexes`). Its size
is that number (`Indexes.size_eq`), since its live nodes hold each of these positions once
(`Indexes.positions_perm`).

Rebuilding starts from empty buckets and adds the positions in order (`rehash_rebuilt`).
This asks for enough buckets, which the arithmetic of load factors provides
(`LoadFactor.le_fillLimit_bucketCountFor`).
-/

namespace LoadFactor

/-- The next power of two is not below a number. -/
theorem le_nextPowerOfTwo (x : Nat) : x ≤ Hash.nextPowerOfTwo x := by
  rw [Hash.nextPowerOfTwo]
  split
  · exact le_rfl
  · rw [Nat.one_shiftLeft]
    exact Nat.le_of_lt Nat.lt_log2_self

/-- There are never fewer buckets than the minimum. -/
theorem minBuckets_le_bucketCountFor (f : LoadFactor) (count : Nat) :
    minBuckets ≤ f.bucketCountFor count :=
  le_trans (le_max_left _ _) (le_nextPowerOfTwo _)

/-- More buckets may be filled further. -/
theorem fillLimit_mono {a b : Nat} (h : a ≤ b) : fillLimit a ≤ fillLimit b :=
  Nat.div_le_div_right (Nat.mul_le_mul_right 19 h)

/-- A load factor is not zero. -/
theorem num_pos (f : LoadFactor) : 0 < f.num := by
  have := f.den_pos
  have := f.tenth_le
  omega

/-- Enough buckets for a number of positions are not too full with these under the load
    factor. -/
theorem le_target (f : LoadFactor) {count buckets : Nat} (h : f.bucketCountFor count ≤ buckets) :
    count ≤ f.target buckets := by
  have hle : count * f.den / f.num + 1 ≤ buckets :=
    le_trans (le_trans (le_max_right _ _) (le_nextPowerOfTwo _)) h
  have hlt : count * f.den < buckets * f.num := (Nat.div_lt_iff_lt_mul f.num_pos).mp hle
  exact (Nat.le_div_iff_mul_le f.den_pos).mpr hlt.le

/-- The load factor is at most 19 / 20, so that its limit is not above the other one. -/
theorem target_le_fillLimit (f : LoadFactor) (buckets : Nat) :
    f.target buckets ≤ fillLimit buckets := by
  have hscaled : f.target buckets * 20 * f.den ≤ buckets * 19 * f.den := by
    calc f.target buckets * 20 * f.den = f.target buckets * f.den * 20 := Nat.mul_right_comm _ _ _
      _ ≤ buckets * f.num * 20 := Nat.mul_le_mul_right 20 (Nat.div_mul_le_self _ _)
      _ = buckets * (20 * f.num) := by rw [Nat.mul_assoc, Nat.mul_comm f.num]
      _ ≤ buckets * (19 * f.den) := Nat.mul_le_mul_left _ f.le_nineteen_twentieths
      _ = buckets * 19 * f.den := (Nat.mul_assoc _ _ _).symm
  have hle := Nat.le_of_mul_le_mul_right hscaled f.den_pos
  exact (Nat.le_div_iff_mul_le (by decide)).mpr hle

/-- The buckets for a number of positions are not too full with these. -/
theorem le_fillLimit_bucketCountFor (f : LoadFactor) (count : Nat) :
    count ≤ fillLimit (f.bucketCountFor count) :=
  le_trans (f.le_target le_rfl) (f.target_le_fillLimit _)

end LoadFactor

namespace Index

open Function (update)

variable {ix ix' : Index} {P : Nat → Option UInt64} {count : Nat} {hashAt : Nat → UInt64}

/-! ### Indexes of the positions below a number -/

/-- The positions below `count` with their hash values. -/
def below (count : Nat) (hashAt : Nat → UInt64) (p : Nat) : Option UInt64 :=
  if p < count then some (hashAt p) else none

/-- The index stands for the positions below `count`, of which `hashAt` gives the hash values. -/
def Indexes (ix : Index) (count : Nat) (hashAt : Nat → UInt64) : Prop :=
  ix.Sound (below count hashAt)

/-- The positions below the number are those that are indexed. -/
theorem below_of_lt {p : Nat} (h : p < count) : below count hashAt p = some (hashAt p) := if_pos h

/-- No other positions are indexed. -/
theorem below_of_le {p : Nat} (h : count ≤ p) : below count hashAt p = none := if_neg (not_lt.mpr h)

/-- A position is indexed under its hash value, and under no other. -/
theorem below_eq_some {p : Nat} {hash : UInt64} :
    below count hashAt p = some hash ↔ p < count ∧ hashAt p = hash := by
  rw [below]
  split <;> simp_all

/-- Which positions are indexed depends only on the hash values of those below the number. -/
theorem below_congr {hashAt' : Nat → UInt64} (h : ∀ p < count, hashAt p = hashAt' p) :
    below count hashAt = below count hashAt' := by
  funext p
  rw [below, below]
  split
  · rename_i hp
    rw [h p hp]
  · rfl

/-- The next position may be indexed under its hash value. -/
theorem update_below (count : Nat) (hashAt : Nat → UInt64) :
    update (below count hashAt) count (some (hashAt count)) = below (count + 1) hashAt := by
  funext p
  rcases Nat.lt_trichotomy p count with hp | rfl | hp
  · rw [Function.update_of_ne (Nat.ne_of_lt hp), below_of_lt hp, below_of_lt (Nat.lt_succ_of_lt hp)]
  · rw [Function.update_self, below_of_lt (Nat.lt_succ_self p)]
  · rw [Function.update_of_ne (Nat.ne_of_gt hp), below_of_le (Nat.le_of_lt hp), below_of_le hp]

/-- Only the hash values of the positions that are indexed matter. -/
theorem Indexes.congr (h : ix.Indexes count hashAt) {hashAt' : Nat → UInt64}
    (heq : ∀ p < count, hashAt p = hashAt' p) : ix.Indexes count hashAt' := by
  rwa [Indexes, ← below_congr heq]

/-- The invariant does not depend on the load factor. -/
theorem Sound.setLoadFactor (h : ix.Sound P) (f : LoadFactor) : (ix.setLoadFactor f).Sound P :=
  ⟨h.holds.congr rfl, h.chained.congr rfl, fun hlin => (h.ordered hlin).congr rfl le_rfl,
    h.liveCount, h.tombstoneCount, h.one_le_maxDist, h.maxDist_le, h.room⟩

/-! ### The live nodes -/

/-- The live nodes in terms of the nodes of the buckets. -/
theorem liveNodes_eq (ix : Index) :
    ix.liveNodes = ((List.range ix.bucketCount).filter fun b => (ix.node b).isLive).map
      fun b => (b, ix.node b) := by
  have hnodes : (ix.buckets.toList.zipIdx.map fun e => (e.2, e.1)) =
      (List.range ix.bucketCount).map fun b => (b, ix.node b) := by
    apply List.ext_getElem
    · simp [bucketCount]
    · intro b hb hb'
      have hlt : b < ix.bucketCount := by simpa using hb'
      rw [List.getElem_map, List.getElem_map, List.getElem_range, List.getElem_zipIdx,
        node_eq_getElem hlt]
      exact Prod.ext (Nat.zero_add b) rfl
  show ((ix.buckets.toList.zipIdx.map fun e => (e.2, e.1)).filter fun e => e.2.isLive) = _
  rw [hnodes, List.filter_map]
  rfl

/-- The live nodes are as many as are counted among the buckets. -/
theorem length_liveNodes (ix : Index) : ix.liveNodes.length = ix.count Node.isLive := by
  rw [liveNodes_eq, List.length_map, count_eq_range, List.countP_eq_length_filter]

/-- The live nodes are given with the buckets in which they are. -/
theorem mem_liveNodes {b : Nat} {n : Node} :
    (b, n) ∈ ix.liveNodes ↔ (ix.node b).isLive ∧ ix.node b = n := by
  rw [liveNodes_eq]
  simp only [List.mem_map, List.mem_filter, List.mem_range, Prod.mk.injEq]
  constructor
  · rintro ⟨c, ⟨-, hc⟩, rfl, rfl⟩
    exact ⟨hc, rfl⟩
  · rintro ⟨hb, rfl⟩
    exact ⟨b, ⟨lt_of_isLive hb, hb⟩, rfl, rfl⟩

/-- The positions that live nodes hold, in bucket order. -/
def positions (ix : Index) : List Nat := ix.liveNodes.map fun e => e.2.pos

/-- The positions that are indexed are those of the live nodes. -/
theorem mem_positions {p : Nat} :
    p ∈ ix.positions ↔ ∃ b, (ix.node b).isLive ∧ (ix.node b).pos = p := by
  rw [positions, List.mem_map]
  constructor
  · rintro ⟨⟨b, n⟩, hmem, rfl⟩
    obtain ⟨hb, rfl⟩ := mem_liveNodes.mp hmem
    exact ⟨b, hb, rfl⟩
  · rintro ⟨b, hb, rfl⟩
    exact ⟨(b, ix.node b), mem_liveNodes.mpr ⟨hb, rfl⟩, rfl⟩

/-- A position is held by a live node just if it is stored. -/
theorem Holds.mem_positions (h : ix.Holds P) (p : Nat) :
    p ∈ ix.positions ↔ ∃ hash, P p = some hash := by
  rw [Index.mem_positions]
  constructor
  · rintro ⟨b, hb, rfl⟩
    obtain ⟨hash, hp, -⟩ := h.stored b hb
    exact ⟨hash, hp⟩
  · rintro ⟨hash, hp⟩
    exact h.held p hash hp

/-- No position is held twice. -/
theorem Holds.nodup_positions (h : ix.Holds P) : ix.positions.Nodup := by
  rw [positions, liveNodes_eq, List.map_map]
  refine List.Nodup.map_on ?_ (List.nodup_range.filter _)
  intro b hb c hc hbc
  exact h.once b c (List.mem_filter.mp hb).2 (List.mem_filter.mp hc).2 hbc

/-- Every live node is on a position below the number. -/
theorem Indexes.pos_lt (h : ix.Indexes count hashAt) {b : Nat} (hb : (ix.node b).isLive) :
    (ix.node b).pos < count := by
  obtain ⟨hash, hp, -⟩ := h.holds.stored b hb
  exact (below_eq_some.mp hp).1

/-- The live nodes hold the positions below the number, each once. -/
theorem Indexes.positions_perm (h : ix.Indexes count hashAt) :
    ix.positions.Perm (List.range count) := by
  rw [List.perm_ext_iff_of_nodup h.holds.nodup_positions List.nodup_range]
  intro p
  rw [h.holds.mem_positions, List.mem_range]
  constructor
  · rintro ⟨hash, hp⟩
    exact (below_eq_some.mp hp).1
  · intro hp
    exact ⟨hashAt p, below_of_lt hp⟩

/-- The size of an index is the number of its positions. -/
theorem Indexes.size_eq (h : ix.Indexes count hashAt) : ix.size = count := by
  have hperm := h.positions_perm.length_eq
  rw [positions, List.length_map, List.length_range, length_liveNodes] at hperm
  rw [← h.liveCount, hperm]

/-! ### Empty indexes -/

/-- An index in which all buckets are empty indexes no position. -/
theorem emptied_indexes (ix : Index) {buckets : Nat}
    (hroom : buckets = 1 ∨ LoadFactor.minBuckets ≤ buckets) (hashAt : Nat → UInt64) :
    (ix.emptied buckets).Indexes 0 hashAt := by
  have hdead : ∀ b, ((ix.emptied buckets).node b).isLive = false := fun b => by
    rw [node_emptied, Node.isLive_empty]
  have hnot : ∀ b, ¬ ((ix.emptied buckets).node b).isLive := fun b => Bool.eq_false_iff.mp (hdead b)
  -- no bucket is live and no position stored, so that nearly all facts hold of nothing
  have hnone : ∀ p hash, below 0 hashAt p ≠ some hash := fun p hash => by
    rw [below_of_le (Nat.zero_le p)]
    exact nofun
  have hzero : ∀ test : Node → Bool, test .empty = false → (ix.emptied buckets).count test = 0 := by
    intro test htest
    rw [count_eq_range, List.countP_eq_zero]
    intro b _
    rw [node_emptied, htest]
    exact Bool.false_ne_true
  refine ⟨⟨fun b _ => Or.inl (node_emptied ix buckets b), fun b hb => absurd hb (hnot b),
    fun b hb => absurd hb (hnot b), fun p hash hp => absurd hp (hnone p hash),
    fun b c hb => absurd hb (hnot b), fun p hash hp => absurd hp (hnone p hash)⟩,
    fun b hash hb => absurd hb (hnot b),
    fun _ => ⟨fun b _ => ?_, fun b hash hb => absurd hb (hnot b), fun b => ?_, fun b => ?_⟩,
    hzero _ Node.isLive_empty, hzero _ Node.isTombstone_empty, le_rfl,
    show 1 ≤ Node.maxDistance by decide, ?_⟩
  · rw [node_emptied, node_emptied, Node.distance_empty]
    omega
  · rw [node_emptied, Node.isTombstone_empty]
  · rw [node_emptied, Node.distance_empty]
    omega
  · rw [bucketCount_emptied]
    rcases hroom with hone | hmin
    · exact Or.inl ⟨hone, rfl⟩
    · exact Or.inr ⟨hmin, Nat.zero_le _⟩

/-- A null index has no position. -/
theorem null_indexes (f : LoadFactor) (hashAt : Nat → UInt64) : (null f).Indexes 0 hashAt :=
  ((null f).emptied_indexes (Or.inl rfl) hashAt :)

/-! ### Room for positions -/

/-- So many positions leave room in so many buckets. The single bucket of a null index has
    none. -/
def Fits (buckets count : Nat) : Prop :=
  buckets = 1 ∧ count = 0 ∨ LoadFactor.minBuckets ≤ buckets ∧ count ≤ LoadFactor.fillLimit buckets

/-- Where positions fit, fewer fit as well. -/
theorem Fits.mono {buckets count' : Nat} (h : Fits buckets count) (hle : count' ≤ count) :
    Fits buckets count' :=
  h.imp (fun h => ⟨h.1, by omega⟩) fun h => ⟨h.1, le_trans hle h.2⟩

/-- The positions fit into a single bucket or into at least as many as the minimum. -/
theorem Fits.shape {buckets : Nat} (h : Fits buckets count) :
    buckets = 1 ∨ LoadFactor.minBuckets ≤ buckets :=
  h.imp And.left And.left

/-- The positions of a sound index fit into its buckets. -/
theorem Sound.fits (h : ix.Sound P) : Fits ix.bucketCount ix.size :=
  Fits.mono h.room (Nat.le_add_right _ _)

/-- A sound index has a single bucket or at least as many as the minimum. -/
theorem Sound.shape (h : ix.Sound P) :
    ix.bucketCount = 1 ∨ LoadFactor.minBuckets ≤ ix.bucketCount :=
  h.fits.shape

/-- The buckets that a number of positions requires have room for it. -/
theorem fits_required (ix : Index) (count : Nat) : Fits (ix.required count) count :=
  Or.inr ⟨ix.loadFactor.minBuckets_le_bucketCountFor count,
    ix.loadFactor.le_fillLimit_bucketCountFor count⟩

/-- More buckets than an index has have room for its nodes. -/
theorem Sound.fits_of_lt (h : ix.Sound P) {wanted : Nat}
    (hlt : ix.bucketCount < ix.required wanted) : Fits (ix.required wanted) ix.size := by
  refine Or.inr ⟨ix.loadFactor.minBuckets_le_bucketCountFor wanted, ?_⟩
  rcases h.fits with ⟨-, hzero⟩ | ⟨-, hfill⟩
  · omega
  · exact le_trans hfill (LoadFactor.fillLimit_mono (Nat.le_of_lt hlt))

/-- Buckets that a rebuild keeps have room for the positions. -/
theorem fits_of_not_lt (hshape : ix.bucketCount = 1 ∨ LoadFactor.minBuckets ≤ ix.bucketCount)
    (h : ¬ (count ≠ 0 ∧ ix.bucketCount < ix.required count)) : Fits ix.bucketCount count := by
  by_cases hzero : count = 0
  · exact hshape.imp (fun hone => ⟨hone, hzero⟩) (fun hmin => ⟨hmin, by omega⟩)
  · have hle : ix.required count ≤ ix.bucketCount := not_lt.mp fun hlt => h ⟨hzero, hlt⟩
    have hmin := ix.loadFactor.minBuckets_le_bucketCountFor count
    have hfill := ix.loadFactor.le_fillLimit_bucketCountFor count
    exact Or.inr ⟨le_trans hmin hle, le_trans hfill (LoadFactor.fillLimit_mono hle)⟩

/-! ### Adding positions in order -/

/-- The index `r` has the positions below `count` in the given number of buckets, and no
    tombstone. -/
structure Rebuilt (ix r : Index) (buckets count : Nat) (hashAt : Nat → UInt64) : Prop where
  indexes : r.Indexes count hashAt
  bucketCount : r.bucketCount = buckets
  tombstones : r.tombstones = 0
  loadFactor : r.loadFactor = ix.loadFactor

/-- The last position is added to the index of those below it. -/
theorem rehash_succ (ix : Index) (buckets k : Nat) (hashAt : Nat → UInt64) :
    ix.rehash buckets (k + 1) hashAt = (ix.rehash buckets k hashAt).insertNode (hashAt k) k := by
  rw [rehash, insertAll, List.range_succ, List.foldl_append]
  rfl

/-- An index built anew has the positions asked for. -/
theorem rehash_rebuilt (ix : Index) {buckets : Nat} (hashAt : Nat → UInt64)
    (hfits : Fits buckets count) (hlt : count ≤ Node.noPosition) :
    Rebuilt ix (ix.rehash buckets count hashAt) buckets count hashAt := by
  induction count with
  | zero =>
    exact ⟨ix.emptied_indexes hfits.shape hashAt, bucketCount_emptied ix buckets, rfl, rfl⟩
  | succ k ih =>
    -- the positions below the last are there already, so that it comes into a sound index
    have hprev := ih (hfits.mono (Nat.le_succ k)) (by omega)
    obtain ⟨hmin, hfill⟩ : LoadFactor.minBuckets ≤ buckets ∧
        k + 1 ≤ LoadFactor.fillLimit buckets := by
      rcases hfits with ⟨-, hzero⟩ | hroom
      · omega
      · exact hroom
    have hbuckets := hprev.bucketCount
    have hsize := hprev.indexes.size_eq
    have htombs := hprev.tombstones
    -- the buckets have room for one position more than were added so far
    have hadded := hprev.indexes.insertNode (by omega) (by rw [hsize, htombs, hbuckets]; omega)
      (hashAt k) (below_of_le le_rfl) (by omega)
    rw [update_below] at hadded
    have hle := hadded.tombstones_le
    rw [rehash_succ]
    exact ⟨hadded.sound, hadded.bucketCount.trans hbuckets, by omega,
      hadded.loadFactor.trans hprev.loadFactor⟩

/-! ### The ways to rebuild -/

/-- The index is built anew with enough buckets for the positions, wherever it comes from. -/
theorem rebuild_indexes (hshape : ix.bucketCount = 1 ∨ LoadFactor.minBuckets ≤ ix.bucketCount)
    (hashAt : Nat → UInt64) (hlt : count ≤ Node.noPosition) :
    (ix.rebuild count hashAt).Indexes count hashAt := by
  rw [rebuild]
  split
  · exact (ix.rehash_rebuilt hashAt (ix.fits_required count) hlt).indexes
  · rename_i hnot
    exact (ix.rehash_rebuilt hashAt (fits_of_not_lt hshape hnot) hlt).indexes

namespace Indexes

/-- No position of an index is the one of empty buckets. -/
theorem le_noPosition (h : ix.Indexes count hashAt) : count ≤ Node.noPosition := by
  rcases Nat.eq_zero_or_pos count with rfl | hpos
  · exact Nat.zero_le _
  · have := h.holds.below (count - 1) _ (below_of_lt (by omega))
    omega

/-- The index is built anew for as many positions as it has, or fewer, in its buckets. -/
theorem rebuildInPlace (h : ix.Indexes count hashAt) {count' : Nat} (hle : count' ≤ count)
    (hashAt' : Nat → UInt64) : (ix.rebuildInPlace count' hashAt').Indexes count' hashAt' := by
  have hfits := Sound.fits h
  rw [h.size_eq] at hfits
  exact (ix.rehash_rebuilt hashAt' (hfits.mono hle) (le_trans hle h.le_noPosition)).indexes

/-- A rebuilt index indexes the same positions. -/
theorem rebuild (h : ix.Indexes count hashAt) : (ix.rebuild count hashAt).Indexes count hashAt :=
  rebuild_indexes h.shape hashAt h.le_noPosition

/-- An index with its own positions in other buckets. -/
theorem rehash (h : ix.Indexes count hashAt) {buckets : Nat} (hfits : Fits buckets ix.size) :
    Rebuilt ix (ix.rehash buckets ix.size hashAt) buckets count hashAt := by
  rw [h.size_eq] at hfits ⊢
  exact ix.rehash_rebuilt hashAt hfits h.le_noPosition

/-- An index in which room was made indexes the same positions. -/
theorem reserve (h : ix.Indexes count hashAt) (wanted : Nat) :
    (ix.reserve wanted hashAt).Indexes count hashAt := by
  rw [Index.reserve]
  split
  · rename_i hgrow
    exact (h.rehash (Sound.fits_of_lt h hgrow.2)).indexes
  · exact h

/-- A shrunk index indexes the same positions. -/
theorem shrinkToFit (h : ix.Indexes count hashAt) :
    (ix.shrinkToFit hashAt).Indexes count hashAt := by
  rw [Index.shrinkToFit]
  split
  · rename_i hzero
    rw [← h.size_eq, hzero]
    exact null_indexes _ _
  · split
    · exact (h.rehash (ix.fits_required ix.size)).indexes
    · exact h

/-- A cleared index indexes no position. -/
theorem clear (h : ix.Indexes count hashAt) (hashAt' : Nat → UInt64) :
    ix.clear.Indexes 0 hashAt' :=
  ix.emptied_indexes h.shape hashAt'

/-- There is room for one more node once an index has grown for it. -/
theorem growForInsert (h : ix.Indexes count hashAt) :
    (ix.growForInsert hashAt).Indexes count hashAt ∧
      LoadFactor.minBuckets ≤ (ix.growForInsert hashAt).bucketCount ∧
      (ix.growForInsert hashAt).size + (ix.growForInsert hashAt).tombstones <
        LoadFactor.fillLimit (ix.growForInsert hashAt).bucketCount := by
  rw [Index.growForInsert]
  split
  · have hr := h.rehash ((ix.fits_required (ix.size + 1)).mono (Nat.le_succ _))
    refine ⟨hr.indexes, ?_, ?_⟩
    · rw [hr.bucketCount]
      exact ix.loadFactor.minBuckets_le_bucketCountFor (ix.size + 1)
    · rw [hr.bucketCount, hr.tombstones, hr.indexes.size_eq, ← h.size_eq]
      exact ix.loadFactor.le_fillLimit_bucketCountFor (ix.size + 1)
  · rename_i hroom
    rw [isCrowded, Bool.or_eq_true, not_or, decide_eq_true_eq, not_le] at hroom
    obtain ⟨hfill, -⟩ := hroom
    -- an index with room for one more is not null
    have hone : ¬ ix.isNull := by
      intro hnull
      rw [maxFill, if_pos hnull] at hfill
      exact Nat.not_lt_zero _ hfill
    rw [maxFill, if_neg hone] at hfill
    rcases h.room with ⟨hbc, -⟩ | ⟨hmin, -⟩
    · exact absurd (by rw [isNull, hbc]; rfl) hone
    · exact ⟨h, hmin, hfill⟩

end Indexes

end Index

end OrderedHash
