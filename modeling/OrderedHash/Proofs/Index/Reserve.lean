import OrderedHash.Proofs.Index.Layout
import Mathlib.Data.Finset.Card

namespace OrderedHash

open Function (update)

/-!
# Room that was reserved

A call that makes room for a number of positions compares that number with the buckets
alone, but an insertion also builds the index anew when live nodes and tombstones together
have used up the buckets. `Register.HasRoomFor` says that no insertion builds the index anew
as long as fewer than a number of positions are there.

Where room was made and there are no tombstones this holds, and so it does in distance
order. Under linear probing it holds exactly if the tombstones leave room for that number
besides them (`Bank.room_of_reserve`), since insertions into empty buckets use up the rest.
A register to which room was given, and whose positions collided and were removed, shows
that tombstones can be too many (`Bank.exists_not_hasRoomFor_reserve`).
-/

namespace Index

variable {ix ix' : Index} {P : Nat → Option UInt64} {count : Nat} {hashAt : Nat → UInt64}

/-! ### What decides on growth -/

/-- An index is not crowded if its buckets are not filled too far, and its distances are short or
    its positions few. -/
theorem isCrowded_eq_false : ix.isCrowded = false ↔
    ix.size + ix.tombstones < ix.maxFill ∧ (ix.maxDist ≤ growDistance ∨ ix.size < ix.capacity) := by
  rw [isCrowded, Bool.or_eq_false_iff, Bool.and_eq_false_iff, decide_eq_false_iff_not,
    decide_eq_false_iff_not, decide_eq_false_iff_not, not_le, not_lt, not_le]

/-- The capacity is never greater than what the buckets may be filled to. -/
theorem capacity_le_maxFill (ix : Index) : ix.capacity ≤ ix.maxFill := by
  rw [capacity, maxFill]
  split
  · exact le_rfl
  · exact ix.loadFactor.target_le_fillLimit _

/-- The capacity depends on the number of buckets and on the load factor only. -/
theorem capacity_congr (h : ix'.bucketCount = ix.bucketCount)
    (hf : ix'.loadFactor = ix.loadFactor) : ix'.capacity = ix.capacity := by
  rw [capacity, capacity, isNull, isNull, h, hf]

/-- What the buckets may be filled to depends on their number only. -/
theorem maxFill_congr (h : ix'.bucketCount = ix.bucketCount) : ix'.maxFill = ix.maxFill := by
  rw [maxFill, maxFill, isNull, isNull, h]

/-- An index with the buckets that a number of positions requires has the capacity for them. -/
theorem le_capacity (h : ix.required count ≤ ix.bucketCount) : count ≤ ix.capacity := by
  have hmin := ix.loadFactor.minBuckets_le_bucketCountFor count
  have hone : ¬ ix.isNull := by
    rw [isNull, decide_eq_true_eq, not_le]
    exact lt_of_lt_of_le (by decide) (le_trans hmin h)
  rw [capacity, if_neg hone]
  exact ix.loadFactor.le_target h

/-- An index that is not crowded does not grow for an insertion. -/
theorem growForInsert_of_room (hroom : ix.isCrowded = false) : ix.growForInsert hashAt = ix := by
  rw [growForInsert, if_neg (Bool.eq_false_iff.mp hroom)]

/-! ### Tombstones -/

/-- There are no tombstones as long as probing is not linear. -/
theorem Sound.tombstones_eq_zero (h : ix.Sound P) (hnot : ix.isLinear = false) :
    ix.tombstones = 0 :=
  h.tombstoneCount.symm.trans (h.ordered hnot).count_isTombstone

/-- A hash value whose home bucket is empty takes the place of no tombstone. -/
theorem tombstones_insertLinear {hash : UInt64} (hpos : 0 < ix.bucketCount)
    (hempty : (ix.node (ix.home hash)).isEmpty) (pos : Nat) :
    (insertLinear { ix with size := ix.size + 1 } hash pos).tombstones = ix.tombstones := by
  have hdead : (ix.node (ix.home hash)).isLive = false := by simp [Node.isLive, hempty]
  have htomb : (ix.node (ix.home hash)).isTombstone = false := by
    have hdist := (Node.isEmpty_iff _).mp hempty
    rw [Node.isTombstone, hdist]
    decide
  set base : Index := { ix with size := ix.size + 1 }
  -- the search for a free bucket ends at home
  have hfree : base.freeFrom base.bucketCount (base.home hash) = ix.home hash := by
    obtain ⟨fuel, hfuel⟩ := Nat.exists_eq_succ_of_ne_zero (Nat.ne_of_gt hpos)
    have hdead' : (base.node (base.home hash)).isLive = false := hdead
    rw [show base.bucketCount = fuel + 1 from hfuel, freeFrom, hdead']
    rfl
  rw [insertLinear, hfree]
  show (if (ix.node (ix.home hash)).isTombstone then ix.tombstones - 1 else ix.tombstones) = _
  rw [htomb]
  rfl

/-- At the end of an index with room such a hash value changes no number of tombstones. -/
theorem Indexes.tombstones_insertAt (h : ix.Indexes count hashAt) (hroom : ix.isCrowded = false)
    (hcount : count < Node.noPosition) {hash : UInt64}
    (hempty : (ix.node (ix.home hash)).isEmpty) :
    (ix.insertAt count count hash hashAt).tombstones = ix.tombstones := by
  cases hlinear : ix.isLinear with
  | false =>
    have hadded := h.insertAt_added le_rfl hcount hash
    rw [growForInsert_of_room hroom] at hadded
    have hle := hadded.tombstones_le
    have hzero := Sound.tombstones_eq_zero h hlinear
    omega
  | true =>
    have hshift : ix.shiftPositions count count 1 hashAt = ix := if_pos (Or.inl le_rfl)
    have hlinear' : ({ ix with size := ix.size + 1 } : Index).isLinear := hlinear
    rw [Index.insertAt, growForInsert_of_room hroom, hshift, insertNode, if_pos hlinear']
    have hpos : 0 < ix.bucketCount := Sound.bucketCount_pos h
    exact tombstones_insertLinear hpos hempty count

end Index

namespace Register

/-! ### Insertions up to a number of positions -/

/-- The registers at which insertions arrive that are made while fewer than `count`
    positions are there. -/
inductive Filling (r : Register) (count : Nat) : Register → Prop
  | start : Filling r count r
  | insert {s : Register} (h : Filling r count s) (below : s.size < count) {pos : Nat}
      (hpos : pos ≤ s.size) (hash : UInt64)
      (small : (s.apply (.insertAt pos hash)).size < 2 ^ 48 - 2) :
      Filling r count (s.apply (.insertAt pos hash))

/-- No insertion builds the index anew as long as fewer than `count` positions are there:
    the buckets stay, and the capacity is never below that number. -/
structure HasRoomFor (r : Register) (count : Nat) : Prop where
  notCrowded : ∀ {s}, r.Filling count s → s.size < count → s.index.isCrowded = false
  bucketCount : ∀ {s}, r.Filling count s → s.index.bucketCount = r.index.bucketCount
  capacity : ∀ {s}, r.Filling count s → count ≤ s.index.capacity

/-- What insertions into the present buckets of `r` leave as it is. -/
structure Widened (r s : Register) : Prop where
  right : s.Right
  small : s.size < Node.movingPosition
  bucketCount : s.index.bucketCount = r.index.bucketCount
  loadFactor : s.index.loadFactor = r.index.loadFactor
  tombstones_le : s.index.tombstones ≤ r.index.tombstones
  le_size : r.size ≤ s.size

variable {r s : Register} {count : Nat}

/-- A register is widened by no insertion. -/
theorem Widened.refl (h : r.Right) (hsmall : r.size < Node.movingPosition) : r.Widened r :=
  ⟨h, hsmall, rfl, rfl, le_rfl, le_rfl⟩

/-- An insertion that finds room leaves the buckets as they are. -/
theorem Widened.insertAt (h : r.Widened s) (hroom : s.index.isCrowded = false) {pos : Nat}
    (hpos : pos ≤ s.size) (hash : UInt64)
    (hsmall : (s.apply (.insertAt pos hash)).size < Node.movingPosition) :
    r.Widened (s.apply (.insertAt pos hash)) := by
  have hadded := h.right.indexes.insertAt_added hpos (lt_trans h.small (by decide)) hash
  rw [Index.growForInsert_of_room hroom] at hadded
  have hle := h.le_size
  refine ⟨h.right.apply (s := .insertAt pos hash) hpos h.small, hsmall,
    hadded.bucketCount.trans h.bucketCount, hadded.loadFactor.trans h.loadFactor,
    hadded.tombstones_le.trans h.tombstones_le, ?_⟩
  rw [size_insertAt s hpos]
  omega

/-- Insertions without growth keep the capacity. -/
theorem Widened.capacity_eq (h : r.Widened s) : s.index.capacity = r.index.capacity :=
  Index.capacity_congr h.bucketCount h.loadFactor

/-- Insertions without growth keep what the buckets may be filled to. -/
theorem Widened.maxFill_eq (h : r.Widened s) : s.index.maxFill = r.index.maxFill :=
  Index.maxFill_congr h.bucketCount

/-! ### Room besides the tombstones -/

section Room

variable (hcapacity : count ≤ r.index.capacity)
  (hfill : r.size < count → r.index.tombstones + count ≤ r.index.maxFill)

include hcapacity hfill

/-- With room besides the tombstones no register below the number is crowded. -/
theorem Widened.notCrowded (h : r.Widened s) (hlt : s.size < count) :
    s.index.isCrowded = false := by
  have hsize : s.index.size = s.size := h.right.indexes.size_eq
  have hroom := hfill (lt_of_le_of_lt h.le_size hlt)
  have htombs := h.tombstones_le
  rw [Index.isCrowded_eq_false, h.maxFill_eq, h.capacity_eq, hsize]
  exact ⟨by omega, Or.inr (lt_of_lt_of_le hlt hcapacity)⟩

/-- Insertions up to the number find room one after another. -/
theorem Filling.widened (h : r.Right) (hsmall : r.size < Node.movingPosition)
    (hs : r.Filling count s) : r.Widened s := by
  induction hs with
  | start => exact .refl h hsmall
  | insert _ below hpos hash small ih =>
    exact ih.insertAt (ih.notCrowded hcapacity hfill below) hpos hash small

/-- There is room for positions that, with the tombstones, do not fill the buckets too far. -/
theorem hasRoomFor_of_fill (h : r.Right) (hsmall : r.size < Node.movingPosition) :
    r.HasRoomFor count where
  notCrowded hs hlt := (hs.widened hcapacity hfill h hsmall).notCrowded hcapacity hfill hlt
  bucketCount hs := (hs.widened hcapacity hfill h hsmall).bucketCount
  capacity hs := (hs.widened hcapacity hfill h hsmall).capacity_eq ▸ hcapacity

end Room

/-- Without tombstones the capacity is all that is needed. -/
theorem Right.fill_of_ordered (h : r.Right) (hcapacity : count ≤ r.index.capacity)
    (hnot : r.index.isLinear = false) : r.index.tombstones + count ≤ r.index.maxFill := by
  rw [Index.Sound.tombstones_eq_zero h hnot, Nat.zero_add]
  exact le_trans hcapacity r.index.capacity_le_maxFill

/-! ### Room used up by insertions into empty buckets -/

/-- Every bucket of an index that is not larger than the range of hash values is the home of
    one of them. -/
theorem exists_home_eq {ix : Index} {b : Nat} (hb : b < ix.bucketCount)
    (hbuckets : ix.bucketCount ≤ 2 ^ 64) : ∃ hash, ix.home hash = b := by
  refine ⟨UInt64.ofNat b, ?_⟩
  rw [Index.home, UInt64.toNat_ofNat_of_lt' (lt_of_lt_of_le hb hbuckets), Nat.mod_eq_of_lt hb]

/-- As many positions as there is room for can be put into empty buckets. -/
theorem HasRoomFor.exists_widened (hroom : r.HasRoomFor count) (h : r.Right)
    (hsmall : r.size < Node.movingPosition) (hcount : count ≤ 2 ^ 48 - 2)
    (hbuckets : r.index.bucketCount ≤ 2 ^ 64) {k : Nat} (hk : r.size + k < count) :
    ∃ s, r.Filling count s ∧ r.Widened s ∧ s.size = r.size + k ∧
      s.index.tombstones = r.index.tombstones := by
  induction k with
  | zero => exact ⟨r, .start, .refl h hsmall, rfl, rfl⟩
  | succ k ih =>
    obtain ⟨s, hs, hw, hsize, htombs⟩ := ih (by omega)
    have hlt : s.size < count := by omega
    -- the next hash value has an empty home
    obtain ⟨e, he, hempty⟩ := Index.Sound.exists_isEmpty hw.right.indexes
    obtain ⟨hash, rfl⟩ := exists_home_eq he (hw.bucketCount ▸ hbuckets)
    have hnotCrowded := hroom.notCrowded hs hlt
    have hsize' := size_insertAt s le_rfl hash
    have hsmall' : (s.apply (.insertAt s.size hash)).size < 2 ^ 48 - 2 := by omega
    refine ⟨_, hs.insert hlt le_rfl hash hsmall', hw.insertAt hnotCrowded le_rfl hash hsmall',
      by omega, ?_⟩
    exact (hw.right.indexes.tombstones_insertAt hnotCrowded (lt_trans hw.small (by decide))
      hempty).trans htombs

/-- Room for a number of positions is room besides the tombstones. -/
theorem HasRoomFor.tombstones_add_le (hroom : r.HasRoomFor count) (h : r.Right)
    (hsmall : r.size < Node.movingPosition) (hcount : count ≤ 2 ^ 48 - 2)
    (hbuckets : r.index.bucketCount ≤ 2 ^ 64) (hlt : r.size < count) :
    r.index.tombstones + count ≤ r.index.maxFill := by
  -- the register is looked at before the last of the insertions
  obtain ⟨s, hs, hw, hsize, htombs⟩ := hroom.exists_widened h hsmall hcount hbuckets
    (k := count - 1 - r.size) (by omega)
  have hnotCrowded := (Index.isCrowded_eq_false.mp (hroom.notCrowded hs (by omega))).1
  rw [hw.maxFill_eq, htombs, show s.index.size = s.size from hw.right.indexes.size_eq]
    at hnotCrowded
  omega

/-! ### Making room -/

/-- The capacity is at least what was asked for. -/
theorem capacity_reserve (h : r.Right) (count : Nat) :
    count ≤ (r.apply (.reserve count)).index.capacity := by
  show count ≤ (r.index.reserve count r.hashAt).capacity
  rw [Index.reserve]
  split
  · rename_i hgrow
    have hr := h.indexes.rehash (Index.Sound.fits_of_lt h.indexes hgrow.2)
    refine Index.le_capacity ?_
    rw [hr.bucketCount, Index.required, hr.loadFactor]
    exact le_rfl
  · rename_i hkeep
    -- nothing was asked for, or there are enough buckets
    rcases Nat.eq_zero_or_pos count with rfl | hpos
    · exact Nat.zero_le _
    · exact Index.le_capacity (not_lt.mp fun hlt => hkeep ⟨Nat.ne_of_gt hpos, hlt⟩)

/-! ### Positions that collide -/

/-- More positions of one hash value than there are distances turn an index linear. -/
theorem Right.isLinear_of_collision (h : r.Right) (hsize : Node.maxDistance < r.size)
    {hash : UInt64} (hcollide : ∀ p < r.size, r.hashAt p = hash) : r.index.isLinear := by
  by_contra hlinear
  have hnot : r.index.isLinear = false := Bool.eq_false_iff.mpr hlinear
  have hs := h.structured
  have hsound : r.index.Sound (Index.below r.size r.hashAt) := h.indexes
  have hbounded := (hsound.ordered hnot).bounded
  have hmax := Index.Sound.maxDist_lt hnot
  obtain ⟨bucket, hbucket⟩ := h.indexes.exists_buckets
  have hlive : ∀ p < r.size, (r.index.node (bucket p)).isLive := fun p hp => (hbucket p hp).1
  have hpos : ∀ p < r.size, (r.index.node (bucket p)).pos = p := fun p hp => (hbucket p hp).2.1
  -- the distance of each position is the gap to its bucket, and less than the greatest
  have hgap : ∀ p < r.size, (r.index.node (bucket p)).distance =
      r.index.gap (r.index.home hash) (bucket p) := by
    intro p hp
    rw [hs.distance hnot _ (hlive p hp), hpos p hp, hcollide p hp]
  have hmaps : Set.MapsTo (fun p => r.index.gap (r.index.home hash) (bucket p))
      (Finset.range r.size) (Finset.range Node.maxDistance) := by
    intro p hp
    have hp : p < r.size := Finset.mem_range.mp hp
    have hle := hbounded (bucket p)
    rw [hgap p hp] at hle
    have hlt : r.index.gap (r.index.home hash) (bucket p) < Node.maxDistance := by omega
    exact Finset.mem_coe.mpr (Finset.mem_range.mpr hlt)
  obtain ⟨p, hp, q, hq, hne, heq⟩ :=
    Finset.exists_ne_map_eq_of_card_lt_of_maps_to (by simpa using hsize) hmaps
  rw [Finset.mem_range] at hp hq
  -- two of them lie in one bucket
  have hhome := r.index.home_lt hash hsound.bucketCount_pos
  have hbp := Index.lt_of_isLive (hlive p hp)
  have hbq := Index.lt_of_isLive (hlive q hq)
  have hsame : bucket p = bucket q := by
    rw [← r.index.along_gap hhome hbp, ← r.index.along_gap hhome hbq]
    exact congrArg _ heq
  exact hne (by rw [← hpos p hp, ← hpos q hq, hsame])

/-- One hash value can be put into a register any number of times. -/
theorem exists_filling_replicate (hempty : r.hashes = #[]) (hash : UInt64) {k : Nat}
    (hk : k ≤ count) (hsmall : k < 2 ^ 48 - 2) :
    ∃ s, r.Filling count s ∧ s.hashes = Array.replicate k hash := by
  induction k with
  | zero => exact ⟨r, .start, hempty⟩
  | succ k ih =>
    obtain ⟨s, hs, hhashes⟩ := ih (by omega) (by omega)
    have hsize : s.size = k := by rw [size, hhashes, Array.size_replicate]
    have hsmall' : (s.apply (.insertAt s.size hash)).size < 2 ^ 48 - 2 := by
      rw [size_insertAt s le_rfl]
      omega
    refine ⟨_, hs.insert (by omega) le_rfl hash hsmall', ?_⟩
    show s.hashes.insertIdxIfInBounds s.hashes.size hash = _
    rw [Index.insertIdx_size, hhashes, Array.replicate_succ]

/-! ### Positions that are removed -/

/-- The positions of `r` that `s` has lost have left tombstones, under linear probing. -/
structure Buried (r s : Register) : Prop where
  isLinear : s.index.isLinear
  bucketCount : s.index.bucketCount = r.index.bucketCount
  loadFactor : s.index.loadFactor = r.index.loadFactor
  size_add_tombstones : s.size + s.index.tombstones = r.size + r.index.tombstones

/-- There is one position less after the last was removed. -/
theorem size_removeLast (s : Register) :
    (s.apply (.removeSwapping (s.size - 1))).size = s.size - 1 :=
  Index.size_setIfInBounds_pop s.hashes _ _

/-- Under linear probing the last position is removed by a tombstone. -/
theorem Buried.removeLast (h : r.Buried s) (hs : s.Right) (hpos : 0 < s.size) :
    r.Buried (s.apply (.removeSwapping (s.size - 1))) := by
  have hlast : s.size - 1 < s.size := Nat.sub_lt hpos Nat.one_pos
  obtain ⟨b, hb, -, hfind⟩ := hs.indexes.holds.findNode_eq (Index.below_of_lt hlast)
  have hindex : (s.apply (.removeSwapping (s.size - 1))).index = s.index.eraseNode b := by
    show s.index.removeSwapping (s.size - 1) s.size s.hashAt = _
    -- the last position is not overtaken by any other: its node is erased, and that is all
    rw [Index.removeSwapping, if_pos rfl, Index.unlink, hfind]
  have hremoved := Index.Sound.eraseNode hs.indexes hb
  -- under linear probing an erased node leaves a tombstone, so that the two numbers add up as
  -- before
  have htombs : (s.index.eraseNode b).tombstones = s.index.tombstones + 1 := by
    have hlinear : ({ s.index with size := s.index.size - 1 } : Index).isLinear := h.isLinear
    rw [Index.eraseNode]
    dsimp only
    rw [if_pos hlinear]
    rfl
  have hkept := h.size_add_tombstones
  refine ⟨?_, ?_, ?_, ?_⟩
  · rw [hindex, Index.isLinear_eraseNode]
    exact h.isLinear
  · rw [hindex]
    exact hremoved.bucketCount.trans h.bucketCount
  · rw [hindex]
    exact hremoved.loadFactor.trans h.loadFactor
  · rw [hindex, htombs, size_removeLast]
    omega

end Register

namespace Bank

variable {bank : Bank} {i count : Nat}

/-! ### Room in a run -/

/-- A step of one register, which stays small enough, is one of a run. -/
theorem Reachable.use (h : Reachable bank) (i : Nat) {s : Register.Step} (hs : (bank i).Allows s)
    (hsmall : ((bank i).apply s).size < 2 ^ 48 - 2) :
    Reachable (update bank i ((bank i).apply s)) := by
  refine h.step (.use i s) hs fun j => ?_
  rw [apply]
  by_cases hj : j = i
  · rw [hj, Function.update_self]
    exact hsmall
  · rw [Function.update_of_ne hj]
    exact h.small j

/-- Insertions up to a number of positions make up a run. -/
theorem Reachable.filling (h : Reachable bank) {s : Register} (hs : (bank i).Filling count s) :
    Reachable (update bank i s) := by
  induction hs with
  | start => rwa [Function.update_eq_self]
  | @insert s _ _ pos hpos hash small ih =>
    have hself : update bank i s i = s := Function.update_self i s bank
    have hstep := ih.use i (s := .insertAt pos hash) (by rwa [hself]) (by rwa [hself])
    rwa [hself, Function.update_idem] at hstep

/-- Under linear probing all positions of a register can be turned into tombstones. -/
theorem Reachable.exists_buried (h : Reachable bank) (hlinear : (bank i).index.isLinear) :
    ∃ bank', Reachable bank' ∧ (bank i).Buried (bank' i) ∧ (bank' i).size = 0 := by
  -- the positions are removed from the last one on
  have bury (k : Nat) : ∀ bank', Reachable bank' → (bank i).Buried (bank' i) →
      (bank' i).size = k →
        ∃ bank', Reachable bank' ∧ (bank i).Buried (bank' i) ∧ (bank' i).size = 0 := by
    induction k with
    | zero => exact fun bank' h' hburied hsize => ⟨bank', h', hburied, hsize⟩
    | succ k ih =>
      intro bank' h' hburied hsize
      have hsize' := (bank' i).size_removeLast
      have hlast : (bank' i).size - 1 < (bank' i).size := by omega
      have hself := Function.update_self i
        ((bank' i).apply (.removeSwapping ((bank' i).size - 1))) bank'
      have hsmall := h'.small i
      refine ih _ (h'.use i (s := .removeSwapping _) hlast ?_) ?_ ?_
      · rw [hsize']
        exact lt_of_le_of_lt (Nat.sub_le _ _) hsmall
      · rw [hself]
        exact hburied.removeLast (h'.right i) (by omega)
      · rw [hself, hsize', hsize]
        rfl
  exact bury _ bank h ⟨hlinear, rfl, rfl, rfl⟩ rfl

/-- Once room for a number of positions was made there is room for it if the tombstones
    leave as much, and so always in distance order. In tables whose buckets all are homes of
    hash values, the tombstones have to leave as much. -/
theorem room_of_reserve (h : Reachable bank) (i count : Nat) :
    let r := (bank i).apply (.reserve count)
    count ≤ r.index.capacity ∧
      (r.index.isLinear = false → r.HasRoomFor count) ∧
      ((r.size < count → r.index.tombstones + count ≤ r.index.maxFill) → r.HasRoomFor count) ∧
      (count ≤ 2 ^ 48 - 2 → r.index.bucketCount ≤ 2 ^ 64 → r.HasRoomFor count →
        r.size < count → r.index.tombstones + count ≤ r.index.maxFill) := by
  intro r
  have hright : r.Right := (h.right i).apply (s := .reserve count) trivial (h.small i)
  have hsmall : r.size < Node.movingPosition := h.small i
  have hcapacity : count ≤ r.index.capacity := Register.capacity_reserve (h.right i) count
  have hroom := fun hfill => Register.hasRoomFor_of_fill hcapacity hfill hright hsmall
  exact ⟨hcapacity, fun hnot => hroom fun _ => hright.fill_of_ordered hcapacity hnot, hroom,
    fun hcount hbuckets hroom => hroom.tombstones_add_le hright hsmall hcount hbuckets⟩

/-- There is room for ten positions in an index of one. -/
theorem room_of_reserve_single : ((single 0).apply (.reserve 10)).HasRoomFor 10 :=
  (room_of_reserve single_reachable 0 10).2.1 (by decide +kernel)

/-- Tombstones can be too many for the room that was asked for: more positions than there
    are distances collided in a register with room for them and were removed again. -/
theorem exists_not_hasRoomFor_reserve : ∃ bank, Reachable bank ∧ (bank 0).size = 0 ∧
    ¬ ((bank 0).apply (.reserve 150)).HasRoomFor 150 := by
  have hstart := Reachable.start
  -- room is made in an empty register, which gets 256 buckets
  set r := Register.empty.apply (.reserve 150)
  have hroomy : Reachable (update (fun _ => Register.empty) 0 r) :=
    hstart.use 0 (s := .reserve 150) trivial (show 0 < 2 ^ 48 - 2 by decide)
  have hr : r.Right := by
    have hright := hroomy.right 0
    rwa [Function.update_self] at hright
  have hcapacity : 150 ≤ r.index.capacity := Register.capacity_reserve (hstart.right 0) 150
  have hordered : r.index.isLinear = false := by decide +kernel
  -- the collisions find room and make it linear
  obtain ⟨s, hs, hhashes⟩ : ∃ s, r.Filling 150 s ∧ s.hashes = Array.replicate 127 0 :=
    Register.exists_filling_replicate rfl 0 (by decide) (by decide)
  have hw : r.Widened s := hs.widened hcapacity (fun _ => hr.fill_of_ordered hcapacity hordered) hr
    (show 0 < Node.movingPosition by decide)
  have hsize : s.size = 127 := by rw [Register.size, hhashes, Array.size_replicate]
  have hlinear : s.index.isLinear := by
    have hcollide : ∀ p < s.size, s.hashAt p = 0 := by
      intro p _
      rw [Register.hashAt, hhashes, Array.getD_eq_getD_getElem?, Array.getElem?_replicate]
      split <;> rfl
    exact hw.right.isLinear_of_collision (by rw [hsize]; decide) hcollide
  -- they are removed, and leave a tombstone each
  have hcollided := hroomy.filling (i := 0) (s := s) (by rwa [Function.update_self])
  rw [Function.update_idem] at hcollided
  obtain ⟨bank, hbank, hburied, hzero⟩ :=
    hcollided.exists_buried (i := 0) (by rwa [Function.update_self])
  rw [Function.update_self] at hburied
  have hbuckets : (bank 0).index.bucketCount = 256 :=
    (hburied.bucketCount.trans hw.bucketCount).trans (by decide +kernel)
  have hfactor : (bank 0).index.loadFactor = .standard := hburied.loadFactor.trans hw.loadFactor
  have htombs : 127 ≤ (bank 0).index.tombstones := by
    have hkept := hburied.size_add_tombstones
    omega
  -- the buckets are enough for the number, so that nothing is done about the tombstones
  have hkeep : (bank 0).apply (.reserve 150) = bank 0 := by
    have hrequired : (bank 0).index.required 150 = 256 := by
      rw [Index.required, hfactor]
      decide +kernel
    have hnot : ¬ (150 ≠ 0 ∧ (bank 0).index.bucketCount < (bank 0).index.required 150) := by
      rw [hrequired, hbuckets]
      decide
    rw [Register.apply, Index.reserve, if_neg hnot]
  refine ⟨bank, hbank, hzero, fun hroom => ?_⟩
  have hfill := (room_of_reserve hbank 0 150).2.2.2 (by decide) ?_ hroom ?_
  · rw [hkeep, Index.maxFill, Index.isNull, hbuckets] at hfill
    have hlimit : LoadFactor.fillLimit 256 = 243 := rfl
    rw [if_neg (by decide), hlimit] at hfill
    omega
  · rw [hkeep, hbuckets]
    decide
  · rw [hkeep, hzero]
    decide

end Bank

end OrderedHash
