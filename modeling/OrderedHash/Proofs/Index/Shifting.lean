import OrderedHash.Proofs.Index.Termination

namespace OrderedHash

namespace Index

/-!
# Two ways to shift a range

A range of positions is shifted in one walk over the buckets, or one position at a time. The
second looks for every position in a ring where some nodes hold their new positions already
and others still hold their old ones. Both leave the same index
(`shifts_agree`), whatever else the index holds: the ring need not be in order, and only
the positions of the range have to be held once.
-/

variable {ix : Index} {first last : Nat} {offset : Int}

/-- The positions from `first` up to `last` can be shifted by `offset`. -/
structure Movable (ix : Index) (first last : Nat) (offset : Int) : Prop where
  /-- A bucket without a live node is empty or a tombstone. -/
  dead : ∀ b < ix.bucketCount, (ix.node b).isLive = false →
    ix.node b = .empty ∨ ix.node b = .tombstone
  /-- Each position of the range is held by exactly one live node. -/
  once : ∀ p < last, first ≤ p → ix.count (fun n => n.isLive && n.holds p) = 1
  /-- No other live node holds one of the new positions. -/
  free : ∀ b < ix.bucketCount, (ix.node b).isLive →
    first + offset ≤ (ix.node b).pos → (ix.node b).pos < last + offset →
      first ≤ (ix.node b).pos ∧ (ix.node b).pos < last
  offset_ne : offset ≠ 0
  start : 0 ≤ first + offset
  /-- The position of empty buckets and tombstones is not in the range. -/
  used : ∀ p < last, first ≤ p → p ≠ Node.noPosition
  /-- The new positions fit into the nodes. -/
  fits : ∀ p < last, first ≤ p → p + offset < 2 ^ 48

/-- The nodes of `ix'` are those of `ix`, with `offset` added to the positions from `first` up
    to `last`. -/
structure Shifts (ix ix' : Index) (first last : Nat) (offset : Int) : Prop where
  /-- Exactly the nodes that held a position of the range hold the new one. -/
  holds : ∀ p < last, first ≤ p → ∀ b,
    (ix'.node b).isLive ∧ (ix'.node b).pos = p + offset ↔
      (ix.node b).isLive ∧ (ix.node b).pos = p
  /-- The other nodes are as they were. -/
  others : ∀ b, ¬((ix.node b).isLive ∧ first ≤ (ix.node b).pos ∧ (ix.node b).pos < last) →
    ix'.node b = ix.node b
  distance : ∀ b, (ix'.node b).distance = (ix.node b).distance
  tinyHash : ∀ b, (ix'.node b).tinyHash = (ix.node b).tinyHash
  bucketCount : ix'.bucketCount = ix.bucketCount
  /-- Only the buckets are changed. -/
  rest : ix' = { ix with buckets := ix'.buckets }

/-- The walk over the buckets changes the nodes that hold a position of the range. -/
theorem node_shiftWhole (b : Nat) : (ix.shiftWhole first last offset).node b =
    if (ix.node b).isLive ∧ first ≤ (ix.node b).pos ∧ (ix.node b).pos < last then
      (ix.node b).withPosition (moved (ix.node b).pos offset) else ix.node b := by
  rw [shiftWhole, node_mapPositions]
  by_cases hlive : (ix.node b).isLive
  · by_cases hrange : first ≤ (ix.node b).pos ∧ (ix.node b).pos < last
    · rw [if_pos hlive, if_pos hrange, if_pos ⟨hlive, hrange⟩]
    · rw [if_pos hlive, if_neg hrange, if_neg (fun h => hrange h.2), Node.withPosition_pos]
  · rw [if_neg hlive, if_neg fun h => hlive h.1]

namespace Movable

variable (m : Movable ix first last offset)

include m

/-- Each position of the range is in one bucket only, since no empty bucket or tombstone
    holds it. -/
theorem heldAt {p : Nat} (hfirst : first ≤ p) (hlast : p < last) : ∃ b, ix.HeldAt p b := by
  obtain ⟨b, hb, honly⟩ := exists_of_count_eq_one (m.once p hlast hfirst)
  rw [Bool.and_eq_true, Node.holds, beq_iff_eq] at hb
  refine ⟨b, hb.1, hb.2, fun c hc hpos => ?_⟩
  by_cases hlive : (ix.node c).isLive
  · exact honly c hc (by simp [hlive, Node.holds, hpos])
  · have hused := m.used p hlast hfirst
    rcases m.dead c hc (by simpa using hlive) with hn | hn <;>
      rw [hn] at hpos <;> exact absurd hpos.symm hused

/-- Positions of the range are moved by the offset, which none of them undercuts. -/
theorem moved_eq {p : Nat} (hfirst : first ≤ p) : (moved p offset : Int) = p + offset := by
  have hstart := m.start
  rw [moved]
  omega

/-- The positions can be changed one by one in the order in which a shift takes them. -/
theorem queued : Queued ix (moved · offset) (inTurn first last offset) where
  held p hp := by
    rw [mem_inTurn] at hp
    exact m.heldAt hp.1 hp.2
  nodup := nodup_inTurn
  order := pairwise_inTurn
  fits p hp := by
    rw [mem_inTurn] at hp
    have hfits := m.fits p hp.2 hp.1
    rw [← m.moved_eq hp.1] at hfits
    exact_mod_cast hfits

/-- To shift positions one by one is to shift them all at once. -/
theorem shiftEach_eq (hashAt : Nat → UInt64) :
    ix.shiftEach first last offset hashAt = ix.shiftWhole first last offset := by
  have hshift := m.queued.foldl_renumber hashAt
  simp only [mem_inTurn] at hshift
  exact hshift

/-- To shift positions is to shift them all at once, whichever way their number asks for. -/
theorem shiftPositions_eq (hashAt : Nat → UInt64) :
    ix.shiftPositions first last offset hashAt = ix.shiftWhole first last offset := by
  rw [shiftPositions]
  split
  · rename_i hnone
    -- an empty range has no turns
    have hnil : last - first = 0 := Nat.sub_eq_zero_of_le (hnone.resolve_right m.offset_ne)
    rw [← m.shiftEach_eq hashAt, shiftEach, hnil]
    simp
  · split
    · rfl
    · exact m.shiftEach_eq hashAt

/-- A live node in the range has its position moved by the offset. -/
theorem pos_shiftWhole {b : Nat} (hfirst : first ≤ (ix.node b).pos)
    (hlast : (ix.node b).pos < last) (hlive : (ix.node b).isLive) :
    ((ix.shiftWhole first last offset).node b).pos = (ix.node b).pos + offset := by
  have hfits := m.fits _ hlast hfirst
  rw [← m.moved_eq hfirst] at hfits ⊢
  rw [node_shiftWhole, if_pos ⟨hlive, hfirst, hlast⟩, Node.pos_withPosition,
    Nat.mod_eq_of_lt (by exact_mod_cast hfits)]

/-- To shift positions all at once does what a shift should. -/
theorem shifts : Shifts ix (ix.shiftWhole first last offset) first last offset := by
  have hrelabels : Relabels _ ix (ix.shiftWhole first last offset) := ix.mapPositions_relabels _
  have hothers : ∀ b, ¬((ix.node b).isLive ∧ first ≤ (ix.node b).pos ∧ (ix.node b).pos < last) →
      (ix.shiftWhole first last offset).node b = ix.node b := fun b hb => by
    rw [node_shiftWhole, if_neg hb]
  refine ⟨fun p hlast hfirst b => ?_, hothers, hrelabels.distance_node, hrelabels.tinyHash_node,
    hrelabels.bucketCount, rfl⟩
  rw [hrelabels.isLive_node]
  refine and_congr_right fun hlive => ?_
  by_cases hrange : first ≤ (ix.node b).pos ∧ (ix.node b).pos < last
  · rw [m.pos_shiftWhole hrange.1 hrange.2 hlive]
    omega
  -- a node outside the range holds neither the old position nor the new one
  · rw [hothers b fun h => hrange h.2]
    have hfree := m.free b (lt_of_isLive hlive) hlive
    constructor
    · intro hpos
      exact absurd (hfree (by omega) (by omega)) hrange
    · rintro rfl
      exact absurd ⟨hfirst, hlast⟩ hrange

end Movable

/-- A range is shifted position by position as in one walk over the buckets: every position is
    found when its turn comes, upward for a negative offset and downward for a positive one,
    and the nodes that held a position of the range hold the one that is `offset` further, while
    all else is as it was. -/
theorem shifts_agree (m : Movable ix first last offset) (hashAt : Nat → UInt64) :
    Unbounded.shiftEach ix first last offset hashAt =
        Part.some (ix.shiftEach first last offset hashAt) ∧
      ix.shiftEach first last offset hashAt = ix.shiftWhole first last offset ∧
      ix.shiftPositions first last offset hashAt = ix.shiftWhole first last offset ∧
      Shifts ix (ix.shiftWhole first last offset) first last offset :=
  ⟨Unbounded.foldlM_renumber_eq m.queued hashAt, m.shiftEach_eq hashAt, m.shiftPositions_eq hashAt,
    m.shifts⟩

/-- Six nodes out of order, of which one is being moved and two hold the same position, with a
    tombstone among them. -/
def parked : Index where
  buckets := #[.make 1 0 3, .tombstone, .make 2 0 Node.movingPosition, .make 3 1 1, .empty,
    .make 4 0 7, .make 5 0 2, .make 6 1 7]
  size := 6
  tombstones := 1
  maxDist := 1
  loadFactor := .standard

/-- The positions behind a free one can be moved down. -/
theorem parked_down : Movable parked 1 4 (-1) := by
  constructor <;> decide +kernel

/-- The positions before free ones can be moved up. -/
theorem parked_up : Movable parked 1 4 2 := by
  constructor <;> decide +kernel

/-- Three positions are moved down by one, and up by two. -/
theorem shifts_agree_parked :
    (Movable parked 1 4 (-1) ∧ Shifts parked (parked.shiftEach 1 4 (-1) fun _ => 6) 1 4 (-1)) ∧
      Movable parked 1 4 2 ∧ Shifts parked (parked.shiftEach 1 4 2 fun _ => 6) 1 4 2 := by
  obtain ⟨-, hdown, -, hshifts⟩ := shifts_agree parked_down fun _ => 6
  obtain ⟨-, hup, -, hshifts'⟩ := shifts_agree parked_up fun _ => 6
  rw [hdown, hup]
  exact ⟨⟨parked_down, hshifts⟩, parked_up, hshifts'⟩

end Index

end OrderedHash
