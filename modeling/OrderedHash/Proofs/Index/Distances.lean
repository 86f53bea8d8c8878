import OrderedHash.Proofs.Index.Runs
import OrderedHash.Proofs.Index.Trails

namespace OrderedHash

/-!
# No distance is ever cut

While an index is in distance order every node lies below the greatest distance, and the nodes
ahead of a carried one stay so, whatever is seated behind it. A distance that is computed is
therefore at most one above such a distance (`Index.displaceTrail_carries`), so that none is cut
(`Index.Uncut`): no node that is stored looks empty or like a tombstone, and an index turns
linear just if some node is seated at the greatest distance.

This holds of any index of a run and of all insertions that its steps make, those of a rebuild
among them (`Bank.distances_of_reachable`).
-/

namespace Index

variable {ix : Index} {P : Nat → Option UInt64}

/-! ### The chain of displaced nodes -/

/-- Bucket `c` is one of the `e` buckets after `b`. -/
def Ahead (ix : Index) (b e c : Nat) : Prop := ∃ j, 1 ≤ j ∧ j ≤ e ∧ ix.along b j = c

/-- The next bucket is ahead. -/
theorem ahead_next (ix : Index) (b e : Nat) : ix.Ahead b (e + 1) (ix.next b) :=
  ⟨1, le_rfl, Nat.le_add_left 1 e, rfl⟩

/-- What is ahead of the next bucket is ahead, one bucket farther. -/
theorem Ahead.of_next {b e c : Nat} (h : ix.Ahead (ix.next b) e c) : ix.Ahead b (e + 1) c := by
  obtain ⟨j, hj, hje, rfl⟩ := h
  exact ⟨j + 1, by omega, by omega, (ix.along_next b j).symm⟩

/-- Which buckets are ahead does not depend on the nodes in them. -/
theorem Ahead.of_seat {b e c s : Nat} {n : Node} {dist : Nat}
    (h : (ix.seat s n dist).Ahead b e c) : ix.Ahead b e c := by
  obtain ⟨j, hj, hje, rfl⟩ := h
  exact ⟨j, hj, hje, (along_congr (bucketCount_seat ix s n dist) b j).symm⟩

/-- Less than one round ahead of a bucket it is not met again. -/
theorem not_ahead_self {b e : Nat} (hb : b < ix.bucketCount) (he : e < ix.bucketCount) :
    ¬ ix.Ahead b e b := by
  rintro ⟨j, hj, hje, heq⟩
  exact ix.along_ne hb hj (by omega) heq

/-- The trail from `ix` is exact, and changes none but the `e` buckets after `b`. -/
structure Carries (t : Trail) (ix : Index) (b e : Nat) : Prop extends t.Exact ix where
  behind : ∀ c, ¬ ix.Ahead b e c → t.index.node c = ix.node c

/-- A trail may also compute distances for which there is room. -/
theorem Carries.computing {t : Trail} {b e : Nat} (h : Carries t ix b e) {distances : List Int}
    (hle : ∀ d ∈ distances, d ≤ Node.maxDistance) : Carries (t.computing distances) ix b e where
  toExact := h.toExact.computing hle
  behind := h.behind

/-- A trail that starts at the next bucket may start one bucket before. -/
theorem Carries.of_next {t : Trail} {b e : Nat} (h : Carries t ix (ix.next b) e) :
    Carries t ix b (e + 1) where
  toExact := h.toExact
  behind c hother := h.behind c fun hahead => hother hahead.of_next

section Seat

variable {b e : Nat} {n : Node} {rest : Index → Trail}

/-- What is carried on from a seat leaves it as it is, so that the seat is exact too. -/
theorem exact_seating (hb : b < ix.bucketCount) (he : e < ix.bucketCount)
    (hn : 0 ≤ n.distance ∧ n.distance ≤ Node.maxDistance)
    (hrest : (ix.node b).isEmpty = false →
      Carries (rest (ix.seat b n n.distance.toNat)) (ix.seat b n n.distance.toNat) b e) :
    (Trail.seating ix b n n.distance.toNat rest).Exact ix := by
  refine Trail.Exact.seating hb hn fun hfull => ⟨(hrest hfull).toExact, ?_⟩
  rw [(hrest hfull).behind b fun h => not_ahead_self hb he h.of_seat]
  exact node_seat_self hb n _

/-- A seat at the next bucket, from which what was there is carried on over the rest of the
    way. -/
theorem carries_seating (hb : ix.next b < ix.bucketCount) (he : e < ix.bucketCount)
    (hn : 0 ≤ n.distance ∧ n.distance ≤ Node.maxDistance)
    (hrest : (ix.node (ix.next b)).isEmpty = false →
      Carries (rest (ix.seat (ix.next b) n n.distance.toNat))
        (ix.seat (ix.next b) n n.distance.toNat) (ix.next b) e) :
    Carries (Trail.seating ix (ix.next b) n n.distance.toNat rest) ix b (e + 1) where
  toExact := exact_seating hb he hn hrest
  behind c hother := by
    have hbc : ix.next b ≠ c := fun h => hother (h ▸ ix.ahead_next b e)
    exact Trail.node_seating hbc fun hfull =>
      (hrest hfull).behind c fun h => hother h.of_seat.of_next

end Seat

/-- To seat a node at a distance makes no distance less than that of an empty node. -/
theorem neg_one_le_distance_seat {b : Nat} {n : Node} (hlow : ∀ c, -1 ≤ (ix.node c).distance)
    (hb : b < ix.bucketCount) (hn : 0 ≤ n.distance) (dist : Nat) (c : Nat) :
    -1 ≤ ((ix.seat b n dist).node c).distance := by
  by_cases hbc : b = c
  · rw [← hbc, node_seat_self hb]
    omega
  · rw [node_seat_of_ne hbc]
    exact hlow c

/-- A carried node and those that it displaces are seated at the distances computed for them. -/
theorem displaceTrail_carries {fuel b e : Nat} {n : Node} {dist : Int} (hb : b < ix.bucketCount)
    (he : 1 ≤ e) (hfuel : e ≤ fuel) (hahead : ix.FreeAhead b e)
    (hlow : ∀ c, -1 ≤ (ix.node c).distance) (hnonneg : -1 ≤ dist)
    (hlt : dist < Node.maxDistance) :
    Carries (displaceTrail Node.cut ix fuel b n dist) ix b e := by
  -- the induction follows the walk: one bucket of the way ahead is used up in each round
  induction fuel generalizing ix b n dist e with
  | zero => omega
  | succ fuel ih =>
    obtain ⟨e, rfl⟩ := Nat.exists_eq_add_of_le' he
    have hm : (Node.maxDistance : Int) = 126 := rfl
    have hround : e + 1 < ix.bucketCount := hahead.lt
    have hc : ix.next b < ix.bucketCount := ix.next_lt b (by omega)
    have hhere : (ix.node (ix.next b)).distance < Node.maxDistance :=
      hahead.below 1 (by omega) le_rfl
    have hcomputed : ∀ d ∈ [dist + 1], d ≤ Node.maxDistance := by
      intro d hd
      rw [List.mem_singleton.mp hd]
      omega
    -- if the next bucket is not empty, the empty one is still ahead of it
    have hmore : (ix.node (ix.next b)).isEmpty = false → 1 ≤ e := fun hfull =>
      ix.one_le_of_isEmpty_along hc hfull hahead.tail.isEmpty
    rw [displaceTrail]
    dsimp only
    by_cases hpass : dist + 1 ≤ (ix.node (ix.next b)).distance
    · rw [if_pos hpass]
      have hfull : (ix.node (ix.next b)).isEmpty = false := Node.isEmpty_of_nonneg (by omega)
      have hcarries : Carries (displaceTrail Node.cut ix fuel (ix.next b) n (dist + 1)) ix
          (ix.next b) e :=
        ih hc (hmore hfull) (by omega) hahead.tail hlow (by omega) (by omega)
      exact hcarries.of_next.computing hcomputed
    · rw [if_neg hpass, Node.cut_of_le (by omega : dist + 1 ≤ Node.maxDistance), ite_self]
      set m := n.withDistance (dist + 1)
      have hdist : m.distance = dist + 1 := Node.distance_withDistance n (by omega) (by omega)
      rw [← hdist] at hcomputed ⊢
      have hrange : 0 ≤ m.distance ∧ m.distance ≤ Node.maxDistance := by omega
      have hseated : ix.next b < (ix.seat (ix.next b) m m.distance.toNat).bucketCount :=
        (bucketCount_seat ..).symm ▸ hc
      -- what is displaced is carried on over the same way, less the bucket just taken
      refine (carries_seating hc (by omega) hrange fun hfull => ?_).computing hcomputed
      exact ih hseated (hmore hfull) (by omega) (hahead.tail.seat hc (hmore hfull) m _)
        (neg_one_le_distance_seat hlow hc hrange.1 _) (hlow (ix.next b)) hhere

/-! ### Insertions -/

/-- The distances computed by the search for a seat go up to the one that is found. -/
theorem le_of_mem_seatDistances (ix : Index) (fuel b dist : Nat) :
    dist ≤ (ix.seatFrom fuel b dist).2 ∧
      ∀ d ∈ ix.seatDistances fuel b dist, d ≤ (ix.seatFrom fuel b dist).2 := by
  induction fuel generalizing b dist with
  | zero => exact ⟨le_rfl, fun d hd => (List.mem_singleton.mp hd).le⟩
  | succ fuel ih =>
    rw [seatFrom, seatDistances]
    split
    · obtain ⟨hle, hall⟩ := ih (ix.next b) (dist + 1)
      refine ⟨Nat.le_of_succ_le hle, fun d hd => ?_⟩
      rcases List.mem_cons.mp hd with rfl | hd
      · exact Int.ofNat_le.mpr (Nat.le_of_succ_le hle)
      · exact hall d hd
    · exact ⟨le_rfl, fun d hd => (List.mem_singleton.mp hd).le⟩

/-- In distance order a new node and those that it displaces are seated at the distances
    computed for them. -/
theorem orderedTrail_exact (hh : ix.Holds P) (ho : ix.Ordered P)
    (hmax : ix.maxDist < Node.maxDistance)
    (hroom : ∃ b < ix.bucketCount, (ix.node b).isEmpty) (hash : UInt64) (pos : Nat) :
    (ix.orderedTrail Node.cut hash pos).Exact ix := by
  obtain ⟨_, hlt, hempty⟩ := hroom
  have hstart : ix.home hash < ix.bucketCount := ix.home_lt hash (by omega)
  obtain ⟨e, he, rfl⟩ := ix.exists_along hstart hlt
  obtain ⟨k, hk, hseat, -, hpassed⟩ := ix.seatFrom_eq 0 hstart he hempty
  simp only [Nat.zero_add] at hseat hpassed
  have hbelow := ho.distance_lt_maxDistance hmax
  have hlow := hh.neg_one_le_distance
  have hcut : k ≤ Node.maxDistance := seat_le_maxDistance hbelow hpassed
  have hb : ix.along (ix.home hash) k < ix.bucketCount := ix.along_lt _ _ (by omega)
  -- no distance computed on the way to the seat is cut, since the seat is not that far
  have hcomputed : ∀ d ∈ ix.seatDistances ix.bucketCount (ix.home hash) 0,
      d ≤ Node.maxDistance := by
    intro d hd
    have hle := (ix.le_of_mem_seatDistances ix.bucketCount (ix.home hash) 0).2 d hd
    rw [hseat] at hle
    omega
  rw [orderedTrail, hseat]
  dsimp only
  rw [Node.cut_of_le (Int.ofNat_le.mpr hcut)]
  set n := Node.make (Node.tiny hash) k pos
  have hm : Node.maxDistance = 126 := rfl
  have hdist : n.distance = k := Node.distance_make _ _ (by omega) (by omega)
  have hrange : 0 ≤ n.distance ∧ n.distance ≤ Node.maxDistance := by omega
  rw [← hdist]
  have hcount := ix.bucketCount_seat (ix.along (ix.home hash) k) n n.distance.toNat
  have hlast : e - k < ix.bucketCount := by omega
  -- the node is seated there, and what it displaces goes on from there
  refine (exact_seating hb hlast hrange fun hfull => ?_).computing hcomputed
  obtain ⟨hpos, hahead⟩ := freeAhead_of_seat hk he hempty hfull hbelow
  exact displaceTrail_carries (hcount.symm ▸ hb) hpos (hcount.symm ▸ hlast.le)
    (hahead.seat hb hpos n _) (neg_one_le_distance_seat hlow hb hrange.1 _)
    (hlow (ix.along (ix.home hash) k)) (hbelow (ix.along (ix.home hash) k))

/-- Under linear probing the new node is the only change. -/
theorem linearTrail_exact (hlinear : ix.isLinear)
    (hroom : ∃ b < ix.bucketCount, (ix.node b).isEmpty) (hash : UInt64) (pos : Nat) :
    (ix.linearTrail hash pos).Exact ix := by
  obtain ⟨_, hlt, hempty⟩ := hroom
  have hstart : ix.home hash < ix.bucketCount := ix.home_lt hash (by omega)
  obtain ⟨e, he, rfl⟩ := ix.exists_along hstart hlt
  obtain ⟨k, -, hfree, -, -⟩ := ix.freeFrom_eq hstart he hempty
  have hb : ix.freeFrom ix.bucketCount (ix.home hash) < ix.bucketCount :=
    hfree ▸ ix.along_lt _ _ (by omega)
  rw [linearTrail]
  refine (Trail.Exact.done _).storing ?_ (node_setNode_self hb _)
    (fun c hbc => node_setNode_of_ne hbc _) ⟨fun _ => Or.inl hlinear, fun _ => hlinear⟩
  -- away from home the distance is only marked as large
  split
  · rw [Node.distance_make _ _ (by decide) (by decide)]
    decide
  · rw [Node.distance_make _ _ (by decide) (by decide)]
    decide

/-- No distance of an insertion is above the greatest one. -/
theorem insertTrail_exact (h : ix.Sound P) (hash : UInt64) (pos : Nat) :
    (ix.insertTrail Node.cut hash pos).Exact ix := by
  have hbuckets : ({ ix with size := ix.size + 1 } : Index).buckets = ix.buckets := rfl
  have hexact : (ix.insertTrail Node.cut hash pos).Exact { ix with size := ix.size + 1 } := by
    rw [insertTrail]
    split
    · rename_i hlinear
      exact linearTrail_exact hlinear h.exists_isEmpty hash pos
    · rename_i hnot
      have hnot' : ix.isLinear = false := Bool.eq_false_iff.mpr hnot
      exact orderedTrail_exact (h.holds.congr hbuckets)
        ((h.ordered hnot').congr hbuckets le_rfl) (Sound.maxDist_lt hnot') h.exists_isEmpty hash pos
  -- the size is neither a node nor a distance
  exact ⟨hexact.computed_le, hexact.range, hexact.kept, hexact.other, hexact.isLinear_iff⟩

/-- An insertion that cuts no distance. -/
structure Uncut (ix : Index) (hash : UInt64) (pos : Nat) : Prop where
  /-- The trail is the one of the insertion. -/
  arrives : (ix.insertTrail Node.cut hash pos).index = ix.insertNode hash pos
  exact : (ix.insertTrail Node.cut hash pos).Exact ix
  /-- Without the cuts the insertion is the same in every respect. -/
  uncut : ix.insertTrail id hash pos = ix.insertTrail Node.cut hash pos
  /-- An index in distance order turns linear just if it now has a node at the greatest
      distance. -/
  turns : ix.isLinear = false → ((ix.insertNode hash pos).isLinear ↔
    ∃ b, ((ix.insertNode hash pos).node b).distance = Node.maxDistance)

/-- In an index that was in distance order a node at the greatest distance is a new one. -/
theorem isLinear_insertNode_iff (h : ix.Sound P) (hnot : ix.isLinear = false) (hash : UInt64)
    (pos : Nat) : (ix.insertNode hash pos).isLinear ↔
      ∃ b, ((ix.insertNode hash pos).node b).distance = Node.maxDistance := by
  have hexact := insertTrail_exact h hash pos
  rw [← index_insertTrail, hexact.isLinear_iff, hnot]
  constructor
  · rintro (hlinear | ⟨b, n, hstored, hdist⟩)
    · exact absurd hlinear Bool.false_ne_true
    · exact ⟨b, (hexact.kept b n hstored).symm ▸ hdist⟩
  · rintro ⟨b, hdist⟩
    by_cases hstored : ∃ n, (b, n) ∈ (ix.insertTrail Node.cut hash pos).stored
    · obtain ⟨n, hstored⟩ := hstored
      exact Or.inr ⟨b, n, hstored, hexact.kept b n hstored ▸ hdist⟩
    · rw [hexact.other b (not_exists.mp hstored)] at hdist
      have hbelow := (h.ordered hnot).distance_lt_maxDistance (Sound.maxDist_lt hnot) b
      omega

/-- No insertion into an index cuts a distance. -/
theorem Sound.uncut (h : ix.Sound P) (hash : UInt64) (pos : Nat) : ix.Uncut hash pos where
  arrives := ix.index_insertTrail hash pos
  exact := insertTrail_exact h hash pos
  uncut := insertTrail_congr fun d hd =>
    (Node.cut_of_le ((insertTrail_exact h hash pos).computed_le d hd)).symm
  turns hnot := isLinear_insertNode_iff h hnot hash pos

end Index

/-! ### The insertions of a step -/

/-- An insertion of a node into an index. -/
structure Insertion where
  index : Index
  hash : UInt64
  pos : Nat

namespace Insertion

variable {ix : Index} {count : Nat} {hashAt : Nat → UInt64}

/-- The insertions of a rebuild with the given number of buckets. -/
def rehash (ix : Index) (buckets count : Nat) (hashAt : Nat → UInt64) : List Insertion :=
  (List.range count).map fun p => ⟨ix.rehash buckets p hashAt, hashAt p, p⟩

/-- The insertions of an index that grows. -/
def growForInsert (ix : Index) (hashAt : Nat → UInt64) : List Insertion :=
  if ix.isCrowded then rehash ix (ix.required (ix.size + 1)) ix.size hashAt else []

/-- The insertions of a rebuild in the present buckets. -/
def rebuildInPlace (ix : Index) (count : Nat) (hashAt : Nat → UInt64) : List Insertion :=
  rehash ix ix.bucketCount count hashAt

/-- The insertions of a rebuild in the present buckets if they are enough. -/
def rebuild (ix : Index) (count : Nat) (hashAt : Nat → UInt64) : List Insertion :=
  if count ≠ 0 ∧ ix.bucketCount < ix.required count then
    rehash ix (ix.required count) count hashAt
  else rebuildInPlace ix count hashAt

/-- The insertions that make room for `count` positions. -/
def reserve (ix : Index) (count : Nat) (hashAt : Nat → UInt64) : List Insertion :=
  if count ≠ 0 ∧ ix.bucketCount < ix.required count then
    rehash ix (ix.required count) ix.size hashAt
  else []

/-- The insertions that reduce the buckets. -/
def shrinkToFit (ix : Index) (hashAt : Nat → UInt64) : List Insertion :=
  if ix.size = 0 then []
  else if ix.required ix.size ≠ ix.bucketCount ∨ ix.tombstones ≠ 0 then
    rehash ix (ix.required ix.size) ix.size hashAt
  else []

/-- The insertions that add a position: those of growing for it, and its own. -/
def insertAt (ix : Index) (pos count : Nat) (hash : UInt64) (hashAt : Nat → UInt64) :
    List Insertion :=
  growForInsert ix hashAt ++
    [⟨(ix.growForInsert hashAt).shiftPositions pos count 1 hashAt, hash, pos⟩]

/-- The insertion cuts no distance. -/
def Uncut (a : Insertion) : Prop := a.index.Uncut a.hash a.pos

/-- A rebuild inserts into the indexes of the positions before. -/
theorem rehash_uncut (ix : Index) {buckets : Nat} (hashAt : Nat → UInt64)
    (hfits : Index.Fits buckets count) (hlt : count ≤ Node.noPosition) :
    ∀ a ∈ rehash ix buckets count hashAt, a.Uncut := by
  intro a ha
  obtain ⟨p, hp, rfl⟩ := List.mem_map.mp ha
  rw [List.mem_range] at hp
  exact Index.Sound.uncut
    (ix.rehash_rebuilt hashAt (hfits.mono (Nat.le_of_lt hp)) (by omega)).indexes _ _

/-- No distance is cut when an index is rebuilt. -/
theorem rebuild_uncut (hshape : ix.bucketCount = 1 ∨ LoadFactor.minBuckets ≤ ix.bucketCount)
    (hashAt : Nat → UInt64) (hlt : count ≤ Node.noPosition) :
    ∀ a ∈ rebuild ix count hashAt, a.Uncut := by
  rw [rebuild]
  split
  · exact rehash_uncut ix hashAt (ix.fits_required count) hlt
  · rename_i hnot
    exact rehash_uncut ix hashAt (Index.fits_of_not_lt hshape hnot) hlt

section Indexes

variable (h : ix.Indexes count hashAt)

include h

/-- An index with its own positions is built anew. -/
theorem rehash_uncut_of_indexes {buckets : Nat} (hfits : Index.Fits buckets ix.size) :
    ∀ a ∈ rehash ix buckets ix.size hashAt, a.Uncut :=
  rehash_uncut ix hashAt hfits (h.size_eq ▸ h.le_noPosition)

/-- No distance is cut when an index grows for an insertion. -/
theorem growForInsert_uncut : ∀ a ∈ growForInsert ix hashAt, a.Uncut := by
  rw [growForInsert]
  split
  · exact rehash_uncut_of_indexes h ((ix.fits_required (ix.size + 1)).mono (Nat.le_succ _))
  · exact nofun

/-- No distance is cut when an index is rebuilt in its own buckets. -/
theorem rebuildInPlace_uncut {count' : Nat} (hle : count' ≤ count) (hashAt' : Nat → UInt64) :
    ∀ a ∈ rebuildInPlace ix count' hashAt', a.Uncut := by
  have hfits := Index.Sound.fits h
  rw [h.size_eq] at hfits
  exact rehash_uncut ix hashAt' (hfits.mono hle) (le_trans hle h.le_noPosition)

/-- No distance is cut when room is made. -/
theorem reserve_uncut (wanted : Nat) : ∀ a ∈ reserve ix wanted hashAt, a.Uncut := by
  rw [reserve]
  split
  · rename_i hgrow
    exact rehash_uncut_of_indexes h (Index.Sound.fits_of_lt h hgrow.2)
  · exact nofun

/-- No distance is cut when an index is shrunk. -/
theorem shrinkToFit_uncut : ∀ a ∈ shrinkToFit ix hashAt, a.Uncut := by
  rw [shrinkToFit]
  split
  · exact nofun
  · split
    · exact rehash_uncut_of_indexes h (ix.fits_required ix.size)
    · exact nofun

/-- The index that has grown and whose positions are shifted takes the new node. -/
theorem insertAt_uncut {pos : Nat} (hpos : pos ≤ count) (hcount : count < Node.noPosition)
    (hash : UInt64) : ∀ a ∈ insertAt ix pos count hash hashAt, a.Uncut := by
  intro a ha
  rcases List.mem_append.mp ha with ha | ha
  · exact growForInsert_uncut h a ha
  · obtain ⟨hgrown, -, -⟩ := h.growForInsert
    have hshift := hgrown.holds.shiftPositions_relabels (Index.shiftable_up pos hcount) hashAt
    rw [List.mem_singleton.mp ha]
    exact (hgrown.relabel hshift (Index.renames_up hpos hcount hash)).uncut _ _

end Indexes

end Insertion

namespace Register

/-- The insertions of a step, in order. The other steps only change nodes that are there. -/
def insertions (r : Register) : Step → List Insertion
  | .insertAt pos hash => Insertion.insertAt r.index pos r.size hash r.hashAt
  | .rebuild => Insertion.rebuild r.index r.size r.hashAt
  | .rebuildInPlace count => Insertion.rebuildInPlace r.index count r.hashAt
  | .reserve count => Insertion.reserve r.index count r.hashAt
  | .shrinkToFit => Insertion.shrinkToFit r.index r.hashAt
  | _ => []

/-- No distance is cut in a step of a right register. -/
theorem Right.insertions_uncut {r : Register} (h : r.Right) {s : Step} (hs : r.Allows s)
    (hsize : r.size < Node.movingPosition) : ∀ a ∈ r.insertions s, a.Uncut := by
  have hi := h.indexes
  cases s with
  | insertAt pos hash => exact Insertion.insertAt_uncut hi hs (lt_trans hsize (by decide)) hash
  | rebuild => exact Insertion.rebuild_uncut hi.shape r.hashAt hi.le_noPosition
  | rebuildInPlace count =>
    have hle : count ≤ r.size := hi.size_eq ▸ (show count ≤ r.index.size from hs)
    exact Insertion.rebuildInPlace_uncut hi hle r.hashAt
  | reserve count => exact Insertion.reserve_uncut hi count
  | shrinkToFit => exact Insertion.shrinkToFit_uncut hi
  | _ => exact fun _ ha => absurd ha List.not_mem_nil

end Register

namespace Bank

variable {bank : Bank}

/-- The insertions of a step, in order. -/
def insertions (bank : Bank) : Step → List Insertion
  | .use i step => (bank i).insertions step
  | .renew i hashes => Insertion.rebuild (bank i).index hashes.size (hashes.getD · 0)
  | .renewInPlace i hashes => Insertion.rebuildInPlace (bank i).index hashes.size (hashes.getD · 0)
  | _ => []

/-- No distance is cut in a step of a run. -/
theorem Reachable.insertions_uncut (h : Reachable bank) {s : Step} (hs : bank.Allows s)
    (small : ∀ i, (bank.apply s i).size < 2 ^ 48 - 2) : ∀ a ∈ bank.insertions s, a.Uncut := by
  cases s with
  | use i step => exact (h.right i).insertions_uncut hs (h.small i)
  | renew i hashes =>
    have hsize := small i
    rw [apply, Function.update_self] at hsize
    have hlt : hashes.size ≤ Node.noPosition :=
      Nat.le_of_lt (lt_trans hsize (show 2 ^ 48 - 2 < Node.noPosition by decide))
    exact Insertion.rebuild_uncut (h.right i).indexes.shape _ hlt
  | renewInPlace i hashes => exact Insertion.rebuildInPlace_uncut (h.right i).indexes hs _
  | _ => exact fun _ ha => absurd ha List.not_mem_nil

/-- An insertion into an index of a run cuts no distance, whatever hash value and position it
    is for, and neither does one that a step makes on its way. In a bucket of the index is an
    empty node, a tombstone or a node whose distance is none of their two codes. -/
theorem distances_of_reachable (h : Reachable bank) :
    (∀ i, (∀ hash pos, (bank i).index.Uncut hash pos) ∧
      ∀ b, (bank i).index.node b = .empty ∨ (bank i).index.node b = .tombstone ∨
        0 ≤ ((bank i).index.node b).distance ∧
          ((bank i).index.node b).distance ≤ Node.maxDistance) ∧
    ∀ s, bank.Allows s → (∀ i, (bank.apply s i).size < 2 ^ 48 - 2) →
      ∀ a ∈ bank.insertions s, a.index.Uncut a.hash a.pos := by
  refine ⟨fun i => ⟨fun hash pos => Index.Sound.uncut (h.right i) hash pos, fun b => ?_⟩,
    fun s hs small => h.insertions_uncut hs small⟩
  have hholds := (h.right i).indexes.holds
  cases hlive : ((bank i).index.node b).isLive with
  | true => exact Or.inr (Or.inr (hholds.range b hlive))
  | false => exact (hholds.dead b hlive).imp_right Or.inl

/-- The new node goes past two others and around the end of the ring, and displaces the third,
    whose distance is then computed. -/
theorem distances_of_reachable_wrapped :
    ((fill [63, 127, 64] 0).index.insertTrail Node.cut 191 3).computed = [0, 1, 2, 2] ∧
      (fill [63, 127, 64] 0).index.Uncut 191 3 ∧
      ∀ a ∈ (fill [63, 127, 64]).insertions (.renew 0 #[127, 127]), a.index.Uncut a.hash a.pos := by
  obtain ⟨hindex, hstep⟩ := distances_of_reachable (fill_reachable [63, 127, 64] (by decide))
  refine ⟨by decide +kernel, (hindex 0).1 191 3, hstep _ trivial fun i => ?_⟩
  rw [apply]
  by_cases hi : i = 0
  · rw [hi, Function.update_self]
    decide
  · rw [Function.update_of_ne hi, size_fill, if_neg hi]
    decide

end Bank

end OrderedHash
