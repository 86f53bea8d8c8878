import OrderedHash.Index.Insert
import OrderedHash.Proofs.Index.Order

namespace OrderedHash

namespace Index

open Function (update)

/-!
# Adding a node keeps the invariant

In distance order a new node is seated at the first bucket whose node is nearer to its
home (`seatFrom_eq`), and the node found there is `Carried` on. One bucket further it is
either passed on or seated in turn; each seat keeps the order of the whole ring, so that
after the last one, which is at the next empty bucket or before it, the index is ordered
and stores one position more (`displace_seated`).

Under linear probing the new node takes the first bucket without a live one
(`freeFrom_eq`), which closes no gap in a chain. Both ways end in `Sound.insertNode`.
-/

variable {ix : Index} {P : Nat → Option UInt64}

/-! ### Finding a seat -/

/-- From a bucket on the search for a seat ends at the next empty bucket or before it. It
    passes only nodes at least as far from home as the new one would be there. -/
theorem seatFrom_eq {fuel b e : Nat} (dist : Nat) (hb : b < ix.bucketCount) (he : e < fuel)
    (hempty : (ix.node (ix.along b e)).isEmpty) :
    ∃ k ≤ e, ix.seatFrom fuel b dist = (ix.along b k, dist + k) ∧
      (ix.node (ix.along b k)).distance < (dist + k : Nat) ∧
      ∀ j < k, ((dist + j : Nat) : Int) ≤ (ix.node (ix.along b j)).distance := by
  induction fuel generalizing b dist e with
  | zero => exact absurd he (Nat.not_lt_zero e)
  | succ fuel ih =>
    by_cases hpass : (dist : Int) ≤ (ix.node b).distance
    -- the bucket is passed, so it is not the empty one
    · have hfull : (ix.node b).isEmpty = false := Node.isEmpty_of_nonneg (by omega)
      obtain ⟨e, rfl⟩ := Nat.exists_eq_add_of_le' (ix.one_le_of_isEmpty_along hb hfull hempty)
      rw [← along_next] at hempty
      obtain ⟨k, hk, heq, hlt, hle⟩ :=
        ih (dist + 1) (ix.next_lt b (by omega)) (by omega) hempty
      rw [along_next] at heq hlt
      refine ⟨k + 1, by omega, ?_, ?_, fun j hj => ?_⟩
      · rw [seatFrom, if_pos hpass, heq, Nat.add_assoc, Nat.add_comm 1 k]
      · rwa [show dist + (k + 1) = dist + 1 + k by omega]
      · cases j with
        | zero => rwa [along_zero ix hb]
        | succ j =>
          have hj' := hle j (by omega)
          rwa [along_next, show dist + 1 + j = dist + (j + 1) by omega] at hj'
    · refine ⟨0, Nat.zero_le e, ?_, ?_, fun j hj => absurd hj (Nat.not_lt_zero j)⟩
      · rw [seatFrom, if_neg hpass, along_zero ix hb]
        rfl
      · rw [along_zero ix hb]
        exact lt_of_not_ge hpass

/-! ### Nodes on their way -/

/-- The node `n` of hash value `hash` was taken from bucket `b`, where it was at distance
    `dist`, and is not stored at present. -/
structure Carried (ix : Index) (P : Nat → Option UInt64) (b : Nat) (n : Node) (dist : Int)
    (hash : UInt64) : Prop where
  absent : P n.pos = none
  tiny : n.tinyHash = Node.tiny hash
  below : n.pos < Node.noPosition
  home : ix.along (ix.home hash) dist.toNat = b
  nonneg : 0 ≤ dist
  lt : dist < Node.maxDistance
  /-- The node seated in its place is at least as far from home. -/
  le : dist ≤ (ix.node b).distance

/-- The index `r` comes from `ix` by adding one node, and stores `P`. -/
structure Seated (ix r : Index) (P : Nat → Option UInt64) : Prop where
  holds : r.Holds P
  ordered : r.Ordered P
  le_maxDist : ix.maxDist ≤ r.maxDist
  maxDist_le : r.maxDist ≤ Node.maxDistance
  liveCount : r.count Node.isLive = ix.count Node.isLive + 1
  bucketCount : r.bucketCount = ix.bucketCount
  size : r.size = ix.size
  tombstones : r.tombstones = ix.tombstones
  loadFactor : r.loadFactor = ix.loadFactor

/-- The index in which a node was put into bucket `b` at a distance that may be the
    greatest so far. -/
def seat (ix : Index) (b : Nat) (n : Node) (dist : Nat) : Index :=
  { ix with maxDist := max ix.maxDist dist }.setNode b n

theorem Ordered.raise (h : ix.Ordered P) (dist : Nat) :
    Ordered { ix with maxDist := max ix.maxDist dist } P :=
  h.congr rfl (le_max_left _ _)

theorem Holds.raise (h : ix.Holds P) (dist : Nat) :
    Holds { ix with maxDist := max ix.maxDist dist } P :=
  h.congr rfl

theorem node_seat_self {b : Nat} (hb : b < ix.bucketCount) (n : Node) (dist : Nat) :
    (ix.seat b n dist).node b = n :=
  node_setNode_self hb n

theorem node_seat_of_ne {b c : Nat} (h : b ≠ c) (n : Node) (dist : Nat) :
    (ix.seat b n dist).node c = ix.node c :=
  node_setNode_of_ne h n

@[simp] theorem bucketCount_seat (ix : Index) (b : Nat) (n : Node) (dist : Nat) :
    (ix.seat b n dist).bucketCount = ix.bucketCount :=
  bucketCount_setNode _ b n

/-- A seat at the greatest distance turns an index linear. -/
theorem isLinear_seat (ix : Index) (b : Nat) (n : Node) (dist : Nat) :
    (ix.seat b n dist).isLinear ↔ ix.isLinear ∨ Node.maxDistance ≤ dist := by
  rw [isLinear, isLinear, decide_eq_true_iff, decide_eq_true_iff]
  exact le_max_iff

/-! ### One seat -/

/-- A node takes the place of one that is nearer to its home, or of none. -/
theorem seat_ordered (hh : ix.Holds P) (ho : ix.Ordered P) (hone : 1 < ix.bucketCount) {b : Nat}
    (hb : b < ix.bucketCount) {n : Node} {hash : UInt64} (hnew : P n.pos = none)
    (hlive : n.isLive) (hnonneg : 0 ≤ n.distance)
    (hfar : (ix.node b).distance < n.distance)
    (hprev : ∀ c < ix.bucketCount, ix.next c = b → n.distance ≤ (ix.node c).distance + 1)
    (hhome : ix.along (ix.home hash) n.distance.toNat = b) :
    (ix.seat b n n.distance.toNat).Ordered
      (update (update P (ix.node b).pos none) n.pos (some hash)) := by
  have hstep := ho.step b hb
  refine (ho.raise _).setNode hb hone ?_ ?_ hprev ?_ ?_ ?_
  · exact Node.isTombstone_of_isLive hlive
  · show n.distance ≤ ((max ix.maxDist n.distance.toNat : Nat) : Int)
    omega
  · show (ix.node (ix.next b)).distance ≤ n.distance + 1
    omega
  · intro _ hash' hp
    rw [Function.update_self, Option.some.injEq] at hp
    exact hp ▸ hhome
  · intro c hash' hbc (hc : (ix.node c).isLive)
      (hp : update (update P (ix.node b).pos none) n.pos (some hash) (ix.node c).pos = some hash')
    show P (ix.node c).pos = some hash'
    have hcn : (ix.node c).pos ≠ n.pos := hh.pos_ne hc hnew
    rw [Function.update_of_ne hcn] at hp
    -- the position that was unseated is not stored any more
    by_cases hcb : (ix.node c).pos = (ix.node b).pos
    · rw [hcb, Function.update_self] at hp
      cases hp
    · rwa [Function.update_of_ne hcb] at hp

/-- A node is added for good in a bucket that was empty. -/
theorem seat_of_isEmpty (hh : ix.Holds P) (ho : ix.Ordered P) (hone : 1 < ix.bucketCount)
    (hmax : ix.maxDist ≤ Node.maxDistance) {b : Nat} (hb : b < ix.bucketCount)
    (hempty : (ix.node b).isEmpty) {n : Node} {hash : UInt64} (hnew : P n.pos = none)
    (htiny : n.tinyHash = Node.tiny hash) (hbelow : n.pos < Node.noPosition)
    (hrange : 0 ≤ n.distance ∧ n.distance ≤ Node.maxDistance)
    (hprev : ∀ c < ix.bucketCount, ix.next c = b → n.distance ≤ (ix.node c).distance + 1)
    (hhome : ix.along (ix.home hash) n.distance.toNat = b) :
    Seated ix (ix.seat b n n.distance.toNat) (update P n.pos (some hash)) := by
  have hdist : (ix.node b).distance = -1 := (Node.isEmpty_iff _).mp hempty
  have hdead : (ix.node b).isLive = false := by simp [Node.isLive, hempty]
  have hlive : n.isLive := Node.isLive_of_range hrange
  -- what an empty bucket holds is no position
  have hnone : P (ix.node b).pos = none := by
    rcases hh.dead b hdead with heq | heq <;>
    · cases hp : P (ix.node b).pos with
      | none => rfl
      | some h =>
        have := hh.below _ _ hp
        rw [heq] at this
        exact absurd this (by decide)
  have hP : update P (ix.node b).pos none = P := by
    rw [← hnone, Function.update_eq_self]
  have hord := seat_ordered hh ho hone hb hnew hlive hrange.1 (by omega) hprev hhome
  rw [hP] at hord
  refine ⟨(hh.raise _).put hb hdead hlive hrange hnew htiny hbelow, hord, le_max_left _ _, ?_,
    ?_, bucketCount_seat ix b n _, rfl, rfl, rfl⟩
  · show max ix.maxDist n.distance.toNat ≤ Node.maxDistance
    omega
  · exact count_setNode_add { ix with maxDist := _ } Node.isLive hb hdead hlive

/-! ### The chain of displaced nodes -/

theorem displace_of_le {fuel b : Nat} {n : Node} {dist : Int}
    (h : dist + 1 ≤ (ix.node (ix.next b)).distance) :
    displace ix (fuel + 1) b n dist = displace ix fuel (ix.next b) n (dist + 1) := by
  rw [displace]
  exact if_pos h

/-- A carried node is never cut to the greatest distance. -/
theorem displace_of_lt {fuel b : Nat} {n : Node} {dist : Int}
    (h : (ix.node (ix.next b)).distance < dist + 1) (hmax : dist + 1 ≤ Node.maxDistance) :
    displace ix (fuel + 1) b n dist =
      if (ix.node (ix.next b)).isEmpty then
        ix.seat (ix.next b) (n.withDistance (dist + 1)) (dist + 1).toNat
      else
        displace (ix.seat (ix.next b) (n.withDistance (dist + 1)) (dist + 1).toNat) fuel
          (ix.next b) (ix.node (ix.next b)) (ix.node (ix.next b)).distance := by
  have hcut : (if (ix.maxDist : Int) < dist + 1 then min (dist + 1) Node.maxDistance else dist + 1)
      = dist + 1 := by
    split
    · exact min_eq_left hmax
    · rfl
  rw [displace]
  dsimp only
  rw [if_neg (not_le.mpr h), hcut]
  rfl

/-- What lies before a carried node: after `e` buckets an empty one, and up to it only
    nodes below the greatest distance. -/
structure FreeAhead (ix : Index) (b e : Nat) : Prop where
  lt : e < ix.bucketCount
  isEmpty : (ix.node (ix.along b e)).isEmpty
  below : ∀ j ≤ e, 1 ≤ j → (ix.node (ix.along b j)).distance < Node.maxDistance

theorem FreeAhead.tail {b e : Nat} (h : ix.FreeAhead b (e + 1)) : ix.FreeAhead (ix.next b) e where
  lt := lt_trans (Nat.lt_succ_self e) h.lt
  isEmpty := by
    rw [along_next]
    exact h.isEmpty
  below j hj _ := by
    rw [along_next]
    exact h.below (j + 1) (by omega) (by omega)

/-- A seat at the bucket from which one looks ahead changes nothing there. -/
theorem FreeAhead.seat {b e : Nat} (h : ix.FreeAhead b e) (hb : b < ix.bucketCount) (he : 1 ≤ e)
    (n : Node) (dist : Nat) : (ix.seat b n dist).FreeAhead b e := by
  have hnode : ∀ j, 1 ≤ j → j ≤ e →
      (ix.seat b n dist).node ((ix.seat b n dist).along b j) = ix.node (ix.along b j) := by
    intro j hj hje
    rw [along_congr (bucketCount_seat ix b n dist)]
    exact node_seat_of_ne (ix.along_ne hb hj (lt_of_le_of_lt hje h.lt)).symm n dist
  refine ⟨by rw [bucketCount_seat]; exact h.lt, ?_, fun j hj hj1 => ?_⟩
  · rw [hnode e he le_rfl]
    exact h.isEmpty
  · rw [hnode j hj1 hj]
    exact h.below j hj hj1

/-- Ahead of a seat that is not empty lies the empty bucket at which the search would end. -/
theorem freeAhead_of_seat {home k e : Nat} (hk : k ≤ e) (he : e < ix.bucketCount)
    (hempty : (ix.node (ix.along home e)).isEmpty)
    (hfull : (ix.node (ix.along home k)).isEmpty = false)
    (hbelow : ∀ b, (ix.node b).distance < Node.maxDistance) :
    1 ≤ e - k ∧ ix.FreeAhead (ix.along home k) (e - k) := by
  have hb : ix.along home k < ix.bucketCount := ix.along_lt _ _ (by omega)
  have hfree : (ix.node (ix.along (ix.along home k) (e - k))).isEmpty := by
    rw [along_along, Nat.add_sub_cancel' hk]
    exact hempty
  exact ⟨ix.one_le_of_isEmpty_along hb hfull hfree, by omega, hfree, fun j _ _ => hbelow _⟩

/-- Replacing a live node before another one is added changes no number. -/
theorem Seated.of_seat {b : Nat} {n : Node} {dist : Nat} {r : Index}
    (hs : Seated (ix.seat b n dist) r P) (hb : (ix.node b).isLive) (hn : n.isLive) :
    Seated ix r P where
  holds := hs.holds
  ordered := hs.ordered
  le_maxDist := le_trans (le_max_left _ _) hs.le_maxDist
  maxDist_le := hs.maxDist_le
  liveCount := by
    have hsame : (ix.seat b n dist).count Node.isLive = ix.count Node.isLive :=
      count_setNode_same { ix with maxDist := _ } Node.isLive (lt_of_isLive hb)
        (hn.trans hb.symm)
    rw [hs.liveCount, hsame]
  bucketCount := hs.bucketCount.trans (bucketCount_seat ix b n dist)
  size := hs.size
  tombstones := hs.tombstones
  loadFactor := hs.loadFactor

/-- A node takes the place of a live one, which is then carried on to a seat of its own. -/
theorem Seated.of_carried (hh : ix.Holds P) (ho : ix.Ordered P) (hone : 1 < ix.bucketCount) {b : Nat}
    (hb : (ix.node b).isLive) (hfree : (ix.node b).distance < Node.maxDistance) {n : Node}
    {hash : UInt64} (hnew : P n.pos = none) (htiny : n.tinyHash = Node.tiny hash)
    (hbelow : n.pos < Node.noPosition)
    (hrange : 0 ≤ n.distance ∧ n.distance ≤ Node.maxDistance)
    (hfar : (ix.node b).distance < n.distance)
    (hprev : ∀ c < ix.bucketCount, ix.next c = b → n.distance ≤ (ix.node c).distance + 1)
    (hhome : ix.along (ix.home hash) n.distance.toNat = b) {r : Index}
    (hrest : ∀ {P' hash'}, (ix.seat b n n.distance.toNat).Holds P' →
      (ix.seat b n n.distance.toNat).Ordered P' →
      Carried (ix.seat b n n.distance.toNat) P' b (ix.node b) (ix.node b).distance hash' →
      Seated (ix.seat b n n.distance.toNat) r (update P' (ix.node b).pos (some hash'))) :
    Seated ix r (update P n.pos (some hash)) := by
  have hlt : b < ix.bucketCount := lt_of_isLive hb
  have hlive : n.isLive := Node.isLive_of_range hrange
  obtain ⟨hash', hp', htiny'⟩ := hh.stored b hb
  have hne : (ix.node b).pos ≠ n.pos := hh.pos_ne hb hnew
  have hcount := ix.bucketCount_seat b n n.distance.toNat
  have hholds : (ix.seat b n n.distance.toNat).Holds
      (update (update P (ix.node b).pos none) n.pos (some hash)) :=
    (hh.raise _).replace hb hlive hrange hnew htiny hbelow
  have hordered := seat_ordered hh ho hone hlt hnew hlive hrange.1 hfar hprev hhome
  have hcarried : Carried (ix.seat b n n.distance.toNat)
      (update (update P (ix.node b).pos none) n.pos (some hash)) b (ix.node b)
      (ix.node b).distance hash' := by
    refine ⟨?_, htiny', hh.below _ _ hp', ?_, (hh.range _ hb).1, hfree, ?_⟩
    · rw [Function.update_of_ne hne, Function.update_self]
    · rw [along_congr hcount, home_congr hcount]
      exact ho.exact _ _ hb hp'
    · rw [node_seat_self hlt]
      exact le_of_lt hfar
  have hseated := hrest hholds hordered hcarried
  -- the displaced node is stored again under the hash value that it had
  have hcontents : update (update (update P (ix.node b).pos none) n.pos (some hash))
      (ix.node b).pos (some hash') = update P n.pos (some hash) := by
    rw [Function.update_comm hne.symm, Function.update_idem, ← hp', Function.update_eq_self]
  rw [hcontents] at hseated
  exact hseated.of_seat hb hlive

/-- A carried node and those it displaces find their seats. -/
theorem displace_seated {fuel : Nat} (hh : ix.Holds P) (ho : ix.Ordered P)
    (hmax : ix.maxDist ≤ Node.maxDistance) {b e : Nat} (hb : b < ix.bucketCount) {n : Node}
    {dist : Int} {hash : UInt64} (hn : Carried ix P b n dist hash) (he : 1 ≤ e) (hfuel : e ≤ fuel)
    (hahead : ix.FreeAhead b e) :
    Seated ix (displace ix fuel b n dist) (update P n.pos (some hash)) := by
  -- the induction follows the walk: one bucket of the way ahead is used up in each round
  induction fuel generalizing ix P b n dist hash e with
  | zero => omega
  | succ fuel ih =>
    obtain ⟨e, rfl⟩ := Nat.exists_eq_add_of_le' he
    have hone : 1 < ix.bucketCount := by have := hahead.lt; omega
    have hc : ix.next b < ix.bucketCount := ix.next_lt b (by omega)
    have hmaxint : (Node.maxDistance : Int) = 126 := rfl
    have hnonneg := hn.nonneg
    have hlt := hn.lt
    have hhome : ix.along (ix.home hash) (dist + 1).toNat = ix.next b := by
      rw [show (dist + 1).toNat = dist.toNat + 1 by omega, ← next_along, hn.home]
    have hbelow : (ix.node (ix.next b)).distance < Node.maxDistance :=
      hahead.below 1 (by omega) le_rfl
    by_cases hpass : dist + 1 ≤ (ix.node (ix.next b)).distance
    · rw [displace_of_le hpass]
      have hcarried : Carried ix P (ix.next b) n (dist + 1) hash :=
        ⟨hn.absent, hn.tiny, hn.below, hhome, by omega, by omega, hpass⟩
      have hfull : (ix.node (ix.next b)).isEmpty = false := Node.isEmpty_of_nonneg (by omega)
      have hlen : 1 ≤ e := ix.one_le_of_isEmpty_along hc hfull hahead.tail.isEmpty
      exact ih hh ho hmax hc hcarried hlen (by omega) hahead.tail
    · have hnear : (ix.node (ix.next b)).distance < dist + 1 := not_le.mp hpass
      rw [displace_of_lt hnear (by omega)]
      set seated := n.withDistance (dist + 1) with hseated
      have hdist : seated.distance = dist + 1 :=
        Node.distance_withDistance n (by omega) (by omega)
      have hpos : seated.pos = n.pos := Node.pos_withDistance n _
      have htiny : seated.tinyHash = Node.tiny hash :=
        (Node.tinyHash_withDistance n _).trans hn.tiny
      have hnew : P seated.pos = none := by rw [hpos]; exact hn.absent
      have hrange : 0 ≤ seated.distance ∧ seated.distance ≤ Node.maxDistance := by omega
      have hprev : ∀ c < ix.bucketCount, ix.next c = ix.next b →
          seated.distance ≤ (ix.node c).distance + 1 := by
        intro c hclt heq
        rw [ix.next_inj hclt hb heq, hdist]
        have := hn.le
        omega
      rw [← hdist] at hhome hnear ⊢
      rw [← hpos]
      split
      · rename_i hempty
        exact seat_of_isEmpty hh ho hone hmax hc hempty hnew htiny (hpos ▸ hn.below) hrange hprev
          hhome
      · rename_i hempty
        have hfull : (ix.node (ix.next b)).isEmpty = false := Bool.eq_false_iff.mpr hempty
        have hhere : (ix.node (ix.next b)).isLive := ho.isLive_of_isEmpty hfull
        have hlen : 1 ≤ e := ix.one_le_of_isEmpty_along hc hfull hahead.tail.isEmpty
        have hcount := ix.bucketCount_seat (ix.next b) seated seated.distance.toNat
        refine Seated.of_carried hh ho hone hhere hbelow hnew htiny (hpos ▸ hn.below) hrange hnear
          hprev hhome fun hholds hordered hcarried => ?_
        exact ih hholds hordered (max_le hmax (by omega)) (hcount.symm ▸ hc) hcarried hlen
          (by omega) (hahead.tail.seat hc hlen _ _)

/-- The seat found is at most one bucket farther from home than the node before it. -/
theorem Holds.seat_le_next (h : ix.Holds P) {home k : Nat} (hpos : 0 < ix.bucketCount)
    (hpassed : ∀ j < k, (j : Int) ≤ (ix.node (ix.along home j)).distance) {c : Nat}
    (hc : c < ix.bucketCount) (hnext : ix.next c = ix.along home k) :
    (k : Int) ≤ (ix.node c).distance + 1 := by
  rcases Nat.eq_zero_or_pos k with rfl | hkpos
  · have := h.neg_one_le_distance c
    omega
  · have hback : ix.next c = ix.next (ix.along home (k - 1)) := by
      rw [hnext, next_along, Nat.sub_add_cancel hkpos]
    rw [ix.next_inj hc (ix.along_lt _ _ hpos) hback]
    have := hpassed (k - 1) (by omega)
    omega

/-- Where every distance is below the greatest, a seat is not farther from home than that. -/
theorem seat_le_maxDistance {home k : Nat}
    (hbelow : ∀ b, (ix.node b).distance < Node.maxDistance)
    (hpassed : ∀ j < k, (j : Int) ≤ (ix.node (ix.along home j)).distance) :
    k ≤ Node.maxDistance := by
  rcases Nat.eq_zero_or_pos k with rfl | hkpos
  · exact Nat.zero_le _
  · have hlast := hpassed (k - 1) (by omega)
    have := hbelow (ix.along home (k - 1))
    omega

/-- A new position takes the seat that is found for it, and what is there moves on. -/
theorem insertOrdered_eq {hash : UInt64} {k : Nat} {pos : Nat} {n : Node}
    (hseat : ix.seatFrom ix.bucketCount (ix.home hash) 0 = (ix.along (ix.home hash) k, k))
    (hk : k ≤ Node.maxDistance) (hn : n = Node.make (Node.tiny hash) k pos)
    (hdist : n.distance = k) :
    ix.insertOrdered hash pos =
      if (ix.node (ix.along (ix.home hash) k)).isEmpty then
        ix.seat (ix.along (ix.home hash) k) n n.distance.toNat
      else
        displace (ix.seat (ix.along (ix.home hash) k) n n.distance.toNat) ix.bucketCount
          (ix.along (ix.home hash) k) (ix.node (ix.along (ix.home hash) k))
          (ix.node (ix.along (ix.home hash) k)).distance := by
  rw [insertOrdered, hseat, hdist, Int.toNat_natCast]
  dsimp only
  rw [min_eq_left hk, ← hn, seat, bucketCount_setNode]
  rfl

/-- A new position is added in distance order. -/
theorem insertOrdered_seated (hh : ix.Holds P) (ho : ix.Ordered P)
    (hmax : ix.maxDist < Node.maxDistance) (hone : 1 < ix.bucketCount)
    (hroom : ∃ b < ix.bucketCount, (ix.node b).isEmpty) (hash : UInt64) {pos : Nat}
    (hnew : P pos = none) (hpos : pos < Node.noPosition) :
    Seated ix (ix.insertOrdered hash pos) (update P pos (some hash)) := by
  obtain ⟨_, hlt, hempty⟩ := hroom
  have hm : (Node.maxDistance : Int) = 126 := rfl
  have hstart : ix.home hash < ix.bucketCount := ix.home_lt hash (by omega)
  obtain ⟨e, he, rfl⟩ := ix.exists_along hstart hlt
  -- the seat is the first bucket that is not farther from its home than the new node would be
  obtain ⟨k, hk, hseat, hfar, hpassed⟩ := ix.seatFrom_eq 0 hstart he hempty
  simp only [Nat.zero_add] at hseat hfar hpassed
  have hb : ix.along (ix.home hash) k < ix.bucketCount := ix.along_lt _ _ (by omega)
  have hbound := ho.distance_lt_maxDistance hmax
  have hcut : k ≤ Node.maxDistance := seat_le_maxDistance hbound hpassed
  set n := Node.make (Node.tiny hash) k pos with hn
  have hdist : n.distance = k := Node.distance_make _ _ (by omega) (by omega)
  have hnpos : n.pos = pos := Node.pos_make_of_lt _ _ hpos
  have htiny : n.tinyHash = Node.tiny hash := Node.tinyHash_make _ _ _
  have hrange : 0 ≤ n.distance ∧ n.distance ≤ Node.maxDistance := by omega
  -- the node before the seat is not that much closer to its home than the new one
  have hprev : ∀ c < ix.bucketCount, ix.next c = ix.along (ix.home hash) k →
      n.distance ≤ (ix.node c).distance + 1 := fun c hc hnext =>
    hdist.symm ▸ hh.seat_le_next (by omega) hpassed hc hnext
  have hhome : ix.along (ix.home hash) n.distance.toNat = ix.along (ix.home hash) k := by
    rw [hdist, Int.toNat_natCast]
  rw [insertOrdered_eq hseat hcut hn hdist, ← hnpos]
  rw [← hnpos] at hnew hpos
  rw [← hdist] at hfar
  -- an empty seat is taken, and otherwise the node there is displaced and carried on
  split
  · rename_i hfree
    exact seat_of_isEmpty hh ho hone hmax.le hb hfree hnew htiny hpos hrange hprev hhome
  · rename_i hfull
    have hfull' : (ix.node (ix.along (ix.home hash) k)).isEmpty = false := by simpa using hfull
    obtain ⟨hpos', hahead⟩ := freeAhead_of_seat hk he hempty hfull' hbound
    refine Seated.of_carried hh ho hone (ho.isLive_of_isEmpty hfull') (hbound _) hnew htiny hpos
      hrange hfar hprev hhome fun hholds hordered hcarried => ?_
    have hcount := ix.bucketCount_seat (ix.along (ix.home hash) k) n n.distance.toNat
    exact displace_seated hholds hordered (max_le hmax.le (by omega)) (hcount.symm ▸ hb) hcarried
      hpos' (by omega) (hahead.seat hb hpos' _ _)

/-! ### Linear probing -/

/-- From a bucket on the first one without a live node is the next empty bucket or before it. -/
theorem freeFrom_eq {fuel b e : Nat} (hb : b < ix.bucketCount) (he : e < fuel)
    (hempty : (ix.node (ix.along b e)).isEmpty) :
    ∃ k ≤ e, ix.freeFrom fuel b = ix.along b k ∧ (ix.node (ix.along b k)).isLive = false ∧
      ∀ j < k, (ix.node (ix.along b j)).isLive := by
  induction fuel generalizing b e with
  | zero => exact absurd he (Nat.not_lt_zero e)
  | succ fuel ih =>
    -- live nodes are passed, and the first other bucket is taken
    by_cases hlive : (ix.node b).isLive
    · have hfull : (ix.node b).isEmpty = false := Node.isEmpty_of_isLive hlive
      obtain ⟨e, rfl⟩ := Nat.exists_eq_add_of_le' (ix.one_le_of_isEmpty_along hb hfull hempty)
      rw [← along_next] at hempty
      obtain ⟨k, hk, heq, hdead, hall⟩ := ih (ix.next_lt b (by omega)) (by omega) hempty
      rw [along_next] at heq hdead
      refine ⟨k + 1, by omega, ?_, hdead, fun j hj => ?_⟩
      · rw [freeFrom, if_pos hlive, heq]
      · cases j with
        | zero => rwa [along_zero ix hb]
        | succ j =>
          have hj' := hall j (by omega)
          rwa [along_next] at hj'
    · refine ⟨0, Nat.zero_le e, ?_, ?_, fun j hj => absurd hj (Nat.not_lt_zero j)⟩
      · rw [freeFrom, if_neg hlive, along_zero ix hb]
      · rw [along_zero ix hb]
        simpa using hlive

/-- A live node closes no chain, and is chained itself if no bucket before it is empty. -/
theorem Chained.put (h : ix.Chained P) {b : Nat} (hb : b < ix.bucketCount) {n : Node}
    (hn : n.isLive) {hash : UInt64} (hchain : ∃ d, ix.along (ix.home hash) d = b ∧
      ∀ k < d, (ix.node (ix.along (ix.home hash) k)).isEmpty = false)
    (hnew : ∀ c, (ix.node c).isLive → (ix.node c).pos ≠ n.pos) :
    (ix.setNode b n).Chained (update P n.pos (some hash)) := by
  -- a bucket that is not empty stays so
  have hkeep : ∀ c, (ix.node c).isEmpty = false → ((ix.setNode b n).node c).isEmpty = false := by
    intro c hc
    by_cases hbc : b = c
    · subst hbc
      rw [node_setNode_self hb]
      exact Node.isEmpty_of_isLive hn
    · rwa [node_setNode_of_ne hbc]
  intro c hash' hc hp
  rw [home_congr (bucketCount_setNode ix b n)]
  simp only [along_congr (bucketCount_setNode ix b n)]
  by_cases hbc : b = c
  · subst hbc
    rw [node_setNode_self hb, Function.update_self, Option.some.injEq] at hp
    obtain ⟨d, hd, hall⟩ := hchain
    exact ⟨d, hp ▸ hd, fun k hk => hkeep _ (hp ▸ hall k hk)⟩
  · rw [node_setNode_of_ne hbc] at hc hp
    rw [Function.update_of_ne (hnew c hc)] at hp
    obtain ⟨d, hd, hall⟩ := h c hash' hc hp
    exact ⟨d, hd, fun k hk => hkeep _ (hall k hk)⟩

/-- The index `r` comes from `ix` by filling one bucket, and stores `P`. -/
structure Filled (ix r : Index) (P : Nat → Option UInt64) : Prop where
  holds : r.Holds P
  chained : r.Chained P
  liveCount : r.count Node.isLive = ix.count Node.isLive + 1
  tombstoneCount : r.count Node.isTombstone = r.tombstones
  tombstones_le : r.tombstones ≤ ix.tombstones
  maxDist : r.maxDist = ix.maxDist
  bucketCount : r.bucketCount = ix.bucketCount
  size : r.size = ix.size
  loadFactor : r.loadFactor = ix.loadFactor

/-- A new position is added under linear probing. -/
theorem insertLinear_filled (hh : ix.Holds P) (hc : ix.Chained P)
    (htombs : ix.count Node.isTombstone = ix.tombstones)
    (hroom : ∃ b < ix.bucketCount, (ix.node b).isEmpty) (hash : UInt64) {pos : Nat}
    (hnew : P pos = none) (hpos : pos < Node.noPosition) :
    Filled ix (ix.insertLinear hash pos) (update P pos (some hash)) := by
  obtain ⟨_, hlt, hempty⟩ := hroom
  have hstart : ix.home hash < ix.bucketCount := ix.home_lt hash (by omega)
  obtain ⟨e, he, rfl⟩ := ix.exists_along hstart hlt
  obtain ⟨k, -, hfree, hdead, hall⟩ := ix.freeFrom_eq hstart he hempty
  set b := ix.along (ix.home hash) k with hbdef
  have hb : b < ix.bucketCount := ix.along_lt _ _ (by omega)
  -- away from home the distance is only marked as large
  obtain ⟨d, hdle, hd⟩ : ∃ d ≤ Node.maxDistance,
      (if b = ix.home hash then 0 else Node.maxDistance) = d := by
    split
    · exact ⟨0, Nat.zero_le _, rfl⟩
    · exact ⟨_, le_rfl, rfl⟩
  set n := Node.make (Node.tiny hash) d pos with hn
  set base : Index := { ix with
    tombstones := if (ix.node b).isTombstone then ix.tombstones - 1 else ix.tombstones } with hbase
  have hbuckets : base.buckets = ix.buckets := rfl
  have hinsert : ix.insertLinear hash pos = base.setNode b n := by
    rw [insertLinear, hfree, hd]
  have hm : Node.maxDistance = 126 := rfl
  have hdist : n.distance = d := Node.distance_make _ _ (by omega) (by omega)
  have hnpos : n.pos = pos := Node.pos_make_of_lt _ _ hpos
  have hrange : 0 ≤ n.distance ∧ n.distance ≤ Node.maxDistance := by omega
  have hlive : n.isLive := Node.isLive_of_range hrange
  have hholds : base.Holds P := hh.congr hbuckets
  have hchained : base.Chained P := hc.congr hbuckets
  rw [hinsert, ← hnpos]
  rw [← hnpos] at hnew hpos
  have hchain : ∃ d, base.along (base.home hash) d = b ∧
      ∀ k < d, (base.node (base.along (base.home hash) k)).isEmpty = false :=
    ⟨k, rfl, fun j hj => Node.isEmpty_of_isLive (hall j hj)⟩
  -- the node may have taken the place of a tombstone
  have hcount := base.count_setNode Node.isTombstone hb n
  rw [Node.isTombstone_of_isLive hlive, show base.count Node.isTombstone = ix.tombstones from htombs,
    show base.node b = ix.node b from rfl] at hcount
  refine ⟨hholds.put hb hdead hlive hrange hnew (Node.tinyHash_make _ _ _) hpos,
    hchained.put hb hlive hchain (fun c hc => hholds.pos_ne hc hnew), ?_, ?_, ?_, rfl,
    bucketCount_setNode _ _ _, rfl, rfl⟩
  · exact base.count_setNode_add Node.isLive hb hdead hlive
  · change _ = if (ix.node b).isTombstone then ix.tombstones - 1 else ix.tombstones
    cases htomb : (ix.node b).isTombstone
    · simpa [htomb] using hcount
    · rw [htomb, if_pos rfl] at hcount
      rw [if_pos rfl]
      exact Nat.eq_sub_of_add_eq hcount
  · change (if (ix.node b).isTombstone then ix.tombstones - 1 else ix.tombstones) ≤ ix.tombstones
    split
    · exact Nat.sub_le _ _
    · exact le_rfl

/-! ### Adding a position -/

/-- The index `r` comes from `ix` by adding one position, and stores `P`. -/
structure Added (ix r : Index) (P : Nat → Option UInt64) : Prop where
  sound : r.Sound P
  bucketCount : r.bucketCount = ix.bucketCount
  size : r.size = ix.size + 1
  tombstones_le : r.tombstones ≤ ix.tombstones
  loadFactor : r.loadFactor = ix.loadFactor

/-- A position is added to an index that has room for it. -/
theorem Sound.insertNode (h : ix.Sound P) (hmin : LoadFactor.minBuckets ≤ ix.bucketCount)
    (hfill : ix.size + ix.tombstones < LoadFactor.fillLimit ix.bucketCount) (hash : UInt64)
    {pos : Nat} (hnew : P pos = none) (hpos : pos < Node.noPosition) :
    Added ix (ix.insertNode hash pos) (update P pos (some hash)) := by
  rw [Index.insertNode]
  set base : Index := { ix with size := ix.size + 1 } with hbase
  have hbuckets : base.buckets = ix.buckets := rfl
  have hlive : base.count Node.isLive + 1 = base.size := congrArg (· + 1) h.liveCount
  by_cases hlinear : base.isLinear
  · rw [if_pos hlinear]
    have hf := insertLinear_filled (h.holds.congr hbuckets) (h.chained.congr hbuckets)
      h.tombstoneCount h.exists_isEmpty hash hnew hpos
    have htombs : _ ≤ ix.tombstones := hf.tombstones_le
    refine ⟨⟨hf.holds, hf.chained, fun hnot => ?_, ?_, hf.tombstoneCount, ?_, ?_, Or.inr ⟨?_, ?_⟩⟩,
      hf.bucketCount, hf.size, htombs, hf.loadFactor⟩
    -- linear probing is never left
    · have hsame : (base.insertLinear hash pos).isLinear = base.isLinear := by
        rw [isLinear, isLinear, hf.maxDist]
      rw [hsame, hlinear] at hnot
      exact Bool.noConfusion hnot
    · rw [hf.liveCount, hf.size, hlive]
    · rw [hf.maxDist]
      exact h.one_le_maxDist
    · rw [hf.maxDist]
      exact h.maxDist_le
    · rw [hf.bucketCount]
      exact hmin
    · rw [hf.bucketCount, hf.size]
      change ix.size + 1 + _ ≤ LoadFactor.fillLimit ix.bucketCount
      omega
  · rw [if_neg hlinear]
    have hnot : ix.isLinear = false := Bool.eq_false_iff.mpr hlinear
    have hord := h.ordered hnot
    have hs := insertOrdered_seated (h.holds.congr hbuckets) (hord.congr hbuckets le_rfl)
      (maxDist_lt hnot) (lt_of_lt_of_le (by decide) hmin) h.exists_isEmpty hash hnew hpos
    refine ⟨⟨hs.holds, hs.ordered.chained hs.holds, fun _ => hs.ordered, ?_, ?_, ?_, hs.maxDist_le,
      Or.inr ⟨?_, ?_⟩⟩, hs.bucketCount, hs.size, hs.tombstones.le, hs.loadFactor⟩
    · rw [hs.liveCount, hs.size, hlive]
    · rw [hs.ordered.count_isTombstone, hs.tombstones]
      exact hord.count_isTombstone.symm.trans h.tombstoneCount
    · exact le_trans h.one_le_maxDist hs.le_maxDist
    · rw [hs.bucketCount]
      exact hmin
    · rw [hs.bucketCount, hs.size, hs.tombstones]
      change ix.size + 1 + ix.tombstones ≤ LoadFactor.fillLimit ix.bucketCount
      omega

end Index

end OrderedHash
