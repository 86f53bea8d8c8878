import OrderedHash.Proofs.Index.Erasure
import OrderedHash.Proofs.Index.Insertion
import OrderedHash.Proofs.Index.Renumbering
import OrderedHash.Proofs.Index.Search
import Mathlib.Data.PFun

namespace OrderedHash

namespace Index

/-!
# Walks that are not bounded

A walk around the ring has no counter: it goes on until it meets what it is after. The
operations bound each walk by the number of buckets. Here the walks are loops without a
bound, with partial results, which have no value where a loop would go on for ever.

A walk ends because a bucket that stops it lies ahead. For most walks that is an empty
bucket, which a sound index always has (`Sound.exists_isEmpty`) and lookups need of any
(`find_of_formed`); a walk that changes nodes on its way leaves it empty, since it has not
come there yet. The walk to the node of a position
ends if a live node holds that position, and has a value under this condition alone.
-/

namespace Unbounded

variable {ix : Index} {P : Nat → Option UInt64}

/-! ### Loops -/

/-- Repeats a round until it gives a result. -/
noncomputable def loop {σ ρ : Type} (round : σ → ρ ⊕ σ) (s : σ) : Part ρ :=
  PFun.fix (fun s => Part.some (round s)) s

section Loop

variable {σ ρ : Type} {round : σ → ρ ⊕ σ} {s s' : σ} {r : ρ}

/-- A loop ends with the result of its last round. -/
theorem loop_of_inl (h : round s = .inl r) : loop round s = Part.some r := by
  rw [Part.eq_some_iff]
  apply PFun.fix_stop
  rw [h]
  exact Part.mem_some _

/-- A loop goes on in the state that a round leaves. -/
theorem loop_of_inr (h : round s = .inr s') : loop round s = loop round s' := by
  apply PFun.fix_fwd_eq
  rw [h]
  exact Part.mem_some _

/-- What follows a value in a sequence of steps. -/
theorem some_bind {α β : Type} (a : α) (f : α → Part β) : (Part.some a >>= f) = f a :=
  Part.bind_some a f

end Loop

/-! ### Looking up -/

/-- One bucket of a lookup. -/
def findRound (ix : Index) (tiny : UInt8) (test : Nat → Bool) :
    Nat × Nat → Option Nat ⊕ (Nat × Nat)
  | (b, dist) =>
    if (ix.node b).distance < dist then .inl none
    else if (ix.node b).tinyHash == tiny && test (ix.node b).pos then .inl (some b)
    else .inr (ix.next b, if ix.isLinear then dist else dist + 1)

/-- The bucket of a node with the tiny hash of `hash` whose position passes the test. -/
noncomputable def find (ix : Index) (hash : UInt64) (test : Nat → Bool) : Part (Option Nat) :=
  loop (findRound ix (Node.tiny hash) test) (ix.home hash, 0)

/-- A lookup ends at an empty bucket at the latest. -/
theorem loop_findRound (ix : Index) (tiny : UInt8) (test : Nat → Bool) {fuel b dist e : Nat}
    (hb : b < ix.bucketCount) (he : e < fuel) (hempty : (ix.node (ix.along b e)).isEmpty) :
    loop (findRound ix tiny test) (b, dist) = Part.some (ix.findFrom tiny test fuel b dist) := by
  induction fuel generalizing b dist e with
  | zero => exact absurd he (Nat.not_lt_zero e)
  | succ fuel ih =>
    rw [findFrom]
    split
    · rename_i hlow
      exact loop_of_inl (if_pos hlow)
    · rename_i hlow
      split
      · rename_i hpass
        exact loop_of_inl ((if_neg hlow).trans (if_pos hpass))
      · rename_i hpass
        have hround : findRound ix tiny test (b, dist) =
            .inr (ix.next b, if ix.isLinear then dist else dist + 1) :=
          (if_neg hlow).trans (if_neg hpass)
        rw [loop_of_inr hround]
        cases e with
        -- an empty bucket would have ended the walk
        | zero =>
          rw [along_zero ix hb] at hempty
          have := (Node.isEmpty_iff _).mp hempty
          omega
        | succ e =>
          rw [← along_next] at hempty
          exact ih (ix.next_lt b (by omega)) (by omega) hempty

/-- Every lookup ends, whatever the live nodes hold. -/
theorem find_of_formed (h : ix.Formed) (hash : UInt64) (test : Nat → Bool) :
    find ix hash test = Part.some (ix.find hash test) := by
  obtain ⟨b, hb, hempty⟩ := h.empty
  have hhome := ix.home_lt hash h.bucketCount_pos
  obtain ⟨e, he, rfl⟩ := ix.exists_along hhome hb
  exact loop_findRound ix _ test hhome he hempty

/-- The search for a hash value ends, since there is an empty bucket. -/
theorem find_eq (h : ix.Sound P) (hash : UInt64) (test : Nat → Bool) :
    find ix hash test = Part.some (ix.find hash test) :=
  find_of_formed h.formed hash test

/-! ### The node of a position -/

/-- One bucket of the walk to the node of a position. -/
def nodeRound (ix : Index) (p b : Nat) : Nat ⊕ Nat :=
  if (ix.node b).holds p then .inl b else .inr (ix.next b)

/-- A live node holds the position. -/
def Held (ix : Index) (p : Nat) : Prop := ∃ b, (ix.node b).isLive ∧ (ix.node b).pos = p

/-- The bucket of the node that holds position `p`. Without such a live node there is no
    value, whether the walk ends or not. -/
noncomputable def findNode (ix : Index) (hash : UInt64) (p : Nat) : Part Nat :=
  Part.assert (Held ix p) fun _ => loop (nodeRound ix p) (ix.home hash)

/-- The search for a position ends at the latest where it is held. -/
theorem loop_nodeRound (ix : Index) {p fuel b k : Nat} (hb : b < ix.bucketCount) (hk : k < fuel)
    (hpos : (ix.node (ix.along b k)).pos = p) :
    ∃ c, ix.findNodeFrom p fuel b = some c ∧ loop (nodeRound ix p) b = Part.some c := by
  induction fuel generalizing b k with
  | zero => exact absurd hk (Nat.not_lt_zero k)
  | succ fuel ih =>
    rw [findNodeFrom]
    split
    · rename_i hhere
      exact ⟨b, rfl, loop_of_inl (if_pos hhere)⟩
    · rename_i hnot
      have hround : nodeRound ix p b = .inr (ix.next b) := if_neg hnot
      rw [loop_of_inr hround]
      -- at the bucket that holds the position the search would have ended
      cases k with
      | zero =>
        rw [along_zero ix hb] at hpos
        exact absurd (by simpa [Node.holds] using hpos) hnot
      | succ k =>
        rw [← along_next] at hpos
        exact ih (ix.next_lt b (by omega)) (by omega) hpos

/-- The walk to a position that is held ends. -/
theorem findNode_eq {p : Nat} (h : Held ix p) (hash : UInt64) :
    ∃ b, ix.findNode hash p = some b ∧ findNode ix hash p = Part.some b := by
  obtain ⟨b, hb, hpos⟩ := h
  have hlt : b < ix.bucketCount := lt_of_isLive hb
  have hhome := ix.home_lt hash (by omega)
  obtain ⟨k, hk, hbk⟩ := ix.exists_along hhome hlt
  obtain ⟨c, hfind, hloop⟩ := loop_nodeRound ix hhome hk (hbk ▸ hpos)
  exact ⟨c, hfind, (Part.assert_pos ⟨b, hb, hpos⟩).trans hloop⟩

/-! ### Adding a node -/

/-- One bucket of the walk to a bucket without a live node. -/
def freeRound (ix : Index) (b : Nat) : Nat ⊕ Nat :=
  if (ix.node b).isLive then .inr (ix.next b) else .inl b

/-- Adds a node under linear probing. -/
noncomputable def insertLinear (ix : Index) (hash : UInt64) (pos : Nat) : Part Index := do
  let b ← loop (freeRound ix) (ix.home hash)
  let tombstones := if (ix.node b).isTombstone then ix.tombstones - 1 else ix.tombstones
  let distance := if b = ix.home hash then 0 else Node.maxDistance
  return { ix with tombstones }.setNode b (.make (Node.tiny hash) distance pos)

/-- The search for a free bucket ends at the latest at an empty one. -/
theorem loop_freeRound (ix : Index) {fuel b e : Nat} (hb : b < ix.bucketCount) (he : e < fuel)
    (hempty : (ix.node (ix.along b e)).isEmpty) :
    loop (freeRound ix) b = Part.some (ix.freeFrom fuel b) := by
  induction fuel generalizing b e with
  | zero => exact absurd he (Nat.not_lt_zero e)
  | succ fuel ih =>
    rw [freeFrom]
    split
    · rename_i hlive
      have hround : freeRound ix b = .inr (ix.next b) := if_pos hlive
      rw [loop_of_inr hround]
      -- at the empty bucket the search would have ended
      cases e with
      | zero =>
        rw [along_zero ix hb, Node.isEmpty_of_isLive hlive] at hempty
        exact Bool.noConfusion hempty
      | succ e =>
        rw [← along_next] at hempty
        exact ih (ix.next_lt b (by omega)) (by omega) hempty
    · rename_i hdead
      exact loop_of_inl (if_neg hdead)

/-- One bucket of the walk to the place of a new node. -/
def seatRound (ix : Index) : Nat × Nat → (Nat × Nat) ⊕ (Nat × Nat)
  | (b, dist) =>
    if dist ≤ (ix.node b).distance then .inr (ix.next b, dist + 1) else .inl (b, dist)

/-- The search for a seat ends at the latest at an empty bucket. -/
theorem loop_seatRound (ix : Index) {fuel b dist e : Nat} (hb : b < ix.bucketCount) (he : e < fuel)
    (hempty : (ix.node (ix.along b e)).isEmpty) :
    loop (seatRound ix) (b, dist) = Part.some (ix.seatFrom fuel b dist) := by
  induction fuel generalizing b dist e with
  | zero => exact absurd he (Nat.not_lt_zero e)
  | succ fuel ih =>
    rw [seatFrom]
    split
    · rename_i hle
      have hround : seatRound ix (b, dist) = .inr (ix.next b, dist + 1) := if_pos hle
      rw [loop_of_inr hround]
      -- an empty bucket is nobody's seat beyond it, as its distance is negative
      cases e with
      | zero =>
        rw [along_zero ix hb] at hempty
        have := (Node.isEmpty_iff _).mp hempty
        omega
      | succ e =>
        rw [← along_next] at hempty
        exact ih (ix.next_lt b (by omega)) (by omega) hempty
    · rename_i hlow
      exact loop_of_inl (if_neg hlow)

/-- One bucket of the walk of displaced nodes. -/
def displaceRound : Index × Nat × Node × Int → Index ⊕ (Index × Nat × Node × Int)
  | (ix, b, n, dist) =>
    let b := ix.next b
    let dist := dist + 1
    let here := ix.node b
    if dist ≤ here.distance then .inr (ix, b, n, dist)
    else
      let dist := if ix.maxDist < dist then min dist Node.maxDistance else dist
      let ix := { ix with maxDist := max ix.maxDist dist.toNat }.setNode b (n.withDistance dist)
      if here.isEmpty then .inl ix else .inr (ix, b, here, here.distance)

/-- Displaced nodes are seated before the walk comes past an empty bucket. -/
theorem loop_displaceRound {fuel b e : Nat} {n : Node} {dist : Int} (hb : b < ix.bucketCount)
    (hpos : 1 ≤ e) (he : e ≤ fuel) (hlt : e < ix.bucketCount)
    (hempty : (ix.node (ix.along b e)).isEmpty) (hdist : -1 ≤ dist)
    (hnodes : ∀ k, 1 ≤ k → k ≤ e → -1 ≤ (ix.node (ix.along b k)).distance) :
    loop displaceRound (ix, b, n, dist) = Part.some (ix.displace fuel b n dist) := by
  induction fuel generalizing ix b e n dist with
  | zero => omega
  | succ fuel ih =>
    have hnext : ix.next b < ix.bucketCount := ix.next_lt b (by omega)
    have hfirst := hnodes 1 le_rfl hpos
    rw [← next_eq_along] at hfirst
    obtain ⟨e, rfl⟩ := Nat.exists_eq_add_of_le' hpos
    rw [← along_next] at hempty
    rw [displace]
    dsimp only
    split
    · rename_i hle
      have hround : displaceRound (ix, b, n, dist) = .inr (ix, ix.next b, n, dist + 1) :=
        if_pos hle
      have hfull := Node.isEmpty_of_nonneg (show 0 ≤ (ix.node (ix.next b)).distance by omega)
      have he' : 1 ≤ e := ix.one_le_of_isEmpty_along hnext hfull hempty
      rw [loop_of_inr hround]
      refine ih hnext he' (by omega) (by omega) hempty (by omega) fun k hk hke => ?_
      rw [along_next]
      exact hnodes (k + 1) (by omega) (by omega)
    · rename_i hlow
      set d : Int := if ix.maxDist < dist + 1 then min (dist + 1) Node.maxDistance else dist + 1
      set ix' : Index := setNode { ix with maxDist := max ix.maxDist d.toNat } (ix.next b)
        (n.withDistance d)
      split
      · rename_i hhere
        exact loop_of_inl ((if_neg hlow).trans (if_pos hhere))
      · rename_i hhere
        have hround : displaceRound (ix, b, n, dist) =
            .inr (ix', ix.next b, ix.node (ix.next b), (ix.node (ix.next b)).distance) :=
          (if_neg hlow).trans (if_neg hhere)
        have hcount : ix'.bucketCount = ix.bucketCount := bucketCount_setNode _ _ _
        -- the buckets ahead are not the one that was filled
        have hahead (k : Nat) (hk : 1 ≤ k) (hke : k ≤ e) :
            ix'.node (ix'.along (ix.next b) k) = ix.node (ix.along (ix.next b) k) := by
          rw [along_congr hcount]
          exact node_setNode_of_ne (ix.along_ne hnext hk (by omega)).symm _
        have hfull : (ix.node (ix.next b)).isEmpty = false := Bool.eq_false_iff.mpr hhere
        have he' : 1 ≤ e := ix.one_le_of_isEmpty_along hnext hfull hempty
        rw [loop_of_inr hround]
        refine ih (by rwa [hcount]) he' (by omega) (by omega) ?_ hfirst fun k hk hke => ?_
        · rwa [hahead e he' le_rfl]
        · rw [hahead k hk hke, along_next]
          exact hnodes (k + 1) (by omega) (by omega)

/-- A displaced node finds its place if some bucket beyond its own is empty. -/
theorem displace_eq {b x : Nat} (hb : b < ix.bucketCount) (hx : x < ix.bucketCount) (hbx : b ≠ x)
    (hempty : (ix.node x).isEmpty) (hnodes : ∀ c, b ≠ c → -1 ≤ (ix.node c).distance) {n : Node}
    {dist : Int} (hdist : -1 ≤ dist) :
    loop displaceRound (ix, b, n, dist) = Part.some (ix.displace ix.bucketCount b n dist) := by
  obtain ⟨e, he, rfl⟩ := ix.exists_along hb hx
  have hpos : 1 ≤ e := by
    apply Nat.one_le_iff_ne_zero.mpr
    rintro rfl
    exact hbx (along_zero ix hb).symm
  exact loop_displaceRound hb hpos (le_of_lt he) he hempty hdist fun k hk hke =>
    hnodes _ (ix.along_ne hb hk (by omega)).symm

/-- Adds a node in distance order. -/
noncomputable def insertOrdered (ix : Index) (hash : UInt64) (pos : Nat) : Part Index := do
  let (b, dist) ← loop (seatRound ix) (ix.home hash, 0)
  let dist := min dist Node.maxDistance
  let here := ix.node b
  let ix := { ix with maxDist := max ix.maxDist dist }.setNode b
    (.make (Node.tiny hash) dist pos)
  if here.isEmpty then return ix else loop displaceRound (ix, b, here, here.distance)

/-- Adds a node for a position that no node holds. -/
noncomputable def insertNode (ix : Index) (hash : UInt64) (pos : Nat) : Part Index :=
  let ix := { ix with size := ix.size + 1 }
  if ix.isLinear then insertLinear ix hash pos else insertOrdered ix hash pos

/-- A seat is one of the buckets. -/
theorem seatFrom_lt (ix : Index) (fuel : Nat) {b : Nat} (dist : Nat) (hb : b < ix.bucketCount) :
    (ix.seatFrom fuel b dist).1 < ix.bucketCount := by
  induction fuel generalizing b dist with
  | zero => exact hb
  | succ fuel ih =>
    rw [seatFrom]
    split
    · exact ih _ (ix.next_lt b (by omega))
    · exact hb

section Empty

variable (hempty : ∃ b < ix.bucketCount, (ix.node b).isEmpty)
  (hnodes : ∀ b, -1 ≤ (ix.node b).distance) (hash : UInt64) (pos : Nat)

include hempty

/-- A position is inserted under linear probing by loops that end. -/
theorem insertLinear_eq : insertLinear ix hash pos = Part.some (ix.insertLinear hash pos) := by
  obtain ⟨b, hb, hempty⟩ := hempty
  have hhome := ix.home_lt hash (by omega)
  obtain ⟨e, he, rfl⟩ := ix.exists_along hhome hb
  rw [insertLinear, loop_freeRound ix hhome he hempty, some_bind]
  rfl

include hnodes

/-- A position is inserted in the order of distances by loops that end. -/
theorem insertOrdered_eq : insertOrdered ix hash pos = Part.some (ix.insertOrdered hash pos) := by
  obtain ⟨x, hx, hempty⟩ := hempty
  have hhome := ix.home_lt hash (by omega)
  obtain ⟨e, he, rfl⟩ := ix.exists_along hhome hx
  rw [insertOrdered, loop_seatRound ix hhome he hempty, some_bind,
    Index.insertOrdered]
  have hseat := seatFrom_lt ix ix.bucketCount 0 hhome
  generalize ix.seatFrom ix.bucketCount (ix.home hash) 0 = seat at hseat
  obtain ⟨b, dist⟩ := seat
  dsimp only
  split
  · rfl
  · rename_i hfull
    have hne : b ≠ ix.along (ix.home hash) e := by
      rintro rfl
      exact hfull hempty
    -- the bucket that ends the displacement is still empty after the node was seated
    refine displace_eq ?_ ?_ hne ?_ (fun c hc => ?_) (hnodes b)
    · rw [bucketCount_setNode]
      exact hseat
    · rw [bucketCount_setNode]
      exact hx
    · rwa [node_setNode_of_ne hne]
    · rw [node_setNode_of_ne hc]
      exact hnodes c

/-- A position is inserted by loops that end. -/
theorem insertNode_eq : insertNode ix hash pos = Part.some (ix.insertNode hash pos) := by
  rw [insertNode, Index.insertNode]
  -- the node is counted before it is placed
  let counted := { ix with size := ix.size + 1 }
  have hempty' : ∃ b < counted.bucketCount, (counted.node b).isEmpty := hempty
  have hnodes' : ∀ b, -1 ≤ (counted.node b).distance := hnodes
  split
  · exact insertLinear_eq hempty' hash pos
  · exact insertOrdered_eq hempty' hnodes' hash pos

end Empty

/-- A node is added to an index that satisfies its invariant. -/
theorem insertNode_of_sound (h : ix.Sound P) (hash : UInt64) (pos : Nat) :
    insertNode ix hash pos = Part.some (ix.insertNode hash pos) :=
  insertNode_eq h.exists_isEmpty h.holds.neg_one_le_distance hash pos

/-! ### Removing a node -/

/-- One bucket of the walk that moves nodes back. -/
def backRound : Index × Nat → Index ⊕ (Index × Nat)
  | (ix, b) =>
    let c := ix.next b
    let n := ix.node c
    if 0 < n.distance then .inr (ix.setNode b (n.withDistance (n.distance - 1)), c)
    else .inl (ix.setNode b .empty)

/-- Removes the node in bucket `b`. -/
noncomputable def eraseNode (ix : Index) (b : Nat) : Part Index :=
  let ix := { ix with size := ix.size - 1 }
  if ix.isLinear then
    return { ix with tombstones := ix.tombstones + 1 }.setNode b .tombstone
  else loop backRound (ix, b)

/-- Nodes move back up to an empty bucket at the most. -/
theorem loop_backRound {fuel b e : Nat} (hb : b < ix.bucketCount) (hpos : 1 ≤ e) (he : e ≤ fuel)
    (hlt : e < ix.bucketCount) (hempty : (ix.node (ix.along b e)).isEmpty) :
    loop backRound (ix, b) = Part.some (ix.shiftBack fuel b) := by
  induction fuel generalizing ix b e with
  | zero => omega
  | succ fuel ih =>
    have hnext : ix.next b < ix.bucketCount := ix.next_lt b (by omega)
    have hne := ix.along_ne hb hpos hlt
    obtain ⟨e, rfl⟩ := Nat.exists_eq_add_of_le' hpos
    rw [shiftBack]
    split
    · rename_i haway
      set ix' : Index := ix.setNode b
        ((ix.node (ix.next b)).withDistance ((ix.node (ix.next b)).distance - 1))
      have hround : backRound (ix, b) = .inr (ix', ix.next b) := if_pos haway
      have hcount : ix'.bucketCount = ix.bucketCount := bucketCount_setNode _ _ _
      have hfull := Node.isEmpty_of_nonneg (show 0 ≤ (ix.node (ix.next b)).distance by omega)
      -- a node that moves back is not empty, so the hole cannot be at the next bucket yet
      have he' : 1 ≤ e := by
        rw [← along_next] at hempty
        exact ix.one_le_of_isEmpty_along hnext hfull hempty
      rw [loop_of_inr hround]
      refine ih (by rwa [hcount]) he' (by omega) (by omega) ?_
      rw [along_congr hcount, along_next, node_setNode_of_ne hne.symm]
      exact hempty
    · rename_i hhome
      exact loop_of_inl (if_neg hhome)

/-- A live node is removed from an index that satisfies its invariant. -/
theorem eraseNode_of_sound (h : ix.Sound P) {b : Nat} (hb : (ix.node b).isLive) :
    eraseNode ix b = Part.some (ix.eraseNode b) := by
  rw [eraseNode, Index.eraseNode]
  split
  · rfl
  · have hlt : b < ix.bucketCount := lt_of_isLive hb
    obtain ⟨x, hx, hempty⟩ := h.exists_isEmpty
    obtain ⟨e, he, rfl⟩ := ix.exists_along hlt hx
    have hpos : 1 ≤ e := ix.one_le_of_isEmpty_along hlt (Node.isEmpty_of_isLive hb) hempty
    exact loop_backRound hlt hpos (le_of_lt he) he hempty

end Unbounded

end Index

end OrderedHash
