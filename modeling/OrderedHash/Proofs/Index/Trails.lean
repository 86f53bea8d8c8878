import OrderedHash.Proofs.Index.Insertion

namespace OrderedHash

/-!
# The trail of an insertion

An insertion cuts the distances that it computes to the greatest one before it stores them.
`Index.insertTrail` is an insertion that also tells these distances from before they are cut,
and the nodes that it stores. What it applies to great distances is a parameter: with
`Node.cut` it arrives where the insertion does (`Index.index_insertTrail`), and two parameters
that agree on the distances computed give the same trail (`Index.insertTrail_congr`).

A trail is `Exact` if no distance on it is above the greatest one, so that every node is stored
at the distance that was computed for it.
-/

/-- What an insertion does on its way, and the index at which it arrives. -/
structure Trail where
  index : Index
  /-- The distances computed, in order, before they are cut. -/
  computed : List Int
  /-- The nodes stored, in order, with their buckets. -/
  stored : List (Nat × Node)

namespace Trail

/-- The trail on which nothing is left to do. -/
def done (ix : Index) : Trail := ⟨ix, [], []⟩

/-- The trail that begins with distances. -/
def computing (distances : List Int) (t : Trail) : Trail :=
  { t with computed := distances ++ t.computed }

/-- The trail that begins by storing a node. -/
def storing (b : Nat) (n : Node) (t : Trail) : Trail := { t with stored := (b, n) :: t.stored }

/-- The trail on which a node takes bucket `b` of an index at a distance, and what was there is
    carried on from the index so made. -/
def seating (ix : Index) (b : Nat) (n : Node) (dist : Nat) (rest : Index → Trail) : Trail :=
  .storing b n <|
    if (ix.node b).isEmpty then .done (ix.seat b n dist) else rest (ix.seat b n dist)

/-- The trail from `ix` computes no distance above the greatest one. It stores every node once
    and for good, at a distance that is none of the two codes, and leaves the other buckets as
    they were. The index turns linear just if a node is stored at the greatest distance. -/
structure Exact (t : Trail) (ix : Index) : Prop where
  computed_le : ∀ d ∈ t.computed, d ≤ Node.maxDistance
  range : ∀ b n, (b, n) ∈ t.stored → 0 ≤ n.distance ∧ n.distance ≤ Node.maxDistance
  kept : ∀ b n, (b, n) ∈ t.stored → t.index.node b = n
  other : ∀ b, (∀ n, (b, n) ∉ t.stored) → t.index.node b = ix.node b
  isLinear_iff : t.index.isLinear ↔
    ix.isLinear ∨ ∃ b n, (b, n) ∈ t.stored ∧ n.distance = Node.maxDistance

variable {t : Trail} {ix : Index} {b : Nat} {n : Node}

/-- A trail that has arrived is exact. -/
theorem Exact.done (ix : Index) : (Trail.done ix).Exact ix where
  computed_le := nofun
  range := nofun
  kept := nofun
  other _ _ := rfl
  isLinear_iff := by simp [Trail.done]

/-- A trail may compute distances for which there is room. -/
theorem Exact.computing (h : t.Exact ix) {distances : List Int}
    (hle : ∀ d ∈ distances, d ≤ Node.maxDistance) : (t.computing distances).Exact ix where
  computed_le d hd := (List.mem_append.mp hd).elim (hle d) (h.computed_le d)
  range := h.range
  kept := h.kept
  other := h.other
  isLinear_iff := h.isLinear_iff

/-- A node is stored first, and then left where it is. -/
theorem Exact.storing {start : Index} (h : t.Exact start)
    (hn : 0 ≤ n.distance ∧ n.distance ≤ Node.maxDistance) (hkept : t.index.node b = n)
    (hother : ∀ c, b ≠ c → start.node c = ix.node c)
    (hlinear : start.isLinear ↔ ix.isLinear ∨ n.distance = Node.maxDistance) :
    (t.storing b n).Exact ix where
  computed_le := h.computed_le
  range c m hm := by
    -- the node stored now is one of those that the trail passed
    rcases List.mem_cons.mp hm with heq | hm
    · cases heq
      exact hn
    · exact h.range c m hm
  kept c m hm := by
    rcases List.mem_cons.mp hm with heq | hm
    · cases heq
      exact hkept
    · exact h.kept c m hm
  -- a bucket that is not on the trail is not the one stored to
  other c hc := by
    have hbc : b ≠ c := by
      rintro rfl
      exact hc n List.mem_cons_self
    rw [← hother c hbc]
    exact h.other c fun m hm => hc m (List.mem_cons_of_mem _ hm)
  isLinear_iff := by
    rw [show (t.storing b n).index = t.index from rfl, h.isLinear_iff, hlinear, or_assoc]
    simp only [Trail.storing, List.mem_cons, Prod.mk.injEq]
    constructor
    · -- linear probing begins where a node arrives at the greatest distance, here or later
      rintro (hlin | hd | ⟨c, m, hm, hd⟩)
      · exact Or.inl hlin
      · exact Or.inr ⟨b, n, Or.inl ⟨rfl, rfl⟩, hd⟩
      · exact Or.inr ⟨c, m, Or.inr hm, hd⟩
    · rintro (hlin | ⟨c, m, ⟨rfl, rfl⟩ | hm, hd⟩)
      · exact Or.inl hlin
      · exact Or.inr (Or.inl hd)
      · exact Or.inr (Or.inr ⟨c, m, hm, hd⟩)

/-- A node is seated at a distance in range, and what was in its place is carried on. -/
theorem Exact.seating {rest : Index → Trail} (hb : b < ix.bucketCount)
    (hn : 0 ≤ n.distance ∧ n.distance ≤ Node.maxDistance)
    (hrest : (ix.node b).isEmpty = false →
      (rest (ix.seat b n n.distance.toNat)).Exact (ix.seat b n n.distance.toNat) ∧
        (rest (ix.seat b n n.distance.toNat)).index.node b = n) :
    (Trail.seating ix b n n.distance.toNat rest).Exact ix := by
  have hother : ∀ c, b ≠ c → (ix.seat b n n.distance.toNat).node c = ix.node c :=
    fun c hbc => Index.node_seat_of_ne hbc n _
  have hlinear : (ix.seat b n n.distance.toNat).isLinear ↔
      ix.isLinear ∨ n.distance = Node.maxDistance := by
    rw [Index.isLinear_seat]
    exact or_congr_right (by omega)
  rw [Trail.seating]
  split
  · exact (Exact.done _).storing hn (Index.node_seat_self hb n _) hother hlinear
  · rename_i hfull
    obtain ⟨hexact, hkept⟩ := hrest (Bool.eq_false_iff.mpr hfull)
    exact hexact.storing hn hkept hother hlinear

/-- A bucket is the same at the end if neither the seat nor what follows changes it. -/
theorem node_seating {rest : Index → Trail} {dist c : Nat} (hbc : b ≠ c)
    (hrest : (ix.node b).isEmpty = false →
      (rest (ix.seat b n dist)).index.node c = (ix.seat b n dist).node c) :
    (seating ix b n dist rest).index.node c = ix.node c := by
  have hseat : (ix.seat b n dist).node c = ix.node c := Index.node_seat_of_ne hbc n dist
  rw [seating]
  dsimp only [storing]
  split
  · exact hseat
  · rename_i hfull
    exact (hrest (Bool.eq_false_iff.mpr hfull)).trans hseat

/-- What follows a seat matters only where it has to be done, and so far as it is told. -/
theorem seating_congr {rest rest' : Index → Trail} {dist : Nat}
    (hrest : (ix.node b).isEmpty = false →
      rest' (ix.seat b n dist) = rest (ix.seat b n dist)) :
    seating ix b n dist rest' = seating ix b n dist rest := by
  rw [seating, seating]
  split
  · rfl
  · rename_i hfull
    rw [hrest (Bool.eq_false_iff.mpr hfull)]

/-- A trail that goes on computes what the rest of it does. -/
theorem computed_seating {rest : Index → Trail} {dist : Nat} (hfull : (ix.node b).isEmpty = false) :
    (seating ix b n dist rest).computed = (rest (ix.seat b n dist)).computed := by
  rw [seating, hfull]
  rfl

end Trail

/-- A distance cut to the greatest one. -/
def Node.cut (dist : Int) : Int := min dist maxDistance

/-- A distance for which there is room is not cut. -/
theorem Node.cut_of_le {dist : Int} (h : dist ≤ maxDistance) : cut dist = dist := min_eq_left h

namespace Index

variable {ix : Index}

/-! ### Insertions with their trails -/

/-- The distances computed by the search for a seat. -/
def seatDistances (ix : Index) : (fuel b dist : Nat) → List Int
  | 0, _, dist => [(dist : Int)]
  | fuel + 1, b, dist =>
    (dist : Int) ::
      if dist ≤ (ix.node b).distance then seatDistances ix fuel (ix.next b) (dist + 1) else []

/-- Seats a displaced node, and those displaced by it in turn, where `limit` is applied to
    every distance that is the greatest so far. -/
def displaceTrail (limit : Int → Int) (ix : Index) :
    (fuel b : Nat) → (n : Node) → (dist : Int) → Trail
  | 0, _, _, _ => .done ix
  | fuel + 1, b, n, dist =>
    let b := ix.next b
    let dist := dist + 1
    let here := ix.node b
    .computing [dist] <|
      if dist ≤ here.distance then displaceTrail limit ix fuel b n dist
      else
        let kept := if ix.maxDist < dist then limit dist else dist
        .seating ix b (n.withDistance kept) kept.toNat fun seated =>
          displaceTrail limit seated fuel b here here.distance

/-- Adds a node in distance order, where `limit` is applied to great distances. -/
def orderedTrail (limit : Int → Int) (ix : Index) (hash : UInt64) (pos : Nat) : Trail :=
  let (b, dist) := ix.seatFrom ix.bucketCount (ix.home hash) 0
  let here := ix.node b
  let n := Node.make (Node.tiny hash) (limit dist) pos
  .computing (ix.seatDistances ix.bucketCount (ix.home hash) 0) <|
    .seating ix b n (limit dist).toNat fun seated =>
      displaceTrail limit seated seated.bucketCount b here here.distance

/-- Adds a node under linear probing, which computes no distance. -/
def linearTrail (ix : Index) (hash : UInt64) (pos : Nat) : Trail :=
  let b := ix.freeFrom ix.bucketCount (ix.home hash)
  let dist := if b = ix.home hash then 0 else Node.maxDistance
  .storing b (.make (Node.tiny hash) dist pos) (.done (ix.insertLinear hash pos))

/-- Adds a node, where `limit` is applied to great distances. -/
def insertTrail (limit : Int → Int) (ix : Index) (hash : UInt64) (pos : Nat) : Trail :=
  let ix := { ix with size := ix.size + 1 }
  if ix.isLinear then ix.linearTrail hash pos else ix.orderedTrail limit hash pos

/-! ### Where a trail arrives -/

/-- The trail of a displacement arrives at the index that it leads to. -/
theorem index_displaceTrail (ix : Index) (fuel b : Nat) (n : Node) (dist : Int) :
    (displaceTrail Node.cut ix fuel b n dist).index = displace ix fuel b n dist := by
  induction fuel generalizing ix b n dist with
  | zero => rfl
  | succ fuel ih =>
    rw [displaceTrail, displace]
    dsimp only [Trail.computing]
    split
    · exact ih ..
    · dsimp only [Trail.seating, Trail.storing]
      split
      · rfl
      · exact ih ..

/-- The trail of an insertion arrives at the index that it leads to. -/
theorem index_orderedTrail (ix : Index) (hash : UInt64) (pos : Nat) :
    (ix.orderedTrail Node.cut hash pos).index = ix.insertOrdered hash pos := by
  have hcut : ∀ dist : Nat, Node.cut dist = (min dist Node.maxDistance : Nat) := fun dist => by
    rw [Node.cut]
    omega
  rw [orderedTrail, insertOrdered]
  dsimp only [Trail.computing, Trail.seating, Trail.storing]
  rw [hcut, Int.toNat_natCast]
  split
  · rfl
  · exact index_displaceTrail ..

/-- With distances cut a trail arrives where the insertion does. -/
theorem index_insertTrail (ix : Index) (hash : UInt64) (pos : Nat) :
    (ix.insertTrail Node.cut hash pos).index = ix.insertNode hash pos := by
  rw [insertTrail, insertNode]
  split
  · rfl
  · exact index_orderedTrail ..

/-! ### Only the distances computed matter -/

section Limits

variable {limit limit' : Int → Int}

/-- A trail depends only on what becomes of the distances that it computes. -/
theorem displaceTrail_congr {fuel b : Nat} {n : Node} {dist : Int}
    (h : ∀ d ∈ (displaceTrail limit ix fuel b n dist).computed, limit' d = limit d) :
    displaceTrail limit' ix fuel b n dist = displaceTrail limit ix fuel b n dist := by
  induction fuel generalizing ix b n dist with
  | zero => rfl
  | succ fuel ih =>
    rw [displaceTrail] at h ⊢
    rw [displaceTrail]
    dsimp only at h ⊢
    -- the first distance is one of those that are computed, and so are those of the rest
    rw [h _ (List.mem_append_left _ List.mem_cons_self)]
    by_cases hpass : dist + 1 ≤ (ix.node (ix.next b)).distance
    · rw [if_pos hpass] at h
      rw [if_pos hpass, if_pos hpass, ih fun d hd => h d (List.mem_append_right _ hd)]
    · rw [if_neg hpass] at h
      rw [if_neg hpass, if_neg hpass]
      refine congrArg (Trail.computing _) (Trail.seating_congr fun hfull => ih fun d hd => ?_)
      exact h d (List.mem_append_right _ ((Trail.computed_seating hfull).symm ▸ hd))

/-- The distance of a seat is one of those computed on the way. -/
theorem seatFrom_mem_seatDistances (ix : Index) (fuel b dist : Nat) :
    ((ix.seatFrom fuel b dist).2 : Int) ∈ ix.seatDistances fuel b dist := by
  induction fuel generalizing b dist with
  | zero => exact List.mem_cons_self
  | succ fuel ih =>
    rw [seatFrom, seatDistances]
    split
    · exact List.mem_cons_of_mem _ (ih ..)
    · exact List.mem_cons_self

/-- Parameters that agree on the distances computed give the same trail. -/
theorem insertTrail_congr {hash : UInt64} {pos : Nat}
    (h : ∀ d ∈ (ix.insertTrail limit hash pos).computed, limit' d = limit d) :
    ix.insertTrail limit' hash pos = ix.insertTrail limit hash pos := by
  rw [insertTrail] at h ⊢
  rw [insertTrail]
  split
  · rfl
  · rename_i hnot
    rw [if_neg hnot, orderedTrail] at h
    rw [orderedTrail, orderedTrail]
    dsimp only at h ⊢
    rw [h _ (List.mem_append_left _ (seatFrom_mem_seatDistances ..))]
    refine congrArg (Trail.computing _)
      (Trail.seating_congr fun hfull => displaceTrail_congr fun d hd => ?_)
    exact h d (List.mem_append_right _ ((Trail.computed_seating hfull).symm ▸ hd))

end Limits

end Index

end OrderedHash
