import OrderedHash.Proofs.Index.Relabelling
import Mathlib.Data.List.Nodup

namespace OrderedHash

namespace Index

open Function (update)

/-!
# The ways to change positions

A position is found by going once around the ring (`Holds.findNode_eq`), so a single
position is changed with its node (`Holds.renumber_relabels`). A range of positions is
shifted node by node or in one walk over the buckets, with the same result
(`Holds.shiftPositions_relabels`). Where the buckets were found beforehand their nodes are
given new positions one after the other (`assign_relabels`).
-/

variable {ix : Index} {P P' : Nat → Option UInt64} {f : Nat → Nat}

/-! ### Finding the node of a position -/

/-- The search ends at the first bucket with the position, if there is enough fuel to get there. -/
theorem findNodeFrom_eq {p fuel b k : Nat} (hb : b < ix.bucketCount) (hk : k < fuel)
    (hpos : (ix.node (ix.along b k)).pos = p)
    (hfirst : ∀ j < k, (ix.node (ix.along b j)).pos ≠ p) :
    ix.findNodeFrom p fuel b = some (ix.along b k) := by
  induction fuel generalizing b k with
  | zero => exact absurd hk (Nat.not_lt_zero k)
  | succ fuel ih =>
    rw [findNodeFrom]
    -- the node sought is here or ahead
    cases k with
    | zero =>
      rw [along_zero ix hb] at hpos ⊢
      rw [if_pos (by simpa [Node.holds] using hpos)]
    | succ k =>
      have hne := hfirst 0 (Nat.succ_pos k)
      rw [along_zero ix hb] at hne
      rw [if_neg (by simpa [Node.holds] using hne), ← along_next]
      refine ih (ix.next_lt b (by omega)) (by omega) (by rwa [along_next]) fun j hj => ?_
      rw [along_next]
      exact hfirst (j + 1) (by omega)

/-- A live node in bucket `b` holds the position `p`, which is in no other bucket. -/
structure HeldAt (ix : Index) (p b : Nat) : Prop where
  live : (ix.node b).isLive
  pos : (ix.node b).pos = p
  only : ∀ c < ix.bucketCount, (ix.node c).pos = p → c = b

section HeldAt

variable {p b : Nat} (h : ix.HeldAt p b)

include h

/-- A position is held by one of the buckets. -/
theorem HeldAt.lt : b < ix.bucketCount := lt_of_isLive h.live

/-- The bucket of a position is found, from whatever hash value the search starts. -/
theorem HeldAt.findNode_eq (hash : UInt64) : ix.findNode hash p = some b := by
  have hhome : ix.home hash < ix.bucketCount := ix.home_lt hash (Nat.zero_lt_of_lt h.lt)
  have halong := ix.along_gap hhome h.lt
  have hgap := ix.gap_lt (ix.home hash) b (Nat.zero_lt_of_lt h.lt)
  have hfind := findNodeFrom_eq (p := p) hhome hgap (by rw [halong, h.pos]) ?_
  · rw [findNode, hfind, halong]
  · intro j hj heq
    have hsame := h.only _ (ix.along_lt _ _ (Nat.zero_lt_of_lt h.lt)) heq
    have := ix.along_inj (by omega) hgap (hsame.trans halong.symm)
    omega

/-- Only the node that holds a position is given another one. -/
theorem HeldAt.renumber_eq (hash : UInt64) (q : Nat) :
    ix.renumber hash p q = ix.setPosition b q := by
  rw [renumber, h.findNode_eq]

/-- Another position stays where it is held when this one is changed. -/
theorem HeldAt.setPosition_of_ne {q x c : Nat} (hc : ix.HeldAt x c) (hx : x ≠ p)
    (hq : q % 2 ^ 48 ≠ x) : (ix.setPosition b q).HeldAt x c := by
  have hbc : b ≠ c := by
    rintro rfl
    exact hx (hc.pos.symm.trans h.pos)
  have hnode : (ix.setPosition b q).node c = ix.node c := node_setNode_of_ne hbc _
  refine ⟨by rw [hnode]; exact hc.live, by rw [hnode]; exact hc.pos, fun d hd hdx => ?_⟩
  · rw [bucketCount_setPosition] at hd
    by_cases hbd : b = d
    · subst hbd
      rw [Index.setPosition, node_setNode_self hd, Node.pos_withPosition] at hdx
      exact absurd hdx hq
    · rw [Index.setPosition, node_setNode_of_ne hbd] at hdx
      exact hc.only d hd hdx

end HeldAt

/-- There is a bucket for every position that is stored. -/
theorem Holds.heldAt (h : ix.Holds P) {p : Nat} {k : UInt64} (hp : P p = some k) :
    ∃ b, ix.HeldAt p b := by
  obtain ⟨b, hb, rfl⟩ := h.held p k hp
  refine ⟨b, hb, rfl, fun c _ heq => ?_⟩
  by_cases hlive : (ix.node c).isLive
  · exact h.once c b hlive hb heq
  -- only live nodes hold positions in use
  · have hbelow := h.below _ _ hp
    rcases h.dead c (by simpa using hlive) with hn | hn <;> rw [hn] at heq <;> simp at heq <;> omega

/-- The node of a position is found, from whatever hash value the search starts. -/
theorem Holds.findNode_eq (h : ix.Holds P) {p : Nat} {k : UInt64} (hp : P p = some k) :
    ∃ b, (ix.node b).isLive ∧ (ix.node b).pos = p ∧ ∀ hash, ix.findNode hash p = some b := by
  obtain ⟨b, hb⟩ := h.heldAt hp
  exact ⟨b, hb.live, hb.pos, hb.findNode_eq⟩

/-! ### Giving positions to the nodes of given buckets -/

/-- Gives positions to the nodes of buckets, which are listed with these positions. -/
def assign (ix : Index) (changes : List (Nat × Nat)) : Index :=
  changes.foldl (fun ix change => ix.setPosition change.1 change.2) ix

/-- A bucket that is not in the list keeps its node. -/
theorem node_assign_of_notMem (ix : Index) {changes : List (Nat × Nat)} {b : Nat}
    (h : b ∉ changes.map Prod.fst) : (ix.assign changes).node b = ix.node b := by
  induction changes generalizing ix with
  | nil => rfl
  | cons change rest ih =>
    rw [List.map_cons, List.mem_cons, not_or] at h
    have hrest := ih (ix.setPosition change.1 change.2) h.2
    rw [assign, List.foldl_cons]
    exact hrest.trans (node_setNode_of_ne (Ne.symm h.1) _)

/-- A bucket of the list gets the position that it is listed with. -/
theorem node_assign (ix : Index) {changes : List (Nat × Nat)} {b q : Nat}
    (hnodup : (changes.map Prod.fst).Nodup) (hb : b < ix.bucketCount) (h : (b, q) ∈ changes) :
    (ix.assign changes).node b = (ix.node b).withPosition q := by
  induction changes generalizing ix with
  | nil => exact absurd h List.not_mem_nil
  | cons change rest ih =>
    rw [List.map_cons, List.nodup_cons] at hnodup
    rw [assign, List.foldl_cons]
    rcases List.mem_cons.mp h with rfl | h
    · -- the buckets of the list differ, so the rest leaves what the first change wrote
      have hrest := node_assign_of_notMem (ix.setPosition b q) hnodup.1
      exact hrest.trans (node_setNode_self hb _)
    · have hne : change.1 ≠ b := by
        rintro rfl
        exact hnodup.1 (List.mem_map.mpr ⟨_, h, rfl⟩)
      have hrest := ih (ix.setPosition change.1 change.2) hnodup.2 (by simpa using hb) h
      rw [assign] at hrest
      rw [hrest, setPosition, node_setNode_of_ne hne]

/-- Apart from nodes an assignment changes nothing. -/
theorem assign_eq (ix : Index) (changes : List (Nat × Nat)) :
    ∃ buckets, buckets.size = ix.buckets.size ∧
      ix.assign changes = { ix with buckets } := by
  induction changes generalizing ix with
  | nil => exact ⟨ix.buckets, rfl, rfl⟩
  | cons change rest ih =>
    obtain ⟨buckets, hsize, heq⟩ := ih (ix.setPosition change.1 change.2)
    refine ⟨buckets, ?_, ?_⟩
    · rw [hsize]
      exact Array.size_setIfInBounds
    · rw [assign, List.foldl_cons]
      exact heq

/-- An assignment to live nodes relabels them. -/
theorem assign_relabels {changes : List (Nat × Nat)} (hnodup : (changes.map Prod.fst).Nodup)
    (hlive : ∀ b q, (b, q) ∈ changes → (ix.node b).isLive ∧ f (ix.node b).pos = q)
    (hother : ∀ b, (ix.node b).isLive → b ∉ changes.map Prod.fst →
      f (ix.node b).pos = (ix.node b).pos) : Relabels f ix (ix.assign changes) := by
  obtain ⟨buckets, hsize, heq⟩ := ix.assign_eq changes
  refine ⟨fun b hb => ?_, fun b hb => ?_, ?_, ?_, ?_, ?_, ?_⟩
  · by_cases hmem : b ∈ changes.map Prod.fst
    · obtain ⟨⟨c, q⟩, hchange, rfl⟩ := List.mem_map.mp hmem
      rw [ix.node_assign hnodup (lt_of_isLive hb) hchange, (hlive c q hchange).2]
    · rw [ix.node_assign_of_notMem hmem, hother b hb hmem, Node.withPosition_pos]
  · apply node_assign_of_notMem
    intro hmem
    obtain ⟨⟨c, q⟩, hchange, rfl⟩ := List.mem_map.mp hmem
    rw [(hlive c q hchange).1] at hb
    exact Bool.noConfusion hb
  all_goals rw [heq]
  exact hsize

/-- The position of one node is changed after others were. -/
theorem Relabels.setPosition {ix' : Index} (r : Relabels f ix ix') (h : ix.Holds P) {b : Nat}
    (hb : (ix.node b).isLive) (q : Nat) :
    Relabels (fun x => if x = (ix.node b).pos then q else f x) ix (ix'.setPosition b q) where
  live c hc := by
    -- no other live node holds the position of this one
    by_cases hbc : b = c
    · subst hbc
      have hlt : b < ix'.bucketCount := r.bucketCount ▸ lt_of_isLive hb
      rw [Index.setPosition, node_setNode_self hlt, r.live b hb, Node.withPosition_withPosition,
        if_pos rfl]
    · rw [Index.setPosition, node_setNode_of_ne hbc, r.live c hc,
        if_neg fun heq => hbc (h.once b c hb hc heq.symm)]
  dead c hc := by
    have hbc : b ≠ c := by
      rintro rfl
      rw [hb] at hc
      exact Bool.noConfusion hc
    rw [Index.setPosition, node_setNode_of_ne hbc, r.dead c hc]
  bucketCount := (bucketCount_setPosition ix' b q).trans r.bucketCount
  size := r.size
  tombstones := r.tombstones
  maxDist := r.maxDist
  loadFactor := r.loadFactor

/-- A position is changed to another one. -/
theorem Holds.renumber_relabels (h : ix.Holds P) {p : Nat} {k : UInt64} (hp : P p = some k)
    (hash : UInt64) (q : Nat) :
    Relabels (fun x => if x = p then q else x) ix (ix.renumber hash p q) := by
  obtain ⟨b, hb, rfl, hfind⟩ := h.findNode_eq hp
  rw [renumber, hfind]
  exact (Relabels.refl ix).setPosition h hb q

/-- What is stored after one position has been changed to one that is not in use. -/
theorem Holds.renames_single (h : ix.Holds P) {p q : Nat} {k : UInt64} (hp : P p = some k)
    (hq : P q = none) (hbelow : q < Node.noPosition) :
    Renames (fun x => if x = p then q else x) P (update (update P p none) q (some k)) := by
  have hne : p ≠ q := by
    rintro rfl
    rw [hp] at hq
    cases hq
  -- the new position was not in use
  have hused : ∀ x h, P x = some h → x ≠ q := by
    rintro x h hx rfl
    rw [hx] at hq
    cases hq
  refine ⟨fun x hash hx => ?_, fun y hash hy => ?_, fun x y hash hash' hx hy hxy => ?_,
    fun x hash hx => ?_⟩
  · by_cases hxp : x = p
    · subst hxp
      rw [if_pos rfl, Function.update_self, ← hp, hx]
    · rw [if_neg hxp, Function.update_of_ne (hused x hash hx), Function.update_of_ne hxp, hx]
  · by_cases hyq : y = q
    · subst hyq
      rw [Function.update_self] at hy
      exact ⟨p, hp.trans hy, if_pos rfl⟩
    · rw [Function.update_of_ne hyq] at hy
      by_cases hyp : y = p
      · subst hyp
        rw [Function.update_self] at hy
        cases hy
      · rw [Function.update_of_ne hyp] at hy
        exact ⟨y, hy, if_neg hyp⟩
  · by_cases hxp : x = p <;> by_cases hyp : y = p
    · rw [hxp, hyp]
    · rw [if_pos hxp, if_neg hyp] at hxy
      exact absurd hxy.symm (hused y hash' hy)
    · rw [if_neg hxp, if_pos hyp] at hxy
      exact absurd hxy (hused x hash hx)
    · rwa [if_neg hxp, if_neg hyp] at hxy
  · split
    · exact hbelow
    · exact h.below x hash hx

/-! ### Shifting a range of positions -/

/-- Only live nodes get other positions. -/
theorem node_mapPositions (ix : Index) (f : Nat → Nat) (b : Nat) :
    (ix.mapPositions f).node b =
      if (ix.node b).isLive then (ix.node b).withPosition (f (ix.node b).pos) else ix.node b := by
  by_cases hb : b < ix.bucketCount
  · have hb' : b < (ix.mapPositions f).bucketCount := by rwa [bucketCount_mapPositions]
    rw [node_eq_getElem hb, node_eq_getElem hb']
    exact Array.getElem_map ..
  · have hb' : (ix.mapPositions f).bucketCount ≤ b := by
      rw [bucketCount_mapPositions]
      exact not_lt.mp hb
    rw [node_of_le (not_lt.mp hb), node_of_le hb']
    rfl

/-- Indexes with the same nodes in the same buckets have the same buckets. -/
theorem buckets_ext {ix ix' : Index} (hcount : ix'.bucketCount = ix.bucketCount)
    (hnode : ∀ b < ix.bucketCount, ix'.node b = ix.node b) : ix'.buckets = ix.buckets := by
  refine Array.ext hcount fun b hb' hb => ?_
  rw [← node_eq_getElem hb', ← node_eq_getElem hb]
  exact hnode b hb

/-- A walk over all buckets relabels the nodes. -/
theorem mapPositions_relabels (ix : Index) (f : Nat → Nat) : Relabels f ix (ix.mapPositions f) where
  live b hb := by rw [node_mapPositions, if_pos hb]
  dead b hb := by rw [node_mapPositions, if_neg (Bool.eq_false_iff.mp hb)]
  bucketCount := bucketCount_mapPositions ix f
  size := rfl
  tombstones := rfl
  maxDist := rfl
  loadFactor := rfl

/-- Positions of `P` can be changed by `f` one by one in the order of a list, since each is
    changed to one that is free when its turn comes. -/
structure Turns (P : Nat → Option UInt64) (f : Nat → Nat) (ps : List Nat) : Prop where
  stored : ∀ p ∈ ps, P p ≠ none
  nodup : ps.Nodup
  inj : ∀ p ∈ ps, ∀ q ∈ ps, f p = f q → p = q
  ne : ∀ p ∈ ps, f p ≠ p
  free : ∀ p ∈ ps, P (f p) = none ∨ f p ∈ ps
  order : ps.Pairwise fun p q => f p ≠ q
  below : ∀ p ∈ ps, f p < Node.noPosition

/-- Positions can be changed by `f` one by one in the order of a list: each of them is held in
    one bucket, and none is changed to one whose turn comes later. -/
structure Queued (ix : Index) (f : Nat → Nat) (ps : List Nat) : Prop where
  held : ∀ p ∈ ps, ∃ b, ix.HeldAt p b
  nodup : ps.Nodup
  order : ps.Pairwise fun p q => f p ≠ q
  fits : ∀ p ∈ ps, f p < 2 ^ 48

/-- Positions that are stored can be changed one by one. -/
theorem Turns.queued {ps : List Nat} (t : Turns P f ps) (h : ix.Holds P) : Queued ix f ps where
  held p hp := by
    obtain ⟨k, hk⟩ := Option.ne_none_iff_exists'.mp (t.stored p hp)
    exact h.heldAt hk
  nodup := t.nodup
  order := t.order
  fits p hp := lt_trans (t.below p hp) (by decide)

section Queued

variable {p : Nat} {ps : List Nat} (t : Queued ix f (p :: ps))

include t

/-- The position that the first one changes to is none that is still to be changed. -/
theorem Queued.notMem : f p ∉ ps := fun hin => (List.pairwise_cons.mp t.order).1 _ hin rfl

/-- There is room in a node for the position that the first one changes to. -/
theorem Queued.mod_eq : f p % 2 ^ 48 = f p := Nat.mod_eq_of_lt (t.fits p List.mem_cons_self)

/-- The rest go on once the first one has been changed. -/
theorem Queued.rest {b : Nat} (h : ix.HeldAt p b) : Queued (ix.setPosition b (f p)) f ps where
  held q hq := by
    obtain ⟨c, hc⟩ := t.held q (List.mem_cons_of_mem p hq)
    refine ⟨c, h.setPosition_of_ne hc ?_ ?_⟩
    · rintro rfl
      exact (List.nodup_cons.mp t.nodup).1 hq
    · rw [t.mod_eq]
      rintro rfl
      exact t.notMem hq
  nodup := (List.nodup_cons.mp t.nodup).2
  order := (List.pairwise_cons.mp t.order).2
  fits q hq := t.fits q (List.mem_cons_of_mem p hq)

end Queued

/-- Positions that are changed one by one are all changed as in one walk over the buckets. -/
theorem Queued.foldl_renumber {ps : List Nat} (t : Queued ix f ps) (hashAt : Nat → UInt64) :
    ps.foldl (fun ix p => ix.renumber (hashAt p) p (f p)) ix =
      ix.mapPositions fun x => if x ∈ ps then f x else x := by
  induction ps generalizing ix with
  | nil =>
    have hbuckets : (ix.mapPositions fun x => if x ∈ [] then f x else x).buckets = ix.buckets :=
      buckets_ext (bucketCount_mapPositions ix _) fun b _ => by
        rw [node_mapPositions, if_neg List.not_mem_nil, Node.withPosition_pos, ite_self]
    exact congrArg (fun buckets => { ix with buckets }) hbuckets.symm
  | cons p rest ih =>
    obtain ⟨b, hb⟩ := t.held p List.mem_cons_self
    rw [List.foldl_cons, hb.renumber_eq, ih (t.rest hb)]
    have hnode : ∀ c < ix.bucketCount,
        ((ix.setPosition b (f p)).mapPositions fun x => if x ∈ rest then f x else x).node c =
          (ix.mapPositions fun x => if x ∈ p :: rest then f x else x).node c := by
      intro c hc
      rw [node_mapPositions, node_mapPositions, setPosition]
      by_cases hbc : b = c
      -- the node of the first position has one that is not changed any more
      · subst hbc
        rw [node_setNode_self hc, Node.isLive_withPosition, Node.pos_withPosition, t.mod_eq,
          if_neg t.notMem, Node.withPosition_withPosition, if_pos hb.live, if_pos hb.live, hb.pos,
          if_pos List.mem_cons_self]
      · rw [node_setNode_of_ne hbc]
        have hne : (ix.node c).pos ≠ p := fun hp => hbc (hb.only c hc hp).symm
        simp only [List.mem_cons, hne, false_or]
    have hcount : ((ix.setPosition b (f p)).mapPositions
        fun x => if x ∈ rest then f x else x).bucketCount =
          (ix.mapPositions fun x => if x ∈ p :: rest then f x else x).bucketCount := by simp
    rw [← bucketCount_mapPositions ix fun x => if x ∈ p :: rest then f x else x] at hnode
    exact congrArg (fun buckets => { ix with buckets }) (buckets_ext hcount hnode)

/-- Positions are changed one by one. -/
theorem Holds.foldl_renumber_relabels (h : ix.Holds P) {ps : List Nat} (t : Turns P f ps)
    (hashAt : Nat → UInt64) : Relabels (fun x => if x ∈ ps then f x else x) ix
      (ps.foldl (fun ix p => ix.renumber (hashAt p) p (f p)) ix) := by
  rw [(t.queued h).foldl_renumber]
  exact ix.mapPositions_relabels _

/-- What a shift does to a position. -/
def shifted (first last : Nat) (offset : Int) (p : Nat) : Nat :=
  if first ≤ p ∧ p < last then moved p offset else p

/-- The positions of a range in the order in which a shift takes them. -/
def inTurn (first last : Nat) (offset : Int) : List Nat :=
  if offset < 0 then List.range' first (last - first)
  else (List.range' first (last - first)).reverse

section Shift

variable {first last : Nat} {offset : Int}

/-- The positions in turn are those of the range. -/
theorem mem_inTurn (p : Nat) : p ∈ inTurn first last offset ↔ first ≤ p ∧ p < last := by
  unfold inTurn
  split <;> simp only [List.mem_reverse, List.mem_range'_1] <;> omega

/-- Every position of the range has its turn once. -/
theorem nodup_inTurn : (inTurn first last offset).Nodup := by
  unfold inTurn
  split
  · exact List.nodup_range'
  · exact List.nodup_reverse.mpr List.nodup_range'

/-- No position is moved to one whose turn comes later. -/
theorem pairwise_inTurn :
    (inTurn first last offset).Pairwise fun p q => moved p offset ≠ q := by
  -- an offset below zero is taken upward, and one above zero downward
  have hlt : (List.range' first (last - first)).Pairwise (· < ·) := List.pairwise_lt_range'
  unfold inTurn
  split
  · refine hlt.imp fun {p q} hpq => ?_
    rw [moved]
    omega
  · rw [List.pairwise_reverse]
    refine hlt.imp fun {p q} hpq => ?_
    rw [moved]
    omega

/-- The positions of a range can be shifted: they are stored, and shifted to positions that
    are free or in the range itself. -/
structure Shiftable (P : Nat → Option UInt64) (first last : Nat) (offset : Int) : Prop where
  stored : ∀ p, first ≤ p → p < last → P p ≠ none
  start : 0 ≤ first + offset
  free : ∀ p, first ≤ p → p < last →
    P (moved p offset) = none ∨ first ≤ moved p offset ∧ moved p offset < last
  below : ∀ p, first ≤ p → p < last → moved p offset < Node.noPosition

/-- The positions of a range are shifted one by one. -/
theorem Shiftable.turns (s : Shiftable P first last offset) (hzero : offset ≠ 0) :
    Turns P (moved · offset) (inTurn first last offset) := by
  have hmem : ∀ p, p ∈ inTurn first last offset ↔ first ≤ p ∧ p < last := mem_inTurn
  have hstart := s.start
  refine ⟨fun p hp => ?_, nodup_inTurn, fun p hp q hq heq => ?_, fun p hp => ?_, fun p hp => ?_,
    pairwise_inTurn, fun p hp => ?_⟩
  · rw [hmem] at hp
    exact s.stored p hp.1 hp.2
  · rw [hmem] at hp hq
    -- the offset is not zero, so no position is changed to itself or to one whose turn comes later
    simp only [moved] at heq
    omega
  · rw [hmem] at hp
    rw [moved]
    omega
  · rw [hmem] at hp ⊢
    exact s.free p hp.1 hp.2
  · rw [hmem] at hp
    exact s.below p hp.1 hp.2

/-- To shift the positions of a range one by one relabels those that are stored. -/
theorem Holds.shiftEach_relabels (h : ix.Holds P) (s : Shiftable P first last offset)
    (hzero : offset ≠ 0) (hashAt : Nat → UInt64) :
    Relabels (shifted first last offset) ix (ix.shiftEach first last offset hashAt) := by
  refine (h.foldl_renumber_relabels (s.turns hzero) hashAt).congr fun b _ => ?_
  rw [shifted]
  simp only [mem_inTurn]

/-- A range of positions is shifted. -/
theorem Holds.shiftPositions_relabels (h : ix.Holds P) (s : Shiftable P first last offset)
    (hashAt : Nat → UInt64) :
    Relabels (shifted first last offset) ix (ix.shiftPositions first last offset hashAt) := by
  rw [shiftPositions]
  -- an empty range and an offset of zero change nothing
  split
  · rename_i hnone
    refine (Relabels.refl ix).congr fun b _ => ?_
    rw [shifted, id]
    split
    · rw [moved]
      omega
    · rfl
  · rename_i hsome
    split
    · exact ix.mapPositions_relabels _
    · exact h.shiftEach_relabels s (fun hzero => hsome (Or.inr hzero)) hashAt

end Shift

end Index

end OrderedHash
