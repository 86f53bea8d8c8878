import OrderedHash.Index.Basic
import OrderedHash.Proofs.Index.Fields
import Mathlib.Logic.Function.Basic
import Mathlib.Tactic.ByContra

namespace OrderedHash

namespace Index

open Function (update)

/-!
# What a slot index stores

The contents of an index are a partial function from positions to hash values.
`Holds ix P` says that the live nodes of `ix` stand for the positions on which `P` is
defined, one for each, with the tiny hashes of their hash values; it says nothing yet of
where in the ring the nodes lie.

Every operation on an index is a sequence of changes of one bucket. The three kinds of
change are `Holds.put` (a node into a bucket without a live one), `Holds.drop` (a live
node out of its bucket) and `Holds.relocate` (a live node into another bucket). What they
do to the numbers of live nodes and of tombstones is computed by `count_setNode`.
-/

variable {ix : Index} {P : Nat → Option UInt64}

/-- The index stands for the positions on which `P` is defined, with their hash values. -/
structure Holds (ix : Index) (P : Nat → Option UInt64) : Prop where
  /-- A bucket without a live node is empty or a tombstone. -/
  dead : ∀ b, (ix.node b).isLive = false → ix.node b = .empty ∨ ix.node b = .tombstone
  /-- The distance of a live node is none of the two codes. -/
  range : ∀ b, (ix.node b).isLive →
    0 ≤ (ix.node b).distance ∧ (ix.node b).distance ≤ Node.maxDistance
  /-- A live node has the tiny hash of the position that it holds. -/
  stored : ∀ b, (ix.node b).isLive →
    ∃ h, P (ix.node b).pos = some h ∧ (ix.node b).tinyHash = Node.tiny h
  /-- Every position is held by a live node. -/
  held : ∀ p h, P p = some h → ∃ b, (ix.node b).isLive ∧ (ix.node b).pos = p
  /-- No two live nodes hold the same position. -/
  once : ∀ b c, (ix.node b).isLive → (ix.node c).isLive → (ix.node b).pos = (ix.node c).pos → b = c
  /-- No position is the one of empty buckets and tombstones. -/
  below : ∀ p h, P p = some h → p < Node.noPosition

/-! ### One bucket at a time -/

/-- Beyond the last bucket every node reads as empty. -/
theorem node_of_le {b : Nat} (h : ix.bucketCount ≤ b) : ix.node b = .empty := by
  rw [node, Array.getD_eq_getD_getElem?, Array.getElem?_eq_none h]
  rfl

/-- Within the buckets a node is an element of their array. -/
theorem node_eq_getElem {b : Nat} (h : b < ix.buckets.size) : ix.node b = ix.buckets[b] := by
  rw [node, Array.getD_eq_getD_getElem?, Array.getElem?_eq_getElem h]
  rfl

theorem lt_of_isLive {b : Nat} (h : (ix.node b).isLive) : b < ix.bucketCount := by
  by_contra hb
  rw [node_of_le (Nat.le_of_not_lt hb), Node.isLive_empty] at h
  exact Bool.noConfusion h

theorem node_setNode_self {b : Nat} (hb : b < ix.bucketCount) (n : Node) :
    (ix.setNode b n).node b = n := by
  rw [node_setNode, if_pos ⟨rfl, hb⟩]

theorem node_setNode_of_ne {b c : Nat} (h : b ≠ c) (n : Node) :
    (ix.setNode b n).node c = ix.node c := by
  rw [node_setNode, if_neg (fun hc => h hc.1)]

/-- Of two nodes put into one bucket the second stays. -/
theorem setNode_setNode (b : Nat) (m n : Node) :
    (ix.setNode b m).setNode b n = ix.setNode b n := by
  simp [setNode]

/-- Nodes can be put into two buckets in either order. -/
theorem setNode_comm {b c : Nat} (h : b ≠ c) (m n : Node) :
    (ix.setNode b m).setNode c n = (ix.setNode c n).setNode b m := by
  simp only [setNode, Array.setIfInBounds_comm m n h]

/-! ### Numbers of nodes -/

/-- The number of buckets whose nodes pass a test. -/
def count (ix : Index) (test : Node → Bool) : Nat := ix.buckets.countP test

/-- A change of one bucket changes a number of nodes by what leaves and what comes. -/
theorem count_setNode (ix : Index) (test : Node → Bool) {b : Nat} (hb : b < ix.bucketCount)
    (n : Node) :
    (ix.setNode b n).count test + (if test (ix.node b) then 1 else 0)
      = ix.count test + (if test n then 1 else 0) := by
  have hlt : b < ix.buckets.size := hb
  have hle : (if test ix.buckets[b] then 1 else 0) ≤ ix.buckets.countP test :=
    Array.boole_getElem_le_countP hlt
  have hset : (ix.setNode b n).buckets = ix.buckets.set b n hb := by
    rw [setNode, Array.setIfInBounds]
    exact dif_pos hb
  rw [count, count, hset, Array.countP_set hb, node_eq_getElem hb]
  omega

/-- A node that counts takes the place of one that does not. -/
theorem count_setNode_add (ix : Index) (test : Node → Bool) {b : Nat} (hb : b < ix.bucketCount)
    {n : Node} (hold : test (ix.node b) = false) (hnew : test n = true) :
    (ix.setNode b n).count test = ix.count test + 1 := by
  simpa [hold, hnew] using ix.count_setNode test hb n

/-- A node that does not count takes the place of one that does. -/
theorem count_setNode_sub (ix : Index) (test : Node → Bool) {b : Nat} (hb : b < ix.bucketCount)
    {n : Node} (hold : test (ix.node b) = true) (hnew : test n = false) :
    (ix.setNode b n).count test + 1 = ix.count test := by
  simpa [hold, hnew] using ix.count_setNode test hb n

/-- A change to a node that counts as the one before. -/
theorem count_setNode_same (ix : Index) (test : Node → Bool) {b : Nat} (hb : b < ix.bucketCount)
    {n : Node} (h : test n = test (ix.node b)) : (ix.setNode b n).count test = ix.count test := by
  have hcount := ix.count_setNode test hb n
  rw [h] at hcount
  exact Nat.add_right_cancel hcount

theorem count_eq_range (ix : Index) (test : Node → Bool) :
    ix.count test = (List.range ix.bucketCount).countP fun b => test (ix.node b) := by
  have hnodes : ix.buckets.toList = (List.range ix.bucketCount).map ix.node := by
    apply List.ext_getElem
    · simp [bucketCount]
    · intro b hb hb'
      have hlt : b < ix.bucketCount := hb
      rw [List.getElem_map, List.getElem_range, node_eq_getElem hlt]
      rfl
  rw [count, ← Array.countP_toList, hnodes, List.countP_map]
  rfl

/-- A test that one node passes is passed in one bucket only. -/
theorem exists_of_count_eq_one {test : Node → Bool} (h : ix.count test = 1) :
    ∃ b, test (ix.node b) ∧ ∀ c < ix.bucketCount, test (ix.node c) → c = b := by
  rw [count_eq_range, List.countP_eq_length_filter, List.length_eq_one_iff] at h
  obtain ⟨b, hb⟩ := h
  have hmem : ∀ c, c ∈ (List.range ix.bucketCount).filter (fun b => test (ix.node b)) ↔ c = b := by
    intro c
    rw [hb, List.mem_singleton]
  simp only [List.mem_filter, List.mem_range] at hmem
  exact ⟨b, ((hmem b).mpr rfl).2, fun c hc htest => (hmem c).mp ⟨hc, htest⟩⟩

/-- Every node is live, a tombstone or empty. -/
theorem count_partition (ix : Index) :
    ix.count Node.isLive + ix.count Node.isTombstone + ix.count Node.isEmpty
      = ix.bucketCount := by
  have split (ns : List Node) :
      ns.countP Node.isLive + ns.countP Node.isTombstone + ns.countP Node.isEmpty = ns.length := by
    induction ns with
    | nil => rfl
    | cons n rest ih =>
      -- a node is of exactly one of the three kinds
      have hone : (if n.isLive then 1 else 0) + (if n.isTombstone then 1 else 0)
          + (if n.isEmpty then 1 else 0) = 1 := by
        by_cases he : n.isEmpty
        · have ht : n.isTombstone = false := by
            have hd := (Node.isEmpty_iff n).mp he
            by_contra ht
            have hd' := (Node.isTombstone_iff n).mp (by simpa using ht)
            omega
          simp [Node.isLive, he, ht]
        · by_cases ht : n.isTombstone <;> simp [Node.isLive, he, ht]
      simp only [List.countP_cons, List.length_cons]
      omega
  have h := split ix.buckets.toList
  simpa [count, bucketCount] using h

/-- An index with fewer live nodes and tombstones than buckets has an empty bucket. -/
theorem exists_isEmpty (h : ix.count Node.isLive + ix.count Node.isTombstone < ix.bucketCount) :
    ∃ b < ix.bucketCount, (ix.node b).isEmpty := by
  have hpos : 0 < ix.buckets.countP Node.isEmpty := by
    have hsum := count_partition ix
    change 0 < ix.count Node.isEmpty
    omega
  obtain ⟨n, hmem, hn⟩ := Array.countP_pos_iff.mp hpos
  obtain ⟨b, hb, rfl⟩ := Array.getElem_of_mem hmem
  refine ⟨b, hb, ?_⟩
  rwa [node_eq_getElem hb]

/-! ### Changes of the contents -/

namespace Holds

/-- A position that is not stored is not held by a live node. -/
theorem pos_ne (h : ix.Holds P) {b p : Nat} (hb : (ix.node b).isLive) (hp : P p = none) :
    (ix.node b).pos ≠ p := by
  rintro rfl
  obtain ⟨hash, hs, -⟩ := h.stored b hb
  rw [hp] at hs
  cases hs

/-- No distance is below the code of an empty bucket. -/
theorem neg_one_le_distance (h : ix.Holds P) (b : Nat) : -1 ≤ (ix.node b).distance := by
  by_cases hb : (ix.node b).isLive
  · have := (h.range b hb).1
    omega
  · rcases h.dead b (by simpa using hb) with heq | heq <;> simp [heq]

/-- A new node goes into a bucket without a live one. -/
theorem put (h : ix.Holds P) {b : Nat} (hb : b < ix.bucketCount)
    (hdead : (ix.node b).isLive = false) {n : Node} (hn : n.isLive)
    (hrange : 0 ≤ n.distance ∧ n.distance ≤ Node.maxDistance) (hnew : P n.pos = none)
    {hash : UInt64} (htiny : n.tinyHash = Node.tiny hash) (hpos : n.pos < Node.noPosition) :
    (ix.setNode b n).Holds (update P n.pos (some hash)) where
  dead c hc := by
    by_cases hbc : b = c
    · subst hbc
      rw [node_setNode_self hb, hn] at hc
      exact Bool.noConfusion hc
    · rw [node_setNode_of_ne hbc] at hc ⊢
      exact h.dead c hc
  range c hc := by
    by_cases hbc : b = c
    · subst hbc
      rw [node_setNode_self hb]
      exact hrange
    · rw [node_setNode_of_ne hbc] at hc ⊢
      exact h.range c hc
  stored c hc := by
    by_cases hbc : b = c
    · subst hbc
      rw [node_setNode_self hb]
      exact ⟨hash, Function.update_self .., htiny⟩
    · rw [node_setNode_of_ne hbc] at hc ⊢
      rw [Function.update_of_ne (h.pos_ne hc hnew)]
      exact h.stored c hc
  held p k hp := by
    by_cases hpn : p = n.pos
    · exact ⟨b, by rwa [node_setNode_self hb], by rw [node_setNode_self hb, hpn]⟩
    · rw [Function.update_of_ne hpn] at hp
      obtain ⟨c, hc, hcp⟩ := h.held p k hp
      -- the bucket held no live node before
      have hbc : b ≠ c := by
        rintro rfl
        rw [hdead] at hc
        exact Bool.noConfusion hc
      exact ⟨c, by rwa [node_setNode_of_ne hbc], by rwa [node_setNode_of_ne hbc]⟩
  once c d hc hd hcd := by
    -- the position is new, so no other bucket holds it
    by_cases hbc : b = c <;> by_cases hbd : b = d
    · exact hbc.symm.trans hbd
    · subst hbc
      rw [node_setNode_self hb, node_setNode_of_ne hbd] at hcd
      rw [node_setNode_of_ne hbd] at hd
      exact absurd hcd.symm (h.pos_ne hd hnew)
    · subst hbd
      rw [node_setNode_self hb, node_setNode_of_ne hbc] at hcd
      rw [node_setNode_of_ne hbc] at hc
      exact absurd hcd (h.pos_ne hc hnew)
    · rw [node_setNode_of_ne hbc] at hc hcd
      rw [node_setNode_of_ne hbd] at hd hcd
      exact h.once c d hc hd hcd
  below p k hp := by
    by_cases hpn : p = n.pos
    · exact hpn ▸ hpos
    · rw [Function.update_of_ne hpn] at hp
      exact h.below p k hp

/-- A live node leaves its bucket empty or to a tombstone. -/
theorem drop (h : ix.Holds P) {b : Nat} (hb : (ix.node b).isLive) {n : Node}
    (hn : n = .empty ∨ n = .tombstone) :
    (ix.setNode b n).Holds (update P (ix.node b).pos none) := by
  have hlt : b < ix.bucketCount := lt_of_isLive hb
  have hdead : n.isLive = false := by rcases hn with rfl | rfl <;> decide
  -- a live node of the new index is one of the old, in another bucket than `b`
  have hother : ∀ c, ((ix.setNode b n).node c).isLive → b ≠ c := by
    rintro c hc rfl
    rw [node_setNode_self hlt, hdead] at hc
    exact Bool.noConfusion hc
  refine ⟨fun c hc => ?_, fun c hc => ?_, fun c hc => ?_, fun p k hp => ?_,
    fun c d hc hd hcd => ?_, fun p k hp => ?_⟩
  · by_cases hbc : b = c
    · subst hbc
      rw [node_setNode_self hlt]
      exact hn
    · rw [node_setNode_of_ne hbc] at hc ⊢
      exact h.dead c hc
  · have hbc := hother c hc
    rw [node_setNode_of_ne hbc] at hc ⊢
    exact h.range c hc
  · have hbc := hother c hc
    rw [node_setNode_of_ne hbc] at hc ⊢
    have hpos : (ix.node c).pos ≠ (ix.node b).pos := fun heq => hbc (h.once b c hb hc heq.symm)
    rw [Function.update_of_ne hpos]
    exact h.stored c hc
  · by_cases hpb : p = (ix.node b).pos
    · rw [hpb, Function.update_self] at hp
      cases hp
    · rw [Function.update_of_ne hpb] at hp
      obtain ⟨c, hc, hcp⟩ := h.held p k hp
      have hbc : b ≠ c := by
        rintro rfl
        exact hpb hcp.symm
      exact ⟨c, by rwa [node_setNode_of_ne hbc], by rwa [node_setNode_of_ne hbc]⟩
  · have hbc := hother c hc
    have hbd := hother d hd
    rw [node_setNode_of_ne hbc] at hc hcd
    rw [node_setNode_of_ne hbd] at hd hcd
    exact h.once c d hc hd hcd
  · by_cases hpb : p = (ix.node b).pos
    · rw [hpb, Function.update_self] at hp
      cases hp
    · rw [Function.update_of_ne hpb] at hp
      exact h.below p k hp

/-- A live node gives way to another one. -/
theorem replace (h : ix.Holds P) {b : Nat} (hb : (ix.node b).isLive) {n : Node} (hn : n.isLive)
    (hrange : 0 ≤ n.distance ∧ n.distance ≤ Node.maxDistance) (hnew : P n.pos = none)
    {hash : UInt64} (htiny : n.tinyHash = Node.tiny hash) (hpos : n.pos < Node.noPosition) :
    (ix.setNode b n).Holds (update (update P (ix.node b).pos none) n.pos (some hash)) := by
  have hlt : b < ix.bucketCount := lt_of_isLive hb
  have hdrop := h.drop hb (Or.inl rfl)
  have hnew' : update P (ix.node b).pos none n.pos = none := by
    by_cases heq : n.pos = (ix.node b).pos
    · rw [heq, Function.update_self]
    · rw [Function.update_of_ne heq, hnew]
  have hlt' : b < (ix.setNode b .empty).bucketCount := by rwa [bucketCount_setNode]
  have hdead : ((ix.setNode b .empty).node b).isLive = false := by
    rw [node_setNode_self hlt, Node.isLive_empty]
  have hput := hdrop.put hlt' hdead hn hrange hnew' htiny hpos
  rwa [setNode_setNode] at hput

/-- A live node moves to a bucket whose own node counts as gone. -/
theorem relocate {b c : Nat} (h : (ix.setNode b .empty).Holds P) (hb : b < ix.bucketCount)
    (hc : (ix.node c).isLive) (hbc : b ≠ c) {n : Node} (hn : n.isLive)
    (hrange : 0 ≤ n.distance ∧ n.distance ≤ Node.maxDistance)
    (hpos : n.pos = (ix.node c).pos) (htiny : n.tinyHash = (ix.node c).tinyHash) :
    ((ix.setNode b n).setNode c .empty).Holds P := by
  have hnode : (ix.setNode b .empty).node c = ix.node c := node_setNode_of_ne hbc _
  have hc' : ((ix.setNode b .empty).node c).isLive := by rwa [hnode]
  obtain ⟨hash, hstored, htiny'⟩ := h.stored c hc'
  rw [hnode] at hstored htiny'
  -- first the node leaves bucket `c`, then it enters bucket `b`
  have hdrop := h.drop hc' (Or.inl rfl)
  rw [hnode] at hdrop
  have hlt : b < ((ix.setNode b .empty).setNode c .empty).bucketCount := by
    rwa [bucketCount_setNode, bucketCount_setNode]
  have hdead : (((ix.setNode b .empty).setNode c .empty).node b).isLive = false := by
    rw [node_setNode_of_ne hbc.symm, node_setNode_self hb, Node.isLive_empty]
  have hnew : update P (ix.node c).pos none n.pos = none := by
    rw [hpos, Function.update_self]
  have hbelow : n.pos < Node.noPosition := hpos ▸ h.below _ _ hstored
  have hput := hdrop.put hlt hdead hn hrange hnew (htiny.trans htiny') hbelow
  have hcontents :
      update (update P (ix.node c).pos none) n.pos (some hash) = P := by
    rw [hpos, Function.update_idem, ← hstored, Function.update_eq_self]
  have hindex : ((ix.setNode b .empty).setNode c .empty).setNode b n
      = (ix.setNode b n).setNode c .empty := by
    rw [setNode_comm hbc.symm, setNode_setNode]
  rwa [hcontents, hindex] at hput

end Holds

end Index

end OrderedHash
