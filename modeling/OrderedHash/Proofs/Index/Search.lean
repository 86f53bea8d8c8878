import OrderedHash.Index.Lookup
import OrderedHash.Proofs.Index.Growth

namespace OrderedHash

namespace Index

/-!
# Lookups find what is stored

A lookup visits the buckets of a `path` that starts at the home bucket of its hash value
and does not depend on the test. The answer is the first bucket of the path with the right
tiny hash that passes the test (`findFrom_eq`), and the test is asked only about the
positions of such buckets (`askedFrom_sublist`).

What is found is a live node with the right tiny hash, whatever the nodes hold, if only the
dead ones are the two words for them (`Formed`).

The path is long enough in both modes: it reaches every live node whose hash value is the
one looked for (`Sound.mem_path`). In distance order this is so because the distance at a
bucket before the node is at least the number of steps to it.
-/

variable {ix : Index} {P : Nat → Option UInt64} {tiny : UInt8} {test : Nat → Bool}

/-! ### The buckets that a lookup visits -/

/-- The buckets visited from bucket `b` at distance `dist` on by a lookup that always fails. -/
def path (ix : Index) : (fuel b dist : Nat) → List Nat
  | 0, _, _ => []
  | fuel + 1, b, dist =>
    if (ix.node b).distance < dist then []
    else b :: path ix fuel (ix.next b) (if ix.isLinear then dist else dist + 1)

/-- Whether the node of a bucket has a tiny hash. -/
def hasTiny (ix : Index) (tiny : UInt8) (b : Nat) : Bool := (ix.node b).tinyHash == tiny

theorem findFrom_eq (fuel b dist : Nat) :
    ix.findFrom tiny test fuel b dist =
      (ix.path fuel b dist).find? fun b => ix.hasTiny tiny b && test (ix.node b).pos := by
  induction fuel generalizing b dist with
  | zero => rfl
  | succ fuel ih =>
    rw [findFrom, path]
    split
    · rfl
    · rw [List.find?_cons, hasTiny]
      split
      · rename_i htest
        rw [htest]
      · rename_i htest
        rw [Bool.eq_false_iff.mpr htest]
        exact ih _ _

/-- A lookup asks about positions of its path, each time at another bucket. -/
theorem askedFrom_sublist (fuel b dist : Nat) :
    (ix.askedFrom tiny test fuel b dist).Sublist
      (((ix.path fuel b dist).filter (ix.hasTiny tiny)).map fun b => (ix.node b).pos) := by
  induction fuel generalizing b dist with
  | zero => exact List.Sublist.slnil
  | succ fuel ih =>
    rw [askedFrom, path]
    split
    · exact List.nil_sublist _
    · rw [List.filter_cons, hasTiny]
      -- only nodes with the tiny hash are asked about
      by_cases htiny : (ix.node b).tinyHash == tiny
      · rw [if_pos htiny, if_pos htiny, List.map_cons]
        split
        · exact (List.nil_sublist _).cons_cons _
        · exact (ih _ _).cons_cons _
      · rw [if_neg htiny, if_neg htiny]
        exact ih _ _

/-- The answers that a lookup did not ask for do not matter. -/
theorem findFrom_congr {test' : Nat → Bool} (fuel b dist : Nat)
    (h : ∀ p ∈ ix.askedFrom tiny test fuel b dist, test p = test' p) :
    ix.findFrom tiny test' fuel b dist = ix.findFrom tiny test fuel b dist := by
  induction fuel generalizing b dist with
  | zero => rfl
  | succ fuel ih =>
    rw [askedFrom] at h
    rw [findFrom, findFrom]
    -- the two walks stop at the same bucket, since they ask the same questions on the way
    by_cases hstop : (ix.node b).distance < dist
    · rw [if_pos hstop, if_pos hstop]
    · rw [if_neg hstop] at h
      rw [if_neg hstop, if_neg hstop]
      by_cases htiny : (ix.node b).tinyHash == tiny
      · rw [if_pos htiny] at h
        rw [htiny, Bool.true_and, Bool.true_and]
        by_cases htest : test (ix.node b).pos
        · rw [if_pos htest] at h
          rw [← h _ (List.mem_singleton_self _), if_pos htest, if_pos htest]
        · rw [if_neg htest] at h
          rw [← h _ List.mem_cons_self, if_neg htest, if_neg htest]
          exact ih _ _ fun p hp => h p (List.mem_cons_of_mem _ hp)
      · rw [if_neg htiny] at h
        rw [Bool.eq_false_iff.mpr htiny, Bool.false_and, Bool.false_and]
        exact ih _ _ h

/-- A path is a walk along the ring. -/
theorem path_eq_map {b : Nat} (hb : b < ix.bucketCount) (fuel dist : Nat) :
    ∃ m ≤ fuel, ix.path fuel b dist = (List.range m).map (ix.along b) := by
  induction fuel generalizing b dist with
  | zero => exact ⟨0, le_rfl, rfl⟩
  | succ fuel ih =>
    rw [path]
    split
    · exact ⟨0, Nat.zero_le _, rfl⟩
    · obtain ⟨m, hm, heq⟩ := ih (ix.next_lt b (by omega)) (if ix.isLinear then dist else dist + 1)
      refine ⟨m + 1, Nat.succ_le_succ hm, ?_⟩
      rw [heq, List.range_succ_eq_map, List.map_cons, along_zero ix hb, List.map_map]
      congr 1
      exact List.map_congr_left fun k _ => ix.along_next b k

/-- No bucket is visited twice. -/
theorem nodup_path {b : Nat} (hb : b < ix.bucketCount) {fuel : Nat} (hfuel : fuel ≤ ix.bucketCount)
    (dist : Nat) : (ix.path fuel b dist).Nodup := by
  obtain ⟨m, hm, heq⟩ := ix.path_eq_map hb fuel dist
  rw [heq]
  refine List.nodup_range.map_on fun j hj k hk hjk => ?_
  rw [List.mem_range] at hj hk
  exact ix.along_inj (by omega) (by omega) hjk

/-- A path reaches a bucket if no distance on the way ends it. -/
theorem along_mem_path {b d : Nat} (hb : b < ix.bucketCount) {fuel dist : Nat} (hd : d < fuel)
    (h : ∀ k ≤ d, ((if ix.isLinear then dist else dist + k : Nat) : Int) ≤
      (ix.node (ix.along b k)).distance) : ix.along b d ∈ ix.path fuel b dist := by
  induction fuel generalizing b d dist with
  | zero => exact absurd hd (Nat.not_lt_zero d)
  | succ fuel ih =>
    have hfirst := h 0 (Nat.zero_le d)
    rw [along_zero ix hb, Nat.add_zero, ite_self] at hfirst
    rw [path, if_neg (not_lt.mpr hfirst)]
    -- under linear probing the distance that stops the walk stays as it is
    cases d with
    | zero =>
      rw [along_zero ix hb]
      exact List.mem_cons_self
    | succ d =>
      rw [← along_next]
      refine List.mem_cons_of_mem _ (ih (ix.next_lt b (by omega)) (by omega) fun k hk => ?_)
      rw [along_next]
      have hnext := h (k + 1) (by omega)
      split at hnext
      · rename_i hlin
        rwa [if_pos hlin, if_pos hlin]
      · rename_i hlin
        rwa [if_neg hlin, if_neg hlin, Nat.add_right_comm, Nat.add_assoc]

/-! ### Lookups that need no invariant -/

/-- What lookups rely on in an index that may hold anything: some bucket is empty, and the
    nodes that are not live are the two words for them. -/
structure Formed (ix : Index) : Prop where
  empty : ∃ b < ix.bucketCount, (ix.node b).isEmpty
  dead : ∀ b, (ix.node b).isLive = false → ix.node b = .empty ∨ ix.node b = .tombstone

namespace Formed

/-- Only the buckets of the array have to be looked at. -/
theorem formed_iff (ix : Index) : ix.Formed ↔
    (∃ n ∈ ix.buckets, n.isEmpty) ∧
      ∀ n ∈ ix.buckets, n.isLive = false → n = .empty ∨ n = .tombstone := by
  constructor
  · intro h
    constructor
    · obtain ⟨b, hb, hempty⟩ := h.empty
      rw [node_eq_getElem hb] at hempty
      exact ⟨_, Array.getElem_mem hb, hempty⟩
    · intro n hn hdead
      obtain ⟨b, hb, rfl⟩ := Array.getElem_of_mem hn
      rw [← node_eq_getElem hb] at hdead ⊢
      exact h.dead b hdead
  · rintro ⟨⟨n, hn, hempty⟩, hdead⟩
    constructor
    · obtain ⟨b, hb, rfl⟩ := Array.getElem_of_mem hn
      exact ⟨b, hb, by rwa [node_eq_getElem hb]⟩
    · intro b hb
      -- beyond the buckets every node is read as an empty one
      rcases Nat.lt_or_ge b ix.bucketCount with hlt | hge
      · rw [node_eq_getElem hlt] at hb ⊢
        exact hdead _ (Array.getElem_mem hlt) hb
      · exact Or.inl (node_of_le hge)

instance (ix : Index) : Decidable ix.Formed := decidable_of_iff' _ (formed_iff ix)

theorem bucketCount_pos (h : ix.Formed) : 0 < ix.bucketCount := by
  obtain ⟨b, hb, -⟩ := h.empty
  omega

/-- Only a live node has the tiny hash of a hash value. -/
theorem isLive_of_hasTiny (h : ix.Formed) {b : Nat} {hash : UInt64}
    (hb : ix.hasTiny (Node.tiny hash) b) : (ix.node b).isLive := by
  by_contra hdead
  rw [hasTiny, beq_iff_eq] at hb
  rcases h.dead b (Bool.eq_false_iff.mpr hdead) with hn | hn <;>
  · rw [hn] at hb
    exact Node.tiny_ne_zero hash hb.symm

/-- What a lookup finds is a live node that passes the test. -/
theorem of_find_eq_some (h : ix.Formed) {hash : UInt64} {b : Nat}
    (hfind : ix.find hash test = some b) :
    (ix.node b).isLive ∧ (ix.node b).tinyHash = Node.tiny hash ∧ test (ix.node b).pos := by
  rw [find, findFrom_eq] at hfind
  have hb := List.find?_some hfind
  rw [Bool.and_eq_true] at hb
  exact ⟨h.isLive_of_hasTiny hb.1, by simpa [hasTiny] using hb.1, hb.2⟩

/-- A lookup asks only about positions of live nodes with the tiny hash looked for. -/
theorem of_mem_asked (h : ix.Formed) {hash : UInt64} {p : Nat} (hp : p ∈ ix.asked hash test) :
    ∃ b, (ix.node b).isLive ∧ (ix.node b).pos = p ∧ (ix.node b).tinyHash = Node.tiny hash := by
  have hmem := (askedFrom_sublist ix.bucketCount (ix.home hash) 0).subset hp
  obtain ⟨b, hb, rfl⟩ := List.mem_map.mp hmem
  have htiny := (List.mem_filter.mp hb).2
  exact ⟨b, h.isLive_of_hasTiny htiny, rfl, by simpa [hasTiny] using htiny⟩

end Formed

/-! ### Lookups in a sound index -/

namespace Sound

theorem formed (h : ix.Sound P) : ix.Formed := ⟨h.exists_isEmpty, h.holds.dead⟩

/-- A lookup reaches every live node with the hash value looked for. -/
theorem mem_path (h : ix.Sound P) {b : Nat} {hash : UInt64} (hb : (ix.node b).isLive)
    (hp : P (ix.node b).pos = some hash) : b ∈ ix.path ix.bucketCount (ix.home hash) 0 := by
  have hlt : b < ix.bucketCount := lt_of_isLive hb
  have hhome : ix.home hash < ix.bucketCount := ix.home_lt hash h.bucketCount_pos
  have halong := ix.along_gap hhome hlt
  rw [← halong]
  refine along_mem_path hhome (ix.gap_lt _ _ h.bucketCount_pos) fun k hk => ?_
  by_cases hlin : ix.isLinear
  · rw [if_pos hlin]
    -- no bucket on the way is empty
    have hfull : (ix.node (ix.along (ix.home hash) k)).isEmpty = false := by
      rcases Nat.lt_or_eq_of_le hk with hk | rfl
      · obtain ⟨d, hd, hall⟩ := h.chained b hash hb hp
        have := ix.gap_le hhome hd
        exact hall k (by omega)
      · rw [halong]
        exact Node.isEmpty_of_isLive hb
    have hne : (ix.node (ix.along (ix.home hash) k)).distance ≠ -1 := fun heq => by
      rw [(Node.isEmpty_iff _).mpr heq] at hfull
      exact Bool.noConfusion hfull
    have := h.holds.neg_one_le_distance (ix.along (ix.home hash) k)
    omega
  · rw [if_neg hlin, Nat.zero_add]
    have ho := h.ordered (Bool.eq_false_iff.mpr hlin)
    have hgap := ho.distance_eq_gap h.holds h.exists_isEmpty hb hp
    exact ho.le_distance hb hp (by omega) (h.holds.range b hb).1

/-- A lookup finds a position that passes the test, if there is one. -/
theorem find_isSome (h : ix.Sound P) {hash : UInt64} {p : Nat} (hp : P p = some hash)
    (htest : test p) : (ix.find hash test).isSome := by
  obtain ⟨b, hb, rfl⟩ := h.holds.held p hash hp
  obtain ⟨hash', hp', htiny⟩ := h.holds.stored b hb
  rw [hp, Option.some.injEq] at hp'
  rw [find, findFrom_eq, List.find?_isSome]
  refine ⟨b, h.mem_path hb hp, ?_⟩
  rw [hasTiny, htiny, hp', beq_self_eq_true, Bool.true_and, htest]

/-- What a lookup finds is a live node that passes the test. -/
theorem of_find_eq_some (h : ix.Sound P) {hash : UInt64} {b : Nat}
    (hfind : ix.find hash test = some b) :
    (ix.node b).isLive ∧ (ix.node b).tinyHash = Node.tiny hash ∧ test (ix.node b).pos :=
  h.formed.of_find_eq_some hfind

/-- A lookup asks only about positions of live nodes with the tiny hash looked for. -/
theorem of_mem_asked (h : ix.Sound P) {hash : UInt64} {p : Nat} (hp : p ∈ ix.asked hash test) :
    ∃ b, (ix.node b).isLive ∧ (ix.node b).pos = p ∧ (ix.node b).tinyHash = Node.tiny hash :=
  h.formed.of_mem_asked hp

/-- A lookup asks about each position at most once. -/
theorem nodup_asked (h : ix.Sound P) (hash : UInt64) (test : Nat → Bool) :
    (ix.asked hash test).Nodup := by
  refine (askedFrom_sublist ix.bucketCount (ix.home hash) 0).nodup ?_
  refine List.Nodup.map_on ?_
    ((nodup_path (ix.home_lt hash h.bucketCount_pos) le_rfl 0).filter _)
  intro b hb c hc heq
  exact h.holds.once b c (h.formed.isLive_of_hasTiny (List.mem_filter.mp hb).2)
    (h.formed.isLive_of_hasTiny (List.mem_filter.mp hc).2) heq

end Sound

end Index

end OrderedHash
