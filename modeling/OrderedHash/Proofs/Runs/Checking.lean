import OrderedHash.Proofs.Index.Loops
import OrderedHash.Proofs.Runs.Consistency
import OrderedHash.Table.Consistency

namespace OrderedHash

/-!
# The consistency check

A table is `Intact` if it is consistent, its index counts its items, and each live node has
the tiny hash of the key that it stands for. Of all tables whose index is formed, reachable
or not, these are the ones that pass the check (`Table.check_iff_intact`).

The pass over the nodes is described one node at a time (`Table.Scan.Tells.visit`). What it cannot
see, the lookups of the stored keys show: a position that is found is held by a live node,
and equal keys are looked up in the same way, so that of two positions with equal keys one
is not found. Nothing is asked about other keys, but a lookup answers only with a position
whose key is equal, and for that key the answer was checked.
-/

namespace Table

variable {K V : Type} {κ : Keying K V} {t : Table V} {s : Table.Scan} {ns : List Node}

/-- A consistent table whose index counts the items and has the tiny hashes of their keys. -/
structure Intact (κ : Keying K V) (t : Table V) : Prop extends t.Consistent κ where
  size : t.index.size = t.size
  tiny : ∀ b, (t.index.node b).isLive →
    (t.index.node b).tinyHash = Node.tiny (hashAt κ t.items (t.index.node b).pos)

/-! ### The pass over the nodes -/

/-- The node stands for an item and has the tiny hash of its key. -/
def IsRight (κ : Keying K V) (t : Table V) (n : Node) : Prop :=
  n.pos < t.size ∧ n.tinyHash = Node.tiny (hashAt κ t.items n.pos)

/-- What a pass has found out about the nodes it came past. -/
structure Scan.Tells (κ : Keying K V) (t : Table V) (s : Scan) (ns : List Node) : Prop where
  size : s.seen.size = t.size
  seen : ∀ p < t.size, s.seen.getD p false ↔ p ∈ ns.map Node.pos
  ok : s.ok ↔ (∀ n ∈ ns, IsRight κ t n) ∧ (ns.map Node.pos).Nodup

theorem Scan.tells_nil (κ : Keying K V) (t : Table V) :
    Tells κ t ⟨Array.replicate t.size false, true⟩ [] where
  size := Array.size_replicate
  seen p hp := by simp [hp]
  ok := by simp

theorem nodup_pos_concat (ns : List Node) (n : Node) : ((ns ++ [n]).map Node.pos).Nodup ↔
    (ns.map Node.pos).Nodup ∧ n.pos ∉ ns.map Node.pos := by
  rw [List.map_append, List.map_singleton, List.nodup_append_comm, List.singleton_append,
    List.nodup_cons, and_comm]

/-- A node beyond the items, or at a marked position, changes no mark. -/
theorem Scan.Tells.reject (h : s.Tells κ t ns) {n : Node}
    (hwrong : t.size ≤ n.pos ∨ s.seen.getD n.pos false) :
    Tells κ t { s with ok := false } (ns ++ [n]) := by
  refine ⟨h.size, fun p hp => ?_, iff_of_false Bool.false_ne_true ?_⟩
  · rw [h.seen p hp, List.map_append, List.mem_append, List.map_singleton, List.mem_singleton]
    refine ⟨Or.inl, Or.rec id ?_⟩
    rintro rfl
    rcases hwrong with hbeyond | hseen
    · omega
    · exact (h.seen n.pos hp).mp hseen
  · rintro ⟨hright, hdistinct⟩
    have hlt : n.pos < t.size := (hright n (by simp)).1
    rcases hwrong with hbeyond | hseen
    · omega
    · exact ((nodup_pos_concat ns n).mp hdistinct).2 ((h.seen n.pos hlt).mp hseen)

/-- A node at a position without a mark marks it, and is wrong only for its tiny hash. -/
theorem Scan.Tells.mark (h : s.Tells κ t ns) {n : Node} (hlt : n.pos < t.size)
    (hfresh : ¬ s.seen.getD n.pos false) :
    Tells κ t ⟨s.seen.setIfInBounds n.pos true,
      s.ok && n.tinyHash == Node.tiny (hashAt κ t.items n.pos)⟩ (ns ++ [n]) := by
  have hnew : n.pos ∉ ns.map Node.pos := fun hmem => hfresh ((h.seen n.pos hlt).mpr hmem)
  refine ⟨by rw [Array.size_setIfInBounds, h.size], fun p hp => ?_, ?_⟩
  · rw [List.map_append, List.mem_append, List.map_singleton, List.mem_singleton,
      ← h.seen p hp, Array.getD_eq_getD_getElem?, Array.getElem?_setIfInBounds]
    by_cases hhere : n.pos = p
    · simp [hhere, h.size, hp]
    · simp [hhere, Ne.symm hhere]
  · rw [Bool.and_eq_true, h.ok, nodup_pos_concat, beq_iff_eq, List.forall_mem_append,
      List.forall_mem_singleton, IsRight]
    tauto

/-- A step adds the next node to those that a pass tells about. -/
theorem Scan.Tells.visit (h : s.Tells κ t ns) (n : Node) :
    (t.visit κ s n).Tells κ t (ns ++ [n]) := by
  rw [Table.visit]
  split
  · rename_i hwrong
    rw [Bool.or_eq_true, decide_eq_true_iff] at hwrong
    exact h.reject hwrong
  · rename_i hright
    rw [Bool.or_eq_true, decide_eq_true_iff, not_or] at hright
    exact h.mark (not_le.mp hright.1) hright.2

theorem Scan.Tells.foldl (h : s.Tells κ t ns) (ms : List Node) :
    (ms.foldl (t.visit κ) s).Tells κ t (ns ++ ms) := by
  induction ms generalizing s ns with
  | nil => simpa using h
  | cons n ms ih => simpa using ih (h.visit n)

/-- The pass goes well if the live nodes are right and no two hold one position. -/
theorem scan_ok : (t.scan κ).ok ↔
    (∀ b, (t.index.node b).isLive → IsRight κ t (t.index.node b)) ∧ t.index.positions.Nodup := by
  have h := (Scan.tells_nil κ t).foldl (t.index.liveNodes.map Prod.snd)
  rw [List.nil_append] at h
  rw [scan, h.ok, List.map_map]
  refine and_congr_left fun _ => ?_
  rw [List.forall_mem_map]
  exact ⟨fun h b hb => h (b, t.index.node b) (Index.mem_liveNodes.mpr ⟨hb, rfl⟩),
    fun h e he => (Index.mem_liveNodes.mp he).2 ▸ h e.1 (Index.mem_liveNodes.mp he).1⟩

/-! ### The lookups -/

/-- The key of every item is found at the position of the item. -/
def Found (κ : Keying K V) (t : Table V) : Prop :=
  ∀ p v, t.items[p]? = some v → t.find κ (κ.key v) = some p

theorem all_isFoundAt : (List.range t.size).all (t.isFoundAt κ) ↔ Found κ t := by
  rw [List.all_eq_true]
  constructor
  · intro h p v hv
    have hp := h p (List.mem_range.mpr (Array.getElem?_eq_some_iff.mp hv).1)
    simpa [isFoundAt, hv] using hp
  · intro h p hp
    have hv : t.items[p]? = some _ := Array.getElem?_eq_getElem (List.mem_range.mp hp)
    simpa [isFoundAt, hv] using h p _ hv

/-- Equal keys are looked up in the same way. -/
theorem find_eq_of_same (hκ : κ.Lawful) (t : Table V) {a b : K} (h : κ.same a b) :
    t.find κ a = t.find κ b := by
  have htest : keyAtIs κ t.items a = keyAtIs κ t.items b := by
    funext p
    rw [Bool.eq_iff_iff, keyAtIs_iff, keyAtIs_iff]
    refine exists_congr fun v => and_congr_right fun _ => ?_
    exact ⟨fun ha => hκ.trans _ _ _ ha h, fun hb => hκ.trans _ _ _ hb (hκ.symm _ _ h)⟩
  rw [find, find, hκ.hash_eq a b h, findHash, findHash, htest]

namespace Found

variable (h : Found κ t) (hκ : κ.Lawful) (hformed : t.index.Formed)

include h hκ

/-- Of two positions with equal keys one would not be found. -/
theorem distinct : Distinct κ t.items := by
  intro p q v w hv hw hsame
  have hfind := find_eq_of_same hκ t hsame
  rw [h p v hv, h q w hw, Option.some.injEq] at hfind
  exact hfind

include hformed

/-- A key is found where an equal one is stored, be it stored itself or not. -/
theorem find_iff (k : K) (p : Nat) :
    t.find κ k = some p ↔ ∃ v, t.items[p]? = some v ∧ κ.same (κ.key v) k := by
  refine ⟨fun hp => (of_find hformed hp).2, ?_⟩
  rintro ⟨v, hv, hsame⟩
  rw [← find_eq_of_same hκ t hsame, h p v hv]

omit hκ

/-- No position is lost: the lookup of its key ends at a live node that holds it. -/
theorem mem_positions {p : Nat} (hp : p < t.size) : p ∈ t.index.positions := by
  have hfind := h p _ (Array.getElem?_eq_getElem hp)
  exact Index.mem_positions.mpr (of_find hformed hfind).1

end Found

/-! ### The check -/

/-- The pass over the nodes and the lookups of the stored keys show all there is to show. -/
theorem Found.intact (h : Found κ t) (hκ : κ.Lawful) (hformed : t.index.Formed)
    (hsize : t.index.size = t.size) (hscan : (t.scan κ).ok) : t.Intact κ := by
  obtain ⟨hright, hnodup⟩ := scan_ok.mp hscan
  refine ⟨⟨(distinct_iff_pairwise hκ t.items).mp (h.distinct hκ), ?_, h.find_iff hκ hformed⟩,
    hsize, fun b hb => (hright b hb).2⟩
  refine (List.perm_ext_iff_of_nodup hnodup List.nodup_range).mpr fun p => ?_
  rw [List.mem_range]
  refine ⟨fun hp => ?_, h.mem_positions hformed⟩
  obtain ⟨b, hb, rfl⟩ := Index.mem_positions.mp hp
  exact (hright b hb).1

namespace Intact

theorem scan_ok (h : t.Intact κ) : (t.scan κ).ok := by
  refine Table.scan_ok.mpr ⟨fun b hb => ⟨?_, h.tiny b hb⟩, ?_⟩
  · have hmem : (t.index.node b).pos ∈ t.index.positions := Index.mem_positions.mpr ⟨b, hb, rfl⟩
    exact List.mem_range.mp (h.positions.mem_iff.mp hmem)
  · exact h.positions.nodup_iff.mpr List.nodup_range

theorem found (h : t.Intact κ) (hκ : κ.Lawful) : Found κ t :=
  fun p v hv => (h.find (κ.key v) p).mpr ⟨v, hv, hκ.refl _⟩

end Intact

/-- Of the tables with a formed index the intact ones pass the check. -/
theorem check_iff_intact (hκ : κ.Lawful) (hformed : t.index.Formed) :
    t.checkConsistency κ ↔ t.Intact κ := by
  rw [checkConsistency, Bool.and_eq_true, Bool.and_eq_true, beq_iff_eq, all_isFoundAt, and_assoc]
  constructor
  · rintro ⟨hsize, hscan, hfound⟩
    exact hfound.intact hκ hformed hsize hscan
  · intro h
    exact ⟨h.size, h.scan_ok, h.found hκ⟩

/-- Once the pass has gone well, lookups ask only about positions that items have. -/
theorem lt_of_mem_asked (hformed : t.index.Formed) (hscan : (t.scan κ).ok) {hash : UInt64}
    {test : Nat → Bool} {p : Nat} (hp : p ∈ t.index.asked hash test) : p < t.size := by
  obtain ⟨b, hb, rfl, -⟩ := hformed.of_mem_asked hp
  exact ((scan_ok.mp hscan).1 b hb).1

/-- On every table whose index is formed each lookup ends, those of the check ask only about
    positions of items, and the check tells whether the table is intact. -/
theorem checkConsistency_judges (hκ : κ.Lawful) (t : Table V) (hformed : t.index.Formed) :
    (∀ k, Index.Unbounded.find t.index (κ.hash k) (keyAtIs κ t.items k) =
        Part.some (t.index.find (κ.hash k) (keyAtIs κ t.items k))) ∧
      ((t.scan κ).ok →
        ∀ k, ∀ p ∈ t.index.asked (κ.hash k) (keyAtIs κ t.items k), p < t.size) ∧
      (t.checkConsistency κ = true ↔ t.Intact κ) :=
  ⟨fun _ => Index.Unbounded.find_of_formed hformed _ _,
    fun hscan _ _ hp => lt_of_mem_asked hformed hscan hp, check_iff_intact hκ hformed⟩

/-- Two keys with one home, in buckets set by hand. The index probes linearly and counts
    tombstones that it has not. -/
def byHand (buckets : Array Node) : Table Nat := ⟨#[5, 9], ⟨buckets, 2, 7, 126, .standard⟩⟩

/-- A gap keeps lookups from the node of a key, though the nodes themselves are all right.
    Without the gap the table is intact. -/
theorem checkConsistency_judges_byHand :
    ((byHand #[.make 1 3 1, .tombstone, .make 1 0 0, .empty]).scan Hashing.numeral.set).ok ∧
      ¬ (byHand #[.make 1 3 1, .tombstone, .make 1 0 0, .empty]).Intact Hashing.numeral.set ∧
      (byHand #[.empty, .tombstone, .make 1 0 0, .make 1 2 1]).Intact Hashing.numeral.set := by
  have hlawful : Hashing.numeral.set.Lawful := Hashing.lawful_ofHasher _
  refine ⟨by decide +kernel, fun hintact => ?_, ?_⟩
  · obtain ⟨-, -, hcheck⟩ := checkConsistency_judges hlawful
      (byHand #[.make 1 3 1, .tombstone, .make 1 0 0, .empty]) (by decide +kernel)
    exact absurd (hcheck.mpr hintact) (by decide +kernel)
  · obtain ⟨-, -, hcheck⟩ := checkConsistency_judges hlawful
      (byHand #[.empty, .tombstone, .make 1 0 0, .make 1 2 1]) (by decide +kernel)
    exact hcheck.mp (by decide +kernel)

/-- A coherent table is intact. -/
theorem Coherent.intact (h : t.Coherent κ) (hκ : κ.Lawful) : t.Intact κ where
  toConsistent := h.consistent hκ
  size := h.indexes.size_eq
  tiny b hb := by
    obtain ⟨hash, hp, htiny⟩ := h.indexes.holds.stored b hb
    rw [htiny, (Index.below_eq_some.mp hp).2]

end Table

namespace World

variable {K V σ : Type} {I : Interface K V} {κ : Hashing K} {w : World K V σ}

/-- After every run every container passes the check. -/
theorem Reachable.checkConsistency (h : Reachable I κ w) (hκ : κ.Lawful) (i : Nat) :
    (w.table i).checkConsistency (I.keying κ) := by
  have hcoherent := h.coherent hκ i
  exact (Table.check_iff_intact hκ hcoherent.indexes.formed).mpr (hcoherent.intact hκ)

end World

end OrderedHash
