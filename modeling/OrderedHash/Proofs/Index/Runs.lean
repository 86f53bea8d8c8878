import OrderedHash.Index.Register
import OrderedHash.Proofs.Index.Mirror
import OrderedHash.Proofs.Index.Search
import Mathlib.Data.List.Induction

namespace OrderedHash

open Function (update)

/-!
# Runs of the slot index

A bank of registers starts with null indexes. A run changes one register at a time, in any
of the ways in which containers use their indexes, or copies, hands over or exchanges whole
registers. `Bank.Reachable` collects the banks at which a run can arrive while all of its
registers stay below `2 ^ 48 - 2` positions.

Every step keeps the invariant (`Bank.right_apply`), so the index of every register in a
run has the structure told by `Register.Structured`, and its lookups are exact.
-/

namespace Register

/-! ### The structure of an index -/

/-- What holds of the index of a register at any time. -/
structure Structured (r : Register) : Prop where
  size_eq : r.index.size = r.size
  /-- Every position is held by exactly one live node. -/
  held : ∀ p < r.index.size, ∃! b, (r.index.node b).isLive ∧ (r.index.node b).pos = p
  /-- A live node holds a position, and carries the tiny hash of its hash value. -/
  tiny : ∀ b, (r.index.node b).isLive → (r.index.node b).pos < r.index.size ∧
    (r.index.node b).tinyHash = Node.tiny (r.hashAt (r.index.node b).pos)
  liveCount : r.index.buckets.countP Node.isLive = r.index.size
  tombstoneCount : r.index.buckets.countP Node.isTombstone = r.index.tombstones
  /-- No empty bucket lies between the home bucket of a live node and its bucket. -/
  chain : ∀ b, (r.index.node b).isLive →
    ∀ k < r.index.gap (r.index.home (r.hashAt (r.index.node b).pos)) b,
      (r.index.node (r.index.along (r.index.home (r.hashAt (r.index.node b).pos)) k)).isEmpty
        = false
  noTombstone : r.index.isLinear = false → ∀ b, (r.index.node b).isTombstone = false
  /-- In distance order a live node holds the number of buckets from its home to its own. -/
  distance : r.index.isLinear = false → ∀ b, (r.index.node b).isLive →
    (r.index.node b).distance = r.index.gap (r.index.home (r.hashAt (r.index.node b).pos)) b
  /-- In distance order the distance grows by at most one from a bucket to the next. -/
  order : r.index.isLinear = false → ∀ b < r.index.bucketCount,
    (r.index.node (r.index.next b)).distance ≤ (r.index.node b).distance + 1

/-- The hash value of a position is the one at that place of the list. -/
theorem hashAt_eq (r : Register) : r.hashAt = Index.valueAt id r.hashes := by
  funext p
  rw [hashAt, Index.valueAt, Array.getD_eq_getD_getElem?]
  cases r.hashes[p]? <;> rfl

/-- The index of the register stands for the positions of its hash values. -/
def Right (r : Register) : Prop := r.index.Mirrors id r.hashes

variable {r : Register}

/-- The index of a right register indexes the positions of its list. -/
theorem Right.indexes (h : r.Right) : r.index.Indexes r.size r.hashAt := by
  rw [hashAt_eq]
  exact h

/-- The index of a right register has all of the structure. -/
theorem Right.structured (h : r.Right) : r.Structured := by
  have hi := h.indexes
  have hsize := hi.size_eq
  have hpos : 0 < r.index.bucketCount := hi.bucketCount_pos
  -- a live node stands for a position in use, and has its tiny hash
  have hstored : ∀ b, (r.index.node b).isLive → (r.index.node b).pos < r.size ∧
      (r.index.node b).tinyHash = Node.tiny (r.hashAt (r.index.node b).pos) := by
    intro b hb
    obtain ⟨hash, hp, htiny⟩ := hi.holds.stored b hb
    rw [Index.below_eq_some] at hp
    exact ⟨hp.1, hp.2 ▸ htiny⟩
  have hcontents : ∀ b, (r.index.node b).isLive →
      Index.below r.size r.hashAt (r.index.node b).pos =
        some (r.hashAt (r.index.node b).pos) :=
    fun b hb => Index.below_of_lt (hstored b hb).1
  refine ⟨hsize, fun p hp => ?_, fun b hb => ?_, hi.liveCount, hi.tombstoneCount,
    fun b hb k hk => ?_, fun hnot => (hi.ordered hnot).noTombstone, fun hnot b hb => ?_,
    fun hnot => (hi.ordered hnot).step⟩
  · obtain ⟨b, hb, hbp⟩ := hi.holds.held p _ (Index.below_of_lt (hsize ▸ hp))
    refine ⟨b, ⟨hb, hbp⟩, fun c hc => ?_⟩
    exact hi.holds.once c b hc.1 hb (hc.2.trans hbp.symm)
  · rw [hsize]
    exact hstored b hb
  · obtain ⟨d, hd, hall⟩ := hi.chained b _ hb (hcontents b hb)
    have hle := r.index.gap_le (r.index.home_lt _ hpos) hd
    exact hall k (by omega)
  · exact (hi.ordered hnot).distance_eq_gap hi.holds hi.exists_isEmpty hb (hcontents b hb)

/-! ### The steps of a register -/

/-- An insertion adds one position. -/
theorem size_insertAt (r : Register) {pos : Nat} (h : pos ≤ r.size) (hash : UInt64) :
    (r.apply (.insertAt pos hash)).size = r.size + 1 := by
  have hle : pos ≤ r.hashes.size := h
  simp [apply, size, Array.insertIdxIfInBounds, hle]

/-- The steps that containers take: their positions are in the range that they are for. -/
def Allows (r : Register) : Step → Prop
  | .insertAt pos _ => pos ≤ r.size
  | .removeShifting pos => pos < r.size
  | .removeSwapping pos => pos < r.size
  | .rebuildInPlace count => count ≤ r.index.size
  | _ => True

/-- An empty register is right. -/
theorem empty_right : Register.empty.Right := Index.null_indexes _ _

/-- A step keeps the index right. -/
theorem Right.apply (h : r.Right) {s : Step} (hs : r.Allows s)
    (hsize : r.size < Node.movingPosition) : (r.apply s).Right := by
  have hi : r.index.Mirrors id r.hashes := h
  have hnoPos : r.hashes.size < Node.noPosition := lt_trans hsize (by decide)
  have hcount : r.index.size = r.hashes.size := Index.Indexes.size_eq hi
  cases s with
  | insertAt pos hash =>
    rw [Register.apply, hashAt_eq]
    exact hi.insertAt hs hnoPos hash
  | removeShifting pos =>
    rw [Register.apply, hashAt_eq]
    exact hi.removeShifting hs
  | removeSwapping pos =>
    have hlast : r.size - 1 < r.hashes.size := Nat.sub_lt (Nat.zero_lt_of_lt hs) Nat.one_pos
    -- the position that fills the gap is the last one
    have hv : r.hashes[r.hashes.size - 1]? = some (r.hashAt (r.size - 1)) := by
      rw [hashAt, Array.getD_eq_getD_getElem?]
      change r.hashes[r.size - 1]? = some (r.hashes[r.size - 1]?.getD 0)
      rw [Array.getElem?_eq_getElem hlast, Option.getD_some]
    have hswap := hi.removeSwapping hs hv
    rw [← hashAt_eq] at hswap
    exact hswap
  | reverse => exact hi.reverse
  | rebuild =>
    rw [Register.apply, hashAt_eq]
    exact Index.Indexes.rebuild hi
  | rebuildInPlace count =>
    have hle : count ≤ r.hashes.size := hcount ▸ hs
    have htake : (r.hashes.take count).size = count := by
      rw [Array.take_eq_extract, Array.size_extract]
      omega
    rw [Register.apply, Right, Index.Mirrors, htake, hashAt_eq]
    -- the hash values that are left are those of the front
    refine (Index.Indexes.rebuildInPlace hi hle (Index.valueAt id r.hashes)).congr fun p hp => ?_
    rw [Index.valueAt, Index.valueAt, Array.take_eq_extract, Array.getElem?_extract,
      if_pos (by omega), Nat.zero_add]
  | reserve count =>
    rw [Register.apply, hashAt_eq]
    exact Index.Indexes.reserve hi count
  | shrinkToFit =>
    rw [Register.apply, hashAt_eq]
    exact Index.Indexes.shrinkToFit hi
  | clear => exact Index.Indexes.clear hi _
  | release => exact Index.null_indexes _ _
  | setLoadFactor f => exact Index.Sound.setLoadFactor hi f

end Register

/-! ### The steps of a bank -/

/-- Registers, one for each number. -/
abbrev Bank := Nat → Register

namespace Bank

/-- One step of a run. -/
inductive Step where
  /-- A step of one register. -/
  | use (i : Nat) (step : Register.Step)
  /-- Removes the positions from `first` up to `last` from a register. -/
  | removeRange (i first last : Nat)
  /-- Moves a position of a register to another one. -/
  | move (i source target : Nat)
  /-- Exchanges two positions of a register. -/
  | exchange (i p q : Nat)
  /-- Permutes the positions of a register from `first` on. -/
  | permute (i first : Nat) (order : List Nat)
  /-- Builds the index of a register anew for other hash values. -/
  | renew (i : Nat) (hashes : Array UInt64)
  /-- Builds the index anew in its buckets, for other hash values but no more than before. -/
  | renewInPlace (i : Nat) (hashes : Array UInt64)
  /-- Copies a register to another one. -/
  | copy (source target : Nat)
  /-- Hands the contents of a register over to another one. -/
  | handOver (source target : Nat) (sharedStorage : Bool)
  /-- Exchanges two registers. -/
  | swap (i j : Nat)

/-- The bank after a step. -/
def apply (bank : Bank) : Step → Bank
  | .use i step => update bank i ((bank i).apply step)
  | .removeRange i first last =>
    let r := bank i
    update bank i ⟨r.index.removeRange first last r.size r.hashAt,
      r.hashes.extract 0 first ++ r.hashes.extract last⟩
  | .move i source target =>
    let r := bank i
    update bank i ⟨r.index.move source target r.hashAt,
      (r.hashes.eraseIdxIfInBounds source).insertIdxIfInBounds target (r.hashAt source)⟩
  | .exchange i p q =>
    let r := bank i
    update bank i ⟨r.index.exchange p q r.hashAt, r.hashes.swapIfInBounds p q⟩
  | .permute i first order =>
    let r := bank i
    update bank i ⟨r.index.permute first order r.hashAt, Index.permuted r.hashes first order⟩
  | .renew i hashes =>
    update bank i ⟨(bank i).index.rebuild hashes.size (hashes.getD · 0), hashes⟩
  | .renewInPlace i hashes =>
    update bank i ⟨(bank i).index.rebuildInPlace hashes.size (hashes.getD · 0), hashes⟩
  | .copy source target => update bank target (bank source)
  | .handOver source target sharedStorage =>
    if source = target then bank
    else
      let (taken, left) := Register.takeOver (bank source) sharedStorage
      update (update bank source left) target taken
  | .swap i j => update (update bank i (bank j)) j (bank i)

/-- The steps that containers take. -/
def Allows (bank : Bank) : Step → Prop
  | .use i step => (bank i).Allows step
  | .removeRange i first last => first ≤ last ∧ last ≤ (bank i).size
  | .move i source target => source < (bank i).size ∧ target < (bank i).size
  | .exchange i p q => p < (bank i).size ∧ q < (bank i).size ∧ p ≠ q
  | .permute i first order =>
    order.Perm (List.range' first order.length) ∧ first + order.length ≤ (bank i).size
  | .renewInPlace i hashes => hashes.size ≤ (bank i).size
  | _ => True

/-- The banks at which a run arrives. -/
inductive Reachable : Bank → Prop
  | start : Reachable fun _ => Register.empty
  | step {bank : Bank} (h : Reachable bank) (s : Step) (allowed : bank.Allows s)
    (small : ∀ i, (bank.apply s i).size < 2 ^ 48 - 2) : Reachable (bank.apply s)

variable {bank : Bank}

/-- In a reachable bank there is a place for every position. -/
theorem Reachable.small (h : Reachable bank) (i : Nat) : (bank i).size < Node.movingPosition := by
  cases h with
  | start => exact Nat.zero_lt_of_lt (show 0 < 2 ^ 48 - 2 by decide)
  | step h s allowed small => exact small i

/-- A register is changed to one that is right. -/
theorem right_update (h : ∀ i, (bank i).Right) {i : Nat} {r : Register} (hr : r.Right) :
    ∀ j, (update bank i r j).Right := by
  intro j
  by_cases hj : j = i
  · rw [hj, Function.update_self]
    exact hr
  · rw [Function.update_of_ne hj]
    exact h j

/-- A step keeps all registers right. -/
theorem right_apply (h : ∀ i, (bank i).Right) (small : ∀ i, (bank i).size < Node.movingPosition)
    {s : Step} (hs : bank.Allows s)
    (small' : ∀ i, (bank.apply s i).size < Node.movingPosition) : ∀ i, (bank.apply s i).Right := by
  have hmirror : ∀ i, (bank i).index.Mirrors id (bank i).hashes := h
  -- hash values are read off the new hashes, not off the register
  have hat : ∀ hashes : Array UInt64, (hashes.getD · 0) = Index.valueAt id hashes :=
    fun hashes => Register.hashAt_eq ⟨.null .standard, hashes⟩
  cases s with
  | use i step => exact right_update h ((h i).apply hs (small i))
  | removeRange i first last =>
    have hr := (hmirror i).removeRange hs.1 hs.2
    rw [← Register.hashAt_eq] at hr
    exact right_update h hr
  | move i source target =>
    have hv : (bank i).hashes[source]? = some ((bank i).hashAt source) := by
      rw [Register.hashAt, Array.getD_eq_getD_getElem?, Array.getElem?_eq_getElem hs.1,
        Option.getD_some]
    have hr := (hmirror i).move hs.1 hs.2 (Nat.le_of_lt (small i)) hv
    rw [← Register.hashAt_eq] at hr
    exact right_update h hr
  | exchange i p q =>
    have hr := (hmirror i).exchange hs.1 hs.2.1 hs.2.2
    rw [← Register.hashAt_eq] at hr
    exact right_update h hr
  | permute i first order =>
    have hr := (hmirror i).permute hs.1 hs.2
    rw [← Register.hashAt_eq] at hr
    exact right_update h hr
  | renew i hashes =>
    have hsize := small' i
    rw [apply, Function.update_self] at hsize
    have hlt : hashes.size ≤ Node.noPosition :=
      Nat.le_of_lt (lt_trans hsize (show Node.movingPosition < Node.noPosition by decide))
    rw [apply, hat]
    exact right_update h (Index.rebuild_indexes (h i).indexes.shape _ hlt)
  | renewInPlace i hashes =>
    rw [apply, hat]
    exact right_update h (Index.Indexes.rebuildInPlace (hmirror i) hs _)
  | copy source target => exact right_update h (h source)
  | handOver source target sharedStorage =>
    rw [apply]
    split
    · exact h
    -- the source is left empty, with or without its buckets
    · refine right_update (right_update h ?_) (h source)
      cases sharedStorage
      · exact Index.Indexes.clear (hmirror source) _
      · exact Index.Indexes.clear (Index.null_indexes _ fun _ => 0) _
  | swap i j => exact right_update (right_update h (h j)) (h i)

/-- In a reachable bank every register is right. -/
theorem Reachable.right (h : Reachable bank) (i : Nat) : (bank i).Right := by
  induction h generalizing i with
  | start => exact Register.empty_right
  | step h s allowed small ih => exact right_apply ih h.small allowed small i

/-! ### What holds throughout a run -/

/-- Every index of a run has its structure. -/
theorem structured_of_reachable (h : Reachable bank) (i : Nat) : (bank i).Structured :=
  (h.right i).structured

/-- A bank in which one hash value was put into the first register. -/
def single : Bank := apply (fun _ => Register.empty) (.use 0 (.insertAt 0 7))

/-- The only hash value is seven. -/
theorem hashes_single : (single 0).hashes = #[7] := by
  apply Array.toList_inj.mp
  simp [single, apply, Register.apply, Register.empty, Array.insertIdxIfInBounds]

/-- There is one position. -/
theorem size_single : (single 0).size = 1 := by
  rw [Register.size, hashes_single]
  rfl

/-- One insertion makes up a run. -/
theorem single_reachable : Reachable single := by
  refine Reachable.start.step _ (Nat.zero_le _) fun i => ?_
  by_cases hi : i = 0
  · rw [hi, show (apply (fun _ => Register.empty) (.use 0 (.insertAt 0 7)) 0).size = 1 from
      size_single]
    decide
  · rw [apply, Function.update_of_ne hi]
    exact show 0 < 2 ^ 48 - 2 by decide

/-- The bank in which hash values were appended to the first register one after another. -/
def fill (hashes : List UInt64) : Bank :=
  hashes.foldl (fun bank hash => bank.apply (.use 0 (.insertAt (bank 0).size hash)))
    fun _ => Register.empty

/-- The last hash value is inserted at the end. -/
theorem fill_append (hashes : List UInt64) (hash : UInt64) : fill (hashes ++ [hash]) =
    apply (fill hashes) (.use 0 (.insertAt (fill hashes 0).size hash)) := by
  rw [fill, List.foldl_append]
  rfl

/-- Only the first register is filled. -/
theorem size_fill (hashes : List UInt64) (i : Nat) :
    (fill hashes i).size = if i = 0 then hashes.length else 0 := by
  induction hashes using List.reverseRecOn with
  | nil =>
    show 0 = _
    split <;> rfl
  | append_singleton hashes hash ih =>
    rw [fill_append, apply]
    by_cases hi : i = 0
    · subst hi
      rw [Function.update_self, Register.size_insertAt _ le_rfl, ih]
      simp
    · rw [Function.update_of_ne hi, ih, if_neg hi, if_neg hi]

/-- Insertions at the end make up a run. -/
theorem fill_reachable (hashes : List UInt64) (hlen : hashes.length < 2 ^ 48 - 2) :
    Reachable (fill hashes) := by
  induction hashes using List.reverseRecOn with
  | nil => exact Reachable.start
  | append_singleton hashes hash ih =>
    rw [List.length_append, List.length_singleton] at hlen
    rw [fill_append]
    refine (ih (by omega)).step _ (le_refl _) fun i => ?_
    rw [← fill_append, size_fill]
    split
    · rwa [List.length_append, List.length_singleton]
    · decide

/-- An index of one position has all of the structure. -/
theorem structured_of_reachable_single : (single 0).size = 1 ∧ (single 0).Structured :=
  ⟨size_single, structured_of_reachable single_reachable 0⟩

/-- Lookups in an index of a run are exact, for a test that only positions with the hash
    value looked for can pass. The test is asked about positions in use, about each at most
    once, and only its answers there matter. -/
theorem lookup_of_reachable (h : Reachable bank) (i : Nat) (hash : UInt64) (test : Nat → Bool)
    (htest : ∀ p < (bank i).index.size, test p → (bank i).hashAt p = hash) :
    ((((bank i).index.find hash test).isSome ↔ ∃ p < (bank i).index.size, test p) ∧
      ∀ b, (bank i).index.find hash test = some b →
        ((bank i).index.node b).isLive ∧
          ((bank i).index.node b).pos < (bank i).index.size ∧
          test ((bank i).index.node b).pos) ∧
      (∀ p ∈ (bank i).index.asked hash test, p < (bank i).index.size ∧
        ∃ b, ((bank i).index.node b).isLive ∧ ((bank i).index.node b).pos = p ∧
          ((bank i).index.node b).tinyHash = Node.tiny hash) ∧
      ((bank i).index.asked hash test).Nodup ∧
      ∀ test' : Nat → Bool, (∀ p ∈ (bank i).index.asked hash test, test p = test' p) →
        (bank i).index.find hash test' = (bank i).index.find hash test := by
  have hi := (h.right i).indexes
  have hs := (h.right i).structured
  have hfound : ∀ b, (bank i).index.find hash test = some b →
      ((bank i).index.node b).isLive ∧ ((bank i).index.node b).pos < (bank i).index.size ∧
        test ((bank i).index.node b).pos := by
    intro b hb
    obtain ⟨hlive, -, hpass⟩ := hi.of_find_eq_some hb
    exact ⟨hlive, (hs.tiny b hlive).1, hpass⟩
  refine ⟨⟨⟨fun hsome => ?_, fun ⟨p, hp, hpass⟩ => ?_⟩, hfound⟩, fun p hp => ?_,
    hi.nodup_asked hash test, fun test' hagree => ?_⟩
  · obtain ⟨b, hb⟩ := Option.isSome_iff_exists.mp hsome
    obtain ⟨-, hlt, hpass⟩ := hfound b hb
    exact ⟨_, hlt, hpass⟩
  -- the test holds only of positions with this hash value
  · have hstored : Index.below (bank i).size (bank i).hashAt p = some ((bank i).hashAt p) :=
      Index.below_of_lt (hs.size_eq ▸ hp)
    rw [htest p hp hpass] at hstored
    exact hi.find_isSome hstored hpass
  · obtain ⟨b, hlive, hpos, htiny⟩ := hi.of_mem_asked hp
    exact ⟨hpos ▸ (hs.tiny b hlive).1, b, hlive, hpos, htiny⟩
  · exact Index.findFrom_congr _ _ _ hagree

/-- The only position is found under its hash value. -/
theorem lookup_of_reachable_single : ∃ b, (single 0).index.find 7 (· == 0) = some b ∧
    ((single 0).index.node b).pos = 0 := by
  have h := lookup_of_reachable single_reachable 0 7 (· == 0) (fun p _ hp => by
    rw [beq_iff_eq.mp hp, Register.hashAt, hashes_single]
    rfl)
  have hsize : (single 0).index.size = 1 :=
    (single_reachable.right 0).indexes.size_eq.trans size_single
  obtain ⟨b, hb⟩ := Option.isSome_iff_exists.mp (h.1.1.mpr ⟨0, hsize ▸ Nat.one_pos, rfl⟩)
  exact ⟨b, hb, beq_iff_eq.mp (h.1.2 b hb).2.2⟩

end Bank

end OrderedHash
