import OrderedHash.Proofs.Atomic
import OrderedHash.Proofs.Table.Adding
import OrderedHash.Table.Extract
import OrderedHash.Table.Slice

namespace OrderedHash

/-!
# Tables that are left alone by what fails

An operation that handles one item, a range or an order is refused before it changes the
table: a position or a range is checked first, a key is hashed first, and what the client
computes is computed while the table waits. Two operations do more before they can fail.
`emplace` stores its item and takes it back (`emplace_atomic`). `insertBefore` and
`shiftInsert` refresh an item before they move it, but from and to positions of the table
(`answers_moveIndex`), so the move does not fail.
-/

open OrderedHash.Action (Answers Atomic)

namespace Table

variable {K V C σ α : Type} {κ : Keying K V} {t : Table V}

/-! ### Single items -/

/-- The hash function is asked about a key before the table is changed. -/
theorem onKey_atomic {k : K} {present : Nat → Action (Table V) α}
    {absent : UInt64 → Action (Table V) α}
    (hpresent : ∀ pos, t.find κ k = some pos → Atomic id (present pos) t)
    (habsent : Atomic id (absent (κ.hash k)) t) : Atomic id (onKey κ k present absent) t := by
  cases hrefusal : κ.refusal k with
  | some fault => exact .of_stay (step_onKey_of_refusal hrefusal)
  | none =>
    cases hfind : t.find κ k with
    | some pos => exact .congr (step_onKey_of_find hrefusal hfind) (hpresent pos hfind)
    | none => exact .congr (step_onKey_of_absent hrefusal hfind) habsent

/-- To add an item with a hash value at hand does not fail. -/
theorem addAt_atomic (pos : Nat) (hash : UInt64) (v : V) : Atomic id (addAt κ pos hash v) t :=
  .modify _

/-- What is added is at the position where it was added. -/
theorem itemAt_insertAt (t : Table V) {pos : Nat} (hpos : pos ≤ t.size) (hash : UInt64) (v : V) :
    (t.insertAt κ pos hash v).itemAt pos = .ok v := by
  have hpos : pos ≤ t.items.size := hpos
  unfold itemAt insertAt
  rw [Array.insertIdxIfInBounds, dif_pos hpos, Array.getElem?_insertIdx_self]

/-- To insert an item fails only on the hash value of its key. -/
theorem insert_atomic (v : V) : Atomic id (insert κ v) t :=
  onKey_atomic (fun _ _ => .pure _) (.get_bind ((addAt_atomic _ _ _).map _))

/-- An insertion answers the position of an item. -/
theorem itemAt_of_step_insert (h : t.Coherent κ) (hκ : κ.Lawful) {v : V} {found : Nat × Bool}
    {u : Table V} (hstep : (insert κ v).step t = (.ok found, u)) :
    ∃ item, u.itemAt found.1 = .ok item := by
  unfold insert at hstep
  cases hrefusal : κ.refusal (κ.key v) with
  | some fault =>
    rw [step_onKey_of_refusal hrefusal] at hstep
    cases hstep
  | none =>
    cases hfind : t.find κ (κ.key v) with
    | some pos =>
      rw [step_onKey_of_find hrefusal hfind] at hstep
      cases hstep
      -- the key is there, and so is its item
      obtain ⟨item, hitem, -⟩ := (h.find_eq_some hκ _ pos).mp hfind
      refine ⟨item, ?_⟩
      rw [itemAt, hitem]
    | none =>
      rw [step_onKey_of_absent hrefusal hfind] at hstep
      cases hstep
      -- the new item is at the position that is answered
      exact ⟨v, itemAt_insertAt t le_rfl _ v⟩

/-- To put an item fails only on the hash value of its key. -/
theorem put_atomic (v : V) : Atomic id (put κ v) t :=
  onKey_atomic (fun _ _ => .get_bind ((Atomic.modify _).map _))
    (.get_bind ((addAt_atomic _ _ _).map _))

/-- An item that was stored too early is taken back if its key is refused. -/
theorem emplace_atomic (v : V) : Atomic id (emplace κ v) t := by
  cases hrefusal : κ.refusal (κ.key v) with
  | some fault => exact .of_stay (step_emplace_of_refusal hrefusal)
  | none =>
    unfold emplace
    rw [accept_of_none hrefusal]
    refine .of_answers (.get_bind (.modify_bind (.get_bind ?_)))
    cases findHash κ { t with items := t.items.push v } (κ.hash (κ.key v)) (κ.key v) with
    | some found => exact .modify_bind (.pure _ _)
    | none => exact .modify_bind (.pure _ _)

/-- To take the item at a position does not fail. -/
theorem takeAt_atomic (way : Removal) (pos : Nat) : Atomic id (takeAt κ way pos) t := by
  unfold takeAt
  refine .get_bind ?_
  cases t.items[pos]? with
  | none => exact .pure _
  | some v => exact (Atomic.modify _).map _

/-- To take the item with a key fails only on the hash value of the key. -/
theorem takeKey_atomic (way : Removal) (k : K) : Atomic id (takeKey κ way k) t := by
  unfold takeKey
  refine .get_bind (.ofExcept_bind fun found _ => ?_)
  cases found with
  | none => exact .pure _
  | some pos => exact takeAt_atomic way pos

/-! ### Positions -/

/-- What comes after the check of a position may rely on it. -/
theorem checkPosition_bind {pos bound : Nat} {f : Unit → Action (Table V) α}
    (h : pos < bound → Atomic id (f ()) t) : Atomic id (checkPosition pos bound >>= f) t :=
  .demand_bind fun hpos => h (of_decide_eq_true hpos)

/-- To move an item fails only on its positions. -/
theorem moveIndex_atomic (source target : Nat) : Atomic id (moveIndex κ source target) t := by
  unfold moveIndex
  refine .get_bind (checkPosition_bind fun _ => checkPosition_bind fun _ => ?_)
  split
  · exact .modify _
  · exact .pure _

/-- To exchange two items fails only on their positions. -/
theorem swapIndices_atomic (p q : Nat) : Atomic id (swapIndices κ p q) t := by
  unfold swapIndices
  refine .get_bind (checkPosition_bind fun _ => checkPosition_bind fun _ => ?_)
  split
  · exact .modify _
  · exact .pure _

/-- A move between two positions of the table does not fail. -/
theorem answers_moveIndex {source target : Nat} (hsource : source < t.size)
    (htarget : target < t.size) : Answers (moveIndex κ source target) t := by
  unfold moveIndex checkPosition Answers
  rw [Action.step_get_bind, Action.step_demand_bind (decide_eq_true hsource),
    Action.step_demand_bind (decide_eq_true htarget)]
  split
  · exact ⟨_, _, rfl⟩
  · exact ⟨_, _, rfl⟩

/-- To put an item before a position fails on the position or on the hash value, before anything is
    changed. -/
theorem insertBefore_atomic (h : t.Coherent κ) (hκ : κ.Lawful) (target : Nat) (v : V) :
    Atomic id (insertBefore κ target v) t := by
  unfold insertBefore
  refine .get_bind (checkPosition_bind fun htarget => ?_)
  refine onKey_atomic (fun pos hfind => .of_answers (.get_bind (.modify_bind ?_)))
    ((addAt_atomic _ _ _).map _)
  have hpos : pos < (t.refreshAt κ pos v).size := by
    rw [size_refreshAt]
    exact h.lt_of_find hκ hfind
  -- an item that comes from before the target makes room for itself
  refine (answers_moveIndex hpos ?_).bind fun _ _ _ => .pure _ _
  rw [size_refreshAt] at hpos ⊢
  split <;> omega

/-- To put an item at a position fails on the position or on the hash value, before anything is
    changed. -/
theorem shiftInsert_atomic (h : t.Coherent κ) (hκ : κ.Lawful) (target : Nat) (v : V) :
    Atomic id (shiftInsert κ target v) t := by
  unfold shiftInsert
  refine onKey_atomic (fun pos hfind => .get_bind (checkPosition_bind fun htarget => ?_))
    (.get_bind (checkPosition_bind fun _ => (addAt_atomic _ _ _).map _))
  refine .of_answers (.get_bind (.modify_bind ?_))
  refine (answers_moveIndex ?_ ?_).bind fun _ _ _ => .pure _ _ <;> rw [size_refreshAt]
  · exact h.lt_of_find hκ hfind
  · exact htarget

/-! ### Ranges -/

/-- To erase a range fails only on its bounds. -/
theorem eraseRange_atomic (first last : Nat) : Atomic id (eraseRange κ first last) t := by
  unfold eraseRange checkRange
  exact .get_bind (.demand_bind fun _ => .modify _)

/-- To drain a range fails only on its bounds. -/
theorem drain_atomic (first last : Nat) : Atomic id (drain κ first last) t := by
  unfold drain
  exact .get_bind ((eraseRange_atomic first last).map _)

/-- To truncate a table does not fail. -/
theorem truncate_atomic (count : Nat) : Atomic id (truncate κ count) t := by
  unfold truncate
  refine .get_bind ?_
  dsimp only
  split
  · exact eraseRange_atomic count _
  · exact .pure _

/-- An invalid range is refused before anything is removed. -/
theorem splice_atomic {first last : Nat} (h : ¬ (first ≤ last ∧ last ≤ t.size)) (vs : List V) :
    Atomic id (splice κ first last vs) t := by
  have hdrain : (drain κ first last).step t = (.error .invalidRange, t) := by
    unfold drain eraseRange checkRange
    rw [Action.step_get_bind, Action.step_bind, Action.step_get_bind, decide_eq_false h]
    rfl
  exact .of_stay (Action.step_bind_of_error hdrain _)

/-- An extraction fails only before it starts: later faults of the test are answered. -/
theorem extractIf_atomic (first last : Nat) (test : Action (V × σ) Bool)
    (requests : List (Option Nat)) (p : Table V × σ) :
    Atomic Prod.fst (extractIf κ first last test requests) p := by
  unfold extractIf extractUsing
  exact .get_bind (.ofExcept_bind fun x _ => (Atomic.set _).map _)

/-! ### Order -/

/-- Where to put an item is found out before it is put there. -/
theorem insertSorted_atomic (before : V → Action σ Bool) (v : V) (p : Table V × σ) :
    Atomic Prod.fst (insertSorted κ before v) p := by
  obtain ⟨t, s⟩ := p
  cases hrefusal : κ.refusal (κ.key v) with
  | some fault => exact .of_stay (step_insertSorted_of_refusal hrefusal)
  | none =>
    cases hfind : t.find κ (κ.key v) with
    | some pos => exact .of_answers ⟨_, _, step_insertSorted_of_find hrefusal hfind⟩
    | none =>
      refine .congr (step_insertSorted_of_absent hrefusal hfind) (.onSnd_bind fun pos c _ => ?_)
      exact (Atomic.onFst (.modify _)).map _

/-- The comparisons see the items while only their positions are sorted. -/
theorem sortRange_atomic (first last : Nat) (less : V → V → Action σ Bool) (p : Table V × σ) :
    Atomic Prod.fst (sortRange κ first last less) p := by
  unfold sortRange
  split
  · exact .get_bind (.onSnd_bind fun _ _ _ => .modify _)
  · exact .pure _

/-- To sort by keys fails where a key is asked for, before any item is moved. -/
theorem sortRangeByCachedKey_atomic (first last : Nat) (less : C → C → Bool) (f : V → Action σ C)
    (p : Table V × σ) : Atomic Prod.fst (sortRangeByCachedKey κ first last less f) p := by
  unfold sortRangeByCachedKey
  split
  · exact .get_bind (.onSnd_bind fun _ _ _ => .onSnd_bind fun _ _ _ => .modify _)
  · exact .pure _

end Table

end OrderedHash
