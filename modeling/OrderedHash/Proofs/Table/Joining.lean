import OrderedHash.Proofs.Table.Adding

namespace OrderedHash

namespace Table

/-!
# Twins exchange the same items

What is appended, copied, moved or swapped between two tables is the same in two twins of
them. The tables of a pair need not know of each other.
-/

open OrderedHash.Action (Agree)

variable {K V : Type} {κ : Keying K V} {g : Variant K}

/-- What a table leaves behind whose items and buckets were taken over is empty. -/
theorem Coherent.leftBehind {t : Table V} (h : t.Coherent κ) (sharedStorage : Bool) :
    Coherent κ ⟨#[], (t.index.takeOver sharedStorage).2.clear⟩ := by
  unfold Index.takeOver
  cases sharedStorage with
  | false => exact of_indexes_zero (h.indexes.clear fun _ => 0)
  | true => exact of_indexes_zero ((Index.null_indexes _ fun _ => 0).clear fun _ => 0)

/-! ### Items that are given away -/

section GiveAway

variable (κ : Keying K V) (left : Remnant V)

/-- An item that is given away is added or refreshes another one, and something else is left in
    its place. If its key is refused it stays. -/
theorem step_giveAway_cases (v : V) (pos : Nat) (t other : Table V) :
    (∃ fault, (do let _ ← put κ v : Action (Table V) Unit).step t =
        (.error fault, ((put κ v).step t).2) ∧
      (giveAway κ left v pos).step (t, other) = (.error fault, (((put κ v).step t).2, other))) ∨
    ∃ rest, (do let _ ← put κ v : Action (Table V) Unit).step t = (.ok (), ((put κ v).step t).2) ∧
      (giveAway κ left v pos).step (t, other) =
        (.ok (), (((put κ v).step t).2, other.setItem pos rest)) := by
  rcases hput : (put κ v).step t with ⟨fault | ⟨p, old⟩, u⟩
  · refine Or.inl ⟨fault, Action.step_bind_of_error hput _, ?_⟩
    unfold giveAway
    rw [Action.step_bind, Action.step_onFst, hput]
  · refine Or.inr ⟨if old.isSome then left.refreshing v else left.added v,
      Action.step_bind_of_ok hput _, ?_⟩
    unfold giveAway
    rw [Action.step_bind, Action.step_onFst, hput]
    rfl

/-- The table that items are moved to does as if they were added to it, and the source keeps its
    index and its number of items. -/
theorem step_giveEach (vs : List (V × Nat)) (t other : Table V) :
    ∃ ys : Array V, ys.size = other.items.size ∧
      (Action.forEach (fun e => giveAway κ left e.1 e.2) vs).step (t, other) =
        (((Action.forEach (fun v => do let _ ← put κ v) (vs.map Prod.fst)).step t).1,
          (((Action.forEach (fun v => do let _ ← put κ v) (vs.map Prod.fst)).step t).2,
            { other with items := ys })) := by
  induction vs generalizing t other with
  | nil => exact ⟨other.items, rfl, rfl⟩
  | cons e vs ih =>
    rw [List.map_cons, Action.forEach, Action.forEach]
    rcases step_giveAway_cases κ left e.1 e.2 t other with
      ⟨fault, hadded, hgiven⟩ | ⟨rest, hadded, hgiven⟩
    · refine ⟨other.items, rfl, ?_⟩
      rw [Action.step_bind_of_error hgiven, Action.step_bind_of_error hadded]
    · obtain ⟨ys, hsize, hrest⟩ := ih ((put κ e.1).step t).2 (other.setItem e.2 rest)
      refine ⟨ys, hsize.trans Array.size_setIfInBounds, ?_⟩
      rw [Action.step_bind_of_ok hgiven, Action.step_bind_of_ok hadded]
      exact hrest

theorem step_append_other (t other : Table V) : (append κ left .other).step (t, other) =
    (Action.forEach (fun e => giveAway κ left e.1 e.2) other.items.toList.zipIdx >>= fun _ =>
      modify fun p => (p.1, p.2.clear)).step (t.reserve κ (t.size + other.size), other) := by
  unfold append
  rw [Action.step_get_bind]
  dsimp only
  rw [Action.step_set_bind]

/-- To append another table is to extend by its items. The other table is cleared after all of
    them were moved; if that is cut short some are moved and others are not, and only its index
    is what it was. -/
theorem step_append_cases (t other : Table V) :
    (((extend κ other.items.toList true).step t).1 = .ok () ∧
      (append κ left .other).step (t, other) =
        (.ok (), (((extend κ other.items.toList true).step t).2, other.clear))) ∨
    ∃ fault, ∃ ys : Array V, ys.size = other.items.size ∧
      ((extend κ other.items.toList true).step t).1 = .error fault ∧
      (append κ left .other).step (t, other) = (.error fault,
        (((extend κ other.items.toList true).step t).2, { other with items := ys })) := by
  -- room is made for as many items as the source has, and then they are put in turn
  have hextend : (extend κ other.items.toList true).step t =
      (Action.forEach (fun v => do let _ ← put κ v) other.items.toList).step
        (t.reserve κ (t.size + other.size)) := by
    unfold extend
    rw [if_pos rfl, Action.step_modify_bind, Array.length_toList]
    rfl
  obtain ⟨ys, hsize, hgiven⟩ := step_giveEach κ left other.items.toList.zipIdx
    (t.reserve κ (t.size + other.size)) other
  rw [List.zipIdx_map_fst, ← hextend] at hgiven
  cases hanswer : ((extend κ other.items.toList true).step t).1 with
  | ok _ =>
    rw [hanswer] at hgiven
    refine Or.inl ⟨rfl, ?_⟩
    rw [step_append_other, Action.step_bind_of_ok hgiven]
    rfl
  -- the source is left with what was not moved yet, and with remnants
  | error fault =>
    rw [hanswer] at hgiven
    refine Or.inr ⟨fault, ys, hsize, rfl, ?_⟩
    rw [step_append_other, Action.step_bind_of_error hgiven]

theorem step_giveAway_fst (v : V) (pos : Nat) (p : Table V × Table V) :
    ((giveAway κ left v pos).step p).2.1 = ((put κ v).step p.1).2 := by
  rcases step_giveAway_cases κ left v pos p.1 p.2 with ⟨_, -, h⟩ | ⟨_, -, h⟩ <;>
    exact congrArg (fun r => r.2.1) h

end GiveAway

namespace Twin

variable {t t' other other' : Table V} {κ₂ : Keying K V} {g₂ : Variant K}

/-- Twins that items are moved to, each from a source, and sources with the same items. -/
structure Giving (κ : Keying K V) (g : Variant K) (p p' : Table V × Table V) : Prop where
  fst : Twin κ g p.1 p'.1
  items : p'.2.items = p.2.items

theorem giveAway {p p' : Table V × Table V} (h : Giving κ g p p') (left : Remnant V) (v : V)
    (pos : Nat) (hsmall : ((Table.giveAway κ left v pos).step p).2.1.size < Node.movingPosition) :
    Agree (Giving κ g) ((Table.giveAway κ left v pos).step p)
      ((Table.giveAway (κ.hashedBy g) left v pos).step p') := by
  rw [step_giveAway_fst] at hsmall
  have hput := h.fst.put v hsmall
  have hadded : Agree (Giving κ g) ((Action.onFst (Table.put κ v)).step p)
      ((Action.onFst (Table.put (κ.hashedBy g) v)).step p') :=
    ⟨hput.answer, hput.state, h.items⟩
  unfold Table.giveAway
  refine hadded.bind (fun _ _ _ _ h => h) fun answer q q' _ hq => Agree.modify ⟨hq.fst, ?_⟩
  show q'.2.items.setIfInBounds _ _ = q.2.items.setIfInBounds _ _
  rw [hq.items]

/-- As many items are moved from either source. -/
theorem giveEach {p p' : Table V × Table V} (h : Giving κ g p p') (left : Remnant V)
    (vs : List (V × Nat))
    (hsmall : ((Action.forEach (fun e => Table.giveAway κ left e.1 e.2) vs).step p).2.1.size <
      Node.movingPosition) :
    Agree (Giving κ g) ((Action.forEach (fun e => Table.giveAway κ left e.1 e.2) vs).step p)
      ((Action.forEach (fun e => Table.giveAway (κ.hashedBy g) left e.1 e.2) vs).step p') := by
  refine Agree.forEach (P := fun p => p.1.size < Node.movingPosition)
    (fun e p p' h he => giveAway h left e.1 e.2 he) (fun e p he => ?_) vs h hsmall
  rw [step_giveAway_fst] at he
  exact (put_grows e.1).small p.1 he

/-- What is left of twins after one of two tables was appended to the other one: twins of those
    that were appended to, and sources with the same items, which are twins once they are
    cleared. -/
structure Appended (κ : Keying K V) (g : Variant K) (κ₂ : Keying K V) (g₂ : Variant K)
    (p p' : Table V × Table V) : Prop extends Giving κ g p p' where
  cleared : Twin κ₂ g₂ p.2.clear p'.2.clear

/-- Appending agrees. If it is not cut short the sources are twins. -/
theorem append (h : Twin κ g t t') (hother : Twin κ₂ g₂ other other') (left : Remnant V)
    (hsmall : ((Table.append κ left .other).step (t, other)).2.1.size < Node.movingPosition) :
    Agree (Appended κ g κ₂ g₂) ((Table.append κ left .other).step (t, other))
        ((Table.append (κ.hashedBy g) left .other).step (t', other')) ∧
      (((Table.append κ left .other).step (t, other)).1 = .ok () →
        Twin κ₂ g₂ ((Table.append κ left .other).step (t, other)).2.2
          ((Table.append (κ.hashedBy g) left .other).step (t', other')).2.2) := by
  have hgiving : Agree (Giving κ g) ((Table.append κ left .other).step (t, other))
      ((Table.append (κ.hashedBy g) left .other).step (t', other')) := by
    rw [step_append_other] at hsmall ⊢
    rw [step_append_other, hother.items]
    refine Agree.bind (giveEach ⟨h.reserve _ _, hother.items⟩ left _ ?_) (fun _ _ _ _ h => h)
      fun _ _ _ _ hq => Agree.modify ⟨hq.fst, rfl⟩
    rwa [Action.step_bind_modify_fst] at hsmall
  -- both are cut short at the same item or neither is, and the indexes of the sources stay
  rcases step_append_cases κ left t other with ⟨-, hr⟩ | ⟨fault, ys, -, -, hr⟩ <;>
    rcases step_append_cases (κ.hashedBy g) left t' other' with
      ⟨-, hr'⟩ | ⟨fault', ys', -, -, hr'⟩ <;>
    rw [hr, hr'] at hgiving ⊢
  · exact ⟨⟨hgiving.answer, hgiving.state, hother.clear.clear⟩, fun _ => hother.clear⟩
  · cases hgiving.answer
  · cases hgiving.answer
  · exact ⟨⟨hgiving.answer, hgiving.state, hother.clear⟩, nofun⟩

/-- What moved tables leave behind are twins. -/
theorem leftBehind (h : Twin κ g t t') (sharedStorage : Bool) :
    Twin κ g ⟨#[], (t.index.takeOver sharedStorage).2.clear⟩
      ⟨#[], (t'.index.takeOver sharedStorage).2.clear⟩ :=
  ⟨h.admits, rfl, .empty κ g.Holds, h.left.leftBehind sharedStorage,
    h.right.leftBehind sharedStorage⟩

end Twin

end Table

end OrderedHash
