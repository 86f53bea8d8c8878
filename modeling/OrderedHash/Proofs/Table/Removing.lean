import OrderedHash.Proofs.Table.Extraction
import OrderedHash.Proofs.Table.Twin

namespace OrderedHash

/-!
# Twins lose the same items

Items are removed one by one, by ranges, or by a test that is shown each item. A test may
change the items but not their keys; whether it ends or fails, the items left have keys of
the table in their order (`answered_keys`, `left_keys`).
-/

namespace Table

open OrderedHash.Action (Agree Beside)

variable {K V σ : Type}

/-! ### Single items and ranges -/

/-- A range that was drained started at a position of the table that is left, or at its end. -/
theorem le_of_step_drain {κ : Keying K V} {t u : Table V} {first last : Nat} {removed : List V}
    (h : (drain κ first last).step t = (.ok removed, u)) : first ≤ u.size := by
  by_cases hrange : first ≤ last ∧ last ≤ t.size
  · obtain ⟨hle, hlast⟩ := hrange
    rw [step_drain hle hlast] at h
    cases h
    have hsize : last ≤ t.items.toList.length := hlast
    show first ≤ (t.removeRange κ first last).items.size
    rw [← Array.length_toList, toList_removeRange, List.length_append, List.length_take]
    omega
  · unfold drain at h
    rw [Action.step_get_bind, Action.step_bind_of_error (step_eraseRange_of_invalid hrange)] at h
    cases h

namespace Twin

variable {κ : Keying K V} {g : Variant K} {t t' : Table V}

/-- The item at a position of twins is taken out alike. -/
theorem takeAt (h : Twin κ g t t') (way : Removal) (pos : Nat) :
    Agree (Twin κ g) ((Table.takeAt κ way pos).step t)
      ((Table.takeAt (κ.hashedBy g) way pos).step t') := by
  unfold Table.takeAt
  rw [Action.step_get_bind, Action.step_get_bind, h.items]
  cases hv : t.items[pos]? with
  | none => exact Agree.pure h none
  | some v =>
    have hpos : pos < t.size := (Array.getElem?_eq_some_iff.mp hv).1
    exact (Agree.modify (h.removeAt way hpos)).map fun _ => some v

/-- The item with a key is taken out of twins alike. -/
theorem takeKey (h : Twin κ g t t') (way : Removal) (k : K) :
    Agree (Twin κ g) ((Table.takeKey κ way k).step t)
      ((Table.takeKey (κ.hashedBy g) way k).step t') := by
  unfold Table.takeKey
  rw [Action.step_get_bind, Action.step_get_bind, h.lookup_eq]
  refine Agree.ofExcept h fun found _ => ?_
  cases found with
  | none => exact Agree.pure h none
  | some pos => exact h.takeAt way pos

/-- The last item is taken out of twins alike. -/
theorem pop (h : Twin κ g t t') :
    Agree (Twin κ g) ((Table.pop κ).step t) ((Table.pop (κ.hashedBy g)).step t') := by
  unfold Table.pop
  rw [Action.step_get_bind, Action.step_get_bind, h.size_eq]
  exact h.takeAt .swap (t.size - 1)

/-- A range of twins is erased alike. -/
theorem eraseRange (h : Twin κ g t t') (first last : Nat) :
    Agree (Twin κ g) ((Table.eraseRange κ first last).step t)
      ((Table.eraseRange (κ.hashedBy g) first last).step t') := by
  unfold Table.eraseRange checkRange
  rw [Action.step_get_bind, Action.step_get_bind, h.size_eq]
  refine Agree.demand h fun hrange => ?_
  obtain ⟨hle, hlast⟩ := of_decide_eq_true hrange
  exact Agree.modify (h.removeRange hle hlast)

/-- A range of twins is drained alike. -/
theorem drain (h : Twin κ g t t') (first last : Nat) :
    Agree (Twin κ g) ((Table.drain κ first last).step t)
      ((Table.drain (κ.hashedBy g) first last).step t') := by
  unfold Table.drain
  rw [Action.step_get_bind, Action.step_get_bind, h.itemsIn_eq]
  exact (h.eraseRange first last).map fun _ => t.itemsIn first last

/-- Twins are truncated alike. -/
theorem truncate (h : Twin κ g t t') (count : Nat) :
    Agree (Twin κ g) ((Table.truncate κ count).step t)
      ((Table.truncate (κ.hashedBy g) count).step t') := by
  unfold Table.truncate
  rw [Action.step_get_bind, Action.step_get_bind, h.size_eq]
  dsimp only
  split
  · exact h.eraseRange count t.size
  · exact Agree.pure h ()

/-- The two parts of a split table are twins of those of its twin. -/
theorem splitOff (h : Twin κ g t t') (pos : Nat) :
    (∃ e, (Table.splitOff κ pos).step t = (.error e, t) ∧
        (Table.splitOff (κ.hashedBy g) pos).step t' = (.error e, t')) ∨
      ∃ u u' r r', (Table.splitOff κ pos).step t = (.ok r, u) ∧
        (Table.splitOff (κ.hashedBy g) pos).step t' = (.ok r', u') ∧
          Twin κ g u u' ∧ Twin κ g r r' := by
  unfold Table.splitOff
  rw [Action.step_get_bind, Action.step_get_bind, h.size_eq]
  by_cases hpos : pos ≤ t.size
  · rw [decide_eq_true hpos]
    exact Or.inr ⟨_, _, _, _, rfl, rfl, h.removeRange hpos le_rfl, h.splitPart pos _ _⟩
  · rw [decide_eq_false hpos]
    exact Or.inl ⟨_, rfl, rfl⟩

end Twin

/-! ### Removing by a test -/

/-- A test that leaves the key of the item it is shown. -/
def KeepsKey (κ : Keying K V) {α : Type} (test : Action (V × σ) α) : Prop :=
  ∀ s, κ.key (test.step s).2.1 = κ.key s.1

section KeepsKey

variable {κ : Keying K V} {test : Action (V × σ) Bool}

/-- The items that were answered for and those left over have the keys of the list. -/
theorem keys_inspect (htest : KeepsKey κ test) (wanted : Option Nat) (vs : List V) (s : σ) :
    ((inspect test wanted vs s).seen.map Prod.fst ++ (inspect test wanted vs s).rest).map κ.key =
      vs.map κ.key := by
  induction vs generalizing wanted s with
  | nil =>
    rw [inspect_nil]
    rfl
  | cons v rest ih =>
    have hkey := htest (v, s)
    by_cases hzero : wanted = some 0
    · rw [hzero, inspect_zero]
      rfl
    · -- the test may change the item, but not its key
      rcases hstep : test.step (v, s) with ⟨e | passed, w, s'⟩
      · rw [hstep] at hkey
        rw [inspect_of_error hzero hstep]
        exact congrArg (· :: rest.map κ.key) hkey
      · rw [hstep] at hkey
        rw [inspect_of_ok hzero hstep]
        exact congrArg₂ List.cons hkey (ih _ s')

/-- The items with one of the answers, and those left over, have keys of the list in its order. -/
theorem answered_keys (htest : KeepsKey κ test) (wanted : Option Nat) (answer : Bool) (vs : List V)
    (s : σ) : (((inspect test wanted vs s).answered answer ++
      (inspect test wanted vs s).rest).map κ.key).Sublist (vs.map κ.key) := by
  rw [← keys_inspect htest wanted vs s]
  exact ((List.filter_sublist.map Prod.fst).append_right _).map κ.key

/-- So have the items that an extraction leaves. -/
theorem left_keys (htest : KeepsKey κ test) (t : Table V) {first last : Nat} (hle : first ≤ last)
    (wanted : Option Nat) (s : σ) :
    ((t.left first last (inspect test wanted (t.itemsIn first last) s)).toList.map κ.key).Sublist
      (t.items.toList.map κ.key) := by
  have hkeys := answered_keys htest wanted false (t.itemsIn first last) s
  have hparts := congrArg (List.map κ.key) (t.items_parts hle)
  rw [List.map_append, List.map_append] at hparts
  rw [Inspection.answered_false] at hkeys
  rw [left, List.toList_toArray, hparts, List.append_assoc, List.append_assoc,
    ← List.append_assoc _ _ (List.drop _ _), List.map_append, List.map_append]
  exact (List.Sublist.refl _).append (hkeys.append (List.Sublist.refl _))

end KeepsKey

end Table

namespace Table.Twin

open OrderedHash.Action (Agree Beside)

variable {K V σ : Type} {κ : Keying K V} {g : Variant K} {t t' : Table V}

/-- The items of twins that pass a test are retained alike. -/
theorem retain (h : Twin κ g t t') {keep : Action (V × σ) Bool} (hkeep : KeepsKey κ keep) (s : σ) :
    Agree (Beside (Twin κ g)) ((Table.retain κ keep).step (t, s))
      ((Table.retain (κ.hashedBy g) keep).step (t', s)) := by
  have hkeys := answered_keys hkeep none true t.items.toList s
  rw [Inspection.answered_true] at hkeys
  rw [step_retain, step_retain, h.items]
  exact ⟨rfl, ⟨h.compacted hkeys, rfl⟩⟩

/-- The items of twins that pass a test are erased alike. -/
theorem eraseIf (h : Twin κ g t t') {drop : Action (V × σ) Bool} (hdrop : KeepsKey κ drop) (s : σ) :
    Agree (Beside (Twin κ g)) ((Table.eraseIf κ drop).step (t, s))
      ((Table.eraseIf (κ.hashedBy g) drop).step (t', s)) := by
  refine h.retain (fun v => ?_) s
  rw [Action.step_map_snd]
  exact hdrop v

/-- The items of twins that pass a test are extracted alike, however the extraction is used. -/
theorem extractUsing (h : Twin κ g t t') (first last : Nat) {test : Action (V × σ) Bool}
    (htest : KeepsKey κ test) (uses : List Extraction.Use) (s : σ) :
    Agree (Beside (Twin κ g)) ((Table.extractUsing κ first last test uses).step (t, s))
      ((Table.extractUsing (κ.hashedBy g) first last test uses).step (t', s)) := by
  by_cases hrange : first ≤ last ∧ last ≤ t.size
  · have hrange' : first ≤ last ∧ last ≤ t'.size := h.size_eq ▸ hrange
    rw [step_extractUsing hrange, step_extractUsing hrange', h.itemsIn_eq]
    -- both inspect the same items, and what is left of them is compacted in either table
    have hleft : t'.left first last = t.left (σ := σ) first last := by
      unfold Table.left
      rw [h.items]
    rw [hleft]
    exact ⟨rfl, ⟨h.compacted (left_keys htest t hrange.1 _ s), rfl⟩⟩
  · have hrange' : ¬ (first ≤ last ∧ last ≤ t'.size) := h.size_eq ▸ hrange
    rw [step_extractUsing_of_invalid hrange, step_extractUsing_of_invalid hrange']
    exact ⟨rfl, h.beside s⟩

/-- The items of twins that pass a test are extracted alike, however many are asked for at a time.
    -/
theorem extractIf (h : Twin κ g t t') (first last : Nat) {test : Action (V × σ) Bool}
    (htest : KeepsKey κ test) (requests : List (Option Nat)) (s : σ) :
    Agree (Beside (Twin κ g)) ((Table.extractIf κ first last test requests).step (t, s))
      ((Table.extractIf (κ.hashedBy g) first last test requests).step (t', s)) :=
  h.extractUsing first last htest _ s

end Table.Twin

end OrderedHash
