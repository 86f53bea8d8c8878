import OrderedHash.Proofs.Table.Changes
import OrderedHash.Proofs.Table.Inspection

namespace OrderedHash

/-!
# What filtering a table comes to

While a store is filtered in place it is `Gapped`: it is made of the items kept, a gap of
items that are of no use any more, and the items ahead. A visit takes the first item ahead
into the gap, or from there to the end of the items kept.

So the walk with its two positions makes one inspection of the store (`Sieve.sift_eq`), after
which the items ahead are those that the test has not answered for. In all this is
`Table.step_retain`.
-/

/-! ### Stores with a gap -/

section Gapped

variable {V : Type}

/-- A store is made of items that are kept, a gap, and items ahead. The gap begins at one
    position and ends at another. -/
structure Gapped (items : Array V) (write read : Nat) (kept gap ahead : List V) : Prop where
  items_eq : items.toList = kept ++ (gap ++ ahead)
  write_eq : write = kept.length
  read_eq : read = kept.length + gap.length

namespace Gapped

variable {items : Array V} {write read : Nat} {kept gap ahead : List V} {v : V}

theorem size_eq (h : Gapped items write read kept gap ahead) :
    items.size = read + ahead.length := by
  rw [h.read_eq, ← Array.length_toList, h.items_eq, List.length_append, List.length_append,
    Nat.add_assoc]

/-- The item at the end of the gap is the first of those ahead. -/
theorem getElem?_read (h : Gapped items write read kept gap (v :: ahead)) :
    items[read]? = some v := by
  rw [← Array.getElem?_toList, h.items_eq, h.read_eq, ← List.append_assoc,
    List.getElem?_append_right (by rw [List.length_append]), List.length_append, Nat.sub_self]
  rfl

/-- The first item ahead may be changed. -/
theorem setRead (h : Gapped items write read kept gap (v :: ahead)) (w : V) :
    Gapped (items.setIfInBounds read w) write read kept gap (w :: ahead) where
  items_eq := by
    rw [Array.toList_setIfInBounds, h.items_eq, h.read_eq, List.set_append_right _ _ (by omega),
      Nat.add_sub_cancel_left, List.set_append_right _ _ le_rfl, Nat.sub_self]
    rfl
  write_eq := h.write_eq
  read_eq := h.read_eq

/-- The first item ahead becomes a part of the gap. -/
theorem drop (h : Gapped items write read kept gap (v :: ahead)) :
    Gapped items write (read + 1) kept (gap ++ [v]) ahead where
  items_eq := by rw [h.items_eq, List.append_assoc]; rfl
  write_eq := h.write_eq
  read_eq := by
    rw [List.length_append]
    exact congrArg (· + 1) h.read_eq

/-- The first item ahead goes to the front of the gap, which moves on. -/
theorem keep (h : Gapped items write read kept gap (v :: ahead)) :
    ∃ gap', gap'.length = gap.length ∧
      Gapped (if write = read then items else items.setIfInBounds write v) (write + 1) (read + 1)
        (kept ++ [v]) gap' ahead := by
  have hread := h.read_eq
  have hwrite := h.write_eq
  cases gap with
  | nil =>
    rw [List.length_nil] at hread
    rw [if_pos (hwrite.trans hread.symm)]
    refine ⟨[], rfl, ?_, ?_, ?_⟩
    · rw [h.items_eq, List.append_assoc]
      rfl
    · rw [List.length_append]
      exact congrArg (· + 1) hwrite
    · rw [List.length_append]
      exact congrArg (· + 1) hread
  | cons g gap =>
    rw [List.length_cons] at hread
    rw [if_neg (by omega)]
    -- the item stays behind in its place as a part of the gap
    refine ⟨gap ++ [v], ?_, ?_, ?_, ?_⟩
    · rw [List.length_append]
      rfl
    · rw [Array.toList_setIfInBounds, h.items_eq, hwrite, List.set_append_right _ _ le_rfl,
        Nat.sub_self]
      simp
    · rw [List.length_append]
      exact congrArg (· + 1) hwrite
    · rw [List.length_append, List.length_append, List.length_singleton]
      omega

/-- The items kept are those before the gap. -/
theorem take_write (h : Gapped items write read kept gap ahead) :
    items.take write = kept.toArray := by
  rw [← Array.toList_inj, Array.take_eq_extract, Array.toList_extract, List.extract_eq_take_drop,
    List.drop_zero, Nat.sub_zero, h.items_eq, h.write_eq, List.take_left]

end Gapped

end Gapped

/-! ### The walk over a store -/

namespace Sieve

variable {V σ : Type} {w : Sieve V} {kept gap ahead : List V} {v : V}

/-- The first item ahead is kept. -/
theorem gapped_keep (h : Gapped w.items w.write w.read kept gap (v :: ahead)) :
    ∃ gap', Gapped w.keep.items w.keep.write w.keep.read (kept ++ [v]) gap' ahead := by
  obtain ⟨gap', -, hkeep⟩ := h.keep
  refine ⟨gap', ?_⟩
  rw [keep, h.getElem?_read]
  exact hkeep

/-- All items ahead are kept. -/
theorem gapped_keepEach (h : Gapped w.items w.write w.read kept gap ahead) :
    ∃ gap', Gapped (w.keepEach ahead.length).items (w.keepEach ahead.length).write
      (w.keepEach ahead.length).read (kept ++ ahead) gap' [] := by
  induction ahead generalizing w kept gap with
  | nil =>
    rw [List.append_nil]
    exact ⟨gap, h⟩
  | cons v ahead ih =>
    obtain ⟨gap', hkeep⟩ := gapped_keep h
    rw [List.append_cons]
    exact ih hkeep

/-- The walk makes one inspection of the items ahead. -/
theorem sift_eq (test : Action (V × σ) Bool)
    (h : Gapped w.items w.write w.read kept gap ahead) (s : σ) :
    let d := inspect test none ahead s
    ∃ w' gap', sift test ahead.length w s = (d.outcome, w', d.client) ∧
      w'.read = w.read + d.seen.length ∧
      Gapped w'.items w'.write w'.read (kept ++ d.passed) gap' d.rest := by
  have hnone : (none : Option Nat) ≠ some 0 := nofun
  -- the induction follows the visits: each one moves the first of the items ahead
  induction ahead generalizing w kept gap s with
  | nil =>
    rw [inspect_nil]
    refine ⟨w, gap, rfl, rfl, ?_⟩
    show Gapped _ _ _ (kept ++ []) gap []
    rwa [List.append_nil]
  | cons v ahead ih =>
    rw [List.length_cons, sift, h.getElem?_read]
    dsimp only
    rcases hstep : test.step (v, s) with ⟨e | passed, u, s'⟩
    · rw [inspect_of_error hnone hstep]
      refine ⟨_, gap, rfl, rfl, ?_⟩
      show Gapped _ _ _ (kept ++ []) gap (u :: ahead)
      rw [List.append_nil]
      exact h.setRead u
    · rw [inspect_of_ok hnone hstep, Option.map_none, ite_self]
      have hseen (w' : Sieve V) (n : Nat) (hread : w'.read = w.read + 1 + n) :
          w'.read = w.read + (n + 1) := by omega
      cases passed with
      | true =>
        obtain ⟨gap', hkeep⟩ := gapped_keep (w := ⟨_, w.read, w.write⟩) (h.setRead u)
        obtain ⟨w', gap'', hsift, hread, hgapped⟩ := ih hkeep s'
        rw [List.append_assoc] at hgapped
        exact ⟨w', gap'', hsift, hseen w' _ hread, hgapped⟩
      | false =>
        obtain ⟨w', gap'', hsift, hread, hgapped⟩ :=
          ih (w := ⟨_, w.read + 1, w.write⟩) (h.setRead u).drop s'
        exact ⟨w', gap'', hsift, hseen w' _ hread, hgapped⟩

end Sieve

/-! ### Filters of a table -/

namespace Table

variable {K V σ : Type}

/-- A filter makes one inspection of the items, and leaves the table of those that passed
    and those that the test has not answered for. -/
theorem step_retain (κ : Keying K V) (keep : Action (V × σ) Bool) (t : Table V) (s : σ) :
    (retain κ keep).step (t, s) =
      let d := inspect keep none t.items.toList s
      (d.outcome.map fun _ => d.kept.length,
        (t.compacted κ (d.passed ++ d.rest).toArray, d.client)) := by
  have hstart : Gapped t.items 0 0 [] [] t.items.toList := ⟨rfl, rfl, rfl⟩
  obtain ⟨w, gap, hsift, hread, hgapped⟩ := Sieve.sift_eq keep (w := ⟨t.items, 0, 0⟩) hstart s
  obtain ⟨gap', hkept⟩ := Sieve.gapped_keepEach hgapped
  have hseen : _ = t.size := length_inspect keep none t.items.toList s
  have hrest := rest_inspect keep none t.items.toList s
  set d := inspect keep none t.items.toList s
  have hparts := d.length_passed_add_kept
  have hahead : t.size - w.read = d.rest.length := by
    have hread : w.read = 0 + d.seen.length := hread
    omega
  have hwrite : (w.keepEach d.rest.length).write = d.passed.length + d.rest.length :=
    hkept.write_eq.trans List.length_append
  -- the number is answered only if all items were answered for
  have hanswer : (d.outcome.map fun _ => t.size - (w.keepEach d.rest.length).write) =
      d.outcome.map fun _ => d.kept.length := by
    unfold Inspection.outcome
    cases hfault : d.fault with
    | some e => rfl
    | none =>
      have hend : d.rest.length = 0 :=
        List.length_eq_zero_iff.mpr ((hrest hfault).resolve_right nofun)
      have hcount : t.size - (w.keepEach d.rest.length).write = d.kept.length := by omega
      rw [hcount]
  have hsift : Sieve.sift keep t.size ⟨t.items, 0, 0⟩ s = (d.outcome, w, d.client) := hsift
  rw [retain, Action.step_ofStep]
  dsimp only
  rw [hsift]
  dsimp only
  rw [hahead, hanswer, hkept.take_write]
  rfl

/-- To remove the items that pass is to keep those that do not. -/
theorem step_eraseIf (κ : Keying K V) (drop : Action (V × σ) Bool) (t : Table V) (s : σ) :
    (eraseIf κ drop).step (t, s) =
      let d := inspect drop none t.items.toList s
      (d.outcome.map fun _ => d.passed.length,
        (t.compacted κ (d.kept ++ d.rest).toArray, d.client)) := by
  rw [eraseIf, step_retain, inspect_not]
  dsimp only
  rw [Inspection.passed_negated, Inspection.kept_negated]
  rfl

end Table

end OrderedHash
