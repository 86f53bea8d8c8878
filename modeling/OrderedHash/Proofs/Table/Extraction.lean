import OrderedHash.Proofs.Table.Filtering
import OrderedHash.Proofs.Table.Ranges
import OrderedHash.Table.Extract

namespace OrderedHash

/-!
# What an extraction comes to

An extraction works with two cursors on a store that it changes as it goes along. What it
comes to is told without them, by an inspection of the range.

While an extraction is under way the store is made of the items kept, a gap of items that
are of no use any more, and the items ahead (`Extraction.Sweeps`). One visit of an item
takes this from the gap to the end of the kept items or puts it into the gap, so that
however often an extraction is resumed it makes one inspection of the range
(`inspect_add`). Ending it closes the gap (`Sweeps.finish_eq`). In all this is
`Table.step_extractUsing`.
-/

/-! ### The store of an extraction under way -/

namespace Extraction

variable {K V σ : Type} {test : Action (V × σ) Bool}

/-- The store is made of the items kept, a gap as long as the number of items handed out,
    the items ahead in the range and the items beyond it. -/
structure Sweeps (x : Extraction) (items : Array V) (kept gap ahead beyond : List V) : Prop
    extends Gapped items x.write x.read kept gap (ahead ++ beyond) where
  attached : x.attached
  stop_eq : x.stop = x.read + ahead.length
  removed_eq : x.removed = gap.length

variable {x : Extraction} {items : Array V} {kept gap ahead beyond : List V} {v : V}

/-- An extraction starts without a gap. -/
theorem ofRange_sweeps {t : Table V} {first last : Nat} (hle : first ≤ last)
    (hlast : last ≤ t.size) :
    ∃ x, ofRange t first last = .ok x ∧ Sweeps x t.items (t.items.toList.take first) []
      (t.itemsIn first last) (t.items.toList.drop last) := by
  have hsize : last ≤ t.items.toList.length := hlast
  have hfront : (t.items.toList.take first).length = first := by
    rw [List.length_take]
    omega
  have hin : (t.itemsIn first last).length = last - first := by
    rw [Table.itemsIn, Array.length_toList, Array.size_extract]
    exact congrArg (· - first) (min_eq_left hlast)
  refine ⟨_, if_pos ⟨hle, hlast⟩, ⟨t.items_parts hle, hfront.symm, hfront.symm⟩, rfl, ?_, rfl⟩
  rw [hin]
  exact (Nat.add_sub_cancel' hle).symm

namespace Sweeps

/-- The item that is visited may be changed. -/
theorem setRead (h : Sweeps x items kept gap (v :: ahead) beyond) (w : V) :
    Sweeps x (items.setIfInBounds x.read w) kept gap (w :: ahead) beyond where
  toGapped := h.toGapped.setRead w
  attached := h.attached
  stop_eq := h.stop_eq
  removed_eq := h.removed_eq

/-- The end of the range is no nearer after a visit. -/
theorem stop_eq_of_cons (h : Sweeps x items kept gap (v :: ahead) beyond) :
    x.stop = x.read + 1 + ahead.length := by
  have hstop := h.stop_eq
  rw [List.length_cons] at hstop
  omega

/-- An item that is handed out becomes a part of the gap. -/
theorem handOut (h : Sweeps x items kept gap (v :: ahead) beyond) :
    Sweeps x.handOut items kept (gap ++ [v]) ahead beyond where
  toGapped := h.toGapped.drop
  attached := h.attached
  stop_eq := h.stop_eq_of_cons
  removed_eq := by
    rw [List.length_append]
    exact congrArg (· + 1) h.removed_eq

/-- An item that is kept goes to the front of the gap, which moves on. -/
theorem keep (h : Sweeps x items kept gap (v :: ahead) beyond) :
    ∃ gap', Sweeps x.keep (if x.write = x.read then items else items.setIfInBounds x.write v)
      (kept ++ [v]) gap' ahead beyond := by
  obtain ⟨gap', hlen, hkeep⟩ := h.toGapped.keep
  exact ⟨gap', hkeep, h.attached, h.stop_eq_of_cons, h.removed_eq.trans hlen.symm⟩

end Sweeps

/-! ### Visits make an inspection -/

/-- An extraction has come from `kept` items and `removed` ones to where an inspection leads,
    in a table that still has the given index. -/
structure Reaches (index : Index) (kept : List V) (removed : Nat) (beyond : List V)
    (d : Inspection V σ) (y : (Extraction × Table V) × σ) : Prop where
  sweeps : ∃ gap, Sweeps y.1.1 y.1.2.items (kept ++ d.kept) gap d.rest beyond
  index_eq : y.1.2.index = index
  client_eq : y.2 = d.client
  removed_eq : y.1.1.removed = removed + d.passed.length

variable {index : Index} {removed : Nat}

/-- One inspection leads on from where another one led. -/
theorem Reaches.andThen {d : Inspection V σ} {f : List V → σ → Inspection V σ} {x : Extraction}
    {t : Table V} {s : σ} {y : (Extraction × Table V) × σ} (hfault : d.fault = none)
    (h : Reaches index kept removed beyond d ((x, t), s))
    (h' : Reaches t.index (kept ++ d.kept) x.removed beyond (f d.rest s) y) :
    Reaches index kept removed beyond (d.andThen f) y := by
  obtain rfl : s = d.client := h.client_eq
  obtain ⟨gap, hsweeps⟩ := h'.sweeps
  have hremoved := h'.removed_eq
  rw [List.append_assoc] at hsweeps
  rw [h.removed_eq, Nat.add_assoc] at hremoved
  refine ⟨⟨gap, ?_⟩, h'.index_eq.trans h.index_eq, ?_, ?_⟩
  · rw [Inspection.kept_andThen hfault, Inspection.andThen_of_none hfault]
    exact hsweeps
  · rw [Inspection.andThen_of_none hfault]
    exact h'.client_eq
  · rw [Inspection.passed_andThen hfault, List.length_append]
    exact hremoved

/-- An inspection that shows nothing leads nowhere. -/
theorem Sweeps.reaches_nil {t : Table V} (h : Sweeps x t.items kept gap ahead beyond) (s : σ) :
    Reaches t.index kept x.removed beyond ⟨[], ahead, none, s⟩ ((x, t), s) where
  sweeps := ⟨gap, by
    rw [show (⟨[], ahead, none, s⟩ : Inspection V σ).kept = [] from rfl, List.append_nil]
    exact h⟩
  index_eq := rfl
  client_eq := rfl
  removed_eq := rfl

/-- What `next` answers after an inspection for one item. -/
def outcome (d : Inspection V σ) : Except Fault (Option V) :=
  match d.fault with
  | some fault => .error fault
  | none => .ok d.passed.head?

theorem seek_eq (h : Sweeps x items kept gap ahead beyond) (index : Index) (s : σ) :
    ∃ x' items', x.seek test ahead.length items s =
        (outcome (inspect test (some 1) ahead s), x', items',
          (inspect test (some 1) ahead s).client) ∧
      Reaches index kept x.removed beyond (inspect test (some 1) ahead s)
        ((x', ⟨items', index⟩), (inspect test (some 1) ahead s).client) := by
  -- the induction follows the visits: each one moves the first of the items ahead
  induction ahead generalizing x items kept gap s with
  | nil =>
    rw [inspect_nil]
    exact ⟨x, items, rfl, h.reaches_nil (t := ⟨items, index⟩) s⟩
  | cons v ahead ih =>
    have hone : some 1 ≠ some 0 := by decide
    rw [List.length_cons, seek, h.getElem?_read]
    dsimp only
    rcases hstep : test.step (v, s) with ⟨e | passed, w, s'⟩
    · rw [inspect_of_error hone hstep]
      have hset := (h.setRead w).reaches_nil (t := ⟨_, index⟩) s'
      exact ⟨x, _, rfl, hset.sweeps, rfl, rfl, rfl⟩
    · rw [inspect_of_ok hone hstep]
      cases passed with
      | true =>
        rw [if_pos rfl, Option.map_some, inspect_zero]
        have hout := (h.setRead w).handOut.reaches_nil (t := ⟨_, index⟩) s'
        exact ⟨x.handOut, _, rfl, hout.sweeps, rfl, rfl, rfl⟩
      | false =>
        obtain ⟨gap', hkeep⟩ := (h.setRead w).keep
        obtain ⟨x', items', hseek, hreach⟩ := ih hkeep s'
        rw [if_neg Bool.false_ne_true]
        refine ⟨x', items', hseek, ?_, rfl, rfl, hreach.removed_eq⟩
        obtain ⟨gap', hsweeps⟩ := hreach.sweeps
        rw [List.append_assoc] at hsweeps
        exact ⟨gap', hsweeps⟩

/-- The next item is found by an inspection for one. -/
theorem step_next {t : Table V} (h : Sweeps x t.items kept gap ahead beyond) (s : σ) :
    ∃ y, (next test).step ((x, t), s) = (outcome (inspect test (some 1) ahead s), y) ∧
      Reaches t.index kept x.removed beyond (inspect test (some 1) ahead s) y := by
  have hleft : x.stop - x.read = ahead.length := by
    have := h.stop_eq
    omega
  obtain ⟨x', items', hseek, hreach⟩ := seek_eq h t.index s
  refine ⟨_, ?_, hreach⟩
  rw [next, Action.step_ofStep]
  dsimp only
  rw [hleft, hseek]

/-- A number of items are taken by an inspection for that number. -/
theorem take_eq (count : Nat) {t : Table V} (h : Sweeps x t.items kept gap ahead beyond) (s : σ) :
    ∃ y, take test count ((x, t), s) = ((inspect test (some count) ahead s).passed,
        (inspect test (some count) ahead s).fault, y) ∧
      Reaches t.index kept x.removed beyond (inspect test (some count) ahead s) y := by
  induction count generalizing x t kept gap ahead s with
  | zero =>
    rw [inspect_zero]
    exact ⟨_, rfl, h.reaches_nil s⟩
  | succ count ih =>
    have hsplit : some (count + 1) = Option.map₂ (· + ·) (some 1) (some count) :=
      congrArg some (Nat.add_comm count 1)
    obtain ⟨⟨⟨x₁, t₁⟩, s₁⟩, hnext, hreach⟩ := step_next h s
    obtain ⟨hle, hlt⟩ := length_passed_inspect test 1 ahead s
    have hrest := rest_inspect test (some 1) ahead s
    rw [hsplit, inspect_add, take, hnext]
    set d := inspect test (some 1) ahead s
    unfold outcome
    cases hfault : d.fault with
    | some e =>
      -- the test failed before any item had passed
      have hnone : d.passed = [] :=
        List.eq_nil_of_length_eq_zero (Nat.lt_one_iff.mp (hlt (by rw [hfault]; exact nofun)))
      rw [Inspection.andThen_of_fault hfault, hnone, hfault]
      exact ⟨_, rfl, hreach⟩
    | none =>
      cases hpassed : d.passed with
      | nil =>
        -- nothing is left that could be taken
        have hend : d.rest = [] := (hrest hfault).resolve_right (by simp [hpassed])
        obtain ⟨gap', hsweeps⟩ := hreach.sweeps
        have hstop : inspect test (some count) d.rest s₁ = ⟨[], d.rest, none, s₁⟩ := by
          rw [hend, inspect_nil]
        refine ⟨((x₁, t₁), s₁), ?_, hreach.andThen hfault (hstop ▸ hsweeps.reaches_nil s₁)⟩
        rw [Inspection.passed_andThen hfault, Inspection.andThen_of_none hfault, hpassed, hend,
          inspect_nil]
        rfl
      | cons v more =>
        have hmore : more = [] := by
          rw [hpassed, List.length_cons] at hle
          exact List.eq_nil_of_length_eq_zero (by omega)
        obtain ⟨gap', hsweeps⟩ := hreach.sweeps
        obtain ⟨y, htake, hreach'⟩ := ih hsweeps s₁
        refine ⟨y, ?_, hreach.andThen hfault hreach'⟩
        have hclient : s₁ = d.client := hreach.client_eq
        rw [Inspection.passed_andThen hfault, Inspection.andThen_of_none hfault, hpassed, hmore,
          ← hclient]
        dsimp only [List.head?_cons]
        rw [htake]
        rfl

/-! ### An extraction in use -/

/-- The number of items that an extraction is asked for in all. -/
def wanted : List Use → Option Nat
  | [] => some 0
  | .take count :: rest => Option.map₂ (· + ·) count (wanted rest)
  | .handOver :: rest => wanted rest

/-- However an extraction is used, it makes one inspection for all that it is asked for. -/
theorem useEach_eq (κ : Keying K V) (test : Action (V × σ) Bool) (uses : List Use) {t : Table V}
    (h : Sweeps x t.items kept gap ahead beyond) (s : σ) :
    ∃ y, useEach κ test uses ((x, t), s) = ((inspect test (wanted uses) ahead s).passed,
        (inspect test (wanted uses) ahead s).fault, y) ∧
      Reaches t.index kept x.removed beyond (inspect test (wanted uses) ahead s) y := by
  induction uses generalizing x t kept gap ahead s with
  | nil =>
    rw [wanted, inspect_zero]
    exact ⟨_, rfl, h.reaches_nil s⟩
  | cons use rest ih =>
    cases use with
    | take count =>
      have hcount : inspect test (some (count.getD (x.stop - x.read + 1))) ahead s =
          inspect test count ahead s := by
        cases count with
        | some n => rfl
        | none =>
          refine inspect_of_length_le ?_ s
          rw [Option.getD_none]
          have := h.stop_eq
          omega
      obtain ⟨⟨⟨x₁, t₁⟩, s₁⟩, htake, hreach⟩ := take_eq (count.getD (x.stop - x.read + 1)) h s
      rw [hcount] at htake hreach
      rw [wanted, inspect_add, useEach, htake]
      set d := inspect test count ahead s
      cases hfault : d.fault with
      | some e =>
        rw [Inspection.andThen_of_fault hfault, hfault]
        exact ⟨_, rfl, hreach⟩
      | none =>
        obtain ⟨gap', hsweeps⟩ := hreach.sweeps
        obtain ⟨y, hrest, hreach'⟩ := ih hsweeps s₁
        refine ⟨y, ?_, hreach.andThen hfault hreach'⟩
        have hclient : s₁ = d.client := hreach.client_eq
        rw [Inspection.passed_andThen hfault, Inspection.andThen_of_none hfault, ← hclient]
        dsimp only
        rw [hrest]
    | handOver =>
      -- what is left of the extraction has no table, and changes none when it ends
      have hleft : (x.handOver.2.finish κ t).2 = t := by
        rw [handOver, finish, if_pos (Or.inl rfl)]
      rw [useEach, wanted]
      dsimp only
      rw [hleft]
      exact ih h s

/-! ### The end of an extraction -/

/-- Items are moved down over a gap, which comes to lie behind them. -/
theorem moveDown_eq {front tail : List V} (h : items.toList = front ++ (gap ++ tail)) :
    ∃ junk, (moveDown tail.length (front.length + gap.length) front.length items).toList =
      front ++ (tail ++ junk) := by
  induction tail generalizing front gap items with
  | nil =>
    refine ⟨gap, ?_⟩
    rw [List.append_nil] at h
    exact h
  | cons v tail ih =>
    have hread : items[front.length + gap.length]? = some v := by
      rw [← Array.getElem?_toList, h, List.getElem?_append_right (by omega),
        Nat.add_sub_cancel_left, List.getElem?_append_right le_rfl, Nat.sub_self]
      rfl
    -- the item leaves its place to the gap
    have hset : (items.setIfInBounds front.length v).toList =
        (front ++ [v]) ++ ((gap ++ [v]).tail ++ tail) := by
      rw [Array.toList_setIfInBounds, h, List.set_append_right _ _ le_rfl, Nat.sub_self]
      cases gap <;> simp
    obtain ⟨junk, hdown⟩ := ih hset
    have hsource : (front ++ [v]).length + (gap ++ [v]).tail.length =
        front.length + gap.length + 1 := by
      rw [List.length_append, List.length_tail, List.length_append]
      simp only [List.length_singleton]
      omega
    rw [hsource, List.length_append] at hdown
    refine ⟨junk, ?_⟩
    rw [List.length_cons, moveDown, hread]
    rw [List.append_assoc] at hdown
    exact hdown

/-- An extraction ends with the items that were not handed out. -/
theorem Sweeps.finish_eq (κ : Keying K V) {t : Table V}
    (h : Sweeps x t.items kept gap ahead beyond) :
    (x.finish κ t).2 = t.compacted κ (kept ++ (ahead ++ beyond)).toArray := by
  have hsize : t.size = x.read + (ahead ++ beyond).length := h.size_eq
  have hread := h.read_eq
  have hwrite := h.write_eq
  rw [finish]
  dsimp only
  cases hgap : gap with
  | nil =>
    -- nothing was handed out, and the items are all there
    rw [hgap, List.length_nil] at hread
    rw [if_pos (Or.inr (hwrite.trans hread.symm))]
    have hitems : (kept ++ (ahead ++ beyond)).toArray = t.items := by
      rw [← Array.toList_inj, h.items_eq, hgap]
      rfl
    rw [Table.compacted, hitems, if_pos (show t.items.size = t.size from rfl)]
  | cons g gap' =>
    have hopen : ¬ (x.attached = false ∨ x.write = x.read) := by
      rw [hgap, List.length_cons] at hread
      rintro (hdetached | heq)
      · rw [h.attached] at hdetached
        cases hdetached
      · omega
    have hrest : t.size - x.read = (ahead ++ beyond).length := by omega
    obtain ⟨junk, hdown⟩ := moveDown_eq h.items_eq
    have hmoved : ((moveDown (t.size - x.read) x.read x.write t.items).take
        (x.write + (t.size - x.read))) = (kept ++ (ahead ++ beyond)).toArray := by
      rw [← Array.toList_inj, Array.take_eq_extract, Array.toList_extract,
        List.extract_eq_take_drop, List.drop_zero, Nat.sub_zero, hrest, hread, hwrite, hdown,
        ← List.append_assoc, ← List.length_append, List.take_left]
    rw [if_neg hopen, hmoved]

end Extraction

namespace Table

variable {K V σ : Type} {κ : Keying K V} {t : Table V} {first last : Nat}

/-- An invalid range is refused. -/
theorem step_extractUsing_of_invalid (h : ¬ (first ≤ last ∧ last ≤ t.size))
    (test : Action (V × σ) Bool) (uses : List Extraction.Use) (s : σ) :
    (extractUsing κ first last test uses).step (t, s) = (.error .invalidRange, (t, s)) := by
  unfold extractUsing Extraction.ofRange
  rw [Action.step_get_bind]
  dsimp only
  rw [if_neg h]
  rfl

/-- The items that an extraction leaves after an inspection of the range. -/
def left (t : Table V) (first last : Nat) (d : Inspection V σ) : Array V :=
  (t.items.toList.take first ++ d.kept ++ d.rest ++ t.items.toList.drop last).toArray

/-- An extraction makes one inspection of the range, answers the items that passed, and
    leaves the table of the others. -/
theorem step_extractUsing (h : first ≤ last ∧ last ≤ t.size) (test : Action (V × σ) Bool)
    (uses : List Extraction.Use) (s : σ) :
    (extractUsing κ first last test uses).step (t, s) =
      let d := inspect test (Extraction.wanted uses) (t.itemsIn first last) s
      (.ok (d.passed, d.passed.length, d.fault),
        (t.compacted κ (t.left first last d), d.client)) := by
  obtain ⟨x, hx, hstart⟩ := Extraction.ofRange_sweeps h.1 h.2
  obtain ⟨⟨⟨y, u⟩, s'⟩, huse, hreach⟩ := Extraction.useEach_eq κ test uses hstart s
  have hseen := length_inspect test (Extraction.wanted uses) (t.itemsIn first last) s
  set d := inspect test (Extraction.wanted uses) (t.itemsIn first last) s
  obtain rfl : s' = d.client := hreach.client_eq
  obtain ⟨gap, hsweeps⟩ := hreach.sweeps
  have hindex : u.index = t.index := hreach.index_eq
  have hremoved : y.removed = d.passed.length := by
    have hzero : x.removed = 0 := hstart.removed_eq
    rw [show y.removed = x.removed + d.passed.length from hreach.removed_eq, hzero, Nat.zero_add]
  -- the table has been changed in its items only, and has as many
  have hsize : u.size = t.size := by
    have hbefore := congrArg List.length hstart.items_eq
    have hafter := congrArg List.length hsweeps.items_eq
    have hgap : y.removed = gap.length := hsweeps.removed_eq
    have hparts := d.length_passed_add_kept
    simp only [List.length_append, Array.length_toList, List.length_nil] at hbefore hafter
    show u.items.size = t.items.size
    omega
  have hfinish : (y.finish κ u).2 = t.compacted κ (t.left first last d) := by
    rw [hsweeps.finish_eq κ, left, ← List.append_assoc, compacted, compacted]
    show (if _ = u.size then _ else _) = _
    rw [hsize, show ((y, u), d.client).1.2.index = t.index from hindex]
  unfold extractUsing
  rw [Action.step_get_bind]
  dsimp only
  rw [hx, Action.ofExcept, Action.step_pure_bind, huse]
  dsimp only
  rw [Action.step_set_bind, hfinish, hremoved]
  rfl

end Table

end OrderedHash
