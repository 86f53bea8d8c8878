import OrderedHash.Proofs.Runs.Consistency
import OrderedHash.Proofs.Table.Placement

namespace OrderedHash

/-!
# Keys put in a place in containers of a run

A key is put before the item at a position, or at that very position. If it is absent it is
inserted there. If it is present the stored key is taken out and put back, with the new value
if it is one of a map. In all cases the other items keep their order, and a position that is
out of range is refused without a change (`World.placements_of_reachable`).
-/

variable {K V T σ α : Type}

namespace Table

/-- An item stands among others at a position, where its key `k` is found. -/
structure Puts (κ : Keying K V) (others : List V) (pos : Nat) (k : K) (v : V) (u : Table V) :
    Prop where
  items_eq : u.items.toList = others.insertIdx pos v
  /-- The others are left in their order when the item is taken away. -/
  others_eq : u.items.toList.eraseIdx pos = others
  found : u.find κ k = some pos
  consistent : u.Consistent κ

/-- An item is put before the one at position `index` of a table. The answer is made of the
    position of its key and of the item that it refreshed. -/
structure InsertsBefore (κ : Keying K V) (index : Nat) (v : V) (answer : Nat → Option V → α)
    (run : Action (Table V) α) (t : Table V) : Prop where
  absent : κ.refusal (κ.key v) = none → index ≤ t.size → Lacks κ t (κ.key v) →
    t.size + 1 < 2 ^ 48 - 2 → ∃ u, run.step t = (.ok (answer index none), u) ∧
      Puts κ t.items.toList index (κ.key v) v u
  /-- The item goes down by one place if its key leaves one before the index. -/
  present : κ.refusal (κ.key v) = none → index ≤ t.size → ∀ (pos : Nat) (stored : V),
    t.items[pos]? = some stored → κ.same (κ.key stored) (κ.key v) →
      let target := if pos < index then index - 1 else index
      ∃ u, run.step t = (.ok (answer target (some stored)), u) ∧
        Puts κ (t.items.toList.eraseIdx pos) target (κ.key v) (κ.refresh stored v) u
  out_of_range : t.size < index → run.step t = (.error .positionOutOfRange, t)

/-- An item is put at position `index` of a table. The answer is made of the item that it
    refreshed. -/
structure ShiftInserts (κ : Keying K V) (index : Nat) (v : V) (answer : Option V → α)
    (run : Action (Table V) α) (t : Table V) : Prop where
  absent : κ.refusal (κ.key v) = none → index ≤ t.size → Lacks κ t (κ.key v) →
    t.size + 1 < 2 ^ 48 - 2 → ∃ u, run.step t = (.ok (answer none), u) ∧
      Puts κ t.items.toList index (κ.key v) v u
  present : κ.refusal (κ.key v) = none → index < t.size → ∀ (pos : Nat) (stored : V),
    t.items[pos]? = some stored → κ.same (κ.key stored) (κ.key v) →
      ∃ u, run.step t = (.ok (answer (some stored)), u) ∧
        Puts κ (t.items.toList.eraseIdx pos) index (κ.key v) (κ.refresh stored v) u
  absent_out_of_range : κ.refusal (κ.key v) = none → t.size < index → Lacks κ t (κ.key v) →
    run.step t = (.error .positionOutOfRange, t)
  /-- A key that is present cannot be put behind the end. -/
  present_out_of_range : κ.refusal (κ.key v) = none → t.size ≤ index → ∀ (pos : Nat) (stored : V),
    t.items[pos]? = some stored → κ.same (κ.key stored) (κ.key v) →
      run.step t = (.error .positionOutOfRange, t)

variable {κ : Keying K V} {t u : Table V} {v stored : V} {index pos : Nat}

theorem Coherent.puts (hu : u.Coherent κ) (hκ : κ.Lawful) {others : List V} {k : K}
    (hitems : u.items.toList = others.insertIdx pos v) (hpos : pos ≤ others.length)
    (hsame : κ.same (κ.key v) k) : Puts κ others pos k v u where
  items_eq := hitems
  others_eq := by rw [hitems, List.eraseIdx_insertIdx_self]
  found := by
    refine (hu.find_eq_some hκ k pos).mpr ⟨v, ?_, hsame⟩
    rw [← Array.getElem?_toList, hitems, List.getElem?_insertIdx_self, if_pos hpos]
  consistent := hu.consistent hκ

/-- An item whose key is absent is put where it is inserted. -/
theorem Coherent.puts_insertAt (h : t.Coherent κ) (hκ : κ.Lawful) (hindex : index ≤ t.size)
    (hfind : t.find κ (κ.key v) = none) (hsmall : t.size + 1 < 2 ^ 48 - 2) :
    Puts κ t.items.toList index (κ.key v) v (t.insertAt κ index (κ.hash (κ.key v)) v) := by
  have hitems := toList_insertAt κ t index (κ.hash (κ.key v)) v
  have hsize : (t.insertAt κ index (κ.hash (κ.key v)) v).size < Node.movingPosition := by
    show (t.insertAt κ index (κ.hash (κ.key v)) v).items.size < _
    rw [← Array.length_toList, hitems]
    exact lt_of_le_of_lt List.length_insertIdx_le_succ hsmall
  exact (h.insertAt hκ hindex hfind hsize).puts hκ hitems hindex (hκ.refl _)

/-- An item that is refreshed is put where its key is put back. -/
theorem Coherent.puts_refreshed (hu : u.Coherent κ) (hκ : κ.Lawful) (hr : κ.Refreshes)
    {target : Nat} (hstored : t.items[pos]? = some stored)
    (hsame : κ.same (κ.key stored) (κ.key v)) (htarget : target < t.size)
    (hitems : u.items.toList =
      (t.items.toList.eraseIdx pos).insertIdx target (κ.refresh stored v)) :
    Puts κ (t.items.toList.eraseIdx pos) target (κ.key v) (κ.refresh stored v) u := by
  have hpos : pos < t.items.toList.length := (Array.getElem?_eq_some_iff.mp hstored).1
  refine hu.puts hκ hitems ?_ ?_
  · rw [List.length_eraseIdx_of_lt hpos]
    exact Nat.le_sub_one_of_lt htarget
  · rwa [hr.key]

/-- An item is put before another one of a coherent table. -/
theorem Coherent.insertsBefore (h : t.Coherent κ) (hκ : κ.Lawful) (hr : κ.Refreshes)
    (answer : Nat → Option V → α) :
    InsertsBefore κ index v answer
      (do let (pos, old) ← Table.insertBefore κ index v; return answer pos old) t where
  absent haccepted hindex hlacks hsmall := by
    have hfind := (h.find_eq_none hκ (κ.key v)).mpr hlacks
    refine ⟨_, ?_, h.puts_insertAt hκ hindex hfind hsmall⟩
    rw [Action.step_bind_of_ok (step_insertBefore_of_absent haccepted hindex hfind)]
    rfl
  present haccepted hindex pos stored hstored hsame := by
    have hfind := (h.find_eq_some hκ (κ.key v) pos).mpr ⟨stored, hstored, hsame⟩
    obtain ⟨u, hstep, hu, hitems⟩ :=
      h.step_insertBefore_of_find hr haccepted hindex hfind hstored
    -- without the stored item itself there is one position less to go to
    have htarget : placeBefore index pos < t.size := by
      have hpos : pos < t.size := (Array.getElem?_eq_some_iff.mp hstored).1
      unfold placeBefore
      split <;> omega
    refine ⟨u, ?_, hu.puts_refreshed hκ hr hstored hsame htarget hitems⟩
    rw [Action.step_bind_of_ok hstep]
    rfl
  out_of_range hindex := Action.step_bind_of_error (step_insertBefore_of_lt hindex) _

/-- An item is put at a position of a coherent table. -/
theorem Coherent.shiftInserts (h : t.Coherent κ) (hκ : κ.Lawful) (hr : κ.Refreshes)
    (answer : Option V → α) :
    ShiftInserts κ index v answer (return answer (← Table.shiftInsert κ index v)) t where
  absent haccepted hindex hlacks hsmall := by
    have hfind := (h.find_eq_none hκ (κ.key v)).mpr hlacks
    refine ⟨_, ?_, h.puts_insertAt hκ hindex hfind hsmall⟩
    rw [Action.step_bind_of_ok (step_shiftInsert_of_absent haccepted hindex hfind)]
    rfl
  present haccepted hindex pos stored hstored hsame := by
    have hfind := (h.find_eq_some hκ (κ.key v) pos).mpr ⟨stored, hstored, hsame⟩
    obtain ⟨u, hstep, hu, hitems⟩ :=
      h.step_shiftInsert_of_find hr haccepted hindex hfind hstored
    refine ⟨u, ?_, hu.puts_refreshed hκ hr hstored hsame hindex hitems⟩
    rw [Action.step_bind_of_ok hstep]
    rfl
  absent_out_of_range haccepted hindex hlacks := by
    have hfind := (h.find_eq_none hκ (κ.key v)).mpr hlacks
    exact Action.step_bind_of_error (step_shiftInsert_of_absent_of_lt haccepted hindex hfind) _
  present_out_of_range haccepted hindex pos stored hstored hsame := by
    have hfind := (h.find_eq_some hκ (κ.key v) pos).mpr ⟨stored, hstored, hsame⟩
    exact Action.step_bind_of_error (step_shiftInsert_of_find_of_le haccepted hindex hfind) _

end Table

namespace World

variable {κ : Hashing K}

/-- After every run on maps or on sets a key is put in every container where it is to be. -/
theorem placements_of_reachable (hκ : κ.Lawful) :
    (∀ {w : World K (K × T) σ}, Reachable (Map.interface K T) κ w →
      ∀ (i index : Nat) (k : K) (x : T),
        Table.InsertsBefore κ.map index (k, x) (fun pos old => (pos, old.map Prod.snd))
            (Map.insertBefore κ index k x) (w.table i) ∧
          Table.ShiftInserts κ.map index (k, x) (fun old => old.map Prod.snd)
            (Map.shiftInsert κ index k x) (w.table i)) ∧
    ∀ {w : World K K σ}, Reachable (Set.interface K) κ w →
      ∀ (i index : Nat) (k : K),
        Table.InsertsBefore κ.set index k (fun pos old => (pos, old.isNone))
            (Set.insertBefore κ index k) (w.table i) ∧
          Table.ShiftInserts κ.set index k (fun old => old.isNone)
            (Set.shiftInsert κ index k) (w.table i) := by
  constructor
  · intro w h i index k x
    have hcoherent := h.coherent_map hκ i
    have hr := Keying.refreshes_map (T := T) κ
    exact ⟨hcoherent.insertsBefore hκ hr _, hcoherent.shiftInserts hκ hr _⟩
  · intro w h i index k
    have hcoherent := h.coherent_set hκ i
    have hr := Keying.refreshes_set κ
    exact ⟨hcoherent.insertsBefore hκ hr _, hcoherent.shiftInserts hκ hr _⟩

/-- The first key of a map is put behind the last one, and comes to stand in its place; the
    last key of a set cannot be put behind itself. -/
theorem placements_of_reachable_last :
    (∃ u, (Map.insertBefore Hashing.constant 2 5 50).step
          ((withTwo .constant (start ())).table 0) = (.ok (1, some 1), u) ∧
        Table.Puts Hashing.constant.map [(9, 2)] 1 5 (5, 50) u) ∧
      (Set.shiftInsert Hashing.constant 2 9).step (collided.table 0) =
        (.error .positionOutOfRange, collided.table 0) := by
  have hconstant : Hashing.constant.Lawful := Hashing.lawful_ofHasher _
  constructor
  · have hputs := ((placements_of_reachable hconstant).1 withTwo_reachable 0 2 5 50).1.present rfl
      (by decide +kernel) 0 (5, 1) (by decide +kernel) rfl
    rw [items_withTwo] at hputs
    exact hputs
  · exact ((placements_of_reachable (T := Nat) hconstant).2 collided_reachable 0 2
      9).2.present_out_of_range rfl (by decide +kernel) 1 9 (by decide +kernel) rfl

end World

end OrderedHash
