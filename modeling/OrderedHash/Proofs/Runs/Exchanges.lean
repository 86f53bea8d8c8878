import OrderedHash.Proofs.Runs.Consistency

namespace OrderedHash

/-!
# Turns that exchange containers

A turn changes few containers (`Turn.changes`) and leaves the others alone
(`Turn.table_actEach`), and their hash functions stay with them (`Turn.former_of_notMem`). What
copying, moving and swapping leave is put down as an update of the containers by number.

A container that was moved from is as good as a new one, whatever turns are taken from there
(`World.Alongside.twin`, `World.ReachableEach.twin_setTable`).
-/

open Function (update)

variable {K V σ : Type}

namespace Turn

variable {I : Interface K V} {α : Type}

/-- The containers that a turn may change. -/
def changes : Turn I σ α → List Nat
  | .ask .. | .openEntry .. | .openIndexed .. | .relate .. | .sameItems .. | .precedes .. => []
  | .use i _ | .create i _ | .callEntry i _ | .callIndexed i _ | .copy i _ => [i]
  | .append _ i j | .splitOff i _ j | .move _ i j | .swap i j => [i, j]
  | .combine _ _ _ k => [k]

/-! What the exchanges come to. -/

section Exchange

variable (κs : Nat → Hashing K) (w : World K V σ)

/-- A copy replaces one table. -/
theorem table_copy (i j : Nat) :
    (((Turn.copy i j : Turn I σ Unit).actEach κs).step w).2.table =
      update w.table i (w.table j) := by
  simp only [actEach, Action.step_modify, World.table_setTable]
  by_cases hij : i = j
  · rw [hij, Origin.between_self]
    simp [Table.copyFrom]
  · rw [Origin.between_of_ne hij]
    simp [Table.copyFrom]

/-- A move replaces one table and leaves the other one empty. -/
theorem table_move (sharedStorage : Bool) {i j : Nat} (hij : i ≠ j) :
    (((Turn.move sharedStorage i j : Turn I σ Unit).actEach κs).step w).2.table =
      update (update w.table j ⟨#[], ((w.table j).index.takeOver sharedStorage).2.clear⟩) i
        (w.table j) := by
  simp only [actEach, Action.step_modify, World.table_setTable, Origin.between_of_ne hij]
  rfl

/-- A container that is moved to itself stays as it is. -/
theorem table_move_self (sharedStorage : Bool) (i : Nat) :
    (((Turn.move sharedStorage i i : Turn I σ Unit).actEach κs).step w).2.table = w.table := by
  simp [actEach, World.table_setTable, Origin.between_self, Table.moveFrom]

/-- A swap replaces two tables, each by the other. -/
theorem table_swap (i j : Nat) :
    (((Turn.swap i j : Turn I σ Unit).actEach κs).step w).2.table =
      update (update w.table j (w.table i)) i (w.table j) := by
  simp only [actEach, Action.step_modify, World.table_setTable]
  by_cases hij : i = j
  · rw [hij, Origin.between_self]
    simp [Table.swapWith]
  · rw [Origin.between_of_ne hij]
    rfl

end Exchange

end Turn

/-- No handle is open on a container that was moved from. -/
theorem World.closed_move {I : Interface K V} (κs : Nat → Hashing K) (w : World K V σ)
    (sharedStorage : Bool) {i j : Nat} (hij : i ≠ j) :
    (((Turn.move sharedStorage i j : Turn I σ Unit).actEach κs).step w).2.setTable j
      ((((Turn.move sharedStorage i j : Turn I σ Unit).actEach κs).step w).2.table j) =
        (((Turn.move sharedStorage i j : Turn I σ Unit).actEach κs).step w).2 := by
  generalize hw' : (((Turn.move sharedStorage i j : Turn I σ Unit).actEach κs).step w).2 = w'
  have hcell : ∃ t, w'.cell j = ⟨t, .consumed, .consumed⟩ := by
    rw [← hw']
    exact ⟨_, (Function.update_of_ne hij.symm _ _).trans (Function.update_self _ _ _)⟩
  obtain ⟨t, ht⟩ := hcell
  rw [World.setTable, World.table, ht]
  exact ht ▸ w'.setCell_self j

section Fits

variable {I : Interface K V} {w : World K V σ} (h : w.Fits) (κs : Nat → Hashing K)

/-- A world of which one container is replaced by a small one. -/
theorem World.Fits.update_table {tables : Nat → Table V} (h : ∀ k, (tables k).size < 2 ^ 48 - 2)
    (i : Nat) {t : Table V} (ht : t.size < 2 ^ 48 - 2) (k : Nat) :
    (update tables i t k).size < 2 ^ 48 - 2 := by
  by_cases hk : k = i
  · rw [hk, Function.update_self]
    exact ht
  · rw [Function.update_of_ne hk]
    exact h k

include h

/-- No container gets larger than one was by a copy. -/
theorem World.Fits.copy (i j : Nat) :
    (((Turn.copy i j : Turn I σ Unit).actEach κs).step w).2.Fits := by
  unfold World.Fits
  rw [Turn.table_copy]
  exact update_table h i (h j)

/-- No container gets larger than one was by a move. -/
theorem World.Fits.move (sharedStorage : Bool) (i j : Nat) :
    (((Turn.move sharedStorage i j : Turn I σ Unit).actEach κs).step w).2.Fits := by
  unfold World.Fits
  by_cases hij : i = j
  · rw [hij, Turn.table_move_self]
    exact h
  · rw [Turn.table_move κs w sharedStorage hij]
    refine update_table (update_table h j ?_) i (h j)
    exact (by decide : 0 < 2 ^ 48 - 2)

/-- No container gets larger than one was by a swap. -/
theorem World.Fits.swap (i j : Nat) :
    (((Turn.swap i j : Turn I σ Unit).actEach κs).step w).2.Fits := by
  unfold World.Fits
  rw [Turn.table_swap]
  exact update_table (update_table h j (h i)) i (h j)

end Fits

/-! ### Containers that turns leave alone -/

namespace Turn

variable {I : Interface K V} {α : Type}

/-- Other containers hold what they held. -/
theorem table_actEach (κs : Nat → Hashing K) (turn : Turn I σ α) (w : World K V σ) {k : Nat}
    (hk : k ∉ turn.changes) : ((turn.actEach κs).step w).2.table k = w.table k := by
  cases turn with
  | ask i query => rfl
  | use i op =>
    have hk : k ≠ i := by simpa [changes] using hk
    simp [actEach, World.table_setClient, World.table_setTable, hk]
  | create i count =>
    have hk : k ≠ i := by simpa [changes] using hk
    simp [actEach, World.table_setTable, hk]
  -- to open a handle replaces the cell, but not the table in it
  | openEntry i key =>
    simp only [actEach, Action.step_get_bind]
    cases Entry.ofKey (I.keying (κs i)) (w.table i) key with
    | error fault => rfl
    | ok e =>
      have htable : (w.setCell i { w.cell i with entry := e }).table = w.table :=
        World.table_setCell rfl
      exact congrFun htable k
  | callEntry i call =>
    have hk : k ≠ i := by simpa [changes] using hk
    simp [actEach, World.table_setClient, World.table_setCell_eq, hk]
  | openIndexed i pos =>
    simp only [actEach, Action.step_get_bind]
    cases IndexedEntry.ofPosition (w.table i) pos with
    | error fault => rfl
    | ok e =>
      have htable : (w.setCell i { w.cell i with indexed := e }).table = w.table :=
        World.table_setCell rfl
      exact congrFun htable k
  | callIndexed i call =>
    have hk : k ≠ i := by simpa [changes] using hk
    simp [actEach, World.table_setCell_eq, hk]
  | append left i j =>
    have hk : k ≠ i ∧ k ≠ j := by simpa [changes] using hk
    simp [actEach, World.table_setTable, hk]
  | splitOff i pos j =>
    have hk : k ≠ i ∧ k ≠ j := by simpa [changes] using hk
    simp only [actEach, Action.step_get_bind]
    rcases (Table.splitOff (I.keying (κs i)) pos).step (w.table i) with ⟨fault | tail, t⟩
    · rfl
    · show ((w.setTable i t).setTable j tail).table k = w.table k
      simp [World.table_setTable, hk]
  | copy i j =>
    have hk : k ≠ i := by simpa [changes] using hk
    rw [table_copy, Function.update_of_ne hk]
  | move sharedStorage i j =>
    have hk : k ≠ i ∧ k ≠ j := by simpa [changes] using hk
    simp [actEach, World.table_setTable, hk]
  | swap i j =>
    have hk : k ≠ i ∧ k ≠ j := by simpa [changes] using hk
    rw [table_swap, Function.update_of_ne hk.1, Function.update_of_ne hk.2]
  | combine algebra i j l =>
    have hk : k ≠ l := by simpa [changes] using hk
    simp only [actEach, Action.step_get_bind]
    cases I.combine (κs i) (κs j) (w.table i) (w.table j) algebra with
    | error fault => rfl
    | ok t =>
      show (w.setTable l t).table k = w.table k
      rw [World.table_setTable_of_ne _ hk]
  | relate relation i j =>
    simp only [actEach, Action.step_get_bind, Action.step_ofExcept]
  | sameItems equal i j => rfl
  | precedes less i j => rfl

/-- What a program clears after a turn is among what the turn changed. -/
theorem mem_changes_of_spoils {turn : Turn I σ α} {answer : Except Fault α} {k : Nat}
    (h : turn.Spoils answer k) : k ∈ turn.changes := by
  cases turn with
  | append left i j =>
    cases answer with
    | ok a => exact h.elim
    | error fault =>
      obtain rfl : k = j := h
      exact List.mem_cons_of_mem _ (List.mem_singleton_self k)
  | _ => exact h.elim

/-- A table that a turn does not change is the same where the program goes on. -/
theorem table_nextEach (κs : Nat → Hashing K) (turn : Turn I σ α) (w : World K V σ) {k : Nat}
    (hk : k ∉ turn.changes) : (turn.nextEach κs w).table k = w.table k :=
  (turn.table_recover _ fun hspoils => hk (mem_changes_of_spoils hspoils)).trans
    (turn.table_actEach κs w hk)

/-- Other containers have the hash functions that they had. -/
theorem former_of_notMem (turn : Turn I σ α) (answer : Except Fault α) {k : Nat}
    (hk : k ∉ turn.changes) : turn.former answer k = k := by
  cases turn with
  -- only a tail that was split off has a hash function from elsewhere
  | splitOff i pos j =>
    have hk : k ≠ i ∧ k ≠ j := by simpa [changes] using hk
    cases answer with
    | error fault => rfl
    | ok a => exact Function.update_of_ne hk.2 _ _
  | copy i j =>
    have hk : k ≠ i := by simpa [changes] using hk
    exact Function.update_of_ne hk _ _
  | move sharedStorage i j =>
    have hk : k ≠ i ∧ k ≠ j := by simpa [changes] using hk
    exact Function.update_of_ne hk.1 _ _
  | swap i j =>
    have hk : k ≠ i ∧ k ≠ j := by simpa [changes] using hk
    exact (Function.update_of_ne hk.1 _ _).trans (Function.update_of_ne hk.2 _ _)
  | combine algebra i j l =>
    have hk : k ≠ l := by simpa [changes] using hk
    cases answer with
    | error fault => rfl
    | ok a => exact Function.update_of_ne hk _ _
  | _ => rfl

end Turn

/-! ### Two runs of the same turns -/

namespace World

/-- The worlds that two runs of the same turns can arrive at from given worlds, and the
    containers from which theirs have their hash functions. -/
inductive Alongside (I : Interface K V) (κs κs' : Nat → Hashing K) (w w' : World K V σ) :
    (Nat → Nat) → World K V σ → World K V σ → Prop where
  | here : Alongside I κs κs' w w' id w w'
  | turn {α : Type} {f : Nat → Nat} {v v' : World K V σ} (h : Alongside I κs κs' w w' f v v')
      (refuse : Nat → K → Option Fault) (turn : Turn I σ α)
      (hfits : ((turn.actEach fun i => (κs (f i)).refusing (refuse i)).step v).2.Fits) :
      Alongside I κs κs' w w'
        (fun i => f (turn.former
          ((turn.actEach fun i => (κs (f i)).refusing (refuse i)).step v).1 i))
        (turn.nextEach (fun i => (κs (f i)).refusing (refuse i)) v)
        (turn.nextEach (fun i => (κs' (f i)).refusing (refuse i)) v')

variable {I : Interface K V} {κs κs' : Nat → Hashing K} {w w' v v' : World K V σ} {f : Nat → Nat}

/-- Runs alongside each other arrive at worlds of twins. -/
theorem Alongside.twin (h : Alongside I κs κs' w w' f v v')
    (hw : Twin I κs (fun i => (κs' i).variant) w w') (hsame : ∀ i, (κs' i).same = (κs i).same) :
    Twin I (fun i => κs (f i)) (fun i => (κs' (f i)).variant) v v' := by
  induction h with
  | here => exact hw
  | turn _ refuse turn hfits ih => exact (ih.turnEach (fun i => hsame _) refuse turn hfits).2

/-- In the place of an empty container on which no handle is open there might be a new one, with
    any hash function for the same equality of keys. -/
theorem ReachableEach.twin_setTable (h : w.ReachableEach I κs) {j : Nat}
    (hempty : (w.table j).items = #[]) (hclosed : w.setTable j (w.table j) = w) (load : LoadFactor)
    {κ : Hashing K} (hκ : κ.Lawful) (hsame : κ.same = (κs j).same) :
    Twin I κs (fun i => (update κs j κ i).variant) w (w.setTable j (.empty load)) := by
  have hself := h.twin
  have hadmits := I.admits (hself.table j).admits.lawful hκ hsame
  -- an empty table is the twin of a new one under any hash function of the same equality
  have hnew : Table.Twin (I.keying (κs j)) κ.variant (w.table j) (.empty load) :=
    ⟨hadmits, hempty.symm, hempty ▸ .empty _ _, (hself.table j).left, .empty _ load⟩
  have hworld : Twin I κs (fun i => (update κs j κ i).variant) (w.setTable j (w.table j))
      (w.setTable j (.empty load)) := by
    refine ⟨fun k => ?_, rfl⟩
    show Cell.Twin _ _ (update w.cell j _ k) (update w.cell j _ k)
    by_cases hk : k = j
    · subst hk
      simp only [Function.update_self]
      exact .closed hnew
    · simp only [Function.update_of_ne hk]
      exact hself.cell k
  rwa [hclosed] at hworld

end World

end OrderedHash
