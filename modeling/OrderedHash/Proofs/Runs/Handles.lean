import OrderedHash.Proofs.Table.Joining
import OrderedHash.Table.Entry

namespace OrderedHash

/-!
# Calls on handles

A handle is used by calls (`Entry.Call`, `IndexedEntry.Call`). The functions that the
caller passes to them come with what the types of the program promise: one that is shown
an item keeps its key (`Visitor`, `Edit`), and one that makes an item for a key gives it
that key (`Maker`, `Supplier`).

A handle is right for its table if it waits for an absent key, or designates an item. Two
handles on twins that are both right agree on every call, and are right again after it
(`Entry.Call.agree`, `IndexedEntry.Call.agree`).
-/

open OrderedHash.Action (Agree Beside)

variable {K V σ α : Type}

/-! ### Functions of the caller -/

/-- A function that is shown an item and may change it, though not its key. -/
structure Visitor (key : V → K) (σ α : Type) where
  visit : Action (V × σ) α
  keeps : ∀ s, key (visit.step s).2.1 = key s.1

/-- A change of an item that keeps its key. -/
structure Edit (key : V → K) where
  edit : V → V
  keeps : ∀ v, key (edit v) = key v

/-- A function that makes an item for a key, and may fail. -/
structure Maker (key : V → K) (σ : Type) where
  make : K → Action σ V
  gives : ∀ {k s v s'}, (make k).step s = (.ok v, s') → key v = k

/-- A function that makes an item for a key. -/
structure Supplier (key : V → K) where
  make : K → V
  gives : ∀ k, key (make k) = k

/-! ### Handles that follow their items -/

/-- Handles of any kind are right after a reordering of their tables if they are so on
    tables of the same size, and at the position at which their items arrive. -/
theorem reorder_agree {E : Type} {κ : Keying K V} {g : Variant K}
    {R : E × Table V → E × Table V → Prop} {s s' : E × Table V} {x x' : Action (Table V) Unit}
    {e : E} {target : Nat} (hx : Agree (Table.Twin κ g) (x.step s.2) (x'.step s'.2))
    (hsize : ∀ r u, x.step s.2 = (r, u) → u.size = s.2.size ∧ (r = .ok () → target < s.2.size))
    (hstay : ∀ {u u'}, Table.Twin κ g u u' → u.size = s.2.size → R (s.1, u) (s'.1, u'))
    (harrive : ∀ {u u'}, Table.Twin κ g u u' → target < u.size → R (e, u) (e, u')) :
    Agree R ((do Action.onSnd x; modify fun p => (e, p.2) : Action (E × Table V) Unit).step s)
      ((do Action.onSnd x'; modify fun p => (e, p.2) : Action (E × Table V) Unit).step s') := by
  -- the reordering itself, in which each handle stays what it was
  have hfirst : Agree (fun p p' => Table.Twin κ g p.2 p'.2 ∧ p.1 = s.1 ∧ p'.1 = s'.1)
      ((Action.onSnd x : Action (E × Table V) Unit).step s) ((Action.onSnd x').step s') :=
    ⟨hx.answer, hx.state, rfl, rfl⟩
  refine hfirst.bind (fun fault w w' hstep hw => ?_) fun _ w w' hstep hw => Agree.modify ?_
  · obtain ⟨hw, he, he'⟩ := hw
    obtain ⟨-, hstep⟩ := Action.of_step_onSnd_eq hstep
    have hright := hstay hw (hsize _ _ hstep).1
    rwa [← he, ← he'] at hright
  · obtain ⟨-, hstep⟩ := Action.of_step_onSnd_eq hstep
    obtain ⟨hwsize, htarget⟩ := hsize _ _ hstep
    exact harrive hw.1 (hwsize.symm ▸ htarget rfl)

/-! ### Handles on keys -/

namespace Entry

/-- The calls on a handle on a key, with the types of their answers. -/
inductive Call (key : V → K) (σ : Type) : Type → Type 1 where
  | isOccupied : Call key σ Bool
  | isVacant : Call key σ Bool
  | index : Call key σ Nat
  | item : Call key σ V
  | key : Call key σ K
  | modifyItem (f : Edit key) : Call key σ Unit
  | orInsertWith (make : Maker key σ) : Call key σ V
  | andModify (f : Visitor key σ Unit) : Call key σ Unit
  | insertEntry (make : Supplier key) : Call key σ Unit
  | insertSortedBy (less : K → K → Action σ Bool) (make : Supplier key) : Call key σ Unit
  | shiftInsert (target : Nat) (make : Supplier key) : Call key σ Unit
  | remove (way : Table.Removal) : Call key σ V
  | moveIndex (target : Nat) : Call key σ Unit
  | swapIndices (other : Nat) : Call key σ Unit

/-- What a call does to the handle and its table, and to the state of the caller. -/
def Call.run (κ : Keying K V) : Call κ.key σ α → Action ((Entry K × Table V) × σ) α
  | .isOccupied => return (← get).1.1.isOccupied
  | .isVacant => return (← get).1.1.isVacant
  | .index => do Action.ofExcept ((← get).1.1.index (← get).1.2)
  | .item => do Action.ofExcept ((← get).1.1.item (← get).1.2)
  | .key => do Action.ofExcept ((← get).1.1.key κ (← get).1.2)
  | .modifyItem f => Action.onFst (Entry.modifyItem f.edit)
  | .orInsertWith make => Entry.orInsertWith κ make.make
  | .andModify f => Entry.andModify f.visit
  | .insertEntry make => Action.onFst (Entry.insertEntry κ make.make)
  | .insertSortedBy less make => Entry.insertSortedBy κ less make.make
  | .shiftInsert target make => Action.onFst (Entry.shiftInsert κ target make.make)
  | .remove way => Action.onFst (Entry.remove κ way)
  | .moveIndex target => Action.onFst (Entry.moveIndex κ target)
  | .swapIndices other => Action.onFst (Entry.swapIndices κ other)

/-- Handles on twins that are both right: on one absent key, each with its own hash value,
    or at one position. -/
inductive Twin (κ : Keying K V) (g : Variant K) (t : Table V) : Entry K → Entry K → Prop where
  | vacant {k : K} (hheld : g.Holds k) (h : t.find κ k = none) :
      Twin κ g t (.vacant k (κ.hash k)) (.vacant k (g.hash k))
  | occupied {p : Nat} (h : p < t.size) : Twin κ g t (.occupied p) (.occupied p)
  | consumed : Twin κ g t .consumed .consumed

/-- Handles that are right for their tables, which are twins. -/
structure Held (κ : Keying K V) (g : Variant K) (s s' : Entry K × Table V) : Prop where
  table : Table.Twin κ g s.2 s'.2
  entry : Twin κ g s.2 s.1 s'.1

variable {κ : Keying K V} {g : Variant K} {t t' : Table V} {e e' : Entry K}

/-! ### Opening a handle -/

/-- No handle is opened on a key on which the hash function fails. -/
theorem ofKey_of_refusal {k : K} {fault : Fault} (h : κ.refusal k = some fault) :
    ofKey κ t k = .error fault := by
  unfold ofKey
  rw [Table.accept_of_refusal h]
  rfl

/-- The handle on a stored key is on its position. -/
theorem ofKey_of_find {k : K} {pos : Nat} (h : κ.refusal k = none)
    (hfind : t.find κ k = some pos) : ofKey κ t k = .ok (.occupied pos) := by
  have hstored : t.findHash κ (κ.hash k) k = some pos := hfind
  unfold ofKey
  rw [Table.accept_of_none h]
  simp only [bind, Except.bind, hstored]
  rfl

/-- The handle on a key that is not stored keeps the key and its hash value. -/
theorem ofKey_of_absent {k : K} (h : κ.refusal k = none) (hfind : t.find κ k = none) :
    ofKey κ t k = .ok (.vacant k (κ.hash k)) := by
  have hstored : t.findHash κ (κ.hash k) k = none := hfind
  unfold ofKey
  rw [Table.accept_of_none h]
  simp only [bind, Except.bind, hstored]
  rfl

/-- Opening a handle on a key of twins fails in both, or gives handles that are right. -/
theorem ofKey_twin (h : Table.Twin κ g t t') (k : K) :
    (∃ fault, ofKey κ t k = .error fault ∧ ofKey (κ.hashedBy g) t' k = .error fault) ∨
      ∃ e e', ofKey κ t k = .ok e ∧ ofKey (κ.hashedBy g) t' k = .ok e' ∧ Twin κ g t e e' := by
  -- the hash functions fail on the same keys, and the tables hold the same ones
  cases hrefusal : κ.refusal k with
  | some fault =>
    exact Or.inl ⟨fault, ofKey_of_refusal hrefusal,
      ofKey_of_refusal (κ.refusal_hashedBy g hrefusal)⟩
  | none =>
    have hrefusal' := κ.refusal_hashedBy g hrefusal
    have hfind' := h.find_eq k
    cases hfind : t.find κ k with
    | some pos =>
      exact Or.inr ⟨_, _, ofKey_of_find hrefusal hfind,
        ofKey_of_find hrefusal' (hfind'.trans hfind),
        .occupied (h.left.lt_of_find h.admits.lawful hfind)⟩
    | none =>
      exact Or.inr ⟨_, _, ofKey_of_absent hrefusal hfind,
        ofKey_of_absent hrefusal' (hfind'.trans hfind), .vacant (h.admits.holds k hrefusal) hfind⟩

/-! ### What handles answer -/

namespace Held

variable {s s' : Entry K × Table V}

/-- Handles on twins are occupied alike. -/
theorem isOccupied_eq (h : Held κ g s s') : s'.1.isOccupied = s.1.isOccupied := by
  obtain ⟨e, t⟩ := s
  obtain ⟨e', t'⟩ := s'
  cases h.entry <;> rfl

/-- Handles on twins are vacant alike. -/
theorem isVacant_eq (h : Held κ g s s') : s'.1.isVacant = s.1.isVacant := by
  obtain ⟨e, t⟩ := s
  obtain ⟨e', t'⟩ := s'
  cases h.entry <;> rfl

/-- Handles on twins have the same position. -/
theorem position_eq (h : Held κ g s s') : s'.1.position = s.1.position := by
  obtain ⟨e, t⟩ := s
  obtain ⟨e', t'⟩ := s'
  cases h.entry <;> rfl

/-- Handles on twins answer the same index, also where the key is not stored. -/
theorem index_eq (h : Held κ g s s') : s'.1.index s'.2 = s.1.index s.2 := by
  obtain ⟨e, t⟩ := s
  obtain ⟨e', t'⟩ := s'
  cases h.entry with
  | vacant hheld hfind => exact congrArg Except.ok h.table.size_eq
  | occupied hp => rfl
  | consumed => rfl

/-- Handles on twins answer the same item. -/
theorem item_eq (h : Held κ g s s') : s'.1.item s'.2 = s.1.item s.2 := by
  unfold item
  rw [h.position_eq]
  cases s.1.position with
  | error e => rfl
  | ok p => exact h.table.itemAt_eq p

/-- Handles on twins answer the same key. -/
theorem key_eq (h : Held κ g s s') : s'.1.key (κ.hashedBy g) s'.2 = s.1.key κ s.2 := by
  obtain ⟨e, t⟩ := s
  obtain ⟨e', t'⟩ := s'
  cases h.entry with
  | vacant hheld hfind => rfl
  | consumed => rfl
  | @occupied p hp =>
    have hitem : t'.itemAt p = t.itemAt p := h.table.itemAt_eq p
    unfold key
    dsimp only
    rw [hitem]
    rfl

/-- A handle that has a position designates an item of its table. -/
theorem of_position (h : Held κ g s s') {p : Nat} (hp : s.1.position = .ok p) :
    s.1 = .occupied p ∧ s'.1 = .occupied p ∧ p < s.2.size := by
  obtain ⟨e, t⟩ := s
  obtain ⟨e', t'⟩ := s'
  cases h.entry with
  | vacant hheld hfind => cases hp
  | consumed => cases hp
  | occupied hlt =>
    cases hp
    exact ⟨rfl, rfl, hlt⟩

/-- Occupied handles stay right for tables that have as many items. -/
theorem occupied {u u' : Table V} (hu : Table.Twin κ g u u') {p : Nat} (hp : p < u.size) :
    Held κ g (.occupied p, u) (.occupied p, u') :=
  ⟨hu, .occupied hp⟩

/-- A vacant handle waits for a key that is absent. -/
theorem of_vacancy (h : Held κ g s s') :
    (∃ fault, s.1.vacancy = .error fault ∧ s'.1.vacancy = .error fault) ∨
      ∃ k, s.1.vacancy = .ok (k, κ.hash k) ∧ s'.1.vacancy = .ok (k, g.hash k) ∧
        g.Holds k ∧ s.2.find κ k = none := by
  obtain ⟨e, t⟩ := s
  obtain ⟨e', t'⟩ := s'
  cases h.entry with
  | vacant hheld hfind => exact Or.inr ⟨_, rfl, rfl, hheld, hfind⟩
  | consumed => exact Or.inl ⟨_, rfl, rfl⟩
  | occupied hp => exact Or.inl ⟨_, rfl, rfl⟩

end Held

/-! ### What handles do -/

/-- A vacant handle becomes one on the item that is added for its key. -/
theorem occupyAt_agree {s s' : Entry K × Table V} (h : Table.Twin κ g s.2 s'.2) {pos : Nat}
    (hpos : pos ≤ s.2.size) {k : K} {v : V} (hv : κ.key v = k) (hheld : g.Holds k)
    (hfind : s.2.find κ k = none)
    (hsmall : ((occupyAt κ pos (κ.hash k) v).step s).2.2.size < Node.movingPosition) :
    Agree (Held κ g) ((occupyAt κ pos (κ.hash k) v).step s)
      ((occupyAt (κ.hashedBy g) pos (g.hash k) v).step s') := by
  subst hv
  refine Agree.modify ⟨h.insertAt hpos hheld hfind hsmall, .occupied ?_⟩
  have hpos : pos ≤ s.2.items.size := hpos
  show pos < (s.2.items.insertIdxIfInBounds pos v).size
  rw [Array.insertIdxIfInBounds, dif_pos hpos, Array.size_insertIdx]
  exact Nat.lt_succ_of_le hpos

section Calls

variable {s s' : Entry K × Table V}

/-- The item of a handle is modified in twins alike. -/
theorem modifyItem_agree (h : Held κ g s s') (f : Edit κ.key) :
    Agree (Held κ g) ((modifyItem f.edit).step s) ((modifyItem f.edit).step s') := by
  unfold modifyItem
  rw [Action.step_get_bind, Action.step_get_bind, h.position_eq]
  refine Agree.ofExcept h fun pos hpos => ?_
  obtain ⟨e, t⟩ := s
  obtain ⟨e', t'⟩ := s'
  obtain ⟨rfl, rfl, hlt⟩ := h.of_position hpos
  refine Agree.modify (Held.occupied (h.table.modify pos f.keeps) ?_)
  exact lt_of_lt_of_eq hlt Array.size_modify.symm

/-- The item of a handle is removed from twins alike, and the handles are consumed. -/
theorem remove_agree (h : Held κ g s s') (way : Table.Removal) :
    Agree (Held κ g) ((remove κ way).step s) ((remove (κ.hashedBy g) way).step s') := by
  unfold remove
  rw [Action.step_get_bind, Action.step_get_bind]
  dsimp only
  rw [h.position_eq]
  refine Agree.ofExcept h fun pos hpos => ?_
  rw [h.table.itemAt_eq]
  refine Agree.ofExcept h fun v _ => ?_
  rw [Action.step_set_bind, Action.step_set_bind]
  exact Agree.pure ⟨h.table.removeAt way (h.of_position hpos).2.2, .consumed⟩ v

/-- The item of a handle is moved in twins alike, and the handles follow it. -/
theorem moveIndex_agree (h : Held κ g s s') (target : Nat) :
    Agree (Held κ g) ((moveIndex κ target).step s) ((moveIndex (κ.hashedBy g) target).step s') := by
  unfold moveIndex
  rw [Action.step_get_bind, Action.step_get_bind, h.position_eq]
  refine Agree.ofExcept h fun pos hpos => ?_
  obtain ⟨he, he', hlt⟩ := h.of_position hpos
  refine reorder_agree (h.table.moveIndex pos target) (fun _ _ => Table.of_step_moveIndex)
    (fun hu hsize => ?_) fun hu htarget => Held.occupied hu htarget
  rw [he, he']
  exact Held.occupied hu (hsize.symm ▸ hlt)

/-- The item of a handle is exchanged in twins alike, and the handles follow it. -/
theorem swapIndices_agree (h : Held κ g s s') (other : Nat) :
    Agree (Held κ g) ((swapIndices κ other).step s)
      ((swapIndices (κ.hashedBy g) other).step s') := by
  unfold swapIndices
  rw [Action.step_get_bind, Action.step_get_bind, h.position_eq]
  refine Agree.ofExcept h fun pos hpos => ?_
  obtain ⟨he, he', hlt⟩ := h.of_position hpos
  refine reorder_agree (h.table.swapIndices pos other) (fun _ _ => Table.of_step_swapIndices)
    (fun hu hsize => ?_) fun hu hother => Held.occupied hu hother
  rw [he, he']
  exact Held.occupied hu (hsize.symm ▸ hlt)

/-- A handle on twins inserts its key, or refreshes the item that has it, alike. -/
theorem insertEntry_agree (h : Held κ g s s') (make : Supplier κ.key)
    (hsmall : ((insertEntry κ make.make).step s).2.2.size < Node.movingPosition) :
    Agree (Held κ g) ((insertEntry κ make.make).step s)
      ((insertEntry (κ.hashedBy g) make.make).step s') := by
  obtain ⟨e, t⟩ := s
  obtain ⟨e', t'⟩ := s'
  have htable : Table.Twin κ g t t' := h.table
  have hentry : Twin κ g t e e' := h.entry
  unfold insertEntry at hsmall ⊢
  rw [Action.step_get_bind] at hsmall
  rw [Action.step_get_bind, Action.step_get_bind]
  cases hentry with
  | consumed => exact Agree.throw h _
  | @vacant k hwaits hfind =>
    have hsize := htable.size_eq
    dsimp only at hsmall ⊢
    rw [hsize]
    exact occupyAt_agree h.table le_rfl (make.gives k) hwaits hfind hsmall
  | @occupied p hp =>
    dsimp only
    rw [Action.step_set, Action.step_set]
    -- the key that is stored stays
    have hrefreshed : Table.Twin κ g
        { t with items := t.items.modify p fun v => κ.refresh v (make.make (κ.key v)) }
        { t' with items := t'.items.modify p fun v => κ.refresh v (make.make (κ.key v)) } :=
      htable.modify p fun v => htable.admits.key_refresh v (make.make (κ.key v))
    refine ⟨rfl, Held.occupied hrefreshed ?_⟩
    exact lt_of_lt_of_eq hp Array.size_modify.symm

/-- A vacant handle on twins inserts its key at a position alike. -/
theorem shiftInsert_agree (h : Held κ g s s') (target : Nat) (make : Supplier κ.key)
    (hsmall : ((shiftInsert κ target make.make).step s).2.2.size < Node.movingPosition) :
    Agree (Held κ g) ((shiftInsert κ target make.make).step s)
      ((shiftInsert (κ.hashedBy g) target make.make).step s') := by
  unfold shiftInsert Table.checkPosition at hsmall ⊢
  rw [Action.step_get_bind] at hsmall
  rw [Action.step_get_bind, Action.step_get_bind]
  dsimp only at hsmall ⊢
  -- only a vacant handle has a key to insert
  rcases h.of_vacancy with ⟨fault, hv, hv'⟩ | ⟨k, hv, hv', hwaits, hfind⟩
  · rw [hv, hv']
    exact Agree.throw h fault
  · rw [hv, Action.ofExcept, Action.step_pure_bind] at hsmall ⊢
    rw [hv', Action.ofExcept, Action.step_pure_bind, h.table.size_eq]
    refine Agree.demand h fun htarget => ?_
    rw [Action.step_demand_bind htarget] at hsmall
    exact occupyAt_agree h.table (Nat.le_of_lt_succ (of_decide_eq_true htarget)) (make.gives k)
      hwaits hfind hsmall

/-- A vacant handle on twins inserts its key where a search by halves ends alike. -/
theorem insertSortedBy_agree {s s' : (Entry K × Table V) × σ} (h : Beside (Held κ g) s s')
    (less : K → K → Action σ Bool) (make : Supplier κ.key)
    (hsmall : ((insertSortedBy κ less make.make).step s).2.1.2.size < Node.movingPosition) :
    Agree (Beside (Held κ g)) ((insertSortedBy κ less make.make).step s)
      ((insertSortedBy (κ.hashedBy g) less make.make).step s') := by
  unfold insertSortedBy at hsmall ⊢
  rw [Action.step_get_bind] at hsmall
  rw [Action.step_get_bind, Action.step_get_bind]
  dsimp only at hsmall ⊢
  rcases h.fst.of_vacancy with ⟨fault, hv, hv'⟩ | ⟨k, hv, hv', hwaits, hfind⟩
  · rw [hv, hv']
    exact Agree.throw h fault
  · rw [hv, Action.ofExcept, Action.step_pure_bind] at hsmall ⊢
    rw [hv', Action.ofExcept, Action.step_pure_bind, h.fst.table.size_eq, h.fst.table.items]
    refine (Agree.onSnd h _).bind (fun _ _ _ _ h => h) fun pos u u' hstep hu => ?_
    rw [Action.step_bind_of_ok hstep] at hsmall
    -- the search for the position leaves handle and table as they are
    obtain ⟨heq, hpos⟩ := Action.of_step_onSnd_eq hstep
    have hle : pos ≤ u.1.2.size := by
      rw [heq]
      exact (Table.le_of_partitionFrom 0 _ hpos).trans (Nat.zero_add _).le
    have hfind' : u.1.2.find κ k = none := by
      rw [heq]
      exact hfind
    exact Agree.onFst (occupyAt_agree hu.fst.table hle (make.gives k) hwaits hfind' hsmall) hu.snd

/-- A handle on twins inserts an item that the caller makes alike, also if making it fails. -/
theorem orInsertWith_agree {s s' : (Entry K × Table V) × σ} (h : Beside (Held κ g) s s')
    (make : Maker κ.key σ)
    (hsmall : ((orInsertWith κ make.make).step s).2.1.2.size < Node.movingPosition) :
    Agree (Beside (Held κ g)) ((orInsertWith κ make.make).step s)
      ((orInsertWith (κ.hashedBy g) make.make).step s') := by
  obtain ⟨⟨e, t⟩, c⟩ := s
  obtain ⟨⟨e', t'⟩, c'⟩ := s'
  have hheld : Held κ g (e, t) (e', t') := h.fst
  have htable : Table.Twin κ g t t' := hheld.table
  have hentry : Twin κ g t e e' := hheld.entry
  unfold orInsertWith at hsmall ⊢
  rw [Action.step_get_bind] at hsmall
  rw [Action.step_get_bind, Action.step_get_bind]
  cases hentry with
  | consumed => exact Agree.throw h _
  | @occupied p hp =>
    dsimp only
    rw [Action.step_get_bind, Action.step_get_bind]
    rw [Action.step_ofExcept, Action.step_ofExcept]
    exact ⟨hheld.item_eq, h⟩
  | @vacant k hwaits hfind =>
    dsimp only at hsmall ⊢
    refine (Agree.onSnd h _).bind (fun _ _ _ _ h => h) fun v u u' hstep hu => ?_
    rw [Action.step_bind_of_ok hstep, Action.step_bind_snd fun _ w => by
      rw [Action.step_get_bind, Action.step_ofExcept]] at hsmall
    obtain ⟨heq, hmade⟩ := Action.of_step_onSnd_eq hstep
    have hfind' : u.1.2.find κ k = none := by
      rw [heq]
      exact hfind
    have hsize : t.size = u.1.2.size := by
      rw [heq]
    have hsize' : t'.size = t.size := htable.size_eq
    rw [hsize']
    -- the answer is read from the item that was added
    refine (Agree.onFst
      (occupyAt_agree hu.fst.table hsize.le (make.gives hmade) hwaits hfind' hsmall) hu.snd).bind
      (fun _ _ _ _ h => h) fun _ w w' _ hw => ?_
    rw [Action.step_get_bind, Action.step_get_bind, Action.step_ofExcept, Action.step_ofExcept]
    exact ⟨hw.fst.item_eq, hw⟩

/-- The caller modifies the item of a handle on twins alike. -/
theorem andModify_agree {s s' : (Entry K × Table V) × σ} (h : Beside (Held κ g) s s')
    (f : Visitor κ.key σ Unit) :
    Agree (Beside (Held κ g)) ((andModify f.visit).step s) ((andModify f.visit).step s') := by
  obtain ⟨⟨e, t⟩, c⟩ := s
  obtain ⟨⟨e', t'⟩, c'⟩ := s'
  have hheld : Held κ g (e, t) (e', t') := h.fst
  cases (show c' = c from h.snd)
  have hentry : Twin κ g t e e' := hheld.entry
  unfold andModify
  rw [Action.step_get_bind, Action.step_get_bind]
  cases hentry with
  | consumed => exact Agree.throw h _
  | vacant hheld hfind => exact Agree.pure h ()
  | @occupied p hp =>
    dsimp only
    rw [show t'.items = t.items from hheld.table.items]
    cases hv : t.items[p]? with
    | none => exact Agree.pure h ()
    | some v =>
      have hkey := f.keeps (v, c)
      dsimp only
      rcases hr : f.visit.step (v, c) with ⟨r, w, d⟩
      rw [hr] at hkey
      rw [Action.step_set_bind, Action.step_set_bind, Action.step_ofExcept, Action.step_ofExcept]
      -- the item is put back also when the visitor fails
      have hset : Table.Twin κ g (t.setItem p w) (t'.setItem p w) := by
        have hkey : κ.key w = κ.key v := hkey
        refine hheld.table.setItem (hkey ▸ hheld.table.held p v hv) fun v' hv' => ?_
        cases hv.symm.trans hv'
        rw [hkey]
        exact hheld.table.admits.lawful.refl _
      exact ⟨rfl, ⟨hset, .occupied (lt_of_lt_of_eq hp Array.size_setIfInBounds.symm)⟩, rfl⟩

end Calls

/-- A call on handles that are right answers the same in both tables, and leaves handles
    that are right, unless positions run out. -/
theorem Call.agree {s s' : (Entry K × Table V) × σ} (h : Beside (Held κ g) s s')
    (call : Call κ.key σ α)
    (hsmall : ((call.run κ).step s).2.1.2.size < Node.movingPosition) :
    Agree (Beside (Held κ g)) ((call.run κ).step s) ((Call.run (κ.hashedBy g) call).step s') := by
  have hheld := h.fst
  have hsnd := h.snd
  cases call with
  | isOccupied =>
    exact ⟨congrArg Except.ok hheld.isOccupied_eq, h⟩
  | isVacant => exact ⟨congrArg Except.ok hheld.isVacant_eq, h⟩
  -- what is read of the handle and the container is the same for both
  | index =>
    unfold Call.run
    rw [Action.step_get_bind, Action.step_get_bind, Action.step_get_bind, Action.step_get_bind,
      Action.step_ofExcept, Action.step_ofExcept]
    exact ⟨hheld.index_eq, h⟩
  | item =>
    unfold Call.run
    rw [Action.step_get_bind, Action.step_get_bind, Action.step_get_bind, Action.step_get_bind,
      Action.step_ofExcept, Action.step_ofExcept]
    exact ⟨hheld.item_eq, h⟩
  | key =>
    unfold Call.run
    rw [Action.step_get_bind, Action.step_get_bind, Action.step_get_bind, Action.step_get_bind,
      Action.step_ofExcept, Action.step_ofExcept]
    exact ⟨hheld.key_eq, h⟩
  | modifyItem f => exact Agree.onFst (modifyItem_agree hheld f) hsnd
  | orInsertWith make => exact orInsertWith_agree h make hsmall
  | andModify f => exact andModify_agree h f
  | insertEntry make => exact Agree.onFst (insertEntry_agree hheld make hsmall) hsnd
  | insertSortedBy less make => exact insertSortedBy_agree h less make hsmall
  | shiftInsert target make => exact Agree.onFst (shiftInsert_agree hheld target make hsmall) hsnd
  | remove way => exact Agree.onFst (remove_agree hheld way) hsnd
  | moveIndex target => exact Agree.onFst (moveIndex_agree hheld target) hsnd
  | swapIndices other => exact Agree.onFst (swapIndices_agree hheld other) hsnd

end Entry

/-! ### Handles on positions -/

namespace IndexedEntry

/-- The calls on a handle on a position, with the types of their answers. -/
inductive Call (key : V → K) : Type → Type where
  | index : Call key Nat
  | item : Call key V
  | modifyItem (f : Edit key) : Call key V
  | remove (way : Table.Removal) : Call key V
  | moveIndex (target : Nat) : Call key Unit
  | swapIndices (other : Nat) : Call key Unit

/-- What a call does to the handle and its table. -/
def Call.run (κ : Keying K V) : Call κ.key α → Action (IndexedEntry × Table V) α
  | .index => do Action.ofExcept (← get).1.index
  | .item => do Action.ofExcept ((← get).1.item (← get).2)
  | .modifyItem f => IndexedEntry.modifyItem f.edit
  | .remove way => IndexedEntry.remove κ way
  | .moveIndex target => IndexedEntry.moveIndex κ target
  | .swapIndices other => IndexedEntry.swapIndices κ other

/-- The same handle on twins, at a position of theirs or consumed. -/
structure Held (κ : Keying K V) (g : Variant K) (s s' : IndexedEntry × Table V) : Prop where
  table : Table.Twin κ g s.2 s'.2
  same : s'.1 = s.1
  right : ∀ p, s.1.index = .ok p → p < s.2.size

variable {κ : Keying K V} {g : Variant K} {s s' : IndexedEntry × Table V}

/-- Handles on the same position of twins answer the same item. -/
theorem Held.item_eq (h : Held κ g s s') : s'.1.item s'.2 = s.1.item s.2 := by
  unfold item
  rw [h.same]
  cases s.1.index with
  | error e => rfl
  | ok p => exact h.table.itemAt_eq p

/-- A handle on a position of twins is right if the position is below the size. -/
theorem Held.held {u u' : Table V} (hu : Table.Twin κ g u u') {p : Nat} (hp : p < u.size) :
    Held κ g (.held p, u) (.held p, u') := by
  refine ⟨hu, rfl, fun q hq => ?_⟩
  cases hq
  exact hp

/-- A handle that was consumed is right for any twins. -/
theorem Held.consumed {u u' : Table V} (hu : Table.Twin κ g u u') :
    Held κ g (.consumed, u) (.consumed, u') :=
  ⟨hu, rfl, nofun⟩

/-- Handles stay right for tables that have as many items. -/
theorem Held.stay (h : Held κ g s s') {u u' : Table V} (hu : Table.Twin κ g u u')
    (hsize : u.size = s.2.size) : Held κ g (s.1, u) (s'.1, u') :=
  ⟨hu, h.same, fun p hp => hsize.symm ▸ h.right p hp⟩

/-- A handle is opened on a position of twins, or on neither of them. -/
theorem ofPosition_twin {t t' : Table V} (h : Table.Twin κ g t t') (pos : Nat) :
    (∃ fault, ofPosition t pos = .error fault ∧ ofPosition t' pos = .error fault) ∨
      ofPosition t pos = .ok (.held pos) ∧ ofPosition t' pos = .ok (.held pos) ∧ pos < t.size := by
  unfold ofPosition
  rw [h.size_eq]
  split
  · rename_i hpos
    exact Or.inr ⟨rfl, rfl, hpos⟩
  · exact Or.inl ⟨_, rfl, rfl⟩

/-- The item at the position of a handle is modified in twins alike. -/
theorem modifyItem_agree (h : Held κ g s s') (f : Edit κ.key) :
    Agree (Held κ g) ((modifyItem f.edit).step s) ((modifyItem f.edit).step s') := by
  unfold modifyItem
  rw [Action.step_get_bind, Action.step_get_bind]
  dsimp only
  rw [h.same]
  refine Agree.ofExcept h fun pos hpos => ?_
  rw [h.table.itemAt_eq]
  refine Agree.ofExcept h fun v hitem => ?_
  rw [Action.step_set_bind, Action.step_set_bind]
  refine Agree.pure ?_ v
  -- the edit keeps the key of the item, so that both tables find it where it was
  have hset : Table.Twin κ g (s.2.setItem pos (f.edit v)) (s'.2.setItem pos (f.edit v)) := by
    have hv := Table.getElem?_of_itemAt hitem
    refine h.table.setItem (f.keeps v ▸ h.table.held pos v hv) fun w hw => ?_
    cases hv.symm.trans hw
    rw [f.keeps v]
    exact h.table.admits.lawful.refl _
  have hstay := h.stay hset Array.size_setIfInBounds
  rwa [h.same] at hstay

/-- The item at the position of a handle is removed from twins alike. -/
theorem remove_agree (h : Held κ g s s') (way : Table.Removal) :
    Agree (Held κ g) ((remove κ way).step s) ((remove (κ.hashedBy g) way).step s') := by
  unfold remove
  rw [Action.step_get_bind, Action.step_get_bind]
  dsimp only
  rw [h.same]
  refine Agree.ofExcept h fun pos hpos => ?_
  rw [h.table.itemAt_eq]
  refine Agree.ofExcept h fun v _ => ?_
  rw [Action.step_set_bind, Action.step_set_bind]
  exact Agree.pure (Held.consumed (h.table.removeAt way (h.right pos hpos))) v

/-- The item at the position of a handle is moved in twins alike. -/
theorem moveIndex_agree (h : Held κ g s s') (target : Nat) :
    Agree (Held κ g) ((moveIndex κ target).step s) ((moveIndex (κ.hashedBy g) target).step s') := by
  unfold moveIndex
  rw [Action.step_get_bind, Action.step_get_bind, h.same]
  refine Agree.ofExcept h fun pos hpos => ?_
  exact reorder_agree (h.table.moveIndex pos target) (fun _ _ => Table.of_step_moveIndex)
    h.stay fun hu ht => Held.held hu ht

/-- The item at the position of a handle is exchanged in twins alike. -/
theorem swapIndices_agree (h : Held κ g s s') (other : Nat) :
    Agree (Held κ g) ((swapIndices κ other).step s)
      ((swapIndices (κ.hashedBy g) other).step s') := by
  unfold swapIndices
  rw [Action.step_get_bind, Action.step_get_bind, h.same]
  refine Agree.ofExcept h fun pos hpos => ?_
  exact reorder_agree (h.table.swapIndices pos other) (fun _ _ => Table.of_step_swapIndices)
    h.stay fun hu ht => Held.held hu ht

/-- A call on handles that are right answers the same in both tables, and leaves handles
    that are right. -/
theorem Call.agree (h : Held κ g s s') (call : Call κ.key α) :
    Agree (Held κ g) ((call.run κ).step s) ((Call.run (κ.hashedBy g) call).step s') := by
  cases call with
  | index =>
    unfold Call.run
    rw [Action.step_get_bind, Action.step_get_bind, Action.step_ofExcept, Action.step_ofExcept,
      h.same]
    exact ⟨rfl, h⟩
  | item =>
    unfold Call.run
    rw [Action.step_get_bind, Action.step_get_bind, Action.step_get_bind, Action.step_get_bind,
      Action.step_ofExcept, Action.step_ofExcept]
    exact ⟨h.item_eq, h⟩
  | modifyItem f => exact modifyItem_agree h f
  | remove way => exact remove_agree h way
  | moveIndex target => exact moveIndex_agree h target
  | swapIndices other => exact swapIndices_agree h other

end IndexedEntry

end OrderedHash
