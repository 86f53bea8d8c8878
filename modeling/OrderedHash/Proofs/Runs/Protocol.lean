import OrderedHash.Proofs.Runs.Handles
import OrderedHash.Proofs.Table.Atomic
import OrderedHash.Proofs.Table.Finding

namespace OrderedHash

/-!
# The protocol of handles

A handle is in one of three states, its `Phase`. The `Rule` of a call tells in which states
the call is admitted and what it needs besides, and a call `Obeys` its rule: it fails with
the fault of the wrong state or of a bad position and then changes nothing, and where it
answers the handle is in the state that the rule tells.

What a call does to the handle and its table is one of four `Moves`. None of them lets the
handle lose its key (`Entry.On.moves`), so that a handle stays `On` the key that it was
opened for as long as the table is changed through it only.
-/

variable {K V T E σ α : Type}

/-- The states of a handle. -/
inductive Phase where
  | occupied
  | vacant
  | consumed

/-- What is known of a call before it is made. -/
structure Rule where
  /-- The state that a call leaves if it answers, or its fault in the wrong state. -/
  next : Phase → Except Fault Phase
  /-- The position asked for. -/
  target : Option Nat := none
  /-- The positions that can be asked for are those of a table with so many more items. -/
  spare : Nat := 0
  /-- Whether a function of the caller is run that may fail. -/
  consults : Bool := false
  /-- Whether this function is shown the item in the table. -/
  shows : Bool := false

/-- The position asked for, if any, is one that can be asked for. -/
def Rule.Reaches (rule : Rule) (size : Nat) : Prop :=
  ∀ pos, rule.target = some pos → pos < size + rule.spare

/-- A call that asks for no position cannot miss one. -/
theorem Rule.reaches_of_none {rule : Rule} (h : rule.target = none) (size : Nat) :
    rule.Reaches size := by
  intro pos hpos
  rw [h] at hpos
  cases hpos

/-! ### Rules -/

namespace Entry

/-- The state of a handle on a key. -/
def phase : Entry K → Phase
  | .occupied _ => .occupied
  | .vacant _ _ => .vacant
  | .consumed => .consumed

/-- The program can see that a handle is occupied. -/
theorem isOccupied_iff (e : Entry K) : e.isOccupied ↔ e.phase = .occupied := by
  cases e <;> simp [isOccupied, phase]

/-- The program can see that a handle is vacant. -/
theorem isVacant_iff (e : Entry K) : e.isVacant ↔ e.phase = .vacant := by
  cases e <;> simp [isVacant, phase]

/-- What calls on occupied and on vacant handles do to the state. -/
def whileOpen (after : Phase → Phase) : Phase → Except Fault Phase
  | .consumed => .error .entryConsumed
  | phase => .ok (after phase)

/-- What calls on occupied handles do to the state. -/
def whileOccupied (after : Phase) : Phase → Except Fault Phase
  | .occupied => .ok after
  | .vacant => .error .entryVacant
  | .consumed => .error .entryConsumed

/-- What calls on vacant handles do to the state. -/
def whileVacant (after : Phase) : Phase → Except Fault Phase
  | .occupied => .error .entryOccupied
  | .vacant => .ok after
  | .consumed => .error .entryConsumed

/-- The rules of the calls on a handle on a key. -/
def Call.rule {key : V → K} : Call key σ α → Rule
  | .isOccupied | .isVacant => { next := .ok }
  | .index | .key => { next := whileOpen id }
  | .item | .modifyItem _ => { next := whileOccupied .occupied }
  | .andModify _ => { next := whileOpen id, consults := true, shows := true }
  | .orInsertWith _ => { next := whileOpen fun _ => .occupied, consults := true }
  | .insertEntry _ => { next := whileOpen fun _ => .occupied }
  | .insertSortedBy _ _ => { next := whileVacant .occupied, consults := true }
  | .shiftInsert target _ => { next := whileVacant .occupied, target := some target, spare := 1 }
  | .remove _ => { next := whileOccupied .consumed }
  | .moveIndex target => { next := whileOccupied .occupied, target := some target }
  | .swapIndices other => { next := whileOccupied .occupied, target := some other }

end Entry

namespace IndexedEntry

/-- A handle on a position as a handle on the key of the item there. -/
def toEntry : IndexedEntry → Entry K
  | .held pos => .occupied pos
  | .consumed => .consumed

/-- What calls on handles on a position do to the state. -/
def whileHeld (after : Phase) : Phase → Except Fault Phase
  | .consumed => .error .indexedEntryConsumed
  | _ => .ok after

/-- The rules of the calls on a handle on a position. -/
def Call.rule {key : V → K} : Call key α → Rule
  | .index | .item | .modifyItem _ => { next := whileHeld .occupied }
  | .remove _ => { next := whileHeld .consumed }
  | .moveIndex target => { next := whileHeld .occupied, target := some target }
  | .swapIndices other => { next := whileHeld .occupied, target := some other }

end IndexedEntry

/-- The outcomes that a rule allows of a call that is admitted and is to leave a handle in
    the state `after`. Handles of any kind are viewed as handles on keys. -/
structure Allowed (view : E → Entry K) (rule : Rule) (after : Phase) (p : E × Table V)
    (r : Except Fault α) (p' : E × Table V) : Prop where
  outOfRange : ¬ rule.Reaches p.2.size → r = .error .positionOutOfRange
  /-- A call that is admitted can only fail otherwise by a function of the caller. -/
  answers : rule.Reaches p.2.size → rule.consults = false → ∃ a, r = .ok a
  next : ∀ a, r = .ok a → (view p'.1).phase = after
  arrives : ∀ pos a, rule.target = some pos → r = .ok a → (view p'.1).position = .ok pos
  /-- A function that is shown an item may have changed it before it fails. -/
  unchanged : ∀ fault, r = .error fault → p'.1 = p.1 ∧ (rule.shows = false → p'.2 = p.2)

/-- A call on a handle keeps to its rule. -/
structure Obeys (view : E → Entry K) (rule : Rule) (p : E × Table V) (r : Except Fault α)
    (p' : E × Table V) : Prop where
  refused : ∀ fault, rule.next (view p.1).phase = .error fault → r = .error fault ∧ p' = p
  admitted : ∀ after, rule.next (view p.1).phase = .ok after → Allowed view rule after p r p'

namespace Allowed

variable {view : E → Entry K} {rule : Rule} {after : Phase} {p p' : E × Table V}

/-- A call that asks for no position answers. -/
theorem of_answer (hnone : rule.target = none) {r : Except Fault α} {a : α} (hr : r = .ok a)
    (hphase : (view p'.1).phase = after) : Allowed view rule after p r p' where
  outOfRange hreaches := absurd (rule.reaches_of_none hnone _) hreaches
  answers _ _ := ⟨a, hr⟩
  next _ _ := hphase
  arrives pos _ hpos := by
    rw [hnone] at hpos
    cases hpos
  unchanged fault hfault := by
    rw [hr] at hfault
    cases hfault

/-- A function of the caller fails. -/
theorem of_fault (hnone : rule.target = none) (hconsults : rule.consults = true) (fault : Fault)
    (hstay : p'.1 = p.1 ∧ (rule.shows = false → p'.2 = p.2)) :
    Allowed view rule after p (.error fault : Except Fault α) p' where
  outOfRange hreaches := absurd (rule.reaches_of_none hnone _) hreaches
  answers _ hnot := by
    rw [hconsults] at hnot
    cases hnot
  next _ ha := by cases ha
  arrives _ _ _ ha := by cases ha
  unchanged _ _ := hstay

/-- The position asked for can be asked for, and the handle arrives there. -/
theorem of_arrival {target : Nat} (htarget : rule.target = some target)
    (hlt : target < p.2.size + rule.spare) (a : α) (hphase : (view p'.1).phase = after)
    (hposition : (view p'.1).position = .ok target) : Allowed view rule after p (.ok a) p' where
  outOfRange hreaches := by
    refine absurd (fun pos hpos => ?_) hreaches
    cases htarget.symm.trans hpos
    exact hlt
  answers _ _ := ⟨a, rfl⟩
  next _ _ := hphase
  arrives pos _ hpos _ := by
    cases htarget.symm.trans hpos
    exact hposition
  unchanged _ hfault := by cases hfault

/-- The position asked for cannot be asked for. -/
theorem of_outOfRange {target : Nat} (htarget : rule.target = some target)
    (hle : p.2.size + rule.spare ≤ target) :
    Allowed view rule after p (.error .positionOutOfRange : Except Fault α) p where
  outOfRange _ := rfl
  answers hreaches _ := absurd (hreaches target htarget) (Nat.not_lt.mpr hle)
  next _ ha := by cases ha
  arrives _ _ _ ha := by cases ha
  unchanged _ _ := ⟨rfl, fun _ => rfl⟩

end Allowed

/-! ### What calls do -/

namespace Entry

/-- How a call can change a handle on a key and its table. -/
inductive Moves (κ : Keying K V) : Entry K × Table V → Entry K × Table V → Prop where
  /-- The handle stays, and the keys stay where they are. -/
  | stay {e : Entry K} {t u : Table V}
      (hkeys : ∀ p : Nat, u.items[p]?.map κ.key = t.items[p]?.map κ.key) : Moves κ (e, t) (e, u)
  /-- An item is added for the key of a vacant handle. -/
  | occupy {k : K} {hash : UInt64} {t : Table V} {pos : Nat} {v : V} (hpos : pos ≤ t.size)
      (hv : κ.key v = k) : Moves κ (.vacant k hash, t) (.occupied pos, t.insertAt κ pos hash v)
  /-- The item of an occupied handle is put elsewhere. -/
  | follow {p q : Nat} {t u : Table V} (hitem : u.items[q]? = t.items[p]?) :
      Moves κ (.occupied p, t) (.occupied q, u)
  /-- The item of an occupied handle is removed. -/
  | consume (way : Table.Removal) {p : Nat} {t : Table V} :
      Moves κ (.occupied p, t) (.consumed, t.removeAt κ way p)

/-- A call that changes nothing leaves the handle where it was. -/
theorem Moves.refl {κ : Keying K V} (p : Entry K × Table V) : Moves κ p p := .stay fun _ => rfl

/-- What an admitted call does. -/
structure Effect (κ : Keying K V) (view : E → Entry K) (rule : Rule) (after : Phase)
    (p : E × Table V) (r : Except Fault α) (p' : E × Table V) : Prop where
  moves : Moves κ (view p.1, p.2) (view p'.1, p'.2)
  allowed : Allowed view rule after p r p'

section Calls

variable {κ : Keying K V} {t : Table V} {s : σ} {after : Phase}

/-- A call in the wrong state fails, and changes nothing. -/
theorem Call.step_of_refused (call : Call κ.key σ α) {e : Entry K} {fault : Fault}
    (h : call.rule.next e.phase = .error fault) :
    (call.run κ).step ((e, t), s) = (.error fault, ((e, t), s)) := by
  cases call <;> cases e <;> cases h <;> rfl

/-- The keys stay if one item is changed in a way that keeps its key. -/
theorem Moves.modify {e : Entry K} {f : V → V} (hf : ∀ v, κ.key (f v) = κ.key v) (pos : Nat) :
    Moves κ (e, t) (e, { t with items := t.items.modify pos f }) := by
  refine .stay fun p => ?_
  rw [Array.getElem?_modify]
  split
  · rw [Option.map_map, show κ.key ∘ f = κ.key from funext hf]
  · rfl

/-- An item is written over by one with the same key, at the position of the handle. -/
theorem Moves.setItem {e : Entry K} {pos : Nat} {v w : V} (hv : t.items[pos]? = some v)
    (hw : κ.key w = κ.key v) : Moves κ (e, t) (e, t.setItem pos w) := by
  refine .stay fun p => ?_
  show (t.items.setIfInBounds pos w)[p]?.map κ.key = _
  rw [Array.getElem?_setIfInBounds]
  split
  · rename_i hp
    subst hp
    rw [if_pos (Array.getElem?_eq_some_iff.mp hv).1, hv, Option.map_some, Option.map_some, hw]
  · rfl

/-- What reorders the table lets an occupied handle follow its item. -/
theorem effect_reorder (view : E → Entry K) {rule : Rule} {target p : Nat} {e e' : E}
    (htarget : rule.target = some target) (hspare : rule.spare = 0)
    (hview : view e = .occupied p) (hview' : view e' = .occupied target)
    {x : Action (Table V) Unit}
    (hok : target < t.size → ∃ u, x.step t = (.ok (), u) ∧ u.items[target]? = t.items[p]?)
    (hout : t.size ≤ target → x.step t = (.error .positionOutOfRange, t)) :
    let o := (do Action.onSnd x; modify fun p => (e', p.2) : Action (E × Table V) Unit).step (e, t)
    Effect κ view rule .occupied (e, t) o.1 o.2 := by
  -- the handle arrives at the target with its item, or the target is out of range
  rcases Nat.lt_or_ge target t.size with hlt | hge
  · obtain ⟨u, hx, hitem⟩ := hok hlt
    have hstep : (Action.onSnd x : Action (E × Table V) Unit).step (e, t) = (.ok (), (e, u)) := by
      rw [Action.step_onSnd, hx]
    rw [Action.step_bind_of_ok hstep, Action.step_modify]
    have hlt : target < t.size + rule.spare := by
      rw [hspare]
      exact hlt
    refine ⟨?_, .of_arrival htarget hlt () ?_ ?_⟩ <;> dsimp only
    · rw [hview, hview']
      exact .follow hitem
    · rw [hview']
      rfl
    · rw [hview']
      rfl
  · have hstep : (Action.onSnd x : Action (E × Table V) Unit).step (e, t) =
        (.error .positionOutOfRange, (e, t)) := by
      rw [Action.step_onSnd, hout hge]
    rw [Action.step_bind_of_error hstep]
    have hge : t.size + rule.spare ≤ target := by
      rw [hspare]
      exact hge
    exact ⟨.refl _, .of_outOfRange htarget hge⟩

/-! Each call that needs more than a look at the handle, on an occupied and on a vacant one. -/

/-- The item of an occupied handle is answered and taken out. -/
theorem step_remove (way : Table.Removal) {p : Nat} {v : V} (hv : t.items[p]? = some v) :
    (remove κ way).step (.occupied p, t) = (.ok v, (.consumed, t.removeAt κ way p)) := by
  unfold remove
  rw [Action.step_get_bind]
  dsimp only [position]
  rw [Action.ofExcept, Action.step_pure_bind, Table.itemAt_of_getElem? hv, Action.ofExcept,
    Action.step_pure_bind]
  rfl

/-- No item is made for an occupied handle. -/
theorem step_orInsertWith_occupied (make : K → Action σ V) {p : Nat} {v : V}
    (hv : t.items[p]? = some v) :
    (orInsertWith κ make).step ((.occupied p, t), s) = (.ok v, ((.occupied p, t), s)) := by
  have hitem : (Entry.occupied p : Entry K).item t = .ok v := Table.itemAt_of_getElem? hv
  unfold orInsertWith
  rw [Action.step_get_bind]
  dsimp only
  rw [Action.step_get_bind, Action.step_ofExcept, hitem]

/-- The caller modifies the item of an occupied handle, and may fail half-way. -/
theorem step_andModify_occupied (f : Action (V × σ) Unit) {p : Nat} {v : V}
    (hv : t.items[p]? = some v) :
    let o := f.step (v, s)
    (andModify f).step (((.occupied p : Entry K), t), s) =
      (o.1, ((.occupied p, t.setItem p o.2.1), o.2.2)) := by
  unfold andModify
  rw [Action.step_get_bind]
  dsimp only
  rw [hv, Action.step_set_bind, Action.step_ofExcept]

/-- The item that is made for a vacant handle comes last, and occupies the handle. -/
theorem step_orInsertWith_vacant (make : K → Action σ V) {k : K} {hash : UInt64} {v : V} {s' : σ}
    (h : (make k).step s = (.ok v, s')) :
    (orInsertWith κ make).step ((.vacant k hash, t), s) =
      (.ok v, ((.occupied t.size, t.insertAt κ t.size hash v), s')) := by
  have hmade : (Action.onSnd (make k)).step (((.vacant k hash : Entry K), t), s) =
      (.ok v, ((.vacant k hash, t), s')) := by
    rw [Action.step_onSnd, h]
  unfold orInsertWith
  rw [Action.step_get_bind]
  dsimp only
  have hadd : (Action.onFst (occupyAt κ t.size hash v)).step (((.vacant k hash : Entry K), t), s') =
      (.ok ⟨⟩, ((.occupied t.size, t.insertAt κ t.size hash v), s')) := rfl
  rw [Action.step_bind_of_ok hmade, Action.step_bind_of_ok hadd, Action.step_get_bind,
    Action.step_ofExcept]
  exact Prod.ext (Table.itemAt_insertAt t le_rfl hash v) rfl

/-- A vacant handle stays as it is if no item can be made for it. -/
theorem step_orInsertWith_of_error (make : K → Action σ V) {k : K} {hash : UInt64} {fault : Fault}
    {s' : σ} (h : (make k).step s = (.error fault, s')) :
    (orInsertWith κ make).step ((.vacant k hash, t), s) =
      (.error fault, ((.vacant k hash, t), s')) := by
  have hmade : (Action.onSnd (make k)).step (((.vacant k hash : Entry K), t), s) =
      (.error fault, ((.vacant k hash, t), s')) := by
    rw [Action.step_onSnd, h]
  unfold orInsertWith
  rw [Action.step_get_bind]
  exact Action.step_bind_of_error hmade _

/-- The item that is made for a vacant handle comes where the search by halves ends. -/
theorem step_insertSortedBy_vacant (less : K → K → Action σ Bool) (make : K → V) {k : K}
    {hash : UInt64} {pos : Nat} {s' : σ}
    (h : (Table.partitionFrom t.items (fun v => less (κ.key v) k) 0 t.size).step s =
      (.ok pos, s')) :
    (insertSortedBy κ less make).step ((.vacant k hash, t), s) =
      (.ok (), ((.occupied pos, t.insertAt κ pos hash (make k)), s')) := by
  have hfound : (Action.onSnd
      (Table.partitionFrom t.items (fun v => less (κ.key v) k) 0 t.size)).step
      (((.vacant k hash : Entry K), t), s) = (.ok pos, ((.vacant k hash, t), s')) := by
    rw [Action.step_onSnd, h]
  unfold insertSortedBy
  rw [Action.step_get_bind]
  dsimp only [vacancy]
  rw [Action.ofExcept, Action.step_pure_bind]
  exact Action.step_bind_of_ok hfound _

/-- A vacant handle stays as it is if a comparison fails. -/
theorem step_insertSortedBy_of_error (less : K → K → Action σ Bool) (make : K → V) {k : K}
    {hash : UInt64} {fault : Fault} {s' : σ}
    (h : (Table.partitionFrom t.items (fun v => less (κ.key v) k) 0 t.size).step s =
      (.error fault, s')) :
    (insertSortedBy κ less make).step ((.vacant k hash, t), s) =
      (.error fault, ((.vacant k hash, t), s')) := by
  have hfound : (Action.onSnd
      (Table.partitionFrom t.items (fun v => less (κ.key v) k) 0 t.size)).step
      (((.vacant k hash : Entry K), t), s) = (.error fault, ((.vacant k hash, t), s')) := by
    rw [Action.step_onSnd, h]
  unfold insertSortedBy
  rw [Action.step_get_bind]
  dsimp only [vacancy]
  rw [Action.ofExcept, Action.step_pure_bind]
  exact Action.step_bind_of_error hfound _

/-- The item that is made for a vacant handle comes at the position asked for. -/
theorem step_shiftInsert_vacant (make : K → V) {k : K} {hash : UInt64} {target : Nat}
    (htarget : target < t.size + 1) : (shiftInsert κ target make).step (.vacant k hash, t) =
      (.ok (), (.occupied target, t.insertAt κ target hash (make k))) := by
  unfold shiftInsert Table.checkPosition
  rw [Action.step_get_bind]
  dsimp only [vacancy]
  rw [Action.ofExcept, Action.step_pure_bind, Action.step_demand_bind (decide_eq_true htarget)]
  rfl

/-- A vacant handle stays as it is if the position asked for is too great. -/
theorem step_shiftInsert_of_le (make : K → V) {k : K} {hash : UInt64} {target : Nat}
    (htarget : t.size + 1 ≤ target) : (shiftInsert κ target make).step (.vacant k hash, t) =
      (.error .positionOutOfRange, (.vacant k hash, t)) := by
  unfold shiftInsert Table.checkPosition
  rw [Action.step_get_bind]
  dsimp only [vacancy]
  rw [Action.ofExcept, Action.step_pure_bind, decide_eq_false (Nat.not_lt.mpr htarget)]
  rfl

/-- What an admitted call on an occupied handle does. -/
theorem Call.effect_occupied
    (hrefresh : ∀ stored given, κ.key (κ.refresh stored given) = κ.key stored)
    {p : Nat} (hp : p < t.size) (call : Call κ.key σ α)
    (h : call.rule.next (.occupied : Phase) = .ok after) :
    let o := (call.run κ).step ((.occupied p, t), s)
    Effect κ id call.rule after (.occupied p, t) o.1 o.2.1 := by
  obtain ⟨v, hv⟩ : ∃ v, t.items[p]? = some v := ⟨_, Array.getElem?_eq_getElem hp⟩
  have hitem : t.itemAt p = .ok v := Table.itemAt_of_getElem? hv
  have hanswer : (Entry.occupied p : Entry K).item t = .ok v := hitem
  cases call with
  | isOccupied | isVacant | index =>
    cases h
    exact ⟨.refl _, .of_answer rfl rfl rfl⟩
  | item =>
    cases h
    simp only [run, Action.step_get_bind, Action.step_ofExcept]
    exact ⟨.refl _, .of_answer rfl hanswer rfl⟩
  | key =>
    cases h
    simp only [run, Action.step_get_bind, Action.step_ofExcept]
    exact ⟨.refl _, .of_answer rfl (congrArg (Except.map κ.key) hitem) rfl⟩
  | modifyItem f =>
    cases h
    exact ⟨.modify f.keeps p, .of_answer rfl rfl rfl⟩
  | orInsertWith make =>
    cases h
    simp only [run, step_orInsertWith_occupied make.make hv]
    exact ⟨.refl _, .of_answer rfl rfl rfl⟩
  | andModify f =>
    cases h
    simp only [run, step_andModify_occupied f.visit hv]
    have hmoves : Moves κ (.occupied p, t)
        (.occupied p, t.setItem p (f.visit.step (v, s)).2.1) := .setItem hv (f.keeps _)
    -- the item keeps its key even if the client failed after it had modified the item
    cases (f.visit.step (v, s)).1 with
    | ok a => exact ⟨hmoves, .of_answer rfl rfl rfl⟩
    | error fault => exact ⟨hmoves, .of_fault rfl rfl fault ⟨rfl, nofun⟩⟩
  | insertEntry make =>
    cases h
    exact ⟨.modify (fun v => hrefresh v _) p, .of_answer rfl rfl rfl⟩
  | insertSortedBy less make => cases h
  | shiftInsert target make => cases h
  | remove way =>
    cases h
    simp only [run, Action.step_onFst, step_remove way hv]
    exact ⟨.consume way, .of_answer rfl rfl rfl⟩
  | moveIndex target =>
    cases h
    exact effect_reorder id rfl rfl rfl rfl (Table.step_moveIndex hp)
      (Table.step_moveIndex_of_le hp)
  | swapIndices other =>
    cases h
    exact effect_reorder id rfl rfl rfl rfl (Table.step_swapIndices hp)
      (Table.step_swapIndices_of_le hp)

/-- What an admitted call on a vacant handle does. -/
theorem Call.effect_vacant {k : K} {hash : UInt64} (call : Call κ.key σ α)
    (h : call.rule.next (.vacant : Phase) = .ok after) :
    let o := (call.run κ).step ((.vacant k hash, t), s)
    Effect κ id call.rule after (.vacant k hash, t) o.1 o.2.1 := by
  cases call with
  | isOccupied | isVacant | index | key =>
    cases h
    exact ⟨.refl _, .of_answer rfl rfl rfl⟩
  -- these are refused without an item
  | item | modifyItem | remove | moveIndex | swapIndices => cases h
  | andModify f =>
    cases h
    exact ⟨.refl _, .of_answer rfl rfl rfl⟩
  | insertEntry make =>
    cases h
    exact ⟨.occupy le_rfl (make.gives k), .of_answer rfl rfl rfl⟩
  | orInsertWith make =>
    cases h
    rcases hmade : (make.make k).step s with ⟨fault | v, s'⟩
    · simp only [run, step_orInsertWith_of_error make.make hmade]
      exact ⟨.refl _, .of_fault rfl rfl fault ⟨rfl, fun _ => rfl⟩⟩
    · simp only [run, step_orInsertWith_vacant make.make hmade]
      exact ⟨.occupy le_rfl (make.gives hmade), .of_answer rfl rfl rfl⟩
  | insertSortedBy less make =>
    cases h
    rcases hfound : (Table.partitionFrom t.items (fun v => less (κ.key v) k) 0 t.size).step s with
      ⟨fault | pos, s'⟩
    · simp only [run, step_insertSortedBy_of_error less make.make hfound]
      exact ⟨.refl _, .of_fault rfl rfl fault ⟨rfl, fun _ => rfl⟩⟩
    · have hpos := (Table.le_of_partitionFrom 0 t.size hfound).trans (Nat.zero_add _).le
      simp only [run, step_insertSortedBy_vacant less make.make hfound]
      exact ⟨.occupy hpos (make.gives k), .of_answer rfl rfl rfl⟩
  | shiftInsert target make =>
    cases h
    -- a vacant handle may also insert its key behind the last item
    rcases Nat.lt_or_ge target (t.size + 1) with hlt | hge
    · simp only [run, Action.step_onFst, step_shiftInsert_vacant make.make hlt]
      exact ⟨.occupy (Nat.le_of_lt_succ hlt) (make.gives k), .of_arrival rfl hlt () rfl rfl⟩
    · simp only [run, Action.step_onFst, step_shiftInsert_of_le make.make hge]
      exact ⟨.refl _, .of_outOfRange rfl hge⟩

/-- What an admitted call does to a handle that, if occupied, is on an item. -/
theorem Call.effect (hrefresh : ∀ stored given, κ.key (κ.refresh stored given) = κ.key stored)
    {e : Entry K} (hlt : ∀ p, e = .occupied p → p < t.size) (call : Call κ.key σ α)
    (h : call.rule.next e.phase = .ok after) :
    let o := (call.run κ).step ((e, t), s)
    Effect κ id call.rule after (e, t) o.1 o.2.1 := by
  cases e with
  | occupied p => exact call.effect_occupied hrefresh (hlt p rfl) h
  | vacant k hash => exact call.effect_vacant h
  | consumed =>
    -- only the state of a consumed handle can be asked for
    cases call with
    | isOccupied | isVacant =>
      cases h
      exact ⟨.refl _, .of_answer rfl rfl rfl⟩
    | _ => cases h

/-- Every call on a handle obeys its rule and moves the handle with its item. -/
theorem Call.obeys_moves
    (hrefresh : ∀ stored given, κ.key (κ.refresh stored given) = κ.key stored) {e : Entry K}
    (hlt : ∀ p, e = .occupied p → p < t.size) (call : Call κ.key σ α) :
    let o := (call.run κ).step ((e, t), s)
    Obeys id call.rule (e, t) o.1 o.2.1 ∧ Moves κ (e, t) o.2.1 := by
  refine ⟨⟨fun fault h => ?_, fun after h => (call.effect hrefresh hlt h).allowed⟩, ?_⟩
  · have h : call.rule.next e.phase = .error fault := h
    rw [call.step_of_refused h]
    exact ⟨rfl, rfl⟩
  · cases h : call.rule.next e.phase with
    | error fault =>
      rw [call.step_of_refused h]
      exact .refl _
    | ok after => exact (call.effect hrefresh hlt h).moves

end Calls

end Entry

/-! ### Handles on positions -/

namespace IndexedEntry

open Entry (Effect Moves)

variable {κ : Keying K V} {t : Table V} {after : Phase}

/-- A call that is refused changes nothing. -/
theorem Call.step_of_refused (call : Call κ.key α) {e : IndexedEntry} {fault : Fault}
    (h : call.rule.next (e.toEntry : Entry K).phase = .error fault) :
    (call.run κ).step (e, t) = (.error fault, (e, t)) := by
  cases call <;> cases e <;> cases h <;> rfl

/-- The item at the position of a handle is modified and answered. -/
theorem step_modifyItem (f : V → V) {p : Nat} {v : V} (hv : t.items[p]? = some v) :
    (modifyItem f).step (.held p, t) = (.ok v, (.held p, t.setItem p (f v))) := by
  unfold modifyItem
  rw [Action.step_get_bind]
  dsimp only [index]
  rw [Action.ofExcept, Action.step_pure_bind, Table.itemAt_of_getElem? hv, Action.ofExcept,
    Action.step_pure_bind]
  rfl

/-- The item at the position of a handle is answered and taken out. -/
theorem step_remove (way : Table.Removal) {p : Nat} {v : V} (hv : t.items[p]? = some v) :
    (remove κ way).step (.held p, t) = (.ok v, (.consumed, t.removeAt κ way p)) := by
  unfold remove
  rw [Action.step_get_bind]
  dsimp only [index]
  rw [Action.ofExcept, Action.step_pure_bind, Table.itemAt_of_getElem? hv, Action.ofExcept,
    Action.step_pure_bind]
  rfl

/-- What an admitted call on a handle on a position does. -/
theorem Call.effect {p : Nat} (hp : p < t.size) (call : Call κ.key α)
    (h : call.rule.next (.occupied : Phase) = .ok after) :
    let o := (call.run κ).step (.held p, t)
    Effect κ toEntry call.rule after (.held p, t) o.1 o.2 := by
  obtain ⟨v, hv⟩ : ∃ v, t.items[p]? = some v := ⟨_, Array.getElem?_eq_getElem hp⟩
  have hitem : (IndexedEntry.held p).item t = .ok v := Table.itemAt_of_getElem? hv
  cases call with
  | index =>
    cases h
    exact ⟨.refl _, .of_answer rfl rfl rfl⟩
  | item =>
    cases h
    simp only [run, Action.step_get_bind, Action.step_ofExcept]
    exact ⟨.refl _, .of_answer rfl hitem rfl⟩
  | modifyItem f =>
    cases h
    simp only [run, step_modifyItem f.edit hv]
    exact ⟨.setItem hv (f.keeps _), .of_answer rfl rfl rfl⟩
  | remove way =>
    cases h
    simp only [run, step_remove way hv]
    exact ⟨.consume way, .of_answer rfl rfl rfl⟩
  | moveIndex target =>
    cases h
    exact Entry.effect_reorder toEntry rfl rfl rfl rfl (Table.step_moveIndex hp)
      (Table.step_moveIndex_of_le hp)
  | swapIndices other =>
    cases h
    exact Entry.effect_reorder toEntry rfl rfl rfl rfl (Table.step_swapIndices hp)
      (Table.step_swapIndices_of_le hp)

/-- Every call on a handle on a position obeys its rule and moves the handle with its item. -/
theorem Call.obeys_moves {e : IndexedEntry} (hlt : ∀ p, e = .held p → p < t.size)
    (call : Call κ.key α) :
    let o := (call.run κ).step (e, t)
    Obeys (toEntry : IndexedEntry → Entry K) call.rule (e, t) o.1 o.2 ∧
      Moves κ (e.toEntry, t) (o.2.1.toEntry, o.2.2) := by
  have heffect : ∀ after, call.rule.next (e.toEntry : Entry K).phase = .ok after →
      Effect κ toEntry call.rule after (e, t) ((call.run κ).step (e, t)).1
        ((call.run κ).step (e, t)).2 := by
    intro after h
    cases e with
    | held p => exact call.effect (hlt p rfl) h
    -- every call on a consumed handle is refused
    | consumed => cases call <;> cases h
  refine ⟨⟨fun fault h => ?_, fun after h => (heffect after h).allowed⟩, ?_⟩
  · rw [call.step_of_refused h]
    exact ⟨rfl, rfl⟩
  · cases h : call.rule.next (e.toEntry : Entry K).phase with
    | error fault =>
      rw [call.step_of_refused h]
      exact .refl _
    | ok after => exact (heffect after h).moves

end IndexedEntry

end OrderedHash
