import OrderedHash.Map.Basic
import OrderedHash.Proofs.Runs.Operations

namespace OrderedHash

/-!
# Operations of maps

The operations of maps are those of all tables and those that tell keys from values. On
twins they agree (`Map.Op.agree`), and queries are the same actions (`Map.Query.run_eq`).
-/

open OrderedHash.Action (Agree Beside)

namespace Hashing

variable {K : Type}

/-- The hashing with another hash function. -/
def hashedBy (κ : Hashing K) (g : Variant K) : Hashing K := { κ with hash := g.hash }

/-- A map with another hash function has the same keys. -/
theorem map_hashedBy {T : Type} (κ : Hashing K) (g : Variant K) :
    ((κ.hashedBy g).map : Keying K (K × T)) = κ.map.hashedBy g :=
  rfl

/-- A set with another hash function has the same keys. -/
theorem set_hashedBy (κ : Hashing K) (g : Variant K) : (κ.hashedBy g).set = κ.set.hashedBy g :=
  rfl

end Hashing

namespace Map

variable {K T σ α : Type}

/-- The queries of a map, with the types of their answers. -/
inductive Query (K T σ : Type) : Type → Type 1 where
  | common {α : Type} (query : Table.Query K (K × T) σ α) : Query K T σ α
  | indexOf? (k : K) : Query K T σ (Option Nat)
  | getFull? (k : K) : Query K T σ (Option (Nat × K × T))
  | get? (k : K) : Query K T σ (Option T)
  | valueOf (k : K) : Query K T σ T
  | binarySearchKeys (less : K → K → Action σ Bool) (k : K) : Query K T σ (Nat × Bool)
  | binarySearchBy (compare : K × T → Action σ Ordering) : Query K T σ (Nat × Bool)

/-- What a query of a map answers. -/
def Query.run (κ : Hashing K) (m : Map K T) : Query K T σ α → Action σ α
  | .common query => query.run κ.map m
  | .indexOf? k => Action.ofExcept (m.indexOf? κ k)
  | .getFull? k => Action.ofExcept (m.getFull? κ k)
  | .get? k => Action.ofExcept (m.get? κ k)
  | .valueOf k => Action.ofExcept (m.valueOf κ k)
  | .binarySearchKeys less k => m.binarySearchKeys less k
  | .binarySearchBy compare => m.binarySearchBy compare

/-- The operations of a map, with the types of their answers. -/
inductive Op (K T σ : Type) : Type → Type 1 where
  | common {α : Type} (op : Table.Op (Prod.fst : K × T → K) σ α) : Op K T σ α
  | assign (k : K) (v : T) : Op K T σ Unit
  | assignAt (pos : Nat) (v : T) : Op K T σ Unit
  | insert (k : K) (v : T) : Op K T σ (Nat × Bool)
  | emplace (k : K) (v : T) : Op K T σ (Nat × Bool)
  | insertFull (k : K) (v : T) : Op K T σ (Nat × Option T)
  | insertOrAssign (k : K) (v : T) : Op K T σ (Nat × Bool)
  | valueOrInsert (k : K) (d : T) : Op K T σ T
  | insertSorted (less : K → K → Action σ Bool) (k : K) (v : T) : Op K T σ (Nat × Option T)
  | insertSortedBy (less : K × T → K × T → Action σ Bool) (k : K) (v : T) :
      Op K T σ (Nat × Option T)
  | insertBefore (target : Nat) (k : K) (v : T) : Op K T σ (Nat × Option T)
  | shiftInsert (target : Nat) (k : K) (v : T) : Op K T σ (Option T)
  | remove (way : Table.Removal) (k : K) : Op K T σ (Option T)
  | sortBy (less : K × T → K × T → Action σ Bool) : Op K T σ Unit
  | sortKeys (less : K → K → Action σ Bool) : Op K T σ Unit
  | sortByKey {C : Type} (less : C → C → Bool) (f : K × T → Action σ C) : Op K T σ Unit
  | sortByCachedKey {C : Type} (less : C → C → Bool) (f : K × T → Action σ C) : Op K T σ Unit

/-- What an operation does to the map and to the state of the caller. -/
def Op.run (κ : Hashing K) : Op K T σ α → Action (Map K T × σ) α
  | .common op => op.run κ.map
  | .assign k v => Action.onFst (Map.assign κ k v)
  | .assignAt pos v => Action.onFst (Map.assignAt pos v)
  | .insert k v => Action.onFst (Map.insert κ k v)
  | .emplace k v => Action.onFst (Map.emplace κ k v)
  | .insertFull k v => Action.onFst (Map.insertFull κ k v)
  | .insertOrAssign k v => Action.onFst (Map.insertOrAssign κ k v)
  | .valueOrInsert k d => Action.onFst (Map.valueOrInsert κ k d)
  | .insertSorted less k v => Map.insertSorted κ less k v
  | .insertSortedBy less k v => Map.insertSortedBy κ less k v
  | .insertBefore target k v => Action.onFst (Map.insertBefore κ target k v)
  | .shiftInsert target k v => Action.onFst (Map.shiftInsert κ target k v)
  | .remove way k => Action.onFst (Map.remove κ way k)
  | .sortBy less => Map.sortBy κ less
  | .sortKeys less => Map.sortKeys κ less
  | .sortByKey less f => Map.sortByKey κ less f
  | .sortByCachedKey less f => Map.sortByCachedKey κ less f

/-! ### Maps that are twins -/

section Twin

variable {κ : Hashing K} {g : Variant K} {m m' : Map K T}

/-- The value of a key is the same in twins. -/
theorem get?_eq (h : Table.Twin κ.map g m m') (k : K) : m'.get? (κ.hashedBy g) k = m.get? κ k := by
  have hfull : m'.getFull? (κ.hashedBy g) k = m.getFull? κ k := h.lookupItem_eq k
  unfold get?
  rw [hfull]

/-- Every query of maps answers the same for twins. -/
theorem Query.run_eq (h : Table.Twin κ.map g m m') (query : Query K T σ α) :
    query.run (κ.hashedBy g) m' = query.run κ m := by
  cases query with
  | common query => exact query.run_eq h
  | indexOf? k => exact congrArg Action.ofExcept (h.lookup_eq k)
  | getFull? k => exact congrArg Action.ofExcept (h.lookupItem_eq k)
  | get? k => exact congrArg Action.ofExcept (get?_eq h k)
  | valueOf k => simp only [Query.run, Map.valueOf, get?_eq h]
  | binarySearchKeys less k => simp only [Query.run, Map.binarySearchKeys, h.items, h.size_eq]
  | binarySearchBy compare => simp only [Query.run, Map.binarySearchBy, h.items, h.size_eq]

/-- Twins stay twins when a value of both is set. -/
theorem setValue_twin (h : Table.Twin κ.map g m m') (pos : Nat) (v : T) :
    Table.Twin κ.map g (m.setValue pos v) (m'.setValue pos v) :=
  h.modify pos fun _ => rfl

/-- A value is assigned to a key of twins alike. -/
theorem assign_agree (h : Table.Twin κ.map g m m') (k : K) (v : T) :
    Agree (Table.Twin κ.map g) ((assign κ k v).step m) ((assign (κ.hashedBy g) k v).step m') := by
  have hindex : m'.indexOf? (κ.hashedBy g) k = m.indexOf? κ k := h.lookup_eq k
  unfold assign
  rw [Action.step_get_bind, Action.step_get_bind, hindex]
  refine Agree.ofExcept h fun found _ => ?_
  cases found with
  | none => exact Agree.throw h _
  | some pos => exact Agree.modify (setValue_twin h pos v)

/-- A value is assigned at a position of twins alike. -/
theorem assignAt_agree (h : Table.Twin κ.map g m m') (pos : Nat) (v : T) :
    Agree (Table.Twin κ.map g) ((assignAt pos v).step m) ((assignAt pos v).step m') := by
  unfold assignAt Table.checkPosition
  rw [Action.step_get_bind, Action.step_get_bind, h.size_eq]
  exact Agree.demand h fun _ => Agree.modify (setValue_twin h pos v)

/-- A key and a value are inserted into twins alike. -/
theorem insertFull_agree (h : Table.Twin κ.map g m m') (k : K) (v : T)
    (hsmall : ((insertFull κ k v).step m).2.size < Node.movingPosition) :
    Agree (Table.Twin κ.map g) ((insertFull κ k v).step m)
      ((insertFull (κ.hashedBy g) k v).step m') := by
  unfold insertFull at hsmall ⊢
  rw [Action.step_bind_snd fun _ _ => rfl] at hsmall
  rw [Hashing.map_hashedBy]
  exact (h.put (k, v) hsmall).bind (fun _ _ _ _ h => h) fun _ _ _ _ h => Agree.pure h _

/-- A key and a value are inserted into twins, or the value is assigned, alike. -/
theorem insertOrAssign_agree (h : Table.Twin κ.map g m m') (k : K) (v : T)
    (hsmall : ((insertOrAssign κ k v).step m).2.size < Node.movingPosition) :
    Agree (Table.Twin κ.map g) ((insertOrAssign κ k v).step m)
      ((insertOrAssign (κ.hashedBy g) k v).step m') := by
  unfold insertOrAssign at hsmall ⊢
  rw [Action.step_bind_snd fun _ _ => rfl] at hsmall
  exact (insertFull_agree h k v hsmall).bind (fun _ _ _ _ h => h) fun _ _ _ _ h => Agree.pure h _

/-- The value of a key of twins is answered, after it was inserted if needed, alike. -/
theorem valueOrInsert_agree (h : Table.Twin κ.map g m m') (k : K) (d : T)
    (hsmall : ((valueOrInsert κ k d).step m).2.size < Node.movingPosition) :
    Agree (Table.Twin κ.map g) ((valueOrInsert κ k d).step m)
      ((valueOrInsert (κ.hashedBy g) k d).step m') := by
  unfold valueOrInsert at hsmall ⊢
  rw [Action.step_bind_snd] at hsmall
  · refine (h.insert (k, d) hsmall).bind (fun _ _ _ _ h => h) fun found u u' _ hu => ?_
    dsimp only
    rw [Action.step_get_bind, Action.step_get_bind, hu.itemAt_eq]
    exact Agree.ofExcept hu fun item _ => Agree.pure hu item.2
  -- the value is only read
  · intro found u
    dsimp only
    rw [Action.step_get_bind]
    cases Table.itemAt u found.1 <;> rfl

/-- A key is inserted into twins in the order of the keys alike. -/
theorem insertSorted_agree {s s' : Map K T × σ} (h : Beside (Table.Twin κ.map g) s s')
    (less : K → K → Action σ Bool) (k : K) (v : T)
    (hsmall : ((insertSorted κ less k v).step s).2.1.size < Node.movingPosition) :
    Agree (Beside (Table.Twin κ.map g)) ((insertSorted κ less k v).step s)
      ((insertSorted (κ.hashedBy g) less k v).step s') := by
  obtain ⟨m, m', c, rfl, rfl, htable⟩ := h.pairs
  unfold insertSorted at hsmall ⊢
  rw [Action.step_bind_snd fun _ _ => rfl] at hsmall
  exact (htable.insertSorted _ (k, v) c hsmall).bind (fun _ _ _ _ h => h) fun _ _ _ _ h =>
    Agree.pure h _

/-- A key is inserted into twins in an order of the items alike. -/
theorem insertSortedBy_agree {s s' : Map K T × σ} (h : Beside (Table.Twin κ.map g) s s')
    (less : K × T → K × T → Action σ Bool) (k : K) (v : T)
    (hsmall : ((insertSortedBy κ less k v).step s).2.1.size < Node.movingPosition) :
    Agree (Beside (Table.Twin κ.map g)) ((insertSortedBy κ less k v).step s)
      ((insertSortedBy (κ.hashedBy g) less k v).step s') := by
  obtain ⟨m, m', c, rfl, rfl, htable⟩ := h.pairs
  unfold insertSortedBy at hsmall ⊢
  rw [Action.step_bind_snd fun _ _ => rfl] at hsmall
  exact (htable.insertSorted _ (k, v) c hsmall).bind (fun _ _ _ _ h => h) fun _ _ _ _ h =>
    Agree.pure h _

/-- A key is inserted into twins before a position alike. -/
theorem insertBefore_agree (h : Table.Twin κ.map g m m') (target : Nat) (k : K) (v : T)
    (hsmall : ((insertBefore κ target k v).step m).2.size < Node.movingPosition) :
    Agree (Table.Twin κ.map g) ((insertBefore κ target k v).step m)
      ((insertBefore (κ.hashedBy g) target k v).step m') := by
  unfold insertBefore at hsmall ⊢
  rw [Action.step_bind_snd fun _ _ => rfl] at hsmall
  exact (h.insertBefore target (k, v) hsmall).bind (fun _ _ _ _ h => h) fun _ _ _ _ h =>
    Agree.pure h _

/-- A key is inserted into twins at a position alike. -/
theorem shiftInsert_agree (h : Table.Twin κ.map g m m') (target : Nat) (k : K) (v : T)
    (hsmall : ((shiftInsert κ target k v).step m).2.size < Node.movingPosition) :
    Agree (Table.Twin κ.map g) ((shiftInsert κ target k v).step m)
      ((shiftInsert (κ.hashedBy g) target k v).step m') := by
  unfold shiftInsert at hsmall ⊢
  rw [Action.step_map_snd] at hsmall
  exact (h.shiftInsert target (k, v) hsmall).map _

/-- Twins are sorted alike. -/
theorem sortBy_agree {s s' : Map K T × σ} (h : Beside (Table.Twin κ.map g) s s')
    (less : K × T → K × T → Action σ Bool) :
    Agree (Beside (Table.Twin κ.map g)) ((sortBy κ less).step s)
      ((sortBy (κ.hashedBy g) less).step s') := by
  obtain ⟨m, m', c, rfl, rfl, htable⟩ := h.pairs
  unfold sortBy
  rw [Action.step_get_bind, Action.step_get_bind, htable.size_eq]
  exact htable.sortRange le_rfl less c

/-- Twins are sorted by keys of their items alike. -/
theorem sortByCachedKey_agree {C : Type} {s s' : Map K T × σ}
    (h : Beside (Table.Twin κ.map g) s s') (less : C → C → Bool) (f : K × T → Action σ C) :
    Agree (Beside (Table.Twin κ.map g)) ((sortByCachedKey κ less f).step s)
      ((sortByCachedKey (κ.hashedBy g) less f).step s') := by
  obtain ⟨m, m', c, rfl, rfl, htable⟩ := h.pairs
  unfold sortByCachedKey
  rw [Action.step_get_bind, Action.step_get_bind, htable.size_eq]
  exact htable.sortRangeByCachedKey le_rfl less f c

/-- An operation on twins has the same answer and leaves twins, unless positions run out. -/
theorem Op.agree {s s' : Map K T × σ} (h : Beside (Table.Twin κ.map g) s s') (op : Op K T σ α)
    (hsmall : ((op.run κ).step s).2.1.size < Node.movingPosition) :
    Agree (Beside (Table.Twin κ.map g)) ((op.run κ).step s)
      ((op.run (κ.hashedBy g)).step s') := by
  have hfst := h.fst
  have hsnd := h.snd
  cases op with
  | common op => exact op.agree h hsmall
  | assign k v => exact Agree.onFst (assign_agree hfst k v) hsnd
  | assignAt pos v => exact Agree.onFst (assignAt_agree hfst pos v) hsnd
  | insert k v => exact Agree.onFst (hfst.insert (k, v) hsmall) hsnd
  | emplace k v => exact Agree.onFst (hfst.emplace (k, v) hsmall) hsnd
  | insertFull k v => exact Agree.onFst (insertFull_agree hfst k v hsmall) hsnd
  | insertOrAssign k v => exact Agree.onFst (insertOrAssign_agree hfst k v hsmall) hsnd
  | valueOrInsert k d => exact Agree.onFst (valueOrInsert_agree hfst k d hsmall) hsnd
  | insertSorted less k v => exact insertSorted_agree h less k v hsmall
  | insertSortedBy less k v => exact insertSortedBy_agree h less k v hsmall
  | insertBefore target k v => exact Agree.onFst (insertBefore_agree hfst target k v hsmall) hsnd
  | shiftInsert target k v => exact Agree.onFst (shiftInsert_agree hfst target k v hsmall) hsnd
  | remove way k => exact Agree.onFst ((hfst.takeKey way k).map _) hsnd
  | sortBy less => exact sortBy_agree h less
  | sortKeys less => exact sortBy_agree h _
  | sortByKey less f => exact sortBy_agree h _
  | sortByCachedKey less f => exact sortByCachedKey_agree h less f

end Twin

end Map

end OrderedHash
