import OrderedHash.Proofs.Runs.Handles
import OrderedHash.Table.Slice

namespace OrderedHash

/-!
# Operations of maps and sets alike

A query reads a table (`Table.Query`), an operation may change it (`Table.Op`). Both may
call functions of the caller, which have a state of their own and may fail. Queries and
operations on a slice name the ends of the slice, and those of the slices taken from it in
turn.

On twins a query is the same action (`Table.Query.run_eq`), and an operation agrees
(`Table.Op.agree`).
-/

open OrderedHash.Action (Agree Beside)

variable {K V σ α : Type}

/-! ### Queries -/

namespace Slice

/-- The slice of a table between two positions, and the parts of it taken in turn. -/
def within (first last : Nat) (parts : List (Nat × Nat)) (t : Table V) : Except Fault Slice :=
  parts.foldlM (fun s part => s.range part.1 part.2) =<< ofRange first last t.size

/-- The queries of a slice, with the types of their answers. -/
inductive Query (V σ : Type) : Type → Type 1 where
  | size : Query V σ Nat
  | items : Query V σ (List V)
  | item? (i : Nat) : Query V σ (Option V)
  | itemAt (i : Nat) : Query V σ V
  | bisect (compare : V → Action σ Ordering) : Query V σ (Nat × Bool)
  | partitionPoint (test : V → Action σ Bool) : Query V σ Nat

/-- What a query of a slice answers. -/
def Query.run (s : Slice) (t : Table V) : Query V σ α → Action σ α
  | .size => return s.size
  | .items => return s.items t
  | .item? i => return s.item? t i
  | .itemAt i => Action.ofExcept (s.itemAt t i)
  | .bisect compare => s.bisect t compare
  | .partitionPoint test => s.partitionPoint t test

end Slice

namespace Table

/-- The queries of a table, with the types of their answers. -/
inductive Query (K V σ : Type) : Type → Type 1 where
  | size : Query K V σ Nat
  | lookup (k : K) : Query K V σ (Option Nat)
  | lookupItem (k : K) : Query K V σ (Option (Nat × V))
  | contains (k : K) : Query K V σ Bool
  | itemAt (pos : Nat) : Query K V σ V
  | first? : Query K V σ (Option V)
  | last? : Query K V σ (Option V)
  | itemsIn (first last : Nat) : Query K V σ (List V)
  | bisect (compare : V → Action σ Ordering) : Query K V σ (Nat × Bool)
  | partitionPoint (test : V → Action σ Bool) : Query K V σ Nat
  | slice {α : Type} (first last : Nat) (parts : List (Nat × Nat)) (query : Slice.Query V σ α) :
      Query K V σ α

/-- What a query of a table answers. -/
def Query.run (κ : Keying K V) (t : Table V) : Query K V σ α → Action σ α
  | .size => return t.size
  | .lookup k => Action.ofExcept (t.lookup κ k)
  | .lookupItem k => Action.ofExcept (t.lookupItem κ k)
  | .contains k => Action.ofExcept (t.contains κ k)
  | .itemAt pos => Action.ofExcept (t.itemAt pos)
  | .first? => return t.first?
  | .last? => return t.last?
  | .itemsIn first last => return t.itemsIn first last
  | .bisect compare => Table.bisect t.items compare 0 t.size
  | .partitionPoint test => Table.partitionFrom t.items test 0 t.size
  | .slice first last parts query => do
    query.run (← Action.ofExcept (Slice.within first last parts t)) t

end Table

/-! ### Operations -/

namespace Slice

/-- The operations of a slice, with the types of their answers. -/
inductive Op (key : V → K) (σ : Type) : Type → Type 1 where
  | modifyAt (i : Nat) (f : Edit key) : Op key σ Unit
  | sortBy (less : V → V → Action σ Bool) : Op key σ Unit
  | sortByKey {C : Type} (less : C → C → Bool) (f : V → Action σ C) : Op key σ Unit
  | reverse : Op key σ Unit

/-- What an operation of a slice does to the table. -/
def Op.run (κ : Keying K V) (s : Slice) : Op κ.key σ α → Action (Table V × σ) α
  | .modifyAt i f => Action.onFst (s.modifyAt i f.edit)
  | .sortBy less => s.sortBy κ less
  | .sortByKey less f => s.sortByKey κ less f
  | .reverse => modify fun p => (s.reverse κ p.1, p.2)

end Slice

namespace Table

/-- The operations of a table, with the types of their answers. -/
inductive Op (key : V → K) (σ : Type) : Type → Type 1 where
  | extend (vs : List V) (countKnown : Bool) : Op key σ Unit
  | insertEach (vs : List V) : Op key σ Unit
  | assignAll (vs : List V) : Op key σ Unit
  | clear : Op key σ Unit
  | takeAt (way : Removal) (pos : Nat) : Op key σ (Option V)
  | takeKey (way : Removal) (k : K) : Op key σ (Option V)
  | pop : Op key σ (Option V)
  | eraseRange (first last : Nat) : Op key σ Unit
  | drain (first last : Nat) : Op key σ (List V)
  | truncate (count : Nat) : Op key σ Unit
  | splice (first last : Nat) (vs : List V) : Op key σ (List V)
  | retain (keep : Visitor key σ Bool) : Op key σ Nat
  | eraseIf (drop : Visitor key σ Bool) : Op key σ Nat
  | extractIf (first last : Nat) (test : Visitor key σ Bool) (requests : List (Option Nat)) :
      Op key σ (List V × Nat × Option Fault)
  | moveIndex (source target : Nat) : Op key σ Unit
  | swapIndices (p q : Nat) : Op key σ Unit
  | reverse : Op key σ Unit
  | reserve (count : Nat) : Op key σ Unit
  | rehash : Op key σ Unit
  | shrinkToFit : Op key σ Unit
  | setLoadFactor (f : LoadFactor) : Op key σ Unit
  | slice {α : Type} (first last : Nat) (parts : List (Nat × Nat)) (op : Slice.Op key σ α) :
      Op key σ α

/-- What an operation does to the table and to the state of the caller. -/
def Op.run (κ : Keying K V) : Op κ.key σ α → Action (Table V × σ) α
  | .extend vs countKnown => Action.onFst (Table.extend κ vs countKnown)
  | .insertEach vs => Action.onFst (Table.insertEach κ vs)
  | .assignAll vs => Action.onFst do
    modify Table.clear
    Table.extend κ vs true
  | .clear => Action.onFst (modify Table.clear)
  | .takeAt way pos => Action.onFst (Table.takeAt κ way pos)
  | .takeKey way k => Action.onFst (Table.takeKey κ way k)
  | .pop => Action.onFst (Table.pop κ)
  | .eraseRange first last => Action.onFst (Table.eraseRange κ first last)
  | .drain first last => Action.onFst (Table.drain κ first last)
  | .truncate count => Action.onFst (Table.truncate κ count)
  | .splice first last vs => Action.onFst (Table.splice κ first last vs)
  | .retain keep => Table.retain κ keep.visit
  | .eraseIf drop => Table.eraseIf κ drop.visit
  | .extractIf first last test requests => Table.extractIf κ first last test.visit requests
  | .moveIndex source target => Action.onFst (Table.moveIndex κ source target)
  | .swapIndices p q => Action.onFst (Table.swapIndices κ p q)
  | .reverse => Action.onFst (modify fun t => t.reverseRange κ 0 t.size)
  | .reserve count => Action.onFst (modify fun t => t.reserve κ count)
  | .rehash => Action.onFst (modify fun t => t.rehash κ)
  | .shrinkToFit => Action.onFst (modify fun t => t.shrinkToFit κ)
  | .setLoadFactor f => Action.onFst (modify fun t => t.setLoadFactor f)
  | .slice first last parts op => do
    op.run κ (← Action.ofExcept (Slice.within first last parts (← get).1))

end Table

/-! ### On twins -/

namespace Slice

theorem within_eq {κ : Keying K V} {g : Variant K} {t t' : Table V} (h : Table.Twin κ g t t')
    (first last : Nat) (parts : List (Nat × Nat)) :
    within first last parts t' = within first last parts t := by
  unfold within
  rw [h.size_eq]

theorem ends_of_ofRange {first last bound : Nat} {s : Slice}
    (h : ofRange first last bound = .ok s) : s.first ≤ s.last ∧ s.last ≤ bound := by
  unfold ofRange at h
  split at h
  · rename_i hrange
    cases h
    exact hrange
  · cases h

/-- A part of a slice ends where the slice ends, or before. -/
theorem ends_of_range {s part : Slice} {first last : Nat} (hs : s.first ≤ s.last)
    (h : s.range first last = .ok part) : part.first ≤ part.last ∧ part.last ≤ s.last := by
  unfold range size at h
  split at h
  · rename_i hrange
    cases h
    exact ⟨by show s.first + first ≤ s.first + last; omega, by show s.first + last ≤ s.last; omega⟩
  · cases h

/-- A slice that can be taken is a range of the table. -/
theorem ends_of_within {first last : Nat} {parts : List (Nat × Nat)} {t : Table V} {s : Slice}
    (h : within first last parts t = .ok s) : s.first ≤ s.last ∧ s.last ≤ t.size := by
  unfold within at h
  cases hwhole : ofRange first last t.size with
  | error e =>
    rw [hwhole] at h
    cases h
  | ok whole =>
    rw [hwhole] at h
    obtain ⟨hfirst, hlast⟩ := ends_of_ofRange hwhole
    -- the induction is on the parts, each taken from the slice before
    clear hwhole
    induction parts generalizing whole with
    | nil =>
      cases h
      exact ⟨hfirst, hlast⟩
    | cons part rest ih =>
      have h : (whole.range part.1 part.2 >>= fun s =>
          rest.foldlM (fun s part => s.range part.1 part.2) s) = .ok s := h
      cases hpart : whole.range part.1 part.2 with
      | error e =>
        rw [hpart] at h
        cases h
      | ok inner =>
        rw [hpart] at h
        obtain ⟨hfirst', hlast'⟩ := ends_of_range hfirst hpart
        exact ih inner h hfirst' (hlast'.trans hlast)

theorem Query.run_eq {κ : Keying K V} {g : Variant K} {t t' : Table V}
    (h : Table.Twin κ g t t') (s : Slice) (query : Query V σ α) : query.run s t' = query.run s t := by
  have hitems : s.items t' = s.items t := h.itemsIn_eq s.first s.last
  have hitem (i : Nat) : s.item? t' i = s.item? t i := by
    unfold Slice.item?
    rw [h.items]
  cases query with
  | size => rfl
  | items => exact congrArg pure hitems
  | item? i => exact congrArg pure (hitem i)
  | itemAt i =>
    simp only [Query.run, Slice.itemAt, hitem]
  | bisect compare =>
    simp only [Query.run, Slice.bisect, h.items]
  | partitionPoint test =>
    simp only [Query.run, Slice.partitionPoint, h.items]

end Slice

namespace Table

variable {κ : Keying K V} {g : Variant K}

theorem Query.run_eq {t t' : Table V} (h : Twin κ g t t') (query : Query K V σ α) :
    query.run (κ.hashedBy g) t' = query.run κ t := by
  -- what the answers depend on is the same for twins: items, size and lookups
  cases query with
  | size => exact congrArg pure h.size_eq
  | lookup k => exact congrArg Action.ofExcept (h.lookup_eq k)
  | lookupItem k => exact congrArg Action.ofExcept (h.lookupItem_eq k)
  | contains k => exact congrArg Action.ofExcept (h.contains_eq k)
  | itemAt pos => exact congrArg Action.ofExcept (h.itemAt_eq pos)
  | first? =>
    simp only [Query.run, Table.first?, h.items]
  | last? =>
    simp only [Query.run, Table.last?, h.items]
  | itemsIn first last => exact congrArg pure (h.itemsIn_eq first last)
  | bisect compare =>
    simp only [Query.run, h.items, h.size_eq]
  | partitionPoint test =>
    simp only [Query.run, h.items, h.size_eq]
  | slice first last parts query =>
    simp only [Query.run, Slice.within_eq h, query.run_eq h]

end Table

namespace Slice

variable {κ : Keying K V} {g : Variant K}

/-- An operation of a slice that does not pass the end of the table. -/
theorem Op.agree {p p' : Table V × σ} (h : Beside (Table.Twin κ g) p p') {s : Slice}
    (hlast : s.last ≤ p.1.size) (op : Op κ.key σ α) :
    Agree (Beside (Table.Twin κ g)) ((op.run κ s).step p)
      ((Op.run (κ.hashedBy g) s op).step p') := by
  obtain ⟨t, t', c, rfl, rfl, htable⟩ := h.pairs
  cases op with
  | modifyAt i f =>
    simp only [Op.run, Slice.modifyAt, Table.checkPosition]
    refine Agree.onFst ?_ h.snd
    exact Agree.demand htable fun _ => Agree.modify (htable.modify (s.first + i) f.keeps)
  | sortBy less => exact htable.sortRange hlast less c
  | sortByKey less f => exact htable.sortRange hlast (Table.lessByKey less f) c
  | reverse => exact Agree.modify ⟨htable.reverseRange hlast, rfl⟩

end Slice

namespace Table

variable {κ : Keying K V} {g : Variant K}

/-- An operation on twins has the same answer and leaves twins, unless positions run out. -/
theorem Op.agree {p p' : Table V × σ} (h : Beside (Twin κ g) p p') (op : Op κ.key σ α)
    (hsmall : ((op.run κ).step p).2.1.size < Node.movingPosition) :
    Agree (Beside (Twin κ g)) ((op.run κ).step p) ((Op.run (κ.hashedBy g) op).step p') := by
  obtain ⟨t, t', c, rfl, rfl, htable⟩ := h.pairs
  cases op with
  | extend vs countKnown => exact Agree.onFst (htable.extend vs countKnown hsmall) h.snd
  | insertEach vs => exact Agree.onFst (htable.insertEach vs hsmall) h.snd
  | assignAll vs =>
    simp only [Op.run, Action.step_onFst, Action.step_modify_bind] at hsmall
    simp only [Op.run]
    refine Agree.onFst ?_ h.snd
    rw [Action.step_modify_bind, Action.step_modify_bind]
    exact htable.clear.extend vs true hsmall
  | clear => exact Agree.onFst (Agree.modify htable.clear) h.snd
  | takeAt way pos => exact Agree.onFst (htable.takeAt way pos) h.snd
  | takeKey way k => exact Agree.onFst (htable.takeKey way k) h.snd
  | pop =>
    simp only [Op.run]
    exact Agree.onFst htable.pop h.snd
  | eraseRange first last => exact Agree.onFst (htable.eraseRange first last) h.snd
  | drain first last => exact Agree.onFst (htable.drain first last) h.snd
  | truncate count => exact Agree.onFst (htable.truncate count) h.snd
  | splice first last vs => exact Agree.onFst (htable.splice first last vs hsmall) h.snd
  | retain keep => exact htable.retain keep.keeps c
  | eraseIf drop => exact htable.eraseIf drop.keeps c
  | extractIf first last test requests => exact htable.extractIf first last test.keeps requests c
  | moveIndex source target => exact Agree.onFst (htable.moveIndex source target) h.snd
  | swapIndices p q => exact Agree.onFst (htable.swapIndices p q) h.snd
  | reverse =>
    simp only [Op.run]
    refine Agree.onFst (Agree.modify ?_) h.snd
    -- the twins are of one size, so the same range is reversed
    rw [htable.size_eq]
    exact htable.reverseRange le_rfl
  | reserve count =>
    simp only [Op.run]
    refine Agree.onFst (Agree.modify ?_) h.snd
    exact htable.reserve count count
  | rehash => exact Agree.onFst (Agree.modify htable.rehash) h.snd
  | shrinkToFit => exact Agree.onFst (Agree.modify htable.shrinkToFit) h.snd
  | setLoadFactor f =>
    simp only [Op.run]
    refine Agree.onFst (Agree.modify ?_) h.snd
    exact htable.setLoadFactor f f
  | slice first last parts op =>
    simp only [Op.run, Action.step_get_bind]
    -- which slice it is depends on the table only through its size
    rw [Slice.within_eq htable]
    refine Agree.ofExcept h fun s hs => op.agree h (Slice.ends_of_within hs).2

end Table

end OrderedHash
