import OrderedHash.Proofs.Runs.Maps
import OrderedHash.Set.Algebra

namespace OrderedHash

/-!
# Operations of sets

The operations of sets are those of all tables, those that tell whether a key was stored,
and set algebra, which builds a set from two others (`Set.Algebra`) or compares them
(`Set.Relation`). On twins they agree (`Set.Op.agree`, `Set.Algebra.twin`,
`Set.Relation.holds_eq`).
-/

open OrderedHash.Action (Agree Beside)

namespace Set

variable {K σ α : Type}

/-- The queries of a set, with the types of their answers. -/
inductive Query (K σ : Type) : Type → Type 1 where
  | common {α : Type} (query : Table.Query K K σ α) : Query K σ α
  | indexOf? (k : K) : Query K σ (Option Nat)
  | getFull? (k : K) : Query K σ (Option (Nat × K))
  | get? (k : K) : Query K σ (Option K)
  | binarySearch (less : K → K → Action σ Bool) (k : K) : Query K σ (Nat × Bool)
  | binarySearchBy (compare : K → Action σ Ordering) : Query K σ (Nat × Bool)

/-- What a query of a set answers. -/
def Query.run (κ : Hashing K) (s : Set K) : Query K σ α → Action σ α
  | .common query => query.run κ.set s
  | .indexOf? k => Action.ofExcept (s.indexOf? κ k)
  | .getFull? k => Action.ofExcept (s.getFull? κ k)
  | .get? k => Action.ofExcept (s.get? κ k)
  | .binarySearch less k => s.binarySearch less k
  | .binarySearchBy compare => s.binarySearchBy compare

/-- The operations of a set, with the types of their answers. -/
inductive Op (K σ : Type) : Type → Type 1 where
  | common {α : Type} (op : Table.Op (id : K → K) σ α) : Op K σ α
  | insert (k : K) : Op K σ (Nat × Bool)
  | emplace (k : K) : Op K σ (Nat × Bool)
  | replace (k : K) : Op K σ (Option K)
  | insertSorted (less : K → K → Action σ Bool) (k : K) : Op K σ (Nat × Bool)
  | insertBefore (target : Nat) (k : K) : Op K σ (Nat × Bool)
  | shiftInsert (target : Nat) (k : K) : Op K σ Bool
  | remove (way : Table.Removal) (k : K) : Op K σ Bool
  | take (way : Table.Removal) (k : K) : Op K σ (Option K)
  | sortBy (less : K → K → Action σ Bool) : Op K σ Unit
  | sortByKey {C : Type} (less : C → C → Bool) (f : K → Action σ C) : Op K σ Unit
  | sortByCachedKey {C : Type} (less : C → C → Bool) (f : K → Action σ C) : Op K σ Unit

/-- What an operation does to the set and to the state of the caller. -/
def Op.run (κ : Hashing K) : Op K σ α → Action (Set K × σ) α
  | .common op => op.run κ.set
  | .insert k => Action.onFst (Set.insert κ k)
  | .emplace k => Action.onFst (Set.emplace κ k)
  | .replace k => Action.onFst (Set.replace κ k)
  | .insertSorted less k => Set.insertSorted κ less k
  | .insertBefore target k => Action.onFst (Set.insertBefore κ target k)
  | .shiftInsert target k => Action.onFst (Set.shiftInsert κ target k)
  | .remove way k => Action.onFst (Set.remove κ way k)
  | .take way k => Action.onFst (Set.take κ way k)
  | .sortBy less => Set.sortBy κ less
  | .sortByKey less f => Set.sortByKey κ less f
  | .sortByCachedKey less f => Set.sortByCachedKey κ less f

/-- The ways to make a set of two. -/
inductive Algebra where
  | union
  | intersection
  | difference
  | symmetricDifference

/-- The set made of two, each with its own hash function. -/
def Algebra.apply (κ κ' : Hashing K) (a b : Set K) : Algebra → Except Fault (Set K)
  | .union => Set.union κ a b
  | .intersection => Set.intersection κ κ' a b
  | .difference => Set.difference κ κ' a b
  | .symmetricDifference => Set.symmetricDifference κ κ' a b

/-- The questions about two sets. -/
inductive Relation where
  | isSubset
  | isSuperset
  | isDisjoint

/-- Whether two sets, each with its own hash function, are so related. -/
def Relation.holds (κ κ' : Hashing K) (a b : Set K) : Relation → Except Fault Bool
  | .isSubset => Set.isSubset κ' a b
  | .isSuperset => Set.isSuperset κ a b
  | .isDisjoint => Set.isDisjoint κ κ' a b

/-! ### Sets that are twins -/

section Twin

variable {κ : Hashing K} {g : Variant K} {t t' u u' : Set K}

/-- The stored key that equals a given one is the same in twins. -/
theorem get?_eq (h : Table.Twin κ.set g t t') (k : K) : t'.get? (κ.hashedBy g) k = t.get? κ k := by
  have hfull : t'.getFull? (κ.hashedBy g) k = t.getFull? κ k := h.lookupItem_eq k
  unfold get?
  rw [hfull]

/-- Every query of sets answers the same for twins. -/
theorem Query.run_eq (h : Table.Twin κ.set g t t') (query : Query K σ α) :
    query.run (κ.hashedBy g) t' = query.run κ t := by
  cases query with
  | common query => exact query.run_eq h
  | indexOf? k => exact congrArg Action.ofExcept (h.lookup_eq k)
  | getFull? k => exact congrArg Action.ofExcept (h.lookupItem_eq k)
  | get? k => exact congrArg Action.ofExcept (get?_eq h k)
  | binarySearch less k => simp only [Query.run, Set.binarySearch, h.items, h.size_eq]
  | binarySearchBy compare => simp only [Query.run, Set.binarySearchBy, h.items, h.size_eq]

/-- A key replaces the stored one, which equals it. -/
theorem replace_agree (h : Table.Twin κ.set g t t') (k : K)
    (hsmall : ((replace κ k).step t).2.size < Node.movingPosition) :
    Agree (Table.Twin κ.set g) ((replace κ k).step t) ((replace (κ.hashedBy g) k).step t') := by
  unfold replace at hsmall ⊢
  rw [Hashing.set_hashedBy]
  refine h.onKey (fun hheld pos hfind => ?_) fun hheld hfind hstep => ?_
  · rw [Action.step_get_bind, Action.step_get_bind, h.items]
    refine (Agree.modify (h.setItem hheld fun w hw => ?_)).map fun _ => t.items[pos]?
    -- the key is found where an equal one is stored, which it replaces
    obtain ⟨stored, hstored, hsame⟩ := (h.left.find_eq_some h.admits.lawful k pos).mp hfind
    cases hstored.symm.trans hw
    exact hsame
  · rw [hstep, Action.step_get_bind, Action.step_map_snd] at hsmall
    rw [Action.step_get_bind, Action.step_get_bind, h.size_eq]
    exact (h.addAt le_rfl hheld hfind hsmall).map fun _ => none

/-- A key is inserted into twins in order alike. -/
theorem insertSorted_agree {s s' : Set K × σ} (h : Beside (Table.Twin κ.set g) s s')
    (less : K → K → Action σ Bool) (k : K)
    (hsmall : ((insertSorted κ less k).step s).2.1.size < Node.movingPosition) :
    Agree (Beside (Table.Twin κ.set g)) ((insertSorted κ less k).step s)
      ((insertSorted (κ.hashedBy g) less k).step s') := by
  obtain ⟨t, t', c, rfl, rfl, htable⟩ := h.pairs
  unfold insertSorted at hsmall ⊢
  rw [Action.step_bind_snd fun _ _ => rfl] at hsmall
  exact (htable.insertSorted _ k c hsmall).bind (fun _ _ _ _ h => h) fun _ _ _ _ h =>
    Agree.pure h _

/-- A key is inserted into twins before a position alike. -/
theorem insertBefore_agree (h : Table.Twin κ.set g t t') (target : Nat) (k : K)
    (hsmall : ((insertBefore κ target k).step t).2.size < Node.movingPosition) :
    Agree (Table.Twin κ.set g) ((insertBefore κ target k).step t)
      ((insertBefore (κ.hashedBy g) target k).step t') := by
  unfold insertBefore at hsmall ⊢
  rw [Action.step_bind_snd fun _ _ => rfl] at hsmall
  exact (h.insertBefore target k hsmall).bind (fun _ _ _ _ h => h) fun _ _ _ _ h =>
    Agree.pure h _

/-- A key is inserted into twins at a position alike. -/
theorem shiftInsert_agree (h : Table.Twin κ.set g t t') (target : Nat) (k : K)
    (hsmall : ((shiftInsert κ target k).step t).2.size < Node.movingPosition) :
    Agree (Table.Twin κ.set g) ((shiftInsert κ target k).step t)
      ((shiftInsert (κ.hashedBy g) target k).step t') := by
  unfold shiftInsert at hsmall ⊢
  rw [Action.step_map_snd] at hsmall
  exact (h.shiftInsert target k hsmall).map _

/-- Twins are sorted alike. -/
theorem sortBy_agree {s s' : Set K × σ} (h : Beside (Table.Twin κ.set g) s s')
    (less : K → K → Action σ Bool) :
    Agree (Beside (Table.Twin κ.set g)) ((sortBy κ less).step s)
      ((sortBy (κ.hashedBy g) less).step s') := by
  obtain ⟨t, t', c, rfl, rfl, htable⟩ := h.pairs
  unfold sortBy
  rw [Action.step_get_bind, Action.step_get_bind, htable.size_eq]
  exact htable.sortRange le_rfl less c

/-- Twins are sorted by keys of their items alike. -/
theorem sortByCachedKey_agree {C : Type} {s s' : Set K × σ}
    (h : Beside (Table.Twin κ.set g) s s') (less : C → C → Bool) (f : K → Action σ C) :
    Agree (Beside (Table.Twin κ.set g)) ((sortByCachedKey κ less f).step s)
      ((sortByCachedKey (κ.hashedBy g) less f).step s') := by
  obtain ⟨t, t', c, rfl, rfl, htable⟩ := h.pairs
  unfold sortByCachedKey
  rw [Action.step_get_bind, Action.step_get_bind, htable.size_eq]
  exact htable.sortRangeByCachedKey le_rfl less f c

/-- An operation on twins has the same answer and leaves twins, unless positions run out. -/
theorem Op.agree {s s' : Set K × σ} (h : Beside (Table.Twin κ.set g) s s') (op : Op K σ α)
    (hsmall : ((op.run κ).step s).2.1.size < Node.movingPosition) :
    Agree (Beside (Table.Twin κ.set g)) ((op.run κ).step s)
      ((op.run (κ.hashedBy g)).step s') := by
  have hfst := h.fst
  have hsnd := h.snd
  cases op with
  | common op => exact op.agree h hsmall
  | insert k => exact Agree.onFst (hfst.insert k hsmall) hsnd
  | emplace k => exact Agree.onFst (hfst.emplace k hsmall) hsnd
  | replace k => exact Agree.onFst (replace_agree hfst k hsmall) hsnd
  | insertSorted less k => exact insertSorted_agree h less k hsmall
  | insertBefore target k => exact Agree.onFst (insertBefore_agree hfst target k hsmall) hsnd
  | shiftInsert target k => exact Agree.onFst (shiftInsert_agree hfst target k hsmall) hsnd
  | remove way k => exact Agree.onFst ((hfst.takeKey way k).map _) hsnd
  | take way k => exact Agree.onFst (hfst.takeKey way k) hsnd
  | sortBy less => exact sortBy_agree h less
  | sortByKey less f => exact sortBy_agree h _
  | sortByCachedKey less f => exact sortByCachedKey_agree h less f

/-! ### Set algebra -/

variable {κ' : Hashing K} {g' : Variant K} {s s' : Set K}

/-- Twins contain the same keys. -/
theorem contains_eq (h : Table.Twin κ.set g t t') (k : K) :
    t'.contains (κ.hashedBy g).set k = t.contains κ.set k :=
  h.contains_eq k

/-- Twins contain all keys of a list alike, or none of them. -/
theorem allAre_eq (h : Table.Twin κ.set g t t') (present : Bool) (ks : List K) :
    allAre (κ.hashedBy g) present t' ks = allAre κ present t ks := by
  simp only [allAre, contains_eq h]

/-- A key is added to twins if it is in twins of another set, or if it is not, alike. -/
theorem addIf_agree (hs : Table.Twin κ.set g s s') (hu : Table.Twin κ'.set g' u u')
    (present : Bool) (k : K)
    (hsmall : ((addIf κ κ' present u k).step s).2.size < Node.movingPosition) :
    Agree (Table.Twin κ.set g) ((addIf κ κ' present u k).step s)
      ((addIf (κ.hashedBy g) (κ'.hashedBy g') present u' k).step s') := by
  unfold addIf at hsmall ⊢
  rw [contains_eq hu]
  refine Agree.ofExcept hs fun found hfound => ?_
  rw [hfound, Action.ofExcept, Action.step_pure_bind] at hsmall
  split
  · rename_i hpresent
    rw [if_pos hpresent, Action.step_map_snd] at hsmall
    exact (hs.insert k hsmall).map fun _ => ()
  · exact Agree.pure hs ()

/-- To add a key, or not, grows a set. -/
theorem addIf_grows (present : Bool) (u : Set K) (k : K) :
    Table.Grows (addIf κ κ' present u k) := by
  refine (Table.Grows.ofExcept _).bind fun found => ?_
  split
  · exact (Table.insert_grows (κ := κ.set) k).bind fun _ => Table.Grows.pure ()
  · exact Table.Grows.pure ()

/-- Keys are gathered in turn; no set on the way is larger than the last. -/
theorem gather_agree (hs : Table.Twin κ.set g s s') (hu : Table.Twin κ'.set g' u u')
    (present : Bool) (ks : List K)
    (hsmall : ((gather κ κ' present u ks).step s).2.size < Node.movingPosition) :
    Agree (Table.Twin κ.set g) ((gather κ κ' present u ks).step s)
      ((gather (κ.hashedBy g) (κ'.hashedBy g') present u' ks).step s') :=
  Agree.forEach (P := fun s => s.size < Node.movingPosition)
    (fun k _ _ hs hk => addIf_agree hs hu present k hk)
    (fun k s hk => (addIf_grows present u k).small s hk) ks hs hsmall

/-- To gather keys grows a set. -/
theorem gather_grows (present : Bool) (u : Set K) (ks : List K) :
    Table.Grows (gather κ κ' present u ks) := by
  induction ks with
  | nil => exact Table.Grows.pure ()
  | cons k rest ih => exact (addIf_grows present u k).bind fun _ => ih

/-- Whether a key is accepted does not depend on the set that it is added to. -/
theorem answer_addIf (hu : Table.Twin κ'.set g' u u') (present : Bool) (k : K) (s s' : Set K) :
    ((addIf (κ.hashedBy g) (κ'.hashedBy g') present u' k).step s').1 =
      ((addIf κ κ' present u k).step s).1 := by
  have hinsert := (Table.answer_insert (κ := κ.set.hashedBy g) k s').trans
    ((Table.accept_hashedBy κ.set g k).trans (Table.answer_insert (κ := κ.set) k s).symm)
  unfold addIf
  rw [contains_eq hu]
  cases u.contains κ'.set k with
  | error fault => rw [Action.ofExcept, Action.step_throw_bind, Action.step_throw_bind]
  | ok found =>
    rw [Action.ofExcept, Action.step_pure_bind, Action.step_pure_bind]
    split
    · exact hinsert
    · rfl

/-- Whether keys can be gathered depends on the set that they are looked up in, not on the one that
    they are added to. -/
theorem answer_gather (hu : Table.Twin κ'.set g' u u') (present : Bool) (ks : List K)
    (s s' : Set K) : ((gather (κ.hashedBy g) (κ'.hashedBy g') present u' ks).step s').1 =
      ((gather κ κ' present u ks).step s).1 :=
  Action.answer_forEach (answer_addIf hu present) ks s s'

/-- Keys are gathered into sets that are made of twins. -/
theorem made_gather {e e' : Except Fault (Set K)} (he : Table.Twin.Made κ.set g e e')
    (hu : Table.Twin κ'.set g' u u') (present : Bool) (ks : List K) :
    Table.Twin.Made κ.set g (e >>= fun s => Table.build s (gather κ κ' present u ks))
      (e' >>= fun s => Table.build s (gather (κ.hashedBy g) (κ'.hashedBy g') present u' ks)) :=
  he.build (gather_grows present u ks) (answer_gather hu present ks) fun hs hsmall =>
    gather_agree hs hu present ks hsmall

/-- Sets made of twins are twins. -/
theorem Algebra.made (algebra : Algebra) (ht : Table.Twin κ.set g t t')
    (hu : Table.Twin κ'.set g' u u') :
    Table.Twin.Made κ.set g (algebra.apply κ κ' t u)
      (algebra.apply (κ.hashedBy g) (κ'.hashedBy g') t' u') := by
  have hempty := (Table.Twin.empty ht.admits .standard .standard).made
  have hinter := made_gather hempty hu true t.items.toList
  have hdiff := made_gather hempty hu false t.items.toList
  cases algebra with
  -- the union extends a copy of the first set, and the others are gathered
  | union =>
    have hunion := ht.made.build (Table.extend_grows u.items.toList true)
      (fun s s' => Table.answer_extend u.items.toList true s s') fun hs hsmall =>
        hs.extend u.items.toList true hsmall
    simp only [apply, Set.union, hu.items]
    exact hunion
  | intersection =>
    simp only [apply, Set.intersection, ht.items]
    exact hinter
  | difference =>
    simp only [apply, Set.difference, ht.items]
    exact hdiff
  | symmetricDifference =>
    -- the keys of the second set come behind the difference
    simp only [apply, Set.symmetricDifference, Set.difference, ht.items, hu.items]
    exact made_gather hdiff ht false u.items.toList

/-- Twins are related in the same ways. -/
theorem Relation.holds_eq (relation : Relation) (ht : Table.Twin κ.set g t t')
    (hu : Table.Twin κ'.set g' u u') :
    relation.holds (κ.hashedBy g) (κ'.hashedBy g') t' u' = relation.holds κ κ' t u := by
  cases relation with
  | isSubset => simp only [holds, Set.isSubset, ht.items, ht.size_eq, hu.size_eq, allAre_eq hu]
  | isSuperset =>
    simp only [holds, Set.isSuperset, Set.isSubset, hu.items, ht.size_eq, hu.size_eq,
      allAre_eq ht]
  | isDisjoint =>
    simp only [holds, Set.isDisjoint, ht.items, hu.items, ht.size_eq, hu.size_eq, allAre_eq ht,
      allAre_eq hu]

end Twin

end Set

end OrderedHash
