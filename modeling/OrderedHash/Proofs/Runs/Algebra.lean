import OrderedHash.Proofs.Runs.Consistency
import OrderedHash.Proofs.Table.Algebra

namespace OrderedHash

/-!
# Set algebra on containers of a run

The keys of a set are parted by another one into those that are in it, which are the
intersection, and those that are not, which are the difference. The union has the keys of the
first set before the difference the other way round, and the symmetric difference has one
difference before the other. Every result holds exactly the keys that set theory says, in the
order of the sets that it is made of (`Set.FollowsSetTheory`, `Set.Joins`). Keys that are equal
need not be identical; the key that is kept is then that of the first set.

The two sets compare keys alike, but each is looked through by its own hash function. A result
has the hash function of the first set.
-/

variable {K σ τ : Type}

namespace Set

/-- A question is answered, and the answer is true. -/
def Tells (answer : Except Fault Bool) (P : Prop) : Prop := ∃ b, answer = .ok b ∧ (b ↔ P)

/-- What is promised of the intersection and of the difference of two sets, and of questions about
    the two. -/
structure FollowsSetTheory (κ κ' : Hashing K) (a b inter diff : Set K) : Prop where
  intersection_eq : intersection κ κ' a b = .ok inter
  difference_eq : difference κ κ' a b = .ok diff
  intersection_items : inter.items.toList = a.items.toList.filter (κ.set.holds b.items.toList)
  difference_items : diff.items.toList =
    a.items.toList.filter fun k => !κ.set.holds b.items.toList k
  /-- The two parts make up the first set. -/
  parts_perm : (inter.items.toList ++ diff.items.toList).Perm a.items.toList
  parts_apart : ∀ k ∈ inter.items, ∀ l ∈ diff.items, κ.same k l = false
  has_intersection : ∀ k, inter.has κ k = (a.has κ k && b.has κ' k)
  has_difference : ∀ k, diff.has κ k = (a.has κ k && !b.has κ' k)
  intersection_consistent : inter.Consistent κ.set
  difference_consistent : diff.Consistent κ.set
  tells_isSubset : Tells (isSubset κ' a b) (∀ k ∈ a.items, ∃ l ∈ b.items, κ.same l k)
  tells_isSubset_difference : Tells (isSubset κ' a b) (diff.items = #[])
  tells_isSuperset : Tells (isSuperset κ a b) (∀ l ∈ b.items, ∃ k ∈ a.items, κ.same k l)
  isSuperset_eq : isSuperset κ a b = isSubset κ b a
  tells_isDisjoint :
    Tells (isDisjoint κ κ' a b) (∀ k ∈ a.items, ∀ l ∈ b.items, κ.same k l = false)
  tells_isDisjoint_intersection : Tells (isDisjoint κ κ' a b) (inter.items = #[])
  isDisjoint_comm : isDisjoint κ κ' a b = isDisjoint κ' κ b a

/-- What is promised of the sets that have keys of both. The difference the other way round
    is `diff'`. -/
structure Joins (κ κ' : Hashing K) (a b inter diff diff' union symm : Set K) : Prop where
  union_eq : Set.union κ a b = .ok union
  symmetricDifference_eq : symmetricDifference κ κ' a b = .ok symm
  union_items : union.items.toList = a.items.toList ++ diff'.items.toList
  union_items_filter : union.items.toList =
    a.items.toList ++ b.items.toList.filter fun k => !κ.set.holds a.items.toList k
  symmetricDifference_items : symm.items.toList = diff.items.toList ++ diff'.items.toList
  has_union : ∀ k, union.has κ k = (a.has κ k || b.has κ' k)
  has_symmetricDifference : ∀ k, symm.has κ k = (a.has κ k ^^ b.has κ' k)
  union_consistent : union.Consistent κ.set
  symmetricDifference_consistent : symm.Consistent κ.set
  size_add : union.size + inter.size = a.size + b.size

variable {κ κ' : Hashing K} {a b inter diff diff' : Set K}

/-- Equal keys are held by the same sets. -/
theorem holds_eq_of_alike (hκ : κ.Lawful) (ks : List K) (k l : K) (hkl : κ.set.alike k l) :
    κ.set.holds ks k = κ.set.holds ks l :=
  Keying.holds_congr hκ hkl ks

/-- A set holds the keys that one of its own equals. -/
theorem holds_iff (s : Set K) (k : K) :
    κ.set.holds s.items.toList k ↔ ∃ l ∈ s.items, κ.same l k := by
  rw [Keying.holds, List.any_eq_true]
  simp only [Array.mem_toList_iff]
  rfl

/-- A set lacks the keys that none of its own equals. -/
theorem not_holds_iff (s : Set K) (k : K) :
    κ.set.holds s.items.toList k = false ↔ ∀ l ∈ s.items, κ.same l k = false := by
  rw [← Bool.not_eq_true, holds_iff]
  simp

/-- Whether one of two keys equals the other does not depend on which. -/
theorem same_eq_false_symm (hκ : κ.Lawful) {k l : K} (h : κ.same k l = false) :
    κ.same l k = false :=
  Bool.eq_false_iff.mpr fun hlk => Bool.eq_false_iff.mp h (hκ.symm l k hlk)

section Promises

variable (h : Operands κ κ' a b)

include h

/-- The question for a subset is answered as set theory says. -/
theorem tells_isSubset :
    Tells (isSubset κ' a b) (∀ k ∈ a.items, ∃ l ∈ b.items, κ.same l k) := by
  refine ⟨_, isSubset_eq h, ?_⟩
  rw [List.all_eq_true]
  simp only [Array.mem_toList_iff, holds_iff]

/-- The question for a superset is answered as set theory says. -/
theorem tells_isSuperset :
    Tells (isSuperset κ a b) (∀ l ∈ b.items, ∃ k ∈ a.items, κ.same k l) := by
  have hsubset := tells_isSubset h.symm
  rwa [h.same] at hsubset

/-- The question whether sets are disjoint is answered as set theory says. -/
theorem tells_isDisjoint :
    Tells (isDisjoint κ κ' a b) (∀ k ∈ a.items, ∀ l ∈ b.items, κ.same k l = false) := by
  refine ⟨_, isDisjoint_eq h, ?_⟩
  rw [List.all_eq_true]
  simp only [Array.mem_toList_iff, Bool.not_eq_true', not_holds_iff]
  constructor
  · intro hall k hk l hl
    exact same_eq_false_symm h.lawful (hall k hk l hl)
  · intro hall k hk l hl
    exact same_eq_false_symm h.lawful (hall k hk l hl)

/-- The question whether sets are disjoint may be asked in either order. -/
theorem isDisjoint_comm : isDisjoint κ κ' a b = isDisjoint κ' κ b a := by
  obtain ⟨p, hp, hpiff⟩ := tells_isDisjoint h
  obtain ⟨q, hq, hqiff⟩ := tells_isDisjoint h.symm
  rw [h.same] at hqiff
  rw [hp, hq]
  refine congrArg Except.ok (Bool.eq_iff_iff.mpr ?_)
  rw [hpiff, hqiff]
  constructor
  · intro hall l hl k hk
    exact same_eq_false_symm h.lawful (hall k hk l hl)
  · intro hall k hk l hl
    exact same_eq_false_symm h.lawful (hall l hl k hk)

/-- Two sets have an intersection and a difference, of which the promises hold. -/
theorem exists_followsSetTheory : ∃ inter diff, FollowsSetTheory κ κ' a b inter diff := by
  obtain ⟨inter, hinterEq, hinter, hinterItems⟩ := intersection_spec h
  obtain ⟨diff, hdiffEq, hdiff, hdiffItems⟩ := difference_spec h
  have hκ := h.lawful
  refine ⟨inter, diff, hinterEq, hdiffEq, hinterItems, hdiffItems, ?_, ?_, fun k => ?_, fun k => ?_,
    hinter.consistent hκ, hdiff.consistent hκ, tells_isSubset h, ⟨_, isSubset_eq h, ?_⟩,
    tells_isSuperset h, rfl, tells_isDisjoint h, ⟨_, isDisjoint_eq h, ?_⟩, isDisjoint_comm h⟩
  · -- every key of the first set is in one of the two parts
    rw [hinterItems, hdiffItems]
    exact List.filter_append_perm _ _
  · -- a key in both parts would be held and not held
    intro k hk l hl
    rw [← Array.mem_toList_iff, hinterItems, List.mem_filter] at hk
    rw [← Array.mem_toList_iff, hdiffItems, List.mem_filter] at hl
    refine Bool.eq_false_iff.mpr fun hkl => ?_
    rw [← holds_eq_of_alike hκ _ k l hkl, hk.2] at hl
    exact Bool.false_ne_true hl.2
  · rw [has_eq_holds hinter hκ, h.has_left, h.has_right, hinterItems]
    exact Keying.holds_filter (holds_eq_of_alike hκ _) _ k
  · rw [has_eq_holds hdiff hκ, h.has_left, h.has_right, hdiffItems]
    exact Keying.holds_filter (fun k l hkl => by rw [holds_eq_of_alike hκ _ k l hkl]) _ k
  · -- nothing is left of the first set if it is a subset
    rw [← Array.toList_inj, hdiffItems, List.all_eq_true, List.filter_eq_nil_iff]
    simp only [Bool.not_eq_true', Bool.not_eq_false]
  · rw [← Array.toList_inj, hinterItems, List.all_eq_true, List.filter_eq_nil_iff]
    simp only [Bool.not_eq_true', Bool.not_eq_true]

omit h in
/-- The keys of both sets are joined if there is a position for each. -/
theorem exists_joins (h : Operands κ κ' a b) (hparts : FollowsSetTheory κ κ' a b inter diff)
    (hparts' : difference κ' κ b a = .ok diff') (hroom : a.size + diff'.size < 2 ^ 48 - 2) :
    ∃ union symm, Joins κ κ' a b inter diff diff' union symm := by
  have hκ := h.lawful
  have hother : diff'.items.toList =
      b.items.toList.filter fun k => !κ.set.holds a.items.toList k := by
    obtain ⟨made, hmade, -, hitems⟩ := difference_spec h.symm
    obtain rfl : diff' = made := Except.ok.inj (hparts'.symm.trans hmade)
    rwa [holds_congr h.same] at hitems
  have hroom' : Room κ a b := by
    rwa [← Table.length_toList_items diff', hother] at hroom
  obtain ⟨union, hunionEq, hunion, hunionItems⟩ := union_spec h hroom'
  obtain ⟨symm, hsymmEq, hsymm, hsymmItems⟩ := symmetricDifference_spec h hroom'
  -- whether a key is held by the second difference depends on the two sets alone
  have hheld : ∀ k, κ.set.holds
      (b.items.toList.filter fun k => !κ.set.holds a.items.toList k) k =
        (b.has κ' k && !a.has κ k) := fun k => by
    rw [Keying.holds_filter (fun k l hkl => by rw [holds_eq_of_alike hκ _ k l hkl]), h.has_left,
      h.has_right]
  refine ⟨union, symm, hunionEq, hsymmEq, hother ▸ hunionItems, hunionItems, ?_, fun k => ?_,
    fun k => ?_, hunion.consistent hκ, hsymm.consistent hκ, ?_⟩
  · rw [hsymmItems, hparts.difference_items, hother]
  · rw [has_eq_holds hunion hκ, hunionItems, Keying.holds_append, hheld, ← h.has_left]
    cases a.has κ k <;> cases b.has κ' k <;> rfl
  · rw [has_eq_holds hsymm hκ, hsymmItems, Keying.holds_append, hheld,
      Keying.holds_filter (fun k l hkl => by rw [holds_eq_of_alike hκ _ k l hkl]), ← h.has_left,
      ← h.has_right]
    cases a.has κ k <;> cases b.has κ' k <;> rfl
  · -- the keys of the second set that are in the first are as many as the other way round
    have hcommon := Keying.length_common (κ := κ.set) hκ h.pairwise_left h.pairwise_right
    have hpartition :=
      List.length_eq_length_filter_add (l := b.items.toList) (κ.set.holds a.items.toList)
    rw [← Table.length_toList_items union, hunionItems, List.length_append,
      ← Table.length_toList_items inter, hparts.intersection_items, hcommon,
      ← Table.length_toList_items a, ← Table.length_toList_items b]
    omega

end Promises

end Set

namespace World

variable {κs κs' : Nat → Hashing K}

/-- What turns that work on two sets do to the sets of a world, each with its hash function. -/
structure KeepsOperands (κs : Nat → Hashing K) (i j : Nat) (w : World K K σ) : Prop where
  /-- A set is made of two, and the others are left. -/
  combine : ∀ (algebra : Set.Algebra) (k : Nat) (made : Set K),
    algebra.apply (κs i) (κs j) (w.table i) (w.table j) = .ok made → ∃ w',
      ((Turn.combine (I := Set.interface K) algebra i j k).actEach κs).step w = (.ok (), w') ∧
        w'.table k = made ∧ ∀ l, l ≠ k → w'.table l = w.table l
  /-- Nothing comes of two sets if a hash function fails on a key. -/
  refused : ∀ (algebra : Set.Algebra) (k : Nat) (fault : Fault),
    algebra.apply (κs i) (κs j) (w.table i) (w.table j) = .error fault →
      ((Turn.combine (I := Set.interface K) algebra i j k).actEach κs).step w = (.error fault, w)
  relate : ∀ relation : Set.Relation,
    ((Turn.relate (I := Set.interface K) relation i j).actEach κs).step w =
      (relation.holds (κs i) (κs j) (w.table i) (w.table j), w)

/-- A turn that makes a set of two changes only the set that it makes. -/
theorem keepsOperands (κs : Nat → Hashing K) (i j : Nat) (w : World K K σ) :
    KeepsOperands κs i j w where
  combine algebra k made hmade := by
    refine ⟨w.setTable k made, ?_, w.table_setTable_self k made,
      fun _ hl => w.table_setTable_of_ne hl made⟩
    simp only [Turn.actEach, Action.step_get_bind]
    rw [show (Set.interface K).combine (κs i) (κs j) (w.table i) (w.table j) algebra = .ok made
      from hmade]
    rfl
  refused algebra k fault hfault := by
    simp only [Turn.actEach, Action.step_get_bind]
    rw [show (Set.interface K).combine (κs i) (κs j) (w.table i) (w.table j) algebra =
      .error fault from hfault]
    rfl
  relate relation := by
    simp only [Turn.actEach, Action.step_get_bind, Action.step_ofExcept]
    rfl

/-- After runs on sets, each with a hash function of its own, the sets that are made of two whose
    keys are equal by the same function, and the answers to questions about the two, are those of
    set theory, unless a hash function fails on one of the keys. The two are left as they are in
    any case. -/
theorem setTheory_of_reachable {w : World K K σ} {w' : World K K τ}
    (h : ReachableEach (Set.interface K) κs w) (h' : ReachableEach (Set.interface K) κs' w')
    (i j : Nat) :
    ((κs' j).same = (κs i).same →
      (∀ k, k ∈ (w.table i).items.toList ∨ k ∈ (w'.table j).items.toList →
        (κs i).refusal k = none ∧ (κs' j).refusal k = none) →
      ∃ inter diff diff',
        Set.FollowsSetTheory (κs i) (κs' j) (w.table i) (w'.table j) inter diff ∧
        Set.difference (κs' j) (κs i) (w'.table j) (w.table i) = .ok diff' ∧
        ((w.table i).size + diff'.size < 2 ^ 48 - 2 → ∃ union symm,
          Set.Joins (κs i) (κs' j) (w.table i) (w'.table j) inter diff diff' union symm)) ∧
      ∀ j, KeepsOperands κs i j w := by
  refine ⟨fun hsame haccepted => ?_, fun j => keepsOperands κs i j w⟩
  have hoperands : Set.Operands (κs i) (κs' j) (w.table i) (w'.table j) :=
    ⟨h.lawful i, h'.lawful j, hsame, h.coherent i, h'.coherent j, haccepted⟩
  obtain ⟨inter, diff, hfollows⟩ := Set.exists_followsSetTheory hoperands
  obtain ⟨diff', hdiff', -, -⟩ := Set.difference_spec hoperands.symm
  exact ⟨inter, diff, diff', hfollows, hdiff',
    fun hroom => Set.exists_joins hoperands hfollows hdiff' hroom⟩

/-- Numbers are equal if their last digits are, from which any hash value may be made. -/
def lastDigit (hash : Nat → UInt64) : Hashing Nat :=
  ⟨fun n => hash (n % 10), fun m n => m % 10 == n % 10, fun _ => none⟩

/-- Numbers with equal last digits have equal hash values, however they are made. -/
theorem lastDigit_lawful (hash : Nat → UInt64) : (lastDigit hash).Lawful where
  refl _ := beq_self_eq_true _
  symm _ _ h := beq_iff_eq.mpr (beq_iff_eq.mp h).symm
  trans _ _ _ h h' := beq_iff_eq.mpr ((beq_iff_eq.mp h).trans (beq_iff_eq.mp h'))
  hash_eq _ _ h := congrArg hash (beq_iff_eq.mp h)

/-- A set of numbers whose hash values are their last digits. -/
def digits : World Nat Nat Unit := numbers (lastDigit Nat.toUInt64) [12, 5, 37]

/-- A set of numbers all of which collide. -/
def colliders : World Nat Nat Unit := numbers (lastDigit fun _ => 42) [7, 22, 41]

/-- Two of three numbers have the last digits of others, which have other hash values. -/
theorem setTheory_of_reachable_digits :
    ∃ inter diff diff' union symm : Set Nat,
      inter.items.toList = [12, 37] ∧ union.items.toList = [12, 5, 37, 41] ∧
      Set.FollowsSetTheory (lastDigit Nat.toUInt64) (lastDigit fun _ => 42) (digits.table 0)
        (colliders.table 0) inter diff ∧
      Set.Joins (lastDigit Nat.toUInt64) (lastDigit fun _ => 42) (digits.table 0)
        (colliders.table 0) inter diff diff' union symm := by
  have hdigits : Reachable (Set.interface Nat) (lastDigit Nat.toUInt64) digits :=
    numbers_reachable _ _ (by decide +kernel)
  have hcolliders : Reachable (Set.interface Nat) (lastDigit fun _ => 42) colliders :=
    numbers_reachable _ _ (by decide +kernel)
  obtain ⟨inter, diff, diff', hfollows, hdiff', hjoins⟩ := (setTheory_of_reachable
    (hdigits.each (lastDigit_lawful _)) (hcolliders.each (lastDigit_lawful _)) 0 0).1 rfl
      fun _ _ => ⟨rfl, rfl⟩
  -- only one key of the second set is not in the first
  have hsize : (Set.difference (lastDigit fun _ => 42) (lastDigit Nat.toUInt64)
      (colliders.table 0) (digits.table 0)).map Table.size = .ok 1 := by decide +kernel
  rw [hdiff'] at hsize
  obtain ⟨union, symm, hjoined⟩ := hjoins (by
    rw [Except.ok.inj hsize]
    decide +kernel)
  exact ⟨inter, diff, diff', union, symm, hfollows.intersection_items.trans (by decide +kernel),
    hjoined.union_items_filter.trans (by decide +kernel), hfollows, hjoined⟩

end World

end OrderedHash
