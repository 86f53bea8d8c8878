import OrderedHash.Proofs.Table.Inserting
import OrderedHash.Set.Algebra

namespace OrderedHash

/-!
# Set algebra on tables

Two sets, each with a hash function of its own, are `Set.Operands` if they compare keys alike and
their hash functions do not fail on the keys of either. Keys that are gathered in turn are
adopted, so that a set made of two has the keys that one would list (`Set.build_gather`). Of keys
that are pairwise unequal none gets lost on the way (`Keying.newcomers_eq_filter`).

Pairwise unequal keys that are all held by other keys are no more than those
(`Keying.length_le_of_holds`), since no two of them can be held by one. That is why a set with
more keys than another one cannot be a subset of it, and why two sets have as many keys of
the second in the first as of the first in the second (`Keying.length_common`).
-/

variable {K V : Type}

namespace Keying

variable {κ : Keying K V}

/-! ### Items with unequal keys -/

/-- Of items with unequal keys the newcomers are all those that are not held. -/
theorem newcomers_eq_filter (hκ : κ.Lawful) {vs : List V}
    (hdistinct : vs.Pairwise fun v w => κ.alike v w = false) (items : List V) :
    κ.newcomers items vs = vs.filter fun v => !κ.holds items v := by
  induction vs generalizing items with
  | nil => rfl
  | cons v vs ih =>
    obtain ⟨hfirst, hrest⟩ := List.pairwise_cons.mp hdistinct
    cases hv : κ.holds items v with
    | true =>
      rw [newcomers_cons_of_holds hv, ih hrest, List.filter_cons_of_neg (by simp [hv])]
    | false =>
      rw [newcomers_cons_of_not_holds hκ hv, ih hrest, List.filter_cons_of_pos (by simp [hv])]
      -- the first item holds none of the later ones
      refine congrArg (v :: ·) (List.filter_congr fun w hw => ?_)
      rw [holds_append]
      simp [holds, hfirst w hw]

/-- Items with unequal keys, all of which are held by others, are no more than those. -/
theorem length_le_of_holds (hκ : κ.Lawful) {vs ws : List V}
    (hdistinct : vs.Pairwise fun v w => κ.alike v w = false) (hheld : ∀ v ∈ vs, κ.holds ws v) :
    vs.length ≤ ws.length := by
  induction vs generalizing ws with
  | nil => exact Nat.zero_le _
  | cons v vs ih =>
    obtain ⟨hfirst, hrest⟩ := List.pairwise_cons.mp hdistinct
    obtain ⟨hv, hvs⟩ := List.forall_mem_cons.mp hheld
    obtain ⟨w, hw, hwv⟩ := List.any_eq_true.mp hv
    obtain ⟨front, back, rfl⟩ := List.append_of_mem hw
    -- the item that holds the first one holds none of the others
    have hothers : ∀ x ∈ vs, κ.holds (front ++ back) x := by
      intro x hx
      have hwx : κ.alike w x = false := (alike_congr hκ hwv x).trans (hfirst x hx)
      have hheld := hvs x hx
      rw [holds_append, holds_cons, hwx, Bool.false_or] at hheld
      rwa [holds_append]
    have hle := ih hrest hothers
    rw [List.length_append] at hle
    rw [List.length_cons, List.length_append, List.length_cons]
    omega

/-- Of items that pass a test on their keys those are held that are held and pass. -/
theorem holds_filter {test : V → Bool} (htest : ∀ v w, κ.alike v w → test v = test w)
    (items : List V) (v : V) : κ.holds (items.filter test) v = (κ.holds items v && test v) := by
  induction items with
  | nil => rfl
  | cons w items ih =>
    rw [holds_cons]
    -- the first item passes by the key only if it is another one or if the test fails on both
    cases hwv : κ.alike w v with
    | false =>
      rw [Bool.false_or, ← ih]
      cases hw : test w with
      | true => rw [List.filter_cons_of_pos hw, holds_cons, hwv, Bool.false_or]
      | false => rw [List.filter_cons_of_neg (Bool.not_eq_true _ ▸ hw)]
    | true =>
      rw [Bool.true_or, Bool.true_and, ← htest w v hwv]
      cases hw : test w with
      | true => rw [List.filter_cons_of_pos hw, holds_cons, hwv, Bool.true_or]
      | false =>
        rw [List.filter_cons_of_neg (Bool.not_eq_true _ ▸ hw), ih, ← htest w v hwv, hw,
          Bool.and_false]

/-- As many items of a list have keys of another one as the other way round, if neither list has
    a key twice. -/
theorem length_common (hκ : κ.Lawful) {vs ws : List V}
    (hvs : vs.Pairwise fun v w => κ.alike v w = false)
    (hws : ws.Pairwise fun v w => κ.alike v w = false) :
    (vs.filter (κ.holds ws)).length = (ws.filter (κ.holds vs)).length := by
  have hle : ∀ xs ys : List V, xs.Pairwise (fun v w => κ.alike v w = false) →
      (xs.filter (κ.holds ys)).length ≤ (ys.filter (κ.holds xs)).length := by
    intro xs ys hxs
    refine length_le_of_holds hκ (hxs.sublist List.filter_sublist) fun x hx => ?_
    obtain ⟨hmem, hheld⟩ := List.mem_filter.mp hx
    obtain ⟨y, hy, hyx⟩ := List.any_eq_true.mp hheld
    have hxy : κ.alike x y := alike_symm hκ y x ▸ hyx
    exact List.any_eq_true.mpr
      ⟨y, List.mem_filter.mpr ⟨hy, List.any_eq_true.mpr ⟨x, hmem, hxy⟩⟩, hyx⟩
  exact le_antisymm (hle vs ws hvs) (hle ws vs hws)

end Keying

theorem Table.length_toList_items (t : Table V) : t.items.toList.length = t.size :=
  Array.length_toList

/-- No two items of a coherent table have equal keys. -/
theorem Table.Coherent.pairwise_alike {κ : Keying K V} {t : Table V} (h : t.Coherent κ)
    (hκ : κ.Lawful) : t.items.toList.Pairwise fun v w => κ.alike v w = false :=
  List.pairwise_map.mp ((distinct_iff_pairwise hκ t.items).mp h.distinct)

namespace Set

/-- Whether a key is found in a set. -/
def has (κ : Hashing K) (s : Set K) (k : K) : Bool := (s.find κ.set k).isSome

/-- Two sets whose keys are equal by the same function, each coherent under a hash function of
    its own. Neither hash function fails on a key of the two. -/
structure Operands (κ κ' : Hashing K) (a b : Set K) : Prop where
  lawful : κ.Lawful
  lawful' : κ'.Lawful
  same : κ'.same = κ.same
  left : a.Coherent κ.set
  right : b.Coherent κ'.set
  accepted : ∀ k, k ∈ a.items.toList ∨ k ∈ b.items.toList →
    κ.refusal k = none ∧ κ'.refusal k = none

variable {κ κ' : Hashing K} {a b s : Set K}

/-- A key is in a coherent set if and only if the keys of the set hold it. -/
theorem has_eq_holds (h : s.Coherent κ.set) (hκ : κ.Lawful) :
    s.has κ = κ.set.holds s.items.toList :=
  funext fun k => (h.holds_eq hκ k).symm

/-- A set can tell whether it has a key on which its hash function does not fail. -/
theorem contains_of_accepted {k : K} (h : κ.refusal k = none) :
    s.contains κ.set k = .ok (s.has κ k) := by
  rw [Table.contains, Table.lookup_of_none h]
  rfl

/-- Which keys are held depends on the equality of keys only. -/
theorem holds_congr (hsame : κ'.same = κ.same) (ks : List K) :
    κ'.set.holds ks = κ.set.holds ks := by
  funext k
  show ks.any (κ'.same · k) = ks.any (κ.same · k)
  rw [hsame]

namespace Operands

variable (h : Operands κ κ' a b)

include h

/-- What holds of two sets holds of them in the other order. -/
theorem symm : Operands κ' κ b a where
  lawful := h.lawful'
  lawful' := h.lawful
  same := h.same.symm
  left := h.right
  right := h.left
  accepted k hk := (h.accepted k hk.symm).symm

/-- The first set has the keys that it holds. -/
theorem has_left : a.has κ = κ.set.holds a.items.toList := has_eq_holds h.left h.lawful

/-- The second set has the keys that it holds, as its hash function compares them alike. -/
theorem has_right : b.has κ' = κ.set.holds b.items.toList :=
  (has_eq_holds h.right h.lawful').trans (holds_congr h.same _)

/-- The first set has no key twice. -/
theorem pairwise_left : a.items.toList.Pairwise fun k l => κ.set.alike k l = false :=
  h.left.pairwise_alike h.lawful

/-- The second set has no key twice. -/
theorem pairwise_right : b.items.toList.Pairwise fun k l => κ.set.alike k l = false := by
  have hpairwise := h.right.pairwise_alike h.lawful'
  have halike : κ'.set.alike = κ.set.alike := h.same
  rwa [halike] at hpairwise

end Operands

/-! ### Keys gathered in turn -/

/-- Whether all keys of a list are in a set is answered if the hash function accepts them. -/
theorem allAre_of_accepted {ks : List K} (haccepted : ∀ k ∈ ks, κ.refusal k = none)
    (present : Bool) : allAre κ present s ks = .ok (ks.all fun k => s.has κ k == present) := by
  unfold allAre
  induction ks with
  | nil => rfl
  | cons k ks ih =>
    obtain ⟨hk, hks⟩ := List.forall_mem_cons.mp haccepted
    rw [List.allM, contains_of_accepted hk, List.all_cons]
    show (match s.has κ k == present with
      | true => ks.allM fun k => return (← s.contains κ.set k) == present
      | false => .ok false) = _
    cases s.has κ k == present with
    | false => rfl
    | true => exact ih hks

/-- To gather keys is to insert those that are in another set, or those that are not. -/
theorem gather_eq {ks : List K} (haccepted : ∀ k ∈ ks, κ'.refusal k = none) (present : Bool)
    (u : Set K) : gather κ κ' present u ks =
      Action.forEach (fun k => do let _ ← insert κ k)
        (ks.filter fun k => u.has κ' k == present) := by
  unfold gather
  induction ks with
  | nil => rfl
  | cons k ks ih =>
    obtain ⟨hk, hks⟩ := List.forall_mem_cons.mp haccepted
    have hadd : addIf κ κ' present u k =
        if u.has κ' k == present then (do let _ ← insert κ k) else pure () := by
      rw [addIf, contains_of_accepted hk]
      rfl
    rw [Action.forEach, hadd, ih hks, List.filter_cons]
    cases u.has κ' k == present with
    | false => rw [if_neg Bool.false_ne_true, if_neg Bool.false_ne_true, pure_bind]
    | true => rw [if_pos rfl, if_pos rfl, Action.forEach]

/-- A key that is inserted into a coherent set is adopted by its keys. -/
theorem performs_insert (hκ : κ.Lawful) : Table.Performs κ.set (insert κ) κ.set.adopt := by
  intro t k h haccepted hsmall
  obtain ⟨u, hstep, hu⟩ := Table.Coherent.step_insert h hκ haccepted hsmall
  exact ⟨_, u, hstep, hu⟩

/-- Unequal keys that are gathered come behind the keys of a set that has none of them. -/
theorem build_gather (h : s.Coherent κ.set) (hκ : κ.Lawful) {ks : List K}
    (haccepted : ∀ k ∈ ks, κ.refusal k = none ∧ κ'.refusal k = none) {present : Bool} {u : Set K}
    (hdistinct : ks.Pairwise fun k l => κ.set.alike k l = false)
    (hnew : ∀ k ∈ ks, u.has κ' k == present → κ.set.holds s.items.toList k = false)
    (hsmall : s.size + (ks.filter fun k => u.has κ' k == present).length < Node.movingPosition) :
    ∃ made, Table.build s (gather κ κ' present u ks) = .ok made ∧ made.Coherent κ.set ∧
      made.items.toList = s.items.toList ++ ks.filter fun k => u.has κ' k == present := by
  -- all of those that are gathered are adopted
  have hadopted : (ks.filter fun k => u.has κ' k == present).foldl κ.set.adopt s.items.toList =
      s.items.toList ++ ks.filter fun k => u.has κ' k == present := by
    rw [Keying.foldl_adopt (κ := κ.set) hκ, Keying.newcomers_eq_filter (κ := κ.set) hκ
      (hdistinct.sublist List.filter_sublist), List.filter_eq_self.mpr]
    intro k hk
    obtain ⟨hmem, hpresent⟩ := List.mem_filter.mp hk
    rw [hnew k hmem hpresent]
    rfl
  have hgathered : ∀ k ∈ ks.filter fun k => u.has κ' k == present, κ.refusal k = none :=
    fun k hk => (haccepted k (List.mem_filter.mp hk).1).1
  obtain ⟨made, hstep, hmade, hitems⟩ := (performs_insert hκ).forEach Keying.length_le_adopt h
    hgathered (by rwa [hadopted, List.length_append, Array.length_toList])
  rw [gather_eq fun k hk => (haccepted k hk).2]
  exact ⟨made, Table.build_of_ok hstep, hmade, hitems.trans hadopted⟩

/-- The keys of a set that are in another one, or those that are not, make up a set. -/
theorem build_gather_empty (h : Operands κ κ' a b) (present : Bool) :
    ∃ made, Table.build (Table.empty .standard) (gather κ κ' present b a.items.toList) = .ok made ∧
      made.Coherent κ.set ∧
      made.items.toList = a.items.toList.filter fun k => b.has κ' k == present := by
  have hle := List.length_filter_le (fun k => b.has κ' k == present) a.items.toList
  rw [Array.length_toList] at hle
  exact build_gather (Table.Coherent.empty κ.set .standard) h.lawful
    (fun k hk => h.accepted k (.inl hk)) h.pairwise_left (fun _ _ _ => rfl)
    (lt_of_le_of_lt ((Nat.zero_add _).le.trans hle) h.left.small)

/-! ### Sets made of two -/

section Made

variable (h : Operands κ κ' a b)

include h

/-- The intersection is made, and has the keys of the first set that the second one holds. -/
theorem intersection_spec : ∃ made, intersection κ κ' a b = .ok made ∧ made.Coherent κ.set ∧
    made.items.toList = a.items.toList.filter (κ.set.holds b.items.toList) := by
  have hmade := build_gather_empty h true
  rw [h.has_right] at hmade
  simp only [beq_true] at hmade
  exact hmade

/-- The difference is made, and has the keys of the first set that the second one lacks. -/
theorem difference_spec : ∃ made, difference κ κ' a b = .ok made ∧ made.Coherent κ.set ∧
    made.items.toList = a.items.toList.filter fun k => !κ.set.holds b.items.toList k := by
  have hmade := build_gather_empty h false
  rw [h.has_right] at hmade
  simp only [beq_false] at hmade
  exact hmade

/-- The second set has few enough keys that the first lacks. -/
def Room (κ : Hashing K) (a b : Set K) : Prop :=
  a.size + (b.items.toList.filter fun k => !κ.set.holds a.items.toList k).length < 2 ^ 48 - 2

/-- The union is made, and has the keys of the first set before those that only the second one
    has. -/
theorem union_spec (hroom : Room κ a b) :
    ∃ made, union κ a b = .ok made ∧ made.Coherent κ.set ∧ made.items.toList =
      a.items.toList ++ b.items.toList.filter fun k => !κ.set.holds a.items.toList k := by
  have hr := Keying.refreshes_set κ
  -- the keys that the first set has are refreshed by themselves
  have habsorbed : b.items.toList.foldl κ.set.absorb a.items.toList =
      a.items.toList ++ b.items.toList.filter fun k => !κ.set.holds a.items.toList k := by
    have hlatest : (fun k => κ.set.latest k b.items.toList) = id :=
      funext fun k => Keying.latest_set κ k _
    rw [Keying.foldl_absorb_eq (κ := κ.set) h.lawful hr fun _ => rfl, hlatest, List.map_id,
      Keying.newcomers_eq_filter (κ := κ.set) h.lawful h.pairwise_right]
  obtain ⟨made, hstep, hmade, hitems⟩ := h.left.step_extend h.lawful hr
    (fun k hk => (h.accepted k (.inr hk)).1)
    (by rw [habsorbed, List.length_append, Array.length_toList]; exact hroom) true
  exact ⟨made, Table.build_of_ok hstep, hmade, hitems.trans habsorbed⟩

/-- The symmetric difference is made, and has the keys of one difference before those of the
    other. -/
theorem symmetricDifference_spec (hroom : Room κ a b) :
    ∃ made, symmetricDifference κ κ' a b = .ok made ∧ made.Coherent κ.set ∧ made.items.toList =
      (a.items.toList.filter fun k => !κ.set.holds b.items.toList k) ++
        b.items.toList.filter fun k => !κ.set.holds a.items.toList k := by
  obtain ⟨diff, hbuilt, hdiff, hitems⟩ := difference_spec h
  have hle : diff.size ≤ a.size := by
    rw [← Table.length_toList_items, ← Table.length_toList_items a, hitems]
    exact List.length_filter_le _ _
  have hnew : ∀ k ∈ b.items.toList, a.has κ k == false →
      κ.set.holds diff.items.toList k = false := by
    -- a key that is not in the first set is not in a part of it
    intro k _ habsent
    rw [h.has_left, beq_iff_eq] at habsent
    rw [hitems, Bool.eq_false_iff]
    intro hheld
    obtain ⟨l, hl, hlk⟩ := List.any_eq_true.mp hheld
    rw [Keying.holds, List.any_eq_true.mpr ⟨l, (List.mem_filter.mp hl).1, hlk⟩] at habsent
    cases habsent
  rw [symmetricDifference, hbuilt, ← hitems]
  have hroomy : diff.size + (b.items.toList.filter fun k => a.has κ k == false).length <
      Node.movingPosition := by
    rw [h.has_left]
    simp only [beq_false]
    exact lt_of_le_of_lt (Nat.add_le_add_right hle _) hroom
  have hmade := build_gather hdiff h.lawful
    (fun k hk => ⟨(h.accepted k (.inr hk)).1, (h.accepted k (.inr hk)).1⟩) h.pairwise_right hnew
    hroomy
  rw [h.has_left] at hmade
  simp only [beq_false] at hmade
  exact hmade

/-! ### Questions about two sets -/

/-- The question for a subset is answered by the sizes only where the keys would say no. -/
theorem isSubset_eq :
    isSubset κ' a b = .ok (a.items.toList.all (κ.set.holds b.items.toList)) := by
  rw [isSubset]
  split
  · rename_i hlt
    refine congrArg Except.ok (Bool.eq_false_iff.mpr fun hall => ?_).symm
    have hle := Keying.length_le_of_holds (κ := κ.set) h.lawful h.pairwise_left
      (List.all_eq_true.mp hall)
    rw [Array.length_toList, Array.length_toList] at hle
    exact absurd hle (Nat.not_le.mpr hlt)
  · rw [allAre_of_accepted fun k hk => (h.accepted k (.inl hk)).2, h.has_right]
    simp only [beq_true]

/-- No key of one set is in the other one, whichever is gone through. -/
theorem isDisjoint_eq :
    isDisjoint κ κ' a b = .ok (a.items.toList.all fun k => !κ.set.holds b.items.toList k) := by
  rw [isDisjoint]
  split
  · rw [allAre_of_accepted fun k hk => (h.accepted k (.inl hk)).2, h.has_right]
    simp only [beq_false]
  · -- the second set is gone through, where equality is asked the other way round
    rw [allAre_of_accepted fun k hk => (h.accepted k (.inr hk)).1, h.has_left]
    simp only [beq_false]
    refine congrArg Except.ok ?_
    rw [Bool.eq_iff_iff]
    simp only [List.all_eq_true, Keying.holds, Bool.not_eq_true', List.any_eq_false]
    constructor
    · intro hall k hk l hl hlk
      exact hall l hl k hk (Keying.alike_symm (κ := κ.set) h.lawful l k ▸ hlk)
    · intro hall k hk l hl hlk
      exact hall l hl k hk (Keying.alike_symm (κ := κ.set) h.lawful l k ▸ hlk)

end Made

end Set

end OrderedHash
