import OrderedHash.Map.Basic
import OrderedHash.Proofs.Table.Slicing
import OrderedHash.Set.Basic

namespace OrderedHash

/-!
# Searches by halves

The two ends of what is left to search only move to where an item was compared. So a search
that ends without a match has an item below the target before its end and an item above the
target behind it, whatever the order of the items (`Finds`).

Where the comparison rises from below the target to above it (`Rises`), that leaves one position
for the end: the number of the items below. A search for a partition point is a search by halves
that never meets a match (`Table.partitionFrom_eq`), and so arrives there too.
-/

variable {K V C T σ α β : Type}

/-! ### Actions that end -/

namespace Action

/-- From every state an action ends with an answer of which `P` holds. -/
def EndsWith (x : Action σ α) (P : α → Prop) : Prop := ∀ s, ∃ a s', x.step s = (.ok a, s') ∧ P a

variable {x : Action σ α} {P Q : α → Prop}

/-- What follows from a property of the answers holds of them as well. -/
theorem EndsWith.imp (h : x.EndsWith P) (hPQ : ∀ a, P a → Q a) : x.EndsWith Q := by
  intro s
  obtain ⟨a, s', hstep, ha⟩ := h s
  exact ⟨a, s', hstep, hPQ a ha⟩

/-- An action that ends is followed by others that do. -/
theorem EndsWith.bind {f : α → Action σ β} {P : β → Prop} (h : x.EndsWith Q)
    (hf : ∀ a, Q a → (f a).EndsWith P) : (x >>= f).EndsWith P := by
  intro s
  obtain ⟨a, s', hstep, ha⟩ := h s
  obtain ⟨b, s'', hstep', hb⟩ := hf a ha s'
  exact ⟨b, s'', (step_bind_of_ok hstep f).trans hstep', hb⟩

theorem endsWith_pure {a : α} (h : P a) : (pure a : Action σ α).EndsWith P := fun s => ⟨a, s, rfl, h⟩

/-- The answer of an action that ends may be turned into another one. -/
theorem EndsWith.map {f : α → β} {P : β → Prop} (h : x.EndsWith Q) (hf : ∀ a, Q a → P (f a)) :
    (f <$> x).EndsWith P := by
  rw [map_eq_pure_bind]
  exact h.bind fun a ha => endsWith_pure (hf a ha)

end Action

namespace Table

/-- A function that gives a value ends with it. -/
theorem Gives.endsWith {f : α → Action σ C} {g : α → C} (h : Gives f g) (a : α) :
    (f a).EndsWith (· = g a) :=
  fun s => ⟨g a, _, h.step a s, rfl⟩

/-- A function that ends with one value gives it. -/
theorem gives_of_endsWith {f : α → Action σ C} {g : α → C} (h : ∀ a, (f a).EndsWith (· = g a)) :
    Gives f g := by
  intro a s
  obtain ⟨c, s', hstep, hc⟩ := h a s
  rw [hstep, hc]

end Table

/-! ### Where a search ends -/

/-- What the answer of a search from position `first` up to `last` says of the items: there is a
    match at the position, or the items around it are on the two sides of the target. -/
structure Finds (cmp : V → Ordering) (items : Array V) (first last : Nat) (r : Nat × Bool) :
    Prop where
  first_le : first ≤ r.1
  le_last : r.1 ≤ last
  hit : r.2 = true → r.1 < last ∧ ∃ v, items[r.1]? = some v ∧ cmp v = .eq
  before : r.2 = false → r.1 = first ∨ ∃ v, items[r.1 - 1]? = some v ∧ cmp v = .lt
  after : r.2 = false → r.1 = last ∨ ∃ v, items[r.1]? = some v ∧ cmp v = .gt

/-- A comparison rises along a list if it gives first less, then equal, then greater. -/
def Rises (cmp : V → Ordering) (vs : List V) : Prop :=
  ∃ below here above, vs = below ++ here ++ above ∧ (∀ v ∈ below, cmp v = .lt) ∧
    (∀ v ∈ here, cmp v = .eq) ∧ ∀ v ∈ above, cmp v = .gt

/-- Whether an item is below the target. -/
def isBelow (cmp : V → Ordering) (v : V) : Bool := cmp v == .lt

/-- The items below are as many as the comparison gives less for. -/
theorem countP_below {cmp : V → Ordering} {below rest : List V} (hbelow : ∀ v ∈ below, cmp v = .lt)
    (hrest : ∀ v ∈ rest, cmp v ≠ .lt) : (below ++ rest).countP (isBelow cmp) = below.length := by
  have hall : below.countP (isBelow cmp) = below.length :=
    List.countP_eq_length.mpr fun v hv => beq_iff_eq.mpr (hbelow v hv)
  have hnone : rest.countP (isBelow cmp) = 0 :=
    List.countP_eq_zero.mpr fun v hv hlt => hrest v hv (beq_iff_eq.mp hlt)
  rw [List.countP_append, hall, hnone, Nat.add_zero]

namespace Finds

variable {cmp : V → Ordering} {items : Array V} {first last : Nat} {r : Nat × Bool}

/-- Nothing is left to search. -/
theorem nothing (pos : Nat) : Finds cmp items pos pos (pos, false) where
  first_le := le_rfl
  le_last := le_rfl
  hit := nofun
  before _ := Or.inl rfl
  after _ := Or.inl rfl

/-- The item that is compared matches. -/
theorem match_at {pos : Nat} {v : V} (hfirst : first ≤ pos) (hlast : pos < last)
    (hv : items[pos]? = some v) (heq : cmp v = .eq) : Finds cmp items first last (pos, true) where
  first_le := hfirst
  le_last := hlast.le
  hit _ := ⟨hlast, v, hv, heq⟩
  before := nofun
  after := nofun

/-- The search goes on behind an item that is below the target. -/
theorem raise {pos : Nat} {v : V} (h : Finds cmp items (pos + 1) last r) (hfirst : first ≤ pos)
    (hv : items[pos]? = some v) (hlt : cmp v = .lt) : Finds cmp items first last r where
  first_le := hfirst.trans (Nat.le_of_succ_le h.first_le)
  le_last := h.le_last
  hit := h.hit
  before hmiss := by
    rcases h.before hmiss with hpos | hbelow
    · exact Or.inr ⟨v, hpos ▸ hv, hlt⟩
    · exact Or.inr hbelow
  after := h.after

/-- The search goes on before an item that is above the target. -/
theorem lower {pos : Nat} {v : V} (h : Finds cmp items first pos r) (hlast : pos < last)
    (hv : items[pos]? = some v) (hgt : cmp v = .gt) : Finds cmp items first last r where
  first_le := h.first_le
  le_last := h.le_last.trans hlast.le
  hit hfound := ⟨(h.hit hfound).1.trans hlast, (h.hit hfound).2⟩
  before := h.before
  after hmiss := by
    rcases h.after hmiss with hpos | habove
    · exact Or.inr ⟨v, hpos ▸ hv, hgt⟩
    · exact Or.inr habove

end Finds

namespace Table

variable {compare : V → Action σ Ordering} {cmp : V → Ordering} {items : Array V}

/-- A search by halves ends, and its answer is right whatever the order of the items. -/
theorem bisect_endsWith (h : Gives compare cmp) {lo hi : Nat} (hle : lo ≤ hi)
    (hhi : hi ≤ items.size) : (bisect items compare lo hi).EndsWith (Finds cmp items lo hi) := by
  fun_induction bisect items compare lo hi with
  | case1 lo hi hlt mid hmid =>
    exact absurd (Array.getElem?_eq_none_iff.mp hmid) (by omega)
  | case2 lo hi hlt mid v hv ih₁ ih₂ =>
    refine (h.endsWith v).bind fun order horder => ?_
    cases order with
    | lt =>
      exact (ih₁ (by omega) hhi).imp fun r hr => hr.raise (by omega) hv horder.symm
    | gt =>
      exact (ih₂ (by omega) (by omega)).imp fun r hr => hr.lower (by omega) hv horder.symm
    | eq => exact Action.endsWith_pure (Finds.match_at (by omega) (by omega) hv horder.symm)
  | case3 lo hi hnot =>
    obtain rfl : lo = hi := by omega
    exact Action.endsWith_pure (Finds.nothing lo)

/-! ### Partition points -/

/-- The comparison that a test gives: what passes it is below. -/
def sideOf (test : V → Action σ Bool) (v : V) : Action σ Ordering := do
  return if ← test v then .lt else .gt

/-- A test tells on which side of an item the search goes on. -/
theorem Gives.sideOf {test : V → Action σ Bool} {g : V → Bool} (h : Gives test g) :
    Gives (Table.sideOf test) fun v => if g v then .lt else .gt := by
  refine gives_of_endsWith fun v => (h.endsWith v).bind fun passed hpassed => ?_
  subst hpassed
  exact Action.endsWith_pure rfl

/-- A search for a partition point is a search by halves that never meets a match. -/
theorem partitionFrom_eq (items : Array V) (test : V → Action σ Bool) (first count : Nat) :
    partitionFrom items test first count =
      Prod.fst <$> bisect items (sideOf test) first (first + count) := by
  fun_induction partitionFrom items test first count with
  | case1 first count hlt half hhalf =>
    have hmid : first + (first + count - first) / 2 = first + half := by omega
    rw [bisect, if_pos (by omega)]
    dsimp only
    rw [hmid, hhalf, map_pure]
  | case2 first count hlt half v hv ih₁ ih₂ =>
    have hmid : first + (first + count - first) / 2 = first + half := by omega
    have hend : first + half + 1 + (count - half - 1) = first + count := by omega
    rw [bisect, if_pos (by omega)]
    dsimp only
    rw [hmid, hv]
    dsimp only
    rw [sideOf, map_bind, bind_assoc]
    refine congrArg (test v >>= ·) (funext fun passed => ?_)
    cases passed with
    | true =>
      rw [hend] at ih₁
      exact ih₁
    | false => exact ih₂
  | case3 first count hnot => rw [bisect, if_neg (by omega), map_pure]

/-! ### Where the comparison rises -/

section Rising

variable {first last : Nat} {r : Nat × Bool} (hle : first ≤ last) (hlast : last ≤ items.size)

include hle hlast

/-- Where the comparison rises, a search without a match has passed the items below and no
    others, and there is no match. -/
theorem of_finds_of_miss (h : Finds cmp items first last r) (hmiss : r.2 = false)
    {below here above : List V}
    (hvs : (items.extract first last).toList = below ++ here ++ above)
    (hbelow : ∀ v ∈ below, cmp v = .lt) (hhere : ∀ v ∈ here, cmp v = .eq)
    (habove : ∀ v ∈ above, cmp v = .gt) : r.1 = first + below.length ∧ here = [] := by
  have hfirst := h.first_le
  have hend := h.le_last
  have hlength : last - first = below.length + here.length + above.length := by
    rw [← List.length_append, ← List.length_append, ← hvs, Array.length_toList,
      Array.size_extract, Nat.min_eq_left hlast]
  have hat : ∀ p, first ≤ p → p < last → items[p]? = (below ++ here ++ above)[p - first]? := by
    intro p hp hp'
    rw [← hvs, Array.getElem?_toList, Array.getElem?_extract, if_pos (by omega),
      Nat.add_sub_cancel' hp]
  -- an item below the target, before the end, is none of the later items
  have hle : r.1 ≤ first + below.length := by
    by_contra hnot
    rcases h.before hmiss with hpos | ⟨v, hv, hlt⟩
    · omega
    · rw [hat _ (by omega) (by omega), List.append_assoc,
        List.getElem?_append_right (by omega)] at hv
      rcases List.mem_append.mp (List.mem_of_getElem? hv) with hmem | hmem
      · cases hlt.symm.trans (hhere v hmem)
      · cases hlt.symm.trans (habove v hmem)
  -- an item above the target, at the end, is none of the earlier items
  have hge : first + below.length + here.length ≤ r.1 := by
    by_contra hnot
    rcases h.after hmiss with hpos | ⟨v, hv, hgt⟩
    · omega
    · rw [hat _ hfirst (by omega), List.getElem?_append_left
        (by rw [List.length_append]; omega)] at hv
      rcases List.mem_append.mp (List.mem_of_getElem? hv) with hmem | hmem
      · cases hgt.symm.trans (hbelow v hmem)
      · cases hgt.symm.trans (hhere v hmem)
  exact ⟨by omega, List.eq_nil_of_length_eq_zero (by omega)⟩

/-- Where the comparison rises, a search meets a match if there is one, and ends after the items
    below if there is none. -/
theorem of_finds_of_rises (h : Finds cmp items first last r)
    (hrises : Rises cmp (items.extract first last).toList) :
    (r.2 = true ↔ ∃ v ∈ (items.extract first last).toList, cmp v = .eq) ∧
      (r.2 = false → r.1 = first + (items.extract first last).toList.countP (isBelow cmp)) := by
  obtain ⟨below, here, above, hvs, hbelow, hhere, habove⟩ := hrises
  refine ⟨⟨fun hfound => ?_, fun hmatch => ?_⟩, fun hmiss => ?_⟩
  · -- the search found an item, which is one of the range
    obtain ⟨hlt, v, hv, heq⟩ := h.hit hfound
    have hfirst := h.first_le
    refine ⟨v, List.mem_of_getElem? (i := r.1 - first) ?_, heq⟩
    rw [Array.getElem?_toList, Array.getElem?_extract, if_pos (by omega),
      Nat.add_sub_cancel' hfirst, hv]
  · -- if an item matches, a miss would leave none between those below and those above
    by_contra hnot
    obtain ⟨-, rfl⟩ := of_finds_of_miss hle hlast h (Bool.eq_false_of_not_eq_true hnot) hvs hbelow
      hhere habove
    obtain ⟨v, hv, heq⟩ := hmatch
    rw [hvs, List.append_nil] at hv
    rcases List.mem_append.mp hv with hmem | hmem
    · cases heq.symm.trans (hbelow v hmem)
    · cases heq.symm.trans (habove v hmem)
  · obtain ⟨hpos, rfl⟩ := of_finds_of_miss hle hlast h hmiss hvs hbelow hhere habove
    rw [hpos, hvs, List.append_nil,
      countP_below hbelow fun v hv hlt => by cases hlt.symm.trans (habove v hv)]

/-- Where a test passes on the first items of a range and on no others, their number leads to
    the partition point. -/
theorem partitionFrom_endsWith {test : V → Action σ Bool} {g : V → Bool} (h : Gives test g)
    {below above : List V} (hvs : (items.extract first last).toList = below ++ above)
    (hbelow : ∀ v ∈ below, g v = true) (habove : ∀ v ∈ above, g v = false) :
    (partitionFrom items test first (last - first)).EndsWith (· = first + below.length) := by
  rw [partitionFrom_eq, Nat.add_sub_cancel' hle]
  refine (bisect_endsWith h.sideOf hle hlast).map fun r hr => ?_
  have hlt : ∀ v ∈ below, (if g v then Ordering.lt else .gt) = .lt :=
    fun v hv => if_pos (hbelow v hv)
  have hgt : ∀ v ∈ above, (if g v then Ordering.lt else .gt) = .gt :=
    fun v hv => if_neg (Bool.eq_false_iff.mp (habove v hv))
  -- nothing matches, as a test only tells the two sides
  have hmiss : r.2 = false := by
    by_contra hfound
    obtain ⟨-, v, -, heq⟩ := hr.hit (Bool.eq_true_of_not_eq_false hfound)
    split at heq <;> cases heq
  rw [← List.append_nil below] at hvs
  exact (of_finds_of_miss hle hlast hr hmiss hvs hlt (fun v hv => by cases hv) hgt).1

end Rising

/-! ### Every search -/

/-- What is promised of a search by halves from position `first` up to `last` and of a search
    there for the point from which on the comparison no longer gives less. -/
structure Bisects (cmp : V → Ordering) (items : Array V) (first last : Nat)
    (search : Action σ (Nat × Bool)) (point : Action σ Nat) : Prop where
  finds : search.EndsWith (Finds cmp items first last)
  /-- On rising items the search tells whether there is a match. -/
  found : Rises cmp (items.extract first last).toList → search.EndsWith fun r =>
    r.2 = true ↔ ∃ v ∈ (items.extract first last).toList, cmp v = .eq
  /-- On rising items a search without a match ends after the items below. -/
  missed : Rises cmp (items.extract first last).toList → search.EndsWith fun r =>
    r.2 = false → r.1 = first + (items.extract first last).toList.countP (isBelow cmp)
  /-- That is the partition point. -/
  point : Rises cmp (items.extract first last).toList → point.EndsWith
    (· = first + (items.extract first last).toList.countP (isBelow cmp))

/-- A search by halves does all that is promised of it, whatever comparison it uses. -/
theorem bisects (h : Gives compare cmp) {test : V → Action σ Bool}
    (htest : Gives test (isBelow cmp)) {first last : Nat} (hle : first ≤ last)
    (hlast : last ≤ items.size) : Bisects cmp items first last (bisect items compare first last)
      (partitionFrom items test first (last - first)) where
  finds := bisect_endsWith h hle hlast
  found hrises := (bisect_endsWith h hle hlast).imp fun _ hr =>
    (of_finds_of_rises hle hlast hr hrises).1
  missed hrises := (bisect_endsWith h hle hlast).imp fun _ hr =>
    (of_finds_of_rises hle hlast hr hrises).2
  point := by
    rintro ⟨below, here, above, hvs, hbelow, hhere, habove⟩
    have hrest : ∀ v ∈ here ++ above, cmp v ≠ .lt := by
      intro v hv hlt
      rcases List.mem_append.mp hv with hmem | hmem
      · cases hlt.symm.trans (hhere v hmem)
      · cases hlt.symm.trans (habove v hmem)
    rw [List.append_assoc] at hvs
    rw [hvs, countP_below hbelow hrest]
    exact partitionFrom_endsWith hle hlast htest hvs (fun v hv => beq_iff_eq.mpr (hbelow v hv))
      fun v hv => beq_eq_false_iff_ne.mpr (hrest v hv)

/-- The side of the target on which an ordering has an element. -/
def sideOn (lt : C → C → Bool) (target c : C) : Ordering :=
  if lt c target then .lt else if lt target c then .gt else .eq

/-- An order of keys gives a comparison with the key that is looked for. -/
theorem gives_compareKeys {less : C → C → Action σ Bool} {lt : C → C → Bool}
    (h : MergeSort.Decides less lt) (target : C) :
    Gives (compareKeys less target) (sideOn lt target) := by
  intro c s
  unfold compareKeys sideOn
  rw [Action.step_bind_of_ok (h.step c target s)]
  cases lt c target with
  | true => rfl
  | false =>
    rw [if_neg Bool.false_ne_true, Action.step_bind_of_ok (h.step target c _)]
    cases lt target c <;> rfl

/-- What is below the target is what the ordering puts before it. -/
theorem gives_isBelow {less : C → C → Action σ Bool} {lt : C → C → Bool}
    (h : MergeSort.Decides less lt) (target : C) :
    Gives (less · target) (isBelow (sideOn lt target)) := by
  intro c s
  have hside : isBelow (sideOn lt target) c = lt c target := by
    unfold isBelow sideOn
    cases lt c target with
    | true => rfl
    | false => cases lt target c <;> rfl
  rw [hside]
  exact h c target s

/-- What a function gives may be asked about. -/
theorem Gives.comp {f : V → Action σ C} {g : V → C} (hf : Gives f g) {ask : C → Action σ α}
    {answer : C → α} (h : Gives ask answer) :
    Gives (fun v => do ask (← f v)) fun v => answer (g v) :=
  gives_of_endsWith fun v => (hf.endsWith v).bind fun c hc => hc ▸ h.endsWith c

end Table

/-- A search in a slice is as right as any, at positions that count from the start of the slice. -/
theorem Slice.bisects {s : Slice} {t : Table V} (hs : s.first ≤ s.last) (hlast : s.last ≤ t.size)
    {compare : V → Action σ Ordering} {cmp : V → Ordering} (h : Table.Gives compare cmp)
    {test : V → Action σ Bool} (htest : Table.Gives test (isBelow cmp)) :
    Table.Bisects cmp (s.items t).toArray 0 s.size (s.bisect t compare)
      (s.partitionPoint t test) := by
  obtain ⟨c, hc⟩ : ∃ c : Table V, c.items = (s.items t).toArray := ⟨⟨_, t.index⟩, rfl⟩
  have hitems : c.items.toList = s.items t := by rw [hc]
  rw [bisect_of_items hlast hitems hs, partitionPoint_of_items hlast hitems, ← hc]
  exact Table.bisects h htest (Nat.zero_le _) (size_eq_of_items hlast hitems).ge

/-! ### The searches of a container -/

namespace Table

/-- What is promised of the searches by halves in a container, where `searchBy` takes a comparison
    of items and `searchKeys` an ordering of keys. -/
structure Searches (κ : Keying K V)
    (searchBy : {σ : Type} → (V → Action σ Ordering) → Action σ (Nat × Bool))
    (searchKeys : {σ : Type} → (K → K → Action σ Bool) → K → Action σ (Nat × Bool))
    (t : Table V) : Prop where
  whole : ∀ {σ : Type} {compare : V → Action σ Ordering} {cmp : V → Ordering}
    {test : V → Action σ Bool}, Gives compare cmp → Gives test (isBelow cmp) →
    Bisects cmp t.items 0 t.size (searchBy compare) (partitionFrom t.items test 0 t.size)
  range : ∀ {σ : Type} {compare : V → Action σ Ordering} {cmp : V → Ordering}
    {test : V → Action σ Bool}, Gives compare cmp → Gives test (isBelow cmp) →
    ∀ first last, first ≤ last → last ≤ t.size →
      Bisects cmp t.items first last (bisect t.items compare first last)
        (partitionFrom t.items test first (last - first))
  /-- Positions in a slice count from its start. -/
  slice : ∀ {σ : Type} {compare : V → Action σ Ordering} {cmp : V → Ordering}
    {test : V → Action σ Bool}, Gives compare cmp → Gives test (isBelow cmp) →
    ∀ s : Slice, s.first ≤ s.last → s.last ≤ t.size →
      Bisects cmp (s.items t).toArray 0 s.size (s.bisect t compare) (s.partitionPoint t test)
  /-- An ordering of keys compares the key of an item with a target. -/
  keys : ∀ {σ : Type} {less : K → K → Action σ Bool} {lt : K → K → Bool} {k : K},
    MergeSort.Decides less lt →
    Bisects (fun v => sideOn lt k (κ.key v)) t.items 0 t.size (searchKeys less k)
        (partitionFrom t.items (fun v => less (κ.key v) k) 0 t.size) ∧
      ∀ s : Slice, s.first ≤ s.last → s.last ≤ t.size →
        Bisects (fun v => sideOn lt k (κ.key v)) (s.items t).toArray 0 s.size
          (s.binarySearchKeys κ t less k) (s.partitionPoint t fun v => less (κ.key v) k)
  /-- So does an ordering of what a function gives for the items. -/
  byKey : ∀ {σ C : Type} {less : C → C → Action σ Bool} {lt : C → C → Bool}
    {f : V → Action σ C} {g : V → C} {target : C}, MergeSort.Decides less lt → Gives f g →
    Bisects (fun v => sideOn lt target (g v)) t.items 0 t.size (t.bisectByKey less f target)
      (partitionFrom t.items (fun v => do less (← f v) target) 0 t.size)

/-- Every table does all searches that are promised. -/
theorem searches (κ : Keying K V) (t : Table V) : t.Searches κ
    (fun compare => bisect t.items compare 0 t.size)
    (fun less k => bisect t.items (fun v => compareKeys less k (κ.key v)) 0 t.size) where
  whole h htest := bisects h htest (Nat.zero_le _) le_rfl
  range h htest _ _ hle hlast := bisects h htest hle hlast
  slice h htest _ hs hlast := Slice.bisects hs hlast h htest
  keys {_ less lt k} h := by
    have hcompare : Gives (fun v => compareKeys less k (κ.key v)) fun v => sideOn lt k (κ.key v) :=
      fun v => gives_compareKeys h k (κ.key v)
    have htest : Gives (fun v => less (κ.key v) k) (isBelow fun v => sideOn lt k (κ.key v)) :=
      fun v => gives_isBelow h k (κ.key v)
    exact ⟨bisects hcompare htest (Nat.zero_le _) le_rfl,
      fun _ hs hlast => Slice.bisects hs hlast hcompare htest⟩
  byKey h hf :=
    bisects (hf.comp (gives_compareKeys h _)) (hf.comp (gives_isBelow h _)) (Nat.zero_le _) le_rfl

end Table

/-- In every map and in every set, whatever its items and their order, the searches by halves end
    with answers that are right. -/
theorem searches_by_halves (κ : Hashing K) :
    (∀ m : Map K T, m.Searches κ.map (Map.binarySearchBy m) (Map.binarySearchKeys m)) ∧
      ∀ s : Set K, s.Searches κ.set (Set.binarySearchBy s) (Set.binarySearch s) :=
  ⟨Table.searches κ.map, Table.searches κ.set⟩

/-- Four keys in no order; the two in the middle are in order. -/
def unsorted : Set Nat := ⟨#[9, 2, 7, 3], .null .standard⟩

/-- The ordering of numbers, which counts how often it is asked. -/
def countedLess (a b : Nat) : Action Nat Bool := do
  modify (· + 1)
  return a < b

/-- The search for a key that is absent ends between a smaller and a greater one. The search in
    the middle ends after the smaller one, which is where that part would have to be cut. -/
theorem searches_by_halves_unsorted :
    (Set.binarySearch unsorted countedLess 4).step 0 = (.ok (2, false), 3) ∧
      Finds (Table.sideOn (fun a b => decide (a < b)) 4) unsorted.items 0 4 (2, false) ∧
      ((⟨1, 3⟩ : Slice).binarySearchKeys (⟨fun _ => 0, (· == ·), fun _ => none⟩ : Hashing Nat).set
        unsorted countedLess 4).EndsWith fun r => r.2 = false → r.1 = 1 := by
  have hless : MergeSort.Decides countedLess fun a b => decide (a < b) := fun _ _ _ => rfl
  have hkeys := ((searches_by_halves (T := Nat) ⟨fun _ => 0, (· == ·), fun _ => none⟩).2
    unsorted).keys (k := 4) hless
  have hstep : (Set.binarySearch unsorted countedLess 4).step 0 = (.ok (2, false), 3) := by
    decide +kernel
  refine ⟨hstep, ?_, ?_⟩
  · obtain ⟨r, s, hstep', hfinds⟩ := hkeys.1.finds 0
    cases hstep.symm.trans hstep'
    exact hfinds
  · refine (hkeys.2 ⟨1, 3⟩ (by decide) (by decide)).missed ⟨[2], [], [7], rfl, ?_, ?_, ?_⟩
    · decide
    · decide
    · decide

end OrderedHash
