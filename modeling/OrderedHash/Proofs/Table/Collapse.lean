import OrderedHash.Proofs.Table.Adding

namespace OrderedHash

/-!
# Tables built of items with repeated keys

A list of items is collapsed to one item for each key (`Keying.collapse`). It stands where
the key occurs first, and it is the first item as the last one with the key refreshes it.

Items that are placed one after another between others refresh those that have their keys,
and only add what the list collapses to without these keys (`Keying.foldl_place`). Items that
are put to a table are placed behind all others: they are absorbed one after another when the
table is extended by them (`Coherent.step_extend`), and a table built of a list has the items
of the collapsed list, as long as these are few enough to have positions (`ofList_collapse`).
-/

variable {K V α : Type}

/-! ### Lists collapsed to one item for each key -/

namespace Keying

variable (κ : Keying K V)

/-- Whether the keys of two items are equal. -/
def alike (v w : V) : Bool := κ.same (κ.key v) (κ.key w)

/-- An item as the last of those in a list that have its key refreshes it. -/
def latest (v : V) (vs : List V) : V :=
  match (vs.filter (κ.alike v)).getLast? with
  | some w => κ.refresh v w
  | none => v

/-- One item for each key of a list, in the order in which the keys occur first. -/
def collapse : List V → List V
  | [] => []
  | v :: vs => κ.latest v vs :: (collapse vs).filter fun w => !κ.alike v w

/-- Whether an item of a list has the key of the one given. -/
def holds (items : List V) (v : V) : Bool := items.any (κ.alike · v)

/-- The items of a list after an item was absorbed: it refreshes those that have its key,
    and comes last if there are none. -/
def absorb (items : List V) (v : V) : List V :=
  if κ.holds items v then items.map fun w => if κ.alike w v then κ.refresh w v else w
  else items ++ [v]

/-- The items of a list, of which those with the key of `v` are refreshed with it. -/
def refreshAll (items : List V) (v : V) : List V :=
  items.map fun w => if κ.alike w v then κ.refresh w v else w

/-- A list in two parts after an item was placed between them: it refreshes those that have
    its key, and comes last in the first part if there are none. -/
def place (parts : List V × List V) (v : V) : List V × List V :=
  if κ.holds (parts.1 ++ parts.2) v then (κ.refreshAll parts.1 v, κ.refreshAll parts.2 v)
  else (parts.1 ++ [v], parts.2)

/-- What a list of items adds to others: one item for each key that they do not have. -/
def additions (items vs : List V) : List V := (κ.collapse vs).filter fun w => !κ.holds items w

/-- An item that is refreshed keeps its key, and of two refreshes the second one counts. -/
structure Refreshes (κ : Keying K V) : Prop where
  key : ∀ stored given, κ.key (κ.refresh stored given) = κ.key stored
  again : ∀ stored first second,
    κ.refresh (κ.refresh stored first) second = κ.refresh stored second

/-- Of the item of a map by which another one is refreshed the value is taken. -/
theorem refreshes_map {T : Type} (κ : Hashing K) : (κ.map : Keying K (K × T)).Refreshes :=
  ⟨fun _ _ => rfl, fun _ _ _ => rfl⟩

/-- Nothing is taken of a key of a set whose equal is stored. -/
theorem refreshes_set (κ : Hashing K) : κ.set.Refreshes := ⟨fun _ _ => rfl, fun _ _ _ => rfl⟩

/-- The keys of a set are not changed by others that are equal. -/
theorem latest_set (κ : Hashing K) (k : K) (ks : List K) : κ.set.latest k ks = k := by
  unfold latest
  split <;> rfl

variable {κ}

/-! ### Equal keys -/

/-- Whether two items have equal keys does not depend on which comes first. -/
theorem alike_symm (hκ : κ.Lawful) (v w : V) : κ.alike v w = κ.alike w v :=
  Bool.eq_iff_iff.mpr ⟨hκ.symm _ _, hκ.symm _ _⟩

/-- Items with equal keys have the keys of the same items. -/
theorem alike_congr (hκ : κ.Lawful) {v w : V} (h : κ.alike v w) (x : V) :
    κ.alike v x = κ.alike w x :=
  Bool.eq_iff_iff.mpr ⟨hκ.trans _ _ _ (hκ.symm _ _ h), hκ.trans _ _ _ h⟩

/-- Items with equal keys are held by the same lists. -/
theorem holds_congr (hκ : κ.Lawful) {v w : V} (h : κ.alike v w) (items : List V) :
    κ.holds items v = κ.holds items w := by
  refine congrArg items.any (funext fun x => ?_)
  rw [alike_symm hκ x v, alike_symm hκ x w, alike_congr hκ h]

/-- An item has the same key after it was refreshed. -/
theorem alike_refresh (hr : κ.Refreshes) (v w x : V) :
    κ.alike (κ.refresh v w) x = κ.alike v x := by
  rw [alike, hr.key, alike]

/-- The last item with a key has that key. -/
theorem alike_latest (hr : κ.Refreshes) (v : V) (vs : List V) (x : V) :
    κ.alike (κ.latest v vs) x = κ.alike v x := by
  unfold latest
  split
  · exact alike_refresh hr _ _ x
  · rfl

/-- Items have the same keys after some of them were refreshed. -/
theorem holds_refreshAll (hr : κ.Refreshes) (items : List V) (v w : V) :
    κ.holds (κ.refreshAll items v) w = κ.holds items w := by
  rw [refreshAll, holds, List.any_map]
  refine congrArg items.any (funext fun x => ?_)
  dsimp only [Function.comp]
  split
  · exact alike_refresh hr x v w
  · rfl

/-- Two lists hold the keys that either of them does. -/
theorem holds_append (front back : List V) (v : V) :
    κ.holds (front ++ back) v = (κ.holds front v || κ.holds back v) := List.any_append

/-- The key of the last item is held. -/
theorem holds_concat (items : List V) {w v : V} (h : κ.alike w v) : κ.holds (items ++ [w]) v := by
  rw [holds_append, Bool.or_eq_true]
  exact Or.inr (List.any_eq_true.mpr ⟨w, List.mem_singleton_self w, h⟩)

/-- An item refreshes none of those that do not have its key. -/
theorem refreshAll_eq_self {items : List V} {v : V} (hv : κ.holds items v = false) :
    κ.refreshAll items v = items := by
  have hnone : ∀ w ∈ items, κ.alike w v = false := by simpa [holds] using hv
  exact (List.map_congr_left fun w hw => by simp [hnone w hw]).trans (List.map_id' items)

/-! ### The last item with a key -/

theorem latest_nil (v : V) : κ.latest v [] = v := rfl

/-- An item with the key refreshes what is known so far. -/
theorem latest_cons_of_alike (hr : κ.Refreshes) {v w : V} (h : κ.alike v w) (vs : List V) :
    κ.latest v (w :: vs) = κ.latest (κ.refresh v w) vs := by
  have hfilter : vs.filter (κ.alike (κ.refresh v w)) = vs.filter (κ.alike v) :=
    List.filter_congr fun x _ => alike_refresh hr v w x
  rw [latest, latest, hfilter, List.filter_cons_of_pos h, List.getLast?_cons]
  -- the item counts only if none with its key follows it
  cases (vs.filter (κ.alike v)).getLast? with
  | none => rfl
  | some x => exact (hr.again v w x).symm

/-- An item with another key is passed over. -/
theorem latest_cons_of_not_alike {v w : V} (h : κ.alike v w = false) (vs : List V) :
    κ.latest v (w :: vs) = κ.latest v vs := by
  rw [latest, latest, List.filter_cons_of_neg (by rw [h]; exact Bool.false_ne_true)]

/-- An item stays as it is if none of the list has its key. -/
theorem latest_eq_self {v : V} {vs : List V} (h : ∀ w ∈ vs, κ.alike v w = false) :
    κ.latest v vs = v := by
  have hfilter : vs.filter (κ.alike v) = [] :=
    List.filter_eq_nil_iff.mpr fun w hw => by simp [h w hw]
  rw [latest, hfilter]
  rfl

/-- A refresh with the first of some items is overridden by those that follow it. -/
theorem map_latest_refreshAll (hr : κ.Refreshes) (items : List V) (v : V) (vs : List V) :
    (κ.refreshAll items v).map (κ.latest · vs) = items.map (κ.latest · (v :: vs)) := by
  rw [refreshAll, List.map_map]
  refine List.map_congr_left fun w _ => ?_
  dsimp only [Function.comp]
  cases hw : κ.alike w v with
  | true => rw [if_pos rfl, latest_cons_of_alike hr hw]
  | false => rw [if_neg Bool.false_ne_true, latest_cons_of_not_alike hw]

/-- An item does not count for those that do not have its key. -/
theorem map_latest_cons_of_not_holds {items : List V} {v : V} (hv : κ.holds items v = false)
    (vs : List V) : items.map (κ.latest · (v :: vs)) = items.map (κ.latest · vs) := by
  have hnone : ∀ w ∈ items, κ.alike w v = false := by simpa [holds] using hv
  exact List.map_congr_left fun w hw => latest_cons_of_not_alike (hnone w hw) vs

/-! ### Items that others add to -/

/-- It matters to the items added only which keys there are. -/
theorem additions_congr {items items' : List V} (h : ∀ w, κ.holds items w = κ.holds items' w)
    (vs : List V) : κ.additions items vs = κ.additions items' vs :=
  List.filter_congr fun w _ => congrArg not (h w)

theorem additions_nil (items : List V) : κ.additions items [] = [] := rfl

/-- A later item with a key that is held is as little new as the first one. -/
theorem additions_cons_of_holds (hκ : κ.Lawful) (hr : κ.Refreshes) {items : List V} {v : V}
    (hv : κ.holds items v) (vs : List V) : κ.additions items (v :: vs) = κ.additions items vs := by
  have hlatest : κ.holds items (κ.latest v vs) :=
    (holds_congr hκ ((alike_latest hr v vs v).trans (hκ.refl _)) items).trans hv
  rw [additions, additions, collapse, List.filter_cons_of_neg (by simp [hlatest]),
    List.filter_filter]
  refine List.filter_congr fun w _ => ?_
  cases hw : κ.alike v w with
  | false => exact Bool.and_true _
  | true => rw [← holds_congr hκ hw, hv]; rfl

/-- The first item with a key that is not held is new, and those that follow are not. -/
theorem additions_cons_of_not_holds (hκ : κ.Lawful) (hr : κ.Refreshes) {items : List V} {v : V}
    (hv : κ.holds items v = false) (vs : List V) :
    κ.additions items (v :: vs) = κ.latest v vs :: κ.additions (items ++ [v]) vs := by
  have hlatest : κ.holds items (κ.latest v vs) = false :=
    (holds_congr hκ ((alike_latest hr v vs v).trans (hκ.refl _)) items).trans hv
  rw [additions, additions, collapse, List.filter_cons_of_pos (by simp [hlatest]),
    List.filter_filter]
  refine congrArg _ (List.filter_congr fun w _ => ?_)
  simp [holds, Bool.not_or]

/-! ### Items placed between others, and absorbed by others -/

/-- Items that are placed one after another between two lists refresh those of their keys, and
    what they add stands behind the first list. -/
theorem foldl_place (hκ : κ.Lawful) (hr : κ.Refreshes) (vs front back : List V) :
    vs.foldl κ.place (front, back) =
      (front.map (κ.latest · vs) ++ κ.additions (front ++ back) vs,
        back.map (κ.latest · vs)) := by
  induction vs generalizing front back with
  | nil => simp [latest_nil, additions_nil]
  | cons v vs ih =>
    rw [List.foldl_cons, place]
    cases hv : κ.holds (front ++ back) v with
    | true =>
      have hsame (w : V) : κ.holds (κ.refreshAll front v ++ κ.refreshAll back v) w =
          κ.holds (front ++ back) w := by
        rw [holds_append, holds_append, holds_refreshAll hr, holds_refreshAll hr]
      rw [if_pos rfl, ih, map_latest_refreshAll hr, map_latest_refreshAll hr,
        additions_congr hsame, additions_cons_of_holds hκ hr hv]
    | false =>
      have hparts := hv
      rw [holds_append, Bool.or_eq_false_iff] at hparts
      -- the item counts as one of the first list for those that follow
      have hmoved (w : V) :
          κ.holds (front ++ [v] ++ back) w = κ.holds (front ++ back ++ [v]) w := by
        simp only [holds_append, Bool.or_right_comm]
      rw [if_neg Bool.false_ne_true, ih, map_latest_cons_of_not_holds hparts.1,
        map_latest_cons_of_not_holds hparts.2, additions_congr hmoved,
        additions_cons_of_not_holds hκ hr hv]
      simp

/-- Items are absorbed by others as they are placed behind them. -/
theorem foldl_place_nil (vs items : List V) :
    vs.foldl κ.place (items, []) = (vs.foldl κ.absorb items, []) := by
  induction vs generalizing items with
  | nil => rfl
  | cons v vs ih =>
    have hstep : κ.place (items, []) v = (κ.absorb items v, []) := by
      rw [place, List.append_nil, absorb]
      split <;> rfl
    rw [List.foldl_cons, List.foldl_cons, hstep, ih]

/-- Items that absorb others one after another are refreshed by the last with their key, and
    what the others add comes behind them. -/
theorem foldl_absorb (hκ : κ.Lawful) (hr : κ.Refreshes) (vs items : List V) :
    vs.foldl κ.absorb items = items.map (κ.latest · vs) ++ κ.additions items vs := by
  have hplace := foldl_place hκ hr vs items []
  rw [foldl_place_nil, List.append_nil] at hplace
  exact congrArg Prod.fst hplace

/-- Without any items before them items are collapsed. -/
theorem foldl_absorb_nil (hκ : κ.Lawful) (hr : κ.Refreshes) (vs : List V) :
    vs.foldl κ.absorb [] = κ.collapse vs := by
  rw [foldl_absorb hκ hr]
  simp [additions, holds]

/-- The key one keeps its place and takes the last of its values. -/
example : (Hashing.map (.ofHasher ⟨Nat.toUInt64, true⟩ (· == ·))).collapse
    [(1, 10), (2, 20), (1, 30)] = [(1, 30), (2, 20)] := by decide

/-- No item gets lost when others are placed between them. -/
theorem length_le_foldl_place (vs : List V) (parts : List V × List V) :
    (parts.1 ++ parts.2).length ≤
      ((vs.foldl κ.place parts).1 ++ (vs.foldl κ.place parts).2).length := by
  induction vs generalizing parts with
  | nil => exact le_rfl
  | cons v vs ih =>
    refine le_trans ?_ (ih (κ.place parts v))
    unfold place
    split
    · simp [refreshAll]
    · simp

/-- No item gets lost when another one is absorbed. -/
theorem length_le_absorb (items : List V) (v : V) : items.length ≤ (κ.absorb items v).length := by
  unfold absorb
  split <;> simp

/-- A list in which no key occurs twice is not changed. -/
theorem collapse_eq_self {vs : List V}
    (h : (vs.map κ.key).Pairwise fun a b => κ.same a b = false) : κ.collapse vs = vs := by
  induction vs with
  | nil => rfl
  | cons v vs ih =>
    rw [List.map_cons, List.pairwise_cons] at h
    have hnone : ∀ w ∈ vs, κ.alike v w = false := fun w hw => h.1 _ (List.mem_map_of_mem hw)
    rw [collapse, ih h.2, latest_eq_self hnone,
      List.filter_eq_self.mpr fun w hw => by simp [hnone w hw]]

end Keying

/-! ### Tables that absorb items -/

namespace Table

variable {κ : Keying K V} {t : Table V}

/-- An item that is added at the end comes last. -/
theorem items_insertAt_size (t : Table V) (hash : UInt64) (v : V) :
    (t.insertAt κ t.size hash v).items = t.items.push v :=
  Index.insertIdx_size t.items v

/-- A key is found if an item has it. -/
theorem Coherent.holds_eq (h : t.Coherent κ) (hκ : κ.Lawful) (v : V) :
    κ.holds t.items.toList v = (t.find κ (κ.key v)).isSome := by
  cases hfind : t.find κ (κ.key v) with
  | some pos =>
    obtain ⟨w, hw, hsame⟩ := (h.find_eq_some hκ _ _).mp hfind
    exact List.any_eq_true.mpr ⟨w, Array.mem_toList_iff.mpr (Array.mem_of_getElem? hw), hsame⟩
  | none =>
    have habsent := (h.find_eq_none hκ _).mp hfind
    rw [Keying.holds, Option.isSome_none, List.any_eq_false]
    intro w hw
    rw [Keying.alike, habsent w (Array.mem_toList_iff.mp hw)]
    exact Bool.false_ne_true

/-- An item that is refreshed is the only one with its key. -/
theorem Coherent.toList_refreshAt (h : t.Coherent κ) (hκ : κ.Lawful) {v : V} {pos : Nat}
    (hfind : t.find κ (κ.key v) = some pos) :
    (t.refreshAt κ pos v).items.toList = κ.refreshAll t.items.toList v := by
  obtain ⟨w, hw, hsame⟩ := (h.find_eq_some hκ _ _).mp hfind
  refine List.ext_getElem? fun p => ?_
  rw [Array.getElem?_toList, Keying.refreshAll, List.getElem?_map, Array.getElem?_toList]
  show (t.items.modify pos fun stored => κ.refresh stored v)[p]? = _
  rw [Array.getElem?_modify]
  -- the key of the item at the position is the only one that equals that of the given item
  cases hx : t.items[p]? with
  | none => simp
  | some x =>
    by_cases hp : pos = p
    · subst hp
      obtain rfl : w = x := Option.some.inj (hw.symm.trans hx)
      simp [show κ.alike w v = true from hsame]
    · have hother : κ.alike x v = false := by
        by_contra hx'
        exact hp (h.distinct pos p w x hw hx
          (hκ.trans _ _ _ hsame (hκ.symm _ _ (Bool.of_not_eq_false hx'))))
      simp [hp, hother]

/-- An item whose key is absent is added behind the others. -/
theorem Coherent.insertAt_size (h : t.Coherent κ) (hκ : κ.Lawful) {v : V}
    (hfind : t.find κ (κ.key v) = none) (hsmall : t.size + 1 < Node.movingPosition) :
    (t.insertAt κ t.size (κ.hash (κ.key v)) v).Coherent κ ∧
      (t.insertAt κ t.size (κ.hash (κ.key v)) v).items.toList = t.items.toList ++ [v] := by
  have hitems := items_insertAt_size (κ := κ) t (κ.hash (κ.key v)) v
  refine ⟨h.insertAt hκ le_rfl hfind ?_, by rw [hitems, Array.toList_push]⟩
  show (t.insertAt κ t.size (κ.hash (κ.key v)) v).items.size < _
  rw [hitems, Array.size_push]
  exact hsmall

/-- If its key is stored an absorbed item refreshes the one that has it. -/
theorem Coherent.absorb_of_find (h : t.Coherent κ) (hκ : κ.Lawful) {v : V} {pos : Nat}
    (hfind : t.find κ (κ.key v) = some pos) :
    κ.absorb t.items.toList v = (t.refreshAt κ pos v).items.toList := by
  have hheld := h.holds_eq hκ v
  rw [hfind, Option.isSome_some] at hheld
  rw [h.toList_refreshAt hκ hfind, Keying.absorb, if_pos hheld, Keying.refreshAll]

/-- If its key is not stored an absorbed item comes last. -/
theorem Coherent.absorb_of_absent (h : t.Coherent κ) (hκ : κ.Lawful) {v : V}
    (hfind : t.find κ (κ.key v) = none) : κ.absorb t.items.toList v = t.items.toList ++ [v] := by
  have hheld := h.holds_eq hκ v
  rw [hfind, Option.isSome_none] at hheld
  rw [Keying.absorb, hheld, if_neg Bool.false_ne_true]

/-- Where a key is found, or where an item with it is added at the end. -/
def spot (κ : Keying K V) (t : Table V) (k : K) : Nat := (t.find κ k).getD t.size

/-- An item that is put to a table is absorbed by its items. -/
theorem Coherent.step_put (h : t.Coherent κ) (hκ : κ.Lawful) (hr : κ.Refreshes) {v : V}
    (haccepted : κ.refusal (κ.key v) = none)
    (hsmall : (κ.absorb t.items.toList v).length < Node.movingPosition) :
    ∃ u, (put κ v).step t =
        (.ok (t.spot κ (κ.key v), t.items[t.spot κ (κ.key v)]?), u) ∧
      u.Coherent κ ∧ u.items.toList = κ.absorb t.items.toList v := by
  rw [spot]
  cases hfind : t.find κ (κ.key v) with
  | some pos =>
    rw [h.absorb_of_find hκ hfind]
    exact ⟨_, step_onKey_of_find haccepted hfind, h.refreshAt hr.key pos v, rfl⟩
  | none =>
    rw [h.absorb_of_absent hκ hfind, List.length_append, Array.length_toList] at hsmall
    rw [h.absorb_of_absent hκ hfind]
    have hend : t.items[t.size]? = none := Array.getElem?_eq_none (Nat.le_refl t.items.size)
    refine ⟨_, ?_, h.insertAt_size hκ hfind hsmall⟩
    rw [Option.getD_none, hend]
    exact step_onKey_of_absent haccepted hfind

/-! ### Items added in turn -/

/-- The action on an item does to the items of coherent tables what `f` does to lists. -/
def Performs (κ : Keying K V) (act : V → Action (Table V) α) (f : List V → V → List V) : Prop :=
  ∀ (t : Table V) (v : V), t.Coherent κ → κ.refusal (κ.key v) = none →
    (f t.items.toList v).length < Node.movingPosition →
      ∃ answer u, (act v).step t = (.ok answer, u) ∧ u.Coherent κ ∧
        u.items.toList = f t.items.toList v

/-- An item that is put into a coherent table is absorbed by its items. -/
theorem performs_put (hκ : κ.Lawful) (hr : κ.Refreshes) : Performs κ (put κ) κ.absorb := by
  intro t v h haccepted hsmall
  obtain ⟨u, hstep, hu⟩ := h.step_put hκ hr haccepted hsmall
  exact ⟨_, u, hstep, hu⟩

/-- No item gets lost when those of a list are added in turn. -/
theorem length_le_foldl {f : List V → V → List V}
    (hf : ∀ items v, items.length ≤ (f items v).length) (vs items : List V) :
    items.length ≤ (vs.foldl f items).length := by
  induction vs generalizing items with
  | nil => exact le_rfl
  | cons v vs ih => exact (hf items v).trans (ih _)

/-- What is done for one item is done for each of a list in its order. -/
theorem Performs.forEach {act : V → Action (Table V) α} {f : List V → V → List V}
    (hact : Performs κ act f) (hf : ∀ items v, items.length ≤ (f items v).length)
    (h : t.Coherent κ) {vs : List V} (haccepted : ∀ v ∈ vs, κ.refusal (κ.key v) = none)
    (hsmall : (vs.foldl f t.items.toList).length < Node.movingPosition) :
    ∃ u, (Action.forEach (fun v => do let _ ← act v) vs).step t = (.ok (), u) ∧
      u.Coherent κ ∧ u.items.toList = vs.foldl f t.items.toList := by
  induction vs generalizing t with
  | nil => exact ⟨t, rfl, h, rfl⟩
  | cons v vs ih =>
    rw [List.foldl_cons] at hsmall ⊢
    obtain ⟨hv, hvs⟩ := List.forall_mem_cons.mp haccepted
    -- no item gets lost, so that there are few enough of them on the way
    obtain ⟨answer, u, hstep, hu, hitems⟩ :=
      hact t v h hv (lt_of_le_of_lt (length_le_foldl hf vs _) hsmall)
    rw [← hitems] at hsmall ⊢
    obtain ⟨last, hrun, hlast⟩ := ih hu hvs hsmall
    have hfirst : (do let _ ← act v : Action (Table V) Unit).step t = (.ok (), u) := by
      rw [Action.step_bind_of_ok hstep]
      rfl
    exact ⟨last, by rw [Action.forEach, Action.step_bind_of_ok hfirst, hrun], hlast⟩

/-- The items that a table is extended by are absorbed in their order. -/
theorem Coherent.step_extend (h : t.Coherent κ) (hκ : κ.Lawful) (hr : κ.Refreshes) {vs : List V}
    (haccepted : ∀ v ∈ vs, κ.refusal (κ.key v) = none)
    (hsmall : (vs.foldl κ.absorb t.items.toList).length < Node.movingPosition)
    (countKnown : Bool) : ∃ u, (extend κ vs countKnown).step t = (.ok (), u) ∧
      u.Coherent κ ∧ u.items.toList = vs.foldl κ.absorb t.items.toList := by
  unfold extend
  cases countKnown with
  | false => exact (performs_put hκ hr).forEach Keying.length_le_absorb h haccepted hsmall
  | true =>
    have hroom := h.reserve (t.size + vs.length)
    rw [if_pos rfl, Action.step_modify_bind]
    exact (performs_put hκ hr).forEach Keying.length_le_absorb hroom haccepted hsmall

/-- A table built of a list has the items that the list collapses to. -/
theorem ofList_collapse (hκ : κ.Lawful) (hr : κ.Refreshes) {vs : List V}
    (haccepted : ∀ v ∈ vs, κ.refusal (κ.key v) = none)
    (hsmall : (κ.collapse vs).length < Node.movingPosition) (countKnown : Bool) :
    ∃ u, ofList κ vs countKnown = .ok u ∧ u.Coherent κ ∧ u.items.toList = κ.collapse vs := by
  rw [← Keying.foldl_absorb_nil hκ hr vs] at hsmall ⊢
  obtain ⟨u, hrun, hu⟩ :=
    (Coherent.empty κ .standard).step_extend hκ hr haccepted hsmall countKnown
  exact ⟨u, build_of_ok hrun, hu⟩

end Table

end OrderedHash
