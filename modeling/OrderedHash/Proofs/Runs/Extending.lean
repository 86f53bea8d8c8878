import OrderedHash.Proofs.Runs.Splicing
import OrderedHash.Proofs.Table.Extending

namespace OrderedHash

/-!
# Lists of items added to containers of a run

The items that a container has stay in their places, and behind them come the newcomers of
the list. A map that is extended takes the last values that the list has for its keys, whether
or not the number of items is known beforehand, and one in whose store the items are built
keeps the values it has and takes the first ones for the newcomers. The stored keys are in
either case those that occurred first.

To append another container is to extend by its items, after which it is empty, and a container
built of a list is an empty one extended by it. So a container built of the items of another
one has these items, and the items of one built of a list are the list exactly if no two of its
keys are equal (`World.addsLists_of_reachable`).
-/

variable {K V T σ : Type}

namespace Table

/-- The keys of a list are accepted, and there are positions for those that are new. -/
structure Accepts (κ : Keying K V) (t : Table V) (vs : List V) : Prop where
  keys : ∀ v ∈ vs, κ.refusal (κ.key v) = none
  room : t.size + (κ.newcomers t.items.toList vs).length < 2 ^ 48 - 2

/-- The newcomers of a list came behind the items of a table, and `final` tells what each item
    was turned into. -/
structure Gains (κ : Keying K V) (vs : List V) (final : V → V) (t u : Table V) : Prop where
  items_eq : u.items.toList = (t.items.toList ++ κ.newcomers t.items.toList vs).map final
  consistent : u.Consistent κ

variable {κ : Keying K V} {t : Table V} {vs : List V}

theorem Accepts.small (h : t.Accepts κ vs) (final : V → V) :
    ((t.items.toList ++ κ.newcomers t.items.toList vs).map final).length <
      Node.movingPosition := by
  rw [List.length_map, List.length_append, Array.length_toList]
  exact h.room

namespace Coherent

/-- A coherent table is extended by the items of a list. -/
theorem extend_gains (h : t.Coherent κ) (hκ : κ.Lawful) (hr : κ.Refreshes)
    (hself : ∀ v, κ.refresh v v = v) (hvs : t.Accepts κ vs) (countKnown : Bool) :
    ∃ u, (extend κ vs countKnown).step t = (.ok (), u) ∧ u.Coherent κ ∧
      Gains κ vs (κ.latest · vs) t u := by
  have heq := Keying.foldl_absorb_eq hκ hr hself vs t.items.toList
  obtain ⟨u, hstep, hu, hitems⟩ :=
    h.step_extend hκ hr hvs.keys (heq ▸ hvs.small _) countKnown
  exact ⟨u, hstep, hu, hitems.trans heq, hu.consistent hκ⟩

/-- The items of a list are built in the store of a coherent table. -/
theorem insertEach_gains (h : t.Coherent κ) (hκ : κ.Lawful) (hvs : t.Accepts κ vs) :
    ∃ u, (insertEach κ vs).step t = (.ok (), u) ∧ Gains κ vs id t u := by
  have heq : vs.foldl κ.adopt t.items.toList =
      (t.items.toList ++ κ.newcomers t.items.toList vs).map id := by
    rw [Keying.foldl_adopt hκ, List.map_id]
  obtain ⟨u, hstep, hu, hitems⟩ := h.step_insertEach hκ hvs.keys (heq ▸ hvs.small _)
  exact ⟨u, hstep, hitems.trans heq, hu.consistent hκ⟩

end Coherent

/-- A table built of a list is an empty one extended by it, and its items are the list exactly
    if no two of its keys are equal. -/
theorem ofList_gains (hκ : κ.Lawful) (hr : κ.Refreshes) (hself : ∀ v, κ.refresh v v = v)
    (hempty : t.items = #[]) (hvs : t.Accepts κ vs) (countKnown : Bool) :
    ∃ u, ofList κ vs countKnown = .ok u ∧ Gains κ vs (κ.latest · vs) t u ∧
      (u.items.toList = vs ↔ (vs.map κ.key).Pairwise fun a b => κ.same a b = false) := by
  have hitems : (t.items.toList ++ κ.newcomers t.items.toList vs).map (κ.latest · vs) =
      κ.collapse vs := by
    rw [← Keying.foldl_absorb_eq hκ hr hself, hempty]
    exact Keying.foldl_absorb_nil hκ hr vs
  obtain ⟨u, hbuilt, hu, hcollapse⟩ :=
    ofList_collapse hκ hr hvs.keys (hitems ▸ hvs.small _) countKnown
  have hconsistent := hu.consistent hκ
  refine ⟨u, hbuilt, ⟨hcollapse.trans hitems.symm, hconsistent⟩, fun heq => ?_, fun hdistinct => ?_⟩
  · rw [← heq]
    exact hconsistent.distinct
  · rw [hcollapse, Keying.collapse_eq_self hdistinct]

/-- A table can be built of the items of a coherent one, and has the same items. -/
theorem Coherent.ofList_items (h : t.Coherent κ) (hκ : κ.Lawful) (hr : κ.Refreshes)
    (haccepted : ∀ v ∈ t.items.toList, κ.refusal (κ.key v) = none) (countKnown : Bool) :
    ∃ u, ofList κ t.items.toList countKnown = .ok u ∧ u.items = t.items ∧ u.Consistent κ := by
  have hself := Keying.collapse_eq_self (h.consistent hκ).distinct
  have hsmall : (κ.collapse t.items.toList).length < Node.movingPosition := by
    rw [hself, Array.length_toList]
    exact h.small
  obtain ⟨u, hbuilt, hu, hitems⟩ := ofList_collapse hκ hr haccepted hsmall countKnown
  exact ⟨u, hbuilt, Array.toList_inj.mp (hitems.trans hself), hu.consistent hκ⟩

end Table

namespace World

/-- Container `i` was extended by the items of container `j`, which is left empty, and the
    program can go on. -/
structure Appends (I : Interface K V) (κ : Hashing K) (i j : Nat) (w w' : World K V σ) : Prop where
  extended : (Table.extend (I.keying κ) (w.table j).items.toList true).step (w.table i) =
    (.ok (), w'.table i)
  emptied : (w'.table j).items = #[]
  others : ∀ l, l ≠ i → l ≠ j → w'.table l = w.table l
  reachable : Reachable I κ w'
  consistent : ∀ l, (w'.table l).Consistent (I.keying κ)

/-- What comes of adding lists of items to the containers of a world. An item of a container
    that is extended by `vs` is turned into what `final vs` gives. -/
structure AddsLists (I : Interface K V) (κ : Hashing K) (final : List V → V → V)
    (w : World K V σ) : Prop where
  extend : ∀ i vs, (w.table i).Accepts (I.keying κ) vs → ∀ countKnown,
    ∃ u, (Table.extend (I.keying κ) vs countKnown).step (w.table i) = (.ok (), u) ∧
      Table.Gains (I.keying κ) vs (final vs) (w.table i) u
  insertEach : ∀ i vs, (w.table i).Accepts (I.keying κ) vs →
    ∃ u, (Table.insertEach (I.keying κ) vs).step (w.table i) = (.ok (), u) ∧
      Table.Gains (I.keying κ) vs id (w.table i) u
  append : ∀ left i j, i ≠ j → (w.table i).Accepts (I.keying κ) (w.table j).items.toList →
    ∃ w', ((Turn.append (I := I) left i j).act κ).step w = (.ok (), w') ∧ Appends I κ i j w w'
  append_self : ∀ left i, ∃ w', ((Turn.append (I := I) left i i).act κ).step w = (.ok (), w') ∧
    ∀ l, w'.table l = w.table l
  /-- A container built of a list is an empty one extended by it. -/
  ofList : ∀ i vs, (w.table i).items = #[] → (w.table i).Accepts (I.keying κ) vs → ∀ countKnown,
    ∃ u, Table.ofList (I.keying κ) vs countKnown = .ok u ∧
      Table.Gains (I.keying κ) vs (final vs) (w.table i) u ∧
      (u.items.toList = vs ↔ (vs.map I.key).Pairwise fun a b => κ.same a b = false)
  ofList_items : ∀ i, (∀ v ∈ (w.table i).items.toList, κ.refusal (I.key v) = none) →
    ∀ countKnown, ∃ u, Table.ofList (I.keying κ) (w.table i).items.toList countKnown = .ok u ∧
      u.items = (w.table i).items ∧ u.Consistent (I.keying κ)

section

variable {I : Interface K V} {κ : Hashing K} {w : World K V σ}

/-- The items of one container are appended to those of another one. -/
theorem Reachable.appends (h : Reachable I κ w) (hκ : κ.Lawful) (hr : (I.keying κ).Refreshes)
    (hself : ∀ v, I.refresh v v = v) {i j : Nat} (hij : i ≠ j)
    (haccepts : (w.table i).Accepts (I.keying κ) (w.table j).items.toList) (left : Remnant V) :
    ∃ w', ((Turn.append (I := I) left i j).act κ).step w = (.ok (), w') ∧
      Appends I κ i j w w' := by
  obtain ⟨u, hextend, hu, -⟩ := (h.coherent hκ i).extend_gains hκ hr hself haccepts true
  have hstep := Table.step_append_of_extend hextend left
  -- the target is written last, after the source was cleared
  have hturn : ((Turn.append (I := I) left i j).act κ).step w =
      (.ok (), (w.setTable j (w.table j).clear).setTable i u) := by
    simp only [Turn.act, Turn.actEach, Action.step_ofStep, Origin.between_of_ne hij, hstep]
  have hreachable := h.act hturn
    ((h.fits.setTable j (h.coherent hκ j).clear.small).setTable i hu.small)
  refine ⟨_, hturn, ?_, ?_, fun l hi hj => ?_, hreachable, fun l => ?_⟩
  · rw [table_setTable_self, hextend]
  · rw [table_setTable_of_ne _ hij.symm, table_setTable_self]
    rfl
  · rw [table_setTable_of_ne _ hi, table_setTable_of_ne _ hj]
  · exact (hreachable.coherent hκ l).consistent hκ

/-- A container that is appended to itself stays as it is. -/
theorem append_self (κ : Hashing K) (w : World K V σ) (left : Remnant V) (i : Nat) :
    ∃ w', ((Turn.append (I := I) left i i).act κ).step w = (.ok (), w') ∧
      ∀ l, w'.table l = w.table l := by
  have hturn : ((Turn.append (I := I) left i i).act κ).step w =
      (.ok (), (w.setTable i (w.table i)).setTable i (w.table i)) := by
    simp only [Turn.act, Turn.actEach, Action.step_ofStep, Origin.between_self]
    rfl
  refine ⟨_, hturn, fun l => ?_⟩
  by_cases hl : l = i
  · rw [hl, table_setTable_self]
  · rw [table_setTable_of_ne _ hl, table_setTable_of_ne _ hl]

theorem Reachable.addsLists (h : Reachable I κ w) (hκ : κ.Lawful) (hr : (I.keying κ).Refreshes)
    (hself : ∀ v, I.refresh v v = v) :
    AddsLists I κ (fun vs v => (I.keying κ).latest v vs) w where
  extend i vs haccepts countKnown := by
    obtain ⟨u, hstep, -, hgains⟩ :=
      (h.coherent hκ i).extend_gains hκ hr hself haccepts countKnown
    exact ⟨u, hstep, hgains⟩
  insertEach i vs haccepts := (h.coherent hκ i).insertEach_gains hκ haccepts
  append left i j hij haccepts := h.appends hκ hr hself hij haccepts left
  append_self left i := append_self κ w left i
  ofList i vs hempty haccepts := Table.ofList_gains hκ hr hself hempty haccepts
  ofList_items i haccepted := (h.coherent hκ i).ofList_items hκ hr haccepted

end

variable {κ : Hashing K}

/-- After every run on maps or on sets lists of items can be added to every container. A map
    takes the last values that a list has for its keys, and a set keeps the keys it has. -/
theorem addsLists_of_reachable (hκ : κ.Lawful) :
    (∀ {w : World K (K × T) σ}, Reachable (Map.interface K T) κ w →
      AddsLists (Map.interface K T) κ (fun vs v => κ.map.latest v vs) w) ∧
    ∀ {w : World K K σ}, Reachable (Set.interface K) κ w →
      AddsLists (Set.interface K) κ (fun _ v => v) w := by
  constructor
  · intro w h
    exact h.addsLists hκ (Keying.refreshes_map κ) fun _ => rfl
  · intro w h
    have hkept : (fun ks k => ((Set.interface K).keying κ).latest k ks) = fun _ k => k :=
      funext fun ks => funext fun k => Keying.latest_set κ k ks
    rw [← hkept]
    exact h.addsLists hκ (Keying.refreshes_set κ) fun _ => rfl

/-- Of four items two have keys of a map, and two have a key that is new to it. They are added
    in both ways, a map is appended to an empty one, and keys are added to a set. -/
theorem addsLists_of_reachable_mixed :
    (∃ u, (Table.extend Hashing.constant.map mixedItems false).step
          ((withTwo .constant (start ())).table 0) = (.ok (), u) ∧
        u.items.toList = [(5, 50), (9, 90), (7, 71)]) ∧
      (∃ u, (Table.insertEach Hashing.constant.map mixedItems).step
          ((withTwo .constant (start ())).table 0) = (.ok (), u) ∧
        u.items.toList = [(5, 1), (9, 2), (7, 70)]) ∧
      (∃ w', ((Turn.append (I := Map.interface Nat Nat) (Map.remnant id id) 1 0).act
          .constant).step
          (withTwo .constant (start ())) = (.ok (), w') ∧
        Appends (Map.interface Nat Nat) .constant 1 0 (withTwo .constant (start ())) w') ∧
      (∃ u, Table.ofList Hashing.constant.map mixedItems false = .ok u ∧
        u.items.toList = [(7, 71), (9, 90), (5, 50)] ∧ u.items.toList ≠ mixedItems) ∧
      ∃ u, (Table.extend Hashing.constant.set [5, 3, 9, 3] true).step (collided.table 0) =
          (.ok (), u) ∧
        u.items.toList = [5, 9, 3] := by
  have hconstant : Hashing.constant.Lawful := Hashing.lawful_ofHasher _
  have hmap := (addsLists_of_reachable hconstant).1 withTwo_reachable
  have hset := (addsLists_of_reachable (T := Nat) hconstant).2 collided_reachable
  have hmixed : ((withTwo .constant (start ())).table 0).Accepts Hashing.constant.map mixedItems :=
    ⟨fun _ _ => rfl, by decide +kernel⟩
  refine ⟨?_, ?_, ?_, ?_, ?_⟩
  · obtain ⟨u, hstep, hu⟩ := hmap.extend 0 mixedItems hmixed false
    exact ⟨u, hstep, hu.items_eq.trans (by decide +kernel)⟩
  · obtain ⟨u, hstep, hu⟩ := hmap.insertEach 0 mixedItems hmixed
    exact ⟨u, hstep, hu.items_eq.trans (by decide +kernel)⟩
  · exact hmap.append _ 1 0 Nat.one_ne_zero ⟨fun _ _ => rfl, by decide +kernel⟩
  · -- the items have a key twice, so that a new map is not made of all of them
    obtain ⟨u, hbuilt, hu, hiff⟩ := hmap.ofList 1 mixedItems (by decide +kernel)
      ⟨fun _ _ => rfl, by decide +kernel⟩ false
    exact ⟨u, hbuilt, hu.items_eq.trans (by decide +kernel), mt hiff.mp (by decide +kernel)⟩
  · obtain ⟨u, hstep, hu⟩ := hset.extend 0 [5, 3, 9, 3] ⟨fun _ _ => rfl, by decide +kernel⟩ true
    exact ⟨u, hstep, hu.items_eq.trans (by decide +kernel)⟩

end World

end OrderedHash
