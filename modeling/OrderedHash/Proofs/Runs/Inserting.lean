import OrderedHash.Proofs.Runs.Extending
import OrderedHash.Proofs.Runs.Placement
import OrderedHash.Proofs.Runs.Protocol
import OrderedHash.Proofs.Table.Inserting

namespace OrderedHash

/-!
# Single items inserted in containers of a run

An item can be inserted by looking its key up first, by building it in the store before its key
is looked up, through a handle on its key, or as a list of one item. All of these ways agree on
the position of the key, on whether it was new, and on the items that they leave
(`World.insertions_of_reachable`). They fall in two groups only by what becomes of a map that
has the key: it keeps the value that it has (`Keying.adopt`) or takes the one given
(`Keying.absorb`). A set keeps the stored key in all cases but one, in which the key given is
put in its place.
-/

variable {K V T σ α : Type}

namespace Table

/-- A table has the given items, and a key is found at a position. -/
structure Settles (κ : Keying K V) (items : List V) (k : K) (pos : Nat) (u : Table V) : Prop where
  items_eq : u.items.toList = items
  find_eq : u.find κ k = some pos
  consistent : u.Consistent κ

/-- An action answers, and leaves a table with the given items where a key is at a position. -/
def Inserts (κ : Keying K V) (items : List V) (k : K) (pos : Nat) (run : Action (Table V) α)
    (answer : α) (t : Table V) : Prop :=
  ∃ u, run.step t = (.ok answer, u) ∧ Settles κ items k pos u

variable {κ : Keying K V} {t u : Table V} {v : V}

/-- The hash function does not fail on a key that can be added. -/
theorem Accepts.key (h : t.Accepts κ [v]) : κ.refusal (κ.key v) = none :=
  h.keys v (List.mem_singleton_self v)

/-- There is a position for an item that is adopted. -/
theorem Accepts.small_adopt (h : t.Accepts κ [v]) (hκ : κ.Lawful) :
    (κ.adopt t.items.toList v).length < Node.movingPosition := by
  have hroom := h.small id
  rwa [List.map_id, ← Keying.foldl_adopt hκ] at hroom

/-- There is a position for an item that is absorbed. -/
theorem Accepts.small_absorb (h : t.Accepts κ [v]) (hκ : κ.Lawful) (hr : κ.Refreshes) :
    (κ.absorb t.items.toList v).length < Node.movingPosition := by
  rw [Keying.length_absorb hr]
  exact h.small_adopt hκ

namespace Coherent

/-- A coherent table that adopted an item has its key where the table says. -/
theorem settles_adopt (h : t.Coherent κ) (hκ : κ.Lawful)
    (hu : u.Coherent κ ∧ u.items.toList = κ.adopt t.items.toList v) :
    Settles κ (κ.adopt t.items.toList v) (κ.key v) (t.spot κ (κ.key v)) u :=
  ⟨hu.2, h.find_spot hκ hu.1 (congrArg _ hu.2), hu.1.consistent hκ⟩

/-- A coherent table that absorbed an item has its key where the table says. -/
theorem settles_absorb (h : t.Coherent κ) (hκ : κ.Lawful) (hr : κ.Refreshes)
    (hu : u.Coherent κ ∧ u.items.toList = κ.absorb t.items.toList v) :
    Settles κ (κ.absorb t.items.toList v) (κ.key v) (t.spot κ (κ.key v)) u :=
  ⟨hu.2, h.find_spot hκ hu.1 ((congrArg _ hu.2).trans (Keying.keys_absorb hr _ v)),
    hu.1.consistent hκ⟩

/-- A list of one item is absorbed as the item is. -/
theorem inserts_extend (h : t.Coherent κ) (hκ : κ.Lawful) (hr : κ.Refreshes)
    (hv : t.Accepts κ [v]) (countKnown : Bool) :
    Inserts κ (κ.absorb t.items.toList v) (κ.key v) (t.spot κ (κ.key v))
      (extend κ [v] countKnown) () t := by
  obtain ⟨u, hstep, hu⟩ := h.step_extend hκ hr hv.keys (hv.small_absorb hκ hr) countKnown
  exact ⟨u, hstep, h.settles_absorb hκ hr hu⟩

/-! ### Handles on a key -/

/-- An item is added through a handle on its key unless the key is present. -/
theorem entry_orInsertWith (h : t.Coherent κ) (hκ : κ.Lawful) (hv : t.Accepts κ [v]) {f : K → V}
    (hf : f (κ.key v) = v) : ∃ e item u, Entry.ofKey κ t (κ.key v) = .ok e ∧
      e.isVacant = (t.find κ (κ.key v)).isNone ∧
      (∀ {σ : Type} (s : σ), (Entry.orInsertWith κ fun k => pure (f k)).step ((e, t), s) =
        (.ok item, ((.occupied (t.spot κ (κ.key v)), u), s))) ∧
      u.items[t.spot κ (κ.key v)]? = some item ∧
      u.Coherent κ ∧ u.items.toList = κ.adopt t.items.toList v := by
  have hsmall := hv.small_adopt hκ
  rw [spot]
  cases hfind : t.find κ (κ.key v) with
  | some pos =>
    obtain ⟨item, hitem, -⟩ := (h.find_eq_some hκ _ _).mp hfind
    exact ⟨_, item, t, Entry.ofKey_of_find hv.key hfind, rfl,
      fun s => Entry.step_orInsertWith_occupied _ hitem, hitem, h,
      (h.adopt_of_find hκ hfind).symm⟩
  | none =>
    rw [h.adopt_of_absent hκ hfind, List.length_append, Array.length_toList] at hsmall
    rw [h.adopt_of_absent hκ hfind]
    have hadded := h.insertAt_size hκ hfind hsmall
    refine ⟨_, v, _, Entry.ofKey_of_absent hv.key hfind, rfl,
      fun s => Entry.step_orInsertWith_vacant _ (by rw [hf]; rfl), ?_, hadded⟩
    rw [Option.getD_none, ← Array.getElem?_toList, hadded.2]
    exact List.getElem?_concat_length

/-- An item is added or refreshed through a handle on its key. -/
theorem entry_insertEntry (h : t.Coherent κ) (hκ : κ.Lawful) (hr : κ.Refreshes)
    (hv : t.Accepts κ [v]) {f : K → V} (hf : f (κ.key v) = v)
    (hrefresh : ∀ stored, κ.refresh stored (f (κ.key stored)) = κ.refresh stored v) :
    ∃ e u, Entry.ofKey κ t (κ.key v) = .ok e ∧ e.isVacant = (t.find κ (κ.key v)).isNone ∧
      (Entry.insertEntry κ f).step (e, t) = (.ok (), (.occupied (t.spot κ (κ.key v)), u)) ∧
      u.Coherent κ ∧ u.items.toList = κ.absorb t.items.toList v := by
  have hsmall := hv.small_absorb hκ hr
  rw [spot]
  cases hfind : t.find κ (κ.key v) with
  -- the stored item is refreshed, as an absorbed one would refresh it
  | some pos =>
    rw [h.absorb_of_find hκ hfind]
    refine ⟨_, t.refreshAt κ pos v, Entry.ofKey_of_find hv.key hfind, rfl, ?_,
      h.refreshAt hr.key pos v, rfl⟩
    unfold Entry.insertEntry
    rw [Action.step_get_bind]
    simp only [hrefresh]
    rfl
  -- the new item comes last, as an absorbed one would
  | none =>
    rw [h.absorb_of_absent hκ hfind, List.length_append, Array.length_toList] at hsmall
    rw [h.absorb_of_absent hκ hfind]
    have hadded := h.insertAt_size hκ hfind hsmall
    refine ⟨_, _, Entry.ofKey_of_absent hv.key hfind, rfl, ?_, hadded⟩
    unfold Entry.insertEntry
    rw [Action.step_get_bind]
    dsimp only
    rw [hf]
    rfl

end Coherent

end Table

/-! ### Maps -/

namespace Map

/-- A key is inserted into a map with a value. The key is at `pos` afterwards, and `isNew` tells
    whether it was absent. -/
structure Insertions (κ : Hashing K) (k : K) (x : T) (pos : Nat) (isNew : Bool) (m : Map K T) :
    Prop where
  insert : Table.Inserts κ.map (κ.map.adopt m.items.toList (k, x)) k pos
    (insert κ k x) (pos, isNew) m
  emplace : Table.Inserts κ.map (κ.map.adopt m.items.toList (k, x)) k pos
    (emplace κ k x) (pos, isNew) m
  /-- The handle is on the position afterwards, and answers the item there. -/
  orInsert : ∃ e item u, Entry.ofKey κ.map m k = .ok e ∧ e.isVacant = isNew ∧
    (∀ {σ : Type} (s : σ), (Entry.orInsertWith κ.map fun k => pure (k, x)).step ((e, m), s) =
      (.ok item, ((.occupied pos, u), s))) ∧ u.items[pos]? = some item ∧
    Table.Settles κ.map (κ.map.adopt m.items.toList (k, x)) k pos u
  insertOrAssign : Table.Inserts κ.map (κ.map.absorb m.items.toList (k, x)) k pos
    (insertOrAssign κ k x) (pos, isNew) m
  insertFull : Table.Inserts κ.map (κ.map.absorb m.items.toList (k, x)) k pos
    (insertFull κ k x) (pos, m.items[pos]?.map Prod.snd) m
  insertEntry : ∃ e u, Entry.ofKey κ.map m k = .ok e ∧ e.isVacant = isNew ∧
    (Entry.insertEntry κ.map fun k => (k, x)).step (e, m) = (.ok (), (.occupied pos, u)) ∧
    Table.Settles κ.map (κ.map.absorb m.items.toList (k, x)) k pos u
  /-- The value of the key, which is added with any value if it is absent, is changed. -/
  valueOrInsert_assign : ∀ d, Table.Inserts κ.map (κ.map.absorb m.items.toList (k, x)) k pos
    (do let _ ← valueOrInsert κ k d; assign κ k x) () m
  extend : ∀ countKnown, Table.Inserts κ.map (κ.map.absorb m.items.toList (k, x)) k pos
    (Table.extend κ.map [(k, x)] countKnown) () m
  insertBefore : isNew → Table.Inserts κ.map (κ.map.absorb m.items.toList (k, x)) k pos
    (insertBefore κ m.size k x) (pos, none) m

variable {κ : Hashing K} {m : Map K T} {k : K} {x : T} {pos : Nat}

/-- A value is assigned to a key that is stored. -/
theorem step_assign_of_find (haccepted : κ.refusal k = none) (hfind : m.find κ.map k = some pos) :
    (assign κ k x).step m = (.ok (), m.refreshAt κ.map pos (k, x)) := by
  have hlookup : m.indexOf? κ k = .ok (some pos) :=
    (Table.lookup_of_none haccepted).trans (congrArg _ hfind)
  unfold assign
  rw [Action.step_get_bind, hlookup]
  rfl

/-- The value of a key is answered after the key was inserted or found. -/
theorem step_valueOrInsert {d : T} {isNew : Bool} {u : Map K T} {item : K × T}
    (hinsert : (insert κ k d).step m = (.ok (pos, isNew), u)) (hitem : u.items[pos]? = some item) :
    (valueOrInsert κ k d).step m = (.ok item.2, u) := by
  unfold valueOrInsert
  rw [Action.step_bind_of_ok hinsert]
  dsimp only
  rw [Action.step_get_bind, Table.itemAt_of_getElem? hitem]
  rfl

/-- A key whose value is changed after it was added with any value is inserted with the last
    value. -/
theorem inserts_valueOrInsert_assign (h : m.Coherent κ.map) (hκ : κ.Lawful)
    (hv : m.Accepts κ.map [(k, x)]) (d : T) :
    Table.Inserts κ.map (κ.map.absorb m.items.toList (k, x)) k (m.spot κ.map k)
      (do let _ ← valueOrInsert κ k d; assign κ k x) () m := by
  have haccepted : κ.refusal k = none := hv.key
  have halike : κ.map.alike (k, d) (k, x) := hκ.refl k
  -- the default has the key of the value, so that there is room for either
  have hsmall := Keying.length_adopt_congr hκ m.items.toList halike ▸ hv.small_adopt hκ
  obtain ⟨u, hinsert, hu, hitems⟩ := h.step_insert (v := (k, d)) hκ haccepted hsmall
  have hfind : u.find κ.map k = some (m.spot κ.map k) :=
    h.find_spot (v := (k, d)) hκ hu (congrArg _ hitems)
  obtain ⟨item, hitem, -⟩ := (hu.find_eq_some hκ k _).mp hfind
  have hstep : (do let _ ← valueOrInsert κ k d; assign κ k x : Action (Map K T) Unit).step m =
      (.ok (), u.refreshAt κ.map (m.spot κ.map k) (k, x)) := by
    -- the value is assigned to the item that was inserted or found before
    rw [Action.step_bind_of_ok (step_valueOrInsert hinsert hitem),
      step_assign_of_find haccepted hfind]
  have hassigned : (u.refreshAt κ.map (m.spot κ.map k) (k, x)).items.toList =
      κ.map.absorb m.items.toList (k, x) := by
    rw [← hu.absorb_of_find (v := (k, x)) hκ hfind, hitems, Keying.absorb_adopt hκ _ halike rfl]
  have hr := Keying.refreshes_map (T := T) κ
  exact ⟨_, hstep, h.settles_absorb (v := (k, x)) hκ hr ⟨hu.refreshAt hr.key _ _, hassigned⟩⟩

/-- The position of a key and its former value are answered. -/
theorem step_insertFull (h : m.Coherent κ.map) (hκ : κ.Lawful) (hv : m.Accepts κ.map [(k, x)]) :
    ∃ u, (insertFull κ k x).step m =
        (.ok (m.spot κ.map k, m.items[m.spot κ.map k]?.map Prod.snd), u) ∧
      Table.Settles κ.map (κ.map.absorb m.items.toList (k, x)) k (m.spot κ.map k) u := by
  have hr := Keying.refreshes_map (T := T) κ
  obtain ⟨u, hstep, hu⟩ := h.step_put (v := (k, x)) hκ hr hv.key (hv.small_absorb hκ hr)
  refine ⟨u, ?_, h.settles_absorb hκ hr hu⟩
  unfold insertFull
  rw [Action.step_bind_of_ok hstep]
  rfl

/-- A key that is absent is inserted before the end of the map. -/
theorem inserts_insertBefore (h : m.Coherent κ.map) (hκ : κ.Lawful)
    (hv : m.Accepts κ.map [(k, x)]) (hfind : m.find κ.map k = none) :
    Table.Inserts κ.map (κ.map.absorb m.items.toList (k, x)) k (m.spot κ.map k)
      (insertBefore κ m.size k x) (m.spot κ.map k, none) m := by
  have hr := Keying.refreshes_map (T := T) κ
  have hsmall := hv.small_absorb hκ hr
  have habsorb := h.absorb_of_absent (v := (k, x)) hκ hfind
  rw [habsorb, List.length_append, Array.length_toList] at hsmall
  have hadded := h.insertAt_size (v := (k, x)) hκ hfind hsmall
  rw [← habsorb] at hadded
  refine ⟨_, ?_, h.settles_absorb hκ hr hadded⟩
  have hstep := Table.step_insertBefore_of_absent (v := (k, x)) hv.key (Nat.le_refl m.size) hfind
  unfold insertBefore
  rw [Action.step_bind_of_ok hstep, Table.spot, hfind]
  rfl

/-- A key is inserted into a coherent map. -/
theorem insertions_of_coherent (h : m.Coherent κ.map) (hκ : κ.Lawful)
    (hv : m.Accepts κ.map [(k, x)]) :
    Insertions κ k x (m.spot κ.map k) (m.find κ.map k).isNone m where
  insert := by
    obtain ⟨u, hstep, hu⟩ := h.step_insert (v := (k, x)) hκ hv.key (hv.small_adopt hκ)
    exact ⟨u, hstep, h.settles_adopt hκ hu⟩
  emplace := by
    obtain ⟨u, hstep, hu⟩ := h.step_emplace (v := (k, x)) hκ hv.key (hv.small_adopt hκ)
    exact ⟨u, hstep, h.settles_adopt hκ hu⟩
  orInsert := by
    obtain ⟨e, item, u, he, hnew, hstep, hitem, hu⟩ :=
      h.entry_orInsertWith (v := (k, x)) (f := fun k => (k, x)) hκ hv rfl
    exact ⟨e, item, u, he, hnew, hstep, hitem, h.settles_adopt hκ hu⟩
  insertOrAssign := by
    obtain ⟨u, hstep, hu⟩ := step_insertFull h hκ hv
    refine ⟨u, ?_, hu⟩
    unfold Map.insertOrAssign
    rw [Action.step_bind_of_ok hstep, ← h.isNone_spot hκ k, ← Option.isNone_map (f := Prod.snd)]
    rfl
  insertFull := step_insertFull h hκ hv
  insertEntry := by
    have hr := Keying.refreshes_map (T := T) κ
    obtain ⟨e, u, he, hnew, hstep, hu⟩ :=
      h.entry_insertEntry (v := (k, x)) (f := fun k => (k, x)) hκ hr hv rfl fun _ => rfl
    exact ⟨e, u, he, hnew, hstep, h.settles_absorb hκ hr hu⟩
  valueOrInsert_assign := inserts_valueOrInsert_assign h hκ hv
  extend := h.inserts_extend hκ (Keying.refreshes_map κ) hv
  insertBefore hnew := inserts_insertBefore h hκ hv (Option.isNone_iff_eq_none.mp hnew)

end Map

/-! ### Sets -/

/-- A set that absorbs a key keeps the stored keys. -/
theorem Keying.absorb_set (κ : Hashing K) (ks : List K) (k : K) :
    κ.set.absorb ks k = κ.set.adopt ks k := by
  have hkept : (ks.map fun w => if κ.set.alike w k then κ.set.refresh w k else w) = ks :=
    (List.map_congr_left fun w _ => ite_self w).trans (List.map_id' ks)
  rw [absorb, adopt, hkept]

namespace Set

/-- A key is inserted into a set. It is at `pos` afterwards, and `isNew` tells whether it was
    absent. -/
structure Insertions (κ : Hashing K) (k : K) (pos : Nat) (isNew : Bool) (s : Set K) : Prop where
  insert : Table.Inserts κ.set (κ.set.adopt s.items.toList k) k pos (insert κ k) (pos, isNew) s
  emplace : Table.Inserts κ.set (κ.set.adopt s.items.toList k) k pos (emplace κ k) (pos, isNew) s
  insertEntry : ∃ e u, Entry.ofKey κ.set s k = .ok e ∧ e.isVacant = isNew ∧
    (Entry.insertEntry κ.set id).step (e, s) = (.ok (), (.occupied pos, u)) ∧
    Table.Settles κ.set (κ.set.adopt s.items.toList k) k pos u
  extend : ∀ countKnown, Table.Inserts κ.set (κ.set.adopt s.items.toList k) k pos
    (Table.extend κ.set [k] countKnown) () s
  /-- The key given takes the place of the stored one, which is answered. -/
  replace : Table.Inserts κ.set ((κ.set.adopt s.items.toList k).set pos k) k pos
    (replace κ k) s.items[pos]? s

variable {κ : Hashing K} {s : Set K} {k : K}

/-- A key is put in the place of the stored one, or at the end. -/
theorem inserts_replace (h : s.Coherent κ.set) (hκ : κ.Lawful) (hk : s.Accepts κ.set [k]) :
    Table.Inserts κ.set ((κ.set.adopt s.items.toList k).set (s.spot κ.set k) k) k
      (s.spot κ.set k) (replace κ k) s.items[s.spot κ.set k]? s := by
  have haccepted : κ.refusal k = none := hk.key
  have hsmall := hk.small_adopt hκ
  rw [Table.spot]
  cases hfind : s.find κ.set k with
  | some pos =>
    obtain ⟨stored, hstored, hsame⟩ := (h.find_eq_some hκ k pos).mp hfind
    have hpos := h.lt_of_find hκ hfind
    -- the new key equals the one it is put in the place of
    have hu : (s.setItem pos k).Coherent κ.set := h.setItem hκ fun w hw => by
      obtain rfl : stored = w := Option.some.inj (hstored.symm.trans hw)
      exact hsame
    refine ⟨s.setItem pos k, Table.step_onKey_of_find haccepted hfind, ?_, ?_, hu.consistent hκ⟩
    · rw [h.adopt_of_find (v := k) hκ hfind]
      exact Array.toList_setIfInBounds
    · refine (hu.find_eq_some hκ k pos).mpr ⟨k, ?_, hκ.refl k⟩
      exact Array.getElem?_setIfInBounds_self_of_lt hpos
  | none =>
    have hadopt := h.adopt_of_absent (v := k) hκ hfind
    have hlength : s.items.toList.length = s.size := Array.length_toList
    have hend : s.items[s.size]? = none := Array.getElem?_eq_none (Nat.le_refl s.items.size)
    -- to set the last key to itself changes nothing
    have hsame : (κ.set.adopt s.items.toList k).set s.size k = κ.set.adopt s.items.toList k := by
      rw [hadopt, ← hlength, List.set_append_right _ _ le_rfl, Nat.sub_self]
      rfl
    rw [hadopt, List.length_append, hlength] at hsmall
    have hadded := h.insertAt_size (v := k) hκ hfind hsmall
    rw [← hadopt] at hadded
    have hsettles := h.settles_adopt hκ hadded
    rw [Table.spot, show s.find κ.set (κ.set.key k) = none from hfind] at hsettles
    rw [Option.getD_none, hend, hsame]
    exact ⟨_, Table.step_onKey_of_absent haccepted hfind, hsettles⟩

/-- A key is inserted into a coherent set. -/
theorem insertions_of_coherent (h : s.Coherent κ.set) (hκ : κ.Lawful)
    (hk : s.Accepts κ.set [k]) :
    Insertions κ k (s.spot κ.set k) (s.find κ.set k).isNone s where
  insert := by
    obtain ⟨u, hstep, hu⟩ := h.step_insert (v := k) hκ hk.key (hk.small_adopt hκ)
    exact ⟨u, hstep, h.settles_adopt hκ hu⟩
  emplace := by
    obtain ⟨u, hstep, hu⟩ := h.step_emplace (v := k) hκ hk.key (hk.small_adopt hκ)
    exact ⟨u, hstep, h.settles_adopt hκ hu⟩
  insertEntry := by
    have hr := Keying.refreshes_set κ
    obtain ⟨e, u, he, hnew, hstep, hu⟩ :=
      h.entry_insertEntry (v := k) (f := id) hκ hr hk rfl fun _ => rfl
    rw [Keying.absorb_set] at hu
    exact ⟨e, u, he, hnew, hstep, h.settles_adopt hκ hu⟩
  extend countKnown := by
    rw [← Keying.absorb_set]
    exact h.inserts_extend hκ (Keying.refreshes_set κ) hk countKnown
  replace := inserts_replace h hκ hk

end Set

namespace World

variable {κ : Hashing K}

/-- After every run on maps or on sets all ways to insert a key into a container agree, as long
    as the key is accepted and there is a position for it. -/
theorem insertions_of_reachable (hκ : κ.Lawful) :
    (∀ {w : World K (K × T) σ}, Reachable (Map.interface K T) κ w → ∀ i k x,
      (w.table i).Accepts κ.map [(k, x)] → ∃ isNew,
        (isNew = true ↔ Table.Lacks κ.map (w.table i) k) ∧
          Map.Insertions κ k x ((w.table i).spot κ.map k) isNew (w.table i)) ∧
    ∀ {w : World K K σ}, Reachable (Set.interface K) κ w → ∀ i k,
      (w.table i).Accepts κ.set [k] → ∃ isNew,
        (isNew = true ↔ Table.Lacks κ.set (w.table i) k) ∧
          Set.Insertions κ k ((w.table i).spot κ.set k) isNew (w.table i) := by
  constructor
  · intro w h i k x hv
    have hcoherent := h.coherent_map hκ i
    exact ⟨_, hcoherent.isNone_find_iff hκ k, Map.insertions_of_coherent hcoherent hκ hv⟩
  · intro w h i k hk
    have hcoherent := h.coherent_set hκ i
    exact ⟨_, hcoherent.isNone_find_iff hκ k, Set.insertions_of_coherent hcoherent hκ hk⟩

/-- A map that has the key nine keeps its value or takes a new one, and the key seven is put at
    the end of a set that does not have it. -/
theorem insertions_of_reachable_collided :
    (∃ u, (Map.emplace Hashing.constant 9 90).step ((withTwo .constant (start ())).table 0) =
          (.ok (1, false), u) ∧
        u.items.toList = [(5, 1), (9, 2)]) ∧
      (∃ u, (Map.insertOrAssign Hashing.constant 9 90).step
          ((withTwo .constant (start ())).table 0) = (.ok (1, false), u) ∧
        u.items.toList = [(5, 1), (9, 90)]) ∧
      (∃ u, (Set.emplace Hashing.constant 7).step (collided.table 0) = (.ok (2, true), u) ∧
        u.items.toList = [5, 9, 7]) ∧
      ∃ u, (Set.replace Hashing.constant 7).step (collided.table 0) = (.ok none, u) ∧
        u.items.toList = [5, 9, 7] := by
  have hconstant : Hashing.constant.Lawful := Hashing.lawful_ofHasher _
  obtain ⟨isNew, hnew, hmap⟩ := (insertions_of_reachable hconstant).1 withTwo_reachable 0 9 90
    ⟨fun _ _ => rfl, by decide +kernel⟩
  obtain ⟨isNew', hnew', hset⟩ := (insertions_of_reachable (T := Nat) hconstant).2
    collided_reachable 0 7 ⟨fun _ _ => rfl, by decide +kernel⟩
  -- nine is a key of the map, and seven is none of the set
  have hold : isNew = false := by
    refine Bool.eq_false_iff.mpr (mt hnew.mp ?_)
    unfold Table.Lacks
    decide +kernel
  have hisNew : isNew' = true := by
    refine hnew'.mpr ?_
    unfold Table.Lacks
    decide +kernel
  have hspot : ((withTwo .constant (start ())).table 0).spot Hashing.constant.map 9 = 1 := by
    decide +kernel
  have hspot' : (collided.table 0).spot Hashing.constant.set 7 = 2 := by decide +kernel
  rw [hold, hspot] at hmap
  rw [hisNew, hspot'] at hset
  refine ⟨?_, ?_, ?_, ?_⟩
  · obtain ⟨u, hstep, hu⟩ := hmap.emplace
    exact ⟨u, hstep, hu.items_eq.trans (by decide +kernel)⟩
  · obtain ⟨u, hstep, hu⟩ := hmap.insertOrAssign
    exact ⟨u, hstep, hu.items_eq.trans (by decide +kernel)⟩
  · obtain ⟨u, hstep, hu⟩ := hset.emplace
    exact ⟨u, hstep, hu.items_eq.trans (by decide +kernel)⟩
  · obtain ⟨u, hstep, hu⟩ := hset.replace
    have hend : (collided.table 0).items[2]? = none := by decide +kernel
    rw [hend] at hstep
    exact ⟨u, hstep, hu.items_eq.trans (by decide +kernel)⟩

end World

end OrderedHash
