import OrderedHash.Proofs.Runs.Placement
import OrderedHash.Proofs.Runs.Rearranging
import OrderedHash.Proofs.Table.Restoring

namespace OrderedHash

/-!
# Containers of a run restored after a removal

What was taken out of a container can be put back by the opposite operation: the end that was
split off by appending it, a range that was drained by splicing it in, an item that was moved
by moving it back, and a single item by inserting it before the one that came after it. Then the
items are those of before, every key is found where it was, and the container was consistent at
every moment (`World.restorations_of_reachable`).
-/

variable {K V T σ α : Type}

/-- Tables are consistent with their items, and it does not matter by which index. -/
theorem Table.Consistent.find_eq {κ : Keying K V} {t u : Table V} (h : t.Consistent κ)
    (hu : u.Consistent κ) (hitems : u.items = t.items) (k : K) : u.find κ k = t.find κ k := by
  refine Option.ext fun p => ?_
  rw [h.find, hu.find, hitems]

namespace Table

/-- A table has the items that another one has, and every key is found where it is in that. -/
structure Restores (κ : Keying K V) (t u : Table V) : Prop where
  items_eq : u.items = t.items
  find_eq : ∀ k, u.find κ k = t.find κ k
  consistent : u.Consistent κ

/-- What is taken out of a table can be put back. A single item is put back by an action that
    answers `answer` of its position. -/
structure Restorations (κ : Keying K V) (putBack : Nat → V → Action (Table V) α)
    (answer : Nat → α) (t : Table V) : Prop where
  splitOff_append : ∀ (remnant : Remnant V), ∀ pos ≤ t.size,
    (∀ v ∈ t.items.toList.drop pos, κ.refusal (κ.key v) = none) →
    ∃ tail mid u left, (splitOff κ pos).step t = (.ok tail, mid) ∧
      (append κ remnant .other).step (mid, tail) = (.ok (), (u, left)) ∧
      mid.Consistent κ ∧ tail.Consistent κ ∧ Restores κ t u ∧ left.items = #[] ∧ left.Consistent κ
  drain_splice : ∀ first last, first ≤ last → last ≤ t.size →
    (∀ v ∈ t.itemsIn first last, κ.refusal (κ.key v) = none) →
    ∃ taken mid u, (drain κ first last).step t = (.ok taken, mid) ∧
      (splice κ first first taken).step mid = (.ok [], u) ∧ mid.Consistent κ ∧ Restores κ t u
  moveIndex_moveIndex : ∀ source target, source < t.size → target < t.size →
    ∃ mid u, (moveIndex κ source target).step t = (.ok (), mid) ∧
      (moveIndex κ target source).step mid = (.ok (), u) ∧ mid.Consistent κ ∧ Restores κ t u
  takeAt_putBack : ∀ pos v, t.items[pos]? = some v → κ.refusal (κ.key v) = none →
    ∃ mid u, (takeAt κ .shift pos).step t = (.ok (some v), mid) ∧
      (putBack pos v).step mid = (.ok (answer pos), u) ∧ mid.Consistent κ ∧ Restores κ t u

variable {κ : Keying K V} {t u : Table V}

namespace Coherent

theorem restores (h : t.Coherent κ) (hκ : κ.Lawful) (hu : u.Consistent κ)
    (hitems : u.items.toList = t.items.toList) : Restores κ t u where
  items_eq := Array.toList_inj.mp hitems
  find_eq := (h.consistent hκ).find_eq hu (Array.toList_inj.mp hitems)
  consistent := hu

/-- The end of a table is split off, and appended again. -/
theorem restores_splitOff (h : t.Coherent κ) (hκ : κ.Lawful) (hr : κ.Refreshes) {pos : Nat}
    (hpos : pos ≤ t.size)
    (haccepted : ∀ v ∈ t.items.toList.drop pos, κ.refusal (κ.key v) = none)
    (remnant : Remnant V) :
    ∃ tail mid u left, (splitOff κ pos).step t = (.ok tail, mid) ∧
      (append κ remnant .other).step (mid, tail) = (.ok (), (u, left)) ∧
      mid.Consistent κ ∧ tail.Consistent κ ∧ Restores κ t u ∧ left.items = #[] ∧
      left.Consistent κ := by
  have htail := h.splitPart pos t.index.loadFactor
  obtain ⟨u, hextend, hu, hitems⟩ := h.step_extend_back hκ hr hpos haccepted true
  rw [← toList_extract] at hextend
  refine ⟨_, _, u, _, step_splitOff hpos, ?_, (h.removeRange hpos le_rfl).consistent hκ,
    htail.consistent hκ, h.restores hκ (hu.consistent hκ) hitems, rfl, htail.clear.consistent hκ⟩
  refine step_append_of_extend ?_ remnant
  exact hextend

/-- A range is drained, and spliced in again. -/
theorem restores_drain (h : t.Coherent κ) (hκ : κ.Lawful) (hr : κ.Refreshes) {first last : Nat}
    (hle : first ≤ last) (hlast : last ≤ t.size)
    (haccepted : ∀ v ∈ t.itemsIn first last, κ.refusal (κ.key v) = none) :
    ∃ taken mid u, (drain κ first last).step t = (.ok taken, mid) ∧
      (splice κ first first taken).step mid = (.ok [], u) ∧ mid.Consistent κ ∧
      Restores κ t u := by
  obtain ⟨u, hsplice, hu, hitems⟩ := h.step_splice_back hκ hr hle hlast haccepted
  exact ⟨_, _, u, step_drain hle hlast, hsplice, (h.removeRange hle hlast).consistent hκ,
    h.restores hκ (hu.consistent hκ) hitems⟩

/-- An item is moved, and moved back. -/
theorem restores_moveIndex (h : t.Coherent κ) (hκ : κ.Lawful) {source target : Nat}
    (hs : source < t.size) (ht : target < t.size) :
    ∃ mid u, (Table.moveIndex κ source target).step t = (.ok (), mid) ∧
      (Table.moveIndex κ target source).step mid = (.ok (), u) ∧ mid.Consistent κ ∧
      Restores κ t u := by
  have hv := Array.getElem?_eq_getElem hs
  obtain ⟨mid, hfirst, hcoherent, hitems⟩ := step_moveIndex_toList (κ := κ) hs ht hv
  have hsize := (of_step_moveIndex hfirst).1
  -- the item is at its target, from where it can be moved back
  have hmoved : mid.items[target]? = some t.items[source] := by
    have hlength : target ≤ (t.items.toList.eraseIdx source).length := by
      rw [List.length_eraseIdx_of_lt hs]
      exact Nat.le_sub_one_of_lt ht
    rw [← Array.getElem?_toList, hitems, List.getElem?_insertIdx_self, if_pos hlength]
  obtain ⟨u, hsecond, hcoherent', hback⟩ :=
    step_moveIndex_toList (κ := κ) (hsize.symm ▸ ht) (hsize.symm ▸ hs) hmoved
  -- what was inserted there is erased again, and inserted where it was erased at first
  have hall : u.items.toList = t.items.toList := by
    rw [hback, hitems, List.eraseIdx_insertIdx_self]
    exact List.insertIdx_eraseIdx_getElem hs
  exact ⟨mid, u, hfirst, hsecond, (hcoherent h).consistent hκ,
    h.restores hκ ((hcoherent' (hcoherent h)).consistent hκ) hall⟩

/-- An item is taken out, and inserted before the one that came after it. -/
theorem restores_takeAt (h : t.Coherent κ) (hκ : κ.Lawful) {answer : Nat → Option V → α}
    {putBack : Nat → V → Action (Table V) α} {pos : Nat} {v : V}
    (hput : ∀ u : Table V, u.Coherent κ → InsertsBefore κ pos v answer (putBack pos v) u)
    (hv : t.items[pos]? = some v) (haccepted : κ.refusal (κ.key v) = none) :
    ∃ mid u, (Table.takeAt κ .shift pos).step t = (.ok (some v), mid) ∧
      (putBack pos v).step mid = (.ok (answer pos none), u) ∧ mid.Consistent κ ∧
      Restores κ t u := by
  obtain ⟨hpos, rfl⟩ := Array.getElem?_eq_some_iff.mp hv
  have hmid := h.removeAt .shift hpos
  have hremoved := h.removes hκ .shift hpos
  have hle : pos ≤ (t.removeAt κ .shift pos).size :=
    Nat.le_of_lt_succ (lt_of_lt_of_eq hpos hremoved.size_eq.symm)
  have hroom : (t.removeAt κ .shift pos).size + 1 < 2 ^ 48 - 2 := hremoved.size_eq ▸ h.small
  obtain ⟨u, hstep, hu⟩ :=
    (hput _ hmid).absent haccepted hle (hremoved.lacks _ hv) hroom
  have hall : u.items.toList = t.items.toList := by
    rw [hu.items_eq, hremoved.items_eq]
    exact List.insertIdx_eraseIdx_getElem hpos
  exact ⟨_, u, step_takeAt .shift hv, hstep, hremoved.consistent, h.restores hκ hu.consistent hall⟩

theorem restorations (h : t.Coherent κ) (hκ : κ.Lawful) (hr : κ.Refreshes)
    {answer : Nat → Option V → α} {putBack : Nat → V → Action (Table V) α}
    (hput : ∀ pos v, ∀ u : Table V, u.Coherent κ →
      InsertsBefore κ pos v answer (putBack pos v) u) :
    Restorations κ putBack (answer · none) t where
  splitOff_append remnant _ hpos haccepted :=
    h.restores_splitOff hκ hr hpos haccepted remnant
  drain_splice _ _ hle hlast haccepted := h.restores_drain hκ hr hle hlast haccepted
  moveIndex_moveIndex _ _ hs ht := h.restores_moveIndex hκ hs ht
  takeAt_putBack pos v hv haccepted := h.restores_takeAt hκ (hput pos v) hv haccepted

end Coherent

end Table

namespace World

variable {κ : Hashing K}

/-- After every run on maps or on sets what is taken out of a container can be put back. -/
theorem restorations_of_reachable (hκ : κ.Lawful) :
    (∀ {w : World K (K × T) σ}, Reachable (Map.interface K T) κ w → ∀ i,
      Table.Restorations κ.map (fun pos item => Map.insertBefore κ pos item.1 item.2)
        (fun pos => (pos, none)) (w.table i)) ∧
    ∀ {w : World K K σ}, Reachable (Set.interface K) κ w → ∀ i,
      Table.Restorations κ.set (Set.insertBefore κ) (fun pos => (pos, true)) (w.table i) := by
  constructor
  · intro w h i
    have hr := Keying.refreshes_map (T := T) κ
    have hput : ∀ pos v, ∀ u : Map K T, u.Coherent κ.map →
        Table.InsertsBefore κ.map pos v (fun pos old => (pos, old.map Prod.snd))
          (Map.insertBefore κ pos v.1 v.2) u := fun _ _ _ hu => hu.insertsBefore hκ hr _
    exact (h.coherent_map hκ i).restorations hκ hr hput
  · intro w h i
    have hr := Keying.refreshes_set κ
    have hput : ∀ pos k, ∀ u : Set K, u.Coherent κ.set →
        Table.InsertsBefore κ.set pos k (fun pos old => (pos, old.isNone))
          (Set.insertBefore κ pos k) u := fun _ _ _ hu => hu.insertsBefore hκ hr _
    exact (h.coherent_set hκ i).restorations hκ hr hput

/-- A map is split before its last item, three of five keys are drained, and a key is taken from
    the front of them. -/
theorem restorations_of_reachable_gathered :
    (∃ tail mid u left, (Table.splitOff Hashing.constant.map 1).step
          ((withTwo .constant (start ())).table 0) = (.ok tail, mid) ∧
        (Table.append Hashing.constant.map (Map.remnant id id) .other).step (mid, tail) =
          (.ok (), (u, left)) ∧
        u.items = #[(5, 1), (9, 2)] ∧ left.items = #[]) ∧
      (∃ taken mid u, (Table.drain Hashing.constant.set 1 4).step (gathered.table 0) =
          (.ok taken, mid) ∧
        (Table.splice Hashing.constant.set 1 1 taken).step mid = (.ok [], u) ∧
        u.items = #[5, 9, 4, 7, 6] ∧ u.find Hashing.constant.set 7 = some 3) ∧
      (∃ mid u, (Table.moveIndex Hashing.constant.set 4 0).step (gathered.table 0) =
          (.ok (), mid) ∧
        (Table.moveIndex Hashing.constant.set 0 4).step mid = (.ok (), u) ∧
        u.items = #[5, 9, 4, 7, 6]) ∧
      ∃ mid u, (Table.takeAt Hashing.constant.set .shift 0).step (gathered.table 0) =
          (.ok (some 5), mid) ∧
        (Set.insertBefore Hashing.constant 0 5).step mid = (.ok (0, true), u) ∧
        u.items = #[5, 9, 4, 7, 6] := by
  have hconstant : Hashing.constant.Lawful := Hashing.lawful_ofHasher _
  have hmap := (restorations_of_reachable hconstant).1 withTwo_reachable 0
  have hset := (restorations_of_reachable (T := Nat) hconstant).2 gathered_reachable 0
  have hkeys : (gathered.table 0).items = #[5, 9, 4, 7, 6] := by decide +kernel
  refine ⟨?_, ?_, ?_, ?_⟩
  · obtain ⟨tail, mid, u, left, hsplit, hstep, -, -, hu, hleft, -⟩ :=
      hmap.splitOff_append _ 1 (by decide +kernel) fun _ _ => rfl
    exact ⟨tail, mid, u, left, hsplit, hstep, hu.items_eq.trans (by decide +kernel), hleft⟩
  · obtain ⟨taken, mid, u, hdrain, hstep, -, hu⟩ :=
      hset.drain_splice 1 4 (by decide) (by decide +kernel) fun _ _ => rfl
    exact ⟨taken, mid, u, hdrain, hstep, hu.items_eq.trans hkeys,
      (hu.find_eq 7).trans (by decide +kernel)⟩
  · obtain ⟨mid, u, hfirst, hsecond, -, hu⟩ :=
      hset.moveIndex_moveIndex 4 0 (by decide +kernel) (by decide +kernel)
    exact ⟨mid, u, hfirst, hsecond, hu.items_eq.trans hkeys⟩
  · obtain ⟨mid, u, htake, hstep, -, hu⟩ := hset.takeAt_putBack 0 5 (by decide +kernel) rfl
    exact ⟨mid, u, htake, hstep, hu.items_eq.trans hkeys⟩

end World

end OrderedHash
