import OrderedHash.Proofs.Runs.Permuting
import OrderedHash.Proofs.Table.Finding

namespace OrderedHash

/-!
# Single items moved and removed in containers of a run

An item is moved to another position, exchanged with another one, or removed by its position
or by its key, where either the items after it move down or the last one takes its place
(`Table.Removal.without`). The items that are left are in each case found where they are
afterwards, and the key of an item that was removed is not found any more. Where there is
nothing to remove nothing is changed (`World.rearrangements_of_reachable`).
-/

variable {K V T σ α : Type}

namespace Table

/-- The items of a table were put in another order, in which `place` tells where they went. -/
structure Reorders (κ : Keying K V) (items : List V) (place : Nat → Nat) (t u : Table V) :
    Prop where
  items_eq : u.items.toList = items
  find_eq : ∀ k, u.find κ k = (t.find κ k).map place
  consistent : u.Consistent κ

/-- The item at a position was removed from a table, and its place filled in the given way. -/
structure Removes (κ : Keying K V) (way : Removal) (pos : Nat) (t u : Table V) : Prop where
  items_eq : u.items.toList = way.without pos t.items.toList
  size_eq : u.size + 1 = t.size
  find_eq : ∀ k, u.find κ k = (t.find κ k).bind (way.place t.size pos)
  /-- The key of the item that was removed is absent. -/
  lacks : ∀ v, t.items[pos]? = some v → Lacks κ u (κ.key v)
  consistent : u.Consistent κ

/-- Items are removed by their keys. The answer is made of the item removed, if there was one. -/
structure RemovesByKey (κ : Keying K V) (way : Removal) (answer : Option V → α)
    (run : K → Action (Table V) α) (t : Table V) : Prop where
  present : ∀ k pos v, κ.refusal k = none → t.items[pos]? = some v → κ.same (κ.key v) k →
    ∃ u, (run k).step t = (.ok (answer (some v)), u) ∧ Removes κ way pos t u
  absent : ∀ k, κ.refusal k = none → Lacks κ t k → (run k).step t = (.ok (answer none), t)

/-- What moves, exchanges and removals of single items leave of a table. -/
structure Rearrangements (κ : Keying K V) (t : Table V) : Prop where
  moveIndex : ∀ source target v, t.items[source]? = some v → target < t.size →
    ∃ u, (Table.moveIndex κ source target).step t = (.ok (), u) ∧
      Reorders κ ((t.items.toList.eraseIdx source).insertIdx target v)
        (Index.movedFrom target source) t u
  swapIndices : ∀ p q v w, t.items[p]? = some v → t.items[q]? = some w →
    ∃ u, (Table.swapIndices κ p q).step t = (.ok (), u) ∧
      Reorders κ ((t.items.toList.set p w).set q v) (Index.exchanged p q) t u
  takeAt : ∀ way pos v, t.items[pos]? = some v →
    ∃ u, (Table.takeAt κ way pos).step t = (.ok (some v), u) ∧ Removes κ way pos t u
  takeAt_past_end : ∀ way pos, t.size ≤ pos → (Table.takeAt κ way pos).step t = (.ok none, t)
  takeKey : ∀ {α : Type} (way : Removal) (answer : Option V → α),
    RemovesByKey κ way answer (fun k => return answer (← Table.takeKey κ way k)) t
  pop : ∀ rest v, t.items.toList = rest ++ [v] →
    ∃ u, (Table.pop κ).step t = (.ok (some v), u) ∧ u.items.toList = rest ∧
      Removes κ .swap rest.length t u
  pop_empty : t.items = #[] → (Table.pop κ).step t = (.ok none, t)

variable {κ : Keying K V} {t u : Table V} {pos : Nat} {v w : V}

namespace Coherent

theorem moves (h : t.Coherent κ) (hκ : κ.Lawful) {source target : Nat}
    (hv : t.items[source]? = some v) (htarget : target < t.size) :
    ∃ u, (Table.moveIndex κ source target).step t = (.ok (), u) ∧
      Reorders κ ((t.items.toList.eraseIdx source).insertIdx target v)
        (Index.movedFrom target source) t u := by
  have hsource : source < t.size := (Array.getElem?_eq_some_iff.mp hv).1
  obtain ⟨u, hstep, hcoherent, hitems⟩ := step_moveIndex_toList (κ := κ) hsource htarget hv
  have hu := hcoherent h
  exact ⟨u, hstep, hitems, h.find_moved hu hκ hsource htarget hv hitems, hu.consistent hκ⟩

theorem exchanges (h : t.Coherent κ) (hκ : κ.Lawful) {p q : Nat} (hv : t.items[p]? = some v)
    (hw : t.items[q]? = some w) : ∃ u, (Table.swapIndices κ p q).step t = (.ok (), u) ∧
      Reorders κ ((t.items.toList.set p w).set q v) (Index.exchanged p q) t u := by
  have hp : p < t.size := (Array.getElem?_eq_some_iff.mp hv).1
  have hq : q < t.size := (Array.getElem?_eq_some_iff.mp hw).1
  obtain ⟨u, hstep, hcoherent, hitems⟩ := step_swapIndices_swap (κ := κ) hp hq
  have hu := hcoherent h
  refine ⟨u, hstep, ?_, h.find_swapped hu hκ hp hq hitems, hu.consistent hκ⟩
  rw [hitems, toList_swapIfInBounds hv hw]

theorem removes (h : t.Coherent κ) (hκ : κ.Lawful) (way : Removal) (hpos : pos < t.size) :
    Removes κ way pos t (t.removeAt κ way pos) where
  items_eq := toList_removeAt κ t way pos
  size_eq := by
    rw [size_removeAt κ t way hpos]
    exact Nat.sub_add_cancel (Nat.one_le_of_lt hpos)
  find_eq := h.find_removeAt hκ way hpos
  lacks v hv := by
    have hfind := (h.find_eq_some hκ (κ.key v) pos).mpr ⟨v, hv, hκ.refl _⟩
    exact ((h.removeAt way hpos).find_eq_none hκ _).mp (h.find_removeAt_self hκ way hfind)
  consistent := (h.removeAt way hpos).consistent hκ

theorem takesAt (h : t.Coherent κ) (hκ : κ.Lawful) (way : Removal) (hv : t.items[pos]? = some v) :
    ∃ u, (Table.takeAt κ way pos).step t = (.ok (some v), u) ∧ Removes κ way pos t u :=
  ⟨_, step_takeAt way hv, h.removes hκ way (Array.getElem?_eq_some_iff.mp hv).1⟩

theorem removesByKey (h : t.Coherent κ) (hκ : κ.Lawful) (way : Removal) (answer : Option V → α) :
    RemovesByKey κ way answer (fun k => return answer (← Table.takeKey κ way k)) t where
  present k pos v haccepted hv hsame := by
    have hfind := (h.find_eq_some hκ k pos).mpr ⟨v, hv, hsame⟩
    obtain ⟨u, hstep, hu⟩ := h.takesAt hκ way hv
    refine ⟨u, ?_, hu⟩
    rw [← step_takeKey_of_find way haccepted hfind] at hstep
    rw [Action.step_bind_of_ok hstep]
    rfl
  absent k haccepted hlacks := by
    have hfind := (h.find_eq_none hκ k).mpr hlacks
    rw [Action.step_bind_of_ok (step_takeKey_of_absent way haccepted hfind)]
    rfl

/-- The last item is removed as if it were put in its own place. -/
theorem pops (h : t.Coherent κ) (hκ : κ.Lawful) {rest : List V}
    (hitems : t.items.toList = rest ++ [v]) : ∃ u, (Table.pop κ).step t = (.ok (some v), u) ∧
      u.items.toList = rest ∧ Removes κ .swap rest.length t u := by
  have hsize : t.size - 1 = rest.length := by
    show t.items.size - 1 = rest.length
    rw [← Array.length_toList, hitems, List.length_append]
    rfl
  have hv : t.items[rest.length]? = some v := by
    rw [← Array.getElem?_toList, hitems, List.getElem?_concat_length]
  obtain ⟨u, hstep, hu⟩ := h.takesAt hκ .swap hv
  refine ⟨u, ?_, ?_, hu⟩
  · unfold Table.pop
    rw [Action.step_get_bind, hsize, hstep]
  · rw [hu.items_eq, hitems, Removal.without, List.getLast?_concat]
    simp

theorem rearrangements (h : t.Coherent κ) (hκ : κ.Lawful) : t.Rearrangements κ where
  moveIndex _ _ _ hv htarget := h.moves hκ hv htarget
  swapIndices _ _ _ _ hv hw := h.exchanges hκ hv hw
  takeAt way _ _ hv := h.takesAt hκ way hv
  takeAt_past_end way _ hpos := step_takeAt_of_le way hpos
  takeKey way answer := h.removesByKey hκ way answer
  pop _ _ hitems := h.pops hκ hitems
  pop_empty hempty := by
    have hsize : t.size = 0 := congrArg Array.size hempty
    unfold Table.pop
    rw [Action.step_get_bind]
    exact step_takeAt_of_le .swap (hsize.trans_le (Nat.zero_le _))

end Coherent

end Table

namespace World

variable {κ : Hashing K}

/-- After every run on maps or on sets items are moved, exchanged and removed one at a time in
    every container, as the names of the operations tell. -/
theorem rearrangements_of_reachable (hκ : κ.Lawful) :
    (∀ {w : World K (K × T) σ}, Reachable (Map.interface K T) κ w → ∀ i,
      (w.table i).Rearrangements κ.map ∧
        ∀ way, Table.RemovesByKey κ.map way (Option.map Prod.snd) (Map.remove κ way) (w.table i)) ∧
    ∀ {w : World K K σ}, Reachable (Set.interface K) κ w → ∀ i,
      (w.table i).Rearrangements κ.set ∧
        ∀ way, Table.RemovesByKey κ.set way Option.isSome (Set.remove κ way) (w.table i) ∧
          Table.RemovesByKey κ.set way id (Set.take κ way) (w.table i) := by
  constructor
  · intro w h i
    have hcoherent := h.coherent_map hκ i
    exact ⟨hcoherent.rearrangements hκ, fun way => hcoherent.removesByKey hκ way _⟩
  · intro w h i
    have hcoherent := h.coherent_set hκ i
    refine ⟨hcoherent.rearrangements hκ, fun way => ⟨hcoherent.removesByKey hκ way _, ?_⟩⟩
    -- the stored key is answered as it is
    have htake := hcoherent.removesByKey hκ way id
    simp only [id, bind_pure] at htake
    exact htake

/-- The first key of a map goes to the end, the last of five keys fills the place of the second
    one, and an absent key is not removed. -/
theorem rearrangements_of_reachable_filled :
    (∃ u, (Table.moveIndex Hashing.constant.map 0 1).step
          ((withTwo .constant (start ())).table 0) = (.ok (), u) ∧
        u.items.toList = [(9, 2), (5, 1)] ∧ u.find Hashing.constant.map 5 = some 1) ∧
      (∃ u, (Map.remove Hashing.constant .shift 5).step ((withTwo .constant (start ())).table 0) =
          (.ok (some 1), u) ∧
        u.items.toList = [(9, 2)] ∧ u.find Hashing.constant.map 5 = none) ∧
      (∃ u, (Set.take Hashing.constant .swap 9).step (gathered.table 0) = (.ok (some 9), u) ∧
        u.items.toList = [5, 6, 4, 7] ∧ u.find Hashing.constant.set 6 = some 1) ∧
      (Set.remove Hashing.constant .swap 8).step (gathered.table 0) =
        (.ok false, gathered.table 0) := by
  have hconstant : Hashing.constant.Lawful := Hashing.lawful_ofHasher _
  obtain ⟨hmap, hremove⟩ := (rearrangements_of_reachable hconstant).1 withTwo_reachable 0
  obtain ⟨-, hset⟩ := (rearrangements_of_reachable (T := Nat) hconstant).2 gathered_reachable 0
  refine ⟨?_, ?_, ?_, ?_⟩
  · -- the first item changes places with the second
    obtain ⟨u, hstep, hu⟩ := hmap.moveIndex 0 1 (5, 1) (by decide +kernel) (by decide +kernel)
    exact ⟨u, hstep, hu.items_eq.trans (by decide +kernel),
      (hu.find_eq 5).trans (by decide +kernel)⟩
  · obtain ⟨u, hstep, hu⟩ := (hremove .shift).present 5 0 (5, 1) rfl (by decide +kernel) rfl
    exact ⟨u, hstep, hu.items_eq.trans (by decide +kernel),
      (hu.find_eq 5).trans (by decide +kernel)⟩
  · -- the last key takes the place of the one that is taken
    obtain ⟨u, hstep, hu⟩ := (hset .swap).2.present 9 1 9 rfl (by decide +kernel) rfl
    exact ⟨u, hstep, hu.items_eq.trans (by decide +kernel),
      (hu.find_eq 6).trans (by decide +kernel)⟩
  · exact (hset .swap).1.absent 8 rfl (by unfold Table.Lacks; decide +kernel)

end World

end OrderedHash
