import OrderedHash.Proofs.Runs.Atomicity
import OrderedHash.Proofs.Runs.Protocol

namespace OrderedHash

/-!
# Handles stay in step with their containers

A handle is opened in a container of a run and then used by calls, while the container is
left alone otherwise (`World.UsedBy`). At every moment it is in one of its three states and
answers what the container holds: an occupied handle is on the position at which the
container finds its key, and while the handle is vacant or consumed the container lacks the
key (`Entry.Follows`, `IndexedEntry.Follows`). Every call obeys its rule, in whichever order
the calls are made (`World.handlesFollow_of_reachable`).
-/

variable {K V T E σ α : Type}

/-! ### Handles on a key -/

namespace Entry

/-- A handle that was opened on the key `k` is right for the table: it is on the position
    at which the key is found, or the key is absent. -/
inductive On (κ : Keying K V) (k : K) (t : Table V) : Entry K → Prop where
  | vacant (h : t.find κ k = none) : On κ k t (.vacant k (κ.hash k))
  | occupied {p : Nat} (h : t.find κ k = some p) : On κ k t (.occupied p)
  | consumed (h : t.find κ k = none) : On κ k t .consumed

variable {κ : Keying K V} {k : K} {t u : Table V} {e e' : Entry K}

/-- A handle stays on its key as long as the key is found where it was. -/
theorem On.congr (h : On κ k t e) (hfind : u.find κ k = t.find κ k) : On κ k u e := by
  cases h with
  | vacant habsent => exact .vacant (hfind.trans habsent)
  | occupied hp => exact .occupied (hfind.trans hp)
  | consumed habsent => exact .consumed (hfind.trans habsent)

/-- What a call can do to a handle and its table keeps the handle on its key. -/
theorem On.moves (h : On κ k t e) (hκ : κ.Lawful) (ht : t.Coherent κ) (hu : u.Coherent κ)
    (hmoves : Moves κ (e, t) (e', u)) : On κ k u e' := by
  cases hmoves with
  | stay hkeys => exact h.congr (ht.find_congr hu hκ hkeys k)
  | occupy hpos hv =>
    cases h with
    | vacant _ =>
      subst hv
      exact .occupied (hu.find_insertAt hκ hpos)
  | follow hitem =>
    cases h with
    | occupied hp => exact .occupied (ht.find_of_getElem? hu hκ hp hitem)
  | consume way =>
    cases h with
    | occupied hp => exact .consumed (ht.find_removeAt_self hκ way hp)

/-- A handle that is opened on a key is on it. -/
theorem On.of_ofKey (h : ofKey κ t k = .ok e) : On κ k t e := by
  cases hrefusal : κ.refusal k with
  | some fault =>
    rw [ofKey_of_refusal hrefusal] at h
    cases h
  | none =>
    cases hfind : t.find κ k with
    | some p =>
      rw [ofKey_of_find hrefusal hfind] at h
      cases h
      exact .occupied hfind
    | none =>
      rw [ofKey_of_absent hrefusal hfind] at h
      cases h
      exact .vacant hfind

/-- A handle on a key is on a position of the table. -/
theorem On.lt (h : On κ k t e) (hκ : κ.Lawful) (ht : t.Coherent κ) (p : Nat)
    (he : e = .occupied p) : p < t.size := by
  subst he
  cases h with
  | occupied hp => exact ht.lt_of_find hκ hp

/-- What a handle that was opened on the key `k` answers, by its state. -/
structure Follows (κ : Keying K V) (k : K) (e : Entry K) (t : Table V) : Prop where
  isOccupied_iff : e.isOccupied ↔ e.phase = .occupied
  isVacant_iff : e.isVacant ↔ e.phase = .vacant
  /-- The handle is on the position at which the key is found, and on the item there. -/
  occupied : e.phase = .occupied → ∃ p v, t.find κ k = some p ∧ t.items[p]? = some v ∧
    κ.same (κ.key v) k ∧ e.index t = .ok p ∧ e.key κ t = .ok (κ.key v) ∧ e.item t = .ok v
  vacant : e.phase = .vacant → t.Lacks κ k ∧ e.index t = .ok t.size ∧ e.key κ t = .ok k
  consumed : e.phase = .consumed → t.Lacks κ k

/-- A handle on a key of a coherent table follows the key. -/
theorem On.follows (h : On κ k t e) (hκ : κ.Lawful) (ht : t.Coherent κ) : e.Follows κ k t := by
  cases h with
  | vacant habsent =>
    -- the key is absent in both cases, and no call can be right about an item
    have hlacks := (ht.find_eq_none hκ k).mp habsent
    refine ⟨isOccupied_iff _, isVacant_iff _, fun h => ?_, fun _ => ⟨hlacks, rfl, rfl⟩,
      fun h => ?_⟩ <;> cases h
  | consumed habsent =>
    have hlacks := (ht.find_eq_none hκ k).mp habsent
    refine ⟨isOccupied_iff _, isVacant_iff _, fun h => ?_, fun h => ?_, fun _ => hlacks⟩ <;>
      cases h
  | @occupied p hp =>
    obtain ⟨v, hv, hsame⟩ := (ht.find_eq_some hκ k p).mp hp
    have hitem : t.itemAt p = .ok v := by
      rw [Table.itemAt, hv]
    have hkey : (Entry.occupied p : Entry K).key κ t = .ok (κ.key v) := by
      rw [key, hitem]
      rfl
    refine ⟨isOccupied_iff _, isVacant_iff _, fun _ => ⟨p, v, hp, hv, hsame, rfl, hkey, hitem⟩,
      fun h => ?_, fun h => ?_⟩ <;> cases h

end Entry

namespace IndexedEntry

variable {κ : Keying K V} {k : K} {t : Table V} {e : IndexedEntry}

/-- What a handle on a position answers when the item there was opened with the key `k`. -/
structure Follows (κ : Keying K V) (k : K) (e : IndexedEntry) (t : Table V) : Prop where
  never_vacant : (e.toEntry : Entry K).phase ≠ .vacant
  held : (e.toEntry : Entry K).phase = .occupied → ∃ p v, t.find κ k = some p ∧
    t.items[p]? = some v ∧ κ.same (κ.key v) k ∧ e.index = .ok p ∧ e.item t = .ok v
  consumed : (e.toEntry : Entry K).phase = .consumed → t.Lacks κ k

/-- A handle on a position follows the key that is stored there. -/
theorem follows_of_on (h : Entry.On κ k t e.toEntry) (hκ : κ.Lawful) (ht : t.Coherent κ) :
    e.Follows κ k t := by
  have hentry := h.follows hκ ht
  cases e with
  | held p =>
    obtain ⟨q, v, hq, hv, hsame, hindex, -, hitem⟩ := hentry.occupied rfl
    cases hindex
    exact ⟨nofun, fun _ => ⟨p, v, hq, hv, hsame, rfl, hitem⟩, nofun⟩
  | consumed => exact ⟨nofun, nofun, fun _ => hentry.consumed rfl⟩

end IndexedEntry

/-- Whether a handle is right does not depend on the keys on which the hash function fails. -/
theorem Entry.On.refusing {I : Interface K V} {κ : Hashing K} {k : K} {t : Table V} {e : Entry K}
    (h : Entry.On (I.keying κ) k t e) (refuse : K → Option Fault) :
    Entry.On (I.keying (κ.refusing refuse)) k t e := by
  cases h with
  | vacant habsent => exact .vacant habsent
  | occupied hp => exact .occupied hp
  | consumed habsent => exact .consumed habsent

/-! ### Runs that use one handle -/

/-- The calls on the handle on a key of a container. -/
def Turn.CallsEntry {I : Interface K V} (i : Nat) (α : Type) : Turn I σ α → Prop
  | .callEntry j _ => j = i
  | _ => False

/-- The calls on the handle on a position of a container. -/
def Turn.CallsIndexed {I : Interface K V} (i : Nat) (α : Type) : Turn I σ α → Prop
  | .callIndexed j _ => j = i
  | _ => False

namespace World

/-- The worlds of a run that goes on from a world and touches a container by turns of one
    kind only. -/
inductive UsedBy (I : Interface K V) (κ : Hashing K) (i : Nat)
    (part : ∀ α : Type, Turn I σ α → Prop) (w : World K V σ) : World K V σ → Prop where
  | refl : UsedBy I κ i part w w
  | use {α : Type} {w' : World K V σ} (h : UsedBy I κ i part w w') (refuse : K → Option Fault)
      (turn : Turn I σ α) (hpart : part α turn)
      (hfits : ((turn.act (κ.refusing refuse)).step w').2.Fits) :
      UsedBy I κ i part w (turn.next (κ.refusing refuse) w')
  | aside {α : Type} {w' : World K V σ} (h : UsedBy I κ i part w w') (refuse : K → Option Fault)
      (turn : Turn I σ α) (hcell : (turn.next (κ.refusing refuse) w').cell i = w'.cell i)
      (hfits : ((turn.act (κ.refusing refuse)).step w').2.Fits) :
      UsedBy I κ i part w (turn.next (κ.refusing refuse) w')

variable {I : Interface K V} {κ : Hashing K} {i : Nat} {k : K} {w w' : World K V σ}

/-- A run in which one handle is used is a run. -/
theorem UsedBy.reachable {part : ∀ α : Type, Turn I σ α → Prop} (h : UsedBy I κ i part w w')
    (hw : Reachable I κ w) : Reachable I κ w' := by
  induction h with
  | refl => exact hw
  | use _ refuse turn _ hfits ih => exact ih.turn refuse turn hfits
  | aside _ refuse turn _ hfits ih => exact ih.turn refuse turn hfits

/-- The cell that replaces another one is the one of the number. -/
theorem cell_setCell_self (w : World K V σ) (i : Nat) (c : Cell K V) :
    (w.setCell i c).cell i = c := by
  show Function.update w.cell i c i = c
  rw [Function.update_self]

end World

namespace World

variable {I : Interface K V} {κ : Hashing K} {i : Nat} {k : K} {w w' : World K V σ}

/-! ### Handles in runs -/

/-- What a call on a handle leaves when it is made, and where the program goes on. -/
theorem cell_callEntry (w : World K V σ) (i : Nat) (call : Entry.Call I.key σ α) :
    let o := (call.run (I.keying κ)).step (((w.cell i).entry, w.table i), w.client)
    ((Turn.callEntry i call).next κ w).cell i = ⟨o.2.1.2, o.2.1.1, .consumed⟩ :=
  cell_setCell_self w i _

/-- A call on a handle on a position concerns the handle and its container only. -/
theorem cell_callIndexed (w : World K V σ) (i : Nat) (call : IndexedEntry.Call I.key α) :
    let o := (call.run (I.keying κ)).step ((w.cell i).indexed, w.table i)
    ((Turn.callIndexed i call).next κ w).cell i = ⟨o.2.2, .consumed, o.2.1⟩ :=
  cell_setCell_self w i _

/-- What is true of a container and of the handles on it stays true if the turns that use it
    keep it. -/
theorem UsedBy.keeps {part : ∀ α : Type, Turn I σ α → Prop} {P : Cell K V → Prop}
    (h : UsedBy I κ i part w w') (hw : Reachable I κ w) (hP : P (w.cell i))
    (hstep : ∀ {α : Type} {u : World K V σ} (refuse : K → Option Fault) (turn : Turn I σ α),
      part α turn → Reachable I κ u → Reachable I κ (turn.next (κ.refusing refuse) u) →
        P (u.cell i) → P ((turn.next (κ.refusing refuse) u).cell i)) :
    P (w'.cell i) := by
  induction h with
  | refl => exact hP
  | aside _ refuse turn hcell _ ih => exact hcell ▸ ih
  | use h refuse turn hpart hfits ih =>
    have hreach := h.reachable hw
    exact hstep refuse turn hpart hreach (hreach.turn refuse turn hfits) ih

/-- The handle on a key stays right through the run that uses it. -/
theorem UsedBy.on_entry (h : UsedBy I κ i (Turn.CallsEntry i) w w') (hκ : κ.Lawful)
    (hw : Reachable I κ w) (hon : Entry.On (I.keying κ) k (w.table i) (w.cell i).entry) :
    Entry.On (I.keying κ) k (w'.table i) (w'.cell i).entry := by
  refine h.keeps (P := fun c => Entry.On (I.keying κ) k c.table c.entry) hw hon ?_
  -- every other turn is ruled out, and a call moves the handle with its item
  intro α u refuse turn hpart hu hafter hright
  cases turn with
  | callEntry j call =>
    cases hpart
    have ht : (u.table i).Coherent (I.keying (κ.refusing refuse)) := (hu.coherent hκ i).refusing
    have ht' : (World.table _ i).Coherent (I.keying (κ.refusing refuse)) :=
      (hafter.coherent hκ i).refusing
    have hlt := (hright.refusing refuse).lt (hκ.refusing refuse) ht
    have hmoves := (Entry.Call.obeys_moves (κ := I.keying (κ.refusing refuse)) (s := u.client)
      I.key_refresh hlt call).2
    unfold table at ht'
    rw [cell_callEntry] at ht' ⊢
    exact ((hright.refusing refuse).moves (hκ.refusing refuse) ht ht' hmoves).refusing κ.refusal
  | _ => cases hpart

/-- The handle on a position stays right for the key of its item. -/
theorem UsedBy.on_indexed (h : UsedBy I κ i (Turn.CallsIndexed i) w w') (hκ : κ.Lawful)
    (hw : Reachable I κ w) (hon : Entry.On (I.keying κ) k (w.table i) (w.cell i).indexed.toEntry) :
    Entry.On (I.keying κ) k (w'.table i) (w'.cell i).indexed.toEntry := by
  refine h.keeps (P := fun c => Entry.On (I.keying κ) k c.table c.indexed.toEntry) hw hon ?_
  -- every other turn is ruled out, and a call moves the handle with its item
  intro α u refuse turn hpart hu hafter hright
  cases turn with
  | callIndexed j call =>
    cases hpart
    have ht : (u.table i).Coherent (I.keying (κ.refusing refuse)) := (hu.coherent hκ i).refusing
    have ht' : (World.table _ i).Coherent (I.keying (κ.refusing refuse)) :=
      (hafter.coherent hκ i).refusing
    have hlt := (hright.refusing refuse).lt (hκ.refusing refuse) ht
    have hmoves := (IndexedEntry.Call.obeys_moves (κ := I.keying (κ.refusing refuse))
      (e := (u.cell i).indexed) (fun p hp => hlt p (by rw [hp]; rfl)) call).2
    unfold table at ht'
    rw [cell_callIndexed] at ht' ⊢
    exact ((hright.refusing refuse).moves (hκ.refusing refuse) ht ht' hmoves).refusing κ.refusal
  | _ => cases hpart

/-! ### What is promised of handles -/

/-- The handle on the key `k` of a container follows the container, and every next call on
    it obeys its rule. -/
structure EntryFollows (I : Interface K V) (κ : Hashing K) (i : Nat) (k : K) (w : World K V σ) :
    Prop where
  follows : (w.cell i).entry.Follows (I.keying κ) k (w.table i)
  obeys : ∀ {α : Type} (refuse : K → Option Fault) (call : Entry.Call I.key σ α),
    let o := ((Turn.callEntry i call).act (κ.refusing refuse)).step w
    Obeys id call.rule ((w.cell i).entry, w.table i) o.1 ((o.2.cell i).entry, o.2.table i)

/-- The handle on a position of a container, whose item had the key `k`, follows the
    container, and every next call on it obeys its rule. -/
structure IndexedFollows (I : Interface K V) (κ : Hashing K) (i : Nat) (k : K)
    (w : World K V σ) : Prop where
  follows : (w.cell i).indexed.Follows (I.keying κ) k (w.table i)
  obeys : ∀ {α : Type} (refuse : K → Option Fault) (call : IndexedEntry.Call I.key α),
    let o := ((Turn.callIndexed (σ := σ) i call).act (κ.refusing refuse)).step w
    Obeys (IndexedEntry.toEntry : IndexedEntry → Entry K) call.rule
      ((w.cell i).indexed, w.table i) o.1 ((o.2.cell i).indexed, o.2.table i)

/-- What is promised of the handles on a container: they can be opened, on any key that the
    hash function takes and on any position, and follow the container as long as it is
    changed through them only. -/
structure HandlesFollow (I : Interface K V) (κ : Hashing K) (i : Nat) (w : World K V σ) :
    Prop where
  entry : ∀ (refuse : K → Option Fault) (k : K), refuse k = none → ∃ w',
    ((Turn.openEntry (I := I) i k).act (κ.refusing refuse)).step w = (.ok (), w') ∧
      (w'.cell i).entry.phase ≠ .consumed ∧
        ∀ w'', UsedBy I κ i (Turn.CallsEntry i) w' w'' → EntryFollows I κ i k w''
  refused : ∀ (refuse : K → Option Fault) (k : K) (fault : Fault), refuse k = some fault →
    ((Turn.openEntry (I := I) i k).act (κ.refusing refuse)).step w = (.error fault, w)
  indexed : ∀ (refuse : K → Option Fault) (pos : Nat) (v : V),
    (w.table i).items[pos]? = some v → ∃ w',
      ((Turn.openIndexed (I := I) i pos).act (κ.refusing refuse)).step w = (.ok (), w') ∧
        (w'.cell i).indexed.index = .ok pos ∧
          ∀ w'', UsedBy I κ i (Turn.CallsIndexed i) w' w'' → IndexedFollows I κ i (I.key v) w''
  outOfRange : ∀ (refuse : K → Option Fault) (pos : Nat), (w.table i).size ≤ pos →
    ((Turn.openIndexed (I := I) i pos).act (κ.refusing refuse)).step w =
      (.error .positionOutOfRange, w)

/-- Whether a world fits does not depend on the program. -/
theorem Fits.setClient (h : w.Fits) (s : σ) : (w.setClient s).Fits := h

/-- A handle that can be opened on a key is opened. -/
theorem step_openEntry {e : Entry K} (h : Entry.ofKey (I.keying κ) (w.table i) k = .ok e) :
    ((Turn.openEntry (I := I) i k).act κ).step w =
      (.ok (), w.setCell i { w.cell i with entry := e }) := by
  simp only [Turn.act, Turn.actEach, Action.step_get_bind, h, Action.ofExcept, Action.step_pure_bind,
    Action.step_set]

/-- A handle is opened on a position that has an item. -/
theorem step_openIndexed {pos : Nat} (h : pos < (w.table i).size) :
    ((Turn.openIndexed (I := I) i pos).act κ).step w =
      (.ok (), w.setCell i { w.cell i with indexed := .held pos }) := by
  simp only [Turn.act, Turn.actEach, Action.step_get_bind, IndexedEntry.ofPosition, if_pos h,
    Action.ofExcept, Action.step_pure_bind, Action.step_set]

/-- In a reachable world a handle on a key keeps the promises of handles. -/
theorem entryFollows_of_on (h : Entry.On (I.keying κ) k (w.table i) (w.cell i).entry)
    (hκ : κ.Lawful) (hw : Reachable I κ w) : EntryFollows I κ i k w := by
  have ht := hw.coherent hκ i
  refine ⟨h.follows hκ ht, fun refuse call => ?_⟩
  have hobeys := (Entry.Call.obeys_moves (κ := I.keying (κ.refusing refuse)) (s := w.client)
    I.key_refresh (h.lt hκ ht) call).1
  have hcell := cell_callEntry (κ := κ.refusing refuse) w i call
  show Obeys id _ _ _ (((Turn.callEntry i call).next _ w).cell i |>.entry,
    ((Turn.callEntry i call).next _ w).cell i |>.table)
  rw [hcell]
  exact hobeys

/-- In a reachable world a handle on a position keeps the promises of handles. -/
theorem indexedFollows_of_on (h : Entry.On (I.keying κ) k (w.table i) (w.cell i).indexed.toEntry)
    (hκ : κ.Lawful) (hw : Reachable I κ w) : IndexedFollows I κ i k w := by
  have ht := hw.coherent hκ i
  refine ⟨IndexedEntry.follows_of_on h hκ ht, fun refuse call => ?_⟩
  have hobeys := (IndexedEntry.Call.obeys_moves (κ := I.keying (κ.refusing refuse))
    (e := (w.cell i).indexed) (fun p hp => h.lt hκ ht p (by rw [hp]; rfl)) call).1
  have hcell := cell_callIndexed (κ := κ.refusing refuse) w i call
  show Obeys _ _ _ _ (((Turn.callIndexed i call).next _ w).cell i |>.indexed,
    ((Turn.callIndexed i call).next _ w).cell i |>.table)
  rw [hcell]
  exact hobeys

/-- In a reachable world every handle that is opened keeps the promises of handles. -/
theorem Reachable.handlesFollow (h : Reachable I κ w) (hκ : κ.Lawful) (i : Nat) :
    HandlesFollow I κ i w where
  entry refuse k hrefuse := by
    -- whether the key is stored or not a handle is opened that can be used
    have hopen : ∃ e, Entry.ofKey (I.keying (κ.refusing refuse)) (w.table i) k = .ok e ∧
        e.phase ≠ .consumed := by
      cases hfind : (w.table i).find (I.keying (κ.refusing refuse)) k with
      | some p => exact ⟨_, Entry.ofKey_of_find hrefuse hfind, nofun⟩
      | none => exact ⟨_, Entry.ofKey_of_absent hrefuse hfind, nofun⟩
    obtain ⟨e, he, hphase⟩ := hopen
    have hstep := step_openEntry he
    have hfits := h.fits.setCell i (c := { w.cell i with entry := e }) (h.fits i)
    have hreach := h.turn refuse (Turn.openEntry (I := I) i k) (by rwa [hstep])
    rw [Turn.next_of_ok hstep] at hreach
    refine ⟨_, hstep, by rwa [cell_setCell_self], fun w'' hused => ?_⟩
    refine entryFollows_of_on (hused.on_entry hκ hreach ?_) hκ (hused.reachable hreach)
    unfold table
    rw [cell_setCell_self]
    exact (Entry.On.of_ofKey he).refusing κ.refusal
  refused refuse k fault hrefuse := by
    have hfail : Entry.ofKey (I.keying (κ.refusing refuse)) (w.table i) k = .error fault :=
      Entry.ofKey_of_refusal hrefuse
    simp only [Turn.act, Turn.actEach, Action.step_get_bind, hfail, Action.ofExcept,
      Action.step_throw_bind]
  indexed refuse pos v hv := by
    have hpos : pos < (w.table i).size := (Array.getElem?_eq_some_iff.mp hv).1
    -- a handle on a position is one on the key of the item there
    have hstep := step_openIndexed (I := I) (κ := κ.refusing refuse) hpos
    have hfits := h.fits.setCell i (c := { w.cell i with indexed := .held pos }) (h.fits i)
    have hreach := h.turn refuse (Turn.openIndexed (I := I) i pos) (by rwa [hstep])
    rw [Turn.next_of_ok hstep] at hreach
    refine ⟨_, hstep, by rw [cell_setCell_self]; rfl, fun w'' hused => ?_⟩
    refine indexedFollows_of_on (hused.on_indexed hκ hreach ?_) hκ (hused.reachable hreach)
    unfold table
    rw [cell_setCell_self]
    exact .occupied (((h.coherent hκ i).find_eq_some hκ _ _).mpr ⟨v, hv, hκ.refl _⟩)
  outOfRange refuse pos hpos := by
    have hnot : ¬ pos < (w.table i).size := Nat.not_lt.mpr hpos
    simp only [Turn.act, Turn.actEach, Action.step_get_bind, IndexedEntry.ofPosition, if_neg hnot,
      Action.ofExcept, Action.step_throw_bind]

/-- After every run on maps or on sets, handles that are opened on a container follow it
    through every sequence of calls on them. -/
theorem handlesFollow_of_reachable (hκ : κ.Lawful) :
    (∀ {T σ : Type} {w : World K (K × T) σ}, Reachable (Map.interface K T) κ w →
      ∀ i, HandlesFollow (Map.interface K T) κ i w) ∧
    ∀ {σ : Type} {w : World K K σ}, Reachable (Set.interface K) κ w →
      ∀ i, HandlesFollow (Set.interface K) κ i w := by
  constructor
  · intro T σ w h i
    exact h.handlesFollow hκ i
  · intro σ w h i
    exact h.handlesFollow hκ i

/-- The item of the key five of two is moved through a handle on the key. -/
def fiveMoved : World Nat (Nat × Nat) Unit :=
  ((Turn.act (I := Map.interface Nat Nat) (Hashing.constant.refusing fun _ => none)
    (.callEntry 0 (.moveIndex 1))).step
      ((Turn.act (I := Map.interface Nat Nat) (Hashing.constant.refusing fun _ => none)
        (.openEntry 0 5)).step (withTwo .constant (start ()))).2).2

/-- The item at the second of two positions is removed through a handle on the position. -/
def secondRemoved : World Nat Nat Unit :=
  ((Turn.act (I := Set.interface Nat) (Hashing.constant.refusing fun _ => none)
    (.callIndexed 0 (.remove .swap))).step
      ((Turn.act (I := Set.interface Nat) (Hashing.constant.refusing fun _ => none)
        (.openIndexed 0 1)).step collided).2).2

theorem fits_fiveMoved : fiveMoved.Fits := by
  have hopen : Entry.ofKey
      ((Map.interface Nat Nat).keying (Hashing.constant.refusing fun _ => none))
      ((withTwo .constant (start ())).table 0) 5 = .ok (.occupied 0) :=
    Entry.ofKey_of_find rfl (by decide +kernel)
  unfold fiveMoved
  rw [step_openEntry hopen]
  refine (World.Fits.setCell (World.Fits.setCell fits_withTwo 0 ?_) 0 ?_).setClient ()
  all_goals decide +kernel

theorem fits_secondRemoved : secondRemoved.Fits := by
  unfold secondRemoved
  rw [step_openIndexed (by decide +kernel)]
  refine World.Fits.setCell (World.Fits.setCell collided_reachable.fits 0 ?_) 0 ?_
  all_goals decide +kernel

/-- A handle moved its item to the end of a map, and a handle removed the last key of a set. -/
theorem handlesFollow_of_reachable_moved :
    (fiveMoved.table 0).items = #[(9, 2), (5, 1)] ∧
      EntryFollows (Map.interface Nat Nat) .constant 0 5 fiveMoved ∧
      (secondRemoved.table 0).items = #[5] ∧
      IndexedFollows (Set.interface Nat) .constant 0 9 secondRemoved := by
  have hconstant : Hashing.constant.Lawful := Hashing.lawful_ofHasher _
  have hmap : Reachable (Map.interface Nat Nat) .constant (withTwo .constant (start ())) :=
    (Reachable.start ()).turn (fun _ => none) _ fits_withTwo
  refine ⟨by decide +kernel, ?_, by decide +kernel, ?_⟩
  · -- the first item of the map is moved behind the second
    obtain ⟨w', hstep, -, hfollows⟩ :=
      ((handlesFollow_of_reachable hconstant).1 hmap 0).entry (fun _ => none) 5 rfl
    obtain rfl := (congrArg Prod.snd hstep : _ = w')
    exact hfollows _ (.use .refl (fun _ => none) (.callEntry 0 (.moveIndex 1)) rfl fits_fiveMoved)
  · -- the second key of the set is removed, and its handle is consumed
    obtain ⟨w', hstep, -, hfollows⟩ :=
      ((handlesFollow_of_reachable hconstant).2 collided_reachable 0).indexed (fun _ => none) 1 9
        (by decide +kernel)
    obtain rfl := (congrArg Prod.snd hstep : _ = w')
    exact hfollows _
      (.use .refl (fun _ => none) (.callIndexed 0 (.remove .swap)) rfl fits_secondRemoved)

end World

end OrderedHash
