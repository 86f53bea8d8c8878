import OrderedHash.Proofs.Runs.Worlds

namespace OrderedHash

/-!
# Runs

A run starts with empty containers and takes one turn after another, at each of which the
hash function may fail on other keys. A world is `Reachable` by such a run if every
container stays small enough for its positions to be stored. It is `ReachableEach` if each
container has a hash function of its own, and `Steady` if the hash function fails on the same
keys throughout. Then no container ever holds a key on which it fails, so that no append is cut
short (`World.Twin.recover_eq`).

Two runs of the same turns are in `Lockstep`, each with a hash function of its own, where
between the turns either run may also adjust the capacity of its containers alone. The
worlds of such runs are twins (`Lockstep.twin`), and so the runs cannot be told apart by
what they answer or by what their containers hold (`alike_of_lockstep`).
-/

open OrderedHash.Action (Agree)
open Function (update)

variable {K V σ : Type}

/-! ### Keys on which a hash function fails -/

namespace Hashing

/-- The hashing with a hash function that fails on other keys. -/
def refusing (κ : Hashing K) (refuse : K → Option Fault) : Hashing K :=
  { κ with refusal := refuse }

/-- The hash function as that of a second run. -/
def variant (κ : Hashing K) : Variant K := ⟨κ.hash, fun _ => True⟩

/-- The hash function as that of a second run in which no container holds a key on which it
    fails. -/
def strict (κ : Hashing K) : Variant K := ⟨κ.hash, fun k => κ.refusal k = none⟩

/-- Hashings that compare keys alike and fail on the same keys differ in the hash function
    only. -/
theorem refusing_eq_hashedBy {κ κ' : Hashing K} (h : κ'.same = κ.same)
    (refuse : K → Option Fault) : κ'.refusing refuse = (κ.refusing refuse).hashedBy κ'.variant := by
  unfold refusing hashedBy
  rw [h]
  rfl

/-- Keys that are equal only if they are the same may have any hash function. -/
theorem lawful_ofHasher [BEq K] [LawfulBEq K] (h : Hasher K) :
    (Hashing.ofHasher h (· == ·)).Lawful where
  refl a := beq_self_eq_true a
  symm _ _ hab := beq_iff_eq.mpr (beq_iff_eq.mp hab).symm
  trans _ _ _ hab hbc := beq_iff_eq.mpr ((beq_iff_eq.mp hab).trans (beq_iff_eq.mp hbc))
  hash_eq _ _ hab := congrArg h.value (beq_iff_eq.mp hab)

/-- A hash function under which all keys collide. -/
def constant : Hashing Nat := .ofHasher ⟨fun _ => 42, false⟩ (· == ·)

/-- A hash function under which small keys have different values. -/
def numeral : Hashing Nat := .ofHasher ⟨Nat.toUInt64, true⟩ (· == ·)

/-- A hash function that fails on other keys is as lawful. -/
theorem Lawful.refusing {κ : Hashing K} (h : κ.Lawful) (refuse : K → Option Fault) :
    (κ.refusing refuse).Lawful :=
  ⟨h.refl, h.symm, h.trans, h.hash_eq⟩

end Hashing

section Refusing

variable {I : Interface K V} {κ : Hashing K} {g : Variant K} {refuse : K → Option Fault}

/-- Tables stay coherent under a hash function that fails on other keys. -/
theorem Table.Coherent.refusing {t : Table V} (h : t.Coherent (I.keying κ)) :
    t.Coherent (I.keying (κ.refusing refuse)) :=
  ⟨h.distinct, h.small, h.mirrors⟩

/-- Whether tables are twins does not depend on the keys on which the hash function fails, as
    long as the tables may hold the others. -/
theorem Table.Twin.refusing {t t' : Table V} (h : Table.Twin (I.keying κ) g t t')
    (hholds : ∀ k, refuse k = none → g.Holds k) :
    Table.Twin (I.keying (κ.refusing refuse)) g t t' :=
  ⟨⟨h.admits.lawful.refusing refuse, h.admits.lawful'.refusing refuse, I.key_refresh, hholds⟩,
    h.items, h.held, h.left.refusing, ⟨h.right.distinct, h.right.small, h.right.mirrors⟩⟩

/-- Handles on twins stay right under a hash function that fails on other keys. -/
theorem Entry.Twin.refusing {t : Table V} {e e' : Entry K} (h : Entry.Twin (I.keying κ) g t e e') :
    Entry.Twin (I.keying (κ.refusing refuse)) g t e e' := by
  cases h with
  | vacant hheld hfind => exact .vacant hheld hfind
  | occupied hp => exact .occupied hp
  | consumed => exact .consumed

/-- Worlds of twins stay such under hash functions that fail on other keys, as long as the
    containers may hold the keys on which they do not. -/
theorem World.Twin.refusing {κs : Nat → Hashing K} {gs : Nat → Variant K} {w w' : World K V σ}
    (h : World.Twin I κs gs w w') (refuse : Nat → K → Option Fault)
    (hholds : ∀ i k, refuse i k = none → (gs i).Holds k) :
    World.Twin I (fun i => (κs i).refusing (refuse i)) gs w w' :=
  ⟨fun i => ⟨(h.table i).refusing (hholds i), (h.cell i).entry.refusing,
    ⟨(h.table i).refusing (hholds i), (h.cell i).indexed.same, (h.cell i).indexed.right⟩⟩, h.client⟩

end Refusing

/-! ### The capacity of one container -/

/-- The calls that concern the capacity of a container. -/
inductive Capacity where
  | reserve (count : Nat)
  | rehash
  | shrinkToFit
  | setLoadFactor (f : LoadFactor)

/-- The table after a call that concerns its capacity. -/
def Table.adjust (κ : Keying K V) (t : Table V) : Capacity → Table V
  | .reserve count => t.reserve κ count
  | .rehash => t.rehash κ
  | .shrinkToFit => t.shrinkToFit κ
  | .setLoadFactor f => t.setLoadFactor f

/-- A call that concerns the capacity leaves the items. -/
theorem Table.items_adjust (κ : Keying K V) (t : Table V) (call : Capacity) :
    (t.adjust κ call).items = t.items := by
  cases call <;> simp [adjust]

/-- Capacity is adjusted alike on whichever keys the hash function fails. -/
theorem Table.adjust_hashedBy (I : Interface K V) (κ κ' : Hashing K) (t : Table V)
    (call : Capacity) :
    t.adjust ((I.keying κ).hashedBy κ'.variant) call = t.adjust (I.keying κ') call := by
  cases call <;> rfl

/-- A call that concerns the capacity leaves a table coherent. -/
theorem Table.Coherent.adjust {κ : Keying K V} {t : Table V} (h : t.Coherent κ) (call : Capacity) :
    (t.adjust κ call).Coherent κ := by
  cases call with
  | reserve count => exact h.reserve count
  | rehash => exact h.rehash
  | shrinkToFit => exact h.shrinkToFit
  | setLoadFactor f => exact h.setLoadFactor f

/-- A handle stays right for a table in which every key is found where it was. -/
theorem Entry.Twin.congr {κ : Keying K V} {g : Variant K} {t u : Table V} {e e' : Entry K}
    (h : Entry.Twin κ g t e e') (hfind : ∀ k, u.find κ k = t.find κ k) (hsize : u.size = t.size) :
    Entry.Twin κ g u e e' := by
  cases h with
  | vacant hheld habsent => exact .vacant hheld ((hfind _).trans habsent)
  | occupied hp => exact .occupied (hsize.symm ▸ hp)
  | consumed => exact .consumed

namespace World

/-- The world after a call that concerns the capacity of one container. The handles on the
    container stay open. -/
def adjust (κ : Keying K V) (w : World K V σ) (i : Nat) (call : Capacity) : World K V σ :=
  w.setCell i { w.cell i with table := (w.table i).adjust κ call }

variable {I : Interface K V} {κs : Nat → Hashing K} {gs : Nat → Variant K} {w w' : World K V σ}

/-- The capacity of a container of the first of two worlds is adjusted. -/
theorem Twin.adjustLeft (h : Twin I κs gs w w') (i : Nat) (call : Capacity) :
    Twin I κs gs (w.adjust (I.keying (κs i)) i call) w' := by
  have hitems := Table.items_adjust (I.keying (κs i)) (w.table i) call
  have htable := (h.table i).withLeft ((h.table i).left.adjust call) hitems
  have hsize : ((w.table i).adjust (I.keying (κs i)) call).size = (w.table i).size :=
    congrArg Array.size hitems
  -- both the adjusted table and the one before find keys where the twin does
  have hfind : ∀ k, ((w.table i).adjust (I.keying (κs i)) call).find (I.keying (κs i)) k =
      (w.table i).find (I.keying (κs i)) k := fun k =>
    (htable.find_eq k).symm.trans ((h.table i).find_eq k)
  have hcell : Cell.Twin (I.keying (κs i)) (gs i)
      { w.cell i with table := (w.table i).adjust (I.keying (κs i)) call } (w'.cell i) :=
    ⟨htable, (h.cell i).entry.congr hfind hsize, (h.cell i).indexed.stay htable hsize⟩
  have hworld := h.setCell i hcell
  rwa [setCell_self w' i] at hworld

/-- The capacity of a container of the second of two worlds is adjusted. -/
theorem Twin.adjustRight (h : Twin I κs gs w w') (i : Nat) (call : Capacity) :
    Twin I κs gs w (w'.adjust ((I.keying (κs i)).hashedBy (gs i)) i call) := by
  have hitems := Table.items_adjust ((I.keying (κs i)).hashedBy (gs i)) (w'.table i) call
  have htable := (h.table i).withRight ((h.table i).right.adjust call) hitems
  have hcell : Cell.Twin (I.keying (κs i)) (gs i) (w.cell i)
      { w'.cell i with table := (w'.table i).adjust ((I.keying (κs i)).hashedBy (gs i)) call } :=
    ⟨htable, (h.cell i).entry, (h.cell i).indexed.stay htable rfl⟩
  have hworld := h.setCell i hcell
  rwa [setCell_self w i] at hworld

/-! ### Runs -/

/-- The worlds that a run can arrive at. -/
inductive Reachable (I : Interface K V) (κ : Hashing K) : World K V σ → Prop where
  | start (s : σ) : Reachable I κ (start s)
  | turn {α : Type} {w : World K V σ} (h : Reachable I κ w) (refuse : K → Option Fault)
      (turn : Turn I σ α) (hfits : ((turn.act (κ.refusing refuse)).step w).2.Fits) :
      Reachable I κ (turn.next (κ.refusing refuse) w)

/-- The worlds that a run can arrive at whose containers start with hash functions of their own,
    and the hash functions that the containers then have. -/
inductive ReachableEach (I : Interface K V) : (Nat → Hashing K) → World K V σ → Prop where
  | start {κs : Nat → Hashing K} (hκs : ∀ i, (κs i).Lawful) (s : σ) : ReachableEach I κs (start s)
  | turn {α : Type} {κs : Nat → Hashing K} {w : World K V σ} (h : ReachableEach I κs w)
      (refuse : Nat → K → Option Fault) (turn : Turn I σ α)
      (hfits : ((turn.actEach fun i => (κs i).refusing (refuse i)).step w).2.Fits) :
      ReachableEach I
        (fun i => κs (turn.former ((turn.actEach fun i => (κs i).refusing (refuse i)).step w).1 i))
        (turn.nextEach (fun i => (κs i).refusing (refuse i)) w)

/-- The worlds that a run can arrive at on which the hash function fails on the same keys
    throughout. -/
inductive Steady (I : Interface K V) (κ : Hashing K) : World K V σ → Prop where
  | start (s : σ) : Steady I κ (start s)
  | turn {α : Type} {w : World K V σ} (h : Steady I κ w) (turn : Turn I σ α)
      (hfits : ((turn.act κ).step w).2.Fits) : Steady I κ ((turn.act κ).step w).2

/-- The worlds that two runs of the same turns can arrive at, either of which may adjust
    the capacity of its containers alone. -/
inductive Lockstep (I : Interface K V) (κ κ' : Hashing K) : World K V σ → World K V σ → Prop where
  | start (s : σ) : Lockstep I κ κ' (start s) (start s)
  | turn {α : Type} {w w' : World K V σ} (h : Lockstep I κ κ' w w') (refuse : K → Option Fault)
      (turn : Turn I σ α) (hfits : ((turn.act (κ.refusing refuse)).step w).2.Fits) :
      Lockstep I κ κ' (turn.next (κ.refusing refuse) w) (turn.next (κ'.refusing refuse) w')
  | left {w w' : World K V σ} (h : Lockstep I κ κ' w w') (i : Nat) (call : Capacity) :
      Lockstep I κ κ' (w.adjust (I.keying κ) i call) w'
  | right {w w' : World K V σ} (h : Lockstep I κ κ' w w') (i : Nat) (call : Capacity) :
      Lockstep I κ κ' w (w'.adjust (I.keying κ') i call)

/-- What a program clears after a turn makes no container larger. -/
theorem Fits.recover {α : Type} {r : Except Fault α × World K V σ} (h : r.2.Fits)
    (turn : Turn I σ α) : (turn.recover r).Fits := by
  unfold Turn.recover
  split
  · exact h.setTable _ (by decide : 0 < 2 ^ 48 - 2)
  · exact h

/-- In a reachable world there is a position for every item. -/
theorem Reachable.fits {κ : Hashing K} (h : w.Reachable I κ) : w.Fits := by
  cases h with
  | start s => exact fits_start s
  | turn _ refuse turn hfits => exact hfits.recover turn

/-- In a world that is reachable with hash functions of their own there is a position for every
    item. -/
theorem ReachableEach.fits (h : w.ReachableEach I κs) : w.Fits := by
  cases h with
  | start _ s => exact fits_start s
  | turn _ refuse turn hfits => exact hfits.recover turn

/-- A run goes on with a turn that comes to an end, at which the hash function fails on the same
    keys as ever. -/
theorem Reachable.act {κ : Hashing K} {α : Type} (h : w.Reachable I κ) {turn : Turn I σ α} {a : α}
    (hturn : (turn.act κ).step w = (.ok a, w')) (hfits : w'.Fits) : w'.Reachable I κ := by
  have hsame : κ.refusing κ.refusal = κ := rfl
  have hnext := h.turn κ.refusal turn
  rw [hsame, Turn.next_of_ok hturn, hturn] at hnext
  exact hnext hfits

/-- A run is in lockstep with itself. -/
theorem Reachable.lockstep {κ : Hashing K} (h : w.Reachable I κ) : Lockstep I κ κ w w := by
  induction h with
  | start s => exact .start s
  | turn _ refuse turn hfits ih => exact .turn ih refuse turn hfits

/-- The containers may all have the same hash function. -/
theorem Reachable.each {κ : Hashing K} (h : w.Reachable I κ) (hκ : κ.Lawful) :
    w.ReachableEach I fun _ => κ := by
  induction h with
  | start s => exact .start (fun _ => hκ) s
  | turn _ refuse turn hfits ih => exact ih.turn (fun _ => refuse) turn hfits

end World

/-! ### Worlds of twins on runs -/

section Lockstep

variable {I : Interface K V} {κ κ' : Hashing K} {κs κs' : Nat → Hashing K} {w w' : World K V σ}

/-- Two lawful hash functions of one equality may be used side by side. -/
theorem Interface.admits (I : Interface K V) (hκ : κ.Lawful) (hκ' : κ'.Lawful)
    (hsame : κ'.same = κ.same) : (I.keying κ).Admits κ'.variant := by
  have hlawful := hκ'.refusing κ.refusal
  rw [Hashing.refusing_eq_hashedBy hsame] at hlawful
  exact ⟨hκ, hlawful, I.key_refresh, fun _ _ => trivial⟩

/-- A turn of both runs answers the same and leaves the same items, and both go on in worlds of
    twins. -/
theorem World.Twin.turnEach {α : Type} (h : World.Twin I κs (fun i => (κs' i).variant) w w')
    (hsame : ∀ i, (κs' i).same = (κs i).same) (refuse : Nat → K → Option Fault)
    (turn : Turn I σ α)
    (hfits : ((turn.actEach fun i => (κs i).refusing (refuse i)).step w).2.Fits) :
    Agree SameItems ((turn.actEach fun i => (κs i).refusing (refuse i)).step w)
        ((turn.actEach fun i => (κs' i).refusing (refuse i)).step w') ∧
      World.Twin I
        (fun i => κs (turn.former ((turn.actEach fun i => (κs i).refusing (refuse i)).step w).1 i))
        (fun i => (κs' (turn.former
          ((turn.actEach fun i => (κs i).refusing (refuse i)).step w).1 i)).variant)
        (turn.nextEach (fun i => (κs i).refusing (refuse i)) w)
        (turn.nextEach (fun i => (κs' i).refusing (refuse i)) w') := by
  have hagreed := turn.agree (h.refusing refuse fun _ _ _ => trivial) hfits
  have hhashing : (fun i => ((κs i).refusing (refuse i)).hashedBy (κs' i).variant) =
      fun i => (κs' i).refusing (refuse i) :=
    funext fun i => (Hashing.refusing_eq_hashedBy (hsame i) (refuse i)).symm
  rw [hhashing] at hagreed
  -- the keys on which the hash functions fail are again what they were before
  exact ⟨hagreed.toAgree, hagreed.next.refusing
    (fun i => (κs (turn.former _ i)).refusal) fun _ _ _ => trivial⟩

/-- A turn of runs in which all containers have the same hash function leads to worlds of twins. -/
theorem World.Twin.turn {α : Type} (h : World.Twin I (fun _ => κ) (fun _ => κ'.variant) w w')
    (hsame : κ'.same = κ.same) (refuse : K → Option Fault) (turn : Turn I σ α)
    (hfits : ((turn.act (κ.refusing refuse)).step w).2.Fits) :
    Agree SameItems ((turn.act (κ.refusing refuse)).step w)
        ((turn.act (κ'.refusing refuse)).step w') ∧
      World.Twin I (fun _ => κ) (fun _ => κ'.variant) (turn.next (κ.refusing refuse) w)
        (turn.next (κ'.refusing refuse) w') :=
  h.turnEach (fun _ => hsame) (fun _ => refuse) turn hfits

/-- Runs in lockstep arrive at worlds of twins. -/
theorem World.Lockstep.twin (h : World.Lockstep I κ κ' w w') (hκ : κ.Lawful) (hκ' : κ'.Lawful)
    (hsame : κ'.same = κ.same) : World.Twin I (fun _ => κ) (fun _ => κ'.variant) w w' := by
  induction h with
  | start s => exact ⟨fun i => .closed (.empty (I.admits hκ hκ' hsame) _ _), rfl⟩
  | turn _ refuse turn hfits ih => exact (ih.turn hsame refuse turn hfits).2
  | left _ i call ih => exact ih.adjustLeft i call
  | right _ i call ih =>
    have hright := ih.adjustRight i call
    unfold World.adjust at hright ⊢
    rwa [Table.adjust_hashedBy] at hright

/-- A run arrives at a world that is a twin of itself. -/
theorem World.ReachableEach.twin (h : w.ReachableEach I κs) :
    World.Twin I κs (fun i => (κs i).variant) w w := by
  induction h with
  | start hκs s => exact ⟨fun i => .closed (.empty (I.admits (hκs i) (hκs i) rfl) _ _), rfl⟩
  | turn _ refuse turn hfits ih => exact (ih.turnEach (fun _ => rfl) refuse turn hfits).2

end Lockstep

/-! ### Runs on which the hash function always fails on the same keys -/

section Steady

variable {I : Interface K V} {κ : Hashing K} {w : World K V σ}

/-- No turn is cut short in the middle of the containers if the hash functions do not fail on the
    keys that are stored. -/
theorem Turn.recover_eq {α : Type} (κs : Nat → Hashing K) (turn : Turn I σ α)
    (haccepted : ∀ i j, ∀ v ∈ (w.table j).items.toList, (κs i).refusal (I.key v) = none) :
    turn.recover ((turn.actEach κs).step w) = ((turn.actEach κs).step w).2 := by
  cases turn with
  | append left i j =>
    simp only [Turn.actEach, Action.step_ofStep]
    by_cases hij : i = j
    · rw [hij, Origin.between_self]
      rfl
    · rw [Origin.between_of_ne hij]
      rcases Table.step_append_cases (I.keying (κs i)) left (w.table i) (w.table j) with
        ⟨-, hstep⟩ | ⟨fault, _, -, hcut, -⟩
      · rw [hstep]
        rfl
      · -- an append is cut short only by a key on which the hash function fails
        rw [Table.answer_extend_of_accepted (haccepted i j)] at hcut
        cases hcut
  | _ => rfl

/-- The containers hold no keys on which the hash function fails. -/
theorem World.Twin.accepted (h : World.Twin I (fun _ => κ) (fun _ => κ.strict) w w) (j : Nat)
    (v : V) (hv : v ∈ (w.table j).items.toList) : κ.refusal (I.key v) = none :=
  (h.table j).held.of_mem hv

/-- Nothing has to be cleared after a turn on such containers. -/
theorem World.Twin.recover_eq {α : Type}
    (h : World.Twin I (fun _ => κ) (fun _ => κ.strict) w w) (turn : Turn I σ α) :
    turn.next κ w = ((turn.act κ).step w).2 :=
  Turn.recover_eq (fun _ => κ) turn fun _ => h.accepted

/-- The containers of such a run hold only keys on which the hash function does not fail. -/
theorem World.Steady.twin (h : w.Steady I κ) (hκ : κ.Lawful) :
    World.Twin I (fun _ => κ) (fun _ => κ.strict) w w := by
  induction h with
  | start s =>
    have hadmits : (I.keying κ).Admits κ.strict := ⟨hκ, hκ, I.key_refresh, fun _ hk => hk⟩
    exact ⟨fun i => .closed (.empty hadmits _ _), rfl⟩
  | turn _ turn hfits ih =>
    have hnext := (turn.agree ih hfits).next
    rw [← ih.recover_eq turn]
    exact hnext

/-- The program can go on after every turn of such a run. -/
theorem World.Steady.reachable (h : w.Steady I κ) (hκ : κ.Lawful) : w.Reachable I κ := by
  induction h with
  | start s => exact .start s
  | turn h turn hfits ih =>
    rw [← (h.twin hκ).recover_eq turn]
    exact ih.turn κ.refusal turn hfits

end Steady

/-! ### What a program can observe -/

namespace World

/-- Worlds that no program can tell apart by its next turn: they hold the same items, and
    every turn answers the same in both and leaves the same items, as long as positions do
    not run out. The containers have the hash functions given by number. -/
structure AlikeEach (I : Interface K V) (κs κs' : Nat → Hashing K) (w w' : World K V σ) : Prop where
  same : SameItems w w'
  turn : ∀ {α : Type} (refuse : Nat → K → Option Fault) (turn : Turn I σ α),
    ((turn.actEach fun i => (κs i).refusing (refuse i)).step w).2.Fits →
      Agree SameItems ((turn.actEach fun i => (κs i).refusing (refuse i)).step w)
        ((turn.actEach fun i => (κs' i).refusing (refuse i)).step w')

/-- Worlds that no program can tell apart if the containers of a world have the same hash
    function. -/
def Alike (I : Interface K V) (κ κ' : Hashing K) (w w' : World K V σ) : Prop :=
  AlikeEach I (fun _ => κ) (fun _ => κ') w w'

/-- Worlds of twins are alike, and stay alike. -/
theorem Twin.alikeEach {I : Interface K V} {κs κs' : Nat → Hashing K} {w w' : World K V σ}
    (h : Twin I κs (fun i => (κs' i).variant) w w') (hsame : ∀ i, (κs' i).same = (κs i).same) :
    AlikeEach I κs κs' w w' :=
  ⟨h.sameItems, fun refuse turn hfits => (h.turnEach hsame refuse turn hfits).1⟩

/-- Two runs of the same turns on maps or on sets, with different hash functions for the
    same equality of keys, hold the same items and answer the same after every turn, even
    if either run adjusts the capacity of its containers alone. -/
theorem alike_of_lockstep {κ κ' : Hashing K} (hκ : κ.Lawful) (hκ' : κ'.Lawful)
    (hsame : κ'.same = κ.same) :
    (∀ {T σ : Type} {w w' : World K (K × T) σ},
      Lockstep (Map.interface K T) κ κ' w w' → Alike (Map.interface K T) κ κ' w w') ∧
    ∀ {σ : Type} {w w' : World K K σ},
      Lockstep (Set.interface K) κ κ' w w' → Alike (Set.interface K) κ κ' w w' := by
  constructor
  · intro T σ w w' h
    exact (h.twin hκ hκ' hsame).alikeEach fun _ => hsame
  · intro σ w w' h
    exact (h.twin hκ hκ' hsame).alikeEach fun _ => hsame

/-- The world after two items were added to its first map. -/
def withTwo (κ : Hashing Nat) (w : World Nat (Nat × Nat) Unit) : World Nat (Nat × Nat) Unit :=
  ((Turn.act (I := Map.interface Nat Nat) (κ.refusing fun _ => none)
    (.use 0 (.common (.extend [(5, 1), (9, 2)] true)))).step w).2

/-- There are positions for two items. -/
theorem fits_withTwo : (withTwo .constant (start ())).Fits := by
  refine (fits_start ()).setTable 0 ?_
  decide +kernel

theorem withTwo_reachable :
    Reachable (Map.interface Nat Nat) .constant (withTwo .constant (start ())) :=
  (Reachable.start ()).turn (fun _ => none) _ fits_withTwo

theorem items_withTwo :
    ((withTwo .constant (start ())).table 0).items.toList = [(5, 1), (9, 2)] := by
  decide +kernel

/-- One of two maps with the same items is given more room. -/
theorem alike_of_lockstep_constant :
    ((withTwo .constant (start ())).table 0).items = #[(5, 1), (9, 2)] ∧
      Alike (Map.interface Nat Nat) .constant .numeral (withTwo .constant (start ()))
        ((withTwo .numeral (start ())).adjust Hashing.numeral.map 0 (.reserve 100)) := by
  have hconstant : Hashing.constant.Lawful := Hashing.lawful_ofHasher _
  have hnumeral : Hashing.numeral.Lawful := Hashing.lawful_ofHasher _
  have hturn : Lockstep (Map.interface Nat Nat) .constant .numeral
      (withTwo .constant (start ())) (withTwo .numeral (start ())) :=
    (Lockstep.start ()).turn (fun _ => none) _ fits_withTwo
  constructor
  · decide +kernel
  · exact (alike_of_lockstep hconstant hnumeral rfl).1 (hturn.right 0 (.reserve 100))

end World

end OrderedHash
