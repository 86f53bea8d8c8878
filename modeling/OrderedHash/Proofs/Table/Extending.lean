import OrderedHash.Proofs.Table.Collapse
import OrderedHash.Proofs.Table.Joining

namespace OrderedHash

/-!
# Lists of items added to tables

The newcomers of a list are its items with keys that others do not have, the first one for
each key. Whether a table absorbs the items of a list or adopts them, the newcomers come behind
the items that it has (`Keying.foldl_absorb_eq`, `Keying.foldl_adopt`). The two ways differ in
what becomes of the other items of the list: those that are absorbed refresh the items that
have their keys, newcomers among them, and those that are adopted are left out.

A table absorbs the items that it is extended by or that are appended to it, and it adopts
those that are built in its store (`Coherent.step_extend`, `step_append_of_extend`,
`Coherent.step_insertEach`).
-/

variable {K V : Type}

namespace Keying

variable (κ : Keying K V)

/-- The items of a list with keys that others do not have, the first one for each key. -/
def newcomers (items vs : List V) : List V :=
  (vs.filter fun v => !κ.holds items v).eraseDupsBy κ.alike

/-- The items of a list after an item was adopted: it comes last, unless its key is held. -/
def adopt (items : List V) (v : V) : List V := if κ.holds items v then items else items ++ [v]

variable {κ}

/-! ### Items that are new to others -/

theorem newcomers_cons_of_holds {items : List V} {v : V} (hv : κ.holds items v) (vs : List V) :
    κ.newcomers items (v :: vs) = κ.newcomers items vs := by
  rw [newcomers, newcomers, List.filter_cons_of_neg (by simp [hv])]

/-- The first item with a new key counts as one of the others for those that follow. -/
theorem newcomers_cons_of_not_holds (hκ : κ.Lawful) {items : List V} {v : V}
    (hv : κ.holds items v = false) (vs : List V) :
    κ.newcomers items (v :: vs) = v :: κ.newcomers (items ++ [v]) vs := by
  rw [newcomers, newcomers, List.filter_cons_of_pos (by simp [hv]), List.eraseDupsBy_cons,
    List.filter_filter]
  refine congrArg (fun rest => v :: rest.eraseDupsBy κ.alike) (List.filter_congr fun w _ => ?_)
  rw [holds_append, Bool.not_or, Bool.and_comm, alike_symm hκ w v]
  simp [holds]

theorem holds_cons (w : V) (items : List V) (v : V) :
    κ.holds (w :: items) v = (κ.alike w v || κ.holds items v) := List.any_cons

/-- A key that is held is not one of a newcomer. -/
theorem not_holds_newcomers (hκ : κ.Lawful) (vs : List V) {items : List V} {v : V}
    (hv : κ.holds items v) : κ.holds (κ.newcomers items vs) v = false := by
  induction vs generalizing items with
  | nil => rfl
  | cons w vs ih =>
    cases hw : κ.holds items w with
    | true => rw [newcomers_cons_of_holds hw, ih hv]
    | false =>
      -- a newcomer has none of the keys that are held
      have hne : κ.alike w v = false := by
        by_contra hwv
        rw [holds_congr hκ (Bool.of_not_eq_false hwv), hv] at hw
        cases hw
      have hheld : κ.holds (items ++ [w]) v := by
        rw [holds_append, hv]
        rfl
      rw [newcomers_cons_of_not_holds hκ hw, holds_cons, hne, ih hheld]
      rfl

/-- What a list adds to others are its newcomers, refreshed by those that follow them. -/
theorem additions_eq (hκ : κ.Lawful) (hr : κ.Refreshes) (hself : ∀ v, κ.refresh v v = v)
    (items vs : List V) : κ.additions items vs = (κ.newcomers items vs).map (κ.latest · vs) := by
  induction vs generalizing items with
  | nil => rfl
  | cons v vs ih =>
    cases hv : κ.holds items v with
    | true =>
      rw [additions_cons_of_holds hκ hr hv, newcomers_cons_of_holds hv,
        map_latest_cons_of_not_holds (not_holds_newcomers hκ vs hv), ih]
    | false =>
      have hheld : κ.holds (items ++ [v]) v := holds_concat items (hκ.refl _)
      rw [additions_cons_of_not_holds hκ hr hv, newcomers_cons_of_not_holds hκ hv, List.map_cons,
        latest_cons_of_alike hr (hκ.refl _), hself,
        map_latest_cons_of_not_holds (not_holds_newcomers hκ vs hheld), ih]

/-- Items that absorb others have the newcomers behind them, and all are refreshed. -/
theorem foldl_absorb_eq (hκ : κ.Lawful) (hr : κ.Refreshes) (hself : ∀ v, κ.refresh v v = v)
    (vs items : List V) :
    vs.foldl κ.absorb items = (items ++ κ.newcomers items vs).map (κ.latest · vs) := by
  rw [foldl_absorb hκ hr, additions_eq hκ hr hself, List.map_append]

/-- Items that adopt others have the newcomers behind them. -/
theorem foldl_adopt (hκ : κ.Lawful) (vs items : List V) :
    vs.foldl κ.adopt items = items ++ κ.newcomers items vs := by
  induction vs generalizing items with
  | nil => exact (List.append_nil items).symm
  | cons v vs ih =>
    rw [List.foldl_cons, adopt]
    cases hv : κ.holds items v with
    | true => rw [if_pos rfl, ih, newcomers_cons_of_holds hv]
    | false =>
      rw [if_neg Bool.false_ne_true, ih, newcomers_cons_of_not_holds hκ hv, List.append_assoc]
      rfl

theorem length_le_adopt (items : List V) (v : V) : items.length ≤ (κ.adopt items v).length := by
  unfold adopt
  split <;> simp

/-- The key five is held, and of two items with the key three the first one is new. -/
example : (Hashing.map (.ofHasher ⟨Nat.toUInt64, true⟩ (· == ·))).newcomers
    [(5, 1)] [(3, 30), (5, 50), (3, 31), (4, 40)] = [(3, 30), (4, 40)] := by decide

end Keying

namespace Table

variable {κ : Keying K V} {t : Table V}

/-! ### Items built in the store -/

theorem Coherent.adopt_of_find (h : t.Coherent κ) (hκ : κ.Lawful) {v : V} {pos : Nat}
    (hfind : t.find κ (κ.key v) = some pos) : κ.adopt t.items.toList v = t.items.toList := by
  have hheld := h.holds_eq hκ v
  rw [hfind, Option.isSome_some] at hheld
  rw [Keying.adopt, if_pos hheld]

theorem Coherent.adopt_of_absent (h : t.Coherent κ) (hκ : κ.Lawful) {v : V}
    (hfind : t.find κ (κ.key v) = none) : κ.adopt t.items.toList v = t.items.toList ++ [v] := by
  have hheld := h.holds_eq hκ v
  rw [hfind, Option.isSome_none] at hheld
  rw [Keying.adopt, hheld, if_neg Bool.false_ne_true]

/-- An item that is built in the store stays there if no item has its key. -/
theorem Coherent.step_emplace (h : t.Coherent κ) (hκ : κ.Lawful) {v : V}
    (haccepted : κ.refusal (κ.key v) = none)
    (hsmall : (κ.adopt t.items.toList v).length < Node.movingPosition) :
    ∃ u, (emplace κ v).step t =
        (.ok (t.spot κ (κ.key v), (t.find κ (κ.key v)).isNone), u) ∧
      u.Coherent κ ∧ u.items.toList = κ.adopt t.items.toList v := by
  rw [spot]
  cases hfind : t.find κ (κ.key v) with
  | some pos =>
    exact ⟨t, step_emplace_of_find h haccepted hfind, h, (h.adopt_of_find hκ hfind).symm⟩
  | none =>
    rw [h.adopt_of_absent hκ hfind, List.length_append, Array.length_toList] at hsmall
    exact ⟨_, step_emplace_of_absent h haccepted hfind, h.push hκ hfind hsmall,
      by rw [h.adopt_of_absent hκ hfind, Array.toList_push]⟩

theorem performs_emplace (hκ : κ.Lawful) : Performs κ (emplace κ) κ.adopt := by
  intro t v h haccepted hsmall
  obtain ⟨u, hstep, hu⟩ := h.step_emplace hκ haccepted hsmall
  exact ⟨_, u, hstep, hu⟩

/-- The items that are built in the store of a table are adopted in their order. -/
theorem Coherent.step_insertEach (h : t.Coherent κ) (hκ : κ.Lawful) {vs : List V}
    (haccepted : ∀ v ∈ vs, κ.refusal (κ.key v) = none)
    (hsmall : (vs.foldl κ.adopt t.items.toList).length < Node.movingPosition) :
    ∃ u, (insertEach κ vs).step t = (.ok (), u) ∧ u.Coherent κ ∧
      u.items.toList = vs.foldl κ.adopt t.items.toList := by
  unfold insertEach
  exact (performs_emplace hκ).forEach Keying.length_le_adopt h haccepted hsmall

/-! ### Items of another table -/

/-- What is appended to a table extends it, and is taken from the other table. -/
theorem step_append_of_extend {other u : Table V}
    (h : (extend κ other.items.toList true).step t = (.ok (), u)) (left : Remnant V) :
    (append κ left .other).step (t, other) = (.ok (), (u, other.clear)) := by
  rcases step_append_cases κ left t other with ⟨-, hstep⟩ | ⟨fault, _, -, hcut, -⟩
  · rw [hstep, h]
  · rw [h] at hcut
    cases hcut

end Table

end OrderedHash
