import Mathlib.Data.List.Basic
import Mathlib.Data.Nat.Basic
import Mathlib.Data.Option.NAry
import OrderedHash.Proofs.Agree

namespace OrderedHash

/-!
# What showing items to a test comes to

An `Inspection` shows the items of a list to a test in order until enough of them have passed
or the test fails, and sorts them into those that passed and those that did not. The test may
change the item it is shown.

An inspection asks the test about the items in order and once each (`asked_inspect`). To
inspect for one number of items and then for another is to inspect for their sum
(`inspect_add`), and to inspect with the negated test is to take the answers the other way
round (`inspect_not`).
-/

/-! ### Inspections -/

/-- What comes of showing items of a list to a test. -/
structure Inspection (V σ : Type) where
  /-- The items that the test answered for, as it left them, with its answers. -/
  seen : List (V × Bool)
  /-- The items that it did not answer for. If it failed, the first of them is the one that
      it was shown, as it left it. -/
  rest : List V
  /-- The failure of the test, if it failed. -/
  fault : Option Fault
  /-- The state in which the test is left. -/
  client : σ

namespace Inspection

variable {V σ : Type}

/-- The items that passed. -/
def passed (d : Inspection V σ) : List V := (d.seen.filter fun e => e.2).map Prod.fst

/-- The items that did not pass. -/
def kept (d : Inspection V σ) : List V := (d.seen.filter fun e => !e.2).map Prod.fst

/-- The items for which the test gave an answer. -/
def answered (d : Inspection V σ) (answer : Bool) : List V :=
  (d.seen.filter fun e => e.2 == answer).map Prod.fst

/-- Whether the test failed, and how. -/
def outcome (d : Inspection V σ) : Except Fault Unit :=
  match d.fault with
  | some fault => .error fault
  | none => .ok ()

/-- The inspection with the answers the other way round. -/
def negated (d : Inspection V σ) : Inspection V σ :=
  { d with seen := d.seen.map fun e => (e.1, !e.2) }

/-- The inspection of an item that the test answered for, and then of those after it. -/
def after (v : V) (passed : Bool) (d : Inspection V σ) : Inspection V σ :=
  { d with seen := (v, passed) :: d.seen }

/-- An inspection that goes on where another one stopped, unless that one failed. -/
def andThen (d : Inspection V σ) (f : List V → σ → Inspection V σ) : Inspection V σ :=
  match d.fault with
  | some _ => d
  | none => { f d.rest d.client with seen := d.seen ++ (f d.rest d.client).seen }

@[simp] theorem passed_after_true (v : V) (d : Inspection V σ) :
    (d.after v true).passed = v :: d.passed := rfl

@[simp] theorem passed_after_false (v : V) (d : Inspection V σ) :
    (d.after v false).passed = d.passed := rfl

@[simp] theorem kept_after_true (v : V) (d : Inspection V σ) :
    (d.after v true).kept = d.kept := rfl

@[simp] theorem kept_after_false (v : V) (d : Inspection V σ) :
    (d.after v false).kept = v :: d.kept := rfl

/-- Those that the test was true of are the ones that passed. -/
@[simp] theorem answered_true (d : Inspection V σ) : d.answered true = d.passed := by
  simp [answered, passed]

/-- Those that the test was false of are the ones that are kept. -/
@[simp] theorem answered_false (d : Inspection V σ) : d.answered false = d.kept := by
  simp [answered, kept]

theorem negated_after (v : V) (passed : Bool) (d : Inspection V σ) :
    (d.after v passed).negated = d.negated.after v !passed := rfl

/-- What is kept by a test passes its negation. -/
theorem passed_negated (d : Inspection V σ) : d.negated.passed = d.kept := by
  simp [negated, passed, kept, List.filter_map, Function.comp_def]

/-- What passes a test is kept by its negation. -/
theorem kept_negated (d : Inspection V σ) : d.negated.kept = d.passed := by
  simp [negated, passed, kept, List.filter_map, Function.comp_def]

variable {d : Inspection V σ} {f : List V → σ → Inspection V σ}

/-- An item that was answered for has passed or is kept. -/
theorem length_passed_add_kept (d : Inspection V σ) :
    d.passed.length + d.kept.length = d.seen.length := by
  rw [passed, kept, List.length_map, List.length_map]
  exact List.length_eq_length_filter_add _ |>.symm

/-- Nothing follows on an inspection that ended with a fault. -/
theorem andThen_of_fault {e : Fault} (h : d.fault = some e) : d.andThen f = d := by
  rw [andThen, h]

/-- The next inspection goes on with the items that are left and in the state that is left. -/
theorem andThen_of_none (h : d.fault = none) :
    d.andThen f = { f d.rest d.client with seen := d.seen ++ (f d.rest d.client).seen } := by
  rw [andThen, h]

/-- An item that was inspected first stays the first if another inspection follows. -/
theorem after_andThen (v : V) (passed : Bool) (d : Inspection V σ)
    (f : List V → σ → Inspection V σ) :
    (d.after v passed).andThen f = (d.andThen f).after v passed := by
  cases h : d.fault with
  | none =>
    have hafter : (d.after v passed).fault = none := h
    rw [andThen_of_none h, andThen_of_none hafter]
    rfl
  | some e =>
    have hafter : (d.after v passed).fault = some e := h
    rw [andThen_of_fault h, andThen_of_fault hafter]

/-- The items that pass are those of the one inspection and those of the next. -/
theorem passed_andThen (h : d.fault = none) :
    (d.andThen f).passed = d.passed ++ (f d.rest d.client).passed := by
  rw [andThen_of_none h, passed, List.filter_append, List.map_append]
  rfl

/-- The items that are kept are those of the one inspection and those of the next. -/
theorem kept_andThen (h : d.fault = none) :
    (d.andThen f).kept = d.kept ++ (f d.rest d.client).kept := by
  rw [andThen_of_none h, kept, List.filter_append, List.map_append]
  rfl

end Inspection

section Inspect

variable {V σ : Type} (test : Action (V × σ) Bool)

/-- Shows the items of a list to a test, until as many have passed as are wanted or, where
    no number is given, until the end. -/
def inspect : (wanted : Option Nat) → List V → σ → Inspection V σ
  | _, [], s => ⟨[], [], none, s⟩
  | wanted, v :: rest, s =>
    if wanted = some 0 then ⟨[], v :: rest, none, s⟩
    else
      match test.step (v, s) with
      | (.ok passed, (v, s)) =>
        (inspect (if passed then wanted.map (· - 1) else wanted) rest s).after v passed
      | (.error fault, (v, s)) => ⟨[], v :: rest, some fault, s⟩

variable {test}

theorem inspect_nil (wanted : Option Nat) (s : σ) :
    inspect test wanted [] s = ⟨[], [], none, s⟩ := by rw [inspect]

/-- No item is inspected if none is wanted. -/
theorem inspect_zero (vs : List V) (s : σ) :
    inspect test (some 0) vs s = ⟨[], vs, none, s⟩ := by
  cases vs with
  | nil => rw [inspect]
  | cons v rest => rw [inspect, if_pos rfl]

/-- The first item is inspected, and then the others are, of which one less is wanted if it
    passed. -/
theorem inspect_of_ok {wanted : Option Nat} (h : wanted ≠ some 0) {v w : V} {s s' : σ}
    {passed : Bool} (hstep : test.step (v, s) = (.ok passed, (w, s'))) (rest : List V) :
    inspect test wanted (v :: rest) s =
      (inspect test (if passed then wanted.map (· - 1) else wanted) rest s').after w passed := by
  rw [inspect, if_neg h, hstep]

/-- The inspection ends where the test fails, with what the test left of the item. -/
theorem inspect_of_error {wanted : Option Nat} (h : wanted ≠ some 0) {v w : V} {s s' : σ}
    {e : Fault} (hstep : test.step (v, s) = (.error e, (w, s'))) (rest : List V) :
    inspect test wanted (v :: rest) s = ⟨[], w :: rest, some e, s'⟩ := by
  rw [inspect, if_neg h, hstep]

/-- The negated test is shown the same items, and leaves them alike. -/
theorem inspect_not (vs : List V) (s : σ) :
    inspect (return !(← test)) none vs s = (inspect test none vs s).negated := by
  have hnone : (none : Option Nat) ≠ some 0 := nofun
  induction vs generalizing s with
  | nil => rw [inspect_nil, inspect_nil]; rfl
  | cons v rest ih =>
    rcases hstep : test.step (v, s) with ⟨e | passed, w, s'⟩
    · have hnot : (do return !(← test) : Action (V × σ) Bool).step (v, s) = (.error e, (w, s')) :=
        Action.step_bind_of_error hstep _
      rw [inspect_of_error hnone hnot, inspect_of_error hnone hstep]
      rfl
    · have hnot : (do return !(← test) : Action (V × σ) Bool).step (v, s) =
          (.ok !passed, (w, s')) := Action.step_bind_of_ok hstep _
      rw [inspect_of_ok hnone hnot, inspect_of_ok hnone hstep, Inspection.negated_after]
      simp only [Option.map_none, ite_self, ih]

/-- To inspect for one number and then for another is to inspect for their sum. -/
theorem inspect_add (a b : Option Nat) (vs : List V) (s : σ) :
    inspect test (Option.map₂ (· + ·) a b) vs s =
      (inspect test a vs s).andThen (inspect test b) := by
  induction vs generalizing a s with
  | nil => rw [inspect_nil, inspect_nil, Inspection.andThen_of_none rfl, inspect_nil]; rfl
  | cons v rest ih =>
    by_cases hzero : a = some 0
    · -- nothing more was wanted at first
      have hsum : Option.map₂ (· + ·) a b = b := by
        rw [hzero]
        cases b with
        | none => rfl
        | some n => exact congrArg some (Nat.zero_add n)
      rw [hsum, hzero, inspect_zero, Inspection.andThen_of_none rfl]
      rfl
    · -- more is wanted in sum, since more was wanted at first
      have hsum : Option.map₂ (· + ·) a b ≠ some 0 := by
        cases a with
        | none => exact nofun
        | some m =>
          cases b with
          | none => exact nofun
          | some n =>
            have hm : m ≠ 0 := fun h => hzero (congrArg some h)
            exact fun h => hm (Nat.eq_zero_of_add_eq_zero_right (Option.some.inj h))
      rcases hstep : test.step (v, s) with ⟨e | passed, w, s'⟩
      · rw [inspect_of_error hsum hstep, inspect_of_error hzero hstep]
        rfl
      · -- an item that passes is taken off the first number
        have hless : (if passed then (Option.map₂ (· + ·) a b).map (· - 1)
            else Option.map₂ (· + ·) a b) =
              Option.map₂ (· + ·) (if passed then a.map (· - 1) else a) b := by
          cases passed with
          | false => rfl
          | true =>
            cases a with
            | none => rfl
            | some m =>
              cases b with
              | none => rfl
              | some n =>
                have hm : m ≠ 0 := fun h => hzero (congrArg some h)
                show some (m + n - 1) = some (m - 1 + n)
                rw [Option.some.injEq]
                omega
        rw [inspect_of_ok hsum hstep, inspect_of_ok hzero hstep, hless, ih,
          Inspection.after_andThen]

/-- No more can pass than there are items. -/
theorem inspect_of_length_le {n : Nat} {vs : List V} (h : vs.length ≤ n) (s : σ) :
    inspect test (some n) vs s = inspect test none vs s := by
  induction vs generalizing n s with
  | nil => rw [inspect_nil, inspect_nil]
  | cons v rest ih =>
    rw [List.length_cons] at h
    have hn : some n ≠ some 0 := by
      rw [Ne, Option.some.injEq]
      omega
    have hnone : (none : Option Nat) ≠ some 0 := nofun
    rcases hstep : test.step (v, s) with ⟨e | passed, w, s'⟩
    · rw [inspect_of_error hn hstep, inspect_of_error hnone hstep]
    · rw [inspect_of_ok hn hstep, inspect_of_ok hnone hstep]
      -- as many as there are items is as good as any number
      cases passed with
      | false =>
        rw [if_neg Bool.false_ne_true, if_neg Bool.false_ne_true, ih (by omega)]
      | true =>
        rw [if_pos rfl, if_pos rfl, Option.map_some, ih (by omega)]
        rfl

/-- The test is shown the items of a list in order and once each, up to where the items are
    left over or to its failure. -/
inductive Asked (test : Action (V × σ) Bool) : List V → σ → Inspection V σ → Prop
  | stop (vs : List V) (s : σ) : Asked test vs s ⟨[], vs, none, s⟩
  | answer {v w : V} {s s' : σ} {passed : Bool} {rest : List V} {d : Inspection V σ}
      (hstep : test.step (v, s) = (.ok passed, (w, s'))) (h : Asked test rest s' d) :
      Asked test (v :: rest) s (d.after w passed)
  | fail {v w : V} {s s' : σ} {e : Fault} {rest : List V}
      (hstep : test.step (v, s) = (.error e, (w, s'))) :
      Asked test (v :: rest) s ⟨[], w :: rest, some e, s'⟩

/-- An inspection asks the test about one item after another. -/
theorem asked_inspect (wanted : Option Nat) (vs : List V) (s : σ) :
    Asked test vs s (inspect test wanted vs s) := by
  induction vs generalizing wanted s with
  | nil =>
    rw [inspect_nil]
    exact .stop [] s
  | cons v rest ih =>
    by_cases hzero : wanted = some 0
    · rw [hzero, inspect_zero]
      exact .stop _ s
    · rcases hstep : test.step (v, s) with ⟨e | passed, w, s'⟩
      · rw [inspect_of_error hzero hstep]
        exact .fail hstep
      · rw [inspect_of_ok hzero hstep]
        exact .answer hstep (ih _ s')

/-! ### How far an inspection goes -/

/-- Every item is either answered for or left over. -/
theorem length_inspect (test : Action (V × σ) Bool) (wanted : Option Nat) (vs : List V) (s : σ) :
    (inspect test wanted vs s).seen.length + (inspect test wanted vs s).rest.length =
      vs.length := by
  induction vs generalizing wanted s with
  | nil =>
    rw [inspect_nil]
    rfl
  | cons v rest ih =>
    by_cases hzero : wanted = some 0
    · rw [hzero, inspect_zero]
      exact Nat.zero_add _
    · rcases hstep : test.step (v, s) with ⟨e | passed, w, s'⟩
      · rw [inspect_of_error hzero hstep]
        exact Nat.zero_add _
      · -- the item is seen, and the rest of the list is inspected
        have hlen := ih (if passed then wanted.map (· - 1) else wanted) s'
        rw [inspect_of_ok hzero hstep, List.length_cons, ← hlen]
        exact Nat.succ_add _ _

/-- As many pass as are wanted, unless the items end before. -/
theorem rest_inspect (test : Action (V × σ) Bool) (wanted : Option Nat) (vs : List V) (s : σ)
    (h : (inspect test wanted vs s).fault = none) :
    (inspect test wanted vs s).rest = [] ∨
      wanted = some (inspect test wanted vs s).passed.length := by
  induction vs generalizing wanted s with
  | nil =>
    rw [inspect_nil]
    exact Or.inl rfl
  | cons v rest ih =>
    by_cases hzero : wanted = some 0
    · rw [hzero, inspect_zero]
      exact Or.inr rfl
    · rcases hstep : test.step (v, s) with ⟨e | passed, w, s'⟩
      · rw [inspect_of_error hzero hstep] at h
        cases h
      · rw [inspect_of_ok hzero hstep] at h ⊢
        refine (ih _ s' h).imp_right fun hwanted => ?_
        -- an item that passes counts for one of those that are wanted
        cases passed with
        | false => exact hwanted
        | true =>
          rw [Inspection.passed_after_true, List.length_cons]
          rw [if_pos rfl] at hwanted ⊢
          cases wanted with
          | none => cases hwanted
          | some n =>
            have hn : n ≠ 0 := fun h => hzero (congrArg some h)
            have hless : n - 1 = _ := Option.some.inj hwanted
            rw [← hless, Nat.sub_add_cancel (Nat.pos_of_ne_zero hn)]

/-- No more pass than are wanted, and fewer if the test fails. -/
theorem length_passed_inspect (test : Action (V × σ) Bool) (n : Nat) (vs : List V) (s : σ) :
    (inspect test (some n) vs s).passed.length ≤ n ∧
      ((inspect test (some n) vs s).fault ≠ none →
        (inspect test (some n) vs s).passed.length < n) := by
  induction vs generalizing n s with
  | nil =>
    rw [inspect_nil]
    exact ⟨Nat.zero_le n, fun h => absurd rfl h⟩
  | cons v rest ih =>
    cases n with
    | zero =>
      rw [inspect_zero]
      exact ⟨le_rfl, fun h => absurd rfl h⟩
    | succ n =>
      have hzero : some (n + 1) ≠ some 0 := by simp
      rcases hstep : test.step (v, s) with ⟨e | passed, w, s'⟩
      · rw [inspect_of_error hzero hstep]
        exact ⟨Nat.zero_le _, fun _ => Nat.succ_pos n⟩
      · -- the test answers of the first item, and what is left to do is smaller by one
        rw [inspect_of_ok hzero hstep]
        cases passed with
        | false => exact ih (n + 1) s'
        | true =>
          obtain ⟨hle, hlt⟩ := ih n s'
          exact ⟨Nat.succ_le_succ hle, fun h => Nat.succ_lt_succ (hlt h)⟩

/-- No item is shown to the test once as many have passed as are wanted. -/
theorem needed_inspect {n : Nat} {vs : List V} {s : σ} {front : List (V × Bool)} {e : V × Bool}
    (h : (inspect test (some n) vs s).seen = front ++ [e]) :
    (front.filter fun e => e.2).length < n := by
  induction vs generalizing n s front with
  | nil =>
    rw [inspect_nil] at h
    exact absurd h.symm (List.append_ne_nil_of_right_ne_nil _ (List.cons_ne_nil _ _))
  | cons v rest ih =>
    have hnil : ([] : List (V × Bool)) ≠ front ++ [e] :=
      (List.append_ne_nil_of_right_ne_nil _ (List.cons_ne_nil _ _)).symm
    cases n with
    | zero =>
      rw [inspect_zero] at h
      exact absurd h hnil
    | succ n =>
      have hzero : some (n + 1) ≠ some 0 := by simp
      rcases hstep : test.step (v, s) with ⟨e' | passed, w, s'⟩
      · rw [inspect_of_error hzero hstep] at h
        exact absurd h hnil
      · rw [inspect_of_ok hzero hstep] at h
        -- the first item was shown while all of the number was still wanted
        cases front with
        | nil => exact Nat.succ_pos n
        | cons x front =>
          obtain ⟨rfl, htail⟩ := List.cons.inj h
          cases passed with
          | false => exact @ih (n + 1) s' front htail
          | true => exact Nat.succ_lt_succ (@ih n s' front htail)

end Inspect

end OrderedHash
