import OrderedHash.Proofs.Agree

namespace OrderedHash

namespace Action

/-!
# Actions that change nothing when they fail

An action is `Atomic` on a state if what a `view` shows of the state is the same after it
fails. It may do whatever it likes where it answers.

A sequence is atomic for one of two reasons. Either its first part leaves the state as it
is, as checks and calls of the client do (`Atomic.demand_bind`, `Atomic.ofExcept_bind`,
`Atomic.onSnd_bind`), and then the second part decides. Or its second part `Answers`
wherever the first one has answered (`Atomic.bind`), so that only the first part fails.
-/

variable {σ τ ρ α β : Type}

/-- What `view` shows of the state is the same after the action fails. -/
def Atomic (view : σ → ρ) (x : Action σ α) (s : σ) : Prop :=
  ∀ fault u, x.step s = (.error fault, u) → view u = view s

/-- The action does not fail. -/
def Answers (x : Action σ α) (s : σ) : Prop := ∃ a u, x.step s = (.ok a, u)

/-! ### Actions that do not fail -/

namespace Answers

theorem pure (a : α) (s : σ) : Answers (pure a : Action σ α) s := ⟨a, s, rfl⟩

/-- A change is followed by an action that does not fail. -/
theorem modify_bind {g : σ → σ} {f : PUnit → Action σ α} {s : σ} (h : Answers (f ⟨⟩) (g s)) :
    Answers (modify g >>= f) s := by
  unfold Answers
  rwa [step_modify_bind]

theorem modify (f : σ → σ) (s : σ) : Answers (modify f : Action σ PUnit) s := ⟨⟨⟩, f s, rfl⟩

/-- An action that does not fail is followed by others that do not. -/
theorem bind {x : Action σ α} {f : α → Action σ β} {s : σ} (hx : Answers x s)
    (hf : ∀ a t, x.step s = (.ok a, t) → Answers (f a) t) : Answers (x >>= f) s := by
  obtain ⟨a, t, hstep⟩ := hx
  unfold Answers
  rw [step_bind_of_ok hstep]
  exact hf a t hstep

/-- What is done with the state that is looked at does not fail. -/
theorem get_bind {f : σ → Action σ α} {s : σ} (h : Answers (f s) s) : Answers (get >>= f) s := by
  unfold Answers
  rwa [step_get_bind]

end Answers

/-! ### Actions that fail before they change anything -/

namespace Atomic

variable {view : σ → ρ} {s : σ}

/-- What does not fail is atomic. -/
theorem of_answers {x : Action σ α} (h : Answers x s) : Atomic view x s := by
  obtain ⟨a, t, hstep⟩ := h
  intro fault u herror
  rw [hstep] at herror
  cases herror

/-- What is left as it was shows no change. -/
theorem of_stay {x : Action σ α} {answer : Except Fault α} (h : x.step s = (answer, s)) :
    Atomic view x s := by
  intro fault u herror
  cases h.symm.trans herror
  rfl

/-- An action that does on a state what another one does is atomic there if that one is. -/
theorem congr {x y : Action σ α} (h : x.step s = y.step s) (hy : Atomic view y s) :
    Atomic view x s := by
  unfold Atomic
  rwa [h]

theorem pure (a : α) : Atomic view (pure a : Action σ α) s := of_answers (.pure a s)

theorem modify (f : σ → σ) : Atomic view (modify f : Action σ PUnit) s := of_answers (.modify f s)

theorem set (t : σ) : Atomic view (set t : Action σ PUnit) s := of_answers ⟨⟨⟩, t, rfl⟩

/-- To fail or not without a look at the state is atomic. -/
theorem ofExcept (e : Except Fault α) : Atomic view (ofExcept e : Action σ α) s :=
  of_stay (step_ofExcept e s)

/-- To fail at once is atomic. -/
theorem throw (fault : Fault) : Atomic view (throw fault : Action σ α) s :=
  ofExcept (.error fault)

/-- Only the first of two actions fails. -/
theorem bind {x : Action σ α} {f : α → Action σ β} (hx : Atomic view x s)
    (hf : ∀ a t, x.step s = (.ok a, t) → Answers (f a) t) : Atomic view (x >>= f) s := by
  intro fault u h
  rcases step_bind_cases x f s with ⟨a, t, hstep, hrun⟩ | ⟨e, t, hstep, hrun⟩ <;> rw [hrun] at h
  · obtain ⟨b, v, hanswer⟩ := hf a t hstep
    rw [hanswer] at h
    cases h
  · cases h
    exact hx _ _ hstep

/-- The answer of an action may be changed. -/
theorem map {x : Action σ α} (hx : Atomic view x s) (f : α → β) :
    Atomic view (do return f (← x) : Action σ β) s :=
  hx.bind fun _ _ _ => .pure _ _

/-- To look at the state first changes nothing. -/
theorem get_bind {f : σ → Action σ α} (h : Atomic view (f s) s) : Atomic view (get >>= f) s :=
  congr (step_get_bind f s) h

/-- An action that is taken only on an answer is atomic if it is so on that answer. -/
theorem ofExcept_bind {e : Except Fault α} {f : α → Action σ β}
    (h : ∀ a, e = .ok a → Atomic view (f a) s) : Atomic view (Action.ofExcept e >>= f) s := by
  cases e with
  | error fault => exact Atomic.throw fault
  | ok a => exact h a rfl

/-- An action that is taken only if a demand is met is atomic if it is so then. -/
theorem demand_bind {condition : Bool} {fault : Fault} {f : Unit → Action σ α}
    (h : condition = true → Atomic view (f ()) s) :
    Atomic view (demand condition fault >>= f) s := by
  cases condition with
  | false => exact Atomic.throw fault
  | true => exact h rfl

/-! ### Pairs of states -/

/-- An atomic action on the first of two states leaves that state if it fails. -/
theorem onFst {x : Action σ α} {p : σ × τ} (h : Atomic id x p.1) :
    Atomic Prod.fst (Action.onFst x : Action (σ × τ) α) p := by
  intro fault u hstep
  cases hstep' : x.step p.1 with
  | mk answer t =>
    have heq : (Action.onFst x : Action (σ × τ) α).step p = (answer, (t, p.2)) := by
      rw [step_onFst, hstep']
    cases heq.symm.trans hstep
    exact h fault t hstep'

/-- An atomic action on the second of two states leaves both if it fails. -/
theorem onSnd {x : Action τ α} {p : σ × τ} (h : Atomic id x p.2) :
    Atomic id (Action.onSnd x : Action (σ × τ) α) p := by
  intro fault u hstep
  obtain ⟨hfst, hsnd⟩ := of_step_onSnd_eq hstep
  exact Prod.ext hfst (h fault u.2 hsnd)

/-- An action on the second state leaves the first, whether or not it fails. -/
theorem onSnd_bind {x : Action τ α} {f : α → Action (σ × τ) β} {p : σ × τ}
    (h : ∀ a c, x.step p.2 = (.ok a, c) → Atomic Prod.fst (f a) (p.1, c)) :
    Atomic Prod.fst (Action.onSnd x >>= f) p := by
  intro fault u hstep
  rcases step_bind_cases (Action.onSnd x) f p with ⟨a, t, hx, hrun⟩ | ⟨e, t, hx, hrun⟩ <;>
    rw [hrun] at hstep <;> obtain ⟨hfst, hsnd⟩ := of_step_onSnd_eq hx
  · have heq : t = (p.1, t.2) := Prod.ext hfst rfl
    rw [heq] at hstep
    exact h a t.2 hsnd fault u hstep
  · cases hstep
    exact hfst

end Atomic

end Action

end OrderedHash
