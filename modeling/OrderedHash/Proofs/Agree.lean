import OrderedHash.Fault

namespace OrderedHash

namespace Action

/-!
# Runs that cannot be told apart

Two outcomes `Agree` if they have the same answer or the same fault and leave related
states. Agreement goes through sequences (`Agree.bind`), through the two lifts to pairs of
states (`Agree.onFst`, `Agree.onSnd`) and through loops (`Agree.forEach`).

Where an action agrees only if it leaves a state that is not too large, a loop needs to
know that no round leaves a smaller state than it found.
-/

variable {σ σ' τ α β : Type}

/-! ### The step of each way to build an action, continued -/

@[simp] theorem step_ofExcept (e : Except Fault α) (s : σ) : (ofExcept e).step s = (e, s) := by
  cases e <;> rfl

@[simp] theorem step_demand (condition : Bool) (fault : Fault) (s : σ) :
    (demand condition fault).step s = (if condition then .ok () else .error fault, s) := by
  cases condition <;> rfl

/-- A sequence goes on where its first part ends. -/
theorem step_bind_of_ok {x : Action σ α} {a : α} {s t : σ} (h : x.step s = (.ok a, t))
    (f : α → Action σ β) : (x >>= f).step s = (f a).step t := by
  rw [step_bind, h]

/-- A sequence fails where its first part does. -/
theorem step_bind_of_error {x : Action σ α} {e : Fault} {s t : σ} (h : x.step s = (.error e, t))
    (f : α → Action σ β) : (x >>= f).step s = (.error e, t) := by
  rw [step_bind, h]

@[simp] theorem step_get_bind (f : σ → Action σ α) (s : σ) :
    (get >>= f).step s = (f s).step s := by
  rw [step_bind_of_ok (step_get s)]

@[simp] theorem step_set_bind (s' : σ) (f : PUnit → Action σ α) (s : σ) :
    (set s' >>= f).step s = (f ⟨⟩).step s' := by
  rw [step_bind_of_ok (step_set s s')]

@[simp] theorem step_modify_bind (g : σ → σ) (f : PUnit → Action σ α) (s : σ) :
    (modify g >>= f).step s = (f ⟨⟩).step (g s) := by
  rw [step_bind_of_ok (step_modify g s)]

@[simp] theorem step_pure_bind (a : α) (f : α → Action σ β) (s : σ) :
    (pure a >>= f).step s = (f a).step s := by
  rw [step_bind_of_ok (step_pure a s)]

@[simp] theorem step_throw_bind (e : Fault) (f : α → Action σ β) (s : σ) :
    (throw e >>= f).step s = (.error e, s) := by
  rw [step_bind_of_error (step_throw e s)]

/-- A demand that is met changes nothing. -/
theorem step_demand_bind {condition : Bool} (h : condition = true) (fault : Fault)
    (f : Unit → Action σ α) (s : σ) : (demand condition fault >>= f).step s = (f ()).step s := by
  rw [h]
  rfl

/-- A sequence leaves either a state of the second action or the state after which the
    first one failed. -/
theorem step_bind_cases (x : Action σ α) (f : α → Action σ β) (s : σ) :
    (∃ a t, x.step s = (.ok a, t) ∧ (x >>= f).step s = (f a).step t) ∨
      ∃ e t, x.step s = (.error e, t) ∧ (x >>= f).step s = (.error e, t) := by
  rcases hx : x.step s with ⟨e | a, t⟩
  · exact Or.inr ⟨e, t, rfl, step_bind_of_error hx f⟩
  · exact Or.inl ⟨a, t, rfl, step_bind_of_ok hx f⟩

/-- A sequence that answers has run both of its parts. -/
theorem of_step_bind_eq_ok {x : Action σ α} {f : α → Action σ β} {s u : σ} {b : β}
    (h : (x >>= f).step s = (.ok b, u)) :
    ∃ a t, x.step s = (.ok a, t) ∧ (f a).step t = (.ok b, u) := by
  rcases step_bind_cases x f s with ⟨a, t, hx, hstep⟩ | ⟨e, t, -, hstep⟩
  · exact ⟨a, t, hx, hstep ▸ h⟩
  · rw [hstep] at h
    cases h

/-- Only the first of two actions matters for the state if the second changes none. -/
theorem step_bind_snd {x : Action σ α} {f : α → Action σ β} (hf : ∀ a t, ((f a).step t).2 = t)
    (s : σ) : ((x >>= f).step s).2 = (x.step s).2 := by
  rcases hx : x.step s with ⟨e | a, t⟩
  · rw [step_bind_of_error hx]
  · rw [step_bind_of_ok hx, hf]

/-- Changing the answer of an action leaves the same state. -/
theorem step_map_snd (x : Action σ α) (f : α → β) (s : σ) :
    ((do return f (← x) : Action σ β).step s).2 = (x.step s).2 :=
  step_bind_snd (fun _ _ => rfl) s

/-- What is done to the second of two states afterwards leaves the first. -/
theorem step_bind_modify_fst (x : Action (σ × τ) Unit) (f : τ → τ) (p : σ × τ) :
    ((x >>= fun _ => modify fun p => (p.1, f p.2)).step p).2.1 = (x.step p).2.1 := by
  rcases step_bind_cases x (fun _ => modify fun p => (p.1, f p.2)) p with
    ⟨_, q, hx, hrun⟩ | ⟨_, q, hx, hrun⟩ <;> rw [hrun, hx]
  rfl

/-- An action on the second of two states leaves the first one. -/
theorem of_step_onSnd_eq {x : Action τ α} {p u : σ × τ} {r : Except Fault α}
    (h : (onSnd x : Action (σ × τ) α).step p = (r, u)) : u.1 = p.1 ∧ x.step p.2 = (r, u.2) := by
  cases h
  exact ⟨rfl, rfl⟩

/-! ### Agreement -/

/-- Two outcomes with the same answer or the same fault, and with related states. -/
structure Agree (R : σ → σ' → Prop) (r : Except Fault α × σ) (r' : Except Fault α × σ') :
    Prop where
  answer : r'.1 = r.1
  state : R r.2 r'.2

/-- Pairs with related first components and one and the same second component. -/
structure Beside (R : σ → σ' → Prop) (s : σ × τ) (s' : σ' × τ) : Prop where
  fst : R s.1 s'.1
  snd : s'.2 = s.2

/-- States that are beside each other have one part in common. -/
theorem Beside.pairs {R : σ → σ' → Prop} {s : σ × τ} {s' : σ' × τ} (h : Beside R s s') :
    ∃ a a' c, s = (a, c) ∧ s' = (a', c) ∧ R a a' :=
  ⟨s.1, s'.1, s.2, rfl, Prod.ext rfl h.snd, h.fst⟩

namespace Agree

variable {R : σ → σ' → Prop} {s : σ} {s' : σ'}

/-- Actions that do nothing agree. -/
theorem pure (h : R s s') (a : α) : Agree R ((pure a : Action σ α).step s)
    ((pure a : Action σ' α).step s') :=
  ⟨rfl, h⟩

/-- Actions that fail with the same fault agree. -/
theorem throw (h : R s s') (e : Fault) : Agree R ((throw e : Action σ α).step s)
    ((throw e : Action σ' α).step s') :=
  ⟨rfl, h⟩

/-- Changes agree that lead to related states. -/
theorem modify {f : σ → σ} {f' : σ' → σ'} (h : R (f s) (f' s')) :
    Agree R ((modify f : Action σ PUnit).step s) ((modify f' : Action σ' PUnit).step s') :=
  ⟨rfl, h⟩

/-- Agreement of a sequence from that of its parts. The second part may use what is known
    about the outcome of the first. -/
theorem bind {R' : σ → σ' → Prop} {x : Action σ α} {x' : Action σ' α} {f : α → Action σ β}
    {f' : α → Action σ' β} (hx : Agree R' (x.step s) (x'.step s'))
    (herror : ∀ e t t', x.step s = (.error e, t) → R' t t' → R t t')
    (hok : ∀ a t t', x.step s = (.ok a, t) → R' t t' → Agree R ((f a).step t) ((f' a).step t')) :
    Agree R ((x >>= f).step s) ((x' >>= f').step s') := by
  -- the first parts answer the same, so that both go on or both stop
  rcases hx' : x'.step s' with ⟨r', t'⟩
  rcases hx₀ : x.step s with ⟨r, t⟩
  rw [hx', hx₀] at hx
  have heq : r' = r := hx.answer
  have hR : R' t t' := hx.state
  subst heq
  cases r' with
  | error e =>
    rw [step_bind_of_error hx₀, step_bind_of_error hx']
    exact ⟨rfl, herror e t t' hx₀ hR⟩
  | ok a =>
    rw [step_bind_of_ok hx₀, step_bind_of_ok hx']
    exact hok a t t' hx₀ hR

/-- The answer of an action may be changed. -/
theorem map {x : Action σ α} {x' : Action σ' α} (hx : Agree R (x.step s) (x'.step s'))
    (f : α → β) : Agree R ((do return f (← x) : Action σ β).step s)
      ((do return f (← x') : Action σ' β).step s') :=
  hx.bind (fun _ _ _ _ h => h) fun a _ _ _ h => Agree.pure h (f a)

/-- What does not depend on the states may come first. -/
theorem ofExcept (h : R s s') {e : Except Fault α} {f : α → Action σ β} {f' : α → Action σ' β}
    (hok : ∀ a, e = .ok a → Agree R ((f a).step s) ((f' a).step s')) :
    Agree R ((ofExcept e >>= f).step s) ((ofExcept e >>= f').step s') := by
  cases e with
  | error e => exact Agree.throw h e
  | ok a => exact hok a rfl

/-- A condition on which both runs go on. -/
theorem demand (h : R s s') {condition : Bool} {fault : Fault} {f : Unit → Action σ α}
    {f' : Unit → Action σ' α}
    (hok : condition = true → Agree R ((f ()).step s) ((f' ()).step s')) :
    Agree R ((demand condition fault >>= f).step s) ((demand condition fault >>= f').step s') := by
  cases condition with
  | false => exact Agree.throw h fault
  | true => exact hok rfl

/-! ### Pairs of states -/

/-- Actions agree on the first of two states if the second ones are the same. -/
theorem onFst {x : Action σ α} {x' : Action σ' α} {p : σ × τ} {p' : σ' × τ}
    (h : Agree R (x.step p.1) (x'.step p'.1)) (hsnd : p'.2 = p.2) :
    Agree (Beside R) ((onFst x : Action (σ × τ) α).step p) ((onFst x' : Action (σ' × τ) α).step p') :=
  ⟨h.answer, ⟨h.state, hsnd⟩⟩

/-- An action on the second of two states agrees with itself if they are the same. -/
theorem onSnd {p : σ × τ} {p' : σ' × τ} (h : Beside R p p') (y : Action τ α) :
    Agree (Beside R) ((onSnd y : Action (σ × τ) α).step p) ((onSnd y : Action (σ' × τ) α).step p') := by
  obtain ⟨hfst, hsnd⟩ := h
  cases p
  cases p'
  cases hsnd
  exact ⟨rfl, ⟨hfst, rfl⟩⟩

end Agree

/-! ### Loops -/

section forEach

variable {P : σ → Prop} {f : α → Action σ Unit} {f' : α → Action σ' Unit}

/-- What an action presupposes of the state it was run on, a loop presupposes as well. -/
theorem of_step_forEach (hback : ∀ a s, P ((f a).step s).2 → P s) (l : List α) (s : σ)
    (h : P ((forEach f l).step s).2) : P s := by
  induction l generalizing s with
  | nil => exact h
  | cons a rest ih =>
    rw [forEach] at h
    refine hback a s ?_
    rcases step_bind_cases (f a) (fun _ => forEach f rest) s with ⟨_, t, hx, hstep⟩ | ⟨e, t, hx, hstep⟩
    · rw [hstep] at h
      rw [hx]
      exact ih t h
    · rw [hstep] at h
      rwa [hx]

/-- What a loop answers depends on the states as little as what its rounds answer. -/
theorem answer_forEach (hf : ∀ a s s', ((f' a).step s').1 = ((f a).step s).1) (l : List α) (s : σ)
    (s' : σ') : ((forEach f' l).step s').1 = ((forEach f l).step s).1 := by
  induction l generalizing s s' with
  | nil => rfl
  | cons a rest ih =>
    have hfirst := hf a s s'
    rw [forEach, forEach]
    rcases hx : (f a).step s with ⟨e | ⟨⟩, t⟩ <;> rcases hx' : (f' a).step s' with ⟨e' | ⟨⟩, t'⟩ <;>
      rw [hx, hx'] at hfirst
    · rw [step_bind_of_error hx, step_bind_of_error hx']
      exact hfirst
    · cases hfirst
    · cases hfirst
    · rw [step_bind_of_ok hx, step_bind_of_ok hx']
      exact ih t t'

/-- A loop comes to its end if all of its rounds do. -/
theorem answer_forEach_of_ok {l : List α} (hf : ∀ a ∈ l, ∀ s, ((f a).step s).1 = .ok ()) (s : σ) :
    ((forEach f l).step s).1 = .ok () := by
  induction l generalizing s with
  | nil => rfl
  | cons a rest ih =>
    obtain ⟨hfirst, hrest⟩ := List.forall_mem_cons.mp hf
    rw [forEach, step_bind_of_ok (a := ()) (t := ((f a).step s).2) (Prod.ext (hfirst s) rfl)]
    exact ih hrest _

/-- Loops agree if their steps do, as long as a property holds that no step can restore. -/
theorem Agree.forEach {R : σ → σ' → Prop}
    (hstep : ∀ a s s', R s s' → P ((f a).step s).2 → Agree R ((f a).step s) ((f' a).step s'))
    (hback : ∀ a s, P ((f a).step s).2 → P s) (l : List α) {s : σ} {s' : σ'} (h : R s s')
    (hP : P ((forEach f l).step s).2) :
    Agree R ((forEach f l).step s) ((forEach f' l).step s') := by
  induction l generalizing s s' with
  | nil => exact Agree.pure h ()
  | cons a rest ih =>
    rw [Action.forEach] at hP
    rw [Action.forEach, Action.forEach]
    -- the first round leaves a state from which the others still have room
    have hfirst : P ((f a).step s).2 := by
      rcases step_bind_cases (f a) (fun _ => Action.forEach f rest) s with
        ⟨_, t, hx, hrun⟩ | ⟨e, t, hx, hrun⟩
      · rw [hrun] at hP
        rw [hx]
        exact of_step_forEach hback rest t hP
      · rw [hrun] at hP
        rwa [hx]
    refine (hstep a s s' h hfirst).bind (fun _ _ _ _ h => h) fun _ t t' hx hR => ih hR ?_
    rwa [step_bind_of_ok hx] at hP

end forEach

end Action

end OrderedHash
