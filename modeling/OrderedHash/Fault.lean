namespace OrderedHash

/-!
# Faults and actions

A container operation either answers or fails with a `Fault`. An `Action` runs on a
state and leaves a state behind in both cases, so that what a failed operation has
done to its container can be seen and stated.
-/

/-- The ways in which an operation on a container can fail. -/
inductive Fault where
  /-- A position is not below its bound. -/
  | positionOutOfRange
  /-- The two ends of a range are not ordered, or the range passes the end. -/
  | invalidRange
  /-- A container is split past its end. -/
  | splitOutOfRange
  /-- A key that has to be present is absent. -/
  | keyNotFound
  /-- The item of a key handle was removed through it. -/
  | entryConsumed
  /-- A key handle has to designate an item and does not. -/
  | entryVacant
  /-- A key handle must not designate an item and does. -/
  | entryOccupied
  /-- The item of a position handle was removed through it. -/
  | indexedEntryConsumed
  /-- A function given by the caller failed, for a reason of its own. -/
  | client (reason : String)
  deriving DecidableEq, Repr

/-- The text by which a fault is reported. -/
def Fault.message : Fault → String
  | .positionOutOfRange => "ordered container: position out of range"
  | .invalidRange => "ordered container: invalid range"
  | .splitOutOfRange => "ordered container: split position out of range"
  | .keyNotFound => "ordered_map: key not found"
  | .entryConsumed => "ordered_entry: entry already consumed"
  | .entryVacant => "ordered_entry: entry is vacant"
  | .entryOccupied => "ordered_entry: entry is occupied"
  | .indexedEntryConsumed => "ordered_indexed_entry: entry already consumed"
  | .client reason => reason

/-- A step on a state `σ` that answers or fails, and leaves a state either way. -/
abbrev Action (σ α : Type) := ExceptT Fault (StateM σ) α

namespace Action

variable {σ τ α β : Type}

/-- An action given by its transition function. -/
def ofStep (step : σ → Except Fault α × σ) : Action σ α := ExceptT.mk step

/-- The outcome of an action and the state it leaves. -/
def step (action : Action σ α) (s : σ) : Except Fault α × σ := action.run.run s

/-- An answer or a fault that does not depend on the state. -/
def ofExcept : Except Fault α → Action σ α
  | .ok a => pure a
  | .error e => throw e

/-- Fails with the given fault unless the condition holds. -/
def demand (condition : Bool) (fault : Fault) : Action σ Unit :=
  if condition then pure () else throw fault

/-- Runs an action on the first of two states. -/
def onFst (action : Action σ α) : Action (σ × τ) α :=
  ofStep fun (s, t) => let (r, s) := action.step s; (r, (s, t))

/-- Runs an action on the second of two states. -/
def onSnd (action : Action τ α) : Action (σ × τ) α :=
  ofStep fun (s, t) => let (r, t) := action.step t; (r, (s, t))

/-- Runs an action for each element of a list in turn, stopping at the first fault. -/
def forEach (f : α → Action σ Unit) : List α → Action σ Unit
  | [] => pure ()
  | a :: rest => do f a; forEach f rest

/-! ### The step of each way to build an action -/

@[simp] theorem step_ofStep (f : σ → Except Fault α × σ) (s : σ) : (ofStep f).step s = f s := rfl

@[simp] theorem step_pure (a : α) (s : σ) : (pure a : Action σ α).step s = (.ok a, s) := rfl

@[simp] theorem step_throw (e : Fault) (s : σ) :
    (throw e : Action σ α).step s = (.error e, s) := rfl

@[simp] theorem step_get (s : σ) : (get : Action σ σ).step s = (.ok s, s) := rfl

@[simp] theorem step_set (s s' : σ) : (set s' : Action σ PUnit).step s = (.ok ⟨⟩, s') := rfl

@[simp] theorem step_modify (f : σ → σ) (s : σ) :
    (modify f : Action σ PUnit).step s = (.ok ⟨⟩, f s) := rfl

/-- A sequence of two actions goes on from the state that the first leaves, unless the
    first fails. -/
theorem step_bind (x : Action σ α) (f : α → Action σ β) (s : σ) :
    (x >>= f).step s =
      match x.step s with
      | (.ok a, s) => (f a).step s
      | (.error e, s) => (.error e, s) := by
  simp only [step, ExceptT.run_bind, StateT.run_bind]
  rcases x.run.run s with ⟨_ | _, _⟩ <;> rfl

@[simp] theorem step_onFst (action : Action σ α) (s : σ) (t : τ) :
    (onFst action).step (s, t) = ((action.step s).1, ((action.step s).2, t)) := rfl

@[simp] theorem step_onSnd (action : Action τ α) (s : σ) (t : τ) :
    (onSnd action).step (s, t) = ((action.step t).1, (s, (action.step t).2)) := rfl

end Action

end OrderedHash
