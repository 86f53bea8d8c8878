namespace OrderedHash

/-!
# Reading from a byte stream

A source holds the bytes not yet read. Once a reader has met the end of the bytes, or has
failed, every later read fails.
-/

/-- Bytes as they are stored, compared as unsigned numbers. -/
abbrev Bytes := List UInt8

/-- A stream that is being read. -/
structure Source where
  /-- The bytes not yet read. -/
  rest : Bytes
  /-- Whether a reader has looked past the last byte. -/
  ended : Bool
  /-- Whether a reader has failed. -/
  failed : Bool
  deriving DecidableEq

/-- A step on a source that answers or fails. -/
abbrev Reader (α : Type) := OptionT (StateM Source) α

namespace Source

/-- The source of the given bytes. -/
def ofBytes (bytes : Bytes) : Source := ⟨bytes, false, false⟩

/-- Whether the source can be read from. -/
def isGood (s : Source) : Bool := !s.ended && !s.failed

end Source

namespace Reader

variable {α β : Type}

/-- A reader given by its transition function. -/
def ofStep (step : Source → Option α × Source) : Reader α := OptionT.mk step

/-- The answer of a reader and the source it leaves. -/
def step (r : Reader α) (s : Source) : Option α × Source := r.run.run s

/-- Marks the source as failed. -/
def fail : Reader α := ofStep fun s => (none, { s with failed := true })

/-- Fails unless the source can be read from. -/
def ready : Reader Unit :=
  ofStep fun s => if s.isGood then (some (), s) else (none, { s with failed := true })

/-- The bytes that count as white space: the space and the codes 9 to 13. -/
def isBlank (b : UInt8) : Bool := b == 32 || (9 ≤ b && b ≤ 13)

/-- Fails unless the source can be read from and has a byte that is not white space, up
    to which it is read. -/
def readyAfterBlanks : Reader Unit := do
  ready
  ofStep fun s =>
    match s.rest.dropWhile isBlank with
    | [] => (none, ⟨[], true, true⟩)
    | rest => (some (), { s with rest })

/-- The next byte. -/
def byte : Reader UInt8 := do
  ready
  ofStep fun s =>
    match s.rest with
    | [] => (none, ⟨[], true, true⟩)
    | b :: rest => (some b, { s with rest })

/-- The next `count` bytes. -/
def block (count : Nat) : Reader Bytes := do
  ready
  ofStep fun s =>
    let (taken, rest) := s.rest.splitAt count
    if taken.length = count then (some taken, { s with rest }) else (none, ⟨[], true, true⟩)

/-- The leading bytes that pass a test. The end counts as looked past if they are all
    that is left. -/
def span (test : UInt8 → Bool) : Reader Bytes :=
  ofStep fun s =>
    let rest := s.rest.dropWhile test
    (some (s.rest.takeWhile test), { s with rest, ended := s.ended || rest.isEmpty })

/-- The next byte if there is one and it passes a test. -/
def optionally (test : UInt8 → Bool) : Reader (Option UInt8) :=
  ofStep fun s =>
    match s.rest with
    | [] => (some none, { s with ended := true })
    | b :: rest => if test b then (some (some b), { s with rest }) else (some none, s)

/-! ### The step of each way to build a reader -/

@[simp] theorem step_ofStep (f : Source → Option α × Source) (s : Source) :
    (ofStep f).step s = f s := rfl

@[simp] theorem step_pure (a : α) (s : Source) : (pure a : Reader α).step s = (some a, s) := rfl

@[simp] theorem step_fail (s : Source) :
    (fail : Reader α).step s = (none, { s with failed := true }) := rfl

/-- A sequence of two readers goes on from the source that the first leaves, unless the
    first fails. -/
theorem step_bind (x : Reader α) (f : α → Reader β) (s : Source) :
    (x >>= f).step s =
      match x.step s with
      | (some a, s) => (f a).step s
      | (none, s) => (none, s) := by
  simp only [step, OptionT.run_bind, Option.elimM, StateT.run_bind]
  rcases x.run.run s with ⟨_ | _, _⟩ <;> rfl

/-- The bytes that `span` answers and those it leaves are the bytes there were. -/
theorem span_append (test : UInt8 → Bool) (s : Source) :
    ((span test).step s).1.getD [] ++ ((span test).step s).2.rest = s.rest :=
  List.takeWhile_append_dropWhile

end Reader

end OrderedHash
