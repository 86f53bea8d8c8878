import Mathlib.Logic.Function.Basic
import OrderedHash.Index.Node

namespace OrderedHash

/-!
# Blocks of buckets

Buckets lie in blocks of memory, which come from allocators and are given back to them. What
the holder of some blocks does to the memory is described by the addresses that are held before
and after (`Memory.Changes`): a block that is held after was held before or is new, one that is
not held any more is free, and other blocks are left alone. Changes follow one another
(`Changes.trans`), and more may be held than is changed (`Changes.frame`).
-/

open Function (update)

/-- Buckets, and the allocator they came from. -/
structure Block where
  nodes : Array Node
  allocator : Nat

/-- Blocks by address, all of them below the address of the next one. -/
structure Memory where
  block : Nat → Option Block
  next : Nat
  block_eq_none : ∀ p, next ≤ p → block p = none

namespace Memory

/-- Memory without blocks. -/
def vacant : Memory := ⟨fun _ => none, 0, fun _ _ => rfl⟩

variable (m : Memory)

/-- The address of a new block, if there is to be one, and the memory with it. -/
def place : Option Block → Option Nat × Memory
  | none => (none, m)
  | some b => (some m.next,
    { block := update m.block m.next (some b)
      next := m.next + 1
      block_eq_none := fun p hp => by
        rw [Function.update_of_ne (by omega)]
        exact m.block_eq_none p (by omega) })

/-- Puts something else in the place of a block. -/
def alter (p : Nat) (f : Block → Option Block) : Memory where
  block := update m.block p ((m.block p).bind f)
  next := m.next
  block_eq_none q hq := by
    have hnone := m.block_eq_none q hq
    by_cases hqp : q = p
    · subst hqp
      rw [Function.update_self, hnone]
      rfl
    · rwa [Function.update_of_ne hqp]

/-- Gives a block back to an allocator. It stays unless it came from this allocator and has as
    many buckets as are said. -/
def free (p allocator count : Nat) : Memory :=
  m.alter p fun b => if b.allocator = allocator ∧ b.nodes.size = count then none else some b

/-- Writes all the buckets of a block. -/
def write (p : Nat) (nodes : Array Node) : Memory := m.alter p fun b => some { b with nodes }

/-- The node in a bucket of a block. -/
def node (p b : Nat) : Node :=
  match m.block p with
  | some block => block.nodes.getD b .empty
  | none => .empty

/-- A block that is altered is what it was altered to. -/
theorem block_alter_self (p : Nat) (f : Block → Option Block) :
    (m.alter p f).block p = (m.block p).bind f :=
  Function.update_self _ _ _

/-- The other blocks stay when one is altered. -/
theorem block_alter_of_ne {p q : Nat} (hq : q ≠ p) (f : Block → Option Block) :
    (m.alter p f).block q = m.block q :=
  Function.update_of_ne hq _ _

/-! ### Changes -/

/-- What changes in a memory by the doings of one who holds the blocks at some addresses before
    and at some after. -/
structure Changes (before : Nat → Prop) (m : Memory) (after : Nat → Prop) (m' : Memory) :
    Prop where
  new : ∀ p, after p → before p ∨ m.block p = none
  freed : ∀ p, before p → ¬ after p → m'.block p = none
  other : ∀ p, ¬ before p → ¬ after p → m'.block p = m.block p

variable {m}

/-- Nothing changes of itself. -/
theorem Changes.refl (held : Nat → Prop) (m : Memory) : Changes held m held m where
  new _ hp := Or.inl hp
  freed _ hp hnot := absurd hp hnot
  other _ _ _ := rfl

/-- Two changes to the memory make up one. -/
theorem Changes.trans {first second third : Nat → Prop} {m m' m'' : Memory}
    (h : Changes first m second m') (h' : Changes second m' third m'') :
    Changes first m third m'' where
  new p hp := by
    by_cases hsecond : second p
    · exact h.new p hsecond
    · -- what is held at the end but not in between was free in between
      refine (em (first p)).imp_right fun hfirst => ?_
      rw [← h.other p hfirst hsecond]
      exact (h'.new p hp).resolve_left hsecond
  freed p hp hthird := by
    by_cases hsecond : second p
    · exact h'.freed p hsecond hthird
    · -- what was given back at first has not been touched since
      rw [h'.other p hsecond hthird]
      exact h.freed p hp hsecond
  other p hp hthird := by
    by_cases hsecond : second p
    · rw [h'.freed p hsecond hthird]
      exact ((h.new p hsecond).resolve_left hp).symm
    · rw [h'.other p hsecond hthird, h.other p hp hsecond]

/-- A change depends only on which blocks are held. -/
theorem Changes.congr {before after before' after' : Nat → Prop} {m' : Memory}
    (h : Changes before m after m') (hbefore : ∀ p, before p ↔ before' p)
    (hafter : ∀ p, after p ↔ after' p) : Changes before' m after' m' := by
  obtain rfl : before = before' := funext fun p => propext (hbefore p)
  obtain rfl : after = after' := funext fun p => propext (hafter p)
  exact h

/-- Of the blocks that are held some may be left alone. -/
theorem Changes.frame {before after : Nat → Prop} {m' : Memory} (h : Changes before m after m')
    (held : Nat → Prop) :
    Changes (fun p => before p ∨ held p) m (fun p => after p ∨ held p) m' where
  new p hp :=
    hp.elim (fun hafter => (h.new p hafter).imp_left Or.inl) fun hheld => .inl (.inr hheld)
  freed p hp hnot := by
    obtain ⟨hafter, hheld⟩ := not_or.mp hnot
    exact h.freed p (hp.resolve_right hheld) hafter
  other p hp hnot := h.other p (fun hbefore => hp (.inl hbefore)) fun hafter => hnot (.inl hafter)

/-- A new block is held. -/
theorem changes_place (b : Option Block) :
    Changes (fun _ => False) m (fun p => (m.place b).1 = some p) (m.place b).2 := by
  cases b with
  | none => exact ⟨nofun, fun _ hp => hp.elim, fun _ _ _ => rfl⟩
  | some b =>
    refine ⟨fun p hp => ?_, fun p hp => hp.elim, fun p _ hp => ?_⟩
    · obtain rfl : m.next = p := Option.some.inj hp
      exact .inr (m.block_eq_none _ (Nat.le_refl _))
    · exact Function.update_of_ne (fun hpn => hp (congrArg some hpn.symm)) _ _

/-- There is a place for every block. -/
theorem place_eq_none {b : Option Block} : (m.place b).1 = none ↔ b = none := by
  cases b <;> simp [place]

/-- A block that was placed is at its place. -/
theorem block_place {b : Option Block} {p : Nat} (hp : (m.place b).1 = some p) :
    (m.place b).2.block p = b := by
  cases b with
  | none => cases hp
  | some b =>
    obtain rfl : m.next = p := Option.some.inj hp
    exact Function.update_self _ _ _

/-- A block that is freed is held no longer. -/
theorem changes_free {p : Nat} {b : Block} (hb : m.block p = some b) :
    Changes (fun q => p = q) m (fun _ => False) (m.free p b.allocator b.nodes.size) := by
  refine ⟨fun _ hq => hq.elim, ?_, fun _ hq _ => m.block_alter_of_ne (Ne.symm hq) _⟩
  rintro q rfl -
  rw [free, block_alter_self, hb, Option.bind_some, if_pos ⟨rfl, rfl⟩]

/-- A block that was written to has the new nodes. -/
theorem block_write {p : Nat} {b : Block} (hb : m.block p = some b) (nodes : Array Node) :
    (m.write p nodes).block p = some { b with nodes } := by
  rw [write, block_alter_self, hb, Option.bind_some]

/-- A block that is written to is still held. -/
theorem changes_write (p : Nat) (nodes : Array Node) :
    Changes (fun q => p = q) m (fun q => p = q) (m.write p nodes) :=
  ⟨fun _ hq => .inl hq, fun _ hq hnot => absurd hq hnot,
    fun _ hq _ => m.block_alter_of_ne (Ne.symm hq) _⟩

end Memory

end OrderedHash
