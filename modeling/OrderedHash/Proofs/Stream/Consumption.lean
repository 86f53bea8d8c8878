import Mathlib.Data.List.TakeWhile
import OrderedHash.Stream.Real

namespace OrderedHash

/-!
# What readers take from a stream

A reader never puts bytes back: what it leaves is a suffix of what there was. A reader that
answers has taken bytes for its answer. `Reader.Takes` bounds their number from below by a
cost of the answer, and there is one rule for each way to build a reader.

A number, with or without a point, costs a byte (`Numeral.takes_read`, `Numeral.takes_readReal`).
-/

namespace Reader

variable {α β : Type}

/-- If a sequence of two readers answers, both have answered. -/
theorem exists_step_of_step_bind {x : Reader α} {f : α → Reader β} {s u : Source} {b : β}
    (h : (x >>= f).step s = (some b, u)) :
    ∃ a t, x.step s = (some a, t) ∧ (f a).step t = (some b, u) := by
  rw [step_bind] at h
  rcases hx : x.step s with ⟨_ | a, t⟩ <;> rw [hx] at h
  · cases h
  · exact ⟨a, t, rfl, h⟩

/-- The reader leaves a suffix of the bytes there were, and has taken at least as many bytes
    as its answer costs. -/
structure Takes (r : Reader α) (cost : α → Nat) : Prop where
  suffix : ∀ s, (r.step s).2.rest <:+ s.rest
  pays : ∀ {s a t}, r.step s = (some a, t) → cost a + t.rest.length ≤ s.rest.length

variable {r : Reader α} {cost : α → Nat}

/-- A reader that takes so many bytes takes fewer. -/
theorem Takes.mono (h : r.Takes cost) {cost' : α → Nat} (hle : ∀ a, cost' a ≤ cost a) :
    r.Takes cost' :=
  ⟨h.suffix, fun hstep => le_trans (Nat.add_le_add_right (hle _) _) (h.pays hstep)⟩

/-! ### Rules -/

/-- An answer takes no byte. -/
theorem takes_pure {a : α} (h : cost a = 0) : (pure a : Reader α).Takes cost where
  suffix s := List.suffix_rfl
  pays := by
    rintro s b t hstep
    cases hstep
    omega

/-- A failure takes no byte. -/
theorem takes_fail : (fail : Reader α).Takes cost where
  suffix s := List.suffix_rfl
  pays := by
    rintro s a t hstep
    cases hstep

/-- Of two readers in sequence the second pays what the first has not paid. -/
theorem Takes.bind (h : r.Takes cost) {f : α → Reader β} {cost' : β → Nat}
    (hf : ∀ a, (f a).Takes fun b => cost' b - cost a) : (r >>= f).Takes cost' where
  suffix s := by
    have hfirst := h.suffix s
    rw [step_bind]
    -- if the first reader fails nothing comes after it
    rcases hr : r.step s with ⟨_ | a, t⟩
    · rw [hr] at hfirst
      exact hfirst
    · rw [hr] at hfirst
      exact ((hf a).suffix t).trans hfirst
  pays := by
    intro s b u hstep
    obtain ⟨a, t, hr, hstep⟩ := exists_step_of_step_bind hstep
    have hfirst := h.pays hr
    have hsecond := (hf a).pays hstep
    -- what the first reader takes pays for its cost, and the second pays for the rest
    omega

/-- To look whether there is more takes no byte. -/
theorem takes_ready : ready.Takes fun _ => 0 where
  suffix s := by
    show ((if s.isGood then (some (), s) else (none, { s with failed := true })).2).rest <:+ s.rest
    split <;> exact List.suffix_rfl
  pays := by
    intro s a t hstep
    have hstep : (if s.isGood then (some (), s) else (none, { s with failed := true })) =
        (some a, t) := hstep
    split at hstep <;> cases hstep
    omega

/-- A transition takes what it takes when the source can be read from. -/
theorem takes_ready_bind {step : Source → Option α × Source} (h : (ofStep step).Takes cost) :
    (do ready; ofStep step : Reader α).Takes cost :=
  takes_ready.bind fun _ => h.mono fun _ => Nat.sub_le _ _

/-- Blanks may be taken or not. -/
theorem takes_readyAfterBlanks : readyAfterBlanks.Takes fun _ => 0 := by
  refine takes_ready_bind ⟨fun s => ?_, fun {s a t} hstep => ?_⟩
  · rw [step_ofStep]
    split
    · exact List.nil_suffix
    · exact List.dropWhile_suffix _
  · rw [step_ofStep] at hstep
    split at hstep <;> cases hstep
    have hle := (List.dropWhile_suffix (l := s.rest) isBlank).length_le
    simpa using hle

/-- A byte takes itself. -/
theorem takes_byte : byte.Takes fun _ => 1 := by
  refine takes_ready_bind ⟨fun s => ?_, fun {s a t} hstep => ?_⟩
  · rw [step_ofStep]
    split
    · exact List.nil_suffix
    · rename_i b rest hrest
      rw [hrest]
      exact List.suffix_cons b rest
  · rw [step_ofStep] at hstep
    split at hstep <;> cases hstep
    rename_i rest hrest
    simp [hrest, Nat.add_comm]

/-- A block is read as a whole. -/
theorem takes_block (count : Nat) : (block count).Takes fun v => max v.length count := by
  refine takes_ready_bind ⟨fun s => ?_, fun {s v t} hstep => ?_⟩
  · rw [step_ofStep, List.splitAt_eq]
    dsimp only
    split
    · exact List.drop_suffix _ _
    · exact List.nil_suffix
  · rw [step_ofStep, List.splitAt_eq] at hstep
    dsimp only at hstep
    -- all of the block was there, or the reader fails
    split at hstep
    · rename_i hlength
      cases hstep
      rw [hlength, max_self]
      rw [List.length_take] at hlength
      simp only [List.length_drop]
      omega
    · cases hstep

/-- A span takes the bytes that it answers. -/
theorem takes_span (test : UInt8 → Bool) : (span test).Takes List.length where
  suffix s := List.dropWhile_suffix _
  pays := by
    rintro s v t hstep
    cases hstep
    have hall := congrArg List.length (span_append test s)
    rw [List.length_append] at hall
    exact hall.le

/-- A byte that is optional may be taken or not. -/
theorem takes_optionally (test : UInt8 → Bool) : (optionally test).Takes fun _ => 0 := by
  refine ⟨fun s => ?_, fun {s a t} hstep => ?_⟩
  · unfold optionally
    rw [step_ofStep]
    split
    · exact List.suffix_rfl
    · rename_i b rest hrest
      split
      · rw [hrest]
        exact List.suffix_cons b rest
      · exact List.suffix_rfl
  · unfold optionally at hstep
    rw [step_ofStep] at hstep
    split at hstep
    · cases hstep
      simp
    · rename_i b rest hrest
      split at hstep <;> cases hstep
      · simp [hrest]
      · simp

end Reader

/-! ### Numbers -/

namespace Numeral

open Reader

/-- A number with a sign takes its digits at least. -/
theorem takes_signed : signed.Takes fun p => p.2.length :=
  (takes_optionally _).bind fun _ => (takes_span isDigit).bind fun _ =>
    takes_pure (Nat.sub_eq_zero_of_le (Nat.sub_le _ _))

/-- A number has a digit. -/
theorem takes_read : read.Takes fun _ => 1 := by
  refine takes_readyAfterBlanks.bind fun _ => takes_signed.bind fun p => ?_
  obtain ⟨negative, digits⟩ := p
  dsimp only
  split
  · exact takes_fail
  · rename_i hdigits
    have hpos := List.length_pos_iff.mpr fun h => hdigits (List.isEmpty_iff.mpr h)
    exact takes_pure (by omega)

/-- An integer of a type takes a byte at least. -/
theorem takes_readIn (r : IntRange) : (readIn r).Takes fun _ => 1 := by
  refine takes_read.bind fun p => ?_
  dsimp only
  split
  · exact takes_pure rfl
  · exact takes_fail

/-- A natural number of a type takes a byte at least. -/
theorem takes_readModulo (r : IntRange) : (readModulo r).Takes fun _ => 1 := by
  refine takes_read.bind fun p => ?_
  dsimp only
  split
  · exact takes_pure rfl
  · exact takes_fail

/-- A size takes a byte at least. -/
theorem takes_readSize : readSize.Takes fun _ => 1 :=
  (takes_readModulo _).bind fun _ => takes_pure rfl

/-- An exponent may be taken or not. -/
theorem takes_readExponent : readExponent.Takes fun _ => 0 := by
  refine (takes_optionally _).bind fun found => ?_
  cases found with
  | none => exact takes_pure rfl
  | some b =>
    refine takes_signed.bind fun p => ?_
    dsimp only
    split
    · exact takes_fail
    · exact takes_pure (Nat.zero_sub _)

/-- What is read only if there are digits before or behind a point is paid for by these. -/
theorem takes_unless_isEmpty {α : Type} {r : Reader α} (h : r.Takes fun _ => 0)
    (whole fraction : Bytes) :
    (if whole.isEmpty && fraction.isEmpty then fail else r).Takes
      fun _ => 1 - whole.length - fraction.length := by
  split
  · exact takes_fail
  · rename_i hdigits
    have hpos : 0 < whole.length + fraction.length := by
      by_contra hzero
      have hwhole := List.eq_nil_of_length_eq_zero (show whole.length = 0 by omega)
      have hfraction := List.eq_nil_of_length_eq_zero (show fraction.length = 0 by omega)
      exact hdigits (by rw [hwhole, hfraction]; rfl)
    exact h.mono fun _ => by omega

/-- A floating-point number takes a byte at least. -/
theorem takes_readReal (f : Binary) : (readReal f).Takes fun _ => 1 := by
  refine takes_readyAfterBlanks.bind fun _ => takes_signed.bind fun p => ?_
  obtain ⟨negative, whole⟩ := p
  refine (takes_optionally _).bind fun point => ?_
  -- the fraction is read or empty, and what comes behind it is not asked for anything
  have hnone : (pure [] : Reader Bytes).Takes List.length := takes_pure rfl
  dsimp only
  split
  · refine (takes_span _).bind fun fraction =>
      takes_unless_isEmpty (takes_readExponent.bind fun e => ?_) whole fraction
    split
    · exact takes_pure rfl
    · exact takes_fail
  · refine hnone.bind fun fraction =>
      takes_unless_isEmpty (takes_readExponent.bind fun e => ?_) whole fraction
    split
    · exact takes_pure rfl
    · exact takes_fail

end Numeral

end OrderedHash
