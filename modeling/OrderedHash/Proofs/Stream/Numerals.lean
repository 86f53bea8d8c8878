import Mathlib.Algebra.Group.Nat.Defs
import OrderedHash.Stream.Number

namespace OrderedHash

/-!
# Numbers in texts

The digits of a number spell it (`Numeral.spells_digits`). Bytes on which a number stands are
white space, perhaps a sign, and digits up to a byte that is no digit or up to the end
(`Numeral.Stands`). From such bytes the number is read (`Numeral.step_read`), and the text of
an integer is of this kind (`Numeral.stands_ofInt`).
-/

/-- The source of what is left behind bytes that ended where a look at the next byte showed
    it, or past the end. -/
def Source.peeked (rest : Bytes) : Source := ⟨rest, rest.isEmpty, false⟩

/-! ### Readers of bytes that are there -/

namespace Reader

variable {α β : Type}

/-- A sequence of readers goes on where its first one ends. -/
theorem step_bind_of_some {x : Reader α} {a : α} {s t : Source} (h : x.step s = (some a, t))
    (f : α → Reader β) : (x >>= f).step s = (f a).step t := by
  rw [step_bind, h]

@[simp] theorem step_ready (rest : Bytes) :
    ready.step (.ofBytes rest) = (some (), .ofBytes rest) := rfl

theorem step_byte (b : UInt8) (rest : Bytes) :
    byte.step (.ofBytes (b :: rest)) = (some b, .ofBytes rest) := rfl

/-- As many bytes as are asked for are read if there are as many. -/
theorem step_block (taken rest : Bytes) :
    (block taken.length).step (.ofBytes (taken ++ rest)) = (some taken, .ofBytes rest) := by
  unfold block
  rw [step_bind_of_some (step_ready _), step_ofStep]
  dsimp only [Source.ofBytes]
  rw [List.splitAt_eq, List.take_left, List.drop_left]
  simp

/-- White space is skipped up to the first byte that is not white space. -/
theorem step_readyAfterBlanks {blanks : Bytes} (hblanks : ∀ b ∈ blanks, isBlank b) {b : UInt8}
    (hb : isBlank b = false) (rest : Bytes) :
    readyAfterBlanks.step (.ofBytes (blanks ++ b :: rest)) = (some (), .ofBytes (b :: rest)) := by
  have hskip : (blanks ++ b :: rest).dropWhile isBlank = b :: rest := by
    rw [List.dropWhile_append_of_pos hblanks, List.dropWhile_cons_of_neg (by simp [hb])]
  unfold readyAfterBlanks
  rw [step_bind_of_some (step_ready _), step_ofStep]
  dsimp only [Source.ofBytes]
  rw [hskip]

/-- A span ends at the first byte that does not pass the test, or where the bytes end. -/
theorem step_span {test : UInt8 → Bool} {taken rest : Bytes} (htaken : ∀ b ∈ taken, test b)
    (hrest : ∀ b ∈ rest.head?, test b = false) :
    (span test).step (.ofBytes (taken ++ rest)) = (some taken, .peeked rest) := by
  -- what stops the span is left by both of its halves
  have hskip : rest.dropWhile test = rest := by
    cases rest with
    | nil => rfl
    | cons b more => exact List.dropWhile_cons_of_neg (by simp [hrest b rfl])
  have htake : rest.takeWhile test = [] := by
    cases rest with
    | nil => rfl
    | cons b more => exact List.takeWhile_cons_of_neg (by simp [hrest b rfl])
  unfold span
  rw [step_ofStep]
  dsimp only [Source.ofBytes]
  rw [List.dropWhile_append_of_pos htaken, List.takeWhile_append_of_pos htaken, hskip, htake,
    List.append_nil]
  rfl

/-- A byte is taken if it passes the test, and is left otherwise. -/
theorem step_optionally (test : UInt8 → Bool) (b : UInt8) (rest : Bytes) :
    (optionally test).step (.ofBytes (b :: rest)) =
      if test b then (some (some b), .ofBytes rest) else (some none, .ofBytes (b :: rest)) := rfl

end Reader

namespace Numeral

/-! ### Digits -/

/-- The byte of a digit, its class and its value, for each of the ten digits. -/
theorem digit_spec {d : Nat} (h : d < 10) : isDigit (digit d) ∧ (digit d).toNat - 48 = d := by
  have hall : ∀ d : Fin 10, isDigit (digit d) ∧ (digit d).toNat - 48 = d := by decide
  exact hall ⟨d, h⟩

/-- No digit is a blank. -/
theorem not_isBlank_of_isDigit {b : UInt8} (h : isDigit b) : Reader.isBlank b = false := by
  simp only [isDigit, Reader.isBlank, Bool.and_eq_true, decide_eq_true_eq, Bool.or_eq_false_iff,
    Bool.and_eq_false_iff, decide_eq_false_iff_not, beq_eq_false_iff_ne, ne_eq, ← UInt8.toNat_inj,
    UInt8.le_iff_toNat_le, UInt8.reduceToNat] at h ⊢
  omega

/-- No digit is a sign. -/
theorem not_isSign_of_isDigit {b : UInt8} (h : isDigit b) : isSign b = false := by
  simp only [isDigit, isSign, Bool.and_eq_true, decide_eq_true_eq, Bool.or_eq_false_iff,
    beq_eq_false_iff_ne, ne_eq, ← UInt8.toNat_inj, UInt8.le_iff_toNat_le, UInt8.reduceToNat] at h ⊢
  omega

/-- Bytes are the decimal text of a number: at least one of them, all digits, and of the
    value of the number. -/
structure Spells (bytes : Bytes) (n : Nat) : Prop where
  nonempty : bytes ≠ []
  digits : ∀ b ∈ bytes, isDigit b
  value : ofDigits bytes = n

/-- A digit at the end counts once, and all others ten times as much. -/
theorem ofDigits_concat (bytes : Bytes) (b : UInt8) :
    ofDigits (bytes ++ [b]) = 10 * ofDigits bytes + (b.toNat - 48) := by
  unfold ofDigits
  rw [List.foldl_append]
  rfl

/-- The digits in front of those given, if the fuel lasts. -/
theorem digitsOnto_spec (fuel n : Nat) (h : n < fuel) (acc : Bytes) :
    ∃ bytes, digitsOnto fuel n acc = bytes ++ acc ∧ Spells bytes n := by
  induction fuel generalizing n acc with
  | zero => exact absurd h (Nat.not_lt_zero n)
  | succ fuel ih =>
    obtain ⟨hdigit, hvalue⟩ := digit_spec (Nat.mod_lt n (by decide : 0 < 10))
    rw [digitsOnto]
    split
    · rename_i hsmall
      refine ⟨[digit (n % 10)], rfl, List.cons_ne_nil _ _, ?_, ?_⟩
      · simpa using hdigit
      · show 10 * 0 + ((digit (n % 10)).toNat - 48) = n
        omega
    · rename_i hlarge
      -- the last digit is written first, behind those that are still to come
      obtain ⟨bytes, heq, hspells⟩ := ih (n / 10) (by omega) (digit (n % 10) :: acc)
      refine ⟨bytes ++ [digit (n % 10)], by rw [heq, List.append_assoc]; rfl, by simp, ?_, ?_⟩
      · intro b hb
        rcases List.mem_append.mp hb with hb | hb
        · exact hspells.digits b hb
        · rw [List.mem_singleton.mp hb]
          exact hdigit
      · rw [ofDigits_concat, hspells.value, hvalue]
        omega

/-- The digits of a number spell it. -/
theorem spells_digits (n : Nat) : Spells (digits n) n := by
  obtain ⟨bytes, heq, hspells⟩ := digitsOnto_spec (n + 1) n (Nat.lt_succ_self n) []
  rw [digits, heq, List.append_nil]
  exact hspells

/-- A spelled number starts with a digit. -/
theorem Spells.starts {bytes : Bytes} {n : Nat} (h : Spells bytes n) :
    ∃ b more, bytes = b :: more ∧ isDigit b := by
  cases bytes with
  | nil => exact absurd rfl h.nonempty
  | cons b more => exact ⟨b, more, rfl, h.digits b List.mem_cons_self⟩

/-! ### Reading -/

/-- Bytes that do not go on with a digit. -/
def Stops (rest : Bytes) : Prop := ∀ b ∈ rest.head?, isDigit b = false

/-- A number stops at a byte that is no digit. -/
theorem stops_cons {stop : UInt8} (h : isDigit stop = false) (rest : Bytes) :
    Stops (stop :: rest) := by
  intro b hb
  cases hb
  exact h

/-- Bytes that start with a number behind white space, with the number, which is told by
    whether it has a minus sign and by its magnitude, and with what follows it. -/
inductive Stands : Bytes → Bool × Nat → Bytes → Prop where
  | bare {blanks digits rest : Bytes} {n : Nat} (hblanks : ∀ b ∈ blanks, Reader.isBlank b)
      (hspells : Spells digits n) (hstops : Stops rest) :
      Stands (blanks ++ (digits ++ rest)) (false, n) rest
  | signed {blanks digits rest : Bytes} {b : UInt8} {n : Nat}
      (hblanks : ∀ b ∈ blanks, Reader.isBlank b) (hsign : isSign b) (hspells : Spells digits n)
      (hstops : Stops rest) : Stands (blanks ++ b :: (digits ++ rest)) (b == 45, n) rest

/-- No sign is a blank. -/
theorem not_isBlank_of_isSign {b : UInt8} (h : isSign b) : Reader.isBlank b = false := by
  simp only [isSign, Bool.or_eq_true, beq_iff_eq] at h
  rcases h with rfl | rfl <;> rfl

section Read

variable {rest : Bytes} {b : UInt8}

/-- A sign is taken, and the digits after it, of which there may be none. -/
theorem step_signed_of_isSign (hsign : isSign b) (digits : Bytes)
    (hdigits : ∀ d ∈ digits, isDigit d) (hstops : Stops rest) :
    signed.step (.ofBytes (b :: (digits ++ rest))) =
      (some (b == 45, digits), .peeked rest) := by
  have htaken : (Reader.optionally isSign).step (.ofBytes (b :: (digits ++ rest))) =
      (some (some b), .ofBytes (digits ++ rest)) := by
    rw [Reader.step_optionally, if_pos hsign]
  unfold signed
  rw [Reader.step_bind_of_some htaken, Reader.step_bind_of_some (Reader.step_span hdigits hstops)]
  rfl

/-- Without a sign only the digits are taken, of which there may be none. -/
theorem step_signed_of_not_isSign (hsign : isSign b = false) (digits : Bytes) {more : Bytes}
    (hbytes : digits ++ rest = b :: more) (hdigits : ∀ d ∈ digits, isDigit d)
    (hstops : Stops rest) :
    signed.step (.ofBytes (digits ++ rest)) = (some (false, digits), .peeked rest) := by
  have hnone : (Reader.optionally isSign).step (.ofBytes (digits ++ rest)) =
      (some none, .ofBytes (digits ++ rest)) := by
    rw [hbytes, Reader.step_optionally, if_neg (by simp [hsign])]
  unfold signed
  rw [Reader.step_bind_of_some hnone, Reader.step_bind_of_some (Reader.step_span hdigits hstops)]
  rfl

/-- A number is read up to what follows it. -/
theorem step_read {bytes : Bytes} {x : Bool × Nat} (h : Stands bytes x rest) :
    read.step (.ofBytes bytes) = (some x, .peeked rest) := by
  unfold read
  cases h with
  | @bare blanks digits _ n hblanks hspells hstops =>
    obtain ⟨b, more, hbytes, hdigit⟩ := hspells.starts
    have hready := Reader.step_readyAfterBlanks hblanks (not_isBlank_of_isDigit hdigit)
      (more ++ rest)
    rw [← List.cons_append, ← hbytes] at hready
    -- the number begins with its first digit
    have htext : digits ++ rest = b :: (more ++ rest) := by
      rw [hbytes, List.cons_append]
    rw [Reader.step_bind_of_some hready, Reader.step_bind_of_some
      (step_signed_of_not_isSign (not_isSign_of_isDigit hdigit) digits htext hspells.digits hstops)]
    dsimp only
    rw [if_neg (by simpa using hspells.nonempty), hspells.value]
    rfl
  | @signed blanks digits _ b n hblanks hsign hspells hstops =>
    have hready := Reader.step_readyAfterBlanks hblanks (not_isBlank_of_isSign hsign)
      (digits ++ rest)
    rw [Reader.step_bind_of_some hready, Reader.step_bind_of_some
      (step_signed_of_isSign hsign digits hspells.digits hstops)]
    dsimp only
    rw [if_neg (by simpa using hspells.nonempty), hspells.value]
    rfl

end Read

/-! ### Integers that were written -/

/-- The integer of a sign and a magnitude. -/
def value (x : Bool × Nat) : Int := if x.1 then -x.2 else x.2

/-- The text of an integer is a minus sign if it is negative, and its magnitude. -/
theorem stands_ofInt {blanks : Bytes} (hblanks : ∀ b ∈ blanks, Reader.isBlank b) (x : Int)
    {stop : UInt8} (hstop : isDigit stop = false) (rest : Bytes) :
    Stands (blanks ++ (ofInt x ++ stop :: rest)) (decide (x < 0), x.natAbs) (stop :: rest) := by
  have hspells := spells_digits x.natAbs
  unfold ofInt
  split
  · rename_i hneg
    rw [decide_eq_true hneg]
    exact .signed hblanks rfl hspells (stops_cons hstop rest)
  · rename_i hpos
    rw [decide_eq_false hpos]
    exact .bare hblanks hspells (stops_cons hstop rest)

/-- An integer is its magnitude with its sign. -/
theorem value_natAbs (x : Int) : value (decide (x < 0), x.natAbs) = x := by
  unfold value
  by_cases h : x < 0
  · rw [decide_eq_true h, if_pos rfl]
    omega
  · rw [decide_eq_false h, if_neg Bool.false_ne_true]
    omega

end Numeral

end OrderedHash
