import Mathlib.Data.Fintype.EquivFin
import OrderedHash.Hash.Mix

namespace OrderedHash

/-!
# Hash values that differ

Mixing and combining are built of three steps on words: folding the upper bits onto the
lower ones, multiplying by an odd factor, and adding bits without carry. None of them loses
anything, so `Hash.mix` permutes the words (`Hash.mix_bijective`), and `Hash.combine` does so
in either argument while the other stays.

The elements of a sequence are combined in turn. If the elements have all words as their hash
values, each once, then so has the sequence while all of its elements but one stay
(`Hasher.sequence_bijective`). Integers of 64 bits are such elements, so that no change of one
of them is lost (`Hasher.int64_lossless`). It follows too that a sequence and one of its
extensions can have the same hash value, although hashing starts with the length.
-/

open Function (Bijective Injective)

namespace Hash

/-! ### The steps of mixing -/

/-- A word with its upper bits added to the lower ones without carry. -/
def fold (shift a : UInt64) : UInt64 := a ^^^ (a >>> shift)

/-- The odd factor of `mix`. -/
def mixFactor : UInt64 := 0x2127599bf4325c37

/-- What `combine` makes of a hash value before it is added. -/
def scramble (h : UInt64) : UInt64 := fold 47 (h * combineFactor) * combineFactor

/-- Mixing is to fold, to multiply, and to fold again. -/
theorem mix_eq (a : UInt64) : mix a = fold 47 (fold 23 a * mixFactor) := rfl

/-- Combining is to add a scrambled value without carry, and to multiply. -/
theorem combine_eq (seed h : UInt64) : combine seed h = (seed ^^^ scramble h) * combineFactor := rfl

/-- There are only so many words. -/
theorem bijective_of_injective {f : UInt64 → UInt64} (h : Injective f) : Bijective f := by
  have : Finite UInt64 := Finite.of_injective UInt64.toFin fun _ _ => UInt64.toFin_inj.mp
  exact Finite.injective_iff_bijective.mp h

/-- Only zero stays the same when it is shifted down. -/
theorem eq_zero_of_eq_shiftRight {shift d : UInt64} (hshift : 0 < shift.toNat % 64)
    (h : d = d >>> shift) : d = 0 := by
  have hdiv : d.toNat = d.toNat / 2 ^ (shift.toNat % 64) := by
    rw [← Nat.shiftRight_eq_div_pow, ← UInt64.toNat_shiftRight, ← h]
  rcases Nat.eq_zero_or_pos d.toNat with hzero | hpos
  · exact UInt64.toNat_inj.mp hzero
  · have hlt := Nat.div_lt_self hpos (Nat.one_lt_two_pow (Nat.ne_of_gt hshift))
    exact absurd hdiv (Nat.ne_of_gt hlt)

/-- To fold the high bits into the low ones loses nothing, since the high bits stay. -/
theorem fold_bijective {shift : UInt64} (hshift : 0 < shift.toNat % 64) :
    Bijective (fold shift) := by
  refine bijective_of_injective fun a b h => ?_
  -- the bits in which two words differ, folded, are those in which the folded words differ
  have hfold : fold shift a ^^^ fold shift b = (a ^^^ b) ^^^ (a ^^^ b) >>> shift := by
    rw [UInt64.shiftRight_xor, fold, fold]
    ac_rfl
  rw [h, UInt64.xor_self] at hfold
  have hdiff := UInt64.xor_eq_zero_iff.mp hfold.symm
  exact UInt64.xor_eq_zero_iff.mp (eq_zero_of_eq_shiftRight hshift hdiff)

/-- A factor that has an inverse loses nothing. -/
theorem mul_bijective {factor inverse : UInt64} (h : factor * inverse = 1) :
    Bijective (· * factor) := by
  refine bijective_of_injective fun a b hab => ?_
  have hback := congrArg (· * inverse) hab
  simpa only [UInt64.mul_assoc, h, UInt64.mul_one] using hback

/-- Addition without carry undoes itself. -/
theorem xor_bijective (mask : UInt64) : Bijective (· ^^^ mask) :=
  bijective_of_injective fun _ _ => (UInt64.xor_left_inj mask).mp

/-- An odd factor can be undone. -/
theorem mul_mixFactor_bijective : Bijective (· * mixFactor) :=
  mul_bijective (by decide : mixFactor * 0xa1bcefb14d101987 = 1)

/-- The other factor is odd as well. -/
theorem mul_combineFactor_bijective : Bijective (· * combineFactor) :=
  mul_bijective (by decide : combineFactor * 0x5f7a0ea7e59b19bd = 1)

/-! ### Mixing and combining -/

/-- Mixing loses nothing. -/
theorem mix_bijective : Bijective mix := by
  have hsteps : mix = fold 47 ∘ (· * mixFactor) ∘ fold 23 := funext mix_eq
  rw [hsteps]
  exact (fold_bijective (by decide)).comp
    (mul_mixFactor_bijective.comp (fold_bijective (by decide)))

/-- Scrambling loses nothing. -/
theorem scramble_bijective : Bijective scramble :=
  mul_combineFactor_bijective.comp
    ((fold_bijective (by decide)).comp mul_combineFactor_bijective)

/-- Combining with a hash value loses nothing of the seed. -/
theorem combine_bijective_left (h : UInt64) : Bijective fun seed => combine seed h := by
  simp only [combine_eq]
  exact mul_combineFactor_bijective.comp (xor_bijective (scramble h))

/-- Combining with a seed loses nothing of the hash value. -/
theorem combine_bijective (seed : UInt64) : Bijective (combine seed) := by
  have hadd : Bijective fun h => seed ^^^ scramble h :=
    bijective_of_injective fun _ _ hxor =>
      scramble_bijective.injective ((UInt64.xor_right_inj seed).mp hxor)
  have hsteps : combine seed = (· * combineFactor) ∘ fun h => seed ^^^ scramble h :=
    funext (combine_eq seed)
  rw [hsteps]
  exact mul_combineFactor_bijective.comp hadd

end Hash

namespace Hasher

variable {α β : Type}

/-! ### Sequences and pairs -/

/-- Combines the hash values of elements with a running value, in order. -/
def absorb (h : Hasher α) (seed : UInt64) (xs : List α) : UInt64 :=
  xs.foldl (fun seed x => Hash.combine seed (h.value x)) seed

/-- Whatever follows in a sequence, nothing is lost of the seed. -/
theorem absorb_bijective (h : Hasher α) (xs : List α) : Bijective fun seed => h.absorb seed xs := by
  induction xs with
  | nil => exact Function.bijective_id
  | cons x xs ih => exact ih.comp (Hash.combine_bijective_left (h.value x))

/-- One element of a sequence is combined with what those before it give, and those after it
    are absorbed into the result. -/
theorem sequence_append_cons (h : Hasher α) (front back : List α) (x : α) :
    h.sequence (front ++ x :: back) =
      h.absorb (Hash.combine
        (h.absorb (Hash.mix (front.length + (back.length + 1)).toUInt64) front) (h.value x))
        back := by
  rw [sequence, List.length_append, List.length_cons, List.foldl_append, List.foldl_cons]
  rfl

/-- The hash value of a sequence tells each of its elements from the others that could stand
    there. -/
theorem sequence_bijective {h : Hasher α} (hh : Bijective h.value) (front back : List α) :
    Bijective fun x => h.sequence (front ++ x :: back) := by
  simp only [sequence_append_cons]
  exact (h.absorb_bijective back).comp ((Hash.combine_bijective _).comp hh)

/-! ### Integers of 64 bits -/

/-- Different integers of 64 bits have different hash values. -/
theorem int64_value_bijective : Bijective int64.value := by
  refine Hash.mix_bijective.comp ⟨fun x y h => ?_, fun a => ⟨a.toInt64, a.toUInt64_toInt64⟩⟩
  rw [← x.toInt64_toUInt64, h, y.toInt64_toUInt64]

/-- An integer of a sequence is replaced. -/
theorem sequence_set_eq_iff (xs : List Int64) (i : Fin xs.length) (y : Int64) :
    int64.sequence (xs.set i y) = int64.sequence xs ↔ y = xs[i] := by
  have hself : xs.set i xs[i] = xs := List.set_getElem_self i.isLt
  have hset : ∀ x, xs.set i x = xs.take i ++ x :: xs.drop (i + 1) := fun x => by
    rw [List.set_eq_take_append_cons_drop, if_pos i.isLt]
  have hinj : Injective fun x => int64.sequence (xs.set i x) := by
    simp only [hset]
    exact (sequence_bijective int64_value_bijective _ _).injective
  calc int64.sequence (xs.set i y) = int64.sequence xs
      ↔ int64.sequence (xs.set i y) = int64.sequence (xs.set i xs[i]) := by rw [hself]
    _ ↔ y = xs[i] := hinj.eq_iff

/-- Mixing permutes the words, so different integers have different hash values, and combining
    does so in either argument. The hash value of a sequence of integers changes just if one
    of them is replaced by another, and so does that of a pair. For every sequence and every
    word, the hash value of the sequence itself among them, there is exactly one integer with
    which the sequence goes on to have that word as its hash value. -/
theorem int64_lossless :
    Bijective Hash.mix ∧ (∀ x y, int64.value x = int64.value y ↔ x = y) ∧
      (∀ seed, Bijective fun h => Hash.combine seed h) ∧
      (∀ h, Bijective fun seed => Hash.combine seed h) ∧
      (∀ (xs : List Int64) (i : Fin xs.length) (y : Int64),
        int64.sequence (xs.set i y) = int64.sequence xs ↔ y = xs[i]) ∧
      (∀ a a' b, (pair int64 int64).value (a', b) = (pair int64 int64).value (a, b) ↔ a' = a) ∧
      (∀ a b b', (pair int64 int64).value (a, b') = (pair int64 int64).value (a, b) ↔ b' = b) ∧
      ∀ (xs : List Int64) (target : UInt64), ∃! y, int64.sequence (xs ++ [y]) = target := by
  refine ⟨Hash.mix_bijective, fun x y => int64_value_bijective.injective.eq_iff,
    Hash.combine_bijective, Hash.combine_bijective_left, sequence_set_eq_iff, fun a a' b => ?_,
    fun a b b' => ?_, fun xs target => ?_⟩
  · have hfirst := (Hash.combine_bijective_left (int64.code b)).comp int64_value_bijective
    exact hfirst.injective.eq_iff
  · have hsecond := (Hash.combine_bijective (int64.code a)).comp int64_value_bijective
    exact hsecond.injective.eq_iff
  · exact (sequence_bijective int64_value_bijective xs []).existsUnique target

end Hasher

end OrderedHash
