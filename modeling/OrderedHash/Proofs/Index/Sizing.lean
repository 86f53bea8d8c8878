import Mathlib.Algebra.Order.Floor.Semifield
import Mathlib.Data.Rat.Floor
import Mathlib.Order.Bounds.Defs
import Mathlib.Tactic.NormNum
import OrderedHash.Proofs.Index.Reserve

namespace OrderedHash

/-!
# Sizes as rational numbers

The sizes of an index are products and quotients of natural numbers with a load factor,
rounded down. A load factor is a rational number (`LoadFactor.value`), any one between one
tenth and nineteen twentieths (`LoadFactor.exists_value_eq_iff`), and the sizes are floors of
rational numbers (`LoadFactor.bucketCountFor_eq`, `LoadFactor.target_eq`).

The number of buckets for a number of positions is the least power of two that is large enough
(`Hash.nextPowerOfTwo_isLeast`). An index with so many buckets is not too full with these
positions, and one that has grown for an insertion takes one more node
(`Bank.sizes_of_reachable`).
-/

/-! ### Powers of two -/

namespace Hash

/-- The next power of two is the least that is not below a number. -/
theorem nextPowerOfTwo_isLeast {x : Nat} (hx : 0 < x) :
    IsLeast {b | b.isPowerOfTwo ∧ x ≤ b} (nextPowerOfTwo x) := by
  have hne : x ≠ 0 := Nat.ne_of_gt hx
  refine ⟨⟨?_, LoadFactor.le_nextPowerOfTwo x⟩, ?_⟩
  · rw [nextPowerOfTwo]
    split
    · rename_i hpower
      exact (Nat.and_sub_one_eq_zero_iff_isPowerOfTwo hne).mp hpower
    · exact ⟨highestBit x + 1, Nat.one_shiftLeft _⟩
  · rintro b ⟨⟨k, rfl⟩, hle⟩
    rw [nextPowerOfTwo]
    split
    · exact hle
    · rename_i hnot
      -- a number that is no power of two lies above the one of its highest bit
      have hself : x ≠ 2 ^ k := fun h =>
        hnot ((Nat.and_sub_one_eq_zero_iff_isPowerOfTwo hne).mpr ⟨k, h⟩)
      have hlog : x.log2 < k := (Nat.log2_lt hne).mpr (lt_of_le_of_ne hle hself)
      rw [Nat.one_shiftLeft]
      exact Nat.pow_le_pow_right Nat.two_pos hlog

/-- Words of 64 bits are enough for the next power of two, as long as one of them is not below. -/
theorem nextPowerOfTwo_le {x k : Nat} (hx : 0 < x) (hle : x ≤ 2 ^ k) : nextPowerOfTwo x ≤ 2 ^ k :=
  (nextPowerOfTwo_isLeast hx).2 ⟨⟨k, rfl⟩, hle⟩

end Hash

/-! ### Load factors -/

namespace LoadFactor

/-- A load factor as a rational number. -/
def value (f : LoadFactor) : ℚ := f.num / f.den

variable (f : LoadFactor)

theorem den_cast_pos : (0 : ℚ) < f.den := Nat.cast_pos.mpr f.den_pos

/-- No load factor is less than a tenth. -/
theorem tenth_le_value : 1 / 10 ≤ f.value := by
  have hle : (f.den : ℚ) ≤ 10 * f.num := by exact_mod_cast f.tenth_le
  rw [value, le_div_iff₀ f.den_cast_pos]
  linarith

/-- No load factor is greater than nineteen twentieths. -/
theorem value_le : f.value ≤ 19 / 20 := by
  have hle : (20 : ℚ) * f.num ≤ 19 * f.den := by exact_mod_cast f.le_nineteen_twentieths
  rw [value, div_le_iff₀ f.den_cast_pos]
  linarith

/-- The load factors are the rational numbers of their range. -/
theorem exists_value_eq_iff (q : ℚ) :
    (∃ f : LoadFactor, f.value = q) ↔ 1 / 10 ≤ q ∧ q ≤ 19 / 20 := by
  refine ⟨fun ⟨f, hf⟩ => hf ▸ ⟨f.tenth_le_value, f.value_le⟩, fun ⟨hlo, hhi⟩ => ?_⟩
  have hden : (0 : ℚ) < q.den := Nat.cast_pos.mpr q.den_pos
  have hnum : (q.num.toNat : ℚ) = q * q.den := by
    rw [Rat.mul_den_eq_num]
    exact_mod_cast Int.toNat_of_nonneg (Rat.num_nonneg.mpr (by linarith))
  -- the fraction itself is a load factor, as both bounds hold of it in lowest terms
  refine ⟨⟨q.num.toNat, q.den, q.den_pos, ?_, ?_⟩, ?_⟩
  · have hle : (q.den : ℚ) ≤ 10 * q.num.toNat := by
      rw [hnum]
      linarith [mul_le_mul_of_nonneg_right hlo hden.le]
    exact_mod_cast hle
  · have hle : (20 : ℚ) * q.num.toNat ≤ 19 * q.den := by
      rw [hnum]
      linarith [mul_le_mul_of_nonneg_right hhi hden.le]
    exact_mod_cast hle
  · show (q.num.toNat : ℚ) / q.den = q
    rw [hnum, mul_div_assoc, div_self hden.ne', mul_one]

/-! ### Sizes as floors -/

/-- The number of buckets for a number of positions, written as a power of two above a floor. -/
theorem bucketCountFor_eq (count : Nat) :
    f.bucketCountFor count =
      Hash.nextPowerOfTwo (max minBuckets (⌊(count : ℚ) / f.value⌋₊ + 1)) := by
  have hfloor : ⌊(count : ℚ) / f.value⌋₊ = count * f.den / f.num := by
    rw [value, div_div_eq_mul_div, ← Nat.cast_mul, Nat.floor_div_eq_div]
  rw [bucketCountFor, hfloor]

/-- The number of positions that buckets are meant for, written as a floor. -/
theorem target_eq (buckets : Nat) : f.target buckets = ⌊(buckets : ℚ) * f.value⌋₊ := by
  rw [target, value, ← mul_div_assoc, ← Nat.cast_mul, Nat.floor_div_eq_div]

/-- What buckets may be filled to, written as a floor. -/
theorem fillLimit_eq (buckets : Nat) : fillLimit buckets = ⌊(buckets : ℚ) * (19 / 20)⌋₊ := by
  rw [fillLimit, ← mul_div_assoc]
  exact_mod_cast (Nat.floor_div_eq_div (K := ℚ) (buckets * 19) 20).symm

/-- Positions that can be stored need no more buckets than a word can count. -/
theorem bucketCountFor_le {count : Nat} (hcount : count < 2 ^ 48) :
    f.bucketCountFor count ≤ 2 ^ 52 := by
  have hquot : count * f.den / f.num ≤ count * 10 := by
    refine Nat.div_le_of_le_mul ?_
    calc count * f.den ≤ count * (10 * f.num) := Nat.mul_le_mul_left _ f.tenth_le
      _ = f.num * (count * 10) := by ring
  have hpos : 0 < max minBuckets (count * f.den / f.num + 1) :=
    lt_of_lt_of_le (by decide) (le_max_left _ _)
  exact Hash.nextPowerOfTwo_le hpos (max_le (by decide) (by omega))

/-- One bucket at least stays empty. -/
theorem fillLimit_lt {buckets : Nat} (hpos : 0 < buckets) : fillLimit buckets < buckets := by
  rw [fillLimit]
  omega

/-- There is no smaller number of buckets for so many positions. -/
theorem bucketCountFor_isLeast (count : Nat) :
    IsLeast {b | b.isPowerOfTwo ∧ max 64 (⌊(count : ℚ) / f.value⌋₊ + 1) ≤ b}
      (f.bucketCountFor count) := by
  rw [bucketCountFor_eq]
  exact Hash.nextPowerOfTwo_isLeast (lt_of_lt_of_le (by decide) (le_max_left _ _))

end LoadFactor

/-! ### Sizes of an index -/

namespace Index

/-- The sizes of an index are the products of its number of buckets, rounded down, and leave
    room for `count` positions and an empty bucket. -/
structure Sized (ix : Index) (count : Nat) : Prop where
  capacity_eq : ix.capacity = ⌊(ix.bucketCount : ℚ) * ix.loadFactor.value⌋₊
  maxFill_eq : ix.maxFill = ⌊(ix.bucketCount : ℚ) * (19 / 20)⌋₊
  le_capacity : count ≤ ix.capacity
  capacity_le : ix.capacity ≤ ix.maxFill
  maxFill_lt : ix.maxFill < ix.bucketCount

/-- An index with the least number of buckets is not null. -/
theorem not_isNull_of_le {ix : Index} (h : LoadFactor.minBuckets ≤ ix.bucketCount) :
    ¬ ix.isNull := by
  rw [isNull, decide_eq_true_eq, not_le]
  exact lt_of_lt_of_le (by decide) h

/-- An index with the buckets that its positions require is of the right size. -/
theorem sized_of_bucketCount {ix : Index} {count : Nat} (h : ix.bucketCount = ix.required count) :
    ix.Sized count := by
  have hmin : LoadFactor.minBuckets ≤ ix.bucketCount :=
    h ▸ ix.loadFactor.minBuckets_le_bucketCountFor count
  have hnull := not_isNull_of_le hmin
  have hfill : ix.maxFill = LoadFactor.fillLimit ix.bucketCount := if_neg hnull
  refine ⟨?_, ?_, le_capacity h.ge, ix.capacity_le_maxFill, ?_⟩
  · rw [capacity, if_neg hnull, LoadFactor.target_eq]
  · rw [hfill, LoadFactor.fillLimit_eq]
  · rw [hfill]
    exact LoadFactor.fillLimit_lt (lt_of_lt_of_le (by decide) hmin)

/-- An index that has grown for an insertion keeps its positions and is not full. -/
theorem Indexes.growForInsert_room {ix : Index} {count : Nat} {hashAt : Nat → UInt64}
    (h : ix.Indexes count hashAt) :
    (ix.growForInsert hashAt).size = count ∧
      (ix.growForInsert hashAt).size + (ix.growForInsert hashAt).tombstones <
        (ix.growForInsert hashAt).maxFill := by
  obtain ⟨hgrown, hmin, hroom⟩ := h.growForInsert
  refine ⟨hgrown.size_eq, ?_⟩
  rw [maxFill, if_neg (not_isNull_of_le hmin)]
  exact hroom

end Index

/-! ### Sizes throughout a run -/

namespace Bank

/-- Up to `2 ^ 63` the next power of two is the least one that is not below a number. The load
    factors are the rational numbers between one tenth and nineteen twentieths, and for each of
    them and all positions that can be stored the number of buckets is the least power of two
    that is above the quotient, and at least 64. These are words of 64 bits. An index with so
    many buckets is sized for these positions, and every index of a run is below its maximal
    fill when it has grown for an insertion. -/
theorem sizes_of_reachable :
    (∀ x, 0 < x → x ≤ 2 ^ 63 →
      IsLeast {b | b.isPowerOfTwo ∧ x ≤ b} (Hash.nextPowerOfTwo x) ∧
        Hash.nextPowerOfTwo x ≤ 2 ^ 63) ∧
      (∀ q, (∃ f : LoadFactor, f.value = q) ↔ 1 / 10 ≤ q ∧ q ≤ 19 / 20) ∧
      (∀ (f : LoadFactor) (count : Nat), count < 2 ^ 48 →
        IsLeast {b | b.isPowerOfTwo ∧ max 64 (⌊(count : ℚ) / f.value⌋₊ + 1) ≤ b}
            (f.bucketCountFor count) ∧
          f.bucketCountFor count ≤ 2 ^ 52 ∧
          ∀ ix : Index, ix.loadFactor = f → ix.bucketCount = f.bucketCountFor count →
            ix.Sized count) ∧
      ∀ bank, Reachable bank → ∀ i,
        let grown := (bank i).index.growForInsert (bank i).hashAt
        grown.size = (bank i).size ∧ grown.size + grown.tombstones < grown.maxFill := by
  refine ⟨fun x hx hle => ⟨Hash.nextPowerOfTwo_isLeast hx, Hash.nextPowerOfTwo_le hx hle⟩,
    LoadFactor.exists_value_eq_iff, fun f count hcount => ?_, fun bank h i => ?_⟩
  · refine ⟨f.bucketCountFor_isLeast count, f.bucketCountFor_le hcount, fun ix hf hbuckets => ?_⟩
    subst hf
    exact Index.sized_of_bucketCount hbuckets
  · exact (h.right i).indexes.growForInsert_room

/-- One position more than 64 buckets hold under the standard load factor needs twice as many. -/
theorem sizes_of_reachable_fill :
    LoadFactor.standard.bucketCountFor 38 = 64 ∧ LoadFactor.standard.bucketCountFor 39 = 128 ∧
      IsLeast {b : Nat | b.isPowerOfTwo ∧ 65 ≤ b} 128 ∧
      ((Index.null .standard).emptied 128).Sized 39 ∧
      let grown := (fill [63, 127] 0).index.growForInsert (fill [63, 127] 0).hashAt
      grown.size = 2 ∧ grown.size + grown.tombstones < grown.maxFill := by
  obtain ⟨hpower, -, hbuckets, hgrown⟩ := sizes_of_reachable
  refine ⟨by decide, by decide, (hpower 65 (by decide) (by decide)).1, ?_, ?_⟩
  · exact (hbuckets .standard 39 (by decide)).2.2 _ rfl (Index.bucketCount_emptied _ _)
  · have hroom := hgrown _ (fill_reachable [63, 127] (by decide)) 0
    rw [size_fill] at hroom
    exact hroom

end Bank

end OrderedHash
