import OrderedHash.Index.Basic
import Mathlib.Data.Nat.ModEq

namespace OrderedHash

namespace Index

/-!
# Walks around the ring of buckets

`along b k` is the bucket reached from `b` after `k` steps. Every walk of the slot index
is a sequence of such buckets from a home bucket on, and every bucket is reached in fewer
steps than there are buckets (`exists_along`), by exactly one such number (`along_inj`).
-/

variable (ix : Index)

/-- The bucket `k` places after `b` on the ring. -/
def along (b k : Nat) : Nat := (b + k) % ix.bucketCount

/-- The number of places from bucket `a` on to bucket `b`. -/
def gap (a b : Nat) : Nat := (b + ix.bucketCount - a) % ix.bucketCount

/-- A walk along the buckets stays among them. -/
theorem along_lt (b k : Nat) (h : 0 < ix.bucketCount) : ix.along b k < ix.bucketCount :=
  Nat.mod_lt _ h

/-- A walk of no steps ends where it starts. -/
theorem along_zero {b : Nat} (h : b < ix.bucketCount) : ix.along b 0 = b :=
  Nat.mod_eq_of_lt h

/-- Two walks one after the other make up one. -/
theorem along_along (b j k : Nat) : ix.along (ix.along b j) k = ix.along b (j + k) := by
  rw [along, along, along, Nat.mod_add_mod, Nat.add_assoc]

theorem next_eq_along (b : Nat) : ix.next b = ix.along b 1 := rfl

/-- A walk may go on by one step. -/
theorem next_along (b k : Nat) : ix.next (ix.along b k) = ix.along b (k + 1) := by
  rw [next_eq_along, along_along]

/-- A walk may be started one bucket later. -/
theorem along_next (b k : Nat) : ix.along (ix.next b) k = ix.along b (k + 1) := by
  rw [next_eq_along, along_along, Nat.add_comm]

/-- An empty bucket is at least one step away from a bucket that is not empty. -/
theorem one_le_of_isEmpty_along {b k : Nat} (hb : b < ix.bucketCount)
    (hfull : (ix.node b).isEmpty = false) (hempty : (ix.node (ix.along b k)).isEmpty) :
    1 ≤ k := by
  apply Nat.one_le_iff_ne_zero.mpr
  rintro rfl
  rw [along_zero ix hb, hfull] at hempty
  exact Bool.noConfusion hempty

/-- Only the remainder of the number of steps matters. -/
theorem along_mod (b k : Nat) : ix.along b (k % ix.bucketCount) = ix.along b k := by
  rw [along, along, Nat.add_mod_mod]

/-- Fewer steps than there are buckets lead to different buckets. -/
theorem along_inj {b j k : Nat} (hj : j < ix.bucketCount) (hk : k < ix.bucketCount)
    (h : ix.along b j = ix.along b k) : j = k := by
  have hmod : j ≡ k [MOD ix.bucketCount] := Nat.ModEq.add_left_cancel' b h
  exact Nat.ModEq.eq_of_lt_of_lt hmod hj hk

/-- From one bucket to another it is less than one round. -/
theorem gap_lt (a b : Nat) (h : 0 < ix.bucketCount) : ix.gap a b < ix.bucketCount :=
  Nat.mod_lt _ h

/-- A walk over the gap between two buckets leads from the one to the other. -/
theorem along_gap {a b : Nat} (ha : a < ix.bucketCount) (hb : b < ix.bucketCount) :
    ix.along a (ix.gap a b) = b := by
  rw [gap, along_mod, along]
  have h : a + (b + ix.bucketCount - a) = b + ix.bucketCount := by omega
  rw [h, Nat.add_mod_right, Nat.mod_eq_of_lt hb]

/-- Every bucket is reached from every other one. -/
theorem exists_along {a b : Nat} (ha : a < ix.bucketCount) (hb : b < ix.bucketCount) :
    ∃ k < ix.bucketCount, ix.along a k = b :=
  ⟨ix.gap a b, ix.gap_lt a b (by omega), ix.along_gap ha hb⟩

/-- The distance from a bucket is the least number of steps. -/
theorem gap_le {a b k : Nat} (ha : a < ix.bucketCount) (h : ix.along a k = b) :
    ix.gap a b ≤ k := by
  have hm : 0 < ix.bucketCount := by omega
  have hb : b < ix.bucketCount := h ▸ ix.along_lt a k hm
  have heq : ix.along a (k % ix.bucketCount) = ix.along a (ix.gap a b) := by
    rw [along_mod, h, along_gap ix ha hb]
  have hk := ix.along_inj (Nat.mod_lt k hm) (ix.gap_lt a b hm) heq
  exact hk ▸ Nat.mod_le _ _

/-- A walk of less than one round does not come back to where it started. -/
theorem along_ne {b k : Nat} (hb : b < ix.bucketCount) (hk : 1 ≤ k) (hlt : k < ix.bucketCount) :
    ix.along b k ≠ b := by
  intro heq
  have hz : ix.along b k = ix.along b 0 := by rw [along_zero ix hb, heq]
  exact absurd (ix.along_inj hlt (by omega) hz) (by omega)

/-- A bucket is not its own successor on a ring of at least two. -/
theorem next_ne {b : Nat} (hb : b < ix.bucketCount) (h : 1 < ix.bucketCount) : ix.next b ≠ b :=
  ix.along_ne hb le_rfl h

/-- From different buckets equally many steps lead to different buckets. -/
theorem along_left_inj {b c k : Nat} (hb : b < ix.bucketCount) (hc : c < ix.bucketCount)
    (h : ix.along b k = ix.along c k) : b = c := by
  have hmod : b ≡ c [MOD ix.bucketCount] := Nat.ModEq.add_right_cancel' k h
  exact Nat.ModEq.eq_of_lt_of_lt hmod hb hc

/-- Different buckets have different successors. -/
theorem next_inj {b c : Nat} (hb : b < ix.bucketCount) (hc : c < ix.bucketCount)
    (h : ix.next b = ix.next c) : b = c :=
  ix.along_left_inj hb hc h

/-! ### Distances along one walk -/

/-- A number of steps below that of the buckets is the distance that it covers. -/
theorem gap_along {a k : Nat} (ha : a < ix.bucketCount) (hk : k < ix.bucketCount) :
    ix.gap a (ix.along a k) = k := by
  have hm : 0 < ix.bucketCount := by omega
  exact ix.along_inj (ix.gap_lt _ _ hm) hk (ix.along_gap ha (ix.along_lt a k hm))

/-- A walk of less than one round goes over the gap between its ends. -/
theorem gap_eq {a b k : Nat} (ha : a < ix.bucketCount) (hk : k < ix.bucketCount)
    (h : ix.along a k = b) : ix.gap a b = k := by
  rw [← h, gap_along ix ha hk]

/-- The buckets on the way to `b` lie at every distance before it. -/
theorem gap_along_sub {a b i : Nat} (ha : a < ix.bucketCount) (hb : b < ix.bucketCount)
    (hi : i ≤ ix.gap a b) : ix.gap (ix.along a (ix.gap a b - i)) b = i := by
  have hlt := ix.gap_lt a b (by omega)
  apply ix.gap_eq (ix.along_lt _ _ (by omega)) (by omega)
  rw [along_along, Nat.sub_add_cancel hi, ix.along_gap ha hb]

section Three

variable {a b c : Nat} (ha : a < ix.bucketCount) (hb : b < ix.bucketCount)
  (hc : c < ix.bucketCount)

include ha hb hc

/-- Two walks of less than one round together are one walk. -/
theorem gap_add (h : ix.gap a b + ix.gap b c < ix.bucketCount) :
    ix.gap a c = ix.gap a b + ix.gap b c := by
  apply ix.gap_eq ha h
  rw [← along_along, ix.along_gap ha hb, ix.along_gap hb hc]

/-- A bucket met on the way from `a` to `c` divides the way. -/
theorem gap_add_of_le_left (h : ix.gap a b ≤ ix.gap a c) :
    ix.gap a b + ix.gap b c = ix.gap a c := by
  have hlt := ix.gap_lt a c (by omega)
  have hbc : ix.gap b c = ix.gap a c - ix.gap a b := by
    apply ix.gap_eq hb (by omega)
    rw [← ix.along_gap ha hb, along_along, ix.along_gap ha hb, Nat.add_sub_cancel' h,
      ix.along_gap ha hc]
  omega

/-- A bucket nearer to `c` than `a` is met on the way from `a` to `c`. -/
theorem gap_add_of_le_right (h : ix.gap b c ≤ ix.gap a c) :
    ix.gap a b + ix.gap b c = ix.gap a c := by
  have hlt := ix.gap_lt a c (by omega)
  have hab : ix.gap a b = ix.gap a c - ix.gap b c := by
    apply ix.gap_eq ha (by omega)
    apply ix.along_left_inj (ix.along_lt _ _ (by omega)) hb (k := ix.gap b c)
    rw [along_along, Nat.sub_add_cancel h, ix.along_gap ha hc, ix.along_gap hb hc]
  omega

/-- Different buckets lie at different distances before the same one. -/
theorem gap_left_inj (h : ix.gap a c = ix.gap b c) : a = b := by
  apply ix.along_left_inj ha hb (k := ix.gap a c)
  rw [ix.along_gap ha hc, h, ix.along_gap hb hc]

end Three

/-! ### The ring depends on the number of buckets alone -/

variable {ix} {ix' : Index}

/-- Walks are the same in all indexes with as many buckets. -/
theorem along_congr (h : ix'.bucketCount = ix.bucketCount) (b k : Nat) :
    ix'.along b k = ix.along b k := by
  rw [along, along, h]

/-- Homes are the same in all indexes with as many buckets. -/
theorem home_congr (h : ix'.bucketCount = ix.bucketCount) (hash : UInt64) :
    ix'.home hash = ix.home hash := by
  rw [home, home, h]

/-- Gaps are the same in all indexes with as many buckets. -/
theorem gap_congr (h : ix'.bucketCount = ix.bucketCount) (a b : Nat) :
    ix'.gap a b = ix.gap a b := by
  rw [gap, gap, h]

/-- The next bucket is the same in all indexes with as many buckets. -/
theorem next_congr (h : ix'.bucketCount = ix.bucketCount) (b : Nat) :
    ix'.next b = ix.next b := by
  rw [next, next, h]

end Index

end OrderedHash
