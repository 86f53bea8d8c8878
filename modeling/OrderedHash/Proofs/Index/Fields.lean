import OrderedHash.Index.Node
import Mathlib.Algebra.Group.Int.Defs
import Mathlib.Algebra.Group.Nat.Defs

namespace OrderedHash

namespace Node

/-!
# The three fields of a node

A node is read and written through masks and shifts on one word. The bits of each field
are computed once (`testBit_pos`, `testBit_tinyHash`, `testBit_distanceByte` for reading,
`testBit_encodePosition`, `testBit_encodeDistance`, `testBit_encodeTiny` for writing), and
from them follows that

* `make` puts each field where it is read back;
* `withDistance` changes the distance alone and `withPosition` the position alone.

What the nodes of empty buckets and of tombstones hold is said next. The last section puts
the fields together: a word is the sum of its fields at their places (`word_eq`), and they
are kept apart whatever their values are (`fields_apart`).
-/

/-! ### The bits of the masks -/

/-- The mask of positions has the low 48 bits. -/
theorem testBit_positionMask (i : Nat) : positionMask.toNat.testBit i = decide (i < 48) := by
  have h : positionMask.toNat = 2 ^ 48 - 1 := by decide
  rw [h, Nat.testBit_two_pow_sub_one]

/-- A number of bits written as a word has no bit at or above that number. -/
private theorem testBit_of_le {x n i : Nat} (hx : x < 2 ^ n) (hi : n ≤ i) :
    x.testBit i = false :=
  Nat.testBit_lt_two_pow (Nat.lt_of_lt_of_le hx (Nat.pow_le_pow_right (by decide) hi))

/-- Nodes with the same bits are the same. -/
theorem ext_testBit {m n : Node} (h : ∀ i, m.word.toNat.testBit i = n.word.toNat.testBit i) :
    m = n := by
  have hword : m.word = n.word := UInt64.toNat_inj.mp (Nat.eq_of_testBit_eq h)
  cases m
  cases n
  exact congrArg Node.mk hword

/-- What is kept when a position is stored: the two high bytes. -/
theorem testBit_not_positionMask (i : Nat) :
    (~~~positionMask).toNat.testBit i = decide (48 ≤ i ∧ i < 64) := by
  have h : (~~~positionMask).toNat = (2 ^ 16 - 1) <<< 48 := by decide
  rw [h, Nat.testBit_shiftLeft, Nat.testBit_two_pow_sub_one]
  by_cases h₁ : 48 ≤ i <;> by_cases h₂ : i < 64 <;> simp [h₁, h₂] <;> omega

/-- What is kept when a distance is stored: the position and the highest byte. -/
theorem testBit_not_distanceMask (i : Nat) :
    (~~~distanceMask).toNat.testBit i = decide (i < 48 ∨ 56 ≤ i ∧ i < 64) := by
  have h : (~~~distanceMask).toNat = (2 ^ 8 - 1) <<< 56 ||| (2 ^ 48 - 1) := by decide
  rw [h, Nat.testBit_or, Nat.testBit_shiftLeft, Nat.testBit_two_pow_sub_one,
    Nat.testBit_two_pow_sub_one]
  by_cases h₁ : i < 48 <;> by_cases h₂ : 56 ≤ i <;> by_cases h₃ : i < 64 <;>
    simp [h₁, h₂, h₃] <;> omega

/-! ### The bits that are read -/

/-- A position is read from the low 48 bits. -/
theorem testBit_pos (n : Node) (i : Nat) :
    n.pos.testBit i = (decide (i < 48) && n.word.toNat.testBit i) := by
  rw [pos, UInt64.toNat_and, Nat.testBit_and, testBit_positionMask, Bool.and_comm]

/-- The tiny hash is read from the highest byte. -/
theorem testBit_tinyHash (n : Node) (i : Nat) :
    n.tinyHash.toNat.testBit i = (decide (i < 8) && n.word.toNat.testBit (56 + i)) := by
  have h56 : (56 : UInt64).toNat % 64 = 56 := by decide
  rw [tinyHash, UInt64.toNat_toUInt8, UInt64.toNat_shiftRight, h56, Nat.testBit_mod_two_pow,
    Nat.testBit_shiftRight]

/-- The byte of a word that holds the distance, before it is read as a signed number. -/
def distanceByte (n : Node) : UInt8 := (n.word >>> 48).toUInt8

/-- The distance is read from the byte below the tiny hash. -/
theorem testBit_distanceByte (n : Node) (i : Nat) :
    n.distanceByte.toNat.testBit i = (decide (i < 8) && n.word.toNat.testBit (48 + i)) := by
  have h48 : (48 : UInt64).toNat % 64 = 48 := by decide
  rw [distanceByte, UInt64.toNat_toUInt8, UInt64.toNat_shiftRight, h48,
    Nat.testBit_mod_two_pow, Nat.testBit_shiftRight]

/-- The distance is its byte read as a signed number. -/
theorem distance_eq (n : Node) : n.distance = n.distanceByte.toInt8.toInt := rfl

/-! ### The bits that are written -/

/-- Bits of a position above the 48 that there is room for are dropped. -/
theorem testBit_encodePosition (p i : Nat) :
    (encodePosition p).toNat.testBit i = (decide (i < 48) && p.testBit i) := by
  have hp : p.toUInt64.toNat = p % 2 ^ 64 := rfl
  rw [encodePosition, UInt64.toNat_and, Nat.testBit_and, testBit_positionMask, hp,
    Nat.testBit_mod_two_pow]
  by_cases h : i < 48
  · have h64 : i < 64 := by omega
    simp [h, h64]
  · simp [h]

/-- A distance is written to its byte, as the byte that stands for it. -/
theorem testBit_encodeDistance (d : Int) (i : Nat) :
    (encodeDistance d).toNat.testBit i =
      (decide (48 ≤ i ∧ i < 56) && (Int8.ofInt d).toUInt8.toNat.testBit (i - 48)) := by
  have h48 : (48 : UInt64).toNat % 64 = 48 := by decide
  rw [encodeDistance, UInt64.toNat_shiftLeft, UInt8.toNat_toUInt64, h48,
    Nat.testBit_mod_two_pow, Nat.testBit_shiftLeft]
  by_cases h : 56 ≤ i
  · have hb : (Int8.ofInt d).toUInt8.toNat.testBit (i - 48) = false :=
      testBit_of_le (UInt8.toNat_lt _) (by omega)
    simp [hb]
  · by_cases h' : 48 ≤ i
    · have h64 : i < 64 := by omega
      have h56 : i < 56 := by omega
      simp [h', h64, h56]
    · simp [h']

/-- A tiny hash is written to the highest byte. -/
theorem testBit_encodeTiny (t : UInt8) (i : Nat) :
    (t.toUInt64 <<< 56).toNat.testBit i =
      (decide (56 ≤ i ∧ i < 64) && t.toNat.testBit (i - 56)) := by
  have h56 : (56 : UInt64).toNat % 64 = 56 := by decide
  rw [UInt64.toNat_shiftLeft, UInt8.toNat_toUInt64, h56, Nat.testBit_mod_two_pow,
    Nat.testBit_shiftLeft]
  by_cases h : 56 ≤ i <;> by_cases h' : i < 64 <;> simp [h, h']

/-- The three fields of a new node do not overlap. -/
theorem testBit_make (t : UInt8) (d : Int) (p i : Nat) :
    (make t d p).word.toNat.testBit i =
      ((decide (i < 48) && p.testBit i)
        || (decide (48 ≤ i ∧ i < 56) && (Int8.ofInt d).toUInt8.toNat.testBit (i - 48))
        || (decide (56 ≤ i ∧ i < 64) && t.toNat.testBit (i - 56))) := by
  rw [make, UInt64.toNat_or, UInt64.toNat_or, Nat.testBit_or, Nat.testBit_or,
    testBit_encodePosition, testBit_encodeDistance, testBit_encodeTiny]

/-- Of a node whose distance is replaced only the byte of the distance changes. -/
theorem testBit_withDistance (n : Node) (d : Int) (i : Nat) :
    (n.withDistance d).word.toNat.testBit i =
      ((n.word.toNat.testBit i && decide (i < 48 ∨ 56 ≤ i ∧ i < 64))
        || (decide (48 ≤ i ∧ i < 56) && (Int8.ofInt d).toUInt8.toNat.testBit (i - 48))) := by
  rw [withDistance, UInt64.toNat_or, UInt64.toNat_and, Nat.testBit_or, Nat.testBit_and,
    testBit_not_distanceMask, testBit_encodeDistance]

/-- Of a node whose position is replaced only the low 48 bits change. -/
theorem testBit_withPosition (n : Node) (p i : Nat) :
    (n.withPosition p).word.toNat.testBit i =
      ((n.word.toNat.testBit i && decide (48 ≤ i ∧ i < 64))
        || (decide (i < 48) && p.testBit i)) := by
  rw [withPosition, UInt64.toNat_or, UInt64.toNat_and, Nat.testBit_or, Nat.testBit_and,
    testBit_not_positionMask, testBit_encodePosition]

/-! ### Positions are kept apart from the other fields -/

/-- The position of a new node is the one given, up to the bits that there is room for. -/
@[simp] theorem pos_make (t : UInt8) (d : Int) (p : Nat) : (make t d p).pos = p % 2 ^ 48 := by
  apply Nat.eq_of_testBit_eq
  intro i
  rw [testBit_pos, testBit_make, Nat.testBit_mod_two_pow]
  by_cases h : i < 48
  · have h₁ : ¬ 48 ≤ i := by omega
    have h₂ : ¬ 56 ≤ i := by omega
    simp [h, h₁, h₂]
  · simp [h]

/-- A position that can be told from those reserved is kept. -/
theorem pos_make_of_lt (t : UInt8) (d : Int) {p : Nat} (h : p < noPosition) :
    (make t d p).pos = p := by
  rw [pos_make]
  exact Nat.mod_eq_of_lt (Nat.lt_trans h (by decide))

/-- The position that was stored last is read. -/
@[simp] theorem pos_withPosition (n : Node) (p : Nat) : (n.withPosition p).pos = p % 2 ^ 48 := by
  apply Nat.eq_of_testBit_eq
  intro i
  rw [testBit_pos, testBit_withPosition, Nat.testBit_mod_two_pow]
  by_cases h : i < 48
  · have h₁ : ¬ 48 ≤ i := by omega
    simp [h, h₁]
  · simp [h]

/-- The position is kept when the distance is replaced. -/
@[simp] theorem pos_withDistance (n : Node) (d : Int) : (n.withDistance d).pos = n.pos := by
  apply Nat.eq_of_testBit_eq
  intro i
  rw [testBit_pos, testBit_pos, testBit_withDistance]
  by_cases h : i < 48
  · have h₁ : ¬ 48 ≤ i := by omega
    simp [h, h₁]
  · simp [h]

/-- A node that is given its own position stays as it is. -/
theorem withPosition_pos (n : Node) : n.withPosition n.pos = n := by
  apply ext_testBit
  intro i
  rw [testBit_withPosition, testBit_pos]
  by_cases h : i < 48
  · have h₁ : ¬ 48 ≤ i := by omega
    simp [h, h₁]
  · by_cases h' : i < 64
    · have h₁ : 48 ≤ i := by omega
      simp [h, h', h₁]
    · have hb : n.word.toNat.testBit i = false := testBit_of_le (UInt64.toNat_lt _) (by omega)
      simp [hb]

/-- Of two positions given to a node the second stays. -/
theorem withPosition_withPosition (n : Node) (p q : Nat) :
    (n.withPosition p).withPosition q = n.withPosition q := by
  apply ext_testBit
  intro i
  rw [testBit_withPosition, testBit_withPosition, testBit_withPosition]
  by_cases h : i < 48
  · have h₁ : ¬ 48 ≤ i := by omega
    simp [h, h₁]
  · simp [h]

/-- The position is the remainder that 48 bits of a word leave. -/
theorem pos_eq_mod (n : Node) : n.pos = n.word.toNat % 2 ^ 48 := by
  have h : positionMask.toNat = 2 ^ 48 - 1 := by decide
  rw [pos, UInt64.toNat_and, h, Nat.and_two_pow_sub_one_eq_mod]

/-- A position takes 48 bits. -/
theorem pos_lt (n : Node) : n.pos < 2 ^ 48 := by
  rw [pos_eq_mod]
  exact Nat.mod_lt _ (by decide)

/-! ### Tiny hashes are kept apart from the other fields -/

/-- The tiny hash of a new node is the one given. -/
@[simp] theorem tinyHash_make (t : UInt8) (d : Int) (p : Nat) : (make t d p).tinyHash = t := by
  apply UInt8.toNat_inj.mp
  apply Nat.eq_of_testBit_eq
  intro i
  rw [testBit_tinyHash, testBit_make]
  by_cases h : i < 8
  · have h₁ : 56 + i < 64 := by omega
    have h₂ : ¬ 56 + i < 48 := by omega
    have h₃ : ¬ 56 + i < 56 := by omega
    simp [h, h₁, h₂, h₃]
  · have hb : t.toNat.testBit i = false := testBit_of_le (UInt8.toNat_lt _) (by omega)
    simp [h, hb]

/-- The tiny hash is kept when the distance is replaced. -/
@[simp] theorem tinyHash_withDistance (n : Node) (d : Int) :
    (n.withDistance d).tinyHash = n.tinyHash := by
  apply UInt8.toNat_inj.mp
  apply Nat.eq_of_testBit_eq
  intro i
  rw [testBit_tinyHash, testBit_tinyHash, testBit_withDistance]
  by_cases h : i < 8
  · have h₁ : 56 + i < 64 := by omega
    have h₂ : ¬ 56 + i < 56 := by omega
    simp [h, h₁, h₂]
  · simp [h]

/-- The tiny hash is kept when the position is replaced. -/
@[simp] theorem tinyHash_withPosition (n : Node) (p : Nat) :
    (n.withPosition p).tinyHash = n.tinyHash := by
  apply UInt8.toNat_inj.mp
  apply Nat.eq_of_testBit_eq
  intro i
  rw [testBit_tinyHash, testBit_tinyHash, testBit_withPosition]
  by_cases h : i < 8
  · have h₁ : 56 + i < 64 := by omega
    have h₂ : 48 ≤ 56 + i := by omega
    have h₃ : ¬ 56 + i < 48 := by omega
    simp [h, h₁, h₂, h₃]
  · simp [h]

/-! ### Distances are kept apart from the other fields -/

/-- A distance of the range of signed bytes is read back from its byte. -/
private theorem toInt_ofInt_toUInt8 {d : Int} (h : -128 ≤ d) (h' : d ≤ 127) :
    (Int8.ofInt d).toUInt8.toInt8.toInt = d := by
  rw [Int8.toInt8_toUInt8]
  exact Int8.toInt_ofInt_of_le (by omega) (by omega)

/-- The byte of the distance stands for the distance that was given. -/
theorem distanceByte_make (t : UInt8) (d : Int) (p : Nat) :
    (make t d p).distanceByte = (Int8.ofInt d).toUInt8 := by
  apply UInt8.toNat_inj.mp
  apply Nat.eq_of_testBit_eq
  intro i
  rw [testBit_distanceByte, testBit_make]
  by_cases h : i < 8
  · have h₁ : 48 + i < 56 := by omega
    have h₂ : ¬ 48 + i < 48 := by omega
    have h₃ : ¬ 56 ≤ 48 + i := by omega
    simp [h, h₁, h₂, h₃]
  · have hb : (Int8.ofInt d).toUInt8.toNat.testBit i = false :=
      testBit_of_le (UInt8.toNat_lt _) (by omega)
    simp [h, hb]

/-- The byte of the distance stands for the distance that was stored last. -/
theorem distanceByte_withDistance (n : Node) (d : Int) :
    (n.withDistance d).distanceByte = (Int8.ofInt d).toUInt8 := by
  apply UInt8.toNat_inj.mp
  apply Nat.eq_of_testBit_eq
  intro i
  rw [testBit_distanceByte, testBit_withDistance]
  by_cases h : i < 8
  · have h₁ : 48 + i < 56 := by omega
    have h₂ : ¬ 48 + i < 48 := by omega
    have h₃ : ¬ 56 ≤ 48 + i := by omega
    simp [h, h₁, h₂, h₃]
  · have hb : (Int8.ofInt d).toUInt8.toNat.testBit i = false :=
      testBit_of_le (UInt8.toNat_lt _) (by omega)
    simp [h, hb]

/-- A distance for which there is room in a byte is read as it was given. -/
@[simp] theorem distance_make (t : UInt8) {d : Int} (p : Nat) (h : -128 ≤ d) (h' : d ≤ 127) :
    (make t d p).distance = d := by
  rw [distance_eq, distanceByte_make, toInt_ofInt_toUInt8 h h']

/-- A distance for which there is room in a byte is read as it was stored last. -/
@[simp] theorem distance_withDistance (n : Node) {d : Int} (h : -128 ≤ d) (h' : d ≤ 127) :
    (n.withDistance d).distance = d := by
  rw [distance_eq, distanceByte_withDistance, toInt_ofInt_toUInt8 h h']

/-- The distance is kept when the position is replaced. -/
@[simp] theorem distance_withPosition (n : Node) (p : Nat) :
    (n.withPosition p).distance = n.distance := by
  have h : (n.withPosition p).distanceByte = n.distanceByte := by
    apply UInt8.toNat_inj.mp
    apply Nat.eq_of_testBit_eq
    intro i
    rw [testBit_distanceByte, testBit_distanceByte, testBit_withPosition]
    by_cases h : i < 8
    · have h₁ : 48 + i < 64 := by omega
      have h₂ : ¬ 48 + i < 48 := by omega
      simp [h, h₁, h₂]
    · simp [h]
  rw [distance_eq, distance_eq, h]

/-! ### Live, empty and removed nodes -/

@[simp] theorem pos_empty : empty.pos = noPosition := by decide

@[simp] theorem pos_tombstone : tombstone.pos = noPosition := by decide

@[simp] theorem tinyHash_empty : empty.tinyHash = 0 := by decide

@[simp] theorem tinyHash_tombstone : tombstone.tinyHash = 0 := by decide

@[simp] theorem distance_empty : empty.distance = -1 := by decide

@[simp] theorem distance_tombstone : tombstone.distance = 127 := by decide

@[simp] theorem isLive_empty : empty.isLive = false := by decide

@[simp] theorem isLive_tombstone : tombstone.isLive = false := by decide

@[simp] theorem isEmpty_empty : empty.isEmpty = true := by decide

@[simp] theorem isEmpty_tombstone : tombstone.isEmpty = false := by decide

@[simp] theorem isTombstone_empty : empty.isTombstone = false := by decide

@[simp] theorem isTombstone_tombstone : tombstone.isTombstone = true := by decide

/-- An empty node is told by its distance alone, whatever the other fields hold. -/
theorem isEmpty_iff (n : Node) : n.isEmpty ↔ n.distance = -1 := by
  simp [isEmpty, emptyDistance]

/-- A node at a distance from its home is not empty. -/
theorem isEmpty_of_nonneg {n : Node} (h : 0 ≤ n.distance) : n.isEmpty = false := by
  rw [Bool.eq_false_iff, ne_eq, isEmpty_iff]
  omega

/-- The node of a removed item is told by its distance alone. -/
theorem isTombstone_iff (n : Node) : n.isTombstone ↔ n.distance = 127 := by
  simp [isTombstone, tombstoneDistance]

/-- A node is live unless its distance is one of the two that are reserved. -/
theorem isLive_iff (n : Node) : n.isLive ↔ n.distance ≠ -1 ∧ n.distance ≠ 127 := by
  simp [isLive, isEmpty, isTombstone, emptyDistance, tombstoneDistance]

/-- A node stays live, or not, when its position is replaced. -/
@[simp] theorem isLive_withPosition (n : Node) (p : Nat) :
    (n.withPosition p).isLive = n.isLive := by
  rw [isLive, isLive, isEmpty, isTombstone, distance_withPosition]
  rfl

/-- A distance that is none of the two codes is that of a live node. -/
theorem isLive_of_range {n : Node} (h : 0 ≤ n.distance ∧ n.distance ≤ maxDistance) : n.isLive := by
  have hm : (maxDistance : Int) = 126 := rfl
  rw [isLive_iff]
  omega

/-- A live node is not empty. -/
theorem isEmpty_of_isLive {n : Node} (h : n.isLive) : n.isEmpty = false := by
  rw [isLive, Bool.and_eq_true] at h
  simpa using h.1

/-- A live node is not that of a removed item. -/
theorem isTombstone_of_isLive {n : Node} (h : n.isLive) : n.isTombstone = false := by
  rw [isLive, Bool.and_eq_true] at h
  simpa using h.2

/-- The tiny hash of a hash value tells a live node from the others. -/
theorem tiny_ne_zero (hash : UInt64) : tiny hash ≠ 0 := by
  show (if (hash >>> 56).toUInt8 = 0 then (1 : UInt8) else (hash >>> 56).toUInt8) ≠ 0
  split
  · decide
  · assumption

/-! ### The three fields together -/

/-- The values of the three fields of a node. -/
structure HasFields (n : Node) (tinyHash : UInt8) (distance : Int) (pos : Nat) : Prop where
  tinyHash_eq : n.tinyHash = tinyHash
  distance_eq : n.distance = distance
  pos_eq : n.pos = pos

/-- A new node has the fields that it is made of. -/
theorem make_hasFields (t : UInt8) {d : Int} (p : Nat) (h : -128 ≤ d) (h' : d ≤ 127) :
    (make t d p).HasFields t d (p % 2 ^ 48) :=
  ⟨tinyHash_make t d p, distance_make t p h h', pos_make t d p⟩

/-- A node with another distance has the two other fields of before. -/
theorem withDistance_hasFields (n : Node) {d : Int} (h : -128 ≤ d) (h' : d ≤ 127) :
    (n.withDistance d).HasFields n.tinyHash d n.pos :=
  ⟨tinyHash_withDistance n d, distance_withDistance n h h', pos_withDistance n d⟩

/-- A node with another position has the two other fields of before. -/
theorem withPosition_hasFields (n : Node) (p : Nat) :
    (n.withPosition p).HasFields n.tinyHash n.distance (p % 2 ^ 48) :=
  ⟨tinyHash_withPosition n p, distance_withPosition n p, pos_withPosition n p⟩

/-- The tiny hash as a number, read off the word. -/
theorem tinyHash_eq_div (n : Node) : n.tinyHash.toNat = n.word.toNat / 2 ^ 56 := by
  have h56 : (56 : UInt64).toNat % 64 = 56 := by decide
  have hlt := n.word.toNat_lt
  rw [tinyHash, UInt64.toNat_toUInt8, UInt64.toNat_shiftRight, h56, Nat.shiftRight_eq_div_pow]
  omega

/-- The byte of the distance as a number, read off the word. -/
theorem distanceByte_eq (n : Node) : n.distanceByte.toNat = n.word.toNat / 2 ^ 48 % 2 ^ 8 := by
  have h48 : (48 : UInt64).toNat % 64 = 48 := by decide
  rw [distanceByte, UInt64.toNat_toUInt8, UInt64.toNat_shiftRight, h48, Nat.shiftRight_eq_div_pow]

/-- A negative distance is stored as its remainder. -/
theorem distance_emod (n : Node) : n.distance % 2 ^ 8 = n.distanceByte.toNat := by
  have hsigned : n.distance = Int.bmod n.distanceByte.toNat (2 ^ 8) :=
    BitVec.toInt_eq_toNat_bmod _
  have hmod : Int.bmod n.distanceByte.toNat (2 ^ 8) % ((2 ^ 8 : Nat) : Int) =
      n.distanceByte.toNat % ((2 ^ 8 : Nat) : Int) := Int.bmod_emod
  have hlt := n.distanceByte.toNat_lt
  rw [hsigned]
  omega

/-- A distance takes 8 bits. -/
theorem distance_range (n : Node) : -128 ≤ n.distance ∧ n.distance ≤ 127 := by
  have hle := n.distanceByte.toInt8.le_toInt
  have hlt := n.distanceByte.toInt8.toInt_lt
  rw [distance_eq]
  omega

/-- A word is the sum of its fields, each at its place. -/
theorem word_eq (n : Node) : (n.word.toNat : Int) =
    n.tinyHash.toNat * 2 ^ 56 + n.distance % 2 ^ 8 * 2 ^ 48 + n.pos := by
  have hlt := n.word.toNat_lt
  rw [distance_emod, distanceByte_eq, tinyHash_eq_div, pos_eq_mod]
  omega

/-- A node is built again from its fields. -/
theorem make_fields (n : Node) : make n.tinyHash n.distance n.pos = n := by
  have hbyte : (Int8.ofInt n.distance).toUInt8 = n.distanceByte := by
    rw [distance_eq, Int8.ofInt_toInt, UInt8.toUInt8_toInt8]
  apply ext_testBit
  intro i
  rw [testBit_make, testBit_pos, hbyte, testBit_distanceByte, testBit_tinyHash]
  -- every bit belongs to exactly one field
  by_cases h : i < 48
  · have h₁ : ¬ 48 ≤ i := by omega
    have h₂ : ¬ 56 ≤ i := by omega
    simp [h, h₁, h₂]
  · have h₁ : 48 ≤ i := by omega
    by_cases h' : i < 56
    · have h₂ : ¬ 56 ≤ i := by omega
      have h₃ : i - 48 < 8 := by omega
      simp [h, h', h₁, h₂, h₃]
    · have h₂ : 56 ≤ i := by omega
      by_cases h₃ : i < 64
      · have h₄ : i - 56 < 8 := by omega
        simp [h, h', h₁, h₂, h₃, h₄]
      · have hb : n.word.toNat.testBit i = false := testBit_of_le (UInt64.toNat_lt _) (by omega)
        simp [h, h', h₂, h₃, hb]

/-- The distance and the position of a node are changed in either order. -/
theorem withPosition_withDistance (n : Node) (d : Int) (p : Nat) :
    (n.withDistance d).withPosition p = (n.withPosition p).withDistance d := by
  apply ext_testBit
  intro i
  rw [testBit_withPosition, testBit_withDistance, testBit_withDistance, testBit_withPosition]
  by_cases h : i < 48
  · have h₁ : ¬ 48 ≤ i := by omega
    simp [h, h₁]
  · have h₁ : 48 ≤ i := by omega
    by_cases h' : i < 56
    · have h₂ : ¬ 56 ≤ i := by omega
      have h₃ : i < 64 := by omega
      simp [h, h', h₁, h₂, h₃]
    · have h₂ : 56 ≤ i := by omega
      simp [h, h', h₁, h₂]

/-- Whether a node is on a position is decided by comparing the bits of the position only. -/
theorem holds_iff (n : Node) (p : Nat) : n.holds p ↔ n.pos = p := by
  rw [holds, beq_iff_eq]

/-- A node does not hold a position that it does not have. -/
theorem holds_of_ne {n : Node} {p : Nat} (h : n.pos ≠ p) : n.holds p = false := by
  rwa [Bool.eq_false_iff, ne_eq, holds_iff]

/-- A word is the sum of its three fields, of 8, 8 and 48 bits. They are read back as a node is
    built from them, with the lowest 48 bits of the position, and a node is built again from its
    own. The distance and the position are each changed alone, and in either order. A node holds
    exactly the one position that its 48 bits spell, and so none that is larger. With a position
    that an item can have and a distance that a live node can have, it holds none of the two
    reserved positions, and is neither empty nor a tombstone. -/
theorem fields_apart :
    (∀ n : Node, (n.word.toNat : Int) =
        n.tinyHash.toNat * 2 ^ 56 + n.distance % 2 ^ 8 * 2 ^ 48 + n.pos ∧
      (-128 ≤ n.distance ∧ n.distance ≤ 127) ∧ n.pos < 2 ^ 48) ∧
    (∀ (t : UInt8) (d : Int) (p : Nat), -128 ≤ d → d ≤ 127 →
      (make t d p).HasFields t d (p % 2 ^ 48)) ∧
    (∀ n : Node, make n.tinyHash n.distance n.pos = n) ∧
    (∀ (n : Node) (d : Int), -128 ≤ d → d ≤ 127 →
      (n.withDistance d).HasFields n.tinyHash d n.pos) ∧
    (∀ (n : Node) (p : Nat), (n.withPosition p).HasFields n.tinyHash n.distance (p % 2 ^ 48)) ∧
    (∀ (n : Node) (d : Int) (p : Nat),
      (n.withDistance d).withPosition p = (n.withPosition p).withDistance d) ∧
    (∀ (n : Node) (p : Nat), (n.holds p ↔ n.word.toNat % 2 ^ 48 = p) ∧
      (2 ^ 48 ≤ p → n.holds p = false)) ∧
    ∀ (n : Node) (t : UInt8) (d : Int) (p : Nat), n.HasFields t d p →
      p < 2 ^ 48 - 2 → 0 ≤ d → d ≤ 126 →
        n.holds noPosition = false ∧ n.holds movingPosition = false ∧
          n.isEmpty = false ∧ n.isTombstone = false := by
  refine ⟨fun n => ⟨n.word_eq, n.distance_range, n.pos_lt⟩, fun t d p => make_hasFields t p,
    make_fields, fun n d => withDistance_hasFields n, withPosition_hasFields,
    withPosition_withDistance, fun n p => ⟨?_, fun hp => ?_⟩, fun n t d p h hp hd hd' => ?_⟩
  · rw [holds_iff, pos_eq_mod]
  · exact holds_of_ne (Nat.ne_of_lt (Nat.lt_of_lt_of_le n.pos_lt hp))
  · obtain ⟨-, rfl, rfl⟩ := h
    have hno : noPosition = 2 ^ 48 - 1 := by decide
    have hmoving : movingPosition = 2 ^ 48 - 2 := by decide
    have hlive : n.isLive := isLive_of_range ⟨hd, hd'⟩
    exact ⟨holds_of_ne (by omega), holds_of_ne (by omega), isEmpty_of_isLive hlive,
      isTombstone_of_isLive hlive⟩

/-- All bits of a word are ones, and then those of its distance are others; the greatest
    position that an item can have lies one below the reserved ones. -/
theorem fields_apart_ones :
    (make 0xff (-1) (2 ^ 64 - 1)).HasFields 0xff (-1) (2 ^ 48 - 1) ∧
      ((make 0xff (-1) (2 ^ 64 - 1)).withDistance 126).HasFields 0xff 126 (2 ^ 48 - 1) ∧
      (make 0xff (-1) (2 ^ 64 - 1)).holds (2 ^ 64 - 1) = false ∧
      (make 1 126 (2 ^ 48 - 3)).holds movingPosition = false ∧
      (make 1 126 (2 ^ 48 - 3)).isTombstone = false := by
  obtain ⟨-, hmake, -, hdistance, -, -, hholds, hlive⟩ := fields_apart
  have hones := hmake 0xff (-1) (2 ^ 64 - 1) (by decide) (by decide)
  have hgreatest := hlive _ _ _ _ (hmake 1 126 (2 ^ 48 - 3) (by decide) (by decide))
    (by decide) (by decide) (by decide)
  refine ⟨hones, ?_, (hholds _ _).2 (by decide), hgreatest.2.1, hgreatest.2.2.2⟩
  have hchanged := hdistance (make 0xff (-1) (2 ^ 64 - 1)) 126 (by decide) (by decide)
  rwa [hones.tinyHash_eq, hones.pos_eq] at hchanged

end Node

end OrderedHash
