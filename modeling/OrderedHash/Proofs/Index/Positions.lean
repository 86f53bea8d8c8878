import OrderedHash.Index.Remove
import OrderedHash.Proofs.Index.Erasure
import OrderedHash.Proofs.Index.Growth
import Mathlib.Data.List.GetD
import Mathlib.Tactic.SplitIfs

namespace OrderedHash

namespace Index

open Function (update)

/-!
# What the operations do to the positions

An operation on an index of the positions below `count` gives an index of the positions
below another number, with hash values that are told in terms of those before.

Where positions are added or removed, those after them are shifted first or last:
`Indexes.insertAt`, `Indexes.removeShifting`, `Indexes.removeSwapping` and
`Indexes.removeRange`. Where they are only reordered, position `q` gets the hash value that
position `g q` had, and `g` is given: `Indexes.reversePositions`, `Indexes.move`,
`Indexes.exchange` and `Indexes.permute`.
-/

variable {ix ix' : Index} {P P' : Nat → Option UInt64} {count : Nat} {hashAt : Nat → UInt64}

/-! ### Adding a position -/

/-- The hash values after a position was added. -/
def insertedAt (pos : Nat) (hash : UInt64) (hashAt : Nat → UInt64) (p : Nat) : UInt64 :=
  if p < pos then hashAt p else if p = pos then hash else hashAt (p - 1)

/-- By one up is the next position. -/
theorem moved_one (p : Nat) : moved p 1 = p + 1 := by
  rw [moved]
  omega

/-- By a number down is to subtract it. -/
theorem moved_neg (p k : Nat) : moved p (-(k : Int)) = p - k := by
  rw [moved]
  omega

/-- The positions from `pos` on are shifted up by one, which leaves `pos` free. -/
theorem renames_up {pos : Nat} (hpos : pos ≤ count) (hcount : count < Node.noPosition)
    (hash : UInt64) : Renames (shifted pos count 1) (below count hashAt)
      (update (below (count + 1) (insertedAt pos hash hashAt)) pos none) := by
  refine Renames.of_inverse (g := fun q => if q < pos then q else q - 1) ?_ ?_
  -- positions from the new one on move up
  · intro p h hp
    rw [below_eq_some] at hp
    obtain ⟨hp, rfl⟩ := hp
    rw [shifted, moved_one]
    by_cases hle : pos ≤ p
    · rw [if_pos ⟨hle, hp⟩, Function.update_of_ne (by omega), below_of_lt (by omega), insertedAt,
        if_neg (by omega), if_neg (by omega), if_neg (by omega), Nat.add_sub_cancel]
      exact ⟨rfl, rfl, by omega⟩
    · rw [if_neg (by omega), Function.update_of_ne (by omega), below_of_lt (by omega), insertedAt,
        if_pos (by omega), if_pos (by omega)]
      exact ⟨rfl, rfl, by omega⟩
  -- and all but the new one come from somewhere
  · intro q h hq
    by_cases hqp : q = pos
    · rw [hqp, Function.update_self] at hq
      cases hq
    · rw [Function.update_of_ne hqp, below_eq_some, insertedAt, if_neg hqp] at hq
      obtain ⟨hq, rfl⟩ := hq
      by_cases hlt : q < pos
      · rw [if_pos hlt, if_pos hlt, below_of_lt (by omega), shifted, if_neg (by omega)]
        exact ⟨rfl, rfl⟩
      · rw [if_neg hlt, if_neg hlt, below_of_lt (by omega), shifted, if_pos (by omega), moved_one]
        exact ⟨rfl, by omega⟩

/-- The positions from one on can be moved up, as the one behind them all is free. -/
theorem shiftable_up (pos : Nat) (hcount : count < Node.noPosition) :
    Shiftable (below count hashAt) pos count 1 := by
  refine ⟨fun p _ hp => ?_, by omega, fun p hle hp => ?_, fun p _ hp => ?_⟩
  · rw [below_of_lt hp]
    exact nofun
  · rw [moved_one]
    -- the last one moves to a position not in use, and the others within the range
    by_cases hlast : p + 1 < count
    · exact Or.inr ⟨by omega, hlast⟩
    · exact Or.inl (below_of_le (by omega))
  · rw [moved_one]
    omega

namespace Indexes

/-- A position is added once the index has grown for it, and those from it on are shifted up. -/
theorem insertAt_added (h : ix.Indexes count hashAt) {pos : Nat} (hpos : pos ≤ count)
    (hcount : count < Node.noPosition) (hash : UInt64) :
    Added (ix.growForInsert hashAt) (ix.insertAt pos count hash hashAt)
      (below (count + 1) (insertedAt pos hash hashAt)) := by
  obtain ⟨hgrown, hmin, hfill⟩ := h.growForInsert
  have hshift := hgrown.holds.shiftPositions_relabels (shiftable_up pos hcount) hashAt
  have hsound := hgrown.relabel hshift (renames_up hpos hcount hash)
  rw [← hshift.bucketCount] at hmin hfill
  rw [← hshift.size, ← hshift.tombstones] at hfill
  have hadded := hsound.insertNode hmin hfill hash (Function.update_self ..)
    (lt_of_le_of_lt hpos hcount)
  -- the shift leaves the new position free, which is then filled
  have hcontents : update (update (below (count + 1) (insertedAt pos hash hashAt)) pos none) pos
      (some hash) = below (count + 1) (insertedAt pos hash hashAt) := by
    have hat : below (count + 1) (insertedAt pos hash hashAt) pos = some hash := by
      rw [below_of_lt (by omega), insertedAt, if_neg (lt_irrefl pos), if_pos rfl]
    rw [Function.update_idem, ← hat, Function.update_eq_self]
  rw [hcontents] at hadded
  exact ⟨hadded.sound, hadded.bucketCount.trans hshift.bucketCount,
    hadded.size.trans (congrArg (· + 1) hshift.size),
    hadded.tombstones_le.trans hshift.tombstones.le,
    hadded.loadFactor.trans hshift.loadFactor⟩

/-- A position is inserted, and the later ones come one later. -/
theorem insertAt (h : ix.Indexes count hashAt) {pos : Nat} (hpos : pos ≤ count)
    (hcount : count < Node.noPosition) (hash : UInt64) :
    (ix.insertAt pos count hash hashAt).Indexes (count + 1) (insertedAt pos hash hashAt) :=
  (h.insertAt_added hpos hcount hash).sound

end Indexes

/-! ### Removing positions -/

/-- The node of a position is removed with it. -/
theorem Sound.unlink (h : ix.Sound P) {p : Nat} {k : UInt64} (hp : P p = some k) (hash : UInt64) :
    (ix.unlink hash p).Sound (update P p none) := by
  obtain ⟨b, hb, rfl, hfind⟩ := h.holds.findNode_eq hp
  rw [Index.unlink, hfind]
  exact (h.eraseNode hb).sound

/-- Where position `p` comes from when `k` positions from `first` on are removed. -/
def skipping (first k p : Nat) : Nat := if p < first then p else p + k

/-- Where position `p` comes from when `last` takes the place of `pos`. -/
def refilling (pos last p : Nat) : Nat := if p = pos then last else p

/-- What is stored once the positions of a range have been removed. -/
def withoutRange (first last count : Nat) (hashAt : Nat → UInt64) (p : Nat) : Option UInt64 :=
  if first ≤ p ∧ p < last then none else below count hashAt p

/-- A range of one position is that position. -/
theorem withoutRange_single (pos count : Nat) (hashAt : Nat → UInt64) :
    withoutRange pos (pos + 1) count hashAt = update (below count hashAt) pos none := by
  funext p
  rw [withoutRange]
  by_cases hp : p = pos
  · rw [hp, Function.update_self, if_pos ⟨le_rfl, Nat.lt_succ_self pos⟩]
  · rw [Function.update_of_ne hp, if_neg (by omega)]

/-- The positions after a range that is free are shifted down to its start. -/
theorem renames_down {first last : Nat} (hle : first ≤ last) (hlast : last ≤ count)
    (hcount : count ≤ Node.noPosition) :
    Renames (shifted last count (-((last - first : Nat) : Int)))
      (withoutRange first last count hashAt)
      (below (count - (last - first)) (hashAt ∘ skipping first (last - first))) := by
  refine Renames.of_inverse (g := skipping first (last - first)) ?_ ?_
  · intro p h hp
    rw [withoutRange] at hp
    by_cases hin : first ≤ p ∧ p < last
    · rw [if_pos hin] at hp
      cases hp
    · rw [if_neg hin, below_eq_some] at hp
      obtain ⟨hp, rfl⟩ := hp
      rw [shifted, moved_neg]
      -- a position kept is after the range or before it
      by_cases hpl : last ≤ p
      · rw [if_pos ⟨hpl, hp⟩, below_of_lt (by omega), Function.comp_apply, skipping,
          if_neg (by omega), show p - (last - first) + (last - first) = p by omega]
        exact ⟨rfl, rfl, by omega⟩
      · rw [if_neg (by omega), below_of_lt (by omega), Function.comp_apply, skipping,
          if_pos (by omega)]
        exact ⟨rfl, rfl, by omega⟩
  · intro q h hq
    rw [below_eq_some, Function.comp_apply] at hq
    obtain ⟨hq, rfl⟩ := hq
    rw [skipping, withoutRange]
    by_cases hqf : q < first
    · rw [if_pos hqf, if_neg (by omega), below_of_lt (by omega), shifted, if_neg (by omega)]
      exact ⟨rfl, rfl⟩
    · rw [if_neg hqf, if_neg (by omega), below_of_lt (by omega), shifted, if_pos (by omega),
        moved_neg]
      exact ⟨rfl, by omega⟩

/-- The gap takes the first of the positions after it, and they make room for the others. -/
theorem shiftable_down {first last : Nat} (hle : first ≤ last) (hcount : count ≤ Node.noPosition) :
    Shiftable (withoutRange first last count hashAt) last count
      (-((last - first : Nat) : Int)) := by
  refine ⟨fun p hp hpc => ?_, by omega, fun p hp hpc => ?_, fun p hp hpc => ?_⟩
  · rw [withoutRange, if_neg (by omega), below_of_lt hpc]
    exact nofun
  · rw [moved_neg]
    by_cases hin : p - (last - first) < last
    · exact Or.inl (if_pos ⟨by omega, hin⟩)
    · exact Or.inr ⟨by omega, by omega⟩
  · rw [moved_neg]
    omega

/-- The positions after a range that is free are shifted down to its start. -/
theorem Sound.shiftDown {first last : Nat} (hle : first ≤ last) (hlast : last ≤ count)
    (hcount : count ≤ Node.noPosition) (h : ix.Sound (withoutRange first last count hashAt))
    (hashAt' : Nat → UInt64) :
    (ix.shiftPositions last count (-((last - first : Nat) : Int)) hashAt').Indexes
      (count - (last - first)) (hashAt ∘ skipping first (last - first)) :=
  h.relabel (h.holds.shiftPositions_relabels (shiftable_down hle hcount) hashAt')
    (renames_down hle hlast hcount)

/-- The positions of a range are removed one by one. -/
theorem Indexes.unlinkRange (h : ix.Indexes count hashAt) (first k : Nat)
    (hk : first + k ≤ count) :
    ((List.range' first k).foldl (fun ix p => ix.unlink (hashAt p) p) ix).Sound
      (withoutRange first (first + k) count hashAt) := by
  induction k with
  | zero =>
    have hcontents : withoutRange first (first + 0) count hashAt = below count hashAt := by
      funext p
      exact if_neg (by omega)
    rw [hcontents]
    exact h
  | succ k ih =>
    have hsound := ih (by omega)
    have hstored : withoutRange first (first + k) count hashAt (first + k) =
        some (hashAt (first + k)) := by
      rw [withoutRange, if_neg (by omega), below_of_lt (by omega)]
    have hnext := hsound.unlink hstored (hashAt (first + k))
    -- after each node removed, the positions up to its own are free
    have hcontents : update (withoutRange first (first + k) count hashAt) (first + k) none =
        withoutRange first (first + (k + 1)) count hashAt := by
      funext p
      rw [withoutRange]
      by_cases hp : p = first + k
      · rw [hp, Function.update_self, if_pos (by omega)]
      · rw [Function.update_of_ne hp, withoutRange]
        by_cases hin : first ≤ p ∧ p < first + k
        · rw [if_pos hin, if_pos (by omega)]
        · rw [if_neg hin, if_neg (by omega)]
    rw [hcontents] at hnext
    rw [List.range'_concat, List.foldl_append, Nat.one_mul]
    exact hnext

namespace Indexes

/-- A position is removed, and those after it are shifted down. -/
theorem removeShifting (h : ix.Indexes count hashAt) {pos : Nat} (hpos : pos < count) :
    (ix.removeShifting pos count hashAt).Indexes (count - 1) (hashAt ∘ skipping pos 1) := by
  have hsound := Sound.unlink h (below_of_lt hpos) (hashAt pos)
  rw [← withoutRange_single] at hsound
  have hdown := hsound.shiftDown (Nat.le_add_right pos 1) hpos h.le_noPosition hashAt
  rwa [Nat.add_sub_cancel_left] at hdown

/-- A range of positions is removed, and those after it are shifted down. -/
theorem removeRange (h : ix.Indexes count hashAt) {first last : Nat} (hle : first ≤ last)
    (hlast : last ≤ count) : (ix.removeRange first last count hashAt).Indexes
      (count - (last - first)) (hashAt ∘ skipping first (last - first)) := by
  have hsound := h.unlinkRange first (last - first) (by omega)
  rw [Nat.add_sub_cancel' hle] at hsound
  exact hsound.shiftDown hle hlast h.le_noPosition hashAt

/-- Where the last position takes the place of another one, the others stay. -/
theorem below_refilling_of_ne {pos p : Nat} (hp : p ≠ pos) (hlast : p ≠ count - 1) :
    below (count - 1) (hashAt ∘ refilling pos (count - 1)) p = below count hashAt p := by
  rw [below, below, Function.comp_apply, refilling, if_neg hp]
  by_cases hlt : p < count - 1
  · rw [if_pos hlt, if_pos (by omega)]
  · rw [if_neg hlt, if_neg (by omega)]

/-- A position is removed and given to the last one. -/
theorem removeSwapping (h : ix.Indexes count hashAt) {pos : Nat} (hpos : pos < count) :
    (ix.removeSwapping pos count hashAt).Indexes (count - 1)
      (hashAt ∘ refilling pos (count - 1)) := by
  have hsound := Sound.unlink h (below_of_lt hpos) (hashAt pos)
  rw [Index.removeSwapping]
  by_cases hlast : pos = count - 1
  -- the last position has none to be replaced by
  · rw [if_pos hlast]
    have hcontents : update (below count hashAt) pos none =
        below (count - 1) (hashAt ∘ refilling pos (count - 1)) := by
      funext p
      by_cases hp : p = pos
      · rw [hp, Function.update_self, below_of_le (by omega)]
      · rw [Function.update_of_ne hp, below_refilling_of_ne hp (hlast ▸ hp)]
    rw [Indexes, ← hcontents]
    exact hsound
  · rw [if_neg hlast]
    have hstored : update (below count hashAt) pos none (count - 1) =
        some (hashAt (count - 1)) := by
      rw [Function.update_of_ne (Ne.symm hlast), below_of_lt (by omega)]
    have hbelow : pos < Node.noPosition := lt_of_lt_of_le hpos h.le_noPosition
    -- the last position moves into the gap
    have hrenamed := hsound.relabel
      (hsound.holds.renumber_relabels hstored (hashAt (count - 1)) pos)
      (hsound.holds.renames_single hstored (Function.update_self ..) hbelow)
    have hcontents : update (update (update (below count hashAt) pos none) (count - 1) none) pos
        (some (hashAt (count - 1))) =
        below (count - 1) (hashAt ∘ refilling pos (count - 1)) := by
      funext p
      by_cases hp : p = pos
      · rw [hp, Function.update_self, below_of_lt (by omega), Function.comp_apply, refilling,
          if_pos rfl]
      · rw [Function.update_of_ne hp]
        by_cases hpl : p = count - 1
        · rw [hpl, Function.update_self, below_of_le le_rfl]
        · rw [Function.update_of_ne hpl, Function.update_of_ne hp, below_refilling_of_ne hp hpl]
    rw [Indexes, ← hcontents]
    exact hrenamed

end Indexes

/-! ### Reordering positions -/

/-- Where position `x` comes from when the positions `p` and `q` are exchanged. -/
def exchanged (p q x : Nat) : Nat := if x = p then q else if x = q then p else x

/-- Where position `q` comes from when `source` is moved to `target`. -/
def movedFrom (source target q : Nat) : Nat :=
  if q = target then source
  else if source ≤ q ∧ q < target then q + 1
  else if target < q ∧ q ≤ source then q - 1
  else q

/-- Where position `q` comes from when the positions from `first` on are given to the nodes
    of the positions `order`. -/
def permutedFrom (first : Nat) (order : List Nat) (q : Nat) : Nat :=
  if q < first then q else order.getD (q - first) q

/-- What becomes of position `p` when the positions from `first` on are given to the nodes of
    the positions `order`. -/
def permutedTo (first : Nat) (order : List Nat) (p : Nat) : Nat :=
  if p ∈ order then first + order.idxOf p else p

section

variable {first : Nat} {order : List Nat}

/-- The positions of the order are those of the range. -/
theorem mem_of_perm_range (hperm : order.Perm (List.range' first order.length)) (p : Nat) :
    p ∈ order ↔ first ≤ p ∧ p < first + order.length := by
  rw [hperm.mem_iff, List.mem_range'_1]

/-- A position comes from one that goes there. -/
theorem permutedFrom_inverse (hperm : order.Perm (List.range' first order.length))
    (hle : first + order.length ≤ count) :
    ∀ q < count, permutedFrom first order q < count ∧
      permutedTo first order (permutedFrom first order q) = q := by
  intro q hq
  have hmem := mem_of_perm_range hperm
  rw [permutedFrom, permutedTo]
  by_cases hin : first ≤ q ∧ q < first + order.length
  · have hidx : q - first < order.length := by omega
    rw [if_neg (by omega), List.getD_eq_getElem _ _ hidx]
    have hget := List.getElem_mem hidx
    have hlt := (hmem _).mp hget
    have hnodup : order.Nodup := hperm.nodup_iff.mpr List.nodup_range'
    rw [if_pos hget, hnodup.idxOf_getElem]
    omega
  -- outside the range positions stay
  · have hfix : (if q < first then q else order.getD (q - first) q) = q := by
      split
      · rfl
      · exact List.getD_eq_default _ _ (by omega)
    rw [hfix, if_neg (by rwa [hmem])]
    exact ⟨hq, rfl⟩

/-- A position goes to one that it comes from. -/
theorem permutedTo_inverse (hperm : order.Perm (List.range' first order.length))
    (hle : first + order.length ≤ count) :
    ∀ p < count, permutedTo first order p < count ∧
      permutedFrom first order (permutedTo first order p) = p := by
  intro p hp
  rw [permutedFrom, permutedTo]
  -- the order is of the positions in the range, and the others stay
  by_cases hin : p ∈ order
  · have hidx := List.idxOf_lt_length_iff.mpr hin
    rw [if_pos hin, if_neg (by omega), Nat.add_sub_cancel_left, List.getD_eq_getElem _ _ hidx,
      List.getElem_idxOf]
    exact ⟨by omega, rfl⟩
  · rw [if_neg hin]
    rw [mem_of_perm_range hperm] at hin
    by_cases hlt : p < first
    · rw [if_pos hlt]
      exact ⟨hp, rfl⟩
    · rw [if_neg hlt, List.getD_eq_default _ _ (by omega)]
      exact ⟨hp, rfl⟩

end

/-- Two positions that change places twice are where they were. -/
theorem exchanged_inverse {p q : Nat} (hp : p < count) (hq : q < count) :
    ∀ x < count, exchanged p q x < count ∧ exchanged p q (exchanged p q x) = x := by
  intro x hx
  rw [exchanged, exchanged]
  split_ifs <;> omega

/-- A position that was moved is moved back. -/
theorem movedFrom_inverse {source target : Nat} (hs : source < count) (ht : target < count) :
    ∀ q < count, movedFrom source target q < count ∧
      movedFrom target source (movedFrom source target q) = q := by
  intro q hq
  rw [movedFrom, movedFrom]
  split_ifs <;> omega

/-! ### Shifting the positions between two others -/

/-- What becomes of a position when the position `source` is free and those between it and
    `target` are shifted by one, in one of two directions. -/
def shiftedBetween (source target : Nat) : Nat → Nat :=
  if source < target then shifted (source + 1) (target + 1) (-1) else shifted target source 1

/-- To shift the positions between two others puts each where the move of the one leaves it. -/
theorem shiftedBetween_eq {source target p : Nat} (hp : p ≠ source) :
    shiftedBetween source target p = movedFrom target source p := by
  have hdown : moved p (-1) = p - 1 := moved_neg p 1
  rw [movedFrom, if_neg hp]
  by_cases hst : source < target
  · rw [shiftedBetween, if_pos hst, shifted, hdown]
    split_ifs <;> omega
  · rw [shiftedBetween, if_neg hst, shifted, moved_one]
    split_ifs <;> omega

/-- What is stored while the node of position `source` holds a position of its own. -/
def lifted (count : Nat) (hashAt : Nat → UInt64) (source : Nat) : Nat → Option UInt64 :=
  update (update (below count hashAt) source none) Node.movingPosition (some (hashAt source))

section Lifted

variable {source target : Nat} (hsource : source < count) (htarget : target < count)
  (hcount : count ≤ Node.movingPosition)

include hcount

/-- Other positions are stored under their hash values meanwhile. -/
theorem lifted_of_ne {p : Nat} (hp : p < count) (hne : p ≠ source) :
    lifted count hashAt source p = some (hashAt p) := by
  rw [lifted, Function.update_of_ne (by omega), Function.update_of_ne hne, below_of_lt hp]

include hsource

/-- The position that is moved is free meanwhile. -/
theorem lifted_source : lifted count hashAt source source = none := by
  rw [lifted, Function.update_of_ne (by omega), Function.update_self]

/-- The first position shifted up goes to the one that is free. -/
theorem shiftable_lifted_up : Shiftable (lifted count hashAt source) target source 1 := by
  have hmoving : Node.movingPosition < Node.noPosition := by decide
  refine ⟨fun p _ hlt => ?_, by omega, fun p hle hlt => ?_, fun p _ _ => by rw [moved_one]; omega⟩
  · rw [lifted_of_ne hcount (by omega) (by omega)]
    exact nofun
  · rw [moved_one]
    by_cases hps : p + 1 = source
    · rw [hps]
      exact Or.inl (lifted_source hsource hcount)
    · exact Or.inr (by omega)

include htarget

/-- The first position shifted down goes to the one that is free. -/
theorem shiftable_lifted_down :
    Shiftable (lifted count hashAt source) (source + 1) (target + 1) (-1) := by
  have hmoving : Node.movingPosition < Node.noPosition := by decide
  have hdown : ∀ p : Nat, moved p (-1) = p - 1 := fun p => moved_neg p 1
  refine ⟨fun p hle hlt => ?_, by omega, fun p hle hlt => ?_, fun p _ _ => by rw [hdown]; omega⟩
  · rw [lifted_of_ne hcount (by omega) (by omega)]
    exact nofun
  · rw [hdown]
    by_cases hps : p - 1 = source
    · rw [hps]
      exact Or.inl (lifted_source hsource hcount)
    · exact Or.inr (by omega)

/-- The positions between two others are shifted, in the direction that the free position allows. -/
theorem Holds.shiftBetween (h : ix.Holds (lifted count hashAt source)) (hashAt' : Nat → UInt64) :
    Relabels (shiftedBetween source target) ix
      (if source < target then ix.shiftPositions (source + 1) (target + 1) (-1) hashAt'
        else ix.shiftPositions target source 1 hashAt') := by
  unfold shiftedBetween
  split
  · exact h.shiftPositions_relabels (shiftable_lifted_down hsource htarget hcount) hashAt'
  · exact h.shiftPositions_relabels (shiftable_lifted_up hsource hcount) hashAt'

end Lifted

/-- The node of a position is given a position of its own. -/
theorem Indexes.lift (h : ix.Indexes count hashAt) {source b : Nat} (hsource : source < count)
    (hcount : count ≤ Node.movingPosition) (hb : (ix.node b).isLive)
    (hpos : (ix.node b).pos = source) :
    Relabels (fun x => if x = source then Node.movingPosition else x) ix
        (ix.setPosition b Node.movingPosition) ∧
      (ix.setPosition b Node.movingPosition).Holds (lifted count hashAt source) := by
  have hlift := (Relabels.refl ix).setPosition h.holds hb Node.movingPosition
  rw [hpos] at hlift
  exact ⟨hlift, hlift.holds h.holds (h.holds.renames_single (below_of_lt hsource)
    (below_of_le hcount) (by decide))⟩

namespace Indexes

/-- Positions are reordered by a function and its inverse. -/
theorem reorder (h : ix.Indexes count hashAt) {f g : Nat → Nat} (r : Relabels f ix ix')
    (hf : ∀ p < count, f p < count ∧ g (f p) = p) (hg : ∀ q < count, g q < count ∧ f (g q) = q) :
    ix'.Indexes count (hashAt ∘ g) := by
  refine h.relabel r (Renames.of_inverse (g := g) ?_ ?_)
  · intro p k hp
    rw [below_eq_some] at hp
    obtain ⟨hp, rfl⟩ := hp
    obtain ⟨hlt, hinv⟩ := hf p hp
    rw [below_of_lt hlt, Function.comp_apply, hinv]
    exact ⟨rfl, rfl, lt_of_lt_of_le hlt h.le_noPosition⟩
  · intro q k hq
    rw [below_eq_some] at hq
    obtain ⟨hq, rfl⟩ := hq
    obtain ⟨hlt, hinv⟩ := hg q hq
    exact ⟨below_of_lt hlt, hinv⟩

/-- All positions are reversed at once. -/
theorem reversePositions (h : ix.Indexes count hashAt) :
    (ix.reversePositions count).Indexes count (hashAt ∘ fun q => count - 1 - q) := by
  refine h.reorder (ix.mapPositions_relabels _) (fun p hp => ?_) (fun q hq => ?_)
  · rw [if_pos hp]
    omega
  · rw [if_pos (by omega)]
    omega

/-- Two positions are exchanged. -/
theorem exchange (h : ix.Indexes count hashAt) {p q : Nat} (hp : p < count) (hq : q < count)
    (hpq : p ≠ q) :
    (ix.exchange p q hashAt).Indexes count (hashAt ∘ exchanged p q) := by
  obtain ⟨b, hb, hbp, hfindp⟩ := h.holds.findNode_eq (below_of_lt hp)
  obtain ⟨c, hc, hcq, hfindq⟩ := h.holds.findNode_eq (below_of_lt hq)
  rw [Index.exchange, hfindp, hfindq]
  have hfirst := (Relabels.refl ix).setPosition h.holds hb q
  have hboth := hfirst.setPosition h.holds hc p
  rw [hbp, hcq] at hboth
  have hrelabels := hboth.congr (g := exchanged p q) fun d _ => by
    rw [exchanged]
    split
    · rename_i heq
      rw [heq, if_neg (Ne.symm hpq)]
    · rfl
  exact h.reorder hrelabels (exchanged_inverse hp hq) (exchanged_inverse hp hq)

/-- A position is moved. The node moved holds a position of its own meanwhile. -/
theorem move (h : ix.Indexes count hashAt) {source target : Nat} (hsource : source < count)
    (htarget : target < count) (hcount : count ≤ Node.movingPosition) :
    (ix.move source target hashAt).Indexes count (hashAt ∘ movedFrom source target) := by
  obtain ⟨b, hb, hbs, hfind⟩ := h.holds.findNode_eq (below_of_lt hsource)
  -- the node is lifted out, so that its position becomes free
  obtain ⟨hlift, hlifted⟩ := h.lift hsource hcount hb hbs
  have hshift := hlifted.shiftBetween hsource htarget hcount hashAt
  have hbelow : ∀ c, (ix.node c).isLive →
      (if (ix.node c).pos = source then Node.movingPosition else (ix.node c).pos)
        < Node.noPosition := by
    intro c hc
    obtain ⟨hash, hs, -⟩ := h.holds.stored c hc
    have := h.holds.below _ _ hs
    split
    · decide
    · exact this
  -- the three steps together: out, shift, and in at the target
  have hrelabels := (hlift.trans hshift hbelow).setPosition h.holds hb target
  rw [hbs] at hrelabels
  have hmove : ix.move source target hashAt =
      (if source < target then
        (ix.setPosition b Node.movingPosition).shiftPositions (source + 1) (target + 1) (-1) hashAt
      else (ix.setPosition b Node.movingPosition).shiftPositions target source 1 hashAt).setPosition
        b target := by
    rw [Index.move, hfind]
  rw [hmove]
  refine h.reorder (hrelabels.congr (g := movedFrom target source) fun c hc => ?_)
    (movedFrom_inverse htarget hsource) (movedFrom_inverse hsource htarget)
  by_cases hps : (ix.node c).pos = source
  · rw [if_pos hps, movedFrom, if_pos hps]
  · rw [if_neg hps, Function.comp_apply, if_neg hps, shiftedBetween_eq hps]

/-- The node of each position can be found beforehand, in some bucket. -/
theorem exists_buckets (h : ix.Indexes count hashAt) :
    ∃ bucket : Nat → Nat, ∀ p < count, (ix.node (bucket p)).isLive ∧
      (ix.node (bucket p)).pos = p ∧ ∀ hash, ix.findNode hash p = some (bucket p) := by
  refine ⟨fun p => (ix.findNode 0 p).getD 0, fun p hp => ?_⟩
  obtain ⟨b, hb, hbp, hfind⟩ := h.holds.findNode_eq (below_of_lt hp)
  simp only [hfind, Option.getD_some]
  exact ⟨hb, hbp, fun _ => trivial⟩

/-- A reordering gives positions to buckets that were found beforehand. -/
theorem permute_eq_assign {first : Nat} {order : List Nat} {bucket : Nat → Nat}
    (hperm : order.Perm (List.range' first order.length)) (hle : first + order.length ≤ count)
    (hfind : ∀ p < count, ∀ hash, ix.findNode hash p = some (bucket p)) (hashAt : Nat → UInt64) :
    ix.permute first order hashAt =
      ix.assign ((order.zipIdx first).map fun e => (bucket e.1, e.2)) := by
  rw [Index.permute, assign, List.foldl_map]
  apply List.foldl_ext
  rintro ix' ⟨source, target⟩ he
  have hin := (mem_of_perm_range hperm source).mp (List.fst_mem_of_mem_zipIdx he)
  have hat : ((List.range' first order.length).map fun p => ix.findNode (hashAt p) p)[source -
      first]? = some (some (bucket source)) := by
    rw [List.getElem?_map, List.getElem?_range' (by omega), Option.map_some, Nat.one_mul,
      Nat.add_sub_cancel' hin.1, hfind source (by omega)]
  simp only [hat]

/-- Positions are reordered by a list of those that they come from. -/
theorem permute (h : ix.Indexes count hashAt) {first : Nat} {order : List Nat}
    (hperm : order.Perm (List.range' first order.length)) (hle : first + order.length ≤ count) :
    (ix.permute first order hashAt).Indexes count (hashAt ∘ permutedFrom first order) := by
  have hmem := mem_of_perm_range hperm
  have hnodup : order.Nodup := hperm.nodup_iff.mpr List.nodup_range'
  obtain ⟨bucket, hbucket⟩ := h.exists_buckets
  -- different positions were found in different buckets
  have hfst : ((order.zipIdx first).map fun e => (bucket e.1, e.2)).map Prod.fst =
      order.map bucket := by
    rw [List.map_map]
    calc (order.zipIdx first).map (fun e => bucket e.1)
      _ = ((order.zipIdx first).map Prod.fst).map bucket := List.map_map.symm
      _ = order.map bucket := by rw [List.zipIdx_map_fst]
  have hrelabels : Relabels (permutedTo first order) ix
      (ix.permute first order hashAt) := by
    rw [permute_eq_assign hperm hle (fun p hp => (hbucket p hp).2.2) hashAt]
    refine assign_relabels ?_ ?_ ?_
    · rw [hfst]
      refine hnodup.map_on fun p hp q hq heq => ?_
      rw [hmem] at hp hq
      rw [← (hbucket p (by omega)).2.1, heq, (hbucket q (by omega)).2.1]
    · intro b q hbq
      obtain ⟨⟨p, t⟩, he, heq⟩ := List.mem_map.mp hbq
      obtain ⟨rfl, rfl⟩ := Prod.mk.inj heq
      have hp := List.fst_mem_of_mem_zipIdx he
      obtain ⟨hlive, hpos, -⟩ := hbucket p (by have := (hmem p).mp hp; omega)
      refine ⟨hlive, ?_⟩
      obtain ⟨hge, hlt, hget⟩ := List.mem_zipIdx he
      rw [hpos, permutedTo, if_pos hp, hget, hnodup.idxOf_getElem]
      omega
    -- a node outside these buckets has a position outside the order
    · intro b hb hnot
      refine if_neg fun hin => hnot ?_
      obtain ⟨hlive, hpos, -⟩ := hbucket (ix.node b).pos (by have := (hmem _).mp hin; omega)
      rw [hfst, h.holds.once b _ hb hlive hpos.symm]
      exact List.mem_map_of_mem hin
  exact h.reorder hrelabels (permutedTo_inverse hperm hle) (permutedFrom_inverse hperm hle)

end Indexes

end Index

end OrderedHash
