import OrderedHash.Proofs.Index.Loops
import OrderedHash.Proofs.Index.Runs

namespace OrderedHash

namespace Index

/-!
# Every walk of a run ends

The operations of an index, its registers and a bank are put together anew from walks that
are not bounded (`Unbounded`). On the way through a run each of them has a value, which is
the one of the operation as it is defined (`Bank.perform_eq`). So every walk ends, and every
position whose node is looked for is held by a live node at that moment, even where
positions are changed one after the other and others are still to be changed.
-/

namespace Unbounded

variable {ix : Index} {P : Nat → Option UInt64} {f : Nat → Nat} {count : Nat}
  {hashAt : Nat → UInt64}

/-! ### Changing positions -/

/-- Gives the position `q` to the node that holds `p`. -/
noncomputable def renumber (ix : Index) (hash : UInt64) (p q : Nat) : Part Index := do
  let b ← findNode ix hash p
  return ix.setPosition b q

/-- Adds `offset` to the positions from `first` up to `last` one by one. -/
noncomputable def shiftEach (ix : Index) (first last : Nat) (offset : Int)
    (hashAt : Nat → UInt64) : Part Index :=
  (inTurn first last offset).foldlM (fun ix p => renumber ix (hashAt p) p (moved p offset)) ix

/-- Adds `offset` to the positions from `first` up to `last`. -/
noncomputable def shiftPositions (ix : Index) (first last : Nat) (offset : Int)
    (hashAt : Nat → UInt64) : Part Index :=
  if last ≤ first ∨ offset = 0 then return ix
  else if ix.bucketCount / 2 < last - first then return ix.shiftWhole first last offset
  else shiftEach ix first last offset hashAt

/-- The search for the node on a position ends, since there is one. -/
theorem renumber_eq {p : Nat} (h : Held ix p) (hash : UInt64) (q : Nat) :
    renumber ix hash p q = Part.some (ix.renumber hash p q) := by
  obtain ⟨b, hfind, hwalk⟩ := findNode_eq h hash
  rw [renumber, hwalk, some_bind, Index.renumber, hfind]
  rfl

/-- Each position is held when its turn comes. -/
theorem foldlM_renumber_eq {ps : List Nat} (t : Queued ix f ps) (hashAt : Nat → UInt64) :
    ps.foldlM (fun ix p => renumber ix (hashAt p) p (f p)) ix =
      Part.some (ps.foldl (fun ix p => ix.renumber (hashAt p) p (f p)) ix) := by
  induction ps generalizing ix with
  | nil => rfl
  | cons p ps ih =>
    obtain ⟨b, hb⟩ := t.held p List.mem_cons_self
    rw [List.foldlM_cons, renumber_eq ⟨b, hb.live, hb.pos⟩, some_bind, List.foldl_cons,
      hb.renumber_eq]
    exact ih (t.rest hb)

/-- Every position that is shifted is found by a search that ends. -/
theorem shiftPositions_eq (h : ix.Holds P) {first last : Nat} {offset : Int}
    (s : Shiftable P first last offset) (hashAt : Nat → UInt64) :
    shiftPositions ix first last offset hashAt =
      Part.some (ix.shiftPositions first last offset hashAt) := by
  rw [shiftPositions, Index.shiftPositions]
  split
  · rfl
  · rename_i hsome
    split
    · rfl
    · exact foldlM_renumber_eq ((s.turns fun hzero => hsome (Or.inr hzero)).queued h) hashAt

/-! ### Removing positions -/

/-- Removes the node of position `pos`. -/
noncomputable def unlink (ix : Index) (hash : UInt64) (pos : Nat) : Part Index := do
  let b ← findNode ix hash pos
  eraseNode ix b

/-- Removes position `pos`, shifting those after it down by one. -/
noncomputable def removeShifting (ix : Index) (pos count : Nat) (hashAt : Nat → UInt64) :
    Part Index := do
  let rest ← unlink ix (hashAt pos) pos
  shiftPositions rest (pos + 1) count (-1) hashAt

/-- Removes position `pos` and gives it to the last one. -/
noncomputable def removeSwapping (ix : Index) (pos count : Nat) (hashAt : Nat → UInt64) :
    Part Index := do
  let last := count - 1
  let rest ← unlink ix (hashAt pos) pos
  if pos = last then return rest else renumber rest (hashAt last) last pos

/-- Removes the positions from `first` up to `last`, and shifts those after them down. -/
noncomputable def removeRange (ix : Index) (first last count : Nat) (hashAt : Nat → UInt64) :
    Part Index := do
  let rest ← (List.range' first (last - first)).foldlM (fun ix p => unlink ix (hashAt p) p) ix
  shiftPositions rest last count (-((last - first : Nat) : Int)) hashAt

/-- The search for the node that is removed ends, and so does the shift of the nodes behind it. -/
theorem unlink_eq (h : ix.Sound P) {p : Nat} {k : UInt64} (hp : P p = some k) (hash : UInt64) :
    unlink ix hash p = Part.some (ix.unlink hash p) := by
  obtain ⟨b, hb, hbp, hfind⟩ := h.holds.findNode_eq hp
  obtain ⟨c, hfind', hwalk⟩ := findNode_eq ⟨b, hb, hbp⟩ hash
  rw [hfind, Option.some.injEq] at hfind'
  rw [unlink, hwalk, some_bind, ← hfind', eraseNode_of_sound h hb,
    Index.unlink, hfind]

/-- A position is removed and the later ones are shifted by loops that end. -/
theorem removeShifting_eq (h : ix.Indexes count hashAt) {pos : Nat} (hpos : pos < count) :
    removeShifting ix pos count hashAt = Part.some (ix.removeShifting pos count hashAt) := by
  have hsound := Sound.unlink h (below_of_lt hpos) (hashAt pos)
  rw [← withoutRange_single] at hsound
  have hshift := shiftPositions_eq hsound.holds
    (shiftable_down (Nat.le_add_right pos 1) h.le_noPosition) hashAt
  rw [Nat.add_sub_cancel_left] at hshift
  rw [removeShifting, unlink_eq h (below_of_lt hpos), some_bind]
  exact hshift

/-- A position is removed and the last one takes its place by loops that end. -/
theorem removeSwapping_eq (h : ix.Indexes count hashAt) {pos : Nat} (hpos : pos < count) :
    removeSwapping ix pos count hashAt = Part.some (ix.removeSwapping pos count hashAt) := by
  have hsound := Sound.unlink h (below_of_lt hpos) (hashAt pos)
  rw [removeSwapping, unlink_eq h (below_of_lt hpos), some_bind,
    Index.removeSwapping]
  split
  · rfl
  · rename_i hne
    have hlast : Function.update (below count hashAt) pos none (count - 1) =
        some (hashAt (count - 1)) := by
      rw [Function.update_of_ne (Ne.symm hne), below_of_lt (by omega)]
    exact renumber_eq (hsound.holds.held _ _ hlast) _ _

/-- Positions are removed in turn by loops that end. -/
theorem foldlM_unlink_eq (h : ix.Indexes count hashAt) {first : Nat} (k : Nat)
    (hk : first + k ≤ count) :
    (List.range' first k).foldlM (fun ix p => unlink ix (hashAt p) p) ix =
      Part.some ((List.range' first k).foldl (fun ix p => ix.unlink (hashAt p) p) ix) := by
  induction k with
  | zero => rfl
  | succ k ih =>
    have hsound := h.unlinkRange first k (by omega)
    have hstored : withoutRange first (first + k) count hashAt (first + k) =
        some (hashAt (first + k)) := by
      rw [withoutRange, if_neg (by omega), below_of_lt (by omega)]
    rw [List.range'_concat, List.foldlM_append, ih (by omega), some_bind,
      List.foldl_append, Nat.one_mul, List.foldlM_cons, unlink_eq hsound hstored,
      some_bind]
    rfl

/-- A range of positions is removed by loops that end, whichever way its size asks for. -/
theorem removeRange_eq (h : ix.Indexes count hashAt) {first last : Nat} (hle : first ≤ last)
    (hlast : last ≤ count) : removeRange ix first last count hashAt =
      Part.some (ix.removeRange first last count hashAt) := by
  have hsound := h.unlinkRange first (last - first) (by omega)
  rw [Nat.add_sub_cancel' hle] at hsound
  rw [removeRange, foldlM_unlink_eq h _ (by omega), some_bind]
  exact shiftPositions_eq hsound.holds (shiftable_down hle h.le_noPosition) hashAt

/-! ### Reordering positions -/

/-- Moves position `source` to `target`, shifting the positions in between by one. -/
noncomputable def move (ix : Index) (source target : Nat) (hashAt : Nat → UInt64) :
    Part Index := do
  let b ← findNode ix (hashAt source) source
  let lifted := ix.setPosition b Node.movingPosition
  let shifted ←
    if source < target then shiftPositions lifted (source + 1) (target + 1) (-1) hashAt
    else shiftPositions lifted target source 1 hashAt
  return shifted.setPosition b target

/-- Exchanges two positions. -/
noncomputable def exchange (ix : Index) (p q : Nat) (hashAt : Nat → UInt64) : Part Index := do
  let b ← findNode ix (hashAt p) p
  let c ← findNode ix (hashAt q) q
  return (ix.setPosition b q).setPosition c p

/-- Reorders the positions from `first` on, whose nodes are found before any is changed. -/
noncomputable def permute (ix : Index) (first : Nat) (order : List Nat)
    (hashAt : Nat → UInt64) : Part Index := do
  let buckets ← (List.range' first order.length).mapM fun p => findNode ix (hashAt p) p
  return (order.zipIdx first).foldl (fun ix (source, target) =>
    match buckets[source - first]? with
    | some b => ix.setPosition b target
    | none => ix) ix

/-- A position is moved by loops that end. -/
theorem move_eq (h : ix.Indexes count hashAt) {source target : Nat} (hsource : source < count)
    (htarget : target < count) (hcount : count ≤ Node.movingPosition) :
    move ix source target hashAt = Part.some (ix.move source target hashAt) := by
  obtain ⟨b, hb, hbs, hfind⟩ := h.holds.findNode_eq (below_of_lt hsource)
  obtain ⟨c, hfind', hwalk⟩ := findNode_eq ⟨b, hb, hbs⟩ (hashAt source)
  rw [hfind, Option.some.injEq] at hfind'
  obtain ⟨-, hlifted⟩ := h.lift hsource hcount hb hbs
  rw [move, hwalk, some_bind, ← hfind', Index.move, hfind]
  dsimp only
  split
  · rw [shiftPositions_eq hlifted (shiftable_lifted_down hsource htarget hcount), some_bind]
    rfl
  · rw [shiftPositions_eq hlifted (shiftable_lifted_up hsource hcount), some_bind]
    rfl

/-- Two positions change places by loops that end. -/
theorem exchange_eq (h : ix.Indexes count hashAt) {p q : Nat} (hp : p < count) (hq : q < count) :
    exchange ix p q hashAt = Part.some (ix.exchange p q hashAt) := by
  obtain ⟨b, hfindp, hwalkp⟩ := findNode_eq (h.holds.held p _ (below_of_lt hp)) (hashAt p)
  obtain ⟨c, hfindq, hwalkq⟩ := findNode_eq (h.holds.held q _ (below_of_lt hq)) (hashAt q)
  rw [exchange, hwalkp, hwalkq, some_bind, some_bind, Index.exchange,
    hfindp, hfindq]
  rfl

/-- Values are computed for a list if each of them is. -/
theorem mapM_eq {α β : Type} {g : α → Part β} {g' : α → β} {xs : List α}
    (h : ∀ x ∈ xs, g x = Part.some (g' x)) : xs.mapM g = Part.some (xs.map g') := by
  induction xs with
  | nil => rfl
  | cons x xs ih =>
    rw [List.mapM_cons, h x List.mem_cons_self, some_bind,
      ih fun y hy => h y (List.mem_cons_of_mem x hy), some_bind]
    rfl

/-- The positions of a range are permuted by loops that end. -/
theorem permute_eq (h : ix.Indexes count hashAt) {first : Nat} {order : List Nat}
    (hperm : order.Perm (List.range' first order.length)) (hle : first + order.length ≤ count) :
    permute ix first order hashAt = Part.some (ix.permute first order hashAt) := by
  obtain ⟨bucket, hbucket⟩ := h.exists_buckets
  -- every position of the range is walked to, and its bucket found
  have hwalk : ∀ p ∈ List.range' first order.length,
      findNode ix (hashAt p) p = Part.some (bucket p) := by
    intro p hp
    rw [List.mem_range'_1] at hp
    obtain ⟨hlive, hpos, hfind⟩ := hbucket p (by omega)
    obtain ⟨c, hfind', hwalk⟩ := findNode_eq ⟨bucket p, hlive, hpos⟩ (hashAt p)
    rw [hfind, Option.some.injEq] at hfind'
    rw [hwalk, hfind']
  rw [permute, mapM_eq hwalk, some_bind,
    Indexes.permute_eq_assign hperm hle (fun p hp => (hbucket p hp).2.2) hashAt, assign,
    List.foldl_map]
  -- then both sides write the new positions to the same buckets, one by one
  congr 1
  apply List.foldl_ext
  rintro ix' ⟨source, target⟩ he
  have hin := (mem_of_perm_range hperm source).mp (List.fst_mem_of_mem_zipIdx he)
  have hat : ((List.range' first order.length).map bucket)[source - first]? =
      some (bucket source) := by
    rw [List.getElem?_map, List.getElem?_range' (by omega), Option.map_some, Nat.one_mul,
      Nat.add_sub_cancel' hin.1]
  simp only [hat]

/-! ### Adding and rebuilding -/

/-- Adds the positions below `count` in order. -/
noncomputable def insertAll (ix : Index) (count : Nat) (hashAt : Nat → UInt64) : Part Index :=
  (List.range count).foldlM (fun ix p => insertNode ix (hashAt p) p) ix

/-- The index of the positions below `count` in the given number of buckets. -/
noncomputable def rehash (ix : Index) (buckets count : Nat) (hashAt : Nat → UInt64) :
    Part Index :=
  insertAll (ix.emptied buckets) count hashAt

/-- Makes room for one more node. -/
noncomputable def growForInsert (ix : Index) (hashAt : Nat → UInt64) : Part Index :=
  if ix.isCrowded then rehash ix (ix.required (ix.size + 1)) ix.size hashAt else return ix

/-- The index of the positions below `count`, in the present buckets. -/
noncomputable def rebuildInPlace (ix : Index) (count : Nat) (hashAt : Nat → UInt64) :
    Part Index :=
  rehash ix ix.bucketCount count hashAt

/-- The index of the positions below `count`, in the present buckets if they are enough. -/
noncomputable def rebuild (ix : Index) (count : Nat) (hashAt : Nat → UInt64) : Part Index :=
  if count ≠ 0 ∧ ix.bucketCount < ix.required count then
    rehash ix (ix.required count) count hashAt
  else rebuildInPlace ix count hashAt

/-- Makes room for `count` positions in all. -/
noncomputable def reserve (ix : Index) (count : Nat) (hashAt : Nat → UInt64) : Part Index :=
  if count ≠ 0 ∧ ix.bucketCount < ix.required count then
    rehash ix (ix.required count) ix.size hashAt
  else return ix

/-- Reduces the buckets to the number that the positions need. -/
noncomputable def shrinkToFit (ix : Index) (hashAt : Nat → UInt64) : Part Index :=
  if ix.size = 0 then return ix.release
  else if ix.required ix.size ≠ ix.bucketCount ∨ ix.tombstones ≠ 0 then
    rehash ix (ix.required ix.size) ix.size hashAt
  else return ix

/-- Adds a position at `pos`, shifting those from `pos` on up by one. -/
noncomputable def insertAt (ix : Index) (pos count : Nat) (hash : UInt64)
    (hashAt : Nat → UInt64) : Part Index := do
  let grown ← growForInsert ix hashAt
  let shifted ← shiftPositions grown pos count 1 hashAt
  insertNode shifted hash pos

/-- A position is inserted after those below it. -/
theorem rehash_succ (ix : Index) (buckets k : Nat) (hashAt : Nat → UInt64) :
    rehash ix buckets (k + 1) hashAt = (do
      let ix' ← rehash ix buckets k hashAt
      insertNode ix' (hashAt k) k) := by
  rw [rehash, insertAll, List.range_succ, List.foldlM_append]
  simp only [List.foldlM_cons, List.foldlM_nil, bind_pure]
  rfl

/-- Every insertion of a rebuild ends. -/
theorem rehash_eq (ix : Index) {buckets : Nat} (hashAt : Nat → UInt64) (hfits : Fits buckets count)
    (hlt : count ≤ Node.noPosition) :
    rehash ix buckets count hashAt = Part.some (ix.rehash buckets count hashAt) := by
  induction count with
  | zero => rfl
  | succ k ih =>
    have hprev := hfits.mono (Nat.le_succ k)
    have hsound := (ix.rehash_rebuilt hashAt hprev (by omega)).indexes
    rw [rehash_succ, ih hprev (by omega), some_bind, insertNode_of_sound hsound,
      Index.rehash_succ]

/-- Room for a position is made by loops that end. -/
theorem growForInsert_eq (h : ix.Indexes count hashAt) :
    growForInsert ix hashAt = Part.some (ix.growForInsert hashAt) := by
  have hlt := h.le_noPosition
  rw [← h.size_eq] at hlt
  rw [growForInsert, Index.growForInsert]
  split
  · exact rehash_eq ix hashAt ((ix.fits_required _).mono (Nat.le_succ _)) hlt
  · rfl

/-- An index is rebuilt in its own buckets by loops that end. -/
theorem rebuildInPlace_eq (h : ix.Indexes count hashAt) {count' : Nat} (hle : count' ≤ count)
    (hashAt' : Nat → UInt64) :
    rebuildInPlace ix count' hashAt' = Part.some (ix.rebuildInPlace count' hashAt') := by
  have hfits := Sound.fits h
  rw [h.size_eq] at hfits
  exact rehash_eq ix hashAt' (hfits.mono hle) (le_trans hle h.le_noPosition)

/-- An index of whatever contents is rebuilt by loops that end. -/
theorem rebuild_eq (hshape : ix.bucketCount = 1 ∨ LoadFactor.minBuckets ≤ ix.bucketCount)
    (hashAt : Nat → UInt64) (hlt : count ≤ Node.noPosition) :
    rebuild ix count hashAt = Part.some (ix.rebuild count hashAt) := by
  rw [rebuild, Index.rebuild]
  split
  · exact rehash_eq ix hashAt (ix.fits_required count) hlt
  · rename_i hnot
    exact rehash_eq ix hashAt (fits_of_not_lt hshape hnot) hlt

/-- Room for a number of positions is made by loops that end. -/
theorem reserve_eq (h : ix.Indexes count hashAt) (wanted : Nat) :
    reserve ix wanted hashAt = Part.some (ix.reserve wanted hashAt) := by
  have hlt := h.le_noPosition
  rw [← h.size_eq] at hlt
  rw [reserve, Index.reserve]
  split
  · rename_i hgrow
    exact rehash_eq ix hashAt (Sound.fits_of_lt h hgrow.2) hlt
  · rfl

/-- An index is shrunk by loops that end. -/
theorem shrinkToFit_eq (h : ix.Indexes count hashAt) :
    shrinkToFit ix hashAt = Part.some (ix.shrinkToFit hashAt) := by
  have hlt := h.le_noPosition
  rw [← h.size_eq] at hlt
  rw [shrinkToFit, Index.shrinkToFit]
  split
  · rfl
  · split
    · exact rehash_eq ix hashAt (ix.fits_required ix.size) hlt
    · rfl

/-- A position is inserted by loops that end. -/
theorem insertAt_eq (h : ix.Indexes count hashAt) {pos : Nat} (hpos : pos ≤ count)
    (hcount : count < Node.noPosition) (hash : UInt64) :
    insertAt ix pos count hash hashAt = Part.some (ix.insertAt pos count hash hashAt) := by
  obtain ⟨hgrown, -, -⟩ := h.growForInsert
  have hshift := hgrown.holds.shiftPositions_relabels (shiftable_up pos hcount) hashAt
  have hsound := hgrown.relabel hshift (renames_up hpos hcount hash)
  rw [insertAt, growForInsert_eq h, some_bind,
    shiftPositions_eq hgrown.holds (shiftable_up pos hcount), some_bind]
  exact insertNode_of_sound hsound hash pos

end Unbounded

end Index

/-! ### The steps of a run -/

namespace Register

/-- A step of a register whose walks are not bounded. -/
noncomputable def perform (r : Register) : Step → Part Register
  | .insertAt pos hash => do
    let index ← Index.Unbounded.insertAt r.index pos r.size hash r.hashAt
    return ⟨index, r.hashes.insertIdxIfInBounds pos hash⟩
  | .removeShifting pos => do
    let index ← Index.Unbounded.removeShifting r.index pos r.size r.hashAt
    return ⟨index, r.hashes.eraseIdxIfInBounds pos⟩
  | .removeSwapping pos => do
    let index ← Index.Unbounded.removeSwapping r.index pos r.size r.hashAt
    return ⟨index, (r.hashes.setIfInBounds pos (r.hashAt (r.size - 1))).pop⟩
  | .rebuild => do
    let index ← Index.Unbounded.rebuild r.index r.size r.hashAt
    return { r with index }
  | .rebuildInPlace count => do
    let index ← Index.Unbounded.rebuildInPlace r.index count r.hashAt
    return ⟨index, r.hashes.take count⟩
  | .reserve count => do
    let index ← Index.Unbounded.reserve r.index count r.hashAt
    return { r with index }
  | .shrinkToFit => do
    let index ← Index.Unbounded.shrinkToFit r.index r.hashAt
    return { r with index }
  -- the other steps walk over the buckets in order, or not at all
  | .reverse => return r.apply .reverse
  | .clear => return r.apply .clear
  | .release => return r.apply .release
  | .setLoadFactor f => return r.apply (.setLoadFactor f)

/-- All walks of a step end. -/
theorem perform_eq {r : Register} (h : r.Right) {s : Step} (hs : r.Allows s)
    (hsize : r.size < Node.movingPosition) : r.perform s = Part.some (r.apply s) := by
  have hi := h.indexes
  have hlt : r.size < Node.noPosition := lt_trans hsize (by decide)
  cases s with
  | insertAt pos hash =>
    rw [perform, Index.Unbounded.insertAt_eq hi hs hlt]
    exact Index.Unbounded.some_bind _ _
  | removeShifting pos =>
    rw [perform, Index.Unbounded.removeShifting_eq hi hs]
    exact Index.Unbounded.some_bind _ _
  | removeSwapping pos =>
    rw [perform, Index.Unbounded.removeSwapping_eq hi hs]
    exact Index.Unbounded.some_bind _ _
  | rebuild =>
    rw [perform, Index.Unbounded.rebuild_eq hi.shape _ (le_of_lt hlt)]
    exact Index.Unbounded.some_bind _ _
  -- the index has as many positions as the register, so that no more are kept than there are
  | rebuildInPlace count =>
    have hle : count ≤ r.size := hi.size_eq ▸ hs
    rw [perform, Index.Unbounded.rebuildInPlace_eq hi hle]
    exact Index.Unbounded.some_bind _ _
  | reserve count =>
    rw [perform, Index.Unbounded.reserve_eq hi]
    exact Index.Unbounded.some_bind _ _
  | shrinkToFit =>
    rw [perform, Index.Unbounded.shrinkToFit_eq hi]
    exact Index.Unbounded.some_bind _ _
  | reverse => rfl
  | clear => rfl
  | release => rfl
  | setLoadFactor f => rfl

end Register

namespace Bank

open Function (update)

variable {bank : Bank}

/-- A step of a bank whose walks are not bounded. -/
noncomputable def perform (bank : Bank) : Step → Part Bank
  | .use i step => do
    let r ← (bank i).perform step
    return update bank i r
  | .removeRange i first last => do
    let r := bank i
    let index ← Index.Unbounded.removeRange r.index first last r.size r.hashAt
    return update bank i ⟨index, r.hashes.extract 0 first ++ r.hashes.extract last⟩
  | .move i source target => do
    let r := bank i
    let index ← Index.Unbounded.move r.index source target r.hashAt
    return update bank i ⟨index,
      (r.hashes.eraseIdxIfInBounds source).insertIdxIfInBounds target (r.hashAt source)⟩
  | .exchange i p q => do
    let r := bank i
    let index ← Index.Unbounded.exchange r.index p q r.hashAt
    return update bank i ⟨index, r.hashes.swapIfInBounds p q⟩
  | .permute i first order => do
    let r := bank i
    let index ← Index.Unbounded.permute r.index first order r.hashAt
    return update bank i ⟨index, Index.permuted r.hashes first order⟩
  | .renew i hashes => do
    let index ← Index.Unbounded.rebuild (bank i).index hashes.size (hashes.getD · 0)
    return update bank i ⟨index, hashes⟩
  | .renewInPlace i hashes => do
    let index ← Index.Unbounded.rebuildInPlace (bank i).index hashes.size (hashes.getD · 0)
    return update bank i ⟨index, hashes⟩
  -- whole registers are handed on without a walk
  | .copy source target => return bank.apply (.copy source target)
  | .handOver source target shared => return bank.apply (.handOver source target shared)
  | .swap i j => return bank.apply (.swap i j)

/-- All walks of a step end. -/
theorem perform_eq (h : Reachable bank) {s : Step} (hs : bank.Allows s)
    (small : ∀ i, (bank.apply s i).size < 2 ^ 48 - 2) :
    bank.perform s = Part.some (bank.apply s) := by
  have hi := fun i => (h.right i).indexes
  cases s with
  | use i step =>
    rw [perform, Register.perform_eq (h.right i) hs (h.small i)]
    exact Index.Unbounded.some_bind _ _
  | removeRange i first last =>
    rw [perform, Index.Unbounded.removeRange_eq (hi i) hs.1 hs.2]
    exact Index.Unbounded.some_bind _ _
  | move i source target =>
    rw [perform, Index.Unbounded.move_eq (hi i) hs.1 hs.2 (Nat.le_of_lt (h.small i))]
    exact Index.Unbounded.some_bind _ _
  | exchange i p q =>
    rw [perform, Index.Unbounded.exchange_eq (hi i) hs.1 hs.2.1]
    exact Index.Unbounded.some_bind _ _
  | permute i first order =>
    rw [perform, Index.Unbounded.permute_eq (hi i) hs.1 hs.2]
    exact Index.Unbounded.some_bind _ _
  | renew i hashes =>
    -- a renewed register is as long as its new list
    have hsize := small i
    rw [apply, Function.update_self] at hsize
    have hlt : hashes.size ≤ Node.noPosition :=
      Nat.le_of_lt (lt_trans hsize (show 2 ^ 48 - 2 < Node.noPosition by decide))
    rw [perform, Index.Unbounded.rebuild_eq (hi i).shape _ hlt]
    exact Index.Unbounded.some_bind _ _
  | renewInPlace i hashes =>
    rw [perform, Index.Unbounded.rebuildInPlace_eq (hi i) hs]
    exact Index.Unbounded.some_bind _ _
  | copy source target => rfl
  | handOver source target shared => rfl
  | swap i j => rfl

/-- An index with buckets of its own is filled below its limit, and so is never full. -/
theorem Reachable.fill_le (h : Reachable bank) (i : Nat) (hnull : (bank i).index.isNull = false) :
    (bank i).index.size + (bank i).index.tombstones ≤ (bank i).index.maxFill ∧
      (bank i).index.maxFill < (bank i).index.bucketCount := by
  have hone : 1 < (bank i).index.bucketCount := by simpa [Index.isNull] using hnull
  have hlimit : (bank i).index.maxFill = LoadFactor.fillLimit (bank i).index.bucketCount := by
    rw [Index.maxFill, hnull]
    rfl
  rw [hlimit]
  rcases (h.right i).indexes.room with ⟨hnone, -⟩ | ⟨-, hfill⟩
  · omega
  · refine ⟨hfill, ?_⟩
    rw [LoadFactor.fillLimit]
    omega

/-- In a run some bucket of every index is empty, since the index is filled up to its limit at
    most. So every lookup ends, and so do all walks of every step that may follow: each has a
    value when the walks are not bounded, which it has only if every position whose node is
    looked for is held by a live node at that moment. -/
theorem walks_end_of_reachable (h : Reachable bank) :
    (∀ i, ((bank i).index.isNull = false →
        (bank i).index.size + (bank i).index.tombstones ≤ (bank i).index.maxFill ∧
          (bank i).index.maxFill < (bank i).index.bucketCount) ∧
      (∃ b < (bank i).index.bucketCount, ((bank i).index.node b).isEmpty) ∧
      ∀ hash test, Index.Unbounded.find (bank i).index hash test =
        Part.some ((bank i).index.find hash test)) ∧
    ∀ s, bank.Allows s → (∀ i, (bank.apply s i).size < 2 ^ 48 - 2) →
      bank.perform s = Part.some (bank.apply s) :=
  ⟨fun i => ⟨h.fill_le i, (h.right i).indexes.exists_isEmpty,
    Index.Unbounded.find_eq (h.right i).indexes⟩, fun _ hs small => perform_eq h hs small⟩

/-- A third position is inserted into an index of two, at the place of the last. -/
theorem walks_end_of_reachable_fill :
    (fill [63, 127]).perform (.use 0 (.insertAt 2 64)) = Part.some (fill [63, 127, 64]) := by
  have happend := fill_append [63, 127] 64
  rw [size_fill] at happend
  change fill [63, 127, 64] = apply (fill [63, 127]) (.use 0 (.insertAt 2 64)) at happend
  rw [happend]
  refine (walks_end_of_reachable (fill_reachable [63, 127] (by decide))).2 _ ?_ fun i => ?_
  · rw [Allows, Register.Allows, size_fill]
    decide
  · rw [← happend, size_fill]
    split <;> decide

end Bank

end OrderedHash
