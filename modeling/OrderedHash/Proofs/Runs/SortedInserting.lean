import OrderedHash.Proofs.Runs.Entries
import OrderedHash.Proofs.Runs.Inserting
import OrderedHash.Proofs.Runs.Sorting
import OrderedHash.Proofs.Table.SortedInserting

namespace OrderedHash

/-!
# Keys inserted in order in containers of a run

A key that is absent from a sorted container is inserted before the first one that is not less,
by a call on the container or on a handle on the key. It leaves the other items in their order
and the container sorted (`Table.PutsSorted`). A key that is present keeps its place, and the
ordering is not asked. So a container that keys are inserted into one by one has them sorted in
the end, which is how they are left by a sort of all at once if no two different keys are
equivalent (`World.insertsSorted_of_reachable`).

Which keys are equal, and which are equivalent in the ordering, need not agree.
-/

variable {K V T σ τ α : Type}

namespace Table

/-- An item stands at its rank among the items of a sorted table, which stays sorted. -/
structure PutsSorted (κ : Keying K V) (lt : V → V → Bool) (t : Table V) (v : V) (u : Table V) :
    Prop extends Puts κ t.items.toList (rank lt t.items.toList v) (κ.key v) v u where
  sorted : SortedBy lt u.items.toList

/-- The item at a position is refreshed with one that has its key. -/
structure Overwrites (κ : Keying K V) (pos : Nat) (stored v : V) (t u : Table V) : Prop
    extends Settles κ (t.items.toList.set pos (κ.refresh stored v)) (κ.key v) pos u where
  sorted : ∀ lt : K → K → Bool, SortedBy (κ.lessByKey lt) t.items.toList →
    SortedBy (κ.lessByKey lt) u.items.toList
  untouched : κ.refresh stored v = stored → u = t

/-- A container has the items of a list, sorted by their keys. -/
structure HoldsSorted (κ : Keying K V) (lt : K → K → Bool) (vs : List V) (u : Table V) : Prop where
  perm : u.items.toList.Perm vs
  sorted : SortedBy (κ.lessByKey lt) u.items.toList
  consistent : u.Consistent κ

/-- What becomes of keys that are inserted into a container where they keep its order. -/
structure InsertsSorted (κ : Keying K V) (answer : Nat → Option V → α)
    (insert : {τ : Type} → (K → K → Action τ Bool) → V → Action (Table V × τ) α)
    (sort : {τ : Type} → (K → K → Action τ Bool) → Action (Table V × τ) Unit) (c : Cell K V) :
    Prop where
  absent : ∀ {τ : Type} {lt : K → K → Bool} {less : K → K → Action τ Bool}, StrictWeak lt →
    MergeSort.Decides less lt → SortedBy (κ.lessByKey lt) c.table.items.toList →
    ∀ v, κ.refusal (κ.key v) = none → Lacks κ c.table (κ.key v) →
    c.table.size + 1 < 2 ^ 48 - 2 → ∀ s, ∃ u s', (insert less v).step (c.table, s) =
        (.ok (answer (rank (κ.lessByKey lt) c.table.items.toList v) none), (u, s')) ∧
      PutsSorted κ (κ.lessByKey lt) c.table v u
  present : ∀ {τ : Type} (less : K → K → Action τ Bool) (v : V) (pos : Nat) (stored : V),
    κ.refusal (κ.key v) = none → c.table.items[pos]? = some stored →
    κ.same (κ.key stored) (κ.key v) → ∀ s, ∃ u,
      (insert less v).step (c.table, s) = (.ok (answer pos (some stored)), (u, s)) ∧
        Overwrites κ pos stored v c.table u
  /-- A vacant handle makes an item for its key, and is on the position of the item then. -/
  vacant : ∀ {τ : Type} {lt : K → K → Bool} {less : K → K → Action τ Bool}, StrictWeak lt →
    MergeSort.Decides less lt → SortedBy (κ.lessByKey lt) c.table.items.toList →
    ∀ (k : K) (hash : UInt64) (make : K → V), c.entry = .vacant k hash → κ.key (make k) = k →
    c.table.size + 1 < 2 ^ 48 - 2 → ∀ s, ∃ u s',
      (Entry.insertSortedBy κ less make).step ((c.entry, c.table), s) = (.ok (),
          ((.occupied (rank (κ.lessByKey lt) c.table.items.toList (make k)), u), s')) ∧
        PutsSorted κ (κ.lessByKey lt) c.table (make k) u
  /-- Keys are inserted in turn into an empty container. -/
  each : c.table.items = #[] → ∀ {τ : Type} {lt : K → K → Bool} {less : K → K → Action τ Bool},
    StrictWeak lt → MergeSort.Decides less lt → ∀ vs : List V,
    (∀ v ∈ vs, κ.refusal (κ.key v) = none) →
    vs.Pairwise (fun v w => κ.same (κ.key v) (κ.key w) = false) → vs.length < 2 ^ 48 - 2 →
    ∀ s, ∃ u s', (Action.forEach (fun v => do let _ ← insert less v) vs).step (c.table, s) =
        (.ok (), (u, s')) ∧ HoldsSorted κ lt vs u ∧
      -- an ordering under which only equal keys are equivalent leaves no choice
      ((∀ a b, lt a b = false → lt b a = false → κ.same a b) → ∀ countKnown s, ∃ u' s',
        (do Action.onFst (extend κ vs countKnown); sort less).step (c.table, s) =
            (.ok (), (u', s')) ∧
          HoldsSorted κ lt vs u' ∧ u'.items = u.items ∧ ∀ k, u'.find κ k = u.find κ k)

variable {κ : Keying K V} {t u : Table V} {v stored : V} {pos : Nat}

theorem PutsSorted.perm {lt : V → V → Bool} (h : PutsSorted κ lt t v u) :
    u.items.toList.Perm (v :: t.items.toList) := by
  rw [h.items_eq]
  exact List.perm_insertIdx v _ (rank_le lt t.items.toList v)

/-- A key that is absent and unequal to the one that is inserted stays absent. -/
theorem PutsSorted.lacks {lt : V → V → Bool} (h : PutsSorted κ lt t v u) {k : K}
    (hlacks : Lacks κ t k) (hunequal : κ.same (κ.key v) k = false) : Lacks κ u k := by
  intro w hw
  rcases List.mem_cons.mp (h.perm.mem_iff.mp (Array.mem_toList_iff.mpr hw)) with rfl | hmem
  · exact hunequal
  · exact hlacks w (Array.mem_toList_iff.mp hmem)

namespace Coherent

/-! ### One item -/

theorem putsSorted {lt : V → V → Bool} (h : t.Coherent κ) (hκ : κ.Lawful) (hlt : StrictWeak lt)
    (hsorted : SortedBy lt t.items.toList) (hfind : t.find κ (κ.key v) = none)
    (hsmall : t.size + 1 < 2 ^ 48 - 2) :
    PutsSorted κ lt t v (t.insertAt κ (rank lt t.items.toList v) (κ.hash (κ.key v)) v) where
  toPuts := h.puts_insertAt hκ (rank_le lt t.items.toList v) hfind hsmall
  sorted := by
    rw [toList_insertAt]
    exact hsorted.insertIdx_rank hlt v

/-- An item whose key is absent is inserted into a sorted table. -/
theorem step_insertSorted {lt : V → V → Bool} {before : V → Action τ Bool} (h : t.Coherent κ)
    (hκ : κ.Lawful) (hlt : StrictWeak lt) (hsorted : SortedBy lt t.items.toList)
    (hbefore : Gives before (lt · v)) (haccepted : κ.refusal (κ.key v) = none)
    (hlacks : Lacks κ t (κ.key v)) (hsmall : t.size + 1 < 2 ^ 48 - 2) (s : τ) :
    ∃ u s', (insertSorted κ before v).step (t, s) =
        (.ok (rank lt t.items.toList v, none), (u, s')) ∧
      u.Coherent κ ∧ PutsSorted κ lt t v u := by
  have hfind := (h.find_eq_none hκ (κ.key v)).mpr hlacks
  obtain ⟨s', hstep⟩ := step_insertSorted_rank hlt hsorted hbefore haccepted hfind s
  have hputs := h.putsSorted hκ hlt hsorted hfind hsmall
  refine ⟨_, s', hstep, h.insertAt hκ (rank_le lt t.items.toList v) hfind ?_, hputs⟩
  show (t.insertAt κ _ _ v).items.size < Node.movingPosition
  rw [← Array.length_toList, toList_insertAt]
  exact lt_of_le_of_lt List.length_insertIdx_le_succ hsmall

theorem overwrites (h : t.Coherent κ) (hκ : κ.Lawful) (hr : κ.Refreshes)
    (hstored : t.items[pos]? = some stored) (hsame : κ.same (κ.key stored) (κ.key v)) :
    Overwrites κ pos stored v t (t.refreshAt κ pos v) := by
  have hitems := toList_refreshAt_of_getElem? (κ := κ) (v := v) hstored
  have hu := h.refreshAt hr.key pos v
  have hkeys := map_key_refreshAt hr t pos v
  have hfind : t.find κ (κ.key v) = some pos :=
    (h.find_eq_some hκ _ pos).mpr ⟨stored, hstored, hsame⟩
  refine ⟨⟨hitems, ?_, hu.consistent hκ⟩, fun lt hsorted => ?_, fun hrefresh => ?_⟩
  · -- no key changes, so that all of them are found where they were
    refine (h.find_congr hu hκ (fun p => ?_) (κ.key v)).trans hfind
    rw [← Array.getElem?_toList, ← Array.getElem?_toList, ← List.getElem?_map, hkeys,
      List.getElem?_map]
  · rw [sortedBy_lessByKey, hkeys, ← sortedBy_lessByKey]
    exact hsorted
  · -- what is put in the place of the stored item is that item
    refine congrArg (Table.mk · t.index) (Array.ext_getElem? fun p => ?_)
    rw [Array.getElem?_modify]
    split
    · rename_i heq
      rw [← heq, hstored, Option.map_some, hrefresh]
    · rfl

/-! ### Items in turn -/

/-- Items whose keys are absent and unequal are inserted in turn. -/
theorem step_insertSorted_each (h : t.Coherent κ) (hκ : κ.Lawful) {lt : K → K → Bool}
    {less : K → K → Action τ Bool} (hlt : StrictWeak lt) (hless : MergeSort.Decides less lt)
    (hsorted : SortedBy (κ.lessByKey lt) t.items.toList) {vs : List V}
    (haccepted : ∀ v ∈ vs, κ.refusal (κ.key v) = none)
    (hlacks : ∀ v ∈ vs, Lacks κ t (κ.key v))
    (hdistinct : vs.Pairwise fun v w => κ.same (κ.key v) (κ.key w) = false)
    (hsmall : t.size + vs.length < 2 ^ 48 - 2) (s : τ) :
    ∃ u s', (Action.forEach (fun v => do
        let _ ← insertSorted κ (fun w => less (κ.key w) (κ.key v)) v) vs).step (t, s) =
          (.ok (), (u, s')) ∧
      u.Coherent κ ∧ SortedBy (κ.lessByKey lt) u.items.toList ∧
      u.items.toList.Perm (vs ++ t.items.toList) := by
  induction vs generalizing t s with
  | nil => exact ⟨t, s, rfl, h, hsorted, List.Perm.refl _⟩
  | cons v vs ih =>
    obtain ⟨hv, hvs⟩ := List.forall_mem_cons.mp haccepted
    obtain ⟨habsent, hothers⟩ := List.forall_mem_cons.mp hlacks
    obtain ⟨hunequal, hrest⟩ := List.pairwise_cons.mp hdistinct
    rw [List.length_cons] at hsmall
    obtain ⟨u, s₁, hstep, hu, hputs⟩ := h.step_insertSorted hκ (hlt.comap κ.key) hsorted
      (fun w => hless (κ.key w) (κ.key v)) hv habsent (by omega) s
    have hsize : u.size = t.size + 1 := by
      have hlength := hputs.perm.length_eq
      rwa [List.length_cons, Array.length_toList, Array.length_toList] at hlength
    -- the later keys equal neither a key of before nor the one that was inserted
    have hlater : ∀ w ∈ vs, Lacks κ u (κ.key w) := fun w hw =>
      hputs.lacks (hothers w hw) (hunequal w hw)
    obtain ⟨last, s₂, hrun, hlast, hlastsorted, hperm⟩ :=
      ih hu hputs.sorted hvs hlater hrest (by omega) s₁
    have hfirst : (do let _ ← insertSorted κ (fun w => less (κ.key w) (κ.key v)) v :
        Action (Table V × τ) Unit).step (t, s) = (.ok (), (u, s₁)) := by
      rw [Action.step_bind_of_ok hstep]
      rfl
    refine ⟨last, s₂, ?_, hlast, hlastsorted, ?_⟩
    · rw [Action.forEach, Action.step_bind_of_ok hfirst, hrun]
    · exact (hperm.trans (hputs.perm.append_left vs)).trans List.perm_middle

/-- An empty table is extended by items with unequal keys, and sorted. -/
theorem step_extend_sort (h : t.Coherent κ) (hκ : κ.Lawful) (hr : κ.Refreshes)
    (hempty : t.items = #[]) {lt : K → K → Bool} {less : K → K → Action τ Bool}
    (hlt : StrictWeak lt) (hless : MergeSort.Decides less lt) {vs : List V}
    (haccepted : ∀ v ∈ vs, κ.refusal (κ.key v) = none)
    (hdistinct : vs.Pairwise fun v w => κ.same (κ.key v) (κ.key w) = false)
    (hsmall : vs.length < 2 ^ 48 - 2) {sort : Action (Table V × τ) Unit}
    (hsort : ∀ (u : Table V) (s : τ), sort.step (u, s) =
      (sortRange κ 0 u.size fun v w => less (κ.key v) (κ.key w)).step (u, s))
    (countKnown : Bool) (s : τ) : ∃ u s',
      (do Action.onFst (extend κ vs countKnown); sort).step (t, s) = (.ok (), (u, s')) ∧
        HoldsSorted κ lt vs u := by
  -- items with unequal keys all come into an empty table, in their order
  have hfold : vs.foldl κ.absorb t.items.toList = vs := by
    rw [hempty, Keying.foldl_absorb_nil hκ hr, Keying.collapse_eq_self]
    exact List.pairwise_map.mpr hdistinct
  obtain ⟨u, hstep, hu, hitems⟩ :=
    h.step_extend hκ hr haccepted (by rw [hfold]; exact hsmall) countKnown
  rw [hfold] at hitems
  have hextend : (Action.onFst (extend κ vs countKnown)).step (t, s) = (.ok (), (u, s)) := by
    rw [Action.step_onFst, hstep]
  -- what is sorted then is all of the table
  obtain ⟨last, s', hrun, hrange, -, hconsistent, -⟩ :=
    (hu.rangeSorts hκ (hlt.comap κ.key) (Nat.zero_le _) le_rfl).sortRange
      (fun v w => less (κ.key v) (κ.key w)) (fun v w => hless (κ.key v) (κ.key w)) s
  obtain ⟨hperm, hsorted⟩ := hrange.whole
  rw [hitems] at hperm
  refine ⟨last, s', ?_, hperm, hsorted, hconsistent⟩
  rw [Action.step_bind_of_ok hextend, hsort, hrun]

end Coherent

/-- Consistent tables with the same items find every key at the same position. -/
theorem Consistent.find_congr (h : t.Consistent κ) (hu : u.Consistent κ)
    (hitems : u.items = t.items) (k : K) : u.find κ k = t.find κ k :=
  Option.ext fun p => by rw [hu.find, h.find, hitems]

/-- If only equal keys are equivalent, a list can be held in one sorted order only. -/
theorem HoldsSorted.items_eq (hκ : κ.Lawful) {lt : K → K → Bool} {vs : List V}
    (h : HoldsSorted κ lt vs t) (hu : HoldsSorted κ lt vs u)
    (htotal : ∀ a b, lt a b = false → lt b a = false → κ.same a b) : u.items = t.items := by
  have hperm := hu.perm.trans h.perm.symm
  refine Array.toList_inj.mp (List.Perm.eq_of_pairwise (fun v w hv hw hvw hwv => ?_) hu.sorted
    h.sorted hperm)
  have hsame : κ.same (κ.key v) (κ.key w) := htotal _ _ hwv hvw
  obtain ⟨p, hp⟩ := List.getElem?_of_mem (hperm.mem_iff.mp hv)
  obtain ⟨q, hq⟩ := List.getElem?_of_mem hw
  rw [Array.getElem?_toList] at hp hq
  -- items with equal keys are at the position where the keys are found
  have hfindp := (h.consistent.find (κ.key w) p).mpr ⟨v, hp, hsame⟩
  have hfindq := (h.consistent.find (κ.key w) q).mpr ⟨w, hq, hκ.refl _⟩
  cases hfindp.symm.trans hfindq
  cases hp.symm.trans hq
  rfl

/-- Keys are inserted in order into a coherent container, on which only handles on absent keys
    are vacant. -/
theorem Coherent.insertsSorted {c : Cell K V} (h : c.table.Coherent κ) (hκ : κ.Lawful)
    (hr : κ.Refreshes)
    (hentry : ∀ k hash, c.entry = .vacant k hash → hash = κ.hash k ∧ c.table.find κ k = none)
    {answer : Nat → Option V → α}
    {insert : {τ : Type} → (K → K → Action τ Bool) → V → Action (Table V × τ) α}
    {sort : {τ : Type} → (K → K → Action τ Bool) → Action (Table V × τ) Unit}
    (hinsert : ∀ {τ : Type} (less : K → K → Action τ Bool) (v : V), insert less v = do
      let (pos, old) ← insertSorted κ (fun w => less (κ.key w) (κ.key v)) v
      return answer pos old)
    (hsort : ∀ {τ : Type} (less : K → K → Action τ Bool) (u : Table V) (s : τ),
      (sort less).step (u, s) =
        (sortRange κ 0 u.size fun v w => less (κ.key v) (κ.key w)).step (u, s)) :
    InsertsSorted κ answer insert sort c where
  absent {_ lt less} hlt hless hsorted v haccepted hlacks hsmall s := by
    obtain ⟨u, s', hstep, -, hputs⟩ := h.step_insertSorted hκ (hlt.comap κ.key) hsorted
      (fun w => hless (κ.key w) (κ.key v)) haccepted hlacks hsmall s
    refine ⟨u, s', ?_, hputs⟩
    rw [hinsert, Action.step_bind_of_ok hstep]
    rfl
  present {_} less v pos stored haccepted hstored hsame s := by
    have hfind := (h.find_eq_some hκ (κ.key v) pos).mpr ⟨stored, hstored, hsame⟩
    refine ⟨_, ?_, h.overwrites hκ hr hstored hsame⟩
    rw [hinsert, Action.step_bind_of_ok (step_insertSorted_of_find haccepted hfind), hstored]
    rfl
  vacant {_ lt less} hlt hless hsorted k hash make hc hmake hsmall s := by
    -- the handle still has the hash value of its key, which is still absent
    obtain ⟨rfl, hfind⟩ := hentry k hash hc
    obtain ⟨_, s', hpoint, rfl⟩ := rank_endsWith (v := make k) (hlt.comap κ.key) hsorted
      (fun w => hless (κ.key w) (κ.key (make k))) s
    rw [hmake] at hpoint
    rw [hc, Entry.step_insertSortedBy_vacant less make hpoint]
    have hputs := h.putsSorted (v := make k) hκ (hlt.comap κ.key) hsorted (by rwa [hmake]) hsmall
    rw [hmake] at hputs
    exact ⟨_, s', rfl, hputs⟩
  each hempty {_ lt less} hlt hless vs haccepted hdistinct hsmall s := by
    have hlacks : ∀ v ∈ vs, Lacks κ c.table (κ.key v) := by
      intro v _ w hw
      rw [hempty] at hw
      exact absurd hw (Array.not_mem_empty w)
    have hsorted : SortedBy (κ.lessByKey lt) c.table.items.toList := by
      rw [hempty]
      exact List.Pairwise.nil
    obtain ⟨u, s', hstep, hu, husorted, hperm⟩ := h.step_insertSorted_each hκ hlt hless hsorted
      haccepted hlacks hdistinct (by rw [size, hempty]; simpa using hsmall) s
    have hholds : HoldsSorted κ lt vs u := by
      refine ⟨?_, husorted, hu.consistent hκ⟩
      rwa [hempty, List.append_nil] at hperm
    refine ⟨u, s', ?_, hholds, fun htotal countKnown s => ?_⟩
    · simpa [hinsert] using hstep
    · -- if no two keys are alike in order there is only one way to sort them
      obtain ⟨u', s', hrun, hholds'⟩ :=
        h.step_extend_sort hκ hr hempty hlt hless haccepted hdistinct hsmall (hsort less) countKnown s
      have hitems := hholds.items_eq hκ hholds' htotal
      exact ⟨u', s', hrun, hholds', hitems, hholds.consistent.find_congr hholds'.consistent hitems⟩

end Table

namespace Map

/-- A key is inserted into a map where it keeps an order of the items. -/
def InsertsSortedBy (κ : Hashing K) (m : Map K T) : Prop :=
  ∀ {τ : Type} {lt : K × T → K × T → Bool} {less : K × T → K × T → Action τ Bool},
    StrictWeak lt → MergeSort.Decides less lt → SortedBy lt m.items.toList →
    ∀ k x, κ.refusal k = none → Table.Lacks κ.map m k → m.size + 1 < 2 ^ 48 - 2 →
    ∀ s, ∃ u s', (insertSortedBy κ less k x).step (m, s) =
        (.ok (rank lt m.items.toList (k, x), none), (u, s')) ∧
      Table.PutsSorted κ.map lt m (k, x) u

theorem insertsSortedBy_of_coherent {κ : Hashing K} {m : Map K T} (h : m.Coherent κ.map)
    (hκ : κ.Lawful) : InsertsSortedBy κ m := by
  intro τ lt less hlt hless hsorted k x haccepted hlacks hsmall s
  obtain ⟨u, s', hstep, -, hputs⟩ := h.step_insertSorted (v := (k, x)) hκ hlt hsorted
    (fun item => hless item (k, x)) haccepted hlacks hsmall s
  refine ⟨u, s', ?_, hputs⟩
  unfold insertSortedBy
  rw [Action.step_bind_of_ok hstep]
  rfl

end Map

namespace World

variable {κ : Hashing K}

/-- In a reachable world a vacant handle is on a key that is absent. -/
theorem Reachable.vacant {I : Interface K V} {w : World K V σ} (h : Reachable I κ w)
    (hκ : κ.Lawful) (i : Nat) (k : K) (hash : UInt64) (hc : (w.cell i).entry = .vacant k hash) :
    hash = κ.hash k ∧ (w.cell i).table.find (I.keying κ) k = none := by
  have htwin := ((h.lockstep.twin hκ hκ rfl).cell i).entry
  rw [hc] at htwin
  cases htwin with
  | vacant _ hfind => exact ⟨rfl, hfind⟩

/-- After every run on maps or on sets keys are inserted in order into every container. -/
theorem insertsSorted_of_reachable (hκ : κ.Lawful) :
    (∀ {w : World K (K × T) σ}, Reachable (Map.interface K T) κ w → ∀ i,
      (Table.InsertsSorted κ.map (fun pos old => (pos, old.map Prod.snd))
        (fun less item => Map.insertSorted κ less item.1 item.2) (Map.sortKeys κ) (w.cell i)) ∧
      Map.InsertsSortedBy κ (w.table i)) ∧
    ∀ {w : World K K σ}, Reachable (Set.interface K) κ w → ∀ i,
      Table.InsertsSorted κ.set (fun pos old => (pos, old.isNone)) (Set.insertSorted κ)
        (Set.sortBy κ) (w.cell i) := by
  constructor
  · intro w h i
    have hcoherent := h.coherent_map hκ i
    refine ⟨hcoherent.insertsSorted hκ (Keying.refreshes_map κ) (h.vacant hκ i) ?_ ?_,
      Map.insertsSortedBy_of_coherent hcoherent hκ⟩
    · intro _ less item
      rfl
    · intro _ less u s
      rfl
  · intro w h i
    refine (h.coherent_set hκ i).insertsSorted hκ (Keying.refreshes_set κ) (h.vacant hκ i) ?_ ?_
    · intro _ less k
      rfl
    · intro _ less u s
      rfl

/-- A handle is opened on a key that a map with two keys lacks. -/
def opened : World Nat (Nat × Nat) Unit :=
  ((Turn.act (I := Map.interface Nat Nat) (Hashing.constant.refusing fun _ => none)
    (.openEntry 0 7)).step (withTwo .constant (start ()))).2

theorem opened_eq : opened = (withTwo .constant (start ())).setCell 0
    { (withTwo .constant (start ())).cell 0 with
      entry := .vacant 7 (Hashing.constant.hash 7) } := by
  have hopen : Entry.ofKey
      ((Map.interface Nat Nat).keying (Hashing.constant.refusing fun _ => none))
      ((withTwo .constant (start ())).table 0) 7 = .ok (.vacant 7 (Hashing.constant.hash 7)) :=
    Entry.ofKey_of_absent rfl (by decide +kernel)
  rw [opened, step_openEntry hopen]

theorem opened_reachable : Reachable (Map.interface Nat Nat) .constant opened := by
  refine withTwo_reachable.turn (fun _ => none) (.openEntry 0 7) ?_
  show opened.Fits
  rw [opened_eq]
  exact fits_withTwo.setCell 0 (fits_withTwo 0)

/-- The key seven comes to stand between the two keys of a map, also through a handle; the key
    nine only takes a new value. Three keys that are inserted into an empty set are sorted. -/
theorem insertsSorted_of_reachable_seven :
    (∃ u s', (Map.insertSorted Hashing.constant countedLess 7 70).step (opened.table 0, 0) =
        (.ok (1, none), (u, s')) ∧ u.items.toList = [(5, 1), (7, 70), (9, 2)]) ∧
      (∃ u s', (Entry.insertSortedBy Hashing.constant.map countedLess fun k => (k, 70)).step
          (((opened.cell 0).entry, opened.table 0), 0) = (.ok (), ((.occupied 1, u), s')) ∧
        u.items.toList = [(5, 1), (7, 70), (9, 2)]) ∧
      (∃ u, (Map.insertSorted Hashing.constant countedLess 9 90).step (opened.table 0, 0) =
        (.ok (1, some 2), (u, 0)) ∧ u.items.toList = [(5, 1), (9, 90)]) ∧
      ∃ u s', (Action.forEach (fun k => do let _ ← Set.insertSorted .constant countedLess k)
          [9, 2, 7]).step (((start () : World Nat Nat Unit).cell 0).table, 0) = (.ok (), (u, s')) ∧
        Table.HoldsSorted Hashing.constant.set (fun a b => decide (a < b)) [9, 2, 7] u := by
  have hconstant : Hashing.constant.Lawful := Hashing.lawful_ofHasher _
  have hless : StrictWeak fun a b : Nat => decide (a < b) := by
    constructor <;> simp only [decide_eq_true_eq, decide_eq_false_iff_not] <;> omega
  have hcounted : MergeSort.Decides countedLess fun a b => decide (a < b) := fun _ _ _ => rfl
  obtain ⟨hmap, -⟩ := (insertsSorted_of_reachable hconstant).1 opened_reachable 0
  have hset := (insertsSorted_of_reachable (T := Nat) hconstant).2 (Reachable.start ()) 0
  have hsorted : SortedBy (Hashing.constant.map.lessByKey (V := Nat × Nat) fun a b => decide (a < b))
      (opened.cell 0).table.items.toList := by
    rw [sortedBy_lessByKey, SortedBy]
    decide +kernel
  -- seven belongs between the two keys of the map
  have hrank : rank (Hashing.constant.map.lessByKey fun a b => decide (a < b))
      (opened.cell 0).table.items.toList (7, 70) = 1 := by
    decide +kernel
  have hvacant : (opened.cell 0).entry = .vacant 7 (Hashing.constant.hash 7) := by
    rw [opened_eq, cell_setCell_self]
  have hlacks : Table.Lacks Hashing.constant.map (opened.cell 0).table 7 := by
    unfold Table.Lacks
    decide +kernel
  refine ⟨?_, ?_, ?_, ?_⟩
  · obtain ⟨u, s', hstep, hu⟩ := hmap.absent hless hcounted hsorted (7, 70) rfl hlacks
      (by decide +kernel) 0
    rw [hrank] at hstep
    exact ⟨u, s', hstep, hu.items_eq.trans (by decide +kernel)⟩
  · obtain ⟨u, s', hstep, hu⟩ := hmap.vacant hless hcounted hsorted 7 _ (fun k => (k, 70))
      hvacant rfl (by decide +kernel) 0
    rw [hrank] at hstep
    exact ⟨u, s', hstep, hu.items_eq.trans (by decide +kernel)⟩
  · obtain ⟨u, hstep, hu⟩ := hmap.present countedLess (9, 90) 1 (9, 2) rfl (by decide +kernel) rfl 0
    exact ⟨u, hstep, hu.items_eq.trans (by decide +kernel)⟩
  · obtain ⟨u, s', hstep, hu, -⟩ := hset.each rfl hless hcounted [9, 2, 7] (fun _ _ => rfl)
      (by decide) (by decide) 0
    exact ⟨u, s', hstep, hu⟩

end World

end OrderedHash
