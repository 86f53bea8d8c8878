import OrderedHash.Proofs.Atomic
import OrderedHash.Proofs.Table.Ordering
import OrderedHash.Proofs.Table.Removing
import OrderedHash.Table.Place
import OrderedHash.Table.Splice
import OrderedHash.Table.Transfer

namespace OrderedHash

/-!
# Twins gain the same items

A key given by the caller is refused, or found at the same position in both tables, or
absent from both (`Twin.onKey`). An item is added only in the last case, and only then can
positions run out, so each operation that adds items is stated for the case that the size
of the table it leaves is small. Since no such operation makes a table smaller (`Grows`),
the same holds at every moment before.
-/

namespace Table

open OrderedHash.Action (Agree Beside)

variable {K V σ α : Type} {κ : Keying K V} {g : Variant K} {t t' : Table V}

/-! ### What a key given by the caller leads to -/

section OnKey

variable {k : K} {present present' : Nat → Action (Table V) α}
  {absent absent' : UInt64 → Action (Table V) α}

/-- Nothing is done if the hash function fails on the key. -/
theorem step_onKey_of_refusal {fault : Fault} (h : κ.refusal k = some fault) :
    (onKey κ k present absent).step t = (.error fault, t) := by
  unfold onKey
  rw [accept_of_refusal h, Action.ofExcept, Action.step_throw_bind]

/-- What is done with a key that is stored at a position. -/
theorem step_onKey_of_find {pos : Nat} (h : κ.refusal k = none) (hfind : t.find κ k = some pos) :
    (onKey κ k present absent).step t = (present pos).step t := by
  unfold onKey
  rw [accept_of_none h, Action.ofExcept, Action.step_pure_bind, Action.step_get_bind,
    show t.findHash κ (κ.hash k) k = some pos from hfind]

/-- What is done with a key that is not stored, with its hash value at hand. -/
theorem step_onKey_of_absent (h : κ.refusal k = none) (hfind : t.find κ k = none) :
    (onKey κ k present absent).step t = (absent (κ.hash k)).step t := by
  unfold onKey
  rw [accept_of_none h, Action.ofExcept, Action.step_pure_bind, Action.step_get_bind,
    show t.findHash κ (κ.hash k) k = none from hfind]

/-- Operations on a key agree if they agree where the key is present in both tables, and
    where it is absent from both. -/
theorem Twin.onKey (h : Twin κ g t t')
    (hpresent : g.Holds k → ∀ pos, t.find κ k = some pos →
      Agree (Twin κ g) ((present pos).step t) ((present' pos).step t'))
    (habsent : g.Holds k → t.find κ k = none →
      (Table.onKey κ k present absent).step t = (absent (κ.hash k)).step t →
        Agree (Twin κ g) ((absent (κ.hash k)).step t) ((absent' (g.hash k)).step t')) :
    Agree (Twin κ g) ((Table.onKey κ k present absent).step t)
      ((Table.onKey (κ.hashedBy g) k present' absent').step t') := by
  -- both runs take the same of the three ways
  cases hrefusal : κ.refusal k with
  | some fault =>
    rw [step_onKey_of_refusal hrefusal, step_onKey_of_refusal (κ.refusal_hashedBy g hrefusal)]
    exact ⟨rfl, h⟩
  | none =>
    cases hfind : t.find κ k with
    | some pos =>
      rw [step_onKey_of_find hrefusal hfind,
        step_onKey_of_find (κ.refusal_hashedBy g hrefusal) ((h.find_eq k).trans hfind)]
      exact hpresent (h.admits.holds k hrefusal) pos hfind
    | none =>
      have hstep : (Table.onKey κ k present absent).step t = (absent (κ.hash k)).step t :=
        step_onKey_of_absent hrefusal hfind
      rw [step_onKey_of_absent (κ.refusal_hashedBy g hrefusal) ((h.find_eq k).trans hfind), hstep]
      exact habsent (h.admits.holds k hrefusal) hfind hstep

end OnKey

/-! ### Operations that do not make a table smaller -/

/-- An action leaves at least as many items as there were. -/
def Grows (x : Action (Table V) α) : Prop := ∀ t, t.size ≤ (x.step t).2.size

theorem Grows.pure (a : α) : Grows (pure a : Action (Table V) α) := fun t => le_refl t.size

/-- Two operations one after the other grow the table if both do. -/
theorem Grows.bind {β : Type} {x : Action (Table V) α} {f : α → Action (Table V) β} (hx : Grows x)
    (hf : ∀ a, Grows (f a)) : Grows (x >>= f) := by
  intro t
  have hfirst := hx t
  rcases Action.step_bind_cases x f t with ⟨a, u, hstep, hrun⟩ | ⟨e, u, hstep, hrun⟩ <;>
    rw [hstep] at hfirst <;> rw [hrun]
  · exact hfirst.trans (hf a u)
  · exact hfirst

theorem Grows.get : Grows (get : Action (Table V) (Table V)) := fun t => le_refl t.size

/-- A change to the table grows it if it never makes a table smaller. -/
theorem Grows.modify {f : Table V → Table V} (hf : ∀ t, t.size ≤ (f t).size) :
    Grows (modify f : Action (Table V) PUnit) :=
  hf

/-- An operation on a key grows the table if it does so for stored keys and for new ones. -/
theorem Grows.onKey {k : K} {present : Nat → Action (Table V) α}
    {absent : UInt64 → Action (Table V) α} (hpresent : ∀ pos, Grows (present pos))
    (habsent : ∀ hash, Grows (absent hash)) : Grows (Table.onKey κ k present absent) := by
  intro t
  cases hrefusal : κ.refusal k with
  | some fault => rw [step_onKey_of_refusal hrefusal]
  | none =>
    cases hfind : t.find κ k with
    | some pos =>
      rw [step_onKey_of_find hrefusal hfind]
      exact hpresent pos t
    | none =>
      rw [step_onKey_of_absent hrefusal hfind]
      exact habsent _ t

/-- No item gets lost when another one is added. -/
theorem size_insertAt (t : Table V) (pos : Nat) (hash : UInt64) (v : V) :
    t.size ≤ (t.insertAt κ pos hash v).size := by
  show t.items.size ≤ (t.items.insertIdxIfInBounds pos v).size
  unfold Array.insertIdxIfInBounds
  split
  · rw [Array.size_insertIdx]
    exact Nat.le_succ _
  · exact le_rfl

/-- Refreshing an item keeps the number of items. -/
theorem size_refreshAt (t : Table V) (pos : Nat) (v : V) : (t.refreshAt κ pos v).size = t.size :=
  Array.size_modify

/-- To add an item grows the table. -/
theorem addAt_grows (pos : Nat) (hash : UInt64) (v : V) : Grows (addAt κ pos hash v) :=
  Grows.modify fun t => size_insertAt t pos hash v

theorem Grows.ofExcept (e : Except Fault α) : Grows (Action.ofExcept e : Action (Table V) α) :=
  fun t => by rw [Action.step_ofExcept]

/-- To add an item unless its key is stored grows the table. -/
theorem insert_grows (v : V) : Grows (insert κ v) :=
  Grows.onKey (fun _ => Grows.pure _)
    fun hash => Grows.get.bind fun _ => (addAt_grows _ hash v).bind fun _ => Grows.pure _

/-- To add an item or to refresh the one with its key grows the table. -/
theorem put_grows (v : V) : Grows (put κ v) :=
  Grows.onKey
    (fun pos => Grows.get.bind fun _ =>
      (Grows.modify fun t => (size_refreshAt t pos v).ge).bind fun _ => Grows.pure _)
    fun hash => Grows.get.bind fun _ => (addAt_grows _ hash v).bind fun _ => Grows.pure _

/-- What leaves a table small has found it small. -/
theorem Grows.small {x : Action (Table V) α} (hx : Grows x) (t : Table V)
    (h : (x.step t).2.size < Node.movingPosition) : t.size < Node.movingPosition :=
  lt_of_le_of_lt (hx t) h

/-- Before actions that make no table smaller the table was small if they leave it small. -/
theorem Grows.small_of_bind {β : Type} {x : Action (Table V) α} {f : α → Action (Table V) β}
    (hf : ∀ a, Grows (f a)) (t : Table V) (h : ((x >>= f).step t).2.size < Node.movingPosition) :
    (x.step t).2.size < Node.movingPosition := by
  rcases Action.step_bind_cases x f t with ⟨a, u, hstep, hrun⟩ | ⟨e, u, hstep, hrun⟩ <;>
    rw [hrun] at h <;> rw [hstep]
  · exact (hf a).small u h
  · exact h

/-! ### Single items -/

namespace Twin

/-- An item whose key is absent is added where both tables have a place for it. -/
theorem addAt (h : Twin κ g t t') {pos : Nat} (hpos : pos ≤ t.size) {v : V}
    (hv : g.Holds (κ.key v)) (habsent : t.find κ (κ.key v) = none)
    (hsmall : ((Table.addAt κ pos (κ.hash (κ.key v)) v).step t).2.size < Node.movingPosition) :
    Agree (Twin κ g) ((Table.addAt κ pos (κ.hash (κ.key v)) v).step t)
      ((Table.addAt (κ.hashedBy g) pos (g.hash (κ.key v)) v).step t') :=
  Agree.modify (h.insertAt hpos hv habsent hsmall)

/-- Twins stay twins when an item is added to both unless its key is stored. -/
theorem insert (h : Twin κ g t t') (v : V)
    (hsmall : ((Table.insert κ v).step t).2.size < Node.movingPosition) :
    Agree (Twin κ g) ((Table.insert κ v).step t) ((Table.insert (κ.hashedBy g) v).step t') := by
  unfold Table.insert at hsmall ⊢
  refine h.onKey (fun _ pos _ => Agree.pure h (pos, false)) fun hv hfind hstep => ?_
  rw [hstep, Action.step_get_bind, Action.step_map_snd] at hsmall
  rw [Action.step_get_bind, Action.step_get_bind, h.size_eq]
  exact (h.addAt le_rfl hv hfind hsmall).map fun _ => (t.size, true)

/-- Twins stay twins when an item is added to both or refreshes the one with its key. -/
theorem put (h : Twin κ g t t') (v : V)
    (hsmall : ((Table.put κ v).step t).2.size < Node.movingPosition) :
    Agree (Twin κ g) ((Table.put κ v).step t) ((Table.put (κ.hashedBy g) v).step t') := by
  unfold Table.put at hsmall ⊢
  refine h.onKey (fun _ pos _ => ?_) fun hv hfind hstep => ?_
  · rw [Action.step_get_bind, Action.step_get_bind, h.items]
    exact (Agree.modify (h.refreshAt pos v)).map fun _ => (pos, t.items[pos]?)
  · rw [hstep, Action.step_get_bind, Action.step_map_snd] at hsmall
    rw [Action.step_get_bind, Action.step_get_bind, h.size_eq]
    exact (h.addAt le_rfl hv hfind hsmall).map fun _ => (t.size, none)

end Twin

/-! ### Items built in the store -/

/-- A lookup does not ask about an item that the index does not know of yet. -/
theorem Coherent.find_push (h : t.Coherent κ) (v : V) (k : K) :
    Table.find κ { t with items := t.items.push v } k = t.find κ k := by
  unfold find findHash Index.findPosition Index.find
  dsimp only
  rw [Index.findFrom_congr]
  intro p hp
  obtain ⟨b, hb, rfl, -⟩ := h.indexes.of_mem_asked hp
  have hlt : (t.index.node b).pos < t.items.size := h.indexes.pos_lt hb
  rw [keyAtIs, keyAtIs, Array.getElem?_push, if_neg (by omega)]

/-- An item is added at the end, after its place was made in the store. -/
theorem Coherent.push (h : t.Coherent κ) (hκ : κ.Lawful) {v : V}
    (habsent : t.find κ (κ.key v) = none) (hsmall : t.size + 1 < Node.movingPosition) :
    Coherent κ ⟨t.items.push v,
      t.index.insertAt t.size t.size (κ.hash (κ.key v)) (hashAt κ (t.items.push v))⟩ := by
  have hdistinct := h.distinct.insertIdx hκ ((h.find_eq_none hκ _).mp habsent) (le_refl t.items.size)
  rw [Index.insertIdx_size] at hdistinct
  have hmirrors := h.mirrors.push (lt_trans h.small (by decide)) v
  rw [← hashAt_eq] at hmirrors
  refine ⟨hdistinct, ?_, hmirrors⟩
  show (t.items.push v).size < Node.movingPosition
  rw [Array.size_push]
  exact hsmall

section Emplace

variable {v : V}

/-- The item that was built is thrown away if the hash function fails on its key. -/
theorem step_emplace_of_refusal {fault : Fault} (h : κ.refusal (κ.key v) = some fault) :
    (emplace κ v).step t = (.error fault, t) := by
  unfold emplace
  rw [accept_of_refusal h]
  simp only [Action.step_get_bind, Action.step_modify_bind, Action.step_throw, Array.pop_push]

/-- The item that was built is thrown away if its key is stored. -/
theorem step_emplace_of_find {pos : Nat} (ht : t.Coherent κ) (h : κ.refusal (κ.key v) = none)
    (hfind : t.find κ (κ.key v) = some pos) : (emplace κ v).step t = (.ok (pos, false), t) := by
  have hpush : Table.findHash κ { t with items := t.items.push v } (κ.hash (κ.key v)) (κ.key v) =
      some pos := (ht.find_push v _).trans hfind
  unfold emplace
  rw [accept_of_none h]
  simp only [Action.step_get_bind, Action.step_modify_bind, hpush, Action.step_pure, Array.pop_push]

/-- The item that was built stays in its place if its key is new. -/
theorem step_emplace_of_absent (ht : t.Coherent κ) (h : κ.refusal (κ.key v) = none)
    (hfind : t.find κ (κ.key v) = none) : (emplace κ v).step t =
      (.ok (t.size, true), ⟨t.items.push v,
        t.index.insertAt t.size t.size (κ.hash (κ.key v)) (hashAt κ (t.items.push v))⟩) := by
  have hpush : Table.findHash κ { t with items := t.items.push v } (κ.hash (κ.key v)) (κ.key v) =
      none := (ht.find_push v _).trans hfind
  unfold emplace
  rw [accept_of_none h]
  simp only [Action.step_get_bind, Action.step_modify_bind, hpush, Action.step_pure]
  rfl

end Emplace

/-- Twins stay twins when an item is built in the store of both. -/
theorem Twin.emplace (h : Twin κ g t t') (v : V)
    (hsmall : ((Table.emplace κ v).step t).2.size < Node.movingPosition) :
    Agree (Twin κ g) ((Table.emplace κ v).step t) ((Table.emplace (κ.hashedBy g) v).step t') := by
  cases hrefusal : κ.refusal (κ.key v) with
  | some fault =>
    rw [step_emplace_of_refusal hrefusal,
      step_emplace_of_refusal (κ.refusal_hashedBy g hrefusal)]
    exact ⟨rfl, h⟩
  | none =>
    have hfind' := h.find_eq (κ.key v)
    cases hfind : t.find κ (κ.key v) with
    | some pos =>
      rw [step_emplace_of_find h.left hrefusal hfind,
        step_emplace_of_find h.right (κ.refusal_hashedBy g hrefusal) (hfind'.trans hfind)]
      exact ⟨rfl, h⟩
    | none =>
      rw [step_emplace_of_absent h.left hrefusal hfind] at hsmall ⊢
      rw [step_emplace_of_absent h.right (κ.refusal_hashedBy g hrefusal) (hfind'.trans hfind)]
      -- the item stays only if its key is new
      have hroom : t.size + 1 < Node.movingPosition := by
        have hsize : (t.items.push v).size = t.size + 1 := Array.size_push v
        rw [← hsize]
        exact hsmall
      refine ⟨?_, h.admits, ?_, ?_, h.left.push h.admits.lawful hfind hroom,
        h.right.push h.admits.lawful' (hfind'.trans hfind) (h.size_eq.symm ▸ hroom)⟩
      · rw [h.size_eq]
      · show t'.items.push v = t.items.push v
        rw [h.items]
      · rw [← Index.insertIdx_size]
        exact h.held.insertIdx t.items.size (h.admits.holds _ hrefusal)

/-- To build an item in the store grows the table. -/
theorem emplace_grows (v : V) : Grows (emplace κ v) := by
  intro t
  unfold emplace
  simp only [Action.step_get_bind, Action.step_modify_bind]
  -- an item that does not stay is popped again
  cases κ.accept (κ.key v) with
  | error fault =>
    simp only [Action.step_modify_bind, Action.step_throw, Array.pop_push]
    exact le_rfl
  | ok hash =>
    simp only [Action.step_get_bind]
    cases findHash κ { t with items := t.items.push v } hash (κ.key v) with
    | some pos =>
      simp only [Action.step_modify_bind, Action.step_pure, Array.pop_push]
      exact le_rfl
    | none =>
      simp only [Action.step_modify_bind, Action.step_pure]
      show t.items.size ≤ (t.items.push v).size
      rw [Array.size_push]
      exact Nat.le_succ _

/-! ### Many items in turn -/

namespace Twin

/-- Twins stay twins when the items of a list are put into both in turn. -/
theorem putEach (h : Twin κ g t t') (vs : List V)
    (hsmall : ((Action.forEach (fun v => do let _ ← Table.put κ v) vs).step t).2.size <
      Node.movingPosition) :
    Agree (Twin κ g) ((Action.forEach (fun v => do let _ ← Table.put κ v) vs).step t)
      ((Action.forEach (fun v => do let _ ← Table.put (κ.hashedBy g) v) vs).step t') := by
  refine Agree.forEach (P := fun t => t.size < Node.movingPosition) (fun v t t' h hv => ?_)
    (fun v t hv => ?_) vs h hsmall <;> rw [Action.step_map_snd] at hv
  · exact (h.put v hv).map fun _ => ()
  · exact (put_grows v).small t hv

/-- Twins stay twins when they are extended by a list, of known length or not. -/
theorem extend (h : Twin κ g t t') (vs : List V) (countKnown : Bool)
    (hsmall : ((Table.extend κ vs countKnown).step t).2.size < Node.movingPosition) :
    Agree (Twin κ g) ((Table.extend κ vs countKnown).step t)
      ((Table.extend (κ.hashedBy g) vs countKnown).step t') := by
  unfold Table.extend at hsmall ⊢
  cases countKnown with
  | false => exact h.putEach vs hsmall
  | true => exact (h.reserve _ _).putEach vs hsmall

/-- Twins stay twins when the items of a list are built in both in turn. -/
theorem insertEach (h : Twin κ g t t') (vs : List V)
    (hsmall : ((Table.insertEach κ vs).step t).2.size < Node.movingPosition) :
    Agree (Twin κ g) ((Table.insertEach κ vs).step t)
      ((Table.insertEach (κ.hashedBy g) vs).step t') := by
  unfold Table.insertEach at hsmall ⊢
  refine Agree.forEach (P := fun t => t.size < Node.movingPosition) (fun v t t' h hv => ?_)
    (fun v t hv => ?_) vs h hsmall <;> rw [Action.step_map_snd] at hv
  · exact (h.emplace v hv).map fun _ => ()
  · exact (emplace_grows v).small t hv

end Twin

/-! ### Tables that are built -/

section Build

variable {x x' : Action (Table V) Unit} {e e' : Except Fault (Table V)}

/-- A table that is built is what the action leaves, unless the action fails. -/
theorem build_eq (t : Table V) (x : Action (Table V) Unit) :
    build t x = (x.step t).1.map fun _ => (x.step t).2 :=
  rfl

/-- What does not fail on a key that is accepted fails on those that are refused. -/
theorem answer_onKey {k : K} {present : Nat → Action (Table V) α}
    {absent : UInt64 → Action (Table V) α} (hpresent : ∀ pos, (present pos).Answers t)
    (habsent : ∀ hash, (absent hash).Answers t) :
    ((do let _ ← onKey κ k present absent : Action (Table V) Unit).step t).1 =
      (κ.accept k).map fun _ => () := by
  -- the hash function is asked first, and whatever comes then is answered
  cases hrefusal : κ.refusal k with
  | some fault =>
    rw [Action.step_bind, step_onKey_of_refusal hrefusal, accept_of_refusal hrefusal]
    rfl
  | none =>
    rw [accept_of_none hrefusal]
    cases hfind : t.find κ k with
    | some pos =>
      obtain ⟨a, u, hstep⟩ := hpresent pos
      rw [Action.step_bind, step_onKey_of_find hrefusal hfind, hstep]
      rfl
    | none =>
      obtain ⟨a, u, hstep⟩ := habsent (κ.hash k)
      rw [Action.step_bind, step_onKey_of_absent hrefusal hfind, hstep]
      rfl

/-- Whether an item is put into a table depends on what the hash function says of its key. -/
theorem answer_put (v : V) (t : Table V) :
    ((do let _ ← put κ v : Action (Table V) Unit).step t).1 =
      (κ.accept (κ.key v)).map fun _ => () :=
  answer_onKey (fun _ => .get_bind (.modify_bind (.pure _ _)))
    fun _ => .get_bind (.modify_bind (.pure _ _))

/-- Whether an item is added to a table depends on what the hash function says of its key. -/
theorem answer_insert (v : V) (t : Table V) :
    ((do let _ ← insert κ v : Action (Table V) Unit).step t).1 =
      (κ.accept (κ.key v)).map fun _ => () :=
  answer_onKey (fun _ => .pure _ _) fun _ => .get_bind (.modify_bind (.pure _ _))

/-- Either hash function fails on the same keys. -/
theorem accept_hashedBy (κ : Keying K V) (g : Variant K) (k : K) :
    ((κ.hashedBy g).accept k).map (fun _ => ()) = (κ.accept k).map fun _ => () := by
  cases hrefusal : κ.refusal k with
  | some fault =>
    rw [accept_of_refusal hrefusal, accept_of_refusal (κ.refusal_hashedBy g hrefusal)]
  | none =>
    rw [accept_of_none hrefusal, accept_of_none (κ.refusal_hashedBy g hrefusal)]
    rfl

/-- Whether a list extends a table does not depend on the table or on the hash values. -/
theorem answer_extend (vs : List V) (countKnown : Bool) (t t' : Table V) :
    ((extend (κ.hashedBy g) vs countKnown).step t').1 = ((extend κ vs countKnown).step t).1 := by
  have hput : ∀ v (s s' : Table V),
      ((do let _ ← put (κ.hashedBy g) v : Action (Table V) Unit).step s').1 =
        ((do let _ ← put κ v : Action (Table V) Unit).step s).1 := fun v s s' =>
    (answer_put v s').trans ((accept_hashedBy κ g _).trans (answer_put v s).symm)
  have heach := Action.answer_forEach hput vs
  unfold extend
  cases countKnown with
  | false => exact heach t t'
  | true => exact heach _ _

/-- A list of items whose keys are accepted is added to the end. -/
theorem answer_extend_of_accepted {vs : List V} (hvs : ∀ v ∈ vs, κ.refusal (κ.key v) = none)
    (countKnown : Bool) (t : Table V) : ((extend κ vs countKnown).step t).1 = .ok () := by
  have heach : ∀ t, ((Action.forEach (fun v => do let _ ← put κ v) vs).step t).1 = .ok () :=
    Action.answer_forEach_of_ok fun v hv t => by
      rw [answer_put, accept_of_none (hvs v hv)]
      rfl
  unfold extend
  cases countKnown with
  | false => exact heach t
  | true => exact heach _

/-- To extend a table by a list grows it. -/
theorem extend_grows (vs : List V) (countKnown : Bool) : Grows (extend κ vs countKnown) := by
  have heach : Grows (Action.forEach (fun v => do let _ ← put κ v) vs) := by
    induction vs with
    | nil => exact Grows.pure ()
    | cons v rest ih => exact ((put_grows v).bind fun _ => Grows.pure ()).bind fun _ => ih
  unfold extend
  cases countKnown with
  | false => exact heach
  | true => exact fun t => heach (t.reserve κ (t.size + vs.length))

/-- A table that is built is what the action leaves. -/
theorem of_build_eq_ok {u : Table V} (h : build t x = .ok u) : x.step t = (.ok (), u) := by
  rw [build_eq] at h
  rcases hstep : x.step t with ⟨fault | ⟨⟩, v⟩ <;> rw [hstep] at h <;> cases h
  rfl

/-- A table is built if the action comes to an end. -/
theorem build_of_ok {u : Table V} (h : x.step t = (.ok (), u)) : build t x = .ok u := by
  rw [build_eq, h]
  rfl

/-- Two outcomes of building a table: the same fault, or two tables, which are twins unless
    positions run out. -/
structure Twin.Made (κ : Keying K V) (g : Variant K) (e e' : Except Fault (Table V)) : Prop where
  answer : e'.map (fun _ => ()) = e.map fun _ => ()
  twin : ∀ {u u' : Table V}, e = .ok u → e' = .ok u' → u.size < Node.movingPosition → Twin κ g u u'

/-- Twins are made if both are there. -/
theorem Twin.made (h : Twin κ g t t') : Twin.Made κ g (.ok t) (.ok t') := by
  refine ⟨rfl, fun hu hu' _ => ?_⟩
  cases hu
  cases hu'
  exact h

/-- A table is built on. Whether that comes to an end must not depend on the table. -/
theorem Twin.Made.build (h : Twin.Made κ g e e') (hx : Grows x)
    (hanswer : ∀ s s', (x'.step s').1 = (x.step s).1)
    (hagree : ∀ {s s'}, Twin κ g s s' → (x.step s).2.size < Node.movingPosition →
      Agree (Twin κ g) (x.step s) (x'.step s')) :
    Twin.Made κ g (e >>= fun s => Table.build s x) (e' >>= fun s => Table.build s x') := by
  cases e with
  | error fault =>
    cases e' with
    | error fault' => exact ⟨h.answer, nofun⟩
    | ok s' => cases h.answer
  | ok s =>
    cases e' with
    | error fault' => cases h.answer
    | ok s' =>
      refine ⟨?_, fun {u u'} hu hu' hsmall => ?_⟩
      · show ((x'.step s').1.map _).map _ = ((x.step s).1.map _).map _
        rw [hanswer s s']
        cases (x.step s).1 <;> rfl
      · have hstep := of_build_eq_ok (x := x) (t := s) hu
        have hstep' := of_build_eq_ok (x := x') (t := s') hu'
        have hlast : (x.step s).2.size < Node.movingPosition := by rwa [hstep]
        -- no table on the way is larger than the last
        have hagree := (hagree (h.twin rfl rfl (hx.small s hlast)) hlast).state
        rwa [hstep, hstep'] at hagree

end Build

/-! ### Replacing a range -/

/-- Adds or refreshes one item of those that take the place of a range. -/
def placeAt (κ : Keying K V) (pos : Nat) (v : V) : Action (Table V) Nat :=
  onKey κ (κ.key v)
    (fun found => do
      modify fun t => t.refreshAt κ found v
      return pos)
    fun hash => do
      addAt κ pos hash v
      return pos + 1

/-- Items are placed one behind the other, each where the one before it says. -/
theorem placeFrom_cons (κ : Keying K V) (pos : Nat) (v : V) (rest : List V) :
    placeFrom κ pos (v :: rest) = placeAt κ pos v >>= fun pos => placeFrom κ pos rest :=
  rfl

/-- To place an item grows the table. -/
theorem placeAt_grows (pos : Nat) (v : V) : Grows (placeAt κ pos v) :=
  Grows.onKey
    (fun found => (Grows.modify fun t => (size_refreshAt t found v).ge).bind fun _ => Grows.pure pos)
    fun hash => (addAt_grows pos hash v).bind fun _ => Grows.pure (pos + 1)

/-- To place the items of a list grows the table. -/
theorem placeFrom_grows (vs : List V) (pos : Nat) : Grows (placeFrom κ pos vs) := by
  induction vs generalizing pos with
  | nil => exact Grows.pure ()
  | cons v rest ih => exact (placeAt_grows pos v).bind fun pos => ih pos

/-- The next place is again one of the table or its end. -/
theorem le_of_step_placeAt {pos next : Nat} {v : V} {u : Table V} (hpos : pos ≤ t.size)
    (h : (placeAt κ pos v).step t = (.ok next, u)) : next ≤ u.size := by
  unfold placeAt at h
  cases hrefusal : κ.refusal (κ.key v) with
  | some fault =>
    rw [step_onKey_of_refusal hrefusal] at h
    cases h
  | none =>
    cases hfind : t.find κ (κ.key v) with
    -- an item found is refreshed where it is, and the next one goes to the same position
    | some found =>
      rw [step_onKey_of_find hrefusal hfind, Action.step_modify_bind] at h
      cases h
      exact hpos.trans (size_refreshAt t found v).ge
    | none =>
      rw [step_onKey_of_absent hrefusal hfind] at h
      unfold addAt at h
      rw [Action.step_modify_bind] at h
      cases h
      have hpos : pos ≤ t.items.size := hpos
      show pos + 1 ≤ (t.items.insertIdxIfInBounds pos v).size
      rw [Array.insertIdxIfInBounds, dif_pos hpos, Array.size_insertIdx]
      exact Nat.succ_le_succ hpos

namespace Twin

/-- Twins stay twins when an item is placed in both at a position. -/
theorem placeAt (h : Twin κ g t t') {pos : Nat} (hpos : pos ≤ t.size) (v : V)
    (hsmall : ((Table.placeAt κ pos v).step t).2.size < Node.movingPosition) :
    Agree (Twin κ g) ((Table.placeAt κ pos v).step t)
      ((Table.placeAt (κ.hashedBy g) pos v).step t') := by
  unfold Table.placeAt at hsmall ⊢
  refine h.onKey (fun _ found _ => ?_) fun hv hfind hstep => ?_
  · exact (Agree.modify (h.refreshAt found v)).map fun _ => pos
  · rw [hstep, Action.step_map_snd] at hsmall
    exact (h.addAt hpos hv hfind hsmall).map fun _ => pos + 1

/-- Twins stay twins when the items of a list are placed in both from a position on. -/
theorem placeFrom (h : Twin κ g t t') (vs : List V) {pos : Nat} (hpos : pos ≤ t.size)
    (hsmall : ((Table.placeFrom κ pos vs).step t).2.size < Node.movingPosition) :
    Agree (Twin κ g) ((Table.placeFrom κ pos vs).step t)
      ((Table.placeFrom (κ.hashedBy g) pos vs).step t') := by
  induction vs generalizing t t' pos with
  | nil => exact Agree.pure h ()
  | cons v rest ih =>
    rw [placeFrom_cons] at hsmall ⊢
    rw [placeFrom_cons]
    have hfirst := Grows.small_of_bind (fun pos => placeFrom_grows rest pos) t hsmall
    refine (h.placeAt hpos v hfirst).bind (fun _ _ _ _ h => h) fun next u u' hstep hR => ?_
    rw [Action.step_bind_of_ok hstep] at hsmall
    exact ih hR (le_of_step_placeAt hpos hstep) hsmall

/-- Twins stay twins when a range of both is replaced by the items of a list. -/
theorem splice (h : Twin κ g t t') (first last : Nat) (vs : List V)
    (hsmall : ((Table.splice κ first last vs).step t).2.size < Node.movingPosition) :
    Agree (Twin κ g) ((Table.splice κ first last vs).step t)
      ((Table.splice (κ.hashedBy g) first last vs).step t') := by
  unfold Table.splice at hsmall ⊢
  refine (h.drain first last).bind (fun _ _ _ _ h => h) fun removed u u' hstep hR => ?_
  rw [Action.step_bind_of_ok hstep, Action.step_map_snd] at hsmall
  exact (hR.placeFrom vs (le_of_step_drain hstep) hsmall).map fun _ => removed

end Twin

/-! ### Adding at a place -/

namespace Twin

/-- Twins stay twins when an item is put before a position of both. -/
theorem insertBefore (h : Twin κ g t t') (target : Nat) (v : V)
    (hsmall : ((Table.insertBefore κ target v).step t).2.size < Node.movingPosition) :
    Agree (Twin κ g) ((Table.insertBefore κ target v).step t)
      ((Table.insertBefore (κ.hashedBy g) target v).step t') := by
  unfold Table.insertBefore checkPosition at hsmall ⊢
  rw [Action.step_get_bind] at hsmall
  rw [Action.step_get_bind, Action.step_get_bind, h.size_eq]
  refine Agree.demand h fun htarget => ?_
  rw [Action.step_demand_bind htarget] at hsmall
  refine h.onKey (fun _ pos _ => ?_) fun hv hfind hstep => ?_
  · rw [Action.step_get_bind, Action.step_get_bind, h.items, Action.step_modify_bind,
      Action.step_modify_bind]
    -- a key that is present is moved to the target
    exact ((h.refreshAt pos v).moveIndex pos _).map fun _ => _
  · rw [hstep, Action.step_map_snd] at hsmall
    have hpos : target ≤ t.size := Nat.le_of_lt_succ (of_decide_eq_true htarget)
    exact (h.addAt hpos hv hfind hsmall).map fun _ => (target, none)

/-- Twins stay twins when an item is put at a position of both. -/
theorem shiftInsert (h : Twin κ g t t') (target : Nat) (v : V)
    (hsmall : ((Table.shiftInsert κ target v).step t).2.size < Node.movingPosition) :
    Agree (Twin κ g) ((Table.shiftInsert κ target v).step t)
      ((Table.shiftInsert (κ.hashedBy g) target v).step t') := by
  unfold Table.shiftInsert checkPosition at hsmall ⊢
  refine h.onKey (fun _ pos _ => ?_) fun hv hfind hstep => ?_
  · rw [Action.step_get_bind, Action.step_get_bind, h.size_eq]
    refine Agree.demand h fun _ => ?_
    rw [Action.step_get_bind, Action.step_get_bind, h.items, Action.step_modify_bind,
      Action.step_modify_bind]
    exact ((h.refreshAt pos v).moveIndex pos target).map fun _ => t.items[pos]?
  · rw [hstep, Action.step_get_bind] at hsmall
    rw [Action.step_get_bind, Action.step_get_bind, h.size_eq]
    refine Agree.demand h fun htarget => ?_
    -- the size allowed is only known where the target passes the check
    rw [Action.step_demand_bind htarget, Action.step_map_snd] at hsmall
    have hpos : target ≤ t.size := Nat.le_of_lt_succ (of_decide_eq_true htarget)
    exact (h.addAt hpos hv hfind hsmall).map fun _ => none

end Twin

/-! ### Adding where a search by halves ends -/

/-- A search by halves arrives at a position of the range or at its end. -/
theorem le_of_partitionFrom {items : Array V} {test : V → Action σ Bool} (first count : Nat)
    {s u : σ} {p : Nat} (h : (partitionFrom items test first count).step s = (.ok p, u)) :
    p ≤ first + count := by
  induction count using Nat.strong_induction_on generalizing first s with
  | _ count ih =>
    rw [partitionFrom] at h
    split at h
    · dsimp only at h
      cases hv : items[first + count / 2]? with
      | none =>
        rw [hv] at h
        cases h
        exact Nat.le_add_right p count
      | some v =>
        rw [hv] at h
        -- what is left is one of the halves
        obtain ⟨passed, w, -, h⟩ := Action.of_step_bind_eq_ok h
        split at h
        · have := ih (count - count / 2 - 1) (by omega) (first + count / 2 + 1) h
          omega
        · have := ih (count / 2) (by omega) first h
          omega
    · cases h
      exact Nat.le_add_right p count

section InsertSorted

variable {before : V → Action σ Bool} {v : V} {s : σ}

/-- Nothing is compared if the hash function fails on the key. -/
theorem step_insertSorted_of_refusal {fault : Fault} (h : κ.refusal (κ.key v) = some fault) :
    (insertSorted κ before v).step (t, s) = (.error fault, (t, s)) := by
  unfold insertSorted
  rw [Action.step_get_bind]
  dsimp only
  rw [accept_of_refusal h, Action.ofExcept, Action.step_throw_bind]

/-- Nothing is compared if the key is stored; its item is refreshed. -/
theorem step_insertSorted_of_find {pos : Nat} (h : κ.refusal (κ.key v) = none)
    (hfind : t.find κ (κ.key v) = some pos) : (insertSorted κ before v).step (t, s) =
      (.ok (pos, t.items[pos]?), (t.refreshAt κ pos v, s)) := by
  unfold insertSorted
  rw [Action.step_get_bind]
  dsimp only
  rw [accept_of_none h, Action.ofExcept, Action.step_pure_bind,
    show t.findHash κ (κ.hash (κ.key v)) (κ.key v) = some pos from hfind]
  rfl

/-- A new item is added where the search by halves ends. -/
theorem step_insertSorted_of_absent (h : κ.refusal (κ.key v) = none)
    (hfind : t.find κ (κ.key v) = none) : (insertSorted κ before v).step (t, s) =
      (Action.onSnd (partitionFrom t.items before 0 t.size) >>= fun pos => do
        Action.onFst (addAt κ pos (κ.hash (κ.key v)) v)
        return (pos, none) : Action (Table V × σ) (Nat × Option V)).step (t, s) := by
  unfold insertSorted partitionPoint
  rw [Action.step_get_bind]
  dsimp only
  rw [accept_of_none h, Action.ofExcept, Action.step_pure_bind,
    show t.findHash κ (κ.hash (κ.key v)) (κ.key v) = none from hfind]
  dsimp only
  rw [Action.step_bind, Action.step_get_bind]
  exact (Action.step_bind _ _ _).symm

/-- Twins stay twins when an item is added to both where a search by halves ends. -/
theorem Twin.insertSorted (h : Twin κ g t t') (before : V → Action σ Bool) (v : V) (s : σ)
    (hsmall : ((Table.insertSorted κ before v).step (t, s)).2.1.size < Node.movingPosition) :
    Agree (Beside (Twin κ g)) ((Table.insertSorted κ before v).step (t, s))
      ((Table.insertSorted (κ.hashedBy g) before v).step (t', s)) := by
  cases hrefusal : κ.refusal (κ.key v) with
  | some fault =>
    rw [step_insertSorted_of_refusal hrefusal,
      step_insertSorted_of_refusal (κ.refusal_hashedBy g hrefusal)]
    exact ⟨rfl, h.beside s⟩
  | none =>
    have hfind' := h.find_eq (κ.key v)
    cases hfind : t.find κ (κ.key v) with
    | some pos =>
      rw [step_insertSorted_of_find hrefusal hfind, step_insertSorted_of_find
        (κ.refusal_hashedBy g hrefusal) (hfind'.trans hfind), h.items]
      exact ⟨rfl, (h.refreshAt pos v).beside s⟩
    | none =>
      rw [step_insertSorted_of_absent hrefusal hfind] at hsmall ⊢
      rw [step_insertSorted_of_absent (κ.refusal_hashedBy g hrefusal) (hfind'.trans hfind),
        h.items, h.size_eq]
      refine (Agree.onSnd (h.beside s) _).bind (fun _ _ _ _ h => h) fun pos u u' hstep hR => ?_
      rw [Action.step_bind_of_ok hstep, Action.step_map_snd] at hsmall
      -- the search for the position leaves the table as it is
      obtain ⟨heq, hpos⟩ := Action.of_step_onSnd_eq hstep
      have hle : pos ≤ t.size := (le_of_partitionFrom 0 t.size hpos).trans (Nat.zero_add _).le
      rw [← show u.1 = t from heq] at hle hfind
      have hadded := hR.fst.addAt hle (h.admits.holds _ hrefusal) hfind hsmall
      exact (Agree.onFst hadded hR.snd).map fun _ => (pos, none)

end InsertSorted

end Table

end OrderedHash
