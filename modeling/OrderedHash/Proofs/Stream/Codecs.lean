import OrderedHash.Proofs.Stream.Grammar

namespace OrderedHash

/-!
# Texts that are written

The text that a codec writes for a value starts with the value (`Codec.Writes`). White space
may come before the text, and what comes after it must not start with a digit. Integers are
written so, and byte strings of any content (`writes_text`), pairs (`Writes.pair`) and whole
containers (`starts_writeSequence`).
-/

variable {α β V : Type} {blanks : Bytes} {stop : UInt8}

namespace Grammar

/-- A size is read back if it has 64 bits. -/
theorem starts_size (hblanks : ∀ b ∈ blanks, Reader.isBlank b) {n : Nat} (hn : n < 2 ^ 64)
    (hstop : Numeral.isDigit stop = false) (rest : Bytes) :
    size.Starts (blanks ++ (Numeral.digits n ++ stop :: rest)) n (stop :: rest) := by
  have hholds : (IntRange.unsigned 64).Holds n := by
    refine ⟨Int.natCast_nonneg n, ?_⟩
    show (n : Int) ≤ (1 <<< 64 : Nat) - 1
    rw [Nat.one_shiftLeft]
    omega
  have hstands := Numeral.Stands.bare hblanks (Numeral.spells_digits n)
    (Numeral.stops_cons hstop rest)
  have hwrap : (⟨n, hholds⟩ : Integer (.unsigned 64)) = .wrap _ n :=
    (Integer.wrap_val ⟨n, hholds⟩).symm
  exact ⟨⟨n, hholds⟩, ⟨(false, n), hstands, hholds.2, hwrap⟩, rfl⟩

end Grammar

namespace Codec

/-- The text of a value starts with the value, whatever comes before and after it. -/
def Writes (c : Codec α) (g : Grammar α) (v : α) : Prop :=
  ∀ (blanks : Bytes) (stop : UInt8) (rest : Bytes), (∀ b ∈ blanks, Reader.isBlank b) →
    Numeral.isDigit stop = false → g.Starts (blanks ++ (c.write v ++ stop :: rest)) v (stop :: rest)

/-! ### Single values -/

theorem writes_integer (r : IntRange) (x : Integer r) : (integer r).Writes (.integer r) x :=
  fun _ _ rest hblanks hstop =>
    ⟨_, Numeral.stands_ofInt hblanks x.val hstop rest, (Numeral.value_natAbs x.val).symm⟩

/-- A natural number of a range is not negated, and so it is not wrapped either. -/
theorem writes_natural {r : IntRange} (hr : r.least = 0) (x : Integer r) :
    (natural r).Writes (.natural r) x := by
  intro blanks stop rest hblanks hstop
  obtain ⟨hleast, hgreatest⟩ := x.holds
  refine ⟨_, Numeral.stands_ofInt hblanks x.val hstop rest, ?_, ?_⟩
  · dsimp only
    omega
  · rw [Numeral.value_natAbs, Integer.wrap_val]

/-- A byte string is told by its length, so that its bytes may be any. -/
theorem writes_text {v : Bytes} (hv : v.length < 2 ^ 64) : text.Writes .text v := by
  intro blanks stop rest hblanks _
  have hcolon : Numeral.isDigit 58 = false := rfl
  have hsize := Grammar.starts_size hblanks hv hcolon (v ++ stop :: rest)
  unfold text
  dsimp only
  rw [List.append_assoc, List.cons_append]
  exact hsize

theorem Writes.pair {a : Codec α} {b : Codec β} {g : Grammar α} {k : Grammar β} {x : α} {y : β}
    (hx : a.Writes g x) (hy : b.Writes k y) : (a.pair b).Writes (g.pair k) (x, y) := by
  intro blanks stop rest hblanks hstop
  have hspace : Numeral.isDigit 32 = false := rfl
  have hfirst := hx blanks 32 (b.write y ++ stop :: rest) hblanks hspace
  have hsecond := hy [32] stop rest (by simp [Reader.isBlank]) hstop
  unfold Codec.pair
  dsimp only
  rw [List.append_assoc, List.cons_append]
  exact ⟨_, hfirst, hsecond⟩

/-! ### Items in turn -/

variable {c : Codec V} {g : Grammar V}

/-- What follows a value in a container is a space or the line feed at the end. -/
theorem stops_items (c : Codec V) (vs : List V) (hstop : Numeral.isDigit stop = false)
    (rest : Bytes) : ∃ b more, (vs.flatMap fun v => 32 :: c.write v) ++ stop :: rest = b :: more ∧
      Numeral.isDigit b = false := by
  cases vs with
  | nil => exact ⟨stop, rest, rfl, hstop⟩
  | cons v vs => exact ⟨32, _, rfl, rfl⟩

theorem follow_items (vs : List V) (h : ∀ v ∈ vs, c.Writes g v)
    (hstop : Numeral.isDigit stop = false) (rest : Bytes) :
    g.Follow ((vs.flatMap fun v => 32 :: c.write v) ++ stop :: rest) vs (stop :: rest) := by
  induction vs with
  | nil => exact .nil _
  | cons v vs ih =>
    obtain ⟨b, more, heq, hb⟩ := stops_items c vs hstop rest
    have hfirst := h v List.mem_cons_self [32] b more (by simp [Reader.isBlank]) hb
    rw [← heq] at hfirst
    rw [List.flatMap_cons, List.append_assoc]
    exact .cons hfirst (ih fun w hw => h w (List.mem_cons_of_mem v hw))

/-- The text of a container starts with its items and ends with a line feed. -/
theorem starts_writeSequence (t : Table V) (h : ∀ v ∈ t.items, c.Writes g v)
    (hsize : t.size < 2 ^ 64) (hblanks : ∀ b ∈ blanks, Reader.isBlank b) (rest : Bytes) :
    g.sequence.Starts (blanks ++ (c.writeSequence t ++ rest)) t.items.toList (10 :: rest) := by
  have hfeed : Numeral.isDigit 10 = false := rfl
  obtain ⟨b, more, heq, hb⟩ := stops_items c t.items.toList hfeed rest
  have hcount := Grammar.starts_size hblanks hsize hb more
  rw [← heq] at hcount
  unfold writeSequence
  rw [List.append_assoc, List.append_assoc, List.singleton_append]
  exact ⟨_, hcount, follow_items _ (fun v hv => h v (Array.mem_toList_iff.mp hv)) hfeed rest⟩

end Codec

end OrderedHash
