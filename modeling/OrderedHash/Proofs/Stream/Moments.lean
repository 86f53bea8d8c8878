import OrderedHash.Proofs.Stream.Consumption
import OrderedHash.Stream.Sequence

namespace OrderedHash

/-!
# What is held while a container is read

The number of items and the lengths of byte strings are announced before them, and need not
be true. A `Traced` reader tells what it holds at the moments of its run: where the next item
begins, the values read so far, and where a chunk of a byte string is asked for, the bytes of
that string so far. `Element.items` reads the items of a container in this way. Without its
moments it is the reader of the library (`Element.reader_items`).

At every moment there are at least as many bytes that have been read as there are values, or
bytes of a string, and there are no more moments than bytes (`Element.moments_within_input`).
So what is announced costs nothing, and the loops end where the bytes do.
-/

/-- What is held at a moment of reading. -/
structure Moment where
  /-- The number of values read before. -/
  held : Nat
  /-- What was left of the stream where the byte string begins that is being built. -/
  start : Bytes
  /-- The bytes of that string so far. -/
  built : Bytes
  /-- The number of bytes that are asked for next. -/
  asked : Nat
  /-- What is left of the stream. -/
  rest : Bytes
  deriving DecidableEq

/-- The string being built is made of bytes that have been read, and few bytes are asked for. -/
structure Moment.Within (input : Bytes) (m : Moment) : Prop where
  start_suffix : m.start <:+ input
  rest_suffix : m.rest <:+ m.start
  built_le : m.built.length ≤ m.start.length - m.rest.length
  asked_le : m.asked ≤ 4096

/-- No more values are held than bytes have been read, and the string being built is made of
    bytes that have been read. -/
structure Moment.Sparing (input : Bytes) (m : Moment) : Prop extends m.Within input where
  held_le : m.held ≤ input.length - m.rest.length

/-- The moment between two values. -/
def Moment.between (held : Nat) (rest : Bytes) : Moment := ⟨held, rest, [], 0, rest⟩

/-- A reader with the moments of its run on a source, in order. -/
structure Traced (α : Type) where
  reader : Reader α
  moments : Source → List Moment

namespace Traced

variable {α β : Type}

/-- A reader without moments. -/
def lift (r : Reader α) : Traced α := ⟨r, fun _ => []⟩

instance : Monad Traced where
  pure a := lift (pure a)
  bind x f := ⟨x.reader >>= fun a => (f a).reader, fun s =>
    x.moments s ++ match x.reader.step s with
      | (some a, t) => (f a).moments t
      | (none, _) => []⟩

/-- A reader that begins with a moment. -/
def noting (m : Source → Moment) (x : Traced α) : Traced α :=
  ⟨x.reader, fun s => m s :: x.moments s⟩

/-- A reader that may refer to the bytes that are left where it begins. -/
def here (f : Bytes → Traced α) : Traced α :=
  ⟨.ofStep fun s => (f s.rest).reader.step s, fun s => (f s.rest).moments s⟩

end Traced

/-! ### Traced readers of the library -/

/-- Reads `count` bytes in chunks and appends them to those read before. There is a moment
    before each chunk, and one when the string is complete. -/
def Traced.chunks (held : Nat) (start : Bytes) (count : Nat) (before : Bytes) : Traced Bytes :=
  Traced.noting (fun s => ⟨held, start, before, min count Codec.chunkSize, s.rest⟩) <|
    if count = 0 then pure before
    else do
      let chunk ← Traced.lift (Reader.block (min count Codec.chunkSize))
      Traced.chunks held start (count - min count Codec.chunkSize) (before ++ chunk)
termination_by count
decreasing_by unfold Codec.chunkSize; omega

/-- Reads a byte string, with its moments. -/
def Traced.text (held : Nat) : Traced Bytes :=
  Traced.here fun start => do
    let count ← Traced.lift Numeral.readSize
    if (← Traced.lift Reader.byte) == 58 then Traced.chunks held start count []
    else Traced.lift Reader.fail

/-- The types of the values that containers on a stream are made of: integers that are refused
    or wrapped if they do not fit, values of a binary format, byte strings, and pairs. -/
inductive Element : Type → Type 1 where
  | integer (r : IntRange) : Element (Integer r)
  | natural (r : IntRange) : Element (Integer r)
  | real (f : Binary) : Element (Real f)
  | text : Element Bytes
  | pair {α β : Type} (a : Element α) (b : Element β) : Element (α × β)

namespace Element

/-- How the values of a type are written and read. -/
def codec : {α : Type} → Element α → Codec α
  | _, .integer r => .integer r
  | _, .natural r => .natural r
  | _, .real f => .real f
  | _, .text => .text
  | _, .pair a b => a.codec.pair b.codec

/-- Reads a value, with its moments. -/
def traced (held : Nat) : {α : Type} → Element α → Traced α
  | _, .integer r => .lift (Numeral.readIn r)
  | _, .natural r => .lift (Numeral.readModulo r)
  | _, .real f => .lift (Numeral.readReal f)
  | _, .text => .text held
  | _, .pair a b => do
    let x ← a.traced held
    let y ← b.traced held
    return (x, y)

variable {α : Type}

/-- Reads `count` values after those read before. There is a moment before each value, and one
    when there are enough. -/
def many (e : Element α) : (count : Nat) → (before : Array α) → Traced (Array α)
  | 0, before => .noting (fun s => .between before.size s.rest) (pure before)
  | count + 1, before => .noting (fun s => .between before.size s.rest) do
    let v ← e.traced before.size
    many e count (before.push v)

/-- Reads the items of a container, with its moments. -/
def items (e : Element α) : Traced (List α) := do
  let count ← .lift Numeral.readSize
  return (← e.many count #[]).toList

end Element

/-! ### Without their moments -/

namespace Traced

variable {α β : Type}

/-- Without its moments a traced sequence is the sequence of the readers. -/
theorem reader_bind (x : Traced α) (f : α → Traced β) :
    (x >>= f).reader = x.reader >>= fun a => (f a).reader := rfl

/-- The moments of a sequence are those of its first part, followed by those of the second one. -/
theorem moments_bind (x : Traced α) (f : α → Traced β) (s : Source) :
    (x >>= f).moments s = x.moments s ++ match x.reader.step s with
      | (some a, t) => (f a).moments t
      | (none, _) => [] := rfl

/-- Without its moments the reader of chunks is the one of the library. -/
theorem reader_chunks (held : Nat) (start : Bytes) (count : Nat) (before : Bytes) :
    (chunks held start count before).reader = Codec.readChunks count before := by
  induction count, before using Codec.readChunks.induct with
  | case1 before =>
    rw [chunks, Codec.readChunks, if_pos rfl, if_pos rfl]
    rfl
  | case2 count before hsome ih =>
    rw [chunks, Codec.readChunks, if_neg hsome, if_neg hsome]
    exact congrArg (Reader.block (min count Codec.chunkSize) >>= ·) (funext ih)

/-- It does not matter to the reader where in the input it stands. -/
theorem reader_here {f : Bytes → Traced α} {r : Reader α} (h : ∀ start, (f start).reader = r) :
    (here f).reader = r := by
  funext s
  show (f s.rest).reader.step s = r.step s
  rw [h]

/-- Without its moments the reader of texts is the one of the library. -/
theorem reader_text (held : Nat) : (text held).reader = Codec.text.read := by
  refine reader_here fun start => ?_
  refine congrArg (Numeral.readSize >>= ·) (funext fun count => ?_)
  refine congrArg (Reader.byte >>= ·) (funext fun b => ?_)
  rw [apply_ite Traced.reader, reader_chunks]
  rfl

end Traced

namespace Element

variable {α : Type}

/-- Without its moments the reader of an element is the one of the library. -/
theorem reader_traced (e : Element α) (held : Nat) : (e.traced held).reader = e.codec.read := by
  induction e with
  | integer r => rfl
  | natural r => rfl
  | real f => rfl
  | text => exact Traced.reader_text held
  | pair a b iha ihb =>
    show ((a.traced held).reader >>= fun x => (b.traced held).reader >>= fun y => pure (x, y)) = _
    rw [iha, ihb]
    rfl

/-- Without its moments the reader of a number of elements is the one of the library. -/
theorem reader_many (e : Element α) (count : Nat) (before : Array α) :
    (e.many count before).reader = e.codec.readMany count before := by
  induction count generalizing before with
  | zero => rfl
  | succ count ih =>
    show ((e.traced before.size).reader >>= fun v => (e.many count (before.push v)).reader) = _
    rw [reader_traced, funext fun v => ih (before.push v)]
    rfl

/-- Without its moments the reader of a container is the one of the library. -/
theorem reader_items (e : Element α) : e.items.reader = e.codec.readItems := by
  show (Numeral.readSize >>= fun count =>
    (e.many count #[]).reader >>= fun values => pure values.toList) = _
  rw [funext fun count => congrArg (· >>= fun values => pure values.toList)
    (reader_many e count #[])]
  rfl

end Element

/-! ### The number of moments -/

namespace Traced

variable {α β : Type} {x : Traced α} {due credit : Nat}

/-- The reader leaves a suffix of the bytes there were. It has at most as many moments as it
    takes bytes, up to a credit, and if it answers it has taken more bytes than these, by what
    is due. -/
structure Spends (x : Traced α) (due credit : Nat) : Prop where
  suffix : ∀ s, (x.reader.step s).2.rest <:+ s.rest
  within : ∀ s, (x.moments s).length + (x.reader.step s).2.rest.length ≤ s.rest.length + credit
  pays : ∀ {s a t}, x.reader.step s = (some a, t) →
    due + (x.moments s).length + t.rest.length ≤ s.rest.length + credit

/-- Less may be due, and there may be more credit. -/
theorem Spends.mono (h : x.Spends due credit) {due' credit' : Nat} (hdue : due' ≤ due)
    (hcredit : credit ≤ credit') : x.Spends due' credit' where
  suffix := h.suffix
  within s := le_trans (h.within s) (Nat.add_le_add_left hcredit _)
  pays hstep := by
    have hpays := h.pays hstep
    omega

/-- A reader without moments has paid for as many moments as it takes bytes. -/
theorem Spends.lift {r : Reader α} {cost : α → Nat} (h : r.Takes cost)
    (hdue : ∀ a, due ≤ cost a) : (Traced.lift r).Spends due 0 where
  suffix := h.suffix
  within s := by simpa [Traced.lift] using (h.suffix s).length_le
  pays hstep := by
    have hpays := h.pays hstep
    have hle := hdue (by assumption)
    simp only [Traced.lift, List.length_nil]
    omega

/-- Nothing is due of a reader that reads nothing. -/
theorem Spends.pure (a : α) : (Pure.pure a : Traced α).Spends 0 0 := by
  have hpure : (Pure.pure a : Reader α).Takes fun _ => 0 := Reader.takes_pure rfl
  exact .lift hpure fun _ => le_rfl

/-- A reader may be followed by one whose credit it has paid. -/
theorem Spends.bind (h : x.Spends due credit) {f : α → Traced β} {due' credit' : Nat}
    (hf : ∀ a, (f a).Spends due' credit') (hcredit : credit' ≤ due) :
    (x >>= f).Spends (due - credit' + due') credit where
  suffix s := by
    have hfirst := h.suffix s
    rw [reader_bind, Reader.step_bind]
    rcases hx : x.reader.step s with ⟨_ | a, t⟩ <;> rw [hx] at hfirst
    · exact hfirst
    · exact ((hf a).suffix t).trans hfirst
  within s := by
    have hfirst := h.within s
    rw [reader_bind, Reader.step_bind, moments_bind]
    rcases hx : x.reader.step s with ⟨_ | a, t⟩
    · rw [hx] at hfirst
      simpa using hfirst
    · -- the credit of the second reader is paid by what the first one owes
      have hpaid := h.pays hx
      have hsecond := (hf a).within t
      simp only [List.length_append]
      omega
  pays {s b u} hstep := by
    obtain ⟨a, t, hx, hstep⟩ := Reader.exists_step_of_step_bind hstep
    have hpaid := h.pays hx
    have hsecond := (hf a).pays hstep
    rw [moments_bind, hx]
    simp only [List.length_append]
    omega

/-- A moment is on credit. -/
theorem Spends.noting (h : x.Spends due 0) (m : Source → Moment) :
    (Traced.noting m x).Spends due 1 where
  suffix := h.suffix
  within s := by
    have hwithin := h.within s
    simp only [Traced.noting, List.length_cons]
    omega
  pays hstep := by
    have hpays := h.pays hstep
    simp only [Traced.noting, List.length_cons]
    omega

/-- What a reader spends does not depend on where it stands. -/
theorem Spends.here {f : Bytes → Traced α} (h : ∀ start, (f start).Spends due credit) :
    (Traced.here f).Spends due credit where
  suffix s := (h s.rest).suffix s
  within s := (h s.rest).within s
  pays hstep := (h _).pays hstep

/-- Every chunk is paid for by its bytes, but for the last moment. -/
theorem spends_chunks (held : Nat) (start : Bytes) (count : Nat) (before : Bytes) :
    (chunks held start count before).Spends 0 1 := by
  induction count, before using Codec.readChunks.induct with
  | case1 before =>
    rw [chunks, if_pos rfl]
    exact (Spends.pure before).noting _
  | case2 count before hsome ih =>
    have hchunk : ∀ v : Bytes, 1 ≤ max v.length (min count Codec.chunkSize) := fun v => by
      unfold Codec.chunkSize
      omega
    rw [chunks, if_neg hsome]
    exact ((Spends.lift (Reader.takes_block _) hchunk).bind ih le_rfl).noting _

/-- The credit for the chunks of a text is paid by the colon in front of them. -/
theorem spends_text (held : Nat) : (text held).Spends 1 0 := by
  have hsize : (Traced.lift Numeral.readSize).Spends 1 0 :=
    .lift Numeral.takes_readSize fun _ => le_rfl
  have hcolon : (Traced.lift Reader.byte).Spends 1 0 := .lift Reader.takes_byte fun _ => le_rfl
  have hfail : (Reader.fail : Reader Bytes).Takes fun _ => 0 := Reader.takes_fail
  have hbytes (start : Bytes) (count : Nat) (b : UInt8) :
      (if b == 58 then chunks held start count [] else Traced.lift Reader.fail).Spends 0 1 := by
    split
    · exact spends_chunks held start count []
    · exact (Spends.lift hfail fun _ => le_rfl).mono le_rfl (Nat.zero_le _)
  exact .here fun start => hsize.bind (fun count => hcolon.bind (hbytes start count) le_rfl)
    (Nat.zero_le _)

end Traced

namespace Element

variable {α : Type}

/-- A value costs more than its moments. -/
theorem spends_traced (e : Element α) (held : Nat) : (e.traced held).Spends 1 0 := by
  induction e with
  | integer r => exact .lift (Numeral.takes_readIn r) fun _ => le_rfl
  | natural r => exact .lift (Numeral.takes_readModulo r) fun _ => le_rfl
  | real f => exact .lift (Numeral.takes_readReal f) fun _ => le_rfl
  | text => exact Traced.spends_text held
  | @pair α β a b iha ihb =>
    have hsecond (x : α) : (b.traced held >>= fun y => pure (x, y)).Spends 1 0 :=
      ihb.bind (fun y => .pure (x, y)) (Nat.zero_le _)
    exact (iha.bind hsecond (Nat.zero_le _)).mono (by omega) le_rfl

/-- Every element is paid for by at least one byte, but for the last moment. -/
theorem spends_many (e : Element α) (count : Nat) (before : Array α) :
    (e.many count before).Spends 0 1 := by
  induction count generalizing before with
  | zero => exact (Traced.Spends.pure before).noting _
  | succ count ih =>
    exact ((e.spends_traced before.size).bind (fun v => ih (before.push v)) le_rfl).noting _

/-- The credit for the elements of a container is paid by their number in front. -/
theorem spends_items (e : Element α) : e.items.Spends 0 0 := by
  have hsize : (Traced.lift Numeral.readSize).Spends 1 0 :=
    .lift Numeral.takes_readSize fun _ => le_rfl
  exact hsize.bind (fun count =>
    (e.spends_many count #[]).bind (fun values => .pure values.toList) le_rfl) le_rfl

end Element

/-! ### What is held at the moments -/

/-- What is held within an input is held within a longer one. -/
theorem Moment.Within.mono {m : Moment} {input input' : Bytes} (h : m.Within input)
    (hle : input <:+ input') : m.Within input' :=
  { h with start_suffix := h.start_suffix.trans hle }

/-- Between two elements no more is held than was read. -/
theorem Moment.sparing_between {held : Nat} {rest input : Bytes} (hrest : rest <:+ input)
    (hheld : held + rest.length ≤ input.length) : (Moment.between held rest).Sparing input where
  start_suffix := hrest
  rest_suffix := List.suffix_rfl
  built_le := Nat.zero_le _
  asked_le := Nat.zero_le _
  held_le := Nat.le_sub_of_add_le hheld

namespace Traced

variable {α β : Type}

/-- A moment of a sequence is one of its first part or one of its second. -/
theorem of_mem_moments_bind {x : Traced α} {f : α → Traced β} {s : Source} {m : Moment}
    (hm : m ∈ (x >>= f).moments s) : m ∈ x.moments s ∨
      ∃ a t, x.reader.step s = (some a, t) ∧ m ∈ (f a).moments t := by
  rw [moments_bind, List.mem_append] at hm
  refine hm.imp_right fun hm => ?_
  rcases hx : x.reader.step s with ⟨_ | a, t⟩ <;> rw [hx] at hm
  · cases hm
  · exact ⟨a, t, rfl, hm⟩

/-- The moments of the second part are moments of the sequence. -/
theorem mem_moments_bind_of_step {x : Traced α} {f : α → Traced β} {s t : Source} {a : α}
    {m : Moment} (hstep : x.reader.step s = (some a, t)) (hm : m ∈ (f a).moments t) :
    m ∈ (x >>= f).moments s := by
  rw [moments_bind, hstep]
  exact List.mem_append_right _ hm

/-- The moments behind a reader without any. -/
theorem of_mem_moments_lift_bind {r : Reader α} {cost : α → Nat} (h : r.Takes cost)
    {f : α → Traced β} {s : Source} {m : Moment} (hm : m ∈ (lift r >>= f).moments s) :
    ∃ a t, t.rest <:+ s.rest ∧ cost a + t.rest.length ≤ s.rest.length ∧ m ∈ (f a).moments t := by
  obtain hm | ⟨a, t, hstep, hm⟩ := of_mem_moments_bind hm
  · cases hm
  · have hsuffix := h.suffix s
    rw [show r.step s = _ from hstep] at hsuffix
    exact ⟨a, t, hsuffix, h.pays hstep, hm⟩

/-- The bytes of a string so far have been read since its beginning. -/
theorem within_of_mem_chunks {held : Nat} {start : Bytes} {count : Nat} {before : Bytes}
    {s : Source} {m : Moment} (hm : m ∈ (chunks held start count before).moments s)
    (hrest : s.rest <:+ start) (hbefore : before.length + s.rest.length ≤ start.length) :
    m.held = held ∧ m.Within start := by
  induction count, before using Codec.readChunks.induct generalizing s with
  | case1 before =>
    rw [chunks, if_pos rfl] at hm
    obtain rfl : m = _ := List.mem_singleton.mp hm
    exact ⟨rfl, List.suffix_rfl, hrest, by dsimp only; omega, by simp⟩
  | case2 count before hsome ih =>
    rw [chunks, if_neg hsome] at hm
    -- the moment is the one before the first chunk, or one after it
    rcases List.mem_cons.mp hm with rfl | hm
    · exact ⟨rfl, List.suffix_rfl, hrest, by dsimp only; omega, Nat.min_le_right _ _⟩
    · obtain ⟨chunk, t, hsuffix, hpays, hm⟩ :=
        of_mem_moments_lift_bind (Reader.takes_block _) hm
      refine ih chunk hm (hsuffix.trans hrest) ?_
      rw [List.length_append]
      omega

/-- While a text is read no more of it is held than the input has. -/
theorem within_of_mem_text {held : Nat} {s : Source} {m : Moment}
    (hm : m ∈ (text held).moments s) : m.held = held ∧ m.Within s.rest := by
  obtain ⟨count, t, ht, -, hm⟩ := of_mem_moments_lift_bind Numeral.takes_readSize
    (f := fun count => lift Reader.byte >>= fun b =>
      if b == 58 then chunks held s.rest count [] else lift Reader.fail) hm
  obtain ⟨b, u, hu, -, hm⟩ := of_mem_moments_lift_bind Reader.takes_byte hm
  have hrest := hu.trans ht
  by_cases hcolon : (b == 58) = true
  · rw [if_pos hcolon] at hm
    refine within_of_mem_chunks hm hrest ?_
    simpa using hrest.length_le
  · rw [if_neg hcolon] at hm
    cases hm

end Traced

namespace Element

variable {α : Type}

/-- While a value is read nothing is added to the values that are held. -/
theorem within_of_mem_traced (e : Element α) {held : Nat} {s : Source} {m : Moment}
    (hm : m ∈ (e.traced held).moments s) : m.held = held ∧ m.Within s.rest := by
  induction e generalizing s with
  | integer r => cases hm
  | natural r => cases hm
  | real f => cases hm
  | text => exact Traced.within_of_mem_text hm
  | pair a b iha ihb =>
    obtain hm | ⟨x, t, hstep, hm⟩ := Traced.of_mem_moments_bind hm
    · exact iha hm
    · have ht := (a.spends_traced held).suffix s
      rw [hstep] at ht
      obtain hm | ⟨y, u, hstep, hm⟩ := Traced.of_mem_moments_bind hm
      · exact (ihb hm).imp_right fun h => h.mono ht
      · cases hm

/-- Each value that is held has taken a byte at least. -/
theorem sparing_of_mem_many (e : Element α) {input : Bytes} {count : Nat} {before : Array α}
    {s : Source} {m : Moment} (hm : m ∈ (e.many count before).moments s)
    (hrest : s.rest <:+ input) (hbefore : before.size + s.rest.length ≤ input.length) :
    m.Sparing input := by
  induction count generalizing before s with
  | zero =>
    obtain rfl : m = _ := List.mem_singleton.mp hm
    exact Moment.sparing_between hrest hbefore
  | succ count ih =>
    rcases List.mem_cons.mp hm with rfl | hm
    · -- the moment is between two elements, within one, or after it
      exact Moment.sparing_between hrest hbefore
    obtain hm | ⟨v, t, hstep, hm⟩ := Traced.of_mem_moments_bind hm
    · obtain ⟨hheld, hwithin⟩ := e.within_of_mem_traced hm
      have hle := (hwithin.rest_suffix.trans hwithin.start_suffix).length_le
      exact { hwithin.mono hrest with held_le := by omega }
    · have ht := (e.spends_traced before.size).suffix s
      have hpays := (e.spends_traced before.size).pays hstep
      rw [hstep] at ht
      exact ih hm (ht.trans hrest) (by rw [Array.size_push]; omega)

/-- All the values that are answered are held at the last moment. -/
theorem between_mem_many (e : Element α) {count : Nat} {before values : Array α} {s t : Source}
    (hstep : (e.many count before).reader.step s = (some values, t)) :
    Moment.between values.size t.rest ∈ (e.many count before).moments s := by
  induction count generalizing before s with
  | zero =>
    cases hstep
    exact List.mem_singleton_self _
  | succ count ih =>
    obtain ⟨v, u, hv, hstep⟩ := Reader.exists_step_of_step_bind hstep
    exact List.mem_cons_of_mem _ (Traced.mem_moments_bind_of_step hv (ih hstep))

/-! ### Reading a container -/

variable {K : Type}

/-- Reading a container leaves the input where reading its elements does. -/
theorem rest_readSequence (e : Element α) (κ : Keying K α) (t : Table α) (s : Source) :
    (e.codec.readSequence κ t s).2.rest = (e.items.reader.step s).2.rest := by
  rw [reader_items, Codec.readSequence]
  rcases e.codec.readItems.step s with ⟨_ | items, u⟩
  · rfl
  · dsimp only
    split <;> rfl

/-- Whatever is announced, at every moment of reading a container no more values are held than
    bytes have been read, the byte string being built is no longer than the bytes read since its
    beginning, and no more than 4096 bytes are asked for. There are no more moments than bytes
    that are read, and what is left is what there was without these. -/
theorem moments_within_input (e : Element α) (κ : Keying K α) (t : Table α) (s : Source) :
    e.items.reader = e.codec.readItems ∧
      (∀ m ∈ e.items.moments s, m.Sparing s.rest) ∧
      (∀ items u, e.codec.readItems.step s = (some items, u) →
        Moment.between items.length u.rest ∈ e.items.moments s) ∧
      (e.codec.readSequence κ t s).2.rest <:+ s.rest ∧
      (e.items.moments s).length + (e.codec.readSequence κ t s).2.rest.length ≤ s.rest.length := by
  refine ⟨e.reader_items, fun m hm => ?_, fun items u hstep => ?_, ?_, ?_⟩
  · obtain ⟨count, u, hu, hpays, hm⟩ := Traced.of_mem_moments_lift_bind Numeral.takes_readSize
      (f := fun count => e.many count #[] >>= fun values => pure values.toList) hm
    obtain hm | ⟨values, w, -, hm⟩ := Traced.of_mem_moments_bind hm
    · exact e.sparing_of_mem_many hm hu (by simpa using hu.length_le)
    · cases hm
  · -- the last moment is that after the last element
    rw [← reader_items] at hstep
    obtain ⟨count, v, hsize, hstep⟩ := Reader.exists_step_of_step_bind hstep
    obtain ⟨values, w, hmany, hstep⟩ := Reader.exists_step_of_step_bind hstep
    cases hstep
    refine Traced.mem_moments_bind_of_step hsize ?_
    rw [Traced.moments_bind]
    exact List.mem_append_left _ (e.between_mem_many hmany)
  · rw [rest_readSequence]
    exact e.spends_items.suffix s
  · rw [rest_readSequence]
    exact e.spends_items.within s

/-- Minus one announces the greatest number of items, of which `-1 7 8` has two. -/
example : (Element.integer (.signed 32)).items.moments (.ofBytes [45, 49, 32, 55, 32, 56]) =
    [.between 0 [32, 55, 32, 56], .between 1 [32, 56], .between 2 []] := by decide +kernel

end Element

end OrderedHash
