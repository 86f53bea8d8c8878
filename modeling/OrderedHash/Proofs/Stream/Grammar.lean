import Mathlib.Data.List.TakeWhile
import OrderedHash.Proofs.Stream.Numerals
import OrderedHash.Stream.Sequence

namespace OrderedHash

/-!
# Texts of values

A `Grammar` tells of bytes, without any reader, what value they start with and what follows
it, or that they are malformed. There is one for numbers, for integers of a range, for byte
strings, for pairs and for sequences with their length in front.

A reader `Decides` a grammar if it reads from a live stream exactly what the grammar says:
it takes the text of a value and leaves what follows, and fails on malformed bytes, where all
bytes are one or the other. Each reader of the library decides its grammar
(`Codec.decides_text`, `Reader.Decides.pair`, `Codec.decides_readItems`).
-/

variable {α β : Type}

/-- The texts of the values of a type. -/
structure Grammar (α : Type) where
  /-- Bytes that start with a value, behind white space, and go on with the rest. -/
  Starts : Bytes → α → Bytes → Prop
  /-- Bytes that start with no value. -/
  Malformed : Bytes → Prop

/-! ### Live streams -/

namespace Source

variable {s : Source}

/-- A stream on which no reader has failed, though its end may have been looked past. -/
structure Live (s : Source) : Prop where
  failed : s.failed = false
  ended : s.ended → s.rest = []

/-- A stream of which nothing was read can be read. -/
theorem live_ofBytes (bytes : Bytes) : (ofBytes bytes).Live := ⟨rfl, nofun⟩

/-- A stream of which a byte was looked at can still be read. -/
theorem live_peeked (rest : Bytes) : (peeked rest).Live :=
  ⟨rfl, fun h => List.isEmpty_iff.mp h⟩

/-- Where bytes are left the end has not been looked past. -/
theorem Live.eq_ofBytes (h : s.Live) (hne : s.rest ≠ []) : s = .ofBytes s.rest := by
  obtain ⟨rest, ended, failed⟩ := s
  have hfailed : failed = false := h.failed
  subst hfailed
  cases ended with
  | false => rfl
  | true => exact absurd (h.ended rfl) hne

/-- A stream that can be read and is not at its end is where its bytes begin. -/
theorem Live.eq_ofBytes_cons (h : s.Live) {b : UInt8} {rest : Bytes} (hrest : s.rest = b :: rest) :
    s = .ofBytes (b :: rest) := by
  have hs := h.eq_ofBytes (by rw [hrest]; exact List.cons_ne_nil _ _)
  rwa [hrest] at hs

/-- Either the stream is as new, or its end has been looked past. -/
theorem Live.cases (h : s.Live) : s = .ofBytes s.rest ∨ s = ⟨[], true, false⟩ := by
  obtain ⟨rest, ended, failed⟩ := s
  have hfailed : failed = false := h.failed
  subst hfailed
  cases ended with
  | false => exact Or.inl rfl
  | true => exact Or.inr (by rw [show rest = [] from h.ended rfl])

end Source

namespace Reader

/-- A reader reads the texts of a grammar from live streams, and fails on malformed ones. -/
structure Decides (r : Reader α) (g : Grammar α) : Prop where
  reads : ∀ {s : Source} {v : α} {rest : Bytes}, s.Live → g.Starts s.rest v rest →
    ∃ s', r.step s = (some v, s') ∧ s'.rest = rest ∧ s'.Live
  fails : ∀ {s : Source}, s.Live → g.Malformed s.rest → (r.step s).1 = none
  total : ∀ bytes, (∃ v rest, g.Starts bytes v rest) ∨ g.Malformed bytes

/-- What is read is a value of the grammar. -/
theorem Decides.starts_of_step {r : Reader α} {g : Grammar α} (h : r.Decides g) {s s' : Source}
    (hs : s.Live) {v : α} (hstep : r.step s = (some v, s')) : g.Starts s.rest v s'.rest := by
  rcases h.total s.rest with ⟨w, rest, hw⟩ | hbad
  · obtain ⟨t, ht, rfl, -⟩ := h.reads hs hw
    obtain ⟨hvalue, rfl⟩ := Prod.mk.inj (hstep.symm.trans ht)
    exact Option.some.inj hvalue ▸ hw
  · have hnone := h.fails hs hbad
    rw [hstep] at hnone
    cases hnone

/-- A sequence of readers refuses what its first one does. -/
theorem step_bind_of_none {x : Reader α} {s : Source} (h : (x.step s).1 = none)
    (f : α → Reader β) : ((x >>= f).step s).1 = none := by
  rw [step_bind]
  rcases hx : x.step s with ⟨_ | a, t⟩
  · rfl
  · rw [hx] at h
    cases h

end Reader

/-! ### Numbers -/

namespace Numeral

/-- Bytes that do not start with a number: behind white space they end, go on with a byte
    that starts no number, or with a sign that no digit follows. -/
inductive Missing : Bytes → Prop where
  | ended {blanks : Bytes} (hblanks : ∀ b ∈ blanks, Reader.isBlank b) : Missing blanks
  | other {blanks rest : Bytes} {b : UInt8} (hblanks : ∀ b ∈ blanks, Reader.isBlank b)
      (hblank : Reader.isBlank b = false) (hsign : isSign b = false) (hdigit : isDigit b = false) :
      Missing (blanks ++ b :: rest)
  | lone {blanks rest : Bytes} {b : UInt8} (hblanks : ∀ b ∈ blanks, Reader.isBlank b)
      (hsign : isSign b) (hstops : Stops rest) : Missing (blanks ++ b :: rest)

/-- Numbers, told by whether they have a minus sign and by their magnitude. -/
def grammar : Grammar (Bool × Nat) := ⟨Stands, Missing⟩

/-- A number has at least one digit. -/
theorem Stands.ne_nil {bytes rest : Bytes} {x : Bool × Nat} (h : Stands bytes x rest) :
    bytes ≠ [] := by
  cases h with
  | bare hblanks hspells hstops => simp [hspells.nonempty]
  | signed hblanks hsign hspells hstops => simp

/-- Behind white space bytes go on with one that is not white space, or they end. -/
theorem blanks_split (bytes : Bytes) : (∀ b ∈ bytes, Reader.isBlank b) ∨
    ∃ blanks b rest, bytes = blanks ++ b :: rest ∧ (∀ b ∈ blanks, Reader.isBlank b) ∧
      Reader.isBlank b = false := by
  induction bytes with
  | nil => exact Or.inl nofun
  | cons b bytes ih =>
    cases hb : Reader.isBlank b with
    | false => exact Or.inr ⟨[], b, bytes, rfl, nofun, hb⟩
    | true =>
      rcases ih with hall | ⟨blanks, c, rest, rfl, hblanks, hc⟩
      · exact Or.inl (List.forall_mem_cons.mpr ⟨hb, hall⟩)
      · exact Or.inr ⟨b :: blanks, c, rest, rfl, List.forall_mem_cons.mpr ⟨hb, hblanks⟩, hc⟩

/-- Bytes are digits, perhaps none, up to where they stop. -/
theorem digits_split (bytes : Bytes) :
    ∃ digits rest, bytes = digits ++ rest ∧ (∀ b ∈ digits, isDigit b) ∧ Stops rest := by
  induction bytes with
  | nil => exact ⟨[], [], rfl, nofun, nofun⟩
  | cons b bytes ih =>
    cases hb : isDigit b with
    | false => exact ⟨[], b :: bytes, rfl, nofun, stops_cons hb bytes⟩
    | true =>
      obtain ⟨digits, rest, rfl, hdigits, hstops⟩ := ih
      exact ⟨b :: digits, rest, rfl, List.forall_mem_cons.mpr ⟨hb, hdigits⟩, hstops⟩

/-- A number stands on all bytes on which it is not missing. -/
theorem stands_or_missing (bytes : Bytes) : (∃ x rest, Stands bytes x rest) ∨ Missing bytes := by
  -- the bytes are blank, or there is a first one that is not
  rcases blanks_split bytes with hall | ⟨blanks, b, rest, rfl, hblanks, hblank⟩
  · exact Or.inr (.ended hall)
  cases hsign : isSign b with
  | true =>
    obtain ⟨digits, rest, rfl, hdigits, hstops⟩ := digits_split rest
    -- a sign may be followed by no digits
    by_cases hnone : digits = []
    · subst hnone
      exact Or.inr (.lone hblanks hsign hstops)
    · exact Or.inl ⟨_, rest, .signed hblanks hsign ⟨hnone, hdigits, rfl⟩ hstops⟩
  | false =>
    cases hdigit : isDigit b with
    | false => exact Or.inr (.other hblanks hblank hsign hdigit)
    | true =>
      obtain ⟨digits, rest, rfl, hdigits, hstops⟩ := digits_split rest
      have hspells : Spells (b :: digits) (ofDigits (b :: digits)) :=
        ⟨List.cons_ne_nil _ _, List.forall_mem_cons.mpr ⟨hdigit, hdigits⟩, rfl⟩
      exact Or.inl ⟨_, rest, .bare hblanks hspells hstops⟩

/-- No number is read where none stands. -/
theorem step_read_of_missing {bytes : Bytes} (h : Missing bytes) :
    (read.step (.ofBytes bytes)).1 = none := by
  unfold read
  cases h with
  | ended hblanks =>
    -- there is nothing after the blanks
    refine Reader.step_bind_of_none ?_ _
    unfold Reader.readyAfterBlanks
    rw [Reader.step_bind_of_some (Reader.step_ready _), Reader.step_ofStep]
    dsimp only [Source.ofBytes]
    rw [List.dropWhile_eq_nil_iff.mpr hblanks]
  | @other blanks rest b hblanks hblank hsign hdigit =>
    have hsigned : signed.step (.ofBytes (b :: rest)) =
        (some (false, []), .peeked (b :: rest)) :=
      step_signed_of_not_isSign hsign [] rfl nofun (stops_cons hdigit rest)
    -- the first byte is neither sign nor digit, and is left
    rw [Reader.step_bind_of_some (Reader.step_readyAfterBlanks hblanks hblank rest),
      Reader.step_bind_of_some hsigned]
    rfl
  | @lone blanks rest b hblanks hsign hstops =>
    have hsigned : signed.step (.ofBytes (b :: rest)) = (some (b == 45, []), .peeked rest) :=
      step_signed_of_isSign hsign [] nofun hstops
    -- the sign is taken, but no digit follows
    rw [Reader.step_bind_of_some (Reader.step_readyAfterBlanks hblanks
      (not_isBlank_of_isSign hsign) rest), Reader.step_bind_of_some hsigned]
    rfl

/-- Numbers with a sign are read as their grammar says. -/
theorem decides_read : read.Decides grammar where
  reads hs h := by
    rw [hs.eq_ofBytes h.ne_nil]
    exact ⟨_, step_read h, rfl, Source.live_peeked _⟩
  fails hs h := by
    rcases hs.cases with heq | heq
    · rw [heq]
      exact step_read_of_missing h
    · rw [heq]
      rfl
  total := stands_or_missing

end Numeral

/-! ### Integers -/

namespace Grammar

open Numeral (Stands Missing value)

/-- Integers of a range. A number that is not in it is malformed. -/
def integer (r : IntRange) : Grammar (Integer r) where
  Starts bytes x rest := ∃ n, Stands bytes n rest ∧ x.val = value n
  Malformed bytes := Missing bytes ∨ ∃ n rest, Stands bytes n rest ∧ ¬ r.Holds (value n)

/-- Integers of a range of natural numbers, with those they stand for by wrapping. A number
    of a magnitude that is not in the range is malformed. -/
def natural (r : IntRange) : Grammar (Integer r) where
  Starts bytes x rest := ∃ n, Stands bytes n rest ∧ n.2 ≤ r.greatest ∧ x = .wrap r (value n)
  Malformed bytes := Missing bytes ∨ ∃ n rest, Stands bytes n rest ∧ r.greatest < n.2

/-- Sizes, which are natural numbers of 64 bits. -/
def size : Grammar Nat where
  Starts bytes count rest := ∃ x, (natural (.unsigned 64)).Starts bytes x rest ∧ count = x.val.toNat
  Malformed := (natural (.unsigned 64)).Malformed

end Grammar

namespace Numeral

/-- Integers of a type are read as their grammar says, which leaves out those that do not fit. -/
theorem decides_readIn (r : IntRange) : (readIn r).Decides (.integer r) where
  reads := by
    rintro s x rest hs ⟨n, hn, hx⟩
    obtain ⟨s', hstep, hrest, hlive⟩ := decides_read.reads hs hn
    refine ⟨s', ?_, hrest, hlive⟩
    unfold readIn
    rw [Reader.step_bind_of_some hstep]
    dsimp only
    rw [← value, ← hx, Integer.ofInt?_val]
    rfl
  fails := by
    rintro s hs (hmissing | ⟨n, rest, hn, hnot⟩)
    · exact Reader.step_bind_of_none (decides_read.fails hs hmissing) _
    · -- there is a number, but the type has no room for it
      obtain ⟨s', hstep, -, -⟩ := decides_read.reads hs hn
      unfold readIn
      rw [Reader.step_bind_of_some hstep]
      dsimp only
      rw [← value, Integer.ofInt?, dif_neg hnot]
      rfl
  total bytes := by
    rcases stands_or_missing bytes with ⟨n, rest, hn⟩ | hmissing
    · by_cases hholds : r.Holds (value n)
      · exact Or.inl ⟨⟨value n, hholds⟩, rest, n, hn, rfl⟩
      · exact Or.inr (Or.inr ⟨n, rest, hn, hholds⟩)
    · exact Or.inr (Or.inl hmissing)

/-- Natural numbers of a type are read as their grammar says, which takes them modulo their count.
    -/
theorem decides_readModulo (r : IntRange) : (readModulo r).Decides (.natural r) where
  reads := by
    rintro s x rest hs ⟨n, hn, hle, rfl⟩
    obtain ⟨s', hstep, hrest, hlive⟩ := decides_read.reads hs hn
    refine ⟨s', ?_, hrest, hlive⟩
    unfold readModulo
    rw [Reader.step_bind_of_some hstep]
    dsimp only
    rw [if_pos hle]
    rfl
  fails := by
    rintro s hs (hmissing | ⟨n, rest, hn, hlarge⟩)
    · exact Reader.step_bind_of_none (decides_read.fails hs hmissing) _
    · -- there is a number that is too large
      obtain ⟨s', hstep, -, -⟩ := decides_read.reads hs hn
      unfold readModulo
      rw [Reader.step_bind_of_some hstep]
      dsimp only
      rw [if_neg (Int.not_le.mpr hlarge)]
      rfl
  total bytes := by
    rcases stands_or_missing bytes with ⟨n, rest, hn⟩ | hmissing
    · rcases Int.lt_or_le r.greatest n.2 with hlarge | hle
      · exact Or.inr (Or.inr ⟨n, rest, hn, hlarge⟩)
      · exact Or.inl ⟨_, rest, n, hn, hle, rfl⟩
    · exact Or.inr (Or.inl hmissing)

/-- Sizes are read as their grammar says. -/
theorem decides_readSize : readSize.Decides .size where
  reads := by
    rintro s count rest hs ⟨x, hx, rfl⟩
    obtain ⟨s', hstep, hrest, hlive⟩ := (decides_readModulo _).reads hs hx
    refine ⟨s', ?_, hrest, hlive⟩
    unfold readSize
    rw [Reader.step_bind_of_some hstep]
    rfl
  fails hs h := Reader.step_bind_of_none ((decides_readModulo _).fails hs h) _
  total bytes := by
    rcases (decides_readModulo (.unsigned 64)).total bytes with ⟨x, rest, hx⟩ | hbad
    · exact Or.inl ⟨_, rest, x, hx, rfl⟩
    · exact Or.inr hbad

end Numeral

/-! ### Byte strings and pairs -/

namespace Grammar

/-- Bytes that start with no byte string: the length is malformed, no colon follows it, or
    fewer bytes follow the colon than the length tells. -/
inductive MalformedText : Bytes → Prop where
  | size {bytes : Bytes} (h : size.Malformed bytes) : MalformedText bytes
  | noColon {bytes rest : Bytes} {count : Nat} (hsize : size.Starts bytes count rest)
      (hcolon : ∀ more, rest ≠ 58 :: more) : MalformedText bytes
  | short {bytes rest : Bytes} {count : Nat} (hsize : size.Starts bytes count (58 :: rest))
      (hshort : rest.length < count) : MalformedText bytes

/-- Byte strings: a length, a colon and as many bytes. -/
def text : Grammar Bytes where
  Starts bytes v rest := size.Starts bytes v.length (58 :: (v ++ rest))
  Malformed := MalformedText

/-- Pairs of values, one after the other. -/
def pair (a : Grammar α) (b : Grammar β) : Grammar (α × β) where
  Starts bytes p rest := ∃ more, a.Starts bytes p.1 more ∧ b.Starts more p.2 rest
  Malformed bytes := a.Malformed bytes ∨ ∃ x more, a.Starts bytes x more ∧ b.Malformed more

end Grammar

namespace Codec

/-- Chunks of bytes are read until there are as many as were asked for. -/
theorem step_readChunks (count : Nat) (before v rest : Bytes) (hcount : v.length = count) :
    (readChunks count before).step (.ofBytes (v ++ rest)) =
      (some (before ++ v), .ofBytes rest) := by
  induction count, before using readChunks.induct generalizing v with
  | case1 before =>
    rw [readChunks, if_pos rfl, List.eq_nil_of_length_eq_zero hcount, List.append_nil]
    rfl
  | case2 count before hsome ih =>
    rw [readChunks, if_neg hsome]
    -- the next chunk and the bytes that are left
    have hchunk : (v.take (min count chunkSize)).length = min count chunkSize := by
      rw [List.length_take, hcount]
      omega
    have hleft : (v.drop (min count chunkSize)).length = count - min count chunkSize := by
      rw [List.length_drop, hcount]
    have hblock := Reader.step_block (v.take (min count chunkSize))
      (v.drop (min count chunkSize) ++ rest)
    rw [hchunk, ← List.append_assoc, List.take_append_drop] at hblock
    rw [Reader.step_bind_of_some hblock, ih _ _ hleft, List.append_assoc, List.take_append_drop]

/-- Chunks of bytes are not read if the bytes end before there are as many as were asked for. -/
theorem step_readChunks_of_short (count : Nat) (before : Bytes) {rest : Bytes}
    (hshort : rest.length < count) :
    ((readChunks count before).step (.ofBytes rest)).1 = none := by
  induction count, before using readChunks.induct generalizing rest with
  | case1 before => exact absurd hshort (Nat.not_lt_zero _)
  | case2 count before hsome ih =>
    rw [readChunks, if_neg hsome]
    rcases Nat.lt_or_ge rest.length (min count chunkSize) with hend | hchunk
    · -- the bytes end in this chunk
      refine Reader.step_bind_of_none ?_ _
      unfold Reader.block
      rw [Reader.step_bind_of_some (Reader.step_ready _), Reader.step_ofStep]
      dsimp only [Source.ofBytes]
      rw [List.splitAt_eq]
      dsimp only
      rw [if_neg (by rw [List.length_take]; omega)]
    · -- this chunk is all there, and the bytes end in a later one
      have htake : (rest.take (min count chunkSize)).length = min count chunkSize := by
        rw [List.length_take]
        omega
      have hblock := Reader.step_block (rest.take (min count chunkSize))
        (rest.drop (min count chunkSize))
      rw [htake, List.take_append_drop] at hblock
      rw [Reader.step_bind_of_some hblock]
      refine ih _ ?_
      rw [List.length_drop]
      omega

/-- Behind a length and a colon the bytes of the text are read. -/
theorem step_text_of_colon {s : Source} (hs : s.Live) {count : Nat} {rest : Bytes}
    (hsize : Grammar.size.Starts s.rest count (58 :: rest)) :
    text.read.step s = (readChunks count []).step (.ofBytes rest) := by
  obtain ⟨s', hstep, hrest, hlive⟩ := Numeral.decides_readSize.reads hs hsize
  obtain rfl := hlive.eq_ofBytes_cons hrest
  unfold text
  dsimp only
  rw [Reader.step_bind_of_some hstep, Reader.step_bind_of_some (Reader.step_byte 58 rest)]
  rfl

/-- A length is of no use without a colon. -/
theorem step_text_of_noColon {s : Source} (hs : s.Live) {count : Nat} {rest : Bytes}
    (hsize : Grammar.size.Starts s.rest count rest) (hcolon : ∀ more, rest ≠ 58 :: more) :
    (text.read.step s).1 = none := by
  obtain ⟨s', hstep, hrest, hlive⟩ := Numeral.decides_readSize.reads hs hsize
  unfold text
  dsimp only
  rw [Reader.step_bind_of_some hstep]
  -- whether the size was read to its end or the next byte was looked at, what follows is no colon
  rcases hlive.cases with heq | heq
  · rw [heq, hrest]
    cases rest with
    | nil => rfl
    | cons b more =>
      have hb : (b == 58) = false := by
        rw [beq_eq_false_iff_ne]
        rintro rfl
        exact hcolon more rfl
      rw [Reader.step_bind_of_some (Reader.step_byte b more), hb]
      rfl
  · rw [heq]
    rfl

/-- A byte string stands at the start of the bytes, or what stands there is malformed. -/
theorem text_or_malformed (bytes : Bytes) :
    (∃ v rest, Grammar.text.Starts bytes v rest) ∨ Grammar.text.Malformed bytes := by
  rcases Numeral.decides_readSize.total bytes with ⟨count, rest, hsize⟩ | hbad
  · by_cases hcolon : ∃ more, rest = 58 :: more
    · obtain ⟨more, rfl⟩ := hcolon
      rcases Nat.lt_or_ge more.length count with hshort | hlong
      · exact Or.inr (.short hsize hshort)
      · refine Or.inl ⟨more.take count, more.drop count, ?_⟩
        show Grammar.size.Starts bytes (more.take count).length
          (58 :: (more.take count ++ more.drop count))
        rw [List.take_append_drop, List.length_take, Nat.min_eq_left hlong]
        exact hsize
    · exact Or.inr (.noColon hsize (not_exists.mp hcolon))
  · exact Or.inr (.size hbad)

/-- Byte strings are read as their grammar says. -/
theorem decides_text : text.read.Decides .text where
  reads := by
    intro s v rest hs h
    refine ⟨.ofBytes rest, ?_, rfl, Source.live_ofBytes rest⟩
    rw [step_text_of_colon hs h]
    exact step_readChunks v.length [] v rest rfl
  fails := by
    intro s hs h
    cases h with
    -- each part may be the one that is malformed
    | size hsize => exact Reader.step_bind_of_none (Numeral.decides_readSize.fails hs hsize) _
    | noColon hsize hcolon => exact step_text_of_noColon hs hsize hcolon
    | short hsize hshort =>
      rw [step_text_of_colon hs hsize]
      exact step_readChunks_of_short _ [] hshort
  total := text_or_malformed

end Codec

/-- Pairs are read as their grammar says if their parts are. -/
theorem Reader.Decides.pair {a : Codec α} {b : Codec β} {g : Grammar α} {k : Grammar β}
    (ha : a.read.Decides g) (hb : b.read.Decides k) : (a.pair b).read.Decides (g.pair k) where
  reads := by
    rintro s ⟨x, y⟩ rest hs ⟨more, hx, hy⟩
    obtain ⟨s', hfirst, rfl, hlive⟩ := ha.reads hs hx
    obtain ⟨s'', hsecond, hrest, hlive'⟩ := hb.reads hlive hy
    refine ⟨s'', ?_, hrest, hlive'⟩
    unfold Codec.pair
    dsimp only
    rw [step_bind_of_some hfirst, step_bind_of_some hsecond]
    rfl
  fails := by
    rintro s hs (hbad | ⟨x, more, hx, hbad⟩)
    · exact step_bind_of_none (ha.fails hs hbad) _
    · -- the first part is read, and the second one is malformed
      obtain ⟨s', hfirst, rfl, hlive⟩ := ha.reads hs hx
      unfold Codec.pair
      dsimp only
      rw [step_bind_of_some hfirst]
      exact step_bind_of_none (hb.fails hlive hbad) _
  total bytes := by
    rcases ha.total bytes with ⟨x, more, hx⟩ | hbad
    · rcases hb.total more with ⟨y, rest, hy⟩ | hbad
      · exact Or.inl ⟨(x, y), rest, more, hx, hy⟩
      · exact Or.inr (Or.inr ⟨x, more, hx, hbad⟩)
    · exact Or.inr (Or.inl hbad)

/-! ### Sequences -/

namespace Grammar

/-- Bytes that start with some values, one after another, and go on with the rest. -/
inductive Follow (g : Grammar α) : Bytes → List α → Bytes → Prop where
  | nil (bytes : Bytes) : Follow g bytes [] bytes
  | cons {bytes more rest : Bytes} {v : α} {vs : List α} (hv : g.Starts bytes v more)
      (hvs : Follow g more vs rest) : Follow g bytes (v :: vs) rest

/-- Bytes that start with no sequence: the number of values is malformed, or the bytes are
    malformed behind fewer values than were announced. -/
inductive MalformedSequence (g : Grammar α) : Bytes → Prop where
  | count {bytes : Bytes} (h : size.Malformed bytes) : MalformedSequence g bytes
  | value {bytes more rest : Bytes} {count : Nat} {front : List α}
      (hcount : size.Starts bytes count more) (hfront : g.Follow more front rest)
      (hlt : front.length < count) (hbad : g.Malformed rest) : MalformedSequence g bytes

/-- Sequences: the number of values, and the values in order. -/
def sequence (g : Grammar α) : Grammar (List α) where
  Starts bytes vs rest := ∃ more, size.Starts bytes vs.length more ∧ g.Follow more vs rest
  Malformed := g.MalformedSequence

end Grammar

namespace Codec

open Grammar (Follow)

variable {c : Codec α} {g : Grammar α}

/-- As many values as follow one another are read. -/
theorem step_readMany_of_follow (h : c.read.Decides g) {s : Source} (hs : s.Live) {vs : List α}
    {rest : Bytes} (hvs : g.Follow s.rest vs rest) (before : Array α) :
    ∃ s', (c.readMany vs.length before).step s = (some (before ++ vs.toArray), s') ∧
      s'.rest = rest ∧ s'.Live := by
  induction vs generalizing s before with
  | nil =>
    cases hvs
    exact ⟨s, by simp [readMany], rfl, hs⟩
  | cons v vs ih =>
    cases hvs with
    | cons hv hvs =>
      obtain ⟨s', hstep, rfl, hlive⟩ := h.reads hs hv
      obtain ⟨s'', hmany, hrest, hlive'⟩ := ih hlive hvs (before.push v)
      refine ⟨s'', ?_, hrest, hlive'⟩
      rw [List.length_cons, readMany, Reader.step_bind_of_some hstep, hmany]
      simp

/-- Values are refused if one of those that are asked for is malformed. -/
theorem step_readMany_of_malformed (h : c.read.Decides g) {s : Source} (hs : s.Live)
    {front : List α} {rest : Bytes} (hfront : g.Follow s.rest front rest) {count : Nat}
    (hlt : front.length < count) (hbad : g.Malformed rest) (before : Array α) :
    ((c.readMany count before).step s).1 = none := by
  induction front generalizing s count before with
  | nil =>
    cases hfront
    obtain ⟨count, rfl⟩ := Nat.exists_eq_add_one_of_ne_zero (Nat.ne_of_gt hlt)
    exact Reader.step_bind_of_none (h.fails hs hbad) _
  | cons v front ih =>
    cases hfront with
    | cons hv hfront =>
      obtain ⟨s', hstep, rfl, hlive⟩ := h.reads hs hv
      obtain ⟨count, rfl⟩ := Nat.exists_eq_add_one_of_ne_zero (Nat.ne_of_gt (Nat.zero_lt_of_lt hlt))
      rw [readMany, Reader.step_bind_of_some hstep]
      exact ih hlive hfront (Nat.lt_of_succ_lt_succ hlt) _

/-- Either all values that are announced follow, or the bytes are malformed behind some. -/
theorem follow_or_malformed (h : c.read.Decides g) (count : Nat) (bytes : Bytes) :
    (∃ vs rest, vs.length = count ∧ g.Follow bytes vs rest) ∨
      ∃ front rest, g.Follow bytes front rest ∧ front.length < count ∧ g.Malformed rest := by
  induction count generalizing bytes with
  | zero => exact Or.inl ⟨[], bytes, rfl, .nil bytes⟩
  | succ count ih =>
    rcases h.total bytes with ⟨v, more, hv⟩ | hbad
    · rcases ih more with ⟨vs, rest, rfl, hvs⟩ | ⟨front, rest, hfront, hlt, hbad⟩
      · exact Or.inl ⟨v :: vs, rest, rfl, .cons hv hvs⟩
      · exact Or.inr ⟨v :: front, rest, .cons hv hfront, Nat.succ_lt_succ hlt, hbad⟩
    · exact Or.inr ⟨[], bytes, .nil bytes, Nat.succ_pos count, hbad⟩

/-- Sequences are read as their grammar says if their values are. -/
theorem decides_readItems (h : c.read.Decides g) : c.readItems.Decides g.sequence where
  reads := by
    rintro s vs rest hs ⟨more, hcount, hvs⟩
    obtain ⟨s', hstep, rfl, hlive⟩ := Numeral.decides_readSize.reads hs hcount
    obtain ⟨s'', hmany, hrest, hlive'⟩ := step_readMany_of_follow h hlive hvs #[]
    refine ⟨s'', ?_, hrest, hlive'⟩
    unfold readItems
    rw [Reader.step_bind_of_some hstep, Reader.step_bind_of_some hmany]
    simp
  fails := by
    intro s hs hbad
    cases hbad with
    | count hcount => exact Reader.step_bind_of_none (Numeral.decides_readSize.fails hs hcount) _
    -- the values before the malformed one are read
    | value hcount hfront hlt hbad =>
      obtain ⟨s', hstep, rfl, hlive⟩ := Numeral.decides_readSize.reads hs hcount
      unfold readItems
      rw [Reader.step_bind_of_some hstep]
      exact Reader.step_bind_of_none (step_readMany_of_malformed h hlive hfront hlt hbad #[]) _
  total bytes := by
    rcases Numeral.decides_readSize.total bytes with ⟨count, more, hcount⟩ | hbad
    · rcases follow_or_malformed h count more with
        ⟨vs, rest, rfl, hvs⟩ | ⟨front, rest, hfront, hlt, hbad⟩
      · exact Or.inl ⟨vs, rest, more, hcount, hvs⟩
      · exact Or.inr (.value hcount hfront hlt hbad)
    · exact Or.inr (.count hbad)

end Codec

end OrderedHash
