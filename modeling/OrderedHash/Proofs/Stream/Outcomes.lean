import OrderedHash.Proofs.Runs.Consistency
import OrderedHash.Proofs.Stream.Grammar
import OrderedHash.Proofs.Table.Collapse

namespace OrderedHash

/-!
# Containers read from any bytes

A container is read in place of another one from bytes of any content. Either the bytes start
with a sequence of items, and then the container has the items that these collapse to and the
stream is left behind them (`Received`), or they are malformed, and then the stream has failed
and the container in place is kept (`Refused`).

The keys and the values are integers of 64 bits, with or without sign, and byte strings
(`Shape.readSequence_spec`).
-/

variable {K V : Type}

/-! ### The two outcomes -/

/-- The items were read and the stream is left where they end. The container has the items
    that those read collapse to, if these are few enough for their positions to be stored. -/
structure Received (κ : Keying K V) (values : List V) (rest : Bytes) (out : Table V × Source) :
    Prop where
  live : out.2.Live
  rest : out.2.rest = rest
  items : (κ.collapse values).length < 2 ^ 48 - 2 → out.1.items.toList = κ.collapse values
  consistent : (κ.collapse values).length < 2 ^ 48 - 2 → out.1.Consistent κ

/-- The stream has failed, and the container is the one that was held. -/
structure Refused (held : Table V) (out : Table V × Source) : Prop where
  failed : out.2.failed
  kept : out.1 = held

namespace Codec

variable {κ : Keying K V} {c : Codec V} {g : Grammar V} {s : Source}

theorem received_of_starts (h : c.read.Decides g) (hκ : κ.Lawful) (hr : κ.Refreshes)
    (haccepts : ∀ k, κ.refusal k = none) (held : Table V) (hs : s.Live) {values : List V}
    {rest : Bytes} (hvalues : g.sequence.Starts s.rest values rest) :
    Received κ values rest (c.readSequence κ held s) := by
  obtain ⟨s', hread, hrest, hlive⟩ := (decides_readItems h).reads hs hvalues
  -- the stream does not depend on what the table is built of
  have hstream : (c.readSequence κ held s).2 = s' := by
    unfold readSequence
    rw [hread]
    dsimp only
    cases Table.ofList κ values true <;> rfl
  have htable : (κ.collapse values).length < 2 ^ 48 - 2 →
      (c.readSequence κ held s).1.Coherent κ ∧
        (c.readSequence κ held s).1.items.toList = κ.collapse values := by
    intro hsmall
    obtain ⟨u, hlist, hu, hitems⟩ :=
      Table.ofList_collapse hκ hr (fun _ _ => haccepts _) hsmall true
    unfold readSequence
    rw [hread]
    dsimp only
    rw [hlist]
    exact ⟨hu, hitems⟩
  exact ⟨by rw [hstream]; exact hlive, by rw [hstream, hrest], fun hsmall => (htable hsmall).2,
    fun hsmall => (htable hsmall).1.consistent hκ⟩

theorem refused_of_malformed (h : c.read.Decides g) (held : Table V) (hs : s.Live)
    (hbad : g.sequence.Malformed s.rest) : Refused held (c.readSequence κ held s) := by
  have hread := (decides_readItems h).fails hs hbad
  unfold readSequence
  rcases hstep : c.readItems.step s with ⟨_ | values, s'⟩
  · exact ⟨rfl, rfl⟩
  · rw [hstep] at hread
    cases hread

end Codec

/-! ### Types of containers -/

/-- The types of keys and values: integers with and without sign, and byte strings. -/
inductive Datum where
  | int
  | nat
  | text

namespace Datum

/-- The values of a type. -/
def Carrier : Datum → Type
  | .int => Integer (.signed 64)
  | .nat => Integer (.unsigned 64)
  | .text => Bytes

/-- How the values of a type are written and read. -/
def codec : (d : Datum) → Codec d.Carrier
  | .int => Codec.integer (.signed 64)
  | .nat => Codec.natural (.unsigned 64)
  | .text => Codec.text

/-- The texts of the values of a type. -/
def grammar : (d : Datum) → Grammar d.Carrier
  | .int => .integer (.signed 64)
  | .nat => .natural (.unsigned 64)
  | .text => .text

theorem decides (d : Datum) : d.codec.read.Decides d.grammar := by
  cases d with
  | int => exact Numeral.decides_readIn _
  | nat => exact Numeral.decides_readModulo _
  | text => exact Codec.decides_text

/-- White space alone is no value. -/
theorem malformed_of_blank (d : Datum) {bytes : Bytes} (h : ∀ b ∈ bytes, Reader.isBlank b) :
    d.grammar.Malformed bytes := by
  cases d with
  | int => exact Or.inl (.ended h)
  | nat => exact Or.inl (.ended h)
  | text => exact .size (Or.inl (.ended h))

end Datum

/-- The types of containers: maps and sets. -/
inductive Shape where
  | map (key value : Datum)
  | set (key : Datum)

namespace Shape

/-- The keys of containers of a type. -/
def Key : Shape → Type
  | .map key _ => key.Carrier
  | .set key => key.Carrier

/-- The items of containers of a type. -/
def Item : Shape → Type
  | .map key value => key.Carrier × value.Carrier
  | .set key => key.Carrier

/-- What containers of a type offer. -/
def interface : (s : Shape) → Interface s.Key s.Item
  | .map key value => Map.interface key.Carrier value.Carrier
  | .set key => Set.interface key.Carrier

/-- How the items of a container are written and read. -/
def codec : (s : Shape) → Codec s.Item
  | .map key value => key.codec.pair value.codec
  | .set key => key.codec

/-- The texts of the items of containers of a type. -/
def grammar : (s : Shape) → Grammar s.Item
  | .map key value => key.grammar.pair value.grammar
  | .set key => key.grammar

theorem refreshes (s : Shape) (κ : Hashing s.Key) : (s.interface.keying κ).Refreshes := by
  cases s with
  | map key value => exact Keying.refreshes_map κ
  | set key => exact Keying.refreshes_set κ

theorem decides (s : Shape) : s.codec.read.Decides s.grammar := by
  cases s with
  | map key value => exact key.decides.pair value.decides
  | set key => exact key.decides

theorem malformed_of_blank (s : Shape) {bytes : Bytes} (h : ∀ b ∈ bytes, Reader.isBlank b) :
    s.grammar.Malformed bytes := by
  cases s with
  | map key value => exact Or.inl (key.malformed_of_blank h)
  | set key => exact key.malformed_of_blank h

/-- More items are announced than there are. -/
theorem malformed_of_exhausted (s : Shape) {bytes more rest : Bytes} {count : Nat}
    {items : List s.Item} (hcount : Grammar.size.Starts bytes count more)
    (hitems : s.grammar.Follow more items rest) (hlt : items.length < count)
    (hblank : ∀ b ∈ rest, Reader.isBlank b) : s.grammar.sequence.Malformed bytes :=
  .value hcount hitems hlt (s.malformed_of_blank hblank)

/-- A container is read from any bytes in place of any other. Bytes start with a sequence of
    items, which is received, or are malformed, and then the container in place is kept. -/
theorem readSequence_spec (s : Shape) {κ : Hashing s.Key} (hκ : κ.Lawful)
    (haccepts : ∀ k, κ.refusal k = none) (held : Table s.Item) {source : Source}
    (hlive : source.Live) :
    let out := s.codec.readSequence (s.interface.keying κ) held source
    (∀ values rest, s.grammar.sequence.Starts source.rest values rest →
        Received (s.interface.keying κ) values rest out) ∧
      (s.grammar.sequence.Malformed source.rest → Refused held out) ∧
      ((∃ values rest, s.grammar.sequence.Starts source.rest values rest) ∨
        s.grammar.sequence.Malformed source.rest) :=
  ⟨fun _ _ => Codec.received_of_starts s.decides hκ (s.refreshes κ) haccepts held hlive,
    Codec.refused_of_malformed s.decides held hlive,
    (Codec.decides_readItems s.decides).total source.rest⟩

/-! ### A key that is repeated, and one that is missing -/

/-- Three items, two of which have one key. -/
def repeated : List (Bytes × Integer (.signed 64)) :=
  [([97], ⟨1, by decide⟩), ([98], ⟨2, by decide⟩), ([97], ⟨3, by decide⟩)]

theorem starts_repeated : (map .text .int).grammar.sequence.Starts
    (Bytes.ofText "3 1:a 1 1:b 2 1:a 3 4") repeated (Bytes.ofText " 4") := by
  have hread : (Codec.text.pair (Codec.integer (.signed 64))).readItems.step
      (.ofBytes (Bytes.ofText "3 1:a 1 1:b 2 1:a 3 4")) =
        (some repeated, .ofBytes (Bytes.ofText " 4")) := by decide +kernel
  exact (Codec.decides_readItems (map .text .int).decides).starts_of_step
    (Source.live_ofBytes _) hread

/-- Two items are announced, and the second one is missing. -/
theorem malformed_missing :
    (map .text .int).grammar.sequence.Malformed (Bytes.ofText "2 1:a 1\n") := by
  have hcount : Numeral.readSize.step (.ofBytes (Bytes.ofText "2 1:a 1\n")) =
      (some 2, .ofBytes (Bytes.ofText " 1:a 1\n")) := by decide +kernel
  have hitem : (Codec.text.pair (Codec.integer (.signed 64))).read.step
      (.ofBytes (Bytes.ofText " 1:a 1\n")) =
        (some ([97], ⟨1, by decide⟩), .ofBytes (Bytes.ofText "\n")) := by decide +kernel
  have hblank : ∀ b ∈ Bytes.ofText "\n", Reader.isBlank b := by decide +kernel
  exact malformed_of_exhausted _
    (Numeral.decides_readSize.starts_of_step (Source.live_ofBytes _) hcount)
    (.cons ((map .text .int).decides.starts_of_step (Source.live_ofBytes _) hitem) (.nil _))
    (by decide) hblank

/-- A hash function under which all byte strings collide. -/
def colliding : Hashing Bytes := .ofHasher ⟨fun _ => 0, true⟩ (· == ·)

/-- A map of one item. -/
def single : Table (Bytes × Integer (.signed 64)) :=
  ((Table.put colliding.map ([98], ⟨7, by decide⟩)).step (.empty .standard)).2

/-- A map of another item is replaced by one of two items, of which the first has the value
    that was read last, and is kept where an item is missing. -/
theorem readSequence_spec_repeated :
    let read (bytes : Bytes) := (map .text .int).codec.readSequence
      ((map .text .int).interface.keying colliding) single (.ofBytes bytes)
    Received ((map .text .int).interface.keying colliding) repeated (Bytes.ofText " 4")
        (read (Bytes.ofText "3 1:a 1 1:b 2 1:a 3 4")) ∧
      (read (Bytes.ofText "3 1:a 1 1:b 2 1:a 3 4")).1.items.toList =
        ([([97], ⟨3, by decide⟩), ([98], ⟨2, by decide⟩)] :
          List (Bytes × Integer (.signed 64))) ∧
      Refused single (read (Bytes.ofText "2 1:a 1\n")) := by
  have hlawful : colliding.Lawful := Hashing.lawful_ofHasher _
  have hspec := fun bytes =>
    readSequence_spec (map .text .int) hlawful (fun _ => rfl) single (Source.live_ofBytes bytes)
  have hreceived := (hspec _).1 _ _ starts_repeated
  -- the key that is repeated keeps its place and has the last of its values
  have hcollapse : Keying.collapse colliding.map repeated =
      [([97], ⟨3, by decide⟩), ([98], ⟨2, by decide⟩)] := by decide +kernel
  refine ⟨hreceived, ?_, (hspec _).2.1 malformed_missing⟩
  have hitems := hreceived.items
  rw [show Keying.collapse ((map .text .int).interface.keying colliding) repeated =
    _ from hcollapse] at hitems
  exact hitems (by decide)

end Shape

end OrderedHash
