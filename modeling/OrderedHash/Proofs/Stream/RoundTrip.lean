import OrderedHash.Proofs.Stream.Codecs
import OrderedHash.Proofs.Stream.Outcomes

namespace OrderedHash

/-!
# Containers read back

Containers of several types are written to one stream, one after another, and each is read
in place of another container of its type. A container that is read has the items of the
one written, in the same order, and the stream is left where the next container is found
(`Parcel.receive_sendAll`), since the text of a container starts with its items and these
are all that is read (`Codec.readSequence_writeSequence`).
-/

/-! ### One container -/

/-- A container that was written is read in place of any other, wherever in the stream it
    is, if no two of its keys are equal. -/
theorem Codec.readSequence_writeSequence {K V : Type} {κ κ' : Keying K V} {c : Codec V}
    {g : Grammar V} (hd : c.read.Decides g) {t : Table V} (ht : t.Coherent κ) (hκ : κ.Lawful)
    (hκ' : κ'.Lawful) (hsame : κ'.same = κ.same) (hkey : κ'.key = κ.key) (hr : κ'.Refreshes)
    (haccepts : ∀ k, κ'.refusal k = none) (hwrites : ∀ v ∈ t.items, c.Writes g v)
    (held : Table V) {blanks : Bytes} (hblanks : ∀ b ∈ blanks, Reader.isBlank b) (rest : Bytes) :
    ∃ read, c.readSequence κ' held (.ofBytes (blanks ++ (c.writeSequence t ++ rest))) =
      (read, .ofBytes (10 :: rest)) ∧ read.items = t.items := by
  have hstarts := starts_writeSequence t hwrites (lt_trans ht.small (by decide)) hblanks rest
  have hreceived := received_of_starts hd hκ' hr haccepts held (Source.live_ofBytes _) hstarts
  -- none of the keys is repeated
  have hdistinct := (Table.distinct_iff_pairwise hκ t.items).mp ht.distinct
  rw [← hsame, ← hkey] at hdistinct
  have hcollapse := Keying.collapse_eq_self hdistinct
  have hitems := hreceived.items (hcollapse.symm ▸ ht.small)
  rw [hcollapse] at hitems
  exact ⟨_, Prod.ext rfl (hreceived.live.eq_ofBytes_cons hreceived.rest),
    Array.toList_inj.mp hitems⟩

/-! ### Items that can be stored -/

/-- Whether a value can be stored. The length of a byte string is a number of 64 bits. -/
def Datum.Storable : (d : Datum) → d.Carrier → Prop
  | .text, v => List.length v < 2 ^ 64
  | _, _ => True

/-- What is written of a value that can be stored is in its grammar. -/
theorem Datum.writes (d : Datum) {v : d.Carrier} (h : d.Storable v) :
    d.codec.Writes d.grammar v := by
  cases d with
  | int => exact Codec.writes_integer _ v
  | nat => exact Codec.writes_natural rfl v
  | text => exact Codec.writes_text h

/-- Whether an item can be stored. -/
def Shape.Storable : (s : Shape) → s.Item → Prop
  | .map key value, v => key.Storable v.1 ∧ value.Storable v.2
  | .set key, v => key.Storable v

/-- What is written of an item that can be stored is in its grammar. -/
theorem Shape.writes (s : Shape) {v : s.Item} (h : s.Storable v) :
    s.codec.Writes s.grammar v := by
  cases s with
  | map key value => exact (key.writes h.1).pair (value.writes h.2)
  | set key => exact key.writes h

/-! ### Many containers -/

/-- A container of some type after some run, which is sent, and a container of the same type
    in whose place it is read. The latter may hold anything. The two compare keys alike, and
    the hash function of the latter does not fail. -/
structure Parcel where
  shape : Shape
  source : Hashing shape.Key
  target : Hashing shape.Key
  sent : Table shape.Item
  replaced : Table shape.Item
  source_lawful : source.Lawful
  target_lawful : target.Lawful
  same : target.same = source.same
  accepts : ∀ k, target.refusal k = none
  reachable : ∃ (σ : Type) (w : World shape.Key shape.Item σ) (i : Nat),
    w.Reachable shape.interface source ∧ w.table i = sent
  storable : ∀ v ∈ sent.items, shape.Storable v

namespace Parcel

/-- The text of the container that is written. -/
def send (p : Parcel) : Bytes := p.shape.codec.writeSequence p.sent

/-- The texts of the containers of several parcels, in one stream. -/
def sendAll (parcels : List Parcel) : Bytes := parcels.flatMap send

/-- Reads a container in place of the one that is replaced. -/
def receive (p : Parcel) (s : Source) : Table p.shape.Item × Source :=
  p.shape.codec.readSequence (p.shape.interface.keying p.target) p.replaced s

/-- The stream after the containers of several parcels were read from it. -/
def receiveAll (parcels : List Parcel) (s : Source) : Source :=
  parcels.foldl (fun s p => (p.receive s).2) s

variable {blanks : Bytes}

/-- A container is read as it was sent, and what follows is left. -/
theorem step_receive (p : Parcel) (hblanks : ∀ b ∈ blanks, Reader.isBlank b) (rest : Bytes) :
    ∃ read, p.receive (.ofBytes (blanks ++ (p.send ++ rest))) = (read, .ofBytes (10 :: rest)) ∧
      read.items = p.sent.items := by
  obtain ⟨σ, w, i, hreachable, hsent⟩ := p.reachable
  have hcoherent := hreachable.coherent p.source_lawful i
  rw [hsent] at hcoherent
  have hsame : (p.shape.interface.keying p.target).same =
      (p.shape.interface.keying p.source).same := p.same
  exact Codec.readSequence_writeSequence p.shape.decides hcoherent p.source_lawful
    p.target_lawful hsame rfl (p.shape.refreshes p.target) p.accepts
    (fun v hv => p.shape.writes (p.storable v hv)) p.replaced hblanks rest

/-- After some containers were read, the stream holds what was written after them, behind
    white space. -/
theorem receiveAll_sendAll (parcels : List Parcel) (hblanks : ∀ b ∈ blanks, Reader.isBlank b)
    (rest : Bytes) : ∃ left : Bytes, (∀ b ∈ left, Reader.isBlank b) ∧
      receiveAll parcels (.ofBytes (blanks ++ (sendAll parcels ++ rest))) =
        .ofBytes (left ++ rest) := by
  induction parcels generalizing blanks with
  | nil => exact ⟨blanks, hblanks, rfl⟩
  | cons p parcels ih =>
    obtain ⟨read, hread, -⟩ := p.step_receive hblanks (sendAll parcels ++ rest)
    have hfeed : ∀ b ∈ ([10] : Bytes), Reader.isBlank b := by simp [Reader.isBlank]
    obtain ⟨left, hleft, hrun⟩ := ih hfeed
    refine ⟨left, hleft, ?_⟩
    rw [sendAll, List.flatMap_cons, List.append_assoc, receiveAll, List.foldl_cons]
    exact (congrArg (receiveAll parcels) (congrArg Prod.snd hread)).trans hrun

/-- The text of a container does not start with white space. -/
theorem dropWhile_send (p : Parcel) (hblanks : ∀ b ∈ blanks, Reader.isBlank b) (rest : Bytes) :
    (blanks ++ (p.send ++ rest)).dropWhile Reader.isBlank = p.send ++ rest := by
  obtain ⟨b, more, hbytes, hdigit⟩ := (Numeral.spells_digits p.sent.size).starts
  have hblank := Numeral.not_isBlank_of_isDigit hdigit
  rw [List.dropWhile_append_of_pos hblanks]
  unfold send Codec.writeSequence
  rw [hbytes]
  exact List.dropWhile_cons_of_neg (by simp [hblank])

/-- Of containers written one after another to a stream, each is read back when those
    before it have been read: the stream is good and holds its text next, behind white
    space, the container read has its items in their order, and the stream is good after it
    and holds the texts of the containers that follow. -/
theorem receive_sendAll (before : List Parcel) (p : Parcel) (after : List Parcel) (tail : Bytes) :
    let s := receiveAll before (.ofBytes (sendAll (before ++ p :: after) ++ tail))
    s.isGood ∧ s.rest.dropWhile Reader.isBlank = p.send ++ (sendAll after ++ tail) ∧
      (p.receive s).1.items = p.sent.items ∧
      (p.receive s).2 = .ofBytes (10 :: (sendAll after ++ tail)) := by
  intro s
  have htext : sendAll (before ++ p :: after) ++ tail =
      [] ++ (sendAll before ++ (p.send ++ (sendAll after ++ tail))) := by
    simp [sendAll]
  have hnone : ∀ b ∈ ([] : Bytes), Reader.isBlank b := nofun
  -- the parcels before leave nothing but blanks in front of this one
  obtain ⟨left, hleft, hrun⟩ := receiveAll_sendAll before hnone (p.send ++ (sendAll after ++ tail))
  have hs : s = .ofBytes (left ++ (p.send ++ (sendAll after ++ tail))) := by
    rw [← hrun, ← htext]
  obtain ⟨read, hread, hitems⟩ := p.step_receive hleft (sendAll after ++ tail)
  rw [hs, hread]
  exact ⟨rfl, p.dropWhile_send hleft _, hitems, rfl⟩

/-! ### A map and a set -/

/-- Byte strings are hashed by their length, so that some collide. -/
def lengthHashing : Hashing Bytes := .ofHasher ⟨fun v => v.length.toUInt64, true⟩ (· == ·)

/-- Numbers are hashed by their value. -/
def valueHashing : Hashing (Integer (.unsigned 64)) :=
  .ofHasher ⟨fun x => x.toWord, true⟩ (· == ·)

/-- A map of the empty string, and of a string that looks like another one on a stream. -/
def labelled : World Bytes (Bytes × Integer (.signed 64)) Unit :=
  ((Turn.act (I := Map.interface Bytes (Integer (.signed 64)))
    (lengthHashing.refusing fun _ => none)
    (.use 0 (.common (.extend [([], ⟨5, by decide⟩), ([49, 58, 32, 10, 255], ⟨-7, by decide⟩)]
      true)))).step (World.start ())).2

/-- A set of the least and the greatest number. -/
def marked : World (Integer (.unsigned 64)) (Integer (.unsigned 64)) Unit :=
  ((Turn.act (I := Set.interface (Integer (.unsigned 64)))
    (valueHashing.refusing fun _ => none)
    (.use 0 (.common (.extend [⟨2 ^ 64 - 1, by decide⟩, ⟨0, by decide⟩] true)))).step
      (World.start ())).2

/-- The map is reached by one turn. -/
theorem labelled_reachable :
    labelled.Reachable (Map.interface Bytes (Integer (.signed 64))) lengthHashing := by
  have hfits : labelled.Fits := (World.fits_start ()).setTable 0 (by decide +kernel)
  exact (World.Reachable.start ()).turn (fun _ => none) _ hfits

/-- The set is reached by one turn. -/
theorem marked_reachable :
    marked.Reachable (Set.interface (Integer (.unsigned 64))) valueHashing := by
  have hfits : marked.Fits := (World.fits_start ()).setTable 0 (by decide +kernel)
  exact (World.Reachable.start ()).turn (fun _ => none) _ hfits

/-- Equal byte strings are of one length. -/
theorem lengthHashing_lawful : lengthHashing.Lawful := Hashing.lawful_ofHasher _

/-- Equal integers have one value. -/
theorem valueHashing_lawful : valueHashing.Lawful := Hashing.lawful_ofHasher _

/-- The map is read in place of one that is empty. -/
def labels : Parcel where
  shape := .map .text .int
  source := lengthHashing
  target := lengthHashing
  sent := labelled.table 0
  replaced := .empty .standard
  source_lawful := lengthHashing_lawful
  target_lawful := lengthHashing_lawful
  same := rfl
  accepts _ := rfl
  reachable := ⟨Unit, labelled, 0, labelled_reachable, rfl⟩
  storable v hv := by
    have hshort : ∀ v ∈ (labelled.table 0).items.toList, v.1.length < 2 ^ 64 := by decide +kernel
    exact ⟨hshort v (Array.mem_toList_iff.mpr hv), trivial⟩

/-- The set is read in place of itself. -/
def marks : Parcel where
  shape := .set .nat
  source := valueHashing
  target := valueHashing
  sent := marked.table 0
  replaced := marked.table 0
  source_lawful := valueHashing_lawful
  target_lawful := valueHashing_lawful
  same := rfl
  accepts _ := rfl
  reachable := ⟨Unit, marked, 0, marked_reachable, rfl⟩
  storable _ _ := trivial

/-- A map and a set are sent one after the other and read back. -/
theorem receive_sendAll_mixed :
    sendAll [labels, marks] =
        Bytes.ofText "2 0: 5 5:1: \n" ++ 255 :: Bytes.ofText " -7\n2 18446744073709551615 0\n" ∧
      (labels.receive (.ofBytes (sendAll [labels, marks] ++ []))).1.items = labels.sent.items ∧
      (marks.receive (receiveAll [labels] (.ofBytes (sendAll [labels, marks] ++ [])))).1.items =
        marks.sent.items := by
  refine ⟨by decide +kernel, ?_, ?_⟩
  · exact (receive_sendAll [] labels [marks] []).2.2.1
  · exact (receive_sendAll [labels] marks [] []).2.2.1

end Parcel

end OrderedHash
