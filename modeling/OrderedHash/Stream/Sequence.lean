import OrderedHash.Stream.Codec
import OrderedHash.Table.Insert

namespace OrderedHash

/-!
# Containers on a stream

A container is written as its size and its items in order, separated by spaces and ended
by a line feed. Reading replaces the contents of a container only if all the items that
are announced can be read.
-/

namespace Codec

variable {K V α : Type}

/-- Reads `count` values after those read before. -/
def readMany (c : Codec α) : (count : Nat) → (before : Array α) → Reader (Array α)
  | 0, before => pure before
  | count + 1, before => do
    let v ← c.read
    readMany c count (before.push v)

/-- The text of a container. -/
def writeSequence (c : Codec V) (t : Table V) : Bytes :=
  Numeral.digits t.size ++ (t.items.toList.flatMap fun v => 32 :: c.write v) ++ [10]

/-- Reads the items of a container. -/
def readItems (c : Codec V) : Reader (List V) := do
  let count ← Numeral.readSize
  return (← c.readMany count #[]).toList

/-- Reads a container in place of `t`, which is kept if that fails. The items are added
    in turn to a new container, so that of two with one key the first gives the place. -/
def readSequence (κ : Keying K V) (c : Codec V) (t : Table V) (s : Source) : Table V × Source :=
  match (c.readItems).step s with
  | (some items, s) =>
    match Table.ofList κ items true with
    | .ok read => (read, s)
    | .error _ => (t, s)
  | (none, s) => (t, { s with failed := true })

end Codec

end OrderedHash
