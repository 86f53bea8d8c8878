import OrderedHash.Table.Basic

namespace OrderedHash

/-!
# Comparing the contents of tables

Tables are compared by their items in order; the index plays no part.
-/

namespace Table

variable {V : Type}

/-- Whether two lists have equal items in the same order. -/
def sameItems (equal : V → V → Bool) : List V → List V → Bool
  | [], [] => true
  | a :: as, b :: bs => equal a b && sameItems equal as bs
  | _, _ => false

/-- Whether a list comes before another: at the first place where one of two items is
    less than the other, or by ending earlier. -/
def precedes (less : V → V → Bool) : List V → List V → Bool
  | _, [] => false
  | [], _ :: _ => true
  | a :: as, b :: bs => less a b || (!less b a && precedes less as bs)

/-- The order of pairs by their first components and then by their second ones. -/
def lessPair {K T : Type} (lessKey : K → K → Bool) (lessValue : T → T → Bool)
    (a b : K × T) : Bool :=
  lessKey a.1 b.1 || (!lessKey b.1 a.1 && lessValue a.2 b.2)

end Table

end OrderedHash
