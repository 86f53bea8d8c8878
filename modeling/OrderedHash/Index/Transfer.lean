import OrderedHash.Index.Basic

namespace OrderedHash

/-!
# Copying and moving an index

An index handed over leaves a null index behind, which keeps its own load factor. Where
the storage cannot change owner, the nodes are copied instead and the source keeps its own.
-/

namespace Index

/-- The index that takes over from `source`, and what is left of `source`. The storage
    changes owner only if the two share it. -/
def takeOver (source : Index) (sharedStorage : Bool) : Index × Index :=
  (source, if sharedStorage then source.release else source)

end Index

end OrderedHash
