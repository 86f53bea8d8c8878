import OrderedHash.Index.Transfer
import OrderedHash.Fault
import OrderedHash.Index.Erase
import OrderedHash.Index.Insert
import OrderedHash.Index.Lookup
import OrderedHash.Index.Renumber
import OrderedHash.Index.Resize
import OrderedHash.Index.Remove
import OrderedHash.Index.Reorder
import OrderedHash.Scalar.Integer
import OrderedHash.Table.Basic
import OrderedHash.Table.Consistency
import OrderedHash.Table.Extract
import OrderedHash.Table.Insert
import OrderedHash.Table.Reorder
import OrderedHash.Table.Search
import OrderedHash.Table.Sort
import OrderedHash.Table.Splice
import OrderedHash.Table.Transfer
import OrderedHash.Table.Entry
import OrderedHash.Table.Slice
import OrderedHash.Map.Basic
import OrderedHash.Set.Algebra
import OrderedHash.Table.Compare
import OrderedHash.Binary.Decimal
import OrderedHash.Random.Instance
import OrderedHash.Stream.Codec
import OrderedHash.Stream.Real
import OrderedHash.Stream.Sequence
import OrderedHash.Index.Register
import OrderedHash.Proofs.Index.Insertion
import OrderedHash.Proofs.Index.Erasure
import OrderedHash.Proofs.Index.Positions
import OrderedHash.Proofs.Index.Runs
import OrderedHash.Proofs.Runs.Consistency
import OrderedHash.Proofs.Index.Layout
import OrderedHash.Proofs.Index.Termination
import OrderedHash.Proofs.Index.Shifting
import OrderedHash.Proofs.Runs.Atomicity
import OrderedHash.Proofs.Index.Reserve
import OrderedHash.Proofs.Runs.Extraction
import OrderedHash.Proofs.Runs.Entries
import OrderedHash.Proofs.Stream.RoundTrip
import OrderedHash.Proofs.Runs.Filtering
import OrderedHash.Proofs.Runs.Ranges
import OrderedHash.Proofs.Runs.Splicing
import OrderedHash.Proofs.Runs.Placement
import OrderedHash.Proofs.Runs.Permuting
import OrderedHash.Proofs.Runs.Sorting
import OrderedHash.Proofs.Runs.Slicing
import OrderedHash.Proofs.Runs.Extending
import OrderedHash.Proofs.Runs.Rearranging
import OrderedHash.Proofs.Runs.Restoring
import OrderedHash.Proofs.Runs.Inserting
import OrderedHash.Proofs.Table.Searching
import OrderedHash.Proofs.Table.SortedInserting
import OrderedHash.Proofs.Runs.SortedInserting
import OrderedHash.Proofs.Table.Algebra
import OrderedHash.Proofs.Runs.Algebra
import OrderedHash.Proofs.Runs.Checking
import OrderedHash.Proofs.Hash.Mixing
import OrderedHash.Proofs.Index.Sizing
import OrderedHash.Proofs.Stream.Moments
import OrderedHash.Proofs.Runs.Transfers
import OrderedHash.Proofs.Index.Distances
