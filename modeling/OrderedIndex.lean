import OrderedIndex.Arena.Lemmas
import OrderedIndex.Columns.Lemmas
import OrderedIndex.Cut
import OrderedIndex.Event
import OrderedIndex.Fanout
import OrderedIndex.Key
import OrderedIndex.Tree.Shape
import OrderedIndex.Tree.Traversal
import OrderedIndex.Tree.Update
import OrderedIndex.Proofs.Ascending
import OrderedIndex.Proofs.Cells
import OrderedIndex.Proofs.Layout
import OrderedIndex.Proofs.Path
import OrderedIndex.Proofs.Nodes
import OrderedIndex.Proofs.Descent
import OrderedIndex.Proofs.Maxima
import OrderedIndex.Proofs.Regrouping
import OrderedIndex.Proofs.Overflow
import OrderedIndex.Proofs.Mending
import OrderedIndex.Proofs.Underflow
import OrderedIndex.Proofs.Journal
import OrderedIndex.Proofs.Reference
import OrderedIndex.Proofs.Lookups
import OrderedIndex.Proofs.Cursors
import OrderedIndex.Proofs.Updates
import OrderedIndex.Proofs.Operations
import OrderedIndex.Proofs.Occupancy
import OrderedIndex.Proofs.Equality
import OrderedIndex.Proofs.Cascade
import OrderedIndex.Proofs.Divisions
import OrderedIndex.Proofs.Scans
import OrderedIndex.Proofs.Coherence
import OrderedIndex.Proofs.Repair
import OrderedIndex.Proofs.Safety
import OrderedIndex.Proofs.Trails
import OrderedIndex.Proofs.LeftSpine
import OrderedIndex.Proofs.Locality
import OrderedIndex.Proofs.Packing
import OrderedIndex.Proofs.Sparing
import OrderedIndex.Proofs.Overwrites
import OrderedIndex.Proofs.Allocation
import OrderedIndex.Proofs.RootRule
import OrderedIndex.Proofs.Propagation
import OrderedIndex.Proofs.Searches
import OrderedIndex.Proofs.Pairing
