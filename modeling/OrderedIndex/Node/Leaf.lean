import OrderedIndex.Columns.Basic
import OrderedIndex.Handle
import OrderedIndex.Search

/-!
# Leaves

A leaf holds entries: keys in ascending order and a value beside each.  It also has the handle of
its parent and of the leaf that follows in key order.
-/

namespace OrderedIndex

/-- A node that holds entries. -/
structure Leaf (K V : Type) extends Columns K V where
  /-- The leaf that follows in key order. -/
  next : Option Handle
  /-- The branch that lists this leaf. -/
  parent : Option Handle
  deriving DecidableEq

namespace Leaf

variable {K V : Type}

/-- The leaf without entries and links. -/
def empty : Leaf K V := ⟨⟨[], []⟩, none, none⟩

/-- The value of each key. -/
def values (leaf : Leaf K V) : List V := leaf.items

/-- The value at a position. -/
def value (leaf : Leaf K V) (i : Nat) : Except Fault V := leaf.item i

/-- Exchanges the value at a position for `v`, and answers the old one. -/
def replaceValue (leaf : Leaf K V) (i : Nat) (v : V) : Except Fault (V × Leaf K V) := do
  let old ← leaf.value i
  return (old, { leaf with items := leaf.items.set i v })

/-- Searches for a key. -/
def search (cut : Cut K) (leaf : Leaf K V) : Probe := OrderedIndex.search cut leaf.keys

/-- Inserts an entry before the one at a position, or behind the last one. -/
def insert (leaf : Leaf K V) (i : Nat) (k : K) (v : V) : Except Fault (Leaf K V) := do
  let columns ← leaf.toColumns.insert i k v
  return { leaf with toColumns := columns }

/-- Removes the entry at a position. -/
def remove (leaf : Leaf K V) (i : Nat) : Except Fault ((K × V) × Leaf K V) := do
  let (entry, columns) ← leaf.toColumns.remove i
  return (entry, { leaf with toColumns := columns })

/-- Adds an entry behind the others. -/
def push (leaf : Leaf K V) (k : K) (v : V) : Leaf K V :=
  { leaf with toColumns := leaf.toColumns.push k v }

/-- Adds an entry in front of the others. -/
def pushFront (leaf : Leaf K V) (k : K) (v : V) : Leaf K V :=
  { leaf with toColumns := leaf.toColumns.pushFront k v }

/-- Removes the last entry, if there is one. -/
def pop? (leaf : Leaf K V) : Option ((K × V) × Leaf K V) := do
  let (entry, columns) ← leaf.toColumns.pop?
  return (entry, { leaf with toColumns := columns })

/-- Removes the first entry, if there is one. -/
def popFront? (leaf : Leaf K V) : Option ((K × V) × Leaf K V) := do
  let (entry, columns) ← leaf.toColumns.popFront?
  return (entry, { leaf with toColumns := columns })

/-- Removes the entry next to a leaf of which this one is the sibling on the given side. -/
def lend? (leaf : Leaf K V) (side : Side) : Option ((K × V) × Leaf K V) := do
  let (entry, columns) ← leaf.toColumns.lend? side
  return (entry, { leaf with toColumns := columns })

/-- Adds an entry that comes from the sibling on the given side. -/
def receive (leaf : Leaf K V) (side : Side) (k : K) (v : V) : Leaf K V :=
  { leaf with toColumns := leaf.toColumns.receive k v side }

/-- Divides a leaf in two.  The second one takes the upper half of the entries, the larger one where
their number is odd, and both links; the first one keeps its links. -/
def split (leaf : Leaf K V) : Leaf K V × Leaf K V :=
  let (lower, upper) := leaf.toColumns.split (leaf.keyCount / 2)
  ({ leaf with toColumns := lower }, { leaf with toColumns := upper })

/-- Adds the entries of the leaf that follows, and takes over its link to the next leaf. -/
def mergeRight (leaf right : Leaf K V) : Leaf K V :=
  { leaf with toColumns := leaf.toColumns.append right.toColumns, next := right.next }

end Leaf

end OrderedIndex
