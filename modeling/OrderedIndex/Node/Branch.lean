import OrderedIndex.Columns.Basic
import OrderedIndex.Handle
import OrderedIndex.Search

/-!
# Branches

A branch lists its children in key order and caches, beside each, the largest key below that child.
It also has the handle of its parent.
-/

namespace OrderedIndex

/-- A node that lists other nodes. -/
structure Branch (K : Type) extends Columns K Handle where
  /-- The branch that lists this one. -/
  parent : Option Handle
  deriving DecidableEq

namespace Branch

variable {K : Type}

/-- The branch without children and parent. -/
def empty : Branch K := ⟨⟨[], []⟩, none⟩

/-- The children in key order. -/
def children (branch : Branch K) : List Handle := branch.items

/-- The number of children. -/
def childCount (branch : Branch K) : Nat := branch.children.length

/-- The child at a position. -/
def child (branch : Branch K) (i : Nat) : Except Fault Handle := branch.item i

/-- The position of a child. -/
def positionOf (branch : Branch K) (h : Handle) : Except Fault Nat :=
  orFault .unlistedChild (branch.children.findIdx? (· == h))

/-- The position of the child below which a key belongs: the first one whose cached key is not below
it, or the last one where all are. -/
def route (cut : Cut K) (branch : Branch K) : Nat :=
  min (search cut branch.keys).position (branch.childCount - 1)

/-- Rewrites the cached key at a position. -/
def setKey (branch : Branch K) (i : Nat) (k : K) : Except Fault (Branch K) :=
  if i < branch.keys.length then .ok { branch with keys := branch.keys.set i k }
  else .error (.outOfBounds branch.keys.length i)

/-- Rewrites all cached keys.  There has to be one for each child; that is not checked here but left
to the caller, who reads one off each child (`Tree.refreshMaxima`). -/
def setKeys (branch : Branch K) (keys : List K) : Branch K := { branch with keys := keys }

/-- Inserts a child and its key before those at a position, or behind the last ones. -/
def insertChild (branch : Branch K) (i : Nat) (k : K) (h : Handle) : Except Fault (Branch K) := do
  let columns ← branch.toColumns.insert i k h
  return { branch with toColumns := columns }

/-- Removes the child and the key at a position. -/
def removeChild (branch : Branch K) (i : Nat) : Except Fault ((K × Handle) × Branch K) := do
  let (slot, columns) ← branch.toColumns.remove i
  return (slot, { branch with toColumns := columns })

/-- Adds a child and its key behind the others. -/
def push (branch : Branch K) (k : K) (h : Handle) : Branch K :=
  { branch with toColumns := branch.toColumns.push k h }

/-- Adds a child and its key in front of the others. -/
def pushFront (branch : Branch K) (k : K) (h : Handle) : Branch K :=
  { branch with toColumns := branch.toColumns.pushFront k h }

/-- Removes the last child and its key, if there is one. -/
def pop? (branch : Branch K) : Option ((K × Handle) × Branch K) := do
  let (slot, columns) ← branch.toColumns.pop?
  return (slot, { branch with toColumns := columns })

/-- Removes the first child and its key, if there is one. -/
def popFront? (branch : Branch K) : Option ((K × Handle) × Branch K) := do
  let (slot, columns) ← branch.toColumns.popFront?
  return (slot, { branch with toColumns := columns })

/-- Removes the child next to a branch of which this one is the sibling on the given side. -/
def lend? (branch : Branch K) (side : Side) : Option ((K × Handle) × Branch K) := do
  let (slot, columns) ← branch.toColumns.lend? side
  return (slot, { branch with toColumns := columns })

/-- Adds a child and its key that come from the sibling on the given side. -/
def receive (branch : Branch K) (side : Side) (k : K) (h : Handle) : Branch K :=
  { branch with toColumns := branch.toColumns.receive k h side }

/-- Divides a branch in two.  The second one takes the upper half of the children, the larger one
where their number is odd; both have the old parent. -/
def split (branch : Branch K) : Branch K × Branch K :=
  let (lower, upper) := branch.toColumns.split (branch.childCount / 2)
  ({ branch with toColumns := lower }, { branch with toColumns := upper })

/-- Adds the children of the branch that follows. -/
def mergeRight (branch right : Branch K) : Branch K :=
  { branch with toColumns := branch.toColumns.append right.toColumns }

end Branch

end OrderedIndex
