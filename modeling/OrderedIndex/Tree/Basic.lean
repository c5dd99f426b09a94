import OrderedIndex.Arena.Basic
import OrderedIndex.Event
import OrderedIndex.Fanout
import OrderedIndex.Node.Basic

/-!
# The tree

An ordered index is a tree of nodes in an arena.  Entries stand in the leaves, which are linked in
key order and all at one depth; a branch caches for each child the largest key below it.

This module holds the state, the descents from the root to a leaf, and what is read off them: the
height, the two ends, and where a key stands with the value under it.  A descent takes at most as
many steps as there are slots, so it ends on broken links too, with a fault.
-/

namespace OrderedIndex

/-- The state of an ordered index. -/
structure Tree (K V : Type) where
  /-- The capacity of each node. -/
  fanout : Fanout
  /-- All nodes. -/
  nodes : Arena (Node K V)
  /-- The node from which all others are reached. -/
  root : Handle
  /-- The number of entries. -/
  size : Nat
  deriving DecidableEq

/-- What an update of a tree answers: its result, the new tree, and the structural events on the way
in their order. -/
structure Outcome (K V R : Type) where
  result : R
  tree : Tree K V
  events : List Event
  deriving DecidableEq

namespace Tree

variable {K V : Type}

/-! ## The empty tree -/

/-- The tree whose root is an empty leaf. -/
def empty (fanout : Fanout) : Tree K V :=
  let (root, nodes) := Arena.empty.alloc (.leaf .empty)
  { fanout, nodes, root, size := 0 }

/-- Drops all entries and nodes but keeps the fanout. -/
def clear (tree : Tree K V) : Tree K V :=
  let (root, nodes) := tree.nodes.clear.alloc (.leaf .empty)
  { tree with nodes, root, size := 0 }

/-- Whether there is no entry. -/
def isEmpty (tree : Tree K V) : Bool := tree.size == 0

/-- The number of nodes, leaves and branches together. -/
def nodeCount (tree : Tree K V) : Nat := tree.nodes.size

/-! ## Descents -/

/-- Follows from a node on the child that `pick` chooses in each branch, down to a leaf, and answers
this leaf and the number of nodes on the way.  The first argument bounds that number. -/
def descend (nodes : Arena (Node K V)) (pick : Branch K → Except Fault Handle) :
    Nat → Handle → Except Fault (Handle × Nat)
  | 0, _ => .error .endlessLinks
  | steps + 1, h => do
    match ← nodes.get h with
    | .leaf _ => return (h, 1)
    | .branch branch =>
      let (leaf, count) ← descend nodes pick steps (← pick branch)
      return (leaf, count + 1)

/-- The child of a branch that comes first. -/
def firstChild (branch : Branch K) : Except Fault Handle := branch.child 0

/-- The child of a branch that comes last. -/
def lastChild (branch : Branch K) : Except Fault Handle := branch.child (branch.childCount - 1)

/-- The child of a branch below which a key belongs. -/
def childFor (cut : Cut K) (branch : Branch K) : Except Fault Handle :=
  branch.child (branch.route cut)

/-- The number of levels.  A tree whose root is a leaf has one. -/
def height (tree : Tree K V) : Except Fault Nat := do
  let (_, levels) ← descend tree.nodes firstChild tree.nodes.slotCount tree.root
  return levels

/-- The leaf that comes first in key order. -/
def firstLeaf (tree : Tree K V) : Except Fault Handle := do
  let (leaf, _) ← descend tree.nodes firstChild tree.nodes.slotCount tree.root
  return leaf

/-- The leaf that comes last in key order. -/
def lastLeaf (tree : Tree K V) : Except Fault Handle := do
  let (leaf, _) ← descend tree.nodes lastChild tree.nodes.slotCount tree.root
  return leaf

/-- The leaf that holds a key, or would hold it if it were inserted. -/
def findLeaf (cut : Cut K) (tree : Tree K V) : Except Fault Handle := do
  let (leaf, _) ← descend tree.nodes (childFor cut) tree.nodes.slotCount tree.root
  return leaf

/-! ## Nodes of one kind -/

/-- The leaf that a handle names. -/
def getLeaf (nodes : Arena (Node K V)) (h : Handle) : Except Fault (Leaf K V) := do
  (← nodes.get h).asLeaf

/-- The branch that a handle names. -/
def getBranch (nodes : Arena (Node K V)) (h : Handle) : Except Fault (Branch K) := do
  (← nodes.get h).asBranch

/-- Changes the leaf that a handle names. -/
def modifyLeaf (nodes : Arena (Node K V)) (h : Handle)
    (f : Leaf K V → Except Fault (Leaf K V)) : Except Fault (Arena (Node K V)) :=
  nodes.modify h fun node => do return .leaf (← f (← node.asLeaf))

/-- Changes the branch that a handle names. -/
def modifyBranch (nodes : Arena (Node K V)) (h : Handle)
    (f : Branch K → Except Fault (Branch K)) : Except Fault (Arena (Node K V)) :=
  nodes.modify h fun node => do return .branch (← f (← node.asBranch))

/-- Gives a node another parent. -/
def setParent (nodes : Arena (Node K V)) (h : Handle) (parent : Option Handle) :
    Except Fault (Arena (Node K V)) :=
  nodes.modify h fun node => .ok (node.setParent parent)

/-- Gives each of some nodes the same parent. -/
def adopt (nodes : Arena (Node K V)) (children : List Handle) (parent : Handle) :
    Except Fault (Arena (Node K V)) :=
  children.foldlM (fun nodes child => setParent nodes child (some parent)) nodes

/-- The largest key at or below the node that a handle names; `empty` is the fault of a node without
keys. -/
def maxKey (empty : Fault) (nodes : Arena (Node K V)) (h : Handle) : Except Fault K := do
  orFault empty (← nodes.get h).maxKey?

/-! ## The two ends -/

/-- The entry with the smallest key. -/
def first? (tree : Tree K V) : Except Fault (Option (K × V)) := do
  let leaf ← getLeaf tree.nodes (← tree.firstLeaf)
  if leaf.keyCount = 0 then return none
  return some (← leaf.key 0, ← leaf.value 0)

/-- The entry with the largest key. -/
def last? (tree : Tree K V) : Except Fault (Option (K × V)) := do
  let leaf ← getLeaf tree.nodes (← tree.lastLeaf)
  if leaf.keyCount = 0 then return none
  return some (← leaf.key (leaf.keyCount - 1), ← leaf.value (leaf.keyCount - 1))

/-! ## Lookup -/

/-- The leaf and the position in it where a key stands, if it is present. -/
def locate (cut : Cut K) (tree : Tree K V) : Except Fault (Option (Handle × Nat)) := do
  let h ← tree.findLeaf cut
  match (← getLeaf tree.nodes h).search cut with
  | .found i => return some (h, i)
  | .absent _ => return none

/-- The value under a key, if it is present. -/
def get? (cut : Cut K) (tree : Tree K V) : Except Fault (Option V) := do
  match ← tree.locate cut with
  | none => return none
  | some (h, i) => return some (← (← getLeaf tree.nodes h).value i)

/-- The value under a key that must be present. -/
def get (cut : Cut K) (tree : Tree K V) : Except Fault V := do
  orFault .absentKey (← tree.get? cut)

/-- Whether a key is present. -/
def contains (cut : Cut K) (tree : Tree K V) : Except Fault Bool := do
  return (← tree.locate cut).isSome

end Tree

end OrderedIndex
