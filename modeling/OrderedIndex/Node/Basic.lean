import OrderedIndex.Node.Leaf
import OrderedIndex.Node.Branch

/-!
# Nodes

A node of the tree is a leaf or a branch.  Operations that suit one kind only reach it through
`asLeaf` and `asBranch`, which fault on the other kind.
-/

namespace OrderedIndex

/-- A leaf or a branch. -/
inductive Node (K V : Type) where
  | leaf (leaf : Leaf K V)
  | branch (branch : Branch K)
  deriving DecidableEq

namespace Node

variable {K V : Type}

/-- The number of entries or children that a node is laid out for without a store of its own: the
standard fanout and the one that makes a node overfull fit in it. -/
def inlineCapacity : Nat := 8

/-- Whether a node is a leaf. -/
def isLeaf : Node K V → Bool
  | .leaf _ => true
  | .branch _ => false

/-- The leaf that a node is. -/
def asLeaf : Node K V → Except Fault (Leaf K V)
  | .leaf l => .ok l
  | .branch _ => .error .expectedLeaf

/-- The branch that a node is. -/
def asBranch : Node K V → Except Fault (Branch K)
  | .leaf _ => .error .expectedBranch
  | .branch b => .ok b

/-- The number of keys. -/
def keyCount : Node K V → Nat
  | .leaf l => l.keyCount
  | .branch b => b.keyCount

/-- The largest key at or below a sound node. -/
def maxKey? : Node K V → Option K
  | .leaf l => l.maxKey?
  | .branch b => b.maxKey?

/-- The branch that lists a node. -/
def parent : Node K V → Option Handle
  | .leaf l => l.parent
  | .branch b => b.parent

/-- The node with another parent. -/
def setParent (parent : Option Handle) : Node K V → Node K V
  | .leaf l => .leaf { l with parent := parent }
  | .branch b => .branch { b with parent := parent }

@[simp] theorem parent_setParent (node : Node K V) (parent : Option Handle) :
    (node.setParent parent).parent = parent := by
  cases node <;> rfl

@[simp] theorem setParent_setParent (node : Node K V) (parent parent' : Option Handle) :
    (node.setParent parent).setParent parent' = node.setParent parent' := by
  cases node <;> rfl

/-- A node is given the parent that it has. -/
@[simp] theorem setParent_parent (node : Node K V) : node.setParent node.parent = node := by
  cases node <;> rfl

theorem asLeaf_eq_ok_iff {node : Node K V} {l : Leaf K V} :
    node.asLeaf = .ok l ↔ node = .leaf l := by
  cases node <;> simp [asLeaf]

theorem asBranch_eq_ok_iff {node : Node K V} {b : Branch K} :
    node.asBranch = .ok b ↔ node = .branch b := by
  cases node <;> simp [asBranch]

end Node

end OrderedIndex
