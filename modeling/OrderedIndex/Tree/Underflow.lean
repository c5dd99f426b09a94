import OrderedIndex.Tree.Maxima

/-!
# Short nodes

A removal can leave a node below the root with one key less than the fanout asks for.  The node then
borrows from a sibling that has one to spare, the left one first; where neither has, the node and a
sibling are merged, which takes a child from their parent, so that the parent can become short in
turn.  A root left with a single child gives way to it.
-/

namespace OrderedIndex.Tree

variable {K V : Type}

/-- The parent of a node and the nodes listed beside it. -/
structure Siblings where
  parent : Handle
  left : Option Handle
  right : Option Handle
  deriving DecidableEq

/-- The parent and siblings of a node, or none for a root. -/
def siblings (nodes : Arena (Node K V)) (h : Handle) : Except Fault (Option Siblings) := do
  match (← nodes.get h).parent with
  | none => return none
  | some parent =>
    let branch ← getBranch nodes parent
    let i ← branch.positionOf h
    let left := if i = 0 then none else branch.children[i - 1]?
    return some { parent, left, right := branch.children[i + 1]? }

/-- Whether there is a node and it has more keys than it needs. -/
def canLend (tree : Tree K V) : Option Handle → Except Fault Bool
  | none => .ok false
  | some h => do return tree.fanout.min < (← tree.nodes.get h).keyCount

/-- The sibling to borrow from, the left one if both have a key to spare, and the side on which it
stands. -/
def lender? (tree : Tree K V) (beside : Siblings) : Except Fault (Option (Side × Handle)) := do
  if ← tree.canLend beside.left then return beside.left.map (Side.left, ·)
  else if ← tree.canLend beside.right then return beside.right.map (Side.right, ·)
  else return none

/-! ## Borrowing -/

/-- Moves one entry or child to a node from its sibling on the given side: the one of the lender
that is closest to the node. -/
def pass (nodes : Arena (Node K V)) (side : Side) (node lender : Handle)
    (calls : Refreshes K V := .written) : Except Fault (Arena (Node K V)) := do
  match ← nodes.get lender with
  | .leaf leaf =>
    let ((k, v), rest) ← orFault (.emptyLender side) (leaf.lend? side)
    modifyLeaf (nodes.put lender (.leaf rest)) node fun leaf => .ok (leaf.receive side k v)
  | .branch branch =>
    let ((k, child), rest) ← orFault (.emptyLender side) (branch.lend? side)
    let nodes ← modifyBranch (nodes.put lender (.branch rest)) node fun branch =>
      .ok (branch.receive side k child)
    let nodes ← setParent nodes child (some node)
    let nodes ← calls.maxima nodes lender
    calls.maxima nodes node

/-- Moves one entry or child to a node from its sibling on the given side, and brings their parent
up to date. -/
def borrow (nodes : Arena (Node K V)) (side : Side) (node lender parent : Handle)
    (calls : Refreshes K V := .written) : Except Fault (Arena (Node K V) × Event) := do
  let nodes ← pass nodes side node lender calls
  let nodes ← refreshMaxima nodes parent
  return (nodes, .borrowed side node lender (← nodes.get node).keyCount)

/-! ## Merging -/

/-- Adds the contents of a node that is no longer in the arena to the node on its left. -/
def absorb (nodes : Arena (Node K V)) (left : Handle) :
    Node K V → (calls : Refreshes K V := .written) → Except Fault (Arena (Node K V))
  | .leaf right, _ => modifyLeaf nodes left fun leaf => .ok (leaf.mergeRight right)
  | .branch right, calls => do
    let nodes ← adopt nodes right.children left
    let nodes ← modifyBranch nodes left fun branch => .ok (branch.mergeRight right)
    calls.maxima nodes left

/-- Takes a child off the list of its parent. -/
def unlist (nodes : Arena (Node K V)) (parent child : Handle) :
    Except Fault (Arena (Node K V)) := do
  let nodes ← modifyBranch nodes parent fun branch => do
    let (_, branch) ← branch.removeChild (← branch.positionOf child)
    return branch
  refreshMaxima nodes parent

/-- Moves the contents of a node to the sibling on its left, and releases the node. -/
def mergeNodes (nodes : Arena (Node K V)) (left right parent : Handle)
    (calls : Refreshes K V := .written) : Except Fault (Arena (Node K V) × Event) := do
  let (content, nodes) ← nodes.take right
  let nodes ← absorb nodes left content calls
  let nodes ← unlist nodes parent right
  return (nodes, .merged left right (← nodes.get left).keyCount)

/-- Merges a node with its left sibling, or with the right one where it is the first child. -/
def mergeWithSibling (nodes : Arena (Node K V)) (h : Handle) :
    Siblings → (calls : Refreshes K V := .written) → Except Fault (Arena (Node K V) × Event)
  | ⟨parent, some left, _⟩, calls => mergeNodes nodes left h parent calls
  | ⟨parent, none, some right⟩, calls => mergeNodes nodes h right parent calls
  | ⟨_, none, none⟩, _ => .error .loneNode

/-! ## The climb to the root -/

/-- Puts the only child of a root in its place; any other root stays. -/
def collapseRoot (tree : Tree K V) : Except Fault (Tree K V × List Event) := do
  match ← tree.nodes.get tree.root with
  | .leaf _ => return (tree, [])
  | .branch root =>
    if root.childCount = 1 then
      let child ← root.child 0
      let nodes ← tree.nodes.free tree.root
      let nodes ← setParent nodes child none
      let tree := { tree with nodes, root := child }
      return (tree, [.collapsed child (← tree.height)])
    else return (tree, [])

/-- Brings a short node back to its minimum, and then each ancestor that becomes short.  The first
argument bounds their number. -/
def mergeUpward : Nat → Tree K V → Handle → (calls : Refreshes K V := .written) →
    Except Fault (Tree K V × List Event)
  | 0, _, _, _ => .error .endlessLinks
  | levels + 1, tree, h, calls => do
    match ← siblings tree.nodes h with
    | none => tree.collapseRoot
    | some beside =>
      if tree.fanout.min ≤ (← tree.nodes.get h).keyCount then return (tree, [])
      else match ← tree.lender? beside with
        | some (side, lender) =>
          let (nodes, event) ← borrow tree.nodes side h lender beside.parent calls
          return ({ tree with nodes }, [event])
        | none =>
          let (nodes, event) ← mergeWithSibling tree.nodes h beside calls
          -- The parent has lost a child, so it may be short now.
          let (tree, events) ← mergeUpward levels { tree with nodes } beside.parent calls
          return (tree, event :: events)

/-- Brings a short node and each ancestor that becomes short back to their minimum. -/
def resolveUnderflow (tree : Tree K V) (h : Handle) (calls : Refreshes K V := .written) :
    Except Fault (Tree K V × List Event) :=
  mergeUpward tree.nodes.slotCount tree h calls

end OrderedIndex.Tree
