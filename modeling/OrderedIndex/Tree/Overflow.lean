import OrderedIndex.Tree.Maxima

/-!
# Overfull nodes

An insertion can leave a node with one key more than the fanout allows.  The node is then divided in
two, which adds a child to its parent; so the parent can become overfull in turn.  Only where the
root is divided does the tree grow in height.
-/

namespace OrderedIndex.Tree

variable {K V : Type}

/-- Moves the upper half of a node into a new node to its right, and answers the new one. -/
def splitNode (nodes : Arena (Node K V)) (left : Handle)
    (calls : Refreshes K V := .written) : Except Fault (Handle × Arena (Node K V) × Event) := do
  match ← nodes.get left with
  | .leaf leaf =>
    let (lower, upper) := leaf.split
    let (right, nodes) := nodes.alloc (.leaf upper)
    let nodes := nodes.put left (.leaf { lower with next := some right })
    return (right, nodes, .split left right true lower.keyCount upper.keyCount)
  | .branch branch =>
    let (lower, upper) := branch.split
    let (right, nodes) := nodes.alloc (.branch upper)
    let nodes ← adopt (nodes.put left (.branch lower)) upper.children right
    let nodes ← calls.maxima nodes left
    let nodes ← calls.maxima nodes right
    return (right, nodes,
      .split left right false (← nodes.get left).keyCount (← nodes.get right).keyCount)

/-- Lists a new node directly behind the node that it was divided from. -/
def listSibling (nodes : Arena (Node K V)) (parent left right : Handle) :
    Except Fault (Arena (Node K V)) := do
  let leftMax ← maxKey .emptyHalf nodes left
  let rightMax ← maxKey .emptyHalf nodes right
  modifyBranch nodes parent fun branch => do
    let i ← branch.positionOf left
    (← branch.setKey i leftMax).insertChild (i + 1) rightMax right

/-- Places a new root above the two halves of the old one. -/
def promoteRoot (tree : Tree K V) (left right : Handle) : Except Fault (Tree K V × Event) := do
  let root := (Branch.empty.push (← maxKey .emptyHalf tree.nodes left) left).push
    (← maxKey .emptyHalf tree.nodes right) right
  let (h, nodes) := tree.nodes.alloc (.branch root)
  let nodes ← setParent nodes left (some h)
  let nodes ← setParent nodes right (some h)
  let tree := { tree with nodes, root := h }
  return (tree, .promoted h (← tree.height))

/-- Divides an overfull node, and then each ancestor that becomes overfull.  The first argument
bounds their number. -/
def splitUpward : Nat → Tree K V → Handle → (calls : Refreshes K V := .written) →
    Except Fault (Tree K V × List Event)
  | 0, _, _, _ => .error .endlessLinks
  | levels + 1, tree, left, calls => do
    let (right, nodes, event) ← splitNode tree.nodes left calls
    match (← nodes.get left).parent with
    | none =>
      let (tree, promotion) ← promoteRoot { tree with nodes } left right
      return (tree, [event, promotion])
    | some parent =>
      let nodes ← listSibling nodes parent left right
      if (← nodes.get parent).keyCount ≤ tree.fanout.max then
        let nodes ← calls.above nodes right
        return ({ tree with nodes }, [event])
      else
        -- The new child was one too many for the parent.
        let (tree, events) ← splitUpward levels { tree with nodes } parent calls
        return (tree, event :: events)

/-- Divides an overfull node and each ancestor that becomes overfull. -/
def resolveOverflow (tree : Tree K V) (h : Handle) (calls : Refreshes K V := .written) :
    Except Fault (Tree K V × List Event) :=
  splitUpward tree.nodes.slotCount tree h calls

end OrderedIndex.Tree
