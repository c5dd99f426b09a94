import OrderedIndex.Tree.Basic

/-!
# The shape of a tree

The nodes below the root with their links, as a value without handles to follow, and the leaves in
the order of their chain.
-/

namespace OrderedIndex

/-- A node with all that is below it. -/
inductive Shape (K V : Type) where
  | leaf (handle : Handle) (parent next : Option Handle) (keys : List K) (values : List V)
  | branch (handle : Handle) (parent : Option Handle) (keys : List K) (children : List (Shape K V))

namespace Tree

variable {K V : Type}

/-- The shape below a node.  The first argument bounds the number of levels. -/
def shapeBelow (nodes : Arena (Node K V)) : Nat → Handle → Except Fault (Shape K V)
  | 0, _ => .error .endlessLinks
  | levels + 1, h => do
    match ← nodes.get h with
    | .leaf leaf => return .leaf h leaf.parent leaf.next leaf.keys leaf.values
    | .branch branch =>
      let children ← branch.children.mapM (shapeBelow nodes levels)
      return .branch h branch.parent branch.keys children

/-- The shape of the whole tree. -/
def shape (tree : Tree K V) : Except Fault (Shape K V) :=
  shapeBelow tree.nodes tree.nodes.slotCount tree.root

/-- The leaves from a given one on, along the chain.  The first argument bounds their number. -/
def chain (nodes : Arena (Node K V)) :
    Nat → Option Handle → Except Fault (List (Handle × Leaf K V))
  | _, none => .ok []
  | 0, some _ => .error .endlessLinks
  | steps + 1, some h => do
    let leaf ← getLeaf nodes h
    return (h, leaf) :: (← chain nodes steps leaf.next)

/-- The leaves in the order of their chain. -/
def leaves (tree : Tree K V) : Except Fault (List (Handle × Leaf K V)) := do
  chain tree.nodes tree.nodes.slotCount (some (← tree.firstLeaf))

end Tree

end OrderedIndex
