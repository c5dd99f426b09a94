import OrderedIndex.Tree.Basic

/-!
# Cached maxima

A branch caches the largest key below each of its children.  Here these keys are brought up to date
after a change below: along the way to the root, or all those of one branch.

Where nodes are divided, borrow or are merged, those that have got or given children are refreshed
at once.  The updates have these refreshes as their last argument; if nothing else is said, they are
carried out as they are written here (`Refreshes.written`).
-/

namespace OrderedIndex

variable {K V : Type}

namespace Tree

/-- Rewrites the cached maximum of a node in its parent, and goes on with the parent where the node
is its last child: only then is the maximum also the parent's own.  The first argument bounds the
number of levels. -/
def refreshUpward : Nat → Arena (Node K V) → Handle → Except Fault (Arena (Node K V))
  | 0, _, _ => .error .endlessLinks
  | levels + 1, nodes, child => do
    match (← nodes.get child).parent with
    | none => return nodes
    | some parent =>
      let largest ← maxKey .emptyNode nodes child
      let branch ← getBranch nodes parent
      let i ← branch.positionOf child
      let branch ← branch.setKey i largest
      let nodes := nodes.put parent (.branch branch)
      -- Only the last cached key is the maximum of the parent itself.
      if i + 1 = branch.childCount then refreshUpward levels nodes parent else return nodes

/-- Rewrites the cached maxima that stand for a node in the branches above it. -/
def refreshAbove (nodes : Arena (Node K V)) (child : Handle) : Except Fault (Arena (Node K V)) :=
  refreshUpward nodes.slotCount nodes child

/-- Rewrites the cached maxima that stand for a node where its own maximum has changed. -/
def refreshAboveIf (changed : Bool) (nodes : Arena (Node K V)) (child : Handle) :
    Except Fault (Arena (Node K V)) :=
  if changed then refreshAbove nodes child else .ok nodes

/-- Rewrites all cached maxima of one branch. -/
def refreshMaxima (nodes : Arena (Node K V)) (h : Handle) : Except Fault (Arena (Node K V)) := do
  let keys ← (← getBranch nodes h).children.mapM (maxKey .emptyChild nodes)
  modifyBranch nodes h fun branch => .ok (branch.setKeys keys)

end Tree

/-- How the refreshes of nodes that have got or given children are carried out. -/
structure Refreshes (K V : Type) where
  /-- The refresh of all cached maxima of one branch. -/
  maxima : Arena (Node K V) → Handle → Except Fault (Arena (Node K V))
  /-- The refresh of the cached maxima that stand for a node in the branches above it. -/
  above : Arena (Node K V) → Handle → Except Fault (Arena (Node K V))

namespace Refreshes

/-- The refreshes in full. -/
def written : Refreshes K V := ⟨Tree.refreshMaxima, Tree.refreshAbove⟩

@[simp] theorem written_maxima (nodes : Arena (Node K V)) (h : Handle) :
    written.maxima nodes h = Tree.refreshMaxima nodes h := rfl

@[simp] theorem written_above (nodes : Arena (Node K V)) (child : Handle) :
    written.above nodes child = Tree.refreshAbove nodes child := rfl

end Refreshes

end OrderedIndex
