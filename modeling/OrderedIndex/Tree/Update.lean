import OrderedIndex.Tree.Overflow
import OrderedIndex.Tree.Underflow

/-!
# Updates

Insertion, removal and change of entries, one by one and in bulk.  An update whose key is present
already changes a value in place; one that adds or removes an entry restores the order of the cached
maxima first and the occupancy of the nodes after that.
-/

namespace OrderedIndex.Tree

variable {K V : Type}

/-! ## Single entries -/

/-- Writes a value over the one at a position of a leaf, and answers the old one. -/
def writeValue (tree : Tree K V) (h : Handle) (i : Nat) (v : V) : Except Fault (V × Tree K V) := do
  let (old, leaf) ← (← getLeaf tree.nodes h).replaceValue i v
  return (old, { tree with nodes := tree.nodes.put h (.leaf leaf) })

/-- Adds an entry, or writes over the value if the key is present; the stored key then stays.
Answers the old value. -/
def insert [Ord K] (tree : Tree K V) (k : K) (v : V) (calls : Refreshes K V := .written) :
    Except Fault (Outcome K V (Option V)) := do
  let h ← tree.findLeaf (.of k)
  let leaf ← getLeaf tree.nodes h
  match leaf.search (.of k) with
  | .found i =>
    let (old, tree) ← tree.writeValue h i v
    return { result := some old, tree, events := [] }
  | .absent i =>
    let leaf ← leaf.insert i k v
    let nodes := tree.nodes.put h (.leaf leaf)
    -- A key behind all others is a new maximum of the leaf.
    let nodes ← refreshAboveIf (i + 1 == leaf.keyCount) nodes h
    let tree := { tree with nodes, size := tree.size + 1 }
    if tree.fanout.max < leaf.keyCount then
      let (tree, events) ← tree.resolveOverflow h calls
      return { result := none, tree, events }
    else return { result := none, tree, events := [] }

/-- The number of entries without one that is there. -/
def sizeWithoutOne (tree : Tree K V) : Except Fault Nat :=
  match tree.size with
  | 0 => .error .miscounted
  | size + 1 => .ok size

/-- Removes the entry of a key that must be present, and answers its value. -/
def remove (cut : Cut K) (tree : Tree K V) (calls : Refreshes K V := .written) :
    Except Fault (Outcome K V (Except KeyError V)) := do
  let h ← tree.findLeaf cut
  let leaf ← getLeaf tree.nodes h
  match leaf.search cut with
  | .absent _ => return { result := .error .notFound, tree, events := [] }
  | .found i =>
    let ((_, v), leaf) ← leaf.remove i
    let nodes := tree.nodes.put h (.leaf leaf)
    let size ← tree.sizeWithoutOne
    -- The last key is gone, so the one before it is the maximum of the leaf now.
    let nodes ← refreshAboveIf (i == leaf.keyCount) nodes h
    let tree := { tree with nodes, size }
    if leaf.keyCount < tree.fanout.min then
      let (tree, events) ← tree.resolveUnderflow h calls
      return { result := .ok v, tree, events }
    else return { result := .ok v, tree, events := [] }

/-- Writes over the value under a key, if it is present, and answers the old value. -/
def replace? (cut : Cut K) (tree : Tree K V) (v : V) :
    Except Fault (Outcome K V (Option V)) := do
  match ← tree.locate cut with
  | none => return { result := none, tree, events := [] }
  | some (h, i) =>
    let (old, tree) ← tree.writeValue h i v
    return { result := some old, tree, events := [] }

/-- Writes over the value under a key that must be present, and answers the old value. -/
def modify (cut : Cut K) (tree : Tree K V) (v : V) :
    Except Fault (Outcome K V (Except KeyError V)) := do
  let { result, tree, events } ← tree.replace? cut v
  match result with
  | none => return { result := .error .notFound, tree, events }
  | some old => return { result := .ok old, tree, events }

/-! ## Many entries -/

/-- Adds entries in their order, and answers the old values. -/
def insertMany [Ord K] (tree : Tree K V) : List (K × V) → (calls : Refreshes K V := .written) →
    Except Fault (Outcome K V (List (Option V)))
  | [], _ => return { result := [], tree, events := [] }
  | (k, v) :: entries, calls => do
    let one ← tree.insert k v calls
    let many ← insertMany one.tree entries calls
    return { many with result := one.result :: many.result, events := one.events ++ many.events }

/-- Removes keys in their order, each given by its cut, and answers their values. -/
def removeMany (tree : Tree K V) :
    List (Cut K) → Except Fault (Outcome K V (List (Except KeyError V)))
  | [] => return { result := [], tree, events := [] }
  | cut :: cuts => do
    let one ← tree.remove cut
    let many ← removeMany one.tree cuts
    return { many with result := one.result :: many.result, events := one.events ++ many.events }

/-- Adds entries in their order. -/
def extend [Ord K] (tree : Tree K V) (entries : List (K × V))
    (calls : Refreshes K V := .written) : Except Fault (Outcome K V Unit) := do
  let { tree, events, .. } ← tree.insertMany entries calls
  return { result := (), tree, events }

/-- The tree of the standard fanout that holds some entries: of entries with equal keys, the first
key and the last value. -/
def ofList [Ord K] (entries : List (K × V)) : Except Fault (Outcome K V Unit) :=
  (empty .standard).extend entries

end OrderedIndex.Tree
