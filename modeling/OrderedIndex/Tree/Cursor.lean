import OrderedIndex.Text
import OrderedIndex.Tree.Basic

/-!
# Cursors

A cursor walks over the entries of a tree in key order, along the chain of leaves.  It knows how
many entries are left, and stops when there are none.  What a tree lists, its diagnostic text
included, is read off such a walk.
-/

namespace OrderedIndex

/-- A place between the entries of a tree. -/
structure Cursor where
  /-- The leaf with the next entry; none behind the last leaf. -/
  leaf : Option Handle
  /-- The position of the next entry in this leaf. -/
  index : Nat
  /-- The number of entries that are left. -/
  remaining : Nat
  deriving DecidableEq

namespace Cursor

variable {K V : Type}

/-- The cursor in front of the first entry of a tree. -/
def start (tree : Tree K V) : Except Fault Cursor := do
  return ⟨some (← tree.firstLeaf), 0, tree.size⟩

/-- The next entry, if one is left, and the cursor behind it. -/
def next (tree : Tree K V) (cursor : Cursor) : Except Fault (Option (K × V) × Cursor) :=
  if cursor.remaining = 0 then .ok (none, cursor)
  else match cursor.leaf with
    | none => .ok (none, cursor)
    | some h => do
      let leaf ← Tree.getLeaf tree.nodes h
      let entry := (← leaf.key cursor.index, ← leaf.value cursor.index)
      let left := cursor.remaining - 1
      if cursor.index + 1 < leaf.keyCount then
        return (some entry, ⟨some h, cursor.index + 1, left⟩)
      else return (some entry, ⟨leaf.next, 0, left⟩)

/-- The next `n` entries, or all that are left where these are fewer, and the cursor behind them. -/
def take (tree : Tree K V) : Nat → Cursor → Except Fault (List (K × V) × Cursor)
  | 0, cursor => .ok ([], cursor)
  | n + 1, cursor => do
    match ← cursor.next tree with
    | (none, cursor) => return ([], cursor)
    | (some entry, cursor) =>
      let (entries, cursor) ← take tree n cursor
      return (entry :: entries, cursor)

/-- The entry behind the next `n`, if so many are left, and the cursor behind it. -/
def nth (tree : Tree K V) (n : Nat) (cursor : Cursor) :
    Except Fault (Option (K × V) × Cursor) := do
  let (_, cursor) ← cursor.take tree n
  cursor.next tree

/-- All entries that are left, and the cursor behind them. -/
def rest (tree : Tree K V) (cursor : Cursor) : Except Fault (List (K × V) × Cursor) :=
  cursor.take tree cursor.remaining

end Cursor

namespace Tree

variable {K V : Type}

/-- The entries in key order. -/
def toList (tree : Tree K V) : Except Fault (List (K × V)) := do
  let (entries, _) ← (← Cursor.start tree).rest tree
  return entries

/-- The keys in their order. -/
def keys (tree : Tree K V) : Except Fault (List K) := do
  return (← tree.toList).map (·.1)

/-- The values in the order of their keys. -/
def values (tree : Tree K V) : Except Fault (List V) := do
  return (← tree.toList).map (·.2)

/-- Whether two trees hold equal keys with equal values.  Fanout and shape do not count. -/
def equal [BEq K] [BEq V] (a b : Tree K V) : Except Fault Bool := do
  if a.size ≠ b.size then return false
  return (← a.toList) == (← b.toList)

/-! ## Diagnostic text -/

section Text

variable [Described K] [Described V]

/-- The form of a tree: a mapping from its keys to its values. -/
def form (tree : Tree K V) : Except Fault Form := do
  let entries ← tree.toList
  return .mapping (entries.map fun (k, v) => (Described.form k, Described.form v))

/-- The text of a tree on one line. -/
def inlined (tree : Tree K V) : Except Fault String := do
  return (← tree.form).inlined

/-- The text of a tree with each entry on lines of its own. -/
def spread (tree : Tree K V) : Except Fault String := do
  return (← tree.form).spread

end Text

end Tree

end OrderedIndex
