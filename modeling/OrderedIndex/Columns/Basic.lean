import OrderedIndex.Fault

/-!
# Columns

The content of a node stands in two sequences side by side: the keys, and beside each key a value or
a child.  Every operation changes both sequences alike.

The view of two columns is `pairs`.  Columns are `Aligned` if neither is longer than the other; then
`pairs` has lost nothing.
-/

namespace OrderedIndex

/-- A sequence of keys and a sequence of what stands beside each key. -/
structure Columns (K A : Type) where
  keys : List K
  items : List A
  deriving DecidableEq

namespace Columns

variable {K A : Type}

/-! ## Views -/

/-- The pairs of a key and what stands beside it. -/
def pairs (columns : Columns K A) : List (K × A) := columns.keys.zip columns.items

/-- Every key has an item beside it, and every item a key. -/
def Aligned (columns : Columns K A) : Prop := columns.keys.length = columns.items.length

/-! ## Reading -/

/-- The number of keys. -/
def keyCount (columns : Columns K A) : Nat := columns.keys.length

/-- The last key, which is the largest one of a sound node. -/
def maxKey? (columns : Columns K A) : Option K := columns.keys.getLast?

/-- The key at a position. -/
def key (columns : Columns K A) (i : Nat) : Except Fault K :=
  orFault (.outOfBounds columns.keys.length i) columns.keys[i]?

/-- The item at a position. -/
def item (columns : Columns K A) (i : Nat) : Except Fault A :=
  orFault (.outOfBounds columns.items.length i) columns.items[i]?

/-! ## Single pairs -/

/-- Inserts a pair before the one at a position, or behind the last one.  The position is checked
against the keys alone, which are as many as the items in all columns that the operations build;
`insertEach` checks both. -/
def insert (columns : Columns K A) (i : Nat) (k : K) (a : A) : Except Fault (Columns K A) :=
  if i ≤ columns.keys.length then
    .ok ⟨columns.keys.insertIdx i k, columns.items.insertIdx i a⟩
  else .error .insertPastEnd

/-- Inserts into a sequence before the element at a position, or behind the last one. -/
def insertAt {α : Type} (xs : List α) (i : Nat) (x : α) : Except Fault (List α) :=
  if i ≤ xs.length then .ok (xs.insertIdx i x) else .error .insertPastEnd

/-- Inserts a key and then the item beside it, each with a check of its own. -/
def insertEach (columns : Columns K A) (i : Nat) (k : K) (a : A) : Except Fault (Columns K A) := do
  let keys ← insertAt columns.keys i k
  let items ← insertAt columns.items i a
  return ⟨keys, items⟩

/-- Removes the pair at a position. -/
def remove (columns : Columns K A) (i : Nat) : Except Fault ((K × A) × Columns K A) := do
  let k ← orFault .removePastEnd columns.keys[i]?
  let a ← orFault .removePastEnd columns.items[i]?
  return ((k, a), ⟨columns.keys.eraseIdx i, columns.items.eraseIdx i⟩)

/-- Adds a pair behind the others. -/
def push (columns : Columns K A) (k : K) (a : A) : Columns K A :=
  ⟨columns.keys ++ [k], columns.items ++ [a]⟩

/-- Adds a pair in front of the others. -/
def pushFront (columns : Columns K A) (k : K) (a : A) : Columns K A :=
  ⟨k :: columns.keys, a :: columns.items⟩

/-- Removes the last pair, if there is one. -/
def pop? (columns : Columns K A) : Option ((K × A) × Columns K A) := do
  let k ← columns.keys.getLast?
  let a ← columns.items.getLast?
  return ((k, a), ⟨columns.keys.dropLast, columns.items.dropLast⟩)

/-- Removes the first pair, if there is one. -/
def popFront? (columns : Columns K A) : Option ((K × A) × Columns K A) :=
  match columns.keys, columns.items with
  | k :: keys, a :: items => some ((k, a), ⟨keys, items⟩)
  | _, _ => none

/-- Removes the pair next to a node of which these columns are the sibling on the given side. -/
def lend? (columns : Columns K A) : Side → Option ((K × A) × Columns K A)
  | .left => columns.pop?
  | .right => columns.popFront?

/-- Adds a pair that comes from the sibling on the given side. -/
def receive (columns : Columns K A) (k : K) (a : A) : Side → Columns K A
  | .left => columns.pushFront k a
  | .right => columns.push k a

/-! ## Halves -/

/-- What stands before a position, and what stands from there on. -/
def split (columns : Columns K A) (middle : Nat) : Columns K A × Columns K A :=
  (⟨columns.keys.take middle, columns.items.take middle⟩,
   ⟨columns.keys.drop middle, columns.items.drop middle⟩)

/-- The pairs of the one columns and behind them those of the other. -/
def append (columns right : Columns K A) : Columns K A :=
  ⟨columns.keys ++ right.keys, columns.items ++ right.items⟩

end Columns

end OrderedIndex
