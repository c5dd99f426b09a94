import OrderedIndex.Tree.Cursor

/-!
# Traversals

A traversal is a dialogue with some cursors over one tree, of which one is current: each command
asks the current cursor for entries, for what is left, or for a copy of itself that is added to the
others.  What a cursor passes is seen through a `Lens`: whole entries, keys only or values only.
-/

namespace OrderedIndex

/-- What is seen of each entry. -/
inductive Lens where
  | entries
  | keys
  | values
  deriving DecidableEq

/-- What a lens shows of an entry. -/
inductive Item (K V : Type) where
  | entry (k : K) (v : V)
  | key (k : K)
  | value (v : V)
  deriving DecidableEq

instance {K V : Type} [Described K] [Described V] : Described (Item K V) where
  form
    | .entry k v => Described.form (k, v)
    | .key k => Described.form k
    | .value v => Described.form v

/-- An entry as a lens shows it. -/
def Lens.see {K V : Type} : Lens → K × V → Item K V
  | .entries, (k, v) => .entry k v
  | .keys, (k, _) => .key k
  | .values, (_, v) => .value v

/-- What a traversal can be asked for. -/
inductive Command where
  /-- The next item. -/
  | next
  /-- The item behind the next `n`. -/
  | nth (n : Nat)
  /-- The number of items left. -/
  | length
  /-- Bounds on the number of items left. -/
  | sizeHint
  /-- The next `n` items. -/
  | take (n : Nat)
  /-- All items left. -/
  | rest
  /-- The number of items left, which are passed. -/
  | count
  /-- The last item, with all others passed. -/
  | last
  /-- The text of the items left, none of which is passed. -/
  | describe
  /-- A copy of the current cursor. -/
  | clone
  /-- Another current cursor. -/
  | use (i : Nat)
  deriving DecidableEq

/-- What a traversal answers. -/
inductive Reply (K V : Type) where
  | item (item : Option (Item K V))
  | items (items : List (Item K V))
  | count (n : Nat)
  | bounds (lower upper : Nat)
  | text (text : String)
  deriving DecidableEq

/-- Some cursors over one tree, and the number of the current one. -/
structure Traversal where
  cursors : List Cursor
  current : Nat
  deriving DecidableEq

namespace Traversal

variable {K V : Type}

/-- The traversal with one cursor, in front of the first entry. -/
def start (tree : Tree K V) : Except Fault Traversal := do
  return ⟨[← Cursor.start tree], 0⟩

/-- The current cursor. -/
def cursor (traversal : Traversal) : Except Fault Cursor :=
  orFault (.outOfBounds traversal.cursors.length traversal.current)
    traversal.cursors[traversal.current]?

/-- The traversal with another cursor in place of the current one. -/
def setCursor (traversal : Traversal) (cursor : Cursor) : Traversal :=
  { traversal with cursors := traversal.cursors.set traversal.current cursor }

/-- Answers a command. -/
def step [Described K] [Described V] (tree : Tree K V) (lens : Lens) (traversal : Traversal) :
    Command → Except Fault (Reply K V × Traversal)
  | .next => do
    let (entry, cursor) ← (← traversal.cursor).next tree
    return (.item (entry.map lens.see), traversal.setCursor cursor)
  | .nth n => do
    let (entry, cursor) ← (← traversal.cursor).nth tree n
    return (.item (entry.map lens.see), traversal.setCursor cursor)
  | .length => do
    return (.count (← traversal.cursor).remaining, traversal)
  | .sizeHint => do
    let left := (← traversal.cursor).remaining
    return (.bounds left left, traversal)
  | .take n => do
    let (entries, cursor) ← (← traversal.cursor).take tree n
    return (.items (entries.map lens.see), traversal.setCursor cursor)
  | .rest => do
    let (entries, cursor) ← (← traversal.cursor).rest tree
    return (.items (entries.map lens.see), traversal.setCursor cursor)
  | .count => do
    let (entries, cursor) ← (← traversal.cursor).rest tree
    return (.count entries.length, traversal.setCursor cursor)
  | .last => do
    let (entries, cursor) ← (← traversal.cursor).rest tree
    return (.item (entries.getLast?.map lens.see), traversal.setCursor cursor)
  | .describe => do
    let (entries, _) ← (← traversal.cursor).rest tree
    return (.text (Described.form (entries.map lens.see)).inlined, traversal)
  | .clone => do
    let cursor ← traversal.cursor
    return (.count traversal.cursors.length,
      { traversal with cursors := traversal.cursors ++ [cursor] })
  | .use i =>
    if i < traversal.cursors.length then .ok (.count i, { traversal with current := i })
    else .error (.outOfBounds traversal.cursors.length i)

/-- Answers some commands in their order. -/
def run [Described K] [Described V] (tree : Tree K V) (lens : Lens) (traversal : Traversal) :
    List Command → Except Fault (List (Reply K V))
  | [] => .ok []
  | command :: commands => do
    let (reply, traversal) ← traversal.step tree lens command
    return reply :: (← run tree lens traversal commands)

end Traversal

end OrderedIndex
