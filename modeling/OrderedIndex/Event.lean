import OrderedIndex.Handle

/-!
# Structural events

The record that an operation leaves of each change of the tree's structure: which node was divided,
joined to another or given an entry by a sibling, and which node became the root.  Entries that
come, go or change without any of these leave no record.
-/

namespace OrderedIndex

/-- How much attention an event asks for. -/
inductive Level where
  | trace
  | debug
  deriving DecidableEq

/-- A change of the tree's structure.  The numbers are those right after the change. -/
inductive Event where
  /-- The upper half of `left` moved into the new node `right`. -/
  | split (left right : Handle) (leaf : Bool) (leftKeys rightKeys : Nat)
  /-- A new root was placed above the two halves of the old one. -/
  | promoted (root : Handle) (height : Nat)
  /-- An entry or child moved to `node` from the sibling `lender` on the given side. -/
  | borrowed (side : Side) (node lender : Handle) (keys : Nat)
  /-- The contents of `released` moved to `survivor`. -/
  | merged (survivor released : Handle) (keys : Nat)
  /-- The only child of the old root became the root. -/
  | collapsed (root : Handle) (height : Nat)
  deriving DecidableEq

/-- A datum of an event. -/
inductive Datum where
  | handle (h : Handle)
  | count (n : Nat)
  | flag (b : Bool)
  deriving DecidableEq

/-- The text of a level. -/
def Level.text : Level → String
  | .trace => "TRACE"
  | .debug => "DEBUG"

namespace Event

/-- A change of the root asks for more attention than the others, which are frequent. -/
def level : Event → Level
  | .split .. | .borrowed .. | .merged .. => .trace
  | .promoted .. | .collapsed .. => .debug

/-- The wording of each event. -/
def message : Event → String
  | .split .. => "split node"
  | .promoted .. => "promoted new root"
  | .borrowed .left .. => "borrowed from left"
  | .borrowed .right .. => "borrowed from right"
  | .merged .. => "merged nodes"
  | .collapsed .. => "collapsed root"

/-- The data of an event with their names. -/
def data : Event → List (String × Datum)
  | .split left right leaf leftKeys rightKeys =>
    [("left", .handle left), ("right", .handle right), ("leaf", .flag leaf),
      ("left_keys", .count leftKeys), ("right_keys", .count rightKeys)]
  | .promoted root height => [("root", .handle root), ("height", .count height)]
  | .borrowed _ node lender keys =>
    [("node", .handle node), ("lender", .handle lender), ("keys", .count keys)]
  | .merged survivor released keys =>
    [("survivor", .handle survivor), ("released", .handle released), ("keys", .count keys)]
  | .collapsed root height => [("root", .handle root), ("height", .count height)]

end Event

end OrderedIndex
