/-!
# Handles and sides

A handle names a slot of an arena by its number.  Nodes refer to their parent, their children and
the next leaf by handles only.  A node lies between two siblings, the one with the smaller keys to
its left and the one with the larger keys to its right.
-/

namespace OrderedIndex

/-- The name of a slot of an arena. -/
structure Handle where
  /-- The number of the slot; the first slot is 0. -/
  index : Nat
  deriving DecidableEq

namespace Handle

/-- The largest slot number that a handle made from a number can have. -/
def maxIndex : Nat := 4294967294

/-- The text of a handle in diagnostic output, which counts slots from 1. -/
def text (h : Handle) : String := "Handle(" ++ toString (h.index + 1) ++ ")"

end Handle

/-- The side of a node on which a sibling stands. -/
inductive Side where
  | left
  | right
  deriving DecidableEq

end OrderedIndex
