import OrderedIndex.Fault

/-!
# Fanout

The capacity of a node.  Every node holds at most `max` keys and every node but the root at least
`min`, which is half of `max`, rounded up.  With `3 ≤ max` the two halves of an overfull node are
both large enough, and two nodes of which one is a key short of `min` fit together in one.
-/

namespace OrderedIndex

/-- The smallest supported capacity. -/
def Fanout.smallest : Nat := 3

/-- The capacity of the nodes of one tree. -/
structure Fanout where
  /-- The largest number of keys in a node. -/
  max : Nat
  smallest_le_max : Fanout.smallest ≤ max
  deriving DecidableEq

namespace Fanout

/-- The capacity of a tree for which none is chosen. -/
def standard : Fanout := ⟨3, Nat.le_refl 3⟩

/-- The fanout of the given capacity, where that is large enough. -/
def ofMax (max : Nat) : Except Fault Fanout :=
  if h : smallest ≤ max then .ok ⟨max, h⟩ else .error .fanoutTooSmall

/-- The smallest number of keys in a node below the root. -/
def min (fanout : Fanout) : Nat := (fanout.max + 1) / 2

/-- The text of a fanout in diagnostic output. -/
def text (fanout : Fanout) : String :=
  "Config \x7b max_keys: " ++ toString fanout.max ++ " \x7d"

theorem three_le_max (fanout : Fanout) : 3 ≤ fanout.max := fanout.smallest_le_max

theorem ofMax_eq_error {max : Nat} (hmax : max < smallest) : ofMax max = .error .fanoutTooSmall :=
  dif_neg (Nat.not_le_of_lt hmax)

theorem ofMax_eq_ok {max : Nat} (hmax : smallest ≤ max) : ofMax max = .ok ⟨max, hmax⟩ :=
  dif_pos hmax

theorem two_le_min (fanout : Fanout) : 2 ≤ fanout.min := by
  have := fanout.three_le_max
  unfold min
  omega

theorem min_lt_max (fanout : Fanout) : fanout.min < fanout.max := by
  have := fanout.three_le_max
  unfold min
  omega

/-- An overfull node has enough keys for two. -/
theorem two_mul_min_le (fanout : Fanout) : 2 * fanout.min ≤ fanout.max + 1 := by
  unfold min
  omega

/-- A node one key short and a node that has none to spare fit together in one. -/
theorem max_le_two_mul_min (fanout : Fanout) : fanout.max ≤ 2 * fanout.min := by
  unfold min
  omega

end Fanout

end OrderedIndex
