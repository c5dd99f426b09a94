/-!
# Cuts

A search key is given by its cut: how each stored key compares with it.  So a key can be looked for
in any form whose order agrees with that of the stored keys.
-/

namespace OrderedIndex

/-- How each stored key compares with a search key. -/
abbrev Cut (K : Type) := K → Ordering

namespace Cut

variable {K Q : Type}

/-- The cut of a key of the stored type. -/
def of [Ord K] (key : K) : Cut K := fun stored => compare stored key

/-- The cut of a key of another type, in the form `view` of which it is looked for. -/
def under [Ord Q] (view : K → Q) (key : Q) : Cut K := fun stored => compare (view stored) key

/-- A cut agrees with the order of the stored keys: those below it come first, then those equal to
it, which are equal to each other, and then those above. -/
structure Agrees [Ord K] (cut : Cut K) : Prop where
  lt_of_le {a b : K} : (compare a b).isLE → cut b = .lt → cut a = .lt
  gt_of_le {a b : K} : (compare a b).isLE → cut a = .gt → cut b = .gt
  eq_compare {a b : K} : cut b = .eq → cut a = compare a b

/-- A form with the same order as the stored keys has cuts that agree with it. -/
theorem agrees_under [Ord K] [Ord Q] [Std.TransOrd Q] {view : K → Q}
    (hview : ∀ a b, compare (view a) (view b) = compare a b) (key : Q) :
    (under view key).Agrees where
  lt_of_le {a b} hle hlt := by
    rw [← hview] at hle
    exact Std.TransCmp.lt_of_isLE_of_lt hle hlt
  gt_of_le {a b} hle hgt := by
    rw [← hview] at hle
    exact Std.OrientedCmp.gt_of_lt
      (Std.TransCmp.lt_of_lt_of_isLE (Std.OrientedCmp.lt_of_gt hgt) hle)
  eq_compare {a b} heq := by
    rw [← hview]
    exact (Std.TransCmp.congr_right heq).symm

theorem agrees_of [Ord K] [Std.TransOrd K] (key : K) : (of key).Agrees :=
  agrees_under (fun _ _ => rfl) key

end Cut

end OrderedIndex
