import OrderedIndex.Cut

/-!
# Search among sorted keys

The search halves a window of candidates until one is left.  On sorted keys it finds the key if it
is there, and the place where it belongs if it is not; on other keys it still ends, and at a place
that only the order of the halvings determines.
-/

namespace OrderedIndex

/-- The outcome of a search among the keys of a leaf. -/
inductive Probe where
  /-- The key stands at this position. -/
  | found (position : Nat)
  /-- The key is absent, and would be inserted at this position. -/
  | absent (position : Nat)
  deriving DecidableEq

namespace Probe

/-- The position of the key, or the one where it would be inserted. -/
def position : Probe → Nat
  | .found i => i
  | .absent i => i

end Probe

variable {K : Type}

/-- Halves the window of `width` keys from `start` on until one key is left, and answers its
position: of two halves the upper one is kept where its first key is not above the search key.
The first argument bounds the number of halvings. -/
def narrow (cut : Cut K) (keys : List K) : Nat → Nat → Nat → Nat
  | 0, start, _ => start
  | halvings + 1, start, width =>
    if width ≤ 1 then start
    else
      let middle := start + width / 2
      let start := match keys[middle]? with
        | some k => if cut k = .gt then start else middle
        | none => start
      narrow cut keys halvings start (width - width / 2)

/-- Searches the keys for the one that compares equal. -/
def search (cut : Cut K) (keys : List K) : Probe :=
  let i := narrow cut keys keys.length 0 keys.length
  match keys[i]? with
  | none => .absent 0
  | some k => match cut k with
    | .eq => .found i
    | .lt => .absent (i + 1)
    | .gt => .absent i

end OrderedIndex
