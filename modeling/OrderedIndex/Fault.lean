import OrderedIndex.Handle

/-!
# Faults and key errors

An operation of the index ends in one of three ways: with a value, with a `KeyError` that the caller
has to expect (the key asked for is absent), or with a `Fault`.  A fault means that an argument was
out of range or that the links between nodes are broken; the state before the operation is kept.
-/

namespace OrderedIndex

/-- The reasons for which an operation stops without an answer. -/
inductive Fault where
  /-- A fanout below the smallest supported one. -/
  | fanoutTooSmall
  /-- A slot number that no handle can name. -/
  | handleTooLarge
  /-- A new slot where there are as many as handles can name. -/
  | arenaFull
  /-- A read through the handle of an empty slot. -/
  | vacantRead
  /-- A write through the handle of an empty slot. -/
  | vacantWrite
  /-- A release of a slot that is already empty. -/
  | vacantTake
  /-- A position at or past the end of a sequence. -/
  | outOfBounds (length index : Nat)
  /-- An insertion beyond the end of a sequence. -/
  | insertPastEnd
  /-- A removal at or past the end of a sequence. -/
  | removePastEnd
  /-- A branch where a leaf is needed. -/
  | expectedLeaf
  /-- A leaf where a branch is needed. -/
  | expectedBranch
  /-- A node that its parent does not list. -/
  | unlistedChild
  /-- A read of the value under a key that is absent. -/
  | absentKey
  /-- A node without keys whose largest key is to be rewritten above it. -/
  | emptyNode
  /-- A child without keys whose largest key is to be cached with those of its siblings. -/
  | emptyChild
  /-- A half without keys of a node that has been divided. -/
  | emptyHalf
  /-- A sibling without entries, on the given side, where one has to be lent. -/
  | emptyLender (side : Side)
  /-- A node below the root that has no sibling. -/
  | loneNode
  /-- A count of entries that is zero although there is an entry. -/
  | miscounted
  /-- Links that lead on for longer than there are nodes, so that a walk without a bound would not
  end. -/
  | endlessLinks
  deriving DecidableEq

/-- The wording of each fault. -/
def Fault.message : Fault → String
  | .fanoutTooSmall => "`Config::new()` - `max_keys` < 3!"
  | .handleTooLarge => "`Handle::from_index()` - `index` > `Handle::MAX`!"
  | .arenaFull =>
    "`Arena::alloc()` - arena is at maximum capacity (" ++ toString Handle.maxIndex ++ ")"
  | .vacantRead => "`Arena::get()` - `handle` is invalid!"
  | .vacantWrite => "`Arena::get_mut()` - `handle` is invalid!"
  | .vacantTake => "`Arena::take()` - `handle` is invalid!"
  | .outOfBounds length index =>
    "index out of bounds: the len is " ++ toString length ++ " but the index is " ++ toString index
  | .insertPastEnd => "index exceeds length"
  | .removePastEnd => "assertion failed: index < len"
  | .expectedLeaf => "expected leaf node"
  | .expectedBranch => "expected internal node"
  | .unlistedChild => "`InternalNode::position_of()` - child is missing from its parent!"
  | .absentKey => "no entry found for key"
  | .emptyNode => "`RawBPlusTree::update_parent()` - non-root node is empty!"
  | .emptyChild => "`RawBPlusTree::update_internal_keys()` - child node is empty!"
  | .emptyHalf => "`RawBPlusTree::max_key_of()` - split produced an empty node!"
  | .emptyLender .left => "`RawBPlusTree::borrow_from_left()` - lender is empty!"
  | .emptyLender .right => "`RawBPlusTree::borrow_from_right()` - lender is empty!"
  | .loneNode =>
    "internal error: entered unreachable code: " ++
      "`RawBPlusTree::rebalance()` - non-root node has no sibling!"
  | .miscounted => "attempt to subtract with overflow"
  | .endlessLinks => "the links between nodes do not end"

/-- The error of an operation that needs its key to be present. -/
inductive KeyError where
  | notFound
  deriving DecidableEq

/-- The wording of each key error. -/
def KeyError.message : KeyError → String
  | .notFound => "key not found"

/-- The value of an option, or the given fault where there is none. -/
def orFault {α : Type} (fault : Fault) : Option α → Except Fault α
  | some x => .ok x
  | none => .error fault

theorem orFault_eq_ok_iff {α : Type} {fault : Fault} {o : Option α} {x : α} :
    orFault fault o = .ok x ↔ o = some x := by
  cases o <;> simp [orFault]

@[simp] theorem ok_bind {α β : Type} (x : α) (second : α → Except Fault β) :
    ((.ok x : Except Fault α) >>= second) = second x := rfl

@[simp] theorem pure_eq_ok {α : Type} (x : α) : (pure x : Except Fault α) = .ok x := rfl

/-- Two operations in sequence answer if the first one does and then the second one. -/
theorem bind_eq_ok_iff {α β : Type} {first : Except Fault α} {second : α → Except Fault β} {y : β} :
    (first >>= second) = .ok y ↔ ∃ x, first = .ok x ∧ second x = .ok y := by
  cases first with
  | error fault => simp [bind, Except.bind]
  | ok x => simp [bind, Except.bind]

theorem pure_eq_ok_iff {α : Type} {x y : α} : (pure x : Except Fault α) = .ok y ↔ x = y := by
  simp [pure, Except.pure]

/-- An operation on each of some arguments in sequence answers if each of the operations does. -/
theorem mapM_cons_eq_ok_iff {α β : Type} {f : α → Except Fault β} {x : α} {xs : List α}
    {ys : List β} : (x :: xs).mapM f = .ok ys ↔
      ∃ y others, f x = .ok y ∧ xs.mapM f = .ok others ∧ ys = y :: others := by
  simp only [List.mapM_cons, bind_eq_ok_iff, pure_eq_ok_iff]
  constructor
  · rintro ⟨y, hy, others, hothers, rfl⟩
    exact ⟨y, others, hy, hothers, rfl⟩
  · rintro ⟨y, others, hy, hothers, rfl⟩
    exact ⟨y, hy, others, hothers, rfl⟩

end OrderedIndex
