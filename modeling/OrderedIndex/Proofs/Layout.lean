import Mathlib.Data.Multiset.MapFold
import Mathlib.Algebra.BigOperators.Group.List.Basic
import Mathlib.Algebra.Order.Group.Multiset
import Mathlib.Tactic.Abel
import OrderedIndex.Fanout
import OrderedIndex.Node.Basic
import OrderedIndex.Proofs.Ascending

/-!
# Layouts

A layout is a tree as a value, without links to follow.  Each of its nodes is a block: a handle with
pairs of a key and what stands beside it, which is a value in a leaf and the subtree below in a
branch.  The number of levels is part of the type of a subtree, so all leaves of a layout are at one
depth.

From a layout one reads off the cells that lay it out in an arena, its leaves from left to right and
its entries.  What makes a layout sound is said in terms of these: cached keys are exact, blocks are
filled within the bounds of the fanout, leaves are linked in their order, and entries ascend.
-/

namespace OrderedIndex

/-- A node of a layout. -/
structure Block (K A : Type) where
  /-- The slot in which the node stands. -/
  handle : Handle
  /-- The link to the leaf that follows.  It counts in leaves only. -/
  next : Option Handle
  /-- The keys with what stands beside each of them. -/
  pairs : List (K × A)

/-- What stands beside the keys of a block with `n` levels below it. -/
abbrev Beside (K V : Type) : Nat → Type
  | 0 => V
  | n + 1 => Block K (Beside K V n)

/-- The subtrees with `n` levels of branches above their leaves. -/
abbrev Subtree (K V : Type) (n : Nat) := Block K (Beside K V n)

variable {K V A : Type} {n : Nat}

namespace Block

/-- The number of pairs. -/
def count (b : Block K A) : Nat := b.pairs.length

/-- The last key. -/
def maxKey? (b : Block K A) : Option K := (b.pairs.map Prod.fst).getLast?

theorem maxKey?_isSome (b : Block K A) : b.maxKey?.isSome ↔ 0 < b.count := by
  simp [maxKey?, count, List.length_pos_iff]

/-! ## Cells -/

/-- The keys of a block and beside each of them what stands there. -/
def columns (b : Block K A) : Columns K A := ⟨b.pairs.map Prod.fst, b.pairs.map Prod.snd⟩

/-- The leaf that a block of values stands for. -/
def toLeaf (parent : Option Handle) (b : Block K V) : Leaf K V :=
  ⟨⟨b.pairs.map Prod.fst, b.pairs.map Prod.snd⟩, b.next, parent⟩

/-- The branch that a block of subtrees stands for. -/
def toBranch (parent : Option Handle) (b : Block K (Block K A)) : Branch K :=
  ⟨⟨b.pairs.map Prod.fst, b.pairs.map fun slot => slot.2.handle⟩, parent⟩

@[simp] theorem keyCount_toLeaf (parent : Option Handle) (b : Block K V) :
    (b.toLeaf parent).keyCount = b.count := by
  simp [toLeaf, Columns.keyCount, count]

@[simp] theorem childCount_toBranch (parent : Option Handle) (b : Block K (Block K A)) :
    (b.toBranch parent).childCount = b.count := by
  simp [toBranch, Branch.childCount, Branch.children, count]

/-- The node that a block stands for. -/
def node (parent : Option Handle) : {n : Nat} → Subtree K V n → Node K V
  | 0, b => .leaf (toLeaf parent b)
  | _ + 1, b => .branch (toBranch parent b)

/-- The cells of a subtree whose topmost block has the given parent. -/
def cells (parent : Option Handle) : {n : Nat} → Subtree K V n → Multiset (Handle × Node K V)
  | 0, b => {(b.handle, b.node parent)}
  | _ + 1, b => (b.handle, b.node parent) ::ₘ
      (b.pairs.map fun slot => cells (some b.handle) slot.2).sum

/-- The handles of a subtree. -/
def handles : {n : Nat} → Subtree K V n → Multiset Handle
  | 0, b => {b.handle}
  | _ + 1, b => b.handle ::ₘ (b.pairs.map fun slot => handles slot.2).sum

/-! ## Leaves -/

/-- The leaves of a subtree from left to right. -/
def leaves : {n : Nat} → Subtree K V n → List (Block K V)
  | 0, b => [b]
  | _ + 1, b => b.pairs.flatMap fun slot => leaves slot.2

/-! ## Soundness -/

/-- Each cached key is the last key of the subtree beside it. -/
def Exact : {n : Nat} → Subtree K V n → Prop
  | 0, _ => True
  | _ + 1, b => ∀ slot ∈ b.pairs, slot.2.maxKey? = some slot.1 ∧ Exact slot.2

/-- Each block below the topmost one holds as many pairs as the fanout asks for and allows. -/
def FilledBelow (fanout : Fanout) : {n : Nat} → Subtree K V n → Prop
  | 0, _ => True
  | _ + 1, b => ∀ slot ∈ b.pairs,
      (fanout.min ≤ slot.2.count ∧ slot.2.count ≤ fanout.max) ∧ FilledBelow fanout slot.2

/-- No branch is without children. -/
def Populated : {n : Nat} → Subtree K V n → Prop
  | 0, _ => True
  | _ + 1, b => b.pairs ≠ [] ∧ ∀ slot ∈ b.pairs, Populated slot.2

end Block

/-! ## Some subtrees side by side -/

/-- The cells of some subtrees whose topmost blocks have the same parent. -/
def cellsEach (parent : Option Handle) (slots : List (K × Subtree K V n)) :
    Multiset (Handle × Node K V) :=
  (slots.map fun slot => slot.2.cells parent).sum

/-- The handles of some subtrees. -/
def handlesEach (slots : List (K × Subtree K V n)) : Multiset Handle :=
  (slots.map fun slot => slot.2.handles).sum

/-- The leaves of some subtrees. -/
def leavesEach (slots : List (K × Subtree K V n)) : List (Block K V) :=
  slots.flatMap fun slot => slot.2.leaves

/-- Each of some keys is the last key of the subtree beside it, which is exact itself. -/
def ExactEach (slots : List (K × Subtree K V n)) : Prop :=
  ∀ slot ∈ slots, slot.2.maxKey? = some slot.1 ∧ slot.2.Exact

/-- Each of some subtrees is filled within the bounds of the fanout. -/
def FilledEach (fanout : Fanout) (slots : List (K × Subtree K V n)) : Prop :=
  ∀ slot ∈ slots,
    (fanout.min ≤ slot.2.count ∧ slot.2.count ≤ fanout.max) ∧ slot.2.FilledBelow fanout

/-- The entries of some leaves. -/
def entriesOf (leaves : List (Block K V)) : List (K × V) := leaves.flatMap Block.pairs

/-- The handle of the first of some blocks, or `next` where there is none. -/
def firstOr (next : Option Handle) : List (Block K A) → Option Handle
  | [] => next
  | leaf :: _ => some leaf.handle

/-- Each block is linked to the one that follows, and the last one to `next`. -/
def Linked (next : Option Handle) : List (Block K A) → Prop
  | [] => True
  | leaf :: leaves => leaf.next = firstOr next leaves ∧ Linked next leaves

section Lists

variable {parent next : Option Handle} {slot : K × Subtree K V n}
  {slots slots' : List (K × Subtree K V n)} {leaves leaves' : List (Block K V)}

@[simp] theorem cellsEach_nil : cellsEach parent ([] : List (K × Subtree K V n)) = 0 := rfl

@[simp] theorem cellsEach_cons :
    cellsEach parent (slot :: slots) = slot.2.cells parent + cellsEach parent slots := by
  simp [cellsEach]

@[simp] theorem cellsEach_append :
    cellsEach parent (slots ++ slots') = cellsEach parent slots + cellsEach parent slots' := by
  simp [cellsEach]

theorem mem_cellsEach {cell : Handle × Node K V} :
    cell ∈ cellsEach parent slots ↔ ∃ slot ∈ slots, cell ∈ slot.2.cells parent := by
  -- A subtree may occur twice as a value, so the slot is found in the list and not in the sum.
  induction slots with
  | nil => simp
  | cons slot slots ih => simp [ih]

@[simp] theorem handlesEach_nil : handlesEach ([] : List (K × Subtree K V n)) = 0 := rfl

@[simp] theorem handlesEach_cons :
    handlesEach (slot :: slots) = slot.2.handles + handlesEach slots := by
  simp [handlesEach]

@[simp] theorem handlesEach_append :
    handlesEach (slots ++ slots') = handlesEach slots + handlesEach slots' := by
  simp [handlesEach]

@[simp] theorem leavesEach_nil : leavesEach ([] : List (K × Subtree K V n)) = [] := rfl

@[simp] theorem leavesEach_cons :
    leavesEach (slot :: slots) = slot.2.leaves ++ leavesEach slots := by
  simp [leavesEach]

@[simp] theorem leavesEach_append :
    leavesEach (slots ++ slots') = leavesEach slots ++ leavesEach slots' := by
  simp [leavesEach]

@[simp] theorem exactEach_nil : ExactEach ([] : List (K × Subtree K V n)) := by
  simp [ExactEach]

@[simp] theorem exactEach_cons : ExactEach (slot :: slots) ↔
    (slot.2.maxKey? = some slot.1 ∧ slot.2.Exact) ∧ ExactEach slots := by
  simp [ExactEach]

@[simp] theorem exactEach_append :
    ExactEach (slots ++ slots') ↔ ExactEach slots ∧ ExactEach slots' :=
  List.forall_mem_append

@[simp] theorem filledEach_nil {fanout : Fanout} :
    FilledEach fanout ([] : List (K × Subtree K V n)) := by
  simp [FilledEach]

@[simp] theorem filledEach_cons {fanout : Fanout} : FilledEach fanout (slot :: slots) ↔
    ((fanout.min ≤ slot.2.count ∧ slot.2.count ≤ fanout.max) ∧ slot.2.FilledBelow fanout) ∧
      FilledEach fanout slots := by
  simp [FilledEach]

@[simp] theorem filledEach_append {fanout : Fanout} : FilledEach fanout (slots ++ slots') ↔
    FilledEach fanout slots ∧ FilledEach fanout slots' :=
  List.forall_mem_append

@[simp] theorem entriesOf_nil : entriesOf ([] : List (Block K V)) = [] := rfl

@[simp] theorem entriesOf_cons {leaf : Block K V} :
    entriesOf (leaf :: leaves) = leaf.pairs ++ entriesOf leaves := by
  simp [entriesOf]

@[simp] theorem entriesOf_append :
    entriesOf (leaves ++ leaves') = entriesOf leaves ++ entriesOf leaves' := by
  simp [entriesOf]

@[simp] theorem firstOr_append {chain chain' : List (Block K A)} :
    firstOr next (chain ++ chain') = firstOr (firstOr next chain') chain := by
  cases chain with
  | nil => rfl
  | cons b chain => rfl

/-- Two chains in sequence are a chain if the first one leads to the second one. -/
theorem linked_append {chain chain' : List (Block K A)} : Linked next (chain ++ chain') ↔
    Linked (firstOr next chain') chain ∧ Linked next chain' := by
  -- The first chain is linked to the head of the second, which is all that its last block can see.
  induction chain with
  | nil => simp [Linked]
  | cons b chain ih => simp [Linked, ih, and_assoc]

end Lists

namespace Block

variable {parent : Option Handle} {fanout : Fanout}

/-! ## Nodes -/

section Node

variable (b : Subtree K V n)

@[simp] theorem keyCount_node : (b.node parent).keyCount = b.count := by
  cases n with
  | zero => simp [node, toLeaf, Node.keyCount, Columns.keyCount, count]
  | succ n => simp [node, toBranch, Node.keyCount, Columns.keyCount, count]

@[simp] theorem maxKey?_node : (b.node parent).maxKey? = b.maxKey? := by
  cases n with
  | zero => rfl
  | succ n => rfl

@[simp] theorem parent_node : (b.node parent).parent = parent := by
  cases n with
  | zero => rfl
  | succ n => rfl

@[simp] theorem setParent_node {parent' : Option Handle} :
    (b.node parent).setParent parent' = b.node parent' := by
  cases n with
  | zero => rfl
  | succ n => rfl

end Node

/-! ## Cells -/

/-- The cells below the topmost block of a subtree. -/
def below : {n : Nat} → Subtree K V n → Multiset (Handle × Node K V)
  | 0, _ => 0
  | _ + 1, b => cellsEach (some b.handle) b.pairs

theorem cells_eq (b : Subtree K V n) : b.cells parent = (b.handle, b.node parent) ::ₘ b.below := by
  cases n with
  | zero => rfl
  | succ n => rfl

theorem cells_succ (b : Subtree K V (n + 1)) :
    b.cells parent = (b.handle, b.node parent) ::ₘ cellsEach (some b.handle) b.pairs := rfl

theorem cells_leaf (b : Block K V) :
    cells (n := 0) parent b = {(b.handle, .leaf (b.toLeaf parent))} := rfl

theorem cells_branch (b : Subtree K V (n + 1)) : b.cells parent =
    {(b.handle, .branch (b.toBranch parent))} + cellsEach (some b.handle) b.pairs :=
  (Multiset.singleton_add _ _).symm

theorem mem_cells_self (b : Subtree K V n) : (b.handle, b.node parent) ∈ b.cells parent := by
  rw [cells_eq]
  exact Multiset.mem_cons_self _ _

theorem mem_cells_add (b : Subtree K V n) (rest : Multiset (Handle × Node K V)) :
    (b.handle, b.node parent) ∈ b.cells parent + rest :=
  Multiset.mem_add.2 (.inl b.mem_cells_self)

/-- The cells of the subtree beside a key are among those of the whole. -/
theorem cells_le_cellsEach {slots : List (K × Subtree K V n)} {slot : K × Subtree K V n}
    (hslot : slot ∈ slots) : slot.2.cells parent ≤ cellsEach parent slots := by
  -- The slot stands somewhere in the list, and the sum is taken apart there.
  obtain ⟨before, after, rfl⟩ := List.append_of_mem hslot
  rw [cellsEach_append, cellsEach_cons]
  exact (Multiset.le_add_right _ _).trans (Multiset.le_add_left _ _)

theorem handles_succ (b : Subtree K V (n + 1)) :
    b.handles = b.handle ::ₘ handlesEach b.pairs := rfl

theorem map_fst_cells (b : Subtree K V n) : (b.cells parent).map Prod.fst = b.handles := by
  induction n generalizing parent with
  | zero => rfl
  | succ n ih =>
    -- The children are all of the same height, so a second induction goes through their list.
    have heach : ∀ slots : List (K × Subtree K V n),
        (cellsEach (some b.handle) slots).map Prod.fst = handlesEach slots := by
      intro slots
      induction slots with
      | nil => rfl
      | cons slot slots ihs => rw [cellsEach_cons, Multiset.map_add, ih, ihs, handlesEach_cons]
    rw [cells_succ, Multiset.map_cons, heach, handles_succ]

theorem handle_mem_handles (b : Subtree K V n) : b.handle ∈ b.handles := by
  cases n with
  | zero => exact Multiset.mem_singleton_self _
  | succ n => exact Multiset.mem_cons_self _ _

theorem mem_handlesEach {slots : List (K × Subtree K V n)} {slot : K × Subtree K V n} {h : Handle}
    (hslot : slot ∈ slots) (hh : h ∈ slot.2.handles) : h ∈ handlesEach slots := by
  -- As for the cells, the sum of the handles is taken apart where the slot stands.
  obtain ⟨before, after, rfl⟩ := List.append_of_mem hslot
  rw [handlesEach_append, handlesEach_cons]
  exact Multiset.mem_add.2 (.inr (Multiset.mem_add.2 (.inl hh)))

theorem handle_mem_handlesEach {slots : List (K × Subtree K V n)} {slot : K × Subtree K V n}
    (hslot : slot ∈ slots) : slot.2.handle ∈ handlesEach slots :=
  mem_handlesEach hslot slot.2.handle_mem_handles

/-! ## Leaves and entries -/

/-- The entries of a subtree from left to right. -/
def entries (b : Subtree K V n) : List (K × V) := entriesOf b.leaves

@[simp] theorem leaves_zero (b : Block K V) : leaves (n := 0) b = [b] := rfl

theorem leaves_succ (b : Subtree K V (n + 1)) : b.leaves = leavesEach b.pairs := rfl

theorem entries_zero (b : Block K V) : entries (n := 0) b = b.pairs := by
  simp [entries]

theorem entries_succ (b : Subtree K V (n + 1)) : b.entries = entriesOf (leavesEach b.pairs) := rfl

/-- Each leaf of a subtree has a cell in it. -/
theorem exists_mem_cells_of_mem_leaves {b : Subtree K V n} {leaf : Block K V}
    (hleaf : leaf ∈ b.leaves) :
    ∃ above, (leaf.handle, Node.leaf (leaf.toLeaf above)) ∈ b.cells parent := by
  induction n generalizing parent with
  | zero =>
    obtain rfl := List.mem_singleton.1 hleaf
    exact ⟨parent, mem_cells_self (n := 0) leaf⟩
  | succ n ih =>
    -- The leaf is below one of the children, whose cells are among those of the whole.
    obtain ⟨slot, hslot, hmem⟩ := List.mem_flatMap.1 hleaf
    obtain ⟨above, habove⟩ : ∃ above, (leaf.handle, Node.leaf (leaf.toLeaf above)) ∈
        slot.2.cells (some b.handle) := ih hmem
    refine ⟨above, ?_⟩
    rw [cells_succ]
    exact Multiset.mem_cons_of_mem (Multiset.mem_of_le (cells_le_cellsEach hslot) habove)

/-! ## Soundness -/

theorem exact_succ (b : Subtree K V (n + 1)) : b.Exact ↔ ExactEach b.pairs := Iff.rfl

/-- A block whose pairs are from filled ones has filled children. -/
theorem FilledBelow.of_subset {b b₁ b₂ : Subtree K V n} (h₁ : b₁.FilledBelow fanout)
    (h₂ : b₂.FilledBelow fanout) (hsub : ∀ slot ∈ b.pairs, slot ∈ b₁.pairs ∨ slot ∈ b₂.pairs) :
    b.FilledBelow fanout := by
  cases n with
  | zero => trivial
  | succ n =>
    -- Above the leaves, the pairs of a block are its children, and nothing else is asked of them.
    intro slot hslot
    exact (hsub slot hslot).elim (h₁ slot) (h₂ slot)

/-- A block whose pairs are from exact ones is exact. -/
theorem Exact.of_subset {b b₁ b₂ : Subtree K V n} (h₁ : b₁.Exact) (h₂ : b₂.Exact)
    (hsub : ∀ slot ∈ b.pairs, slot ∈ b₁.pairs ∨ slot ∈ b₂.pairs) : b.Exact := by
  cases n with
  | zero => trivial
  | succ n =>
    intro slot hslot
    exact (hsub slot hslot).elim (h₁ slot) (h₂ slot)

/-- Filled blocks have children. -/
theorem FilledBelow.populated {b : Subtree K V n} (hf : b.FilledBelow fanout) (hpos : 0 < b.count) :
    b.Populated := by
  induction n with
  | zero => trivial
  | succ n ih =>
    refine ⟨List.ne_nil_of_length_pos hpos, ?_⟩
    intro slot hslot
    have hmin := fanout.two_le_min
    -- A filled child has at least the smallest number of pairs, which is not zero.
    have hslot := hf slot hslot
    exact ih hslot.2 (by omega)

/-- An exact block with a last key has children, and so has each branch below it. -/
theorem Exact.populated {b : Subtree K V n} (he : b.Exact) (hmax : b.maxKey?.isSome) :
    b.Populated := by
  induction n with
  | zero => trivial
  | succ n ih =>
    refine ⟨List.ne_nil_of_length_pos (b.maxKey?_isSome.1 hmax), ?_⟩
    -- The last key of a child is the key cached for it, so there is one on the next level.
    intro slot hslot
    have hslot := he slot hslot
    exact ih hslot.2 (by rw [hslot.1]; rfl)

/-- There is a block on each level. -/
theorem Populated.lt_card_cells {b : Subtree K V n} (hp : b.Populated) :
    n < (b.cells parent).card := by
  induction n generalizing parent with
  | zero => simp [cells]
  | succ n ih =>
    -- Below any child there is a cell for each level that is left, and the block adds one.
    obtain ⟨slot, hslot⟩ := List.exists_mem_of_ne_nil _ hp.1
    have hchild : n < (slot.2.cells (some b.handle)).card := ih (hp.2 slot hslot)
    have hle : (slot.2.cells (some b.handle)).card ≤ (cellsEach (some b.handle) b.pairs).card :=
      Multiset.card_le_card (cells_le_cellsEach hslot)
    rw [cells_succ, Multiset.card_cons]
    omega

/-- The keys of an exact block stand among the keys of its entries, in the same order. -/
theorem Exact.keys_sublist {b : Subtree K V n} (he : b.Exact) :
    (b.pairs.map Prod.fst).Sublist (b.entries.map Prod.fst) := by
  induction n with
  | zero => rw [entries_zero]
  | succ n ih =>
    -- Each cached key is the last one of the keys beside it, so it is among the keys of the entries
    -- there, and keys and entries go on in the same order.
    have heach : ∀ slots : List (K × Subtree K V n),
        (∀ slot ∈ slots, slot.2.maxKey? = some slot.1 ∧ slot.2.Exact) →
          (slots.map Prod.fst).Sublist ((entriesOf (leavesEach slots)).map Prod.fst) := by
      intro slots hslots
      induction slots with
      | nil => simp
      | cons slot slots ihs =>
        obtain ⟨hmax, hexact⟩ := hslots slot (by simp)
        have hmem : slot.1 ∈ slot.2.entries.map Prod.fst :=
          (ih hexact).subset (List.mem_of_getLast? hmax)
        rw [leavesEach_cons, entriesOf_append, List.map_append]
        exact (List.singleton_sublist.2 hmem).append
          (ihs fun slot hslot => hslots slot (List.mem_cons_of_mem _ hslot))
    exact heach b.pairs he

/-- The last key of an exact block is the key of one of its entries. -/
theorem Exact.maxKey_mem {b : Subtree K V n} (he : b.Exact) {k : K} (hk : b.maxKey? = some k) :
      k ∈ b.entries.map Prod.fst :=
  he.keys_sublist.subset (List.mem_of_getLast? hk)

end Block

/-! ## Whole trees -/

/-- A tree as a value: the number of levels above its leaves, and its root. -/
structure Layout (K V : Type) where
  levels : Nat
  root : Subtree K V levels

namespace Layout

variable (layout : Layout K V)

/-- The cells of a tree, whose root has no parent. -/
def cells : Multiset (Handle × Node K V) := layout.root.cells none

/-- The handles of a tree. -/
def handles : Multiset Handle := layout.root.handles

theorem map_fst_cells : layout.cells.map Prod.fst = layout.handles :=
  Block.map_fst_cells layout.root

/-- The leaves of a tree from left to right. -/
def leaves : List (Block K V) := layout.root.leaves

/-- The entries of a tree from left to right. -/
def entries : List (K × V) := entriesOf layout.leaves

/-- Each block is filled within the bounds of the fanout; a root has no lower bound, but it has at
least two children if it is a branch. -/
structure Filled (fanout : Fanout) : Prop where
  below : layout.root.FilledBelow fanout
  le_max : layout.root.count ≤ fanout.max
  two_le : layout.levels ≠ 0 → 2 ≤ layout.root.count

/-- What holds of the layout of a tree between two operations. -/
structure Sound [Ord K] (fanout : Fanout) : Prop where
  exact : layout.root.Exact
  filled : layout.Filled fanout
  linked : Linked none layout.leaves
  ascending : Ascending (layout.entries.map Prod.fst)

end Layout

end OrderedIndex
