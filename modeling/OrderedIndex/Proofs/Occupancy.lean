import Mathlib.Algebra.Group.Action.Defs
import Mathlib.Algebra.Order.BigOperators.Group.List
import Mathlib.Algebra.Order.Ring.Nat
import Mathlib.Data.Nat.Log
import OrderedIndex.Proofs.Structure

/-!
# Occupancy

A tree of a given height holds neither too few nor too many entries for it.  A full node multiplies
the entries of its children by the largest number of keys, a node below the root by the smallest one
at least.  Every branch has two children or more, so there are fewer than twice as many nodes as
leaves, and each leaf below a root has its share of the entries.

Of every tree that can be reached by operations it follows that its height is logarithmic in the
number of its entries, and that the number of its nodes is in proportion to it.
-/

namespace OrderedIndex

variable {K V : Type} {n : Nat} {fanout : Fanout}

/-! ## Counting below a block -/

namespace Block

theorem length_entries_succ (b : Subtree K V (n + 1)) :
    b.entries.length = (b.pairs.map fun slot => slot.2.entries.length).sum := by
  have hflat : b.entries = b.pairs.flatMap fun slot => slot.2.entries := List.flatMap_assoc
  rw [hflat, List.length_flatMap]

/-- A subtree has at most as many entries as a full one. -/
theorem FilledBelow.length_entries_le {b : Subtree K V n} (hf : b.FilledBelow fanout)
    (hmax : b.count ≤ fanout.max) : b.entries.length ≤ fanout.max ^ (n + 1) := by
  induction n with
  | zero => rwa [entries_zero, Nat.zero_add, Nat.pow_one]
  | succ n ih =>
    -- Each child is at most full, and its bound is one power lower.
    have heach : ∀ m ∈ b.pairs.map fun slot => slot.2.entries.length, m ≤ fanout.max ^ (n + 1) := by
      intro m hm
      obtain ⟨slot, hslot, rfl⟩ := List.mem_map.1 hm
      exact ih (hf slot hslot).2 (hf slot hslot).1.2
    have hsum := List.sum_le_card_nsmul _ _ heach
    rw [List.length_map, smul_eq_mul] at hsum
    calc b.entries.length
        = (b.pairs.map fun slot => slot.2.entries.length).sum := length_entries_succ b
      _ ≤ b.count * fanout.max ^ (n + 1) := hsum
      _ ≤ fanout.max * fanout.max ^ (n + 1) := Nat.mul_le_mul_right _ hmax
      _ = fanout.max ^ (n + 1 + 1) := Nat.pow_succ'.symm

/-- A branch has at least as many entries as if each node below it had the fewest pairs. -/
theorem FilledBelow.mul_pow_le {b : Subtree K V n} (hf : b.FilledBelow fanout) :
    b.count * fanout.min ^ n ≤ b.entries.length := by
  induction n with
  | zero => rw [entries_zero, Nat.pow_zero, Nat.mul_one, count]
  | succ n ih =>
    -- Each child has the fewest pairs or more, so it has its power of entries.
    have heach : ∀ m ∈ b.pairs.map fun slot => slot.2.entries.length, fanout.min ^ (n + 1) ≤ m := by
      intro m hm
      obtain ⟨slot, hslot, rfl⟩ := List.mem_map.1 hm
      calc fanout.min ^ (n + 1)
          = fanout.min * fanout.min ^ n := Nat.pow_succ'
        _ ≤ slot.2.count * fanout.min ^ n := Nat.mul_le_mul_right _ (hf slot hslot).1.1
        _ ≤ slot.2.entries.length := ih (hf slot hslot).2
    have hsum := List.card_nsmul_le_sum _ _ heach
    rw [List.length_map, smul_eq_mul] at hsum
    rw [length_entries_succ]
    exact hsum

/-- Where no branch has a single child, there are fewer than twice as many nodes as leaves. -/
theorem FilledBelow.card_handles_lt {b : Subtree K V n} (hf : b.FilledBelow fanout)
    (htwo : n ≠ 0 → 2 ≤ b.count) : b.handles.card < 2 * b.leaves.length := by
  induction n with
  | zero => exact Nat.one_lt_two
  | succ n ih =>
    -- Each child is one node short of twice its leaves, and a branch has two children to make up
    -- for itself.
    have heach : ∀ slots : List (K × Subtree K V n), FilledEach fanout slots →
        (handlesEach slots).card + slots.length ≤ 2 * (leavesEach slots).length := by
      intro slots hslots
      induction slots with
      | nil => exact Nat.le_refl 0
      | cons slot slots ihs =>
        rw [filledEach_cons] at hslots
        have hslot : slot.2.handles.card < 2 * slot.2.leaves.length :=
          ih hslots.1.2 fun _ => fanout.two_le_min.trans hslots.1.1.1
        have hrest := ihs hslots.2
        rw [handlesEach_cons, Multiset.card_add, List.length_cons, leavesEach_cons,
          List.length_append]
        omega
    have hchildren := heach b.pairs hf
    have hcount : 2 ≤ b.pairs.length := htwo (Nat.succ_ne_zero n)
    rw [handles_succ, Multiset.card_cons, leaves_succ]
    omega

/-- Each leaf below a branch has its share of the entries. -/
theorem FilledBelow.mul_length_leaves_le {b : Subtree K V (n + 1)} (hf : b.FilledBelow fanout) :
    b.leaves.length * fanout.min ≤ b.entries.length := by
  -- The sum of the leaves is at least as many times the smallest number as there are leaves.
  have heach : ∀ m ∈ b.leaves.map fun leaf => leaf.pairs.length, fanout.min ≤ m := by
    intro m hm
    obtain ⟨leaf, hleaf, rfl⟩ := List.mem_map.1 hm
    exact hf.min_le_leaves leaf hleaf
  have hsum := List.card_nsmul_le_sum _ _ heach
  rw [List.length_map, smul_eq_mul] at hsum
  rw [entries, entriesOf, List.length_flatMap]
  exact hsum

end Block

/-! ## Whole trees -/

/-- The numbers of entries, levels and nodes of a tree of the given shape and height are in
proportion. -/
structure Tree.Proportioned (tree : Tree K V) (shape : Shape K V) (height : Nat) : Prop where
  height_pos : 1 ≤ height
  size_le : tree.size ≤ tree.fanout.max ^ height
  le_size : 2 ≤ height → 2 * tree.fanout.min ^ (height - 1) ≤ tree.size
  nodes_le : 2 ≤ height → tree.fanout.min * (tree.nodeCount + 1) ≤ 2 * tree.size
  single : height = 1 → tree.nodeCount = 1
  height_le : height ≤ Nat.log tree.fanout.min (tree.size / 2) + 1
  /-- Each node is reached from the root. -/
  nodes_eq : tree.nodeCount = shape.nodes.length

namespace Tree.Carries

variable [Ord K] {tree : Tree K V} {layout : Layout K V}

/-- The nodes are those of the layout. -/
theorem nodeCount_eq (hc : tree.Carries layout) : tree.nodeCount = layout.handles.card := by
  rw [nodeCount, hc.shows.holds.size_eq, ← Layout.map_fst_cells, Multiset.card_map]

/-- A root that is a branch has two children, each with the fewest pairs at least. -/
theorem two_mul_pow_le (hc : tree.Carries layout) (hlevels : layout.levels ≠ 0) :
    2 * tree.fanout.min ^ layout.levels ≤ tree.size := by
  have hfilled := hc.sound.filled
  calc 2 * tree.fanout.min ^ layout.levels
      ≤ layout.root.count * tree.fanout.min ^ layout.levels :=
        Nat.mul_le_mul_right _ (hfilled.two_le hlevels)
    _ ≤ layout.root.entries.length := hfilled.below.mul_pow_le
    _ = tree.size := hc.size.symm

/-- There are fewer than twice as many nodes as leaves, which share the entries. -/
theorem mul_nodeCount_le (hc : tree.Carries layout) (hlevels : layout.levels ≠ 0) :
    tree.fanout.min * (tree.nodeCount + 1) ≤ 2 * tree.size := by
  have hfilled := hc.sound.filled
  have hcard : tree.nodeCount + 1 ≤ 2 * layout.root.leaves.length :=
    hc.nodeCount_eq ▸ hfilled.below.card_handles_lt hfilled.two_le
  have hshare : layout.root.leaves.length * tree.fanout.min ≤ tree.size := by
    have hsize : tree.size = layout.root.entries.length := hc.size
    rw [hsize]
    -- Without a level above the leaves there would be no lower bound.
    obtain ⟨levels, root⟩ := layout
    obtain ⟨levels, rfl⟩ := Nat.exists_eq_succ_of_ne_zero hlevels
    exact hfilled.below.mul_length_leaves_le
  calc tree.fanout.min * (tree.nodeCount + 1)
      ≤ tree.fanout.min * (2 * layout.root.leaves.length) := Nat.mul_le_mul_left _ hcard
    _ = 2 * (layout.root.leaves.length * tree.fanout.min) := by
      rw [Nat.mul_left_comm, Nat.mul_comm tree.fanout.min]
    _ ≤ 2 * tree.size := Nat.mul_le_mul_left _ hshare

/-- A tree that carries a layout is in proportion. -/
theorem proportioned (hc : tree.Carries layout) :
    tree.Proportioned (layout.root.shape none) (layout.levels + 1) where
  height_pos := Nat.succ_pos _
  size_le := by
    have hsize : tree.size = layout.root.entries.length := hc.size
    rw [hsize]
    exact hc.sound.filled.below.length_entries_le hc.sound.filled.le_max
  le_size hheight := hc.two_mul_pow_le (by omega)
  nodes_le hheight := hc.mul_nodeCount_le (by omega)
  single hheight := by
    have hcount := hc.nodeCount_eq
    obtain ⟨levels, root⟩ := layout
    obtain rfl : levels = 0 := Nat.succ.inj hheight
    exact hcount
  height_le := by
    -- The power of the lower bound is what the logarithm counts.
    by_cases hlevels : layout.levels = 0
    · rw [hlevels]
      exact Nat.succ_le_succ (Nat.zero_le _)
    · refine Nat.succ_le_succ (Nat.le_log_of_pow_le tree.fanout.two_le_min ?_)
      exact (Nat.le_div_iff_mul_le Nat.two_pos).2 (Nat.mul_comm _ 2 ▸ hc.two_mul_pow_le hlevels)
  nodes_eq := by
    rw [hc.nodeCount_eq, Layout.handles, ← Block.coe_nodes_shape layout.root none,
      Multiset.coe_card, List.length_map]

end Tree.Carries

/-! ## Every reachable tree -/

/-- Height and size are bounded by each other.  For every fanout and every run of operations from
the empty tree, the numbers of entries, levels and nodes are in proportion. -/
theorem run_proportioned [Ord K] [Std.TransOrd K] (fanout : Fanout)
    (operations : List (Operation K V)) :
    ∃ answers session shape height, (Session.start fanout).run operations = .ok (answers, session) ∧
      session.tree.fanout = fanout ∧ session.tree.shape = .ok shape ∧
      session.tree.height = .ok height ∧ session.tree.Proportioned shape height := by
  obtain ⟨session, layout, hrun, hs, -⟩ :=
    Session.run_eq (Session.start_carries fanout) operations
  have hc : session.tree.Carries layout := hs.tree
  exact ⟨_, session, _, _, hrun, hs.fanout_eq, hc.shape_eq,
    Tree.height_eq hc.shows hc.populated, hc.proportioned⟩

/-- With three keys to a node, four entries are the fewest in a tree of two levels, and three nodes
the most for them. -/
theorem run_proportioned_fewest :
    ∃ (session : Session Nat Nat) (shape : Shape Nat Nat),
      session.tree.size = 4 ∧ session.tree.nodeCount = 3 ∧ session.tree.Proportioned shape 2 := by
  obtain ⟨answers, session, shape, height, hrun, -, -, hheight, hproportioned⟩ :=
    run_proportioned .standard (insertTens 4)
  -- The run is evaluated for the three numbers, which meet both lower bounds.
  have hnumbers : ((Session.start .standard).run (insertTens 4)).bind (fun r =>
      r.2.tree.height.map fun height => (r.2.tree.size, r.2.tree.nodeCount, height)) =
      .ok (4, 3, 2) := by rfl
  rw [hrun] at hnumbers
  have hmap : (session.tree.height.map fun height =>
      (session.tree.size, session.tree.nodeCount, height)) = .ok (4, 3, 2) := hnumbers
  rw [hheight] at hmap
  obtain ⟨hsize, hnodes, rfl⟩ : session.tree.size = 4 ∧ session.tree.nodeCount = 3 ∧
      height = 2 := by simpa using Except.ok.inj hmap
  exact ⟨session, shape, hsize, hnodes, hproportioned⟩

end OrderedIndex
