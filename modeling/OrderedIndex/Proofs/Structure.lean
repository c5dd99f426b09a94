import OrderedIndex.Proofs.Operations
import OrderedIndex.Tree.Shape

/-!
# The structure of every reachable tree

The shape of a tree is what one finds on following the child lists from the root.  Of the shape of
every tree that can be reached by operations it is known that the structure is intact: each slot in
use is found once, parents and cached keys agree with it, its leaves are at one depth and in key
order, nodes are filled within the bounds of the fanout, and the chain passes the leaves from left
to right.
-/

namespace OrderedIndex

variable {K V : Type} {n : Nat}

/-! ## Reading off a shape -/

namespace Shape

/-- The slot of the topmost node. -/
def handle : Shape K V → Handle
  | .leaf handle .. => handle
  | .branch handle .. => handle

/-- The parent link of the topmost node. -/
def parent : Shape K V → Option Handle
  | .leaf _ parent .. => parent
  | .branch _ parent .. => parent

/-- The keys of the topmost node. -/
def keys : Shape K V → List K
  | .leaf _ _ _ keys _ => keys
  | .branch _ _ keys _ => keys

/-- What is below the topmost node, from left to right. -/
def children : Shape K V → List (Shape K V)
  | .leaf .. => []
  | .branch _ _ _ children => children

/-- Whether the topmost node is a branch. -/
def isBranch : Shape K V → Bool
  | .leaf .. => false
  | .branch .. => true

/-- All nodes, each with what is below it. -/
def nodes : Shape K V → List (Shape K V)
  | .leaf handle parent next keys values => [.leaf handle parent next keys values]
  | .branch handle parent keys children =>
    .branch handle parent keys children :: children.flatMap nodes

/-- All leaves from left to right. -/
def leaves : Shape K V → List (Shape K V)
  | .leaf handle parent next keys values => [.leaf handle parent next keys values]
  | .branch _ _ _ children => children.flatMap leaves

/-- The depth of each leaf, from left to right. -/
def depths : Shape K V → List Nat
  | .leaf .. => [0]
  | .branch _ _ _ children => children.flatMap fun child => (depths child).map (· + 1)

/-- The last key of the rightmost leaf. -/
def lastKey? (shape : Shape K V) : Option K :=
  shape.leaves.getLast?.bind fun leaf => leaf.keys.getLast?

end Shape

/-- The structure of a tree of the given shape is intact. -/
structure Tree.Intact [Ord K] (tree : Tree K V) (shape : Shape K V) : Prop where
  /-- The list of released slots has no duplicates and lists exactly the empty slots. -/
  sound : tree.nodes.Sound
  /-- Each node is reached once. -/
  nodup : (shape.nodes.map Shape.handle).Nodup
  /-- The slots in use are those of the nodes that are reached. -/
  live (h : Handle) : (tree.nodes.get? h).isSome ↔ h ∈ shape.nodes.map Shape.handle
  root : shape.handle = tree.root
  root_parent : shape.parent = none
  /-- The parent of each other node is the branch that lists it. -/
  parents : ∀ node ∈ shape.nodes, ∀ child ∈ node.children, child.parent = some node.handle
  /-- A branch has one key for each child, which is the last key of the rightmost leaf below it. -/
  cached : ∀ node ∈ shape.nodes, node.isBranch →
    node.keys.map some = node.children.map Shape.lastKey?
  ascending : Ascending (shape.leaves.flatMap Shape.keys)
  depth : ∃ depth, ∀ d ∈ shape.depths, d = depth
  le_max : ∀ node ∈ shape.nodes, node.keys.length ≤ tree.fanout.max
  min_le : ∀ node ∈ shape.nodes, ∀ child ∈ node.children, tree.fanout.min ≤ child.keys.length
  two_le : shape.isBranch → 2 ≤ shape.children.length
  /-- The chain passes the leaves from left to right, and ends. -/
  chain : ∃ leaves, tree.leaves = .ok leaves ∧ leaves.map Prod.fst = shape.leaves.map Shape.handle
  size : tree.size = (shape.leaves.flatMap Shape.keys).length

/-! ## The shape of a layout -/

namespace Block

/-- The shape of a subtree whose topmost block has the given parent. -/
def shape (parent : Option Handle) : {n : Nat} → Subtree K V n → Shape K V
  | 0, b => .leaf b.handle parent b.next (b.pairs.map Prod.fst) (b.pairs.map Prod.snd)
  | _ + 1, b => .branch b.handle parent (b.pairs.map Prod.fst)
      (b.pairs.map fun slot => shape (some b.handle) slot.2)

variable {parent : Option Handle}

section Shape

variable (b : Subtree K V n)

@[simp] theorem handle_shape : (b.shape parent).handle = b.handle := by
  cases n with
  | zero => rfl
  | succ n => rfl

@[simp] theorem parent_shape : (b.shape parent).parent = parent := by
  cases n with
  | zero => rfl
  | succ n => rfl

@[simp] theorem keys_shape : (b.shape parent).keys = b.pairs.map Prod.fst := by
  cases n with
  | zero => rfl
  | succ n => rfl

theorem nodes_shape_succ (b : Subtree K V (n + 1)) : (b.shape parent).nodes =
    b.shape parent :: b.pairs.flatMap fun slot => (slot.2.shape (some b.handle)).nodes := by
  simp [shape, Shape.nodes, List.flatMap_map]

theorem leaves_shape_succ (b : Subtree K V (n + 1)) : (b.shape parent).leaves =
    b.pairs.flatMap fun slot => (slot.2.shape (some b.handle)).leaves := by
  simp [shape, Shape.leaves, List.flatMap_map]

theorem depths_shape_succ (b : Subtree K V (n + 1)) : (b.shape parent).depths =
    b.pairs.flatMap fun slot => (slot.2.shape (some b.handle)).depths.map (· + 1) := by
  simp [shape, Shape.depths, List.flatMap_map]

/-- The handles that are found are those of the subtree. -/
theorem coe_nodes_shape (parent : Option Handle) :
    (((b.shape parent).nodes.map Shape.handle : List Handle) : Multiset Handle) = b.handles := by
  induction n generalizing parent with
  | zero => simp [shape, Shape.nodes, Shape.handle, handles]
  | succ n ih =>
    -- The handles below a branch are collected child by child.
    have heach : ∀ slots : List (K × Subtree K V n),
        (((slots.flatMap fun slot => (slot.2.shape (some b.handle)).nodes).map Shape.handle :
          List Handle) : Multiset Handle) = handlesEach slots := by
      intro slots
      induction slots with
      | nil => rfl
      | cons slot slots ihs =>
        rw [List.flatMap_cons, List.map_append, ← Multiset.coe_add, ih, ihs, handlesEach_cons]
    rw [nodes_shape_succ, List.map_cons, ← Multiset.cons_coe, heach, handles_succ, handle_shape]

/-- What is read off each leaf of the shape can be read off the leaves of the subtree. -/
theorem map_leaves_shape {α : Type} {f : Shape K V → α} {g : Block K V → α}
    (hfg : ∀ leaf above, f (shape (n := 0) above leaf) = g leaf) :
    (b.shape parent).leaves.map f = b.leaves.map g := by
  -- By induction on the level: the leaves of a branch are those of its children in sequence.
  induction n generalizing parent with
  | zero => simp [shape, Shape.leaves, ← hfg b parent]
  | succ n ih =>
    rw [leaves_shape_succ, leaves_succ, leavesEach, List.map_flatMap, List.map_flatMap]
    simp only [ih]

/-- All leaves are at one depth. -/
theorem depths_shape : ∀ d ∈ (b.shape parent).depths, d = n := by
  -- By induction on the level, of which a child has one less.
  induction n generalizing parent with
  | zero => simp [shape, Shape.depths]
  | succ n ih =>
    intro d hd
    rw [depths_shape_succ] at hd
    obtain ⟨slot, hslot, hmem⟩ := List.mem_flatMap.1 hd
    obtain ⟨e, he, rfl⟩ := List.mem_map.1 hmem
    rw [ih slot.2 e he]

end Shape

/-- The last key of an exact subtree stands in its last leaf. -/
theorem Exact.exists_last_leaf {b : Subtree K V n} (he : b.Exact) {k : K}
    (hk : b.maxKey? = some k) :
    ∃ leaf, b.leaves.getLast? = some leaf ∧ leaf.maxKey? = some k := by
  induction n with
  | zero => exact ⟨b, rfl, hk⟩
  | succ n ih =>
    -- The last leaf is below the last child, whose last key is the cached one.
    rcases List.eq_nil_or_concat' b.pairs with hnil | ⟨before, slot, hpairs⟩
    · simp [maxKey?, hnil] at hk
    · obtain ⟨hmax, hexact⟩ := he slot (by simp [hpairs])
      have hkey : slot.1 = k := by simpa [maxKey?, hpairs] using hk
      rw [hkey] at hmax
      obtain ⟨leaf, hleaf, hleafKey⟩ := ih hexact hmax
      refine ⟨leaf, ?_, hleafKey⟩
      rw [leaves_succ, hpairs, leavesEach_append, leavesEach_cons, leavesEach_nil, List.append_nil,
        List.getLast?_append, hleaf, Option.some_or]

theorem Exact.lastKey?_shape {b : Subtree K V n} (he : b.Exact) {k : K} (hk : b.maxKey? = some k) :
    (b.shape parent).lastKey? = some k := by
  have hmap : (b.shape parent).leaves.map (fun leaf => leaf.keys.getLast?) =
      b.leaves.map maxKey? := map_leaves_shape b fun leaf above => rfl
  obtain ⟨leaf, hleaf, hmax⟩ := he.exists_last_leaf hk
  -- The last leaf of the shape has the keys of the last leaf of the subtree.
  have hlast := congrArg List.getLast? hmap
  rw [List.getLast?_map, List.getLast?_map, hleaf, Option.map_some, hmax] at hlast
  obtain ⟨node, hnode, hkeys⟩ := Option.map_eq_some_iff.1 hlast
  rw [Shape.lastKey?, hnode, Option.bind_some, hkeys]

/-- Each node of the shape of a subtree is the shape of what is at the end of some path. -/
theorem exists_path_of_mem_nodes {p : Path K V n} {b : Subtree K V n} {node : Shape K V}
    (hnode : node ∈ (b.shape p.parent).nodes) :
    ∃ (m : Nat) (q : Path K V m) (c : Subtree K V m), q.fill c = p.fill b ∧
      node = c.shape q.parent := by
  -- By induction on the level, with the path that leads to the block.
  induction n with
  | zero =>
    obtain rfl := List.mem_singleton.1 (by simpa [shape, Shape.nodes] using hnode)
    exact ⟨0, p, b, rfl, rfl⟩
  | succ n ih =>
    rw [nodes_shape_succ] at hnode
    rcases List.mem_cons.1 hnode with rfl | hbelow
    · exact ⟨n + 1, p, b, rfl, rfl⟩
    · -- The path goes on to the child below which the node is found.
      obtain ⟨slot, hslot, hmem⟩ := List.mem_flatMap.1 hbelow
      obtain ⟨f, -, rfl⟩ := Frame.exists_plug_eq hslot
      exact ih (p := .step f p) hmem

/-- Each cell of a subtree is that of a block at the end of some path. -/
theorem exists_path_of_mem_cells {p : Path K V n} {b : Subtree K V n} {h : Handle}
    {node : Node K V} (hcell : (h, node) ∈ b.cells p.parent) :
    ∃ (m : Nat) (q : Path K V m) (t : Subtree K V m), q.fill t = p.fill b ∧ t.handle = h ∧
      t.node q.parent = node := by
  induction n with
  | zero =>
    obtain ⟨rfl, rfl⟩ := Prod.mk.inj (Multiset.mem_singleton.1 hcell)
    exact ⟨0, p, b, rfl, rfl, rfl⟩
  | succ n ih =>
    rw [cells_succ, Multiset.mem_cons, mem_cellsEach] at hcell
    rcases hcell with hself | ⟨slot, hslot, hbelow⟩
    · obtain ⟨rfl, rfl⟩ := Prod.mk.inj hself
      exact ⟨n + 1, p, b, rfl, rfl, rfl⟩
    · -- The path goes on to the child that has the cell.
      obtain ⟨f, -, rfl⟩ := Frame.exists_plug_eq hslot
      exact ih (p := .step f p) hbelow

section Children

variable {b : Subtree K V n} {child : Shape K V}

/-- The children of a shape name the topmost node as their parent. -/
theorem parent_of_mem_children (hchild : child ∈ (b.shape parent).children) :
    child.parent = some b.handle := by
  cases n with
  | zero => exact absurd hchild List.not_mem_nil
  | succ n =>
    obtain ⟨slot, hslot, rfl⟩ := List.mem_map.1 hchild
    exact parent_shape slot.2

theorem FilledBelow.min_le_of_mem_children {fanout : Fanout} (hf : b.FilledBelow fanout)
    (hchild : child ∈ (b.shape parent).children) : fanout.min ≤ child.keys.length := by
  cases n with
  | zero => exact absurd hchild List.not_mem_nil
  | succ n =>
    obtain ⟨slot, hslot, rfl⟩ := List.mem_map.1 hchild
    rw [keys_shape, List.length_map]
    exact (hf slot hslot).1.1

/-- The cached keys are the last keys below the children. -/
theorem Exact.cached_shape (he : b.Exact) (hbranch : (b.shape parent).isBranch) :
    (b.shape parent).keys.map some = (b.shape parent).children.map Shape.lastKey? := by
  cases n with
  | zero => exact absurd hbranch Bool.false_ne_true
  | succ n =>
    show (b.pairs.map Prod.fst).map some = (b.pairs.map _).map Shape.lastKey?
    rw [List.map_map, List.map_map]
    apply List.map_congr_left
    intro slot hslot
    exact ((he slot hslot).2.lastKey?_shape (he slot hslot).1).symm

end Children

/-- There are no more leaves than nodes. -/
theorem length_leaves_le (b : Subtree K V n) : b.leaves.length ≤ b.handles.card := by
  induction n with
  | zero => exact Nat.le_refl 1
  | succ n ih =>
    -- Child by child there are as many nodes as leaves, or more.
    have heach : ∀ slots : List (K × Subtree K V n),
        (leavesEach slots).length ≤ (handlesEach slots).card := by
      intro slots
      induction slots with
      | nil => exact Nat.le_refl 0
      | cons slot slots ihs =>
        rw [leavesEach_cons, List.length_append, handlesEach_cons, Multiset.card_add]
        exact Nat.add_le_add (ih slot.2) ihs
    rw [leaves_succ, handles_succ, Multiset.card_cons]
    exact Nat.le_succ_of_le (heach b.pairs)

end Block

/-- Each node of the shape of a layout is the shape of what is at the end of some path. -/
theorem Layout.exists_path_of_mem_nodes {layout : Layout K V} {node : Shape K V}
    (hnode : node ∈ (layout.root.shape none).nodes) :
    ∃ (m : Nat) (q : Path K V m) (c : Subtree K V m), q.fill c = layout ∧
      node = c.shape q.parent := by
  have hroot : node ∈ (layout.root.shape (Path.top : Path K V layout.levels).parent).nodes := hnode
  exact Block.exists_path_of_mem_nodes hroot

/-- The keys in the leaves of the shape are those of the entries. -/
theorem Layout.flatMap_keys_shape (layout : Layout K V) :
    (layout.root.shape none).leaves.flatMap Shape.keys = layout.entries.map Prod.fst := by
  have hmap : (layout.root.shape none).leaves.map Shape.keys =
      layout.leaves.map fun leaf => leaf.pairs.map Prod.fst :=
    Block.map_leaves_shape layout.root fun leaf above => rfl
  calc (layout.root.shape none).leaves.flatMap Shape.keys
      = ((layout.root.shape none).leaves.map Shape.keys).flatten := List.flatMap_def
    _ = (layout.leaves.map fun leaf => leaf.pairs.map Prod.fst).flatten := by rw [hmap]
    _ = layout.entries.map Prod.fst := by
      rw [Layout.entries, entriesOf, List.map_flatMap, List.flatMap_def]

/-! ## Following the links -/

namespace Tree

variable {tree : Tree K V} {layout : Layout K V} {nodes : Arena (Node K V)}

/-- Following the child lists from a subtree that is laid out leads to its shape. -/
theorem shapeBelow_eq {cells : Multiset (Handle × Node K V)} (hs : nodes.Holds cells)
    {parent : Option Handle} (b : Subtree K V n) (hle : b.cells parent ≤ cells) (steps : Nat)
    (hsteps : n < steps) : shapeBelow nodes steps b.handle = .ok (b.shape parent) := by
  -- By induction on the level, of which the steps leave one more than is needed.
  induction n generalizing parent steps with
  | zero =>
    obtain ⟨steps, rfl⟩ := Nat.exists_eq_succ_of_ne_zero (Nat.ne_zero_of_lt hsteps)
    unfold shapeBelow
    rw [hs.get_of_mem (Multiset.mem_of_le hle b.mem_cells_self)]
    rfl
  | succ n ih =>
    obtain ⟨steps, rfl⟩ := Nat.exists_eq_succ_of_ne_zero (Nat.ne_zero_of_lt hsteps)
    -- The cells of a child are among those of the branch, so its list can be followed as well.
    have hslot : ∀ slot ∈ b.pairs, shapeBelow nodes steps slot.2.handle =
        .ok (slot.2.shape (some b.handle)) := by
      intro slot hslot
      refine ih slot.2 ?_ steps (Nat.lt_of_succ_lt_succ hsteps)
      rw [Block.cells_succ] at hle
      exact (Block.cells_le_cellsEach hslot).trans ((Multiset.le_cons_self _ _).trans hle)
    have heach : ∀ slots : List (K × Subtree K V n), (∀ slot ∈ slots, slot ∈ b.pairs) →
        (slots.map fun slot => slot.2.handle).mapM (shapeBelow nodes steps) =
          .ok (slots.map fun slot => slot.2.shape (some b.handle)) := by
      intro slots hslots
      induction slots with
      | nil => rfl
      | cons slot slots ihs =>
        rw [List.forall_mem_cons] at hslots
        rw [List.map_cons, List.mapM_cons, hslot slot hslots.1, ok_bind, ihs hslots.2]
        rfl
    unfold shapeBelow
    rw [hs.get_of_mem (Multiset.mem_of_le hle b.mem_cells_self)]
    show (b.pairs.map fun slot => slot.2.handle).mapM (shapeBelow nodes steps) >>= _ = _
    rw [heach b.pairs fun _ hmem => hmem]
    rfl

/-- Following the links from the first of some leaves passes all of them. -/
theorem chain_eq {leaves : List (Block K V)}
    (hget : ∀ b ∈ leaves, ∃ parent, getLeaf nodes b.handle = .ok (b.toLeaf parent))
    (hlinked : Linked none leaves) (steps : Nat) (hsteps : leaves.length ≤ steps) :
    ∃ passed, chain nodes steps (firstOr none leaves) = .ok passed ∧
      passed.map (fun place => (place.1, place.2.toColumns)) =
        leaves.map fun b => (b.handle, b.columns) := by
  -- By induction on the leaves, each of which takes a step.
  induction leaves generalizing steps with
  | nil =>
    refine ⟨[], ?_, rfl⟩
    unfold chain
    rfl
  | cons b leaves ih =>
    obtain ⟨steps, rfl⟩ := Nat.exists_eq_add_of_le' (Nat.lt_of_lt_of_le (Nat.succ_pos _) hsteps)
    rw [List.forall_mem_cons] at hget
    obtain ⟨parent, hleaf⟩ := hget.1
    obtain ⟨passed, hpassed, hmap⟩ := ih hget.2 hlinked.2 steps (Nat.le_of_succ_le_succ hsteps)
    refine ⟨(b.handle, b.toLeaf parent) :: passed, ?_, ?_⟩
    · -- The link of a leaf leads to the first of those behind it.
      have hnext : (b.toLeaf parent).next = firstOr none leaves := hlinked.1
      show chain nodes (steps + 1) (some b.handle) = _
      unfold chain
      rw [hleaf, ok_bind, hnext, hpassed]
      rfl
    · rw [List.map_cons, List.map_cons, hmap]
      rfl

namespace Renders

variable [Ord K]

/-- The shape of a tree is that of the layout it renders. -/
theorem shape_eq (hr : tree.Renders layout) (hp : layout.root.Populated) :
    tree.shape = .ok (layout.root.shape none) := by
  unfold Tree.shape
  rw [hr.shows.root]
  exact shapeBelow_eq hr.shows.holds layout.root (le_refl _) _
    (levels_lt_slotCount hr.shows.holds hp)

/-- The chain passes the leaves of the layout. -/
theorem leaves_eq (hr : tree.Renders layout) (hp : layout.root.Populated) :
    ∃ leaves, tree.leaves = .ok leaves ∧
      leaves.map (fun place => (place.1, place.2.toColumns)) =
        layout.leaves.map fun b => (b.handle, b.columns) := by
  -- The walk along the chain starts at the leaf to which the descent on the left leads.
  obtain ⟨q, leaf, hq, hleft, hfirst⟩ := firstLeaf_eq hr.shows hp
  have hhead : firstOr none layout.leaves = some leaf.handle := by
    rw [← hq, Path.leaves_fill, hleft]
    rfl
  -- Each leaf has a slot of its own, so the walk ends within as many steps as there are slots.
  have hcount : layout.leaves.length ≤ tree.nodes.slotCount := by
    have hcard := hr.shows.holds.card_le_slotCount
    rw [← Multiset.card_map Prod.fst, Layout.map_fst_cells] at hcard
    exact (Block.length_leaves_le layout.root).trans hcard
  have hget : ∀ b ∈ layout.leaves, ∃ parent,
      getLeaf tree.nodes b.handle = .ok (b.toLeaf parent) := by
    intro b hb
    obtain ⟨parent, hmem⟩ := Block.exists_mem_cells_of_mem_leaves hb
    exact ⟨parent, getLeaf_eq hr.shows.holds hmem⟩
  obtain ⟨passed, hpassed, hmap⟩ := chain_eq hget hr.linked _ hcount
  refine ⟨passed, ?_, hmap⟩
  unfold Tree.leaves
  rw [hfirst, ok_bind, ← hhead, hpassed]

/-- The chain passes the leaves of the shape from left to right. -/
theorem exists_leaves (hr : tree.Renders layout) (hp : layout.root.Populated) :
    ∃ leaves, tree.leaves = .ok leaves ∧
      leaves.map Prod.fst = (layout.root.shape none).leaves.map Shape.handle := by
  obtain ⟨leaves, hleaves, hmap⟩ := hr.leaves_eq hp
  have hhandles := congrArg (List.map Prod.fst) hmap
  rw [List.map_map, List.map_map] at hhandles
  refine ⟨leaves, hleaves, Eq.trans hhandles ?_⟩
  exact (Block.map_leaves_shape layout.root fun leaf above => rfl).symm

/-- Each node is reached once. -/
theorem nodup_shape (hr : tree.Renders layout) :
    ((layout.root.shape none).nodes.map Shape.handle).Nodup := by
  have hnodup := hr.shows.holds.nodup
  rw [Layout.map_fst_cells, Layout.handles, ← Block.coe_nodes_shape layout.root none] at hnodup
  exact Multiset.coe_nodup.1 hnodup

/-- The slots in use are those of the nodes that are reached. -/
theorem live_shape (hr : tree.Renders layout) (h : Handle) :
    (tree.nodes.get? h).isSome ↔ h ∈ (layout.root.shape none).nodes.map Shape.handle := by
  rw [hr.shows.holds.isSome_get?_iff h, Layout.map_fst_cells, Layout.handles,
    ← Block.coe_nodes_shape layout.root none, Multiset.mem_coe]

end Renders

namespace Carries

variable [Ord K]

theorem shape_eq (hc : tree.Carries layout) : tree.shape = .ok (layout.root.shape none) :=
  hc.renders.shape_eq hc.populated

theorem leaves_eq (hc : tree.Carries layout) :
    ∃ leaves, tree.leaves = .ok leaves ∧
      leaves.map (fun place => (place.1, place.2.toColumns)) =
        layout.leaves.map fun b => (b.handle, b.columns) :=
  hc.renders.leaves_eq hc.populated

/-- A tree that carries a layout has an intact structure. -/
theorem intact (hc : tree.Carries layout) : tree.Intact (layout.root.shape none) where
  sound := hc.shows.holds.sound
  nodup := hc.renders.nodup_shape
  live := hc.renders.live_shape
  root := by rw [Block.handle_shape, hc.shows.root]
  root_parent := Block.parent_shape _
  parents node hnode child hchild := by
    obtain ⟨m, q, c, -, rfl⟩ := Layout.exists_path_of_mem_nodes hnode
    rw [Block.handle_shape]
    exact Block.parent_of_mem_children hchild
  cached node hnode hbranch := by
    obtain ⟨m, q, c, rfl, rfl⟩ := Layout.exists_path_of_mem_nodes hnode
    exact ((q.exact_fill c).1 hc.sound.exact).2.cached_shape hbranch
  ascending := by
    rw [Layout.flatMap_keys_shape]
    exact hc.sound.ascending
  depth := ⟨layout.levels, Block.depths_shape _⟩
  le_max node hnode := by
    obtain ⟨m, q, c, rfl, rfl⟩ := Layout.exists_path_of_mem_nodes hnode
    rw [Block.keys_shape, List.length_map]
    exact ((q.filled_fill c).1 hc.sound.filled).2.1.le_max
  min_le node hnode child hchild := by
    obtain ⟨m, q, c, rfl, rfl⟩ := Layout.exists_path_of_mem_nodes hnode
    exact ((q.filled_fill c).1 hc.sound.filled).2.2.min_le_of_mem_children hchild
  -- With a branch at the top there is more than one level, and the root has two children.
  two_le hbranch := by
    obtain ⟨levels, root⟩ := layout
    cases levels with
    | zero => exact absurd hbranch Bool.false_ne_true
    | succ n =>
      show 2 ≤ (root.pairs.map _).length
      rw [List.length_map]
      exact hc.sound.filled.two_le (Nat.succ_ne_zero n)
  chain := hc.renders.exists_leaves hc.populated
  size := by rw [Layout.flatMap_keys_shape, List.length_map, hc.size]

end Carries

end Tree

/-! ## Every reachable tree -/

/-- The structure of every reachable tree is intact.  For every fanout and every run of operations
from the empty tree, the nodes below the root have a shape, and all that makes a structure intact
holds of it together. -/
theorem run_intact [Ord K] [Std.TransOrd K] (fanout : Fanout) (operations : List (Operation K V)) :
    ∃ answers session shape, (Session.start fanout).run operations = .ok (answers, session) ∧
      session.tree.fanout = fanout ∧ session.tree.shape = .ok shape ∧
      session.tree.Intact shape := by
  obtain ⟨session, layout, hrun, hs, -⟩ :=
    Session.run_eq (Session.start_carries fanout) operations
  have hc : session.tree.Carries layout := hs.tree
  exact ⟨_, session, _, hrun, hs.fanout_eq, hc.shape_eq, hc.intact⟩

/-- After four insertions into a tree with three keys to a node, the root is a branch. -/
theorem run_intact_divided :
    ∃ (session : Session Nat Nat) (shape : Shape Nat Nat), shape.isBranch = true ∧
      session.tree.shape = .ok shape ∧ session.tree.Intact shape := by
  obtain ⟨answers, session, shape, hrun, -, hshape, hintact⟩ :=
    run_intact .standard (insertTens 4)
  -- The run is evaluated for what is not in the theorem: that the first leaf has been divided.
  have hbranch : ((Session.start .standard).run (insertTens 4)).bind
      (fun r => r.2.tree.shape.map Shape.isBranch) = .ok true := by rfl
  rw [hrun] at hbranch
  refine ⟨session, shape, ?_, hshape, hintact⟩
  have hmap : session.tree.shape.map Shape.isBranch = .ok true := hbranch
  rw [hshape] at hmap
  exact Except.ok.inj hmap

end OrderedIndex
