import OrderedIndex.Proofs.Structure

/-!
# Coherent trees

A tree is coherent if everything in it fits together but, perhaps, the number of keys in its nodes.
Nothing is asked of the way in which it came about.  From a coherent tree one reads back a layout
that its nodes lay out: the shape that is found on following the child lists determines the blocks,
the slots in use are those of the shape, and the chain of leaves gives the links.  So all that is
known of the steps on layouts holds for coherent trees, and not only for those that operations have
made.

A tree that is connected may have cached any keys besides.  The layout that is read back from it is
exact wherever the keys in the branches are.
-/

namespace OrderedIndex

variable {K V : Type} {n : Nat}

/-! ## Reading off a shape -/

namespace Shape

/-- The values of the topmost node.  A branch has none. -/
def values : Shape K V → List V
  | .leaf _ _ _ _ values => values
  | .branch .. => []

/-- The entries in the leaves, from left to right. -/
def entries (shape : Shape K V) : List (K × V) :=
  shape.leaves.flatMap fun leaf => leaf.keys.zip leaf.values

theorem mem_nodes_self (shape : Shape K V) : shape ∈ shape.nodes := by
  cases shape with
  | leaf handle parent next keys values => simp [nodes]
  | branch handle parent keys children => simp [nodes]

section Children

variable {handle : Handle} {parent : Option Handle} {keys : List K} {children : List (Shape K V)}
  {child node : Shape K V}

theorem mem_nodes_of_mem_children (hchild : child ∈ children) (hnode : node ∈ child.nodes) :
    node ∈ (branch handle parent keys children).nodes := by
  rw [nodes]
  exact List.mem_cons_of_mem _ (List.mem_flatMap.2 ⟨child, hchild, hnode⟩)

theorem mem_leaves_of_mem_children (hchild : child ∈ children) (hnode : node ∈ child.leaves) :
    node ∈ (branch handle parent keys children).leaves := by
  rw [leaves]
  exact List.mem_flatMap.2 ⟨child, hchild, hnode⟩

theorem mem_depths_of_mem_children (hchild : child ∈ children) {d : Nat} (hd : d ∈ child.depths) :
    d + 1 ∈ (branch handle parent keys children).depths := by
  rw [depths]
  exact List.mem_flatMap.2 ⟨child, hchild, List.mem_map_of_mem hd⟩

end Children

theorem leaves_ne_nil_of_lastKey? {shape : Shape K V} {k : K} (hk : shape.lastKey? = some k) :
    shape.leaves ≠ [] := by
  rintro hnil
  rw [lastKey?, hnil] at hk
  exact absurd hk (Option.some_ne_none k).symm

end Shape

/-- There is one depth for each leaf. -/
theorem Shape.length_depths (shape : Shape K V) : shape.depths.length = shape.leaves.length := by
  -- By recursion on the shape, as its children are in a list.
  match shape with
  | .leaf handle parent next keys values => simp [depths, leaves]
  | .branch handle parent keys children =>
    have heach : ∀ child ∈ children, (child.depths.map (· + 1)).length = child.leaves.length := by
      intro child hchild
      rw [List.length_map]
      exact length_depths child
    rw [depths, leaves, List.length_flatMap, List.length_flatMap]
    exact congrArg List.sum (List.map_congr_left heach)

/-! ## Coherence -/

/-- What one finds on following the links of a tree is the given shape, and all of it fits together.
Only the number of keys in each node is left open. -/
structure Tree.Coherent [Ord K] (tree : Tree K V) (shape : Shape K V) : Prop where
  shape_eq : tree.shape = .ok shape
  sound : tree.nodes.Sound
  nodup : (shape.nodes.map Shape.handle).Nodup
  live (h : Handle) : (tree.nodes.get? h).isSome ↔ h ∈ shape.nodes.map Shape.handle
  root_parent : shape.parent = none
  parents : ∀ node ∈ shape.nodes, ∀ child ∈ node.children, child.parent = some node.handle
  cached : ∀ node ∈ shape.nodes, node.isBranch →
    node.keys.map some = node.children.map Shape.lastKey?
  /-- There is one value for each key of a leaf. -/
  aligned : ∀ leaf ∈ shape.leaves, leaf.keys.length = leaf.values.length
  ascending : Ascending (shape.leaves.flatMap Shape.keys)
  depth : ∃ depth, ∀ d ∈ shape.depths, d = depth
  chain : ∃ leaves, tree.leaves = .ok leaves ∧ leaves.map Prod.fst = shape.leaves.map Shape.handle
  size : tree.size = (shape.leaves.flatMap Shape.keys).length

/-- What one finds on following the links of a tree is the given shape, and it fits together but for
what the branches have cached: they have a key for each child, but it may be any key. -/
structure Tree.Connected [Ord K] (tree : Tree K V) (shape : Shape K V) : Prop where
  shape_eq : tree.shape = .ok shape
  sound : tree.nodes.Sound
  nodup : (shape.nodes.map Shape.handle).Nodup
  live (h : Handle) : (tree.nodes.get? h).isSome ↔ h ∈ shape.nodes.map Shape.handle
  root_parent : shape.parent = none
  parents : ∀ node ∈ shape.nodes, ∀ child ∈ node.children, child.parent = some node.handle
  paired : ∀ node ∈ shape.nodes, node.isBranch → node.keys.length = node.children.length
  /-- There is a leaf below each child. -/
  populated : ∀ node ∈ shape.nodes, ∀ child ∈ node.children, child.leaves ≠ []
  aligned : ∀ leaf ∈ shape.leaves, leaf.keys.length = leaf.values.length
  ascending : Ascending (shape.leaves.flatMap Shape.keys)
  depth : ∃ depth, ∀ d ∈ shape.depths, d = depth
  chain : ∃ leaves, tree.leaves = .ok leaves ∧ leaves.map Prod.fst = shape.leaves.map Shape.handle
  size : tree.size = (shape.leaves.flatMap Shape.keys).length

/-- The keys that branches have cached are the last ones below the children beside them.  The keys
in some slots, each given by a branch and a position, are left open. -/
def Shape.CachedExcept (stale : Handle → Nat → Prop) (shape : Shape K V) : Prop :=
  ∀ branch ∈ shape.nodes, ∀ i k below, branch.keys[i]? = some k →
    branch.children[i]? = some below → ¬ stale branch.handle i → below.lastKey? = some k

theorem Shape.children_of_leaf {shape : Shape K V} (hleaf : ¬ shape.isBranch) :
    shape.children = [] := by
  cases shape with
  | leaf handle parent next keys values => rfl
  | branch handle parent keys children => exact absurd rfl hleaf

namespace Tree.Coherent

variable [Ord K] {tree : Tree K V} {shape : Shape K V}

/-- In a coherent tree no cached key is stale. -/
theorem cachedExcept (hc : tree.Coherent shape) : shape.CachedExcept fun _ _ => False := by
  intro branch hbranch i k below hk hbelow _
  by_cases hkind : branch.isBranch
  · -- The list of the cached keys is that of the last keys below, so the two agree at each
    -- position.
    have hsame := congrArg (·[i]?) (hc.cached branch hbranch hkind)
    simp only [List.getElem?_map, hk, hbelow, Option.map_some] at hsame
    exact (Option.some.inj hsame).symm
  · rw [Shape.children_of_leaf hkind] at hbelow
    exact absurd hbelow (by simp)

/-- A coherent tree is connected. -/
theorem connected (hc : tree.Coherent shape) : tree.Connected shape where
  shape_eq := hc.shape_eq
  sound := hc.sound
  nodup := hc.nodup
  live := hc.live
  root_parent := hc.root_parent
  parents := hc.parents
  paired node hnode hkind := by
    have hlength := congrArg List.length (hc.cached node hnode hkind)
    rwa [List.length_map, List.length_map] at hlength
  populated node hnode child hchild := by
    by_cases hkind : node.isBranch
    · -- The last key below the child is cached, so there is a leaf below it.
      obtain ⟨k, -, hk⟩ :=
        List.mem_map.1 (hc.cached node hnode hkind ▸ List.mem_map_of_mem hchild)
      exact Shape.leaves_ne_nil_of_lastKey? hk.symm
    · rw [Shape.children_of_leaf hkind] at hchild
      exact absurd hchild List.not_mem_nil
  aligned := hc.aligned
  ascending := hc.ascending
  depth := hc.depth
  chain := hc.chain
  size := hc.size

end Tree.Coherent

/-- The entries in the shape of a layout are those of the layout. -/
theorem Layout.entries_shape (layout : Layout K V) :
    (layout.root.shape none).entries = layout.entries := by
  -- The leaves of the shape are those of the layout in the same order, each with the same pairs.
  have hmap : (layout.root.shape none).leaves.map (fun leaf => leaf.keys.zip leaf.values) =
      layout.leaves.map Block.pairs := by
    apply Block.map_leaves_shape
    intro leaf above
    show (leaf.pairs.map Prod.fst).zip (leaf.pairs.map Prod.snd) = leaf.pairs
    simpa using List.zip_unzip leaf.pairs
  rw [Shape.entries, Layout.entries, entriesOf, List.flatMap_def, hmap, ← List.flatMap_def]

/-- A tree that renders a layout is coherent, if each branch of it has a child. -/
theorem Tree.Renders.coherent [Ord K] {tree : Tree K V} {layout : Layout K V}
    (hr : tree.Renders layout) (hp : layout.root.Populated) :
    tree.Coherent (layout.root.shape none) where
  shape_eq := hr.shape_eq hp
  sound := hr.shows.holds.sound
  nodup := hr.nodup_shape
  live := hr.live_shape
  root_parent := Block.parent_shape _
  -- Each node of the shape is that of a subtree in the layout, and comes with its path.
  parents node hnode child hchild := by
    obtain ⟨m, q, c, -, rfl⟩ := Layout.exists_path_of_mem_nodes hnode
    rw [Block.handle_shape]
    exact Block.parent_of_mem_children hchild
  cached node hnode hbranch := by
    obtain ⟨m, q, c, rfl, rfl⟩ := Layout.exists_path_of_mem_nodes hnode
    exact ((q.exact_fill c).1 hr.exact).2.cached_shape hbranch
  aligned := by
    have hmap : (layout.root.shape none).leaves.map
        (fun leaf => decide (leaf.keys.length = leaf.values.length)) =
          layout.leaves.map fun _ => true := by
      apply Block.map_leaves_shape
      intro leaf above
      show decide ((leaf.pairs.map Prod.fst).length = (leaf.pairs.map Prod.snd).length) = true
      simp
    -- What has been shown is that all answers are the same one; each leaf gives one of them.
    intro leaf hleaf
    have hmem := List.mem_map_of_mem
      (f := fun leaf : Shape K V => decide (leaf.keys.length = leaf.values.length)) hleaf
    rw [hmap] at hmem
    obtain ⟨_, -, hlength⟩ := List.mem_map.1 hmem
    exact of_decide_eq_true hlength.symm
  ascending := by
    rw [Layout.flatMap_keys_shape]
    exact hr.ascending
  depth := ⟨layout.levels, Block.depths_shape _⟩
  chain := hr.exists_leaves hp
  size := by rw [Layout.flatMap_keys_shape, List.length_map, hr.size]

theorem Tree.Carries.coherent [Ord K] {tree : Tree K V} {layout : Layout K V}
    (hc : tree.Carries layout) : tree.Coherent (layout.root.shape none) :=
  hc.renders.coherent hc.populated

/-! ## Blocks of a given shape -/

/-- The last key below an exact subtree is that of its topmost block. -/
theorem Block.Exact.lastKey?_shape_eq {b : Subtree K V n} (he : b.Exact) (parent : Option Handle) :
    (b.shape parent).lastKey? = b.maxKey? := by
  cases hmax : b.maxKey? with
  | some k => exact he.lastKey?_shape hmax
  | none =>
    -- Without a last key the topmost block is empty, and then there is nothing below it.
    have hpairs : b.pairs = [] := by simpa [Block.maxKey?] using hmax
    cases n with
    | zero => simp [Shape.lastKey?, shape, Shape.leaves, Shape.keys, hpairs]
    | succ n => simp [Shape.lastKey?, shape, Shape.leaves, hpairs]

/-- The nodes below the end of a path are found below the root. -/
theorem Path.mem_nodes_fill (p : Path K V n) (b : Subtree K V n) {node : Shape K V}
    (hnode : node ∈ (b.shape p.parent).nodes) : node ∈ ((p.fill b).root.shape none).nodes := by
  -- By induction up the path: the gap of a frame is one of its slots.
  induction p with
  | top => exact hnode
  | step f rest ih =>
    apply ih (f.plug b)
    rw [Block.nodes_shape_succ]
    apply List.mem_cons_of_mem
    exact List.mem_flatMap.2 ⟨(f.key, b), by simp [Frame.plug], hnode⟩

section CachedExcept

variable {stale : Handle → Nat → Prop}

/-- The key beside the gap of a frame is the last one below what is in the gap, unless it is
stale. -/
theorem Path.lastKey?_of_cachedExcept {f : Frame K (Subtree K V n)} {rest : Path K V (n + 1)}
    {b : Subtree K V n}
    (hcached : (((Path.step f rest).fill b).root.shape none).CachedExcept stale)
    (hfresh : ¬ stale f.handle f.before.length) :
    (b.shape (some f.handle)).lastKey? = some f.key := by
  have hself := Shape.mem_nodes_self (Block.shape (n := n + 1) rest.parent (f.plug b))
  have hkey : (Block.shape (n := n + 1) rest.parent (f.plug b)).keys[f.before.length]? =
      some f.key := by simp [Frame.plug]
  have hchild : (Block.shape (n := n + 1) rest.parent (f.plug b)).children[f.before.length]? =
      some (b.shape (some f.handle)) := by simp [Block.shape, Shape.children, Frame.plug]
  have hmem := rest.mem_nodes_fill (f.plug b) hself
  exact hcached _ hmem _ _ _ hkey hchild (by simpa using hfresh)

/-- A subtree in which no key is stale is exact. -/
theorem Block.exact_of_cachedExcept {p : Path K V n} {b : Subtree K V n}
    (hcached : ((p.fill b).root.shape none).CachedExcept stale)
    (hfresh : ∀ h ∈ b.handles, ∀ i, ¬ stale h i) : b.Exact := by
  -- By induction on the level; each slot of a block is the gap of a frame around it.
  induction n with
  | zero => trivial
  | succ n ih =>
    intro slot hslot
    obtain ⟨f, hkey, rfl⟩ := Frame.exists_plug_eq hslot
    have hself : f.handle ∈ Block.handles (n := n + 1) (f.plug slot.2) :=
      Block.handle_mem_handles (n := n + 1) (f.plug slot.2)
    have hbelow : (((Path.step f p).fill slot.2).root.shape none).CachedExcept stale := hcached
    have hexact : slot.2.Exact :=
      ih hbelow fun h hh => hfresh h (f.mem_handles_plug slot.2 hh)
    have hlast := Path.lastKey?_of_cachedExcept hbelow (hfresh _ hself _)
    rw [hexact.lastKey?_shape_eq, hkey] at hlast
    exact ⟨hlast, hexact⟩

end CachedExcept

/-- Some subtrees stand beside some keys, if there are as many of the ones as of the others. -/
theorem exists_slots {parent : Option Handle} {keys : List K} {children : List (Shape K V)}
    (hpaired : keys.length = children.length)
    (hchildren : ∀ child ∈ children, ∃ b : Subtree K V n, b.Populated ∧ b.shape parent = child) :
    ∃ slots : List (K × Subtree K V n), slots.map Prod.fst = keys ∧
      (slots.map fun slot => slot.2.shape parent) = children ∧
      ∀ slot ∈ slots, slot.2.Populated := by
  -- By induction on the children, each of which takes the first of the keys that are left.
  induction children generalizing keys with
  | nil =>
    obtain rfl := List.length_eq_zero_iff.1 hpaired
    exact ⟨[], rfl, rfl, by simp⟩
  | cons child children ih =>
    cases keys with
    | nil => exact absurd hpaired.symm (Nat.succ_ne_zero _)
    | cons k keys =>
      rw [List.forall_mem_cons] at hchildren
      obtain ⟨b, hpopulated, rfl⟩ := hchildren.1
      obtain ⟨slots, rfl, rfl, heach⟩ := ih (Nat.succ.inj hpaired) hchildren.2
      exact ⟨(k, b) :: slots, rfl, rfl, List.forall_mem_cons.2 ⟨hpopulated, heach⟩⟩

/-- A shape with its leaves at one depth, whose parents, keys and values fit, is that of a
subtree. -/
theorem exists_shape_eq {shape : Shape K V}
    (hparents : ∀ node ∈ shape.nodes, ∀ child ∈ node.children, child.parent = some node.handle)
    (hpaired : ∀ node ∈ shape.nodes, node.isBranch → node.keys.length = node.children.length)
    (hpopulated : ∀ node ∈ shape.nodes, ∀ child ∈ node.children, child.leaves ≠ [])
    (haligned : ∀ leaf ∈ shape.leaves, leaf.keys.length = leaf.values.length)
    (hdepth : ∀ d ∈ shape.depths, d = n) (hne : shape.leaves ≠ []) :
    ∃ b : Subtree K V n, b.Populated ∧ b.shape shape.parent = shape := by
  -- By induction on the depth of the leaves, which is the level of the block that is built.
  induction n generalizing shape with
  | zero =>
    cases shape with
    | leaf handle parent next keys values =>
      have hlength : keys.length = values.length :=
        haligned (.leaf handle parent next keys values) (by simp [Shape.leaves])
      refine ⟨⟨handle, next, keys.zip values⟩, trivial, ?_⟩
      show Shape.leaf handle parent next ((keys.zip values).map Prod.fst)
        ((keys.zip values).map Prod.snd) = _
      rw [List.map_fst_zip (Nat.le_of_eq hlength), List.map_snd_zip (Nat.le_of_eq hlength.symm)]
    | branch handle parent keys children =>
      -- A leaf below a branch is at a greater depth than that.
      rw [Shape.leaves] at hne
      obtain ⟨leaf, hleaf⟩ := List.exists_mem_of_ne_nil _ hne
      obtain ⟨child, hchild, hmem⟩ := List.mem_flatMap.1 hleaf
      have hpos : 0 < child.depths.length :=
        child.length_depths ▸ List.length_pos_of_mem hmem
      obtain ⟨d, hd⟩ := List.exists_mem_of_length_pos hpos
      exact absurd (hdepth _ (Shape.mem_depths_of_mem_children hchild hd)) (Nat.succ_ne_zero d)
  | succ n ih =>
    cases shape with
    | leaf handle parent next keys values =>
      exact absurd (hdepth 0 (by simp [Shape.depths])) (Nat.succ_ne_zero n).symm
    | branch handle parent keys children =>
      have hself := (Shape.branch handle parent keys children).mem_nodes_self
      have hchildren : ∀ child ∈ children,
          ∃ b : Subtree K V n, b.Populated ∧ b.shape (some handle) = child := by
        intro child hchild
        have hparent : child.parent = some handle := hparents _ hself child hchild
        rw [← hparent]
        apply ih
        · exact fun node hnode => hparents node (Shape.mem_nodes_of_mem_children hchild hnode)
        · exact fun node hnode => hpaired node (Shape.mem_nodes_of_mem_children hchild hnode)
        · exact fun node hnode => hpopulated node (Shape.mem_nodes_of_mem_children hchild hnode)
        · exact fun leaf hleaf => haligned leaf (Shape.mem_leaves_of_mem_children hchild hleaf)
        · exact fun d hd => Nat.succ.inj (hdepth _ (Shape.mem_depths_of_mem_children hchild hd))
        · exact hpopulated _ hself child hchild
      obtain ⟨slots, rfl, rfl, heach⟩ := exists_slots (hpaired _ hself rfl) hchildren
      refine ⟨⟨handle, none, slots⟩, ⟨?_, heach⟩, rfl⟩
      -- Without children there would be no leaf.
      rintro rfl
      exact hne (by simp [Shape.leaves])

/-! ## Nodes and links of a coherent tree -/

namespace Tree

variable {tree : Tree K V} {shape : Shape K V} {nodes : Arena (Node K V)}

/-- What one finds below a node is its contents as a leaf, or its keys with what one finds below
each of its children. -/
theorem shapeBelow_cases {levels : Nat} {h : Handle}
    (hshape : shapeBelow nodes levels h = .ok shape) :
    (∃ leaf, nodes.get? h = some (.leaf leaf) ∧
      shape = .leaf h leaf.parent leaf.next leaf.keys leaf.values) ∨
    ∃ levels' branch children, nodes.get? h = some (.branch branch) ∧
      branch.children.mapM (shapeBelow nodes levels') = .ok children ∧
      shape = .branch h branch.parent branch.keys children := by
  -- A walk that gives an answer has had a step left.
  cases levels with
  | zero => exact absurd hshape (by simp [shapeBelow])
  | succ levels =>
    unfold shapeBelow at hshape
    obtain ⟨node, hget, hrest⟩ := bind_eq_ok_iff.1 hshape
    rw [Arena.get_eq_ok_iff] at hget
    cases node with
    | leaf leaf => exact .inl ⟨leaf, hget, (Except.ok.inj hrest).symm⟩
    | branch branch =>
      obtain ⟨children, hchildren, hbranch⟩ := bind_eq_ok_iff.1 hrest
      exact .inr ⟨levels, branch, children, hget, hchildren, (Except.ok.inj hbranch).symm⟩

/-- A chain that does not end at once passes the leaf at which it starts. -/
theorem chain_cases {steps : Nat} {start : Option Handle} {passed : List (Handle × Leaf K V)}
    (hchain : chain nodes steps start = .ok passed) :
    (start = none ∧ passed = []) ∨
    ∃ steps' h leaf others, start = some h ∧ getLeaf nodes h = .ok leaf ∧
      chain nodes steps' leaf.next = .ok others ∧ passed = (h, leaf) :: others := by
  cases start with
  | none =>
    unfold chain at hchain
    exact .inl ⟨rfl, (Except.ok.inj hchain).symm⟩
  | some h =>
    cases steps with
    | zero => exact absurd hchain (by simp [chain])
    | succ steps =>
      unfold chain at hchain
      obtain ⟨leaf, hleaf, hrest⟩ := bind_eq_ok_iff.1 hchain
      obtain ⟨others, hothers, hcons⟩ := bind_eq_ok_iff.1 hrest
      exact .inr ⟨steps, h, leaf, others, rfl, hleaf, hothers, (Except.ok.inj hcons).symm⟩

/-- The nodes on which one comes in following a list of children are those whose shapes one finds,
if that is so for each child. -/
private theorem get?_of_mapM {parent : Option Handle} {levels : Nat}
    (hchild : ∀ (b : Subtree K V n) (h : Handle),
      shapeBelow nodes levels h = .ok (b.shape parent) →
        h = b.handle ∧ ∀ cell ∈ b.cells parent, nodes.get? cell.1 = some cell.2)
    {children : List Handle} {slots : List (K × Subtree K V n)}
    (hshapes : children.mapM (shapeBelow nodes levels) =
      .ok (slots.map fun slot => slot.2.shape parent)) :
    children = (slots.map fun slot => slot.2.handle) ∧
      ∀ cell ∈ cellsEach parent slots, nodes.get? cell.1 = some cell.2 := by
  -- By induction on the children; the first of the shapes is that of the first child.
  induction children generalizing slots with
  | nil =>
    obtain rfl := List.map_eq_nil_iff.1 (Except.ok.inj hshapes).symm
    exact ⟨rfl, by simp⟩
  | cons h children ih =>
    obtain ⟨first, others, hfirst, hothers, hslots⟩ := mapM_cons_eq_ok_iff.1 hshapes
    obtain ⟨slot, slots, rfl, rfl, rfl⟩ := List.map_eq_cons_iff.1 hslots
    obtain ⟨rfl, hcells⟩ := hchild slot.2 h hfirst
    obtain ⟨rfl, heach⟩ := ih hothers
    refine ⟨rfl, fun cell hcell => ?_⟩
    rw [cellsEach_cons] at hcell
    exact (Multiset.mem_add.1 hcell).elim (hcells cell) (heach cell)

/-- The nodes on which one comes in following the child lists are the cells of the subtree whose
shape one finds. -/
theorem get?_of_shapeBelow {b : Subtree K V n} {parent : Option Handle} {levels : Nat} {h : Handle}
    (hshape : shapeBelow nodes levels h = .ok (b.shape parent)) :
    h = b.handle ∧ ∀ cell ∈ b.cells parent, nodes.get? cell.1 = some cell.2 := by
  -- By induction on the level of the block; its kind and that of the node have to agree.
  induction n generalizing parent levels h with
  | zero =>
    rcases shapeBelow_cases hshape with
      ⟨⟨⟨keys, values⟩, next, above⟩, hget, hleaf⟩ | ⟨levels, branch, children, -, -, hbranch⟩
    · obtain ⟨rfl, rfl, rfl, rfl, rfl⟩ := Shape.leaf.inj hleaf
      refine ⟨rfl, fun cell hcell => ?_⟩
      obtain rfl := Multiset.mem_singleton.1 hcell
      exact hget
    · exact absurd hbranch (by simp [Block.shape])
  | succ n ih =>
    rcases shapeBelow_cases hshape with
      ⟨leaf, -, hleaf⟩ | ⟨levels, ⟨⟨keys, children⟩, above⟩, shapes, hget, hshapes, hbranch⟩
    · exact absurd hleaf (by simp [Block.shape])
    · obtain ⟨rfl, rfl, rfl, rfl⟩ := Shape.branch.inj hbranch
      obtain ⟨hchildren, hcells⟩ := get?_of_mapM (fun c h hc => ih hc) hshapes
      refine ⟨rfl, fun cell hcell => ?_⟩
      rw [Block.cells_succ] at hcell
      rcases Multiset.mem_cons.1 hcell with rfl | hbelow
      · -- The branch lists the handles of its children.
        rw [hget]
        exact congrArg (fun items => some (Node.branch ⟨⟨_, items⟩, _⟩)) hchildren
      · exact hcells cell hbelow

/-- A chain that passes the handles of some leaves links these in their order. -/
theorem linked_of_chain {leaves : List (Block K V)}
    (hget : ∀ b ∈ leaves, ∃ above, getLeaf nodes b.handle = .ok (b.toLeaf above))
    {steps : Nat} {start : Option Handle} {passed : List (Handle × Leaf K V)}
    (hchain : Tree.chain nodes steps start = .ok passed)
    (hmap : passed.map Prod.fst = leaves.map Block.handle) :
    start = firstOr none leaves ∧ Linked none leaves := by
  -- By induction on the leaves, each of which has to be the next one on the chain.
  induction leaves generalizing steps start passed with
  | nil =>
    rcases chain_cases hchain with ⟨rfl, -⟩ | ⟨steps, h, leaf, others, -, -, -, rfl⟩
    · exact ⟨rfl, trivial⟩
    · exact absurd hmap (List.cons_ne_nil _ _)
  | cons b leaves ih =>
    rw [List.forall_mem_cons] at hget
    obtain ⟨above, hleaf⟩ := hget.1
    rcases chain_cases hchain with ⟨-, rfl⟩ | ⟨steps, h, leaf, others, rfl, hfound, hothers, rfl⟩
    · exact absurd hmap.symm (List.cons_ne_nil _ _)
    · obtain ⟨rfl, htail⟩ := List.cons.inj hmap
      -- The leaf that is read is the first block, so its link is that of the block.
      obtain rfl := Except.ok.inj (hleaf.symm.trans hfound)
      obtain ⟨hnext, hlinked⟩ := ih hget.2 hothers htail
      exact ⟨rfl, hnext, hlinked⟩

namespace Connected

variable [Ord K]

/-- There is a leaf, as the chain starts at one. -/
theorem leaves_ne_nil (hc : tree.Connected shape) : shape.leaves ≠ [] := by
  intro hnil
  obtain ⟨leaves, hleaves, hmap⟩ := hc.chain
  -- The chain starts at a leaf that the links lead to, so it passes one leaf at least.
  unfold Tree.leaves at hleaves
  obtain ⟨first, -, hchain⟩ := bind_eq_ok_iff.1 hleaves
  rw [hnil] at hmap
  have hnone : some first = firstOr none ([] : List (Block K V)) :=
    (linked_of_chain (fun b hb => absurd hb List.not_mem_nil) hchain hmap).1
  exact absurd hnone (Option.some_ne_none first)

/-- The slots in use are the cells of the layout whose shape is that of the tree. -/
theorem holds {layout : Layout K V} (hc : tree.Connected (layout.root.shape none))
    (hget : ∀ cell ∈ layout.cells, tree.nodes.get? cell.1 = some cell.2) :
    tree.nodes.Holds layout.cells := by
  have hhandles : (((layout.root.shape none).nodes.map Shape.handle : List Handle) :
      Multiset Handle) = layout.cells.map Prod.fst := by
    rw [Layout.map_fst_cells]
    exact Block.coe_nodes_shape layout.root none
  refine ⟨hc.sound, ?_, fun h x => ⟨fun hx => ?_, hget (h, x)⟩⟩
  · rw [← hhandles]
    exact Multiset.coe_nodup.2 hc.nodup
  · -- A slot in use is reached, and what it holds is what its cell says.
    have hlive := (hc.live h).1 (Option.isSome_iff_exists.2 ⟨x, hx⟩)
    rw [← Multiset.mem_coe, hhandles] at hlive
    obtain ⟨cell, hcell, rfl⟩ := Multiset.mem_map.1 hlive
    obtain rfl := Option.some.inj (hx.symm.trans (hget cell hcell))
    exact hcell

/-- The nodes of a connected tree lay out a layout of its shape. -/
theorem exists_shows (hc : tree.Connected shape) :
    ∃ layout : Layout K V, tree.Shows layout ∧ layout.root.Populated ∧
      Linked none layout.leaves ∧ layout.root.shape none = shape := by
  -- The layout is built from the shape alone; that the nodes lay it out is read off the links.
  obtain ⟨n, hdepth⟩ := hc.depth
  obtain ⟨root, hpopulated, hshape⟩ :=
    exists_shape_eq hc.parents hc.paired hc.populated hc.aligned hdepth hc.leaves_ne_nil
  rw [hc.root_parent] at hshape
  subst hshape
  obtain ⟨hroot, hget⟩ := get?_of_shapeBelow hc.shape_eq
  have hs : tree.nodes.Holds (Layout.mk n root).cells := hc.holds hget
  refine ⟨⟨n, root⟩, ⟨hs, hroot⟩, hpopulated, ?_, rfl⟩
  -- The chain passes the leaves of the shape, and so those of the layout.
  obtain ⟨leaves, hleaves, hmap⟩ := hc.chain
  unfold Tree.leaves at hleaves
  obtain ⟨first, -, hchain⟩ := bind_eq_ok_iff.1 hleaves
  refine (linked_of_chain (fun b hb => ?_) hchain (hmap.trans ?_)).2
  · obtain ⟨above, hmem⟩ := Block.exists_mem_cells_of_mem_leaves hb
    exact ⟨above, getLeaf_eq hs hmem⟩
  · exact Block.map_leaves_shape root fun leaf above => rfl

theorem ascending_entries {layout : Layout K V} (hc : tree.Connected (layout.root.shape none)) :
    Ascending (layout.entries.map Prod.fst) := by
  rw [← Layout.flatMap_keys_shape]
  exact hc.ascending

theorem size_eq_length {layout : Layout K V} (hc : tree.Connected (layout.root.shape none)) :
    tree.size = layout.entries.length := by
  rw [hc.size, ← List.length_map (f := Prod.fst), ← Layout.flatMap_keys_shape]

/-- A connected tree renders the layout of its shape, if that is exact. -/
theorem renders {layout : Layout K V} (hc : tree.Connected (layout.root.shape none))
    (hshows : tree.Shows layout) (hexact : layout.root.Exact)
    (hlinked : Linked none layout.leaves) : tree.Renders layout :=
  ⟨hshows, hexact, hlinked, hc.ascending_entries, hc.size_eq_length⟩

end Connected

/-- A coherent tree renders a layout of its shape. -/
theorem Coherent.exists_renders [Ord K] (hc : tree.Coherent shape) :
    ∃ layout : Layout K V, tree.Renders layout ∧ layout.root.shape none = shape := by
  obtain ⟨layout, hshows, -, hlinked, rfl⟩ := hc.connected.exists_shows
  have hexact : layout.root.Exact := by
    apply Block.exact_of_cachedExcept (p := (.top : Path K V layout.levels)) hc.cachedExcept
    exact fun _ _ _ => not_false
  exact ⟨layout, hc.connected.renders hshows hexact hlinked, rfl⟩

end Tree

end OrderedIndex
