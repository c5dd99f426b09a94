import OrderedIndex.Proofs.Coherence
import OrderedIndex.Proofs.Divisions

/-!
# Repair of single nodes

The two climbs are called by insertions and removals on leaves only, but nothing in them depends on
that.  In any coherent tree they repair a node on any level that has one key too many or too few,
whatever has made it so, if that is the only thing wrong.
-/

namespace OrderedIndex

variable {K V : Type} {n : Nat}

/-! ## The number of keys in a node -/

namespace Node

/-- A node is filled within the bounds of the fanout.  A root, which is a node without parent, has
no lower bound as a leaf, and at least two children as a branch. -/
def Filled (fanout : Fanout) (node : Node K V) : Prop :=
  node.keyCount ≤ fanout.max ∧
    if node.parent = none then node.isLeaf = false → 2 ≤ node.keyCount
    else fanout.min ≤ node.keyCount

instance (fanout : Fanout) (node : Node K V) : Decidable (node.Filled fanout) :=
  inferInstanceAs (Decidable (_ ∧ ite _ _ _))

/-- A node has exactly one key less than it needs; a root needs another child. -/
def Lacks (fanout : Fanout) (node : Node K V) : Prop :=
  if node.parent = none then node.isLeaf = false ∧ node.keyCount = 1
  else node.keyCount + 1 = fanout.min

/-- A node has exactly one key too many. -/
def Overflows (fanout : Fanout) (node : Node K V) : Prop :=
  node.keyCount = fanout.max + 1

end Node

/-- Each node of a tree but that of the given handle is filled. -/
def Tree.FilledExcept (tree : Tree K V) (h : Handle) : Prop :=
  ∀ g node, tree.nodes.get? g = some node → g ≠ h → node.Filled tree.fanout

theorem Tree.filledExcept_of_ofList {tree : Tree K V} {elements : List (Node K V)} {h : Handle}
    (hnodes : tree.nodes = .ofList elements)
    (hfilled : ∀ place ∈ elements.zipIdx, place.2 ≠ h.index → place.1.Filled tree.fanout) :
    tree.FilledExcept h := by
  intro g node hnode hne
  rw [hnodes, Arena.get?_ofList] at hnode
  apply hfilled (node, g.index) (List.mk_mem_zipIdx_iff_getElem?.2 hnode)
  exact fun hsame => hne (Arena.handle_eq_of_index_eq hsame)

section Occupancy

variable {fanout : Fanout} {parent : Option Handle}

theorem Block.isLeaf_node (b : Subtree K V n) : (b.node parent).isLeaf = (n == 0) := by
  cases n with
  | zero => rfl
  | succ n => rfl

/-- Below the root both bounds of the fanout apply. -/
theorem Block.filled_node_iff {b : Subtree K V n} {h : Handle} :
    (b.node (some h)).Filled fanout ↔ fanout.min ≤ b.count ∧ b.count ≤ fanout.max := by
  rw [Node.Filled, keyCount_node, parent_node, if_neg (Option.some_ne_none h)]
  exact and_comm

/-- A block is admitted at the end of a path if its node is filled. -/
theorem Path.admits_iff {p : Path K V n} {b : Subtree K V n} :
    p.Admits fanout b.count ↔ (b.node p.parent).Filled fanout := by
  cases p with
  | top =>
    rw [Node.Filled, Block.keyCount_node, Block.parent_node, Block.isLeaf_node]
    simp [Path.Admits]
  | step f rest => exact Block.filled_node_iff.symm

/-- The blocks below another one are filled if their nodes are. -/
theorem Block.filledBelow_of_cells {b : Subtree K V n}
    (hcells : ∀ cell ∈ b.below, cell.2.Filled fanout) : b.FilledBelow fanout := by
  -- By induction on the level; what is below the block is what is in the cells of its children.
  induction n with
  | zero => trivial
  | succ n ih =>
    intro slot hslot
    have hchild : ∀ cell ∈ slot.2.cells (some b.handle), cell.2.Filled fanout :=
      fun cell hcell => hcells cell (mem_cellsEach.2 ⟨slot, hslot, hcell⟩)
    rw [cells_eq, Multiset.forall_mem_cons] at hchild
    exact ⟨filled_node_iff.1 hchild.1, ih hchild.2⟩

theorem filledEach_of_cells {h : Handle} {slots : List (K × Subtree K V n)}
    (hcells : ∀ cell ∈ cellsEach (some h) slots, cell.2.Filled fanout) :
    FilledEach fanout slots :=
  Block.filledBelow_of_cells (n := n + 1) (b := ⟨h, none, slots⟩) hcells

/-- The blocks beside and above the end of a path are filled if their nodes are. -/
theorem Path.filled_of_cells {p : Path K V n} {b : Subtree K V n}
    (hcells : ∀ cell ∈ p.cells b.handle, cell.2.Filled fanout) : p.Filled fanout := by
  -- By induction up the path, of which each frame is the node in one cell.
  induction p with
  | top => trivial
  | @step n f rest ih =>
    simp only [Path.cells, Multiset.forall_mem_cons, Multiset.mem_add] at hcells
    obtain ⟨hself, hothers⟩ := hcells
    rw [← Frame.toBranch_plug] at hself
    refine ⟨⟨?_, ?_⟩, ?_, ?_⟩
    · exact filledEach_of_cells fun cell hcell => hothers cell (.inl (.inl hcell))
    · exact filledEach_of_cells fun cell hcell => hothers cell (.inl (.inr hcell))
    · -- The frame is filled as a block with the subtree in its gap.
      have hadmits : rest.Admits fanout (f.plug b).count := Path.admits_iff.2 hself
      rwa [Frame.count_plug] at hadmits
    · exact ih (b := f.plug b) fun cell hcell => hothers cell (.inr hcell)

end Occupancy

/-! ## The place of a node -/

/-- In a tree that renders a layout and is filled but for one node, this node is that of a block at
the end of a path, and all blocks besides are filled. -/
theorem Tree.Renders.exists_place [Ord K] {tree : Tree K V} {layout : Layout K V} {h : Handle}
    {node : Node K V} (hr : tree.Renders layout) (hnode : tree.nodes.get? h = some node)
    (hothers : tree.FilledExcept h) :
    ∃ (n : Nat) (p : Path K V n) (t : Subtree K V n), p.fill t = layout ∧ t.handle = h ∧
      t.node p.parent = node ∧ p.Filled tree.fanout ∧ t.FilledBelow tree.fanout := by
  -- The node has a cell in the layout, and each cell is at the end of a path.
  have hcell : (h, node) ∈ layout.root.cells (Path.top : Path K V layout.levels).parent :=
    (hr.shows.holds.get?_iff h node).1 hnode
  obtain ⟨n, p, t, hfill, rfl, rfl⟩ := Block.exists_path_of_mem_cells hcell
  obtain rfl : p.fill t = layout := hfill
  have hs : tree.nodes.Holds ((t.handle, t.node p.parent) ::ₘ (t.below + p.cells t.handle)) := by
    apply hr.shows.holds.of_eq
    show (p.fill t).cells = _
    rw [Path.cells_fill, Block.cells_eq, add_comm, Multiset.cons_add]
  -- Every other cell has another handle, so its node is filled.
  have hfilled : ∀ cell ∈ t.below + p.cells t.handle, cell.2.Filled tree.fanout := by
    intro cell hcell
    apply hothers cell.1 cell.2 (hs.get?_of_mem (Multiset.mem_cons_of_mem hcell))
    exact fun hsame => hs.not_mem_rest (Multiset.mem_map.2 ⟨cell, hcell, hsame⟩)
  refine ⟨n, p, t, rfl, rfl, rfl, ?_, ?_⟩
  · exact Path.filled_of_cells fun cell hcell => hfilled cell (Multiset.mem_add.2 (.inr hcell))
  · exact Block.filledBelow_of_cells fun cell hcell =>
      hfilled cell (Multiset.mem_add.2 (.inl hcell))

/-! ## Nodes with a key too few -/

/-- A node that is filled or lacks one key is tolerated by the climb. -/
theorem Path.tolerates_of_lacks {fanout : Fanout} {p : Path K V n} {t : Subtree K V n}
    (hself : (t.node p.parent).Filled fanout ∨ (t.node p.parent).Lacks fanout) :
    p.Tolerates fanout t.count ∧ t.count ≤ fanout.max := by
  have hlt := fanout.min_lt_max
  have hthree := fanout.three_le_max
  cases p with
  | top =>
    rw [Node.Filled, Node.Lacks, Block.keyCount_node, Block.parent_node, Block.isLeaf_node,
      beq_eq_false_iff_ne, Path.parent_top, if_pos rfl, if_pos rfl] at hself
    -- A root that lacks a child has one, and any other node that lacks a key has one less than the
    -- fewest.
    refine ⟨fun hn => ?_, ?_⟩
    · have hcount : 2 ≤ t.count ∨ t.count = 1 :=
        hself.imp (fun hfilled => hfilled.2 hn) And.right
      omega
    · have hcount : t.count ≤ fanout.max ∨ t.count = 1 := hself.imp And.left And.right
      omega
  | step f rest =>
    rw [Path.parent_step, Block.filled_node_iff, Node.Lacks, Block.keyCount_node,
      Block.parent_node, if_neg (Option.some_ne_none _)] at hself
    have hcount : fanout.min ≤ t.count + 1 ∧ t.count ≤ fanout.max := by omega
    exact hcount

/-- Moving the contents of a node that has one key too few, and those of its ancestors as far as
needed, repairs any coherent tree in which nothing else is wrong. -/
theorem resolveUnderflow_repairs [Ord K] {tree : Tree K V} {shape : Shape K V} {h : Handle}
    {node : Node K V} (hc : tree.Coherent shape) (hnode : tree.nodes.get? h = some node)
    (hothers : tree.FilledExcept h)
    (hself : node.Filled tree.fanout ∨ node.Lacks tree.fanout) :
    ∃ tree' events shape', tree.resolveUnderflow h = .ok (tree', events) ∧
      tree'.fanout = tree.fanout ∧ tree'.Coherent shape' ∧ tree'.Intact shape' ∧
      tree'.size = tree.size ∧ shape'.entries = shape.entries ∧
      (node.Filled tree.fanout → tree' = tree ∧ events = []) := by
  obtain ⟨layout, hr, rfl⟩ := hc.exists_renders
  obtain ⟨n, p, t, rfl, rfl, rfl, hpath, hbelow⟩ := hr.exists_place hnode hothers
  obtain ⟨htolerated, hmax⟩ := Path.tolerates_of_lacks hself
  -- That is all that the climb asks for, wherever the node is.
  have hshort : Short tree.fanout p t := ⟨htolerated, hmax, hbelow, hpath, hr.exact⟩
  obtain ⟨layout', events, nodes, root, hresolve, hmends, hshows⟩ :=
    Tree.resolveUnderflow_eq hr.shows hshort
  have hcarries : ({ tree with nodes, root } : Tree K V).Carries layout' :=
    hr.carries hshows (hmends.rearranges hshort) (hmends.filled hshort)
  refine ⟨_, events, _, hresolve, rfl, hcarries.coherent, hcarries.intact, rfl, ?_, ?_⟩
  · rw [Layout.entries_shape, Layout.entries_shape, (hmends.rearranges hshort).entries]
  · -- At a node that is filled the climb ends at once, so there is no other outcome.
    intro hfilled
    have hsame := Tree.resolveUnderflow_of_admits hr.shows (Path.admits_iff.2 hfilled)
    exact Prod.mk.inj (Except.ok.inj (hresolve.symm.trans hsame))

/-- A tree of three levels in which the first branch below the root has a single child. -/
def lopsided : Tree Nat Nat where
  fanout := .standard
  nodes := .ofList
    [.leaf ⟨⟨[10, 20], [1, 2]⟩, some ⟨1⟩, some ⟨3⟩⟩,
      .leaf ⟨⟨[30, 40], [3, 4]⟩, some ⟨2⟩, some ⟨4⟩⟩,
      .leaf ⟨⟨[50, 60], [5, 6]⟩, none, some ⟨4⟩⟩,
      .branch ⟨⟨[20], [⟨0⟩]⟩, some ⟨5⟩⟩,
      .branch ⟨⟨[40, 60], [⟨1⟩, ⟨2⟩]⟩, some ⟨5⟩⟩,
      .branch ⟨⟨[20, 60], [⟨3⟩, ⟨4⟩]⟩, none⟩]
  root := ⟨5⟩
  size := 6

/-- What one finds on following the links of that tree. -/
def lopsidedShape : Shape Nat Nat :=
  .branch ⟨5⟩ none [20, 60]
    [.branch ⟨3⟩ (some ⟨5⟩) [20] [.leaf ⟨0⟩ (some ⟨3⟩) (some ⟨1⟩) [10, 20] [1, 2]],
      .branch ⟨4⟩ (some ⟨5⟩) [40, 60]
        [.leaf ⟨1⟩ (some ⟨4⟩) (some ⟨2⟩) [30, 40] [3, 4],
          .leaf ⟨2⟩ (some ⟨4⟩) none [50, 60] [5, 6]]]

theorem lopsided_coherent : lopsided.Coherent lopsidedShape := by
  have hhandles : lopsidedShape.nodes.map Shape.handle = [⟨5⟩, ⟨3⟩, ⟨0⟩, ⟨4⟩, ⟨1⟩, ⟨2⟩] := by
    simp [lopsidedShape, Shape.nodes, Shape.handle]
  have hkeys : lopsidedShape.leaves.flatMap Shape.keys = [10, 20, 30, 40, 50, 60] := by
    simp [lopsidedShape, Shape.leaves, Shape.keys]
  have hplaces : ((lopsidedShape.nodes.map Shape.handle).map Handle.index).Perm (List.range 6) := by
    rw [hhandles]
    decide
  exact {
    shape_eq := rfl
    sound := Arena.sound_ofList _
    nodup := Arena.nodup_of_perm_range hplaces
    live := Arena.isSome_get?_ofList hplaces
    root_parent := rfl
    parents := by
      simp [lopsidedShape, Shape.nodes, Shape.children, Shape.parent, Shape.handle]
    cached := by
      simp [lopsidedShape, Shape.nodes, Shape.children, Shape.isBranch, Shape.keys,
        Shape.lastKey?, Shape.leaves]
    aligned := by
      simp [lopsidedShape, Shape.leaves, Shape.keys, Shape.values]
    ascending := by
      rw [hkeys, Ascending]
      decide
    depth := ⟨2, by simp [lopsidedShape, Shape.depths]⟩
    chain := ⟨_, rfl, by simp [lopsidedShape, Shape.leaves, Shape.handle]⟩
    size := by
      rw [hkeys]
      rfl }

/-- The branch is merged with the one beside it, which then is the only child of the root. -/
theorem resolveUnderflow_repairs_lopsided :
    ∃ tree' shape', lopsided.resolveUnderflow ⟨3⟩ =
        .ok (tree', [.merged ⟨3⟩ ⟨4⟩ 3, .collapsed ⟨3⟩ 2]) ∧
      tree'.Intact shape' ∧ shape'.entries = lopsidedShape.entries := by
  have hothers : lopsided.FilledExcept ⟨3⟩ := Tree.filledExcept_of_ofList rfl (by decide)
  obtain ⟨tree', events, shape', hresolve, -, -, hintact, -, hentries, -⟩ :=
      resolveUnderflow_repairs lopsided_coherent (h := ⟨3⟩) rfl hothers (.inr rfl)
  -- The climb is evaluated for its events; that it repairs the tree comes from the theorem.
  have hevents : (lopsided.resolveUnderflow ⟨3⟩).map Prod.snd =
      .ok [.merged ⟨3⟩ ⟨4⟩ 3, .collapsed ⟨3⟩ 2] := by decide +kernel
  rw [hresolve] at hevents
  obtain rfl := Except.ok.inj hevents
  exact ⟨tree', shape', hresolve, hintact, hentries⟩

/-! ## Nodes with a key too many -/

/-- Each of some cells has one with the same handle and a node of the same kind among others. -/
def Retains (cells cells' : Multiset (Handle × Node K V)) : Prop :=
  ∀ h node, (h, node) ∈ cells → ∃ node', (h, node') ∈ cells' ∧ node'.isLeaf = node.isLeaf

namespace Retains

variable {cells cells' cells'' others others' : Multiset (Handle × Node K V)}

theorem of_subset (hsub : cells ⊆ cells') : Retains cells cells' :=
  fun _ node hcell => ⟨node, hsub hcell, rfl⟩

theorem trans (h : Retains cells cells') (h' : Retains cells' cells'') : Retains cells cells'' := by
  intro g node hcell
  obtain ⟨node', hcell', hkind⟩ := h g node hcell
  obtain ⟨node'', hcell'', hkind'⟩ := h' g node' hcell'
  exact ⟨node'', hcell'', hkind'.trans hkind⟩

theorem add (h : Retains cells cells') (h' : Retains others others') :
    Retains (cells + others) (cells' + others') := by
  intro g node hcell
  rcases Multiset.mem_add.1 hcell with hleft | hright
  · obtain ⟨node', hcell', hkind⟩ := h g node hleft
    exact ⟨node', Multiset.mem_add.2 (.inl hcell'), hkind⟩
  · obtain ⟨node', hcell', hkind⟩ := h' g node hright
    exact ⟨node', Multiset.mem_add.2 (.inr hcell'), hkind⟩

theorem singleton {h : Handle} {node node' : Node K V} (hkind : node'.isLeaf = node.isLeaf) :
    Retains {(h, node)} {(h, node')} := by
  intro g other hcell
  obtain ⟨rfl, rfl⟩ := Prod.mk.inj (Multiset.mem_singleton.1 hcell)
  exact ⟨node', Multiset.mem_singleton_self _, hkind⟩

end Retains

section Retained

variable {parent parent' : Option Handle}

/-- Another parent changes no more than the links to it. -/
theorem Block.retains_cells (b : Subtree K V n) : Retains (b.cells parent) (b.cells parent') := by
  rw [cells_eq, cells_eq, ← Multiset.singleton_add, ← Multiset.singleton_add]
  -- A leaf stays a leaf and a branch a branch, whichever parent it names.
  apply Retains.add
  · apply Retains.singleton
    rw [isLeaf_node, isLeaf_node]
  · exact .of_subset (Multiset.Subset.refl _)

theorem retains_cellsEach (slots : List (K × Subtree K V n)) :
    Retains (cellsEach parent slots) (cellsEach parent' slots) := by
  induction slots with
  | nil => exact .of_subset (Multiset.Subset.refl _)
  | cons slot slots ih =>
    rw [cellsEach_cons, cellsEach_cons]
    exact slot.2.retains_cells.add ih

/-- The halves of a block hold what it has held, the lower one in its slot. -/
theorem Block.retains_halves (t : Subtree K V n) (right : Handle) :
    Retains (t.cells parent) ((t.lower right).cells parent' + (t.upper right).cells parent') := by
  have hself : Retains {(t.handle, t.node parent)}
      {((t.lower right).handle, Block.node (n := n) parent' (t.lower right))} := by
    apply Retains.singleton
    rw [isLeaf_node, isLeaf_node]
  have hbelow : Retains t.below (Block.below (n := n) (t.lower right) +
      (t.upper right).cells parent') := by
    -- What is below a leaf is nothing; the children of a branch are shared by its halves.
    cases n with
    | zero => exact .of_subset (Multiset.zero_subset _)
    | succ n =>
      rw [below, ← t.lower_append_upper right, cellsEach_append]
      apply (retains_cellsEach _).add
      rw [cells_succ]
      exact (retains_cellsEach _).trans (.of_subset (Multiset.subset_cons _ _))
  rw [cells_eq, cells_eq (t.lower right), ← Multiset.singleton_add, ← Multiset.singleton_add,
    add_assoc]
  exact hself.add hbelow

/-- A step of the climb that changes some children of a branch retains the rest. -/
theorem Path.retains_fill (rest : Path K V (n + 1)) (f : Frame K (Subtree K V n))
    {slots slots' : List (K × Subtree K V n)}
    (hslots : Retains (cellsEach (some f.handle) slots) (cellsEach (some f.handle) slots')) :
    Retains (rest.fill (f.fill slots)).cells (rest.fill (f.fill slots')).cells := by
  rw [cells_fill_slots, cells_fill_slots, ← Multiset.singleton_add, ← Multiset.singleton_add]
  apply hslots.add
  refine Retains.add (.singleton ?_) (.of_subset (Multiset.Subset.refl _))
  rfl

end Retained

/-- The climb from an overfull node releases no slot, and changes no leaf into a branch. -/
theorem Splits.retains {fanout : Fanout} {p : Path K V n} {t : Subtree K V n}
    {layout : Layout K V} {events : List Event} (hsplits : Splits fanout p t layout events) :
    Retains (p.fill t).cells layout.cells := by
  -- One step divides a node and puts its halves in the place of it; all other children stay.
  have hstep {n : Nat} (f : Frame K (Subtree K V n)) (rest : Path K V (n + 1)) (t : Subtree K V n)
      (right : Handle) (k₁ : K) : Retains ((Path.step f rest).fill t).cells
        (rest.fill (f.fill (t.halves right k₁ f.key))).cells := by
    rw [Path.fill, ← Frame.fill_singleton]
    apply rest.retains_fill f
    simpa [Block.halves] using t.retains_halves right
  -- By induction on the climb, of which each step retains what it does not divide.
  induction hsplits with
  | @root n t right root k₁ k hright hroot hk₁ hk =>
    show Retains (t.cells none) (Block.cells (n := n + 1) none ⟨root, none, t.halves right k₁ k⟩)
    rw [Block.cells_succ, Block.halves, cellsEach_cons, cellsEach_cons, cellsEach_nil, add_zero]
    exact (t.retains_halves right).trans (.of_subset (Multiset.subset_cons _ _))
  | fits hright hk₁ hk hroom => exact hstep _ _ _ _ _
  | overflows hright hk₁ hk hfull hrest ih => exact (hstep _ _ _ _ _).trans ih

/-- Dividing a node that has one key too many, and its ancestors as far as needed, repairs any
coherent tree in which nothing else is wrong. -/
theorem resolveOverflow_repairs [Ord K] {tree : Tree K V} {shape : Shape K V} {h : Handle}
    {node : Node K V} (hc : tree.Coherent shape) (hnode : tree.nodes.get? h = some node)
    (hothers : tree.FilledExcept h) (hself : node.Overflows tree.fanout) :
    ∃ tree' events shape', tree.resolveOverflow h = .ok (tree', events) ∧
      tree'.fanout = tree.fanout ∧ tree'.Coherent shape' ∧ tree'.Intact shape' ∧
      tree'.size = tree.size ∧ shape'.entries = shape.entries ∧
      (∀ g old, tree.nodes.get? g = some old →
        ∃ new, tree'.nodes.get? g = some new ∧ new.isLeaf = old.isLeaf) ∧
      ∀ left right leaf leftKeys rightKeys,
        Event.split left right leaf leftKeys rightKeys ∈ events →
          (tree.fanout.min ≤ leftKeys ∧ leftKeys ≤ tree.fanout.max) ∧
            tree.fanout.min ≤ rightKeys ∧ rightKeys ≤ tree.fanout.max := by
  obtain ⟨layout, hr, rfl⟩ := hc.exists_renders
  obtain ⟨n, p, t, rfl, rfl, rfl, hpath, hbelow⟩ := hr.exists_place hnode hothers
  rw [Node.Overflows, Block.keyCount_node] at hself
  have ho : Overfull tree.fanout p t := ⟨hself, hbelow, hpath, hr.exact⟩
  obtain ⟨layout', events, nodes, root, hresolve, hsplits, hshows⟩ :=
    Tree.resolveOverflow_eq hr.shows ho
  have hcarries : ({ tree with nodes, root } : Tree K V).Carries layout' :=
    hr.carries hshows (hsplits.rearranges ho) (hsplits.filled ho)
  refine ⟨_, events, _, hresolve, rfl, hcarries.coherent, hcarries.intact, rfl, ?_, ?_, ?_⟩
  · rw [Layout.entries_shape, Layout.entries_shape, (hsplits.rearranges ho).entries]
  · intro g old hold
    obtain ⟨new, hnew, hkind⟩ := hsplits.retains g old ((hr.shows.holds.get?_iff g old).1 hold)
    exact ⟨new, hshows.holds.get?_of_mem hnew, hkind⟩
  · obtain ⟨halves, -, hevents⟩ := hsplits.events_eq ho
    intro left right leaf leftKeys rightKeys hmem
    rw [hevents] at hmem
    obtain ⟨rfl, rfl⟩ := keys_of_split_mem hmem
    -- The bounds hold for an odd and for an even largest number of keys.
    have htwice := tree.fanout.two_mul_min_le
    have hlt := tree.fanout.min_lt_max
    have htwo := tree.fanout.two_le_min
    omega

/-- A tree of two levels in which the root has four children, where three are allowed. -/
def crowded : Tree Nat Nat where
  fanout := .standard
  nodes := .ofList
    [.leaf ⟨⟨[10, 20], [1, 2]⟩, some ⟨1⟩, some ⟨4⟩⟩,
      .leaf ⟨⟨[30, 40], [3, 4]⟩, some ⟨2⟩, some ⟨4⟩⟩,
      .leaf ⟨⟨[50, 60], [5, 6]⟩, some ⟨3⟩, some ⟨4⟩⟩,
      .leaf ⟨⟨[70, 80], [7, 8]⟩, none, some ⟨4⟩⟩,
      .branch ⟨⟨[20, 40, 60, 80], [⟨0⟩, ⟨1⟩, ⟨2⟩, ⟨3⟩]⟩, none⟩]
  root := ⟨4⟩
  size := 8

/-- What one finds on following the links of that tree. -/
def crowdedShape : Shape Nat Nat :=
  .branch ⟨4⟩ none [20, 40, 60, 80]
    [.leaf ⟨0⟩ (some ⟨4⟩) (some ⟨1⟩) [10, 20] [1, 2],
      .leaf ⟨1⟩ (some ⟨4⟩) (some ⟨2⟩) [30, 40] [3, 4],
      .leaf ⟨2⟩ (some ⟨4⟩) (some ⟨3⟩) [50, 60] [5, 6],
      .leaf ⟨3⟩ (some ⟨4⟩) none [70, 80] [7, 8]]

theorem crowded_coherent : crowded.Coherent crowdedShape := by
  have hhandles : crowdedShape.nodes.map Shape.handle = [⟨4⟩, ⟨0⟩, ⟨1⟩, ⟨2⟩, ⟨3⟩] := by
    simp [crowdedShape, Shape.nodes, Shape.handle]
  have hkeys : crowdedShape.leaves.flatMap Shape.keys = [10, 20, 30, 40, 50, 60, 70, 80] := by
    simp [crowdedShape, Shape.leaves, Shape.keys]
  have hplaces : ((crowdedShape.nodes.map Shape.handle).map Handle.index).Perm (List.range 5) := by
    rw [hhandles]
    decide
  exact {
    shape_eq := rfl
    sound := Arena.sound_ofList _
    nodup := Arena.nodup_of_perm_range hplaces
    live := Arena.isSome_get?_ofList hplaces
    root_parent := rfl
    parents := by
      simp [crowdedShape, Shape.nodes, Shape.children, Shape.parent, Shape.handle]
    cached := by
      simp [crowdedShape, Shape.nodes, Shape.children, Shape.isBranch, Shape.keys,
        Shape.lastKey?, Shape.leaves]
    aligned := by
      simp [crowdedShape, Shape.leaves, Shape.keys, Shape.values]
    ascending := by
      rw [hkeys, Ascending]
      decide
    depth := ⟨1, by simp [crowdedShape, Shape.depths]⟩
    chain := ⟨_, rfl, by simp [crowdedShape, Shape.leaves, Shape.handle]⟩
    size := by
      rw [hkeys]
      rfl }

/-- The root is divided, and a new one is placed above its halves. -/
theorem resolveOverflow_repairs_crowded :
    ∃ tree' shape', crowded.resolveOverflow ⟨4⟩ =
        .ok (tree', [.split ⟨4⟩ ⟨5⟩ false 2 2, .promoted ⟨6⟩ 3]) ∧
      tree'.Intact shape' ∧ shape'.entries = crowdedShape.entries := by
  have hothers : crowded.FilledExcept ⟨4⟩ := Tree.filledExcept_of_ofList rfl (by decide)
  obtain ⟨tree', events, shape', hresolve, -, -, hintact, -, hentries, -⟩ :=
    resolveOverflow_repairs crowded_coherent (h := ⟨4⟩) rfl hothers rfl
  -- The climb is evaluated for its events; that it repairs the tree comes from the theorem.
  have hevents : (crowded.resolveOverflow ⟨4⟩).map Prod.snd =
      .ok [.split ⟨4⟩ ⟨5⟩ false 2 2, .promoted ⟨6⟩ 3] := by decide +kernel
  rw [hresolve] at hevents
  obtain rfl := Except.ok.inj hevents
  exact ⟨tree', shape', hresolve, hintact, hentries⟩

end OrderedIndex
