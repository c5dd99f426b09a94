import OrderedIndex.Proofs.Descent
import OrderedIndex.Proofs.Maxima
import OrderedIndex.Proofs.Splitting
import OrderedIndex.Tree.Overflow

/-!
# Runs of the overflow climb

An overfull node at the end of a path can be divided, its new sibling can be listed in the parent,
and where there is no parent a new root can be placed above the two.  So the climb runs to its end,
and follows a derivation of the relation on layouts.
-/

namespace OrderedIndex.Tree

variable {K V : Type} {n : Nat} {nodes : Arena (Node K V)} {rest : Multiset (Handle × Node K V)}
  {parent : Option Handle}

/-! ## The division of one node -/

theorem split_toLeaf (t : Block K V) (right : Handle) : (t.toLeaf parent).split =
    ({ (t.lower right).toLeaf parent with next := t.next }, (t.upper right).toLeaf parent) := by
  unfold Leaf.split
  rw [Block.keyCount_toLeaf]
  simp [Columns.split, Block.toLeaf, Block.lower, Block.upper, List.map_take, List.map_drop]

theorem split_toBranch (t : Subtree K V (n + 1)) (right : Handle) :
    (t.toBranch parent).split =
      ((t.lower right).toBranch parent, (t.upper right).toBranch parent) := by
  unfold Branch.split
  rw [Block.childCount_toBranch]
  simp [Columns.split, Block.toBranch, Block.lower, Block.upper, List.map_take, List.map_drop]

private theorem splitNode_leaf {t : Block K V}
    (hs : nodes.Holds (Block.cells (n := 0) parent t + rest)) :
    ∃ right nodes', right ∉ (Block.cells (n := 0) parent t + rest).map Prod.fst ∧
      splitNode nodes t.handle = .ok (right, nodes', Block.splitEvent (n := 0) right t) ∧
      nodes'.Holds (Block.cells (n := 0) parent (t.lower right) +
        Block.cells (n := 0) parent (t.upper right) + rest) := by
  have hget := hs.get_of_mem (Block.mem_cells_add (n := 0) t rest)
  obtain ⟨right, nodes₁, halloc, hfresh, hs₁⟩ :=
    hs.alloc (.leaf ((t.upper t.handle).toLeaf parent))
  -- The lower half is written over the leaf that is divided, whose cell comes first.
  have hs₂ : nodes₁.Holds ((t.handle, .leaf (t.toLeaf parent)) ::ₘ
      ((right, .leaf ((t.upper right).toLeaf parent)) ::ₘ rest)) :=
    hs₁.of_eq (Multiset.cons_swap _ _ _)
  have hcells : Block.cells (n := 0) parent (t.lower right) +
      Block.cells (n := 0) parent (t.upper right) + rest =
        (t.handle, .leaf ((t.lower right).toLeaf parent)) ::ₘ
          ((right, .leaf ((t.upper right).toLeaf parent)) ::ₘ rest) := by
    simp only [Block.cells_leaf, ← Multiset.singleton_add, Block.handle_lower, Block.handle_upper]
    abel
  refine ⟨right, _, hfresh, ?_, (hs₂.put (.leaf ((t.lower right).toLeaf parent))).of_eq hcells.symm⟩
  unfold splitNode
  rw [hget, ok_bind]
  -- The content of the upper half does not depend on the slot that it is given.
  have halloc' : nodes.alloc (.leaf ((t.upper right).toLeaf parent)) = (right, nodes₁) := halloc
  simp only [Block.node, split_toLeaf t right, halloc', Block.keyCount_toLeaf]
  rfl

/-- A branch is divided in two, and the new one adopts the upper half of the children.  The keys
that the two have cached are exact already. -/
theorem adopt_upper {t : Subtree K V (n + 1)} (hs : nodes.Holds (t.cells parent + rest))
    (he : t.Exact) :
    ∃ right nodes₁ nodes₂, right ∉ (t.cells parent + rest).map Prod.fst ∧
      nodes.alloc (.branch ((t.upper right).toBranch parent)) = (right, nodes₁) ∧
      adopt (nodes₁.put t.handle (.branch ((t.lower right).toBranch parent)))
        ((t.upper right).toBranch parent).children right = .ok nodes₂ ∧
      nodes₂.Holds (Block.cells (n := n + 1) parent (t.lower right) +
        Block.cells (n := n + 1) parent (t.upper right) + rest) ∧
      UpToDate nodes₂ t.handle ∧ UpToDate nodes₂ right := by
  obtain ⟨right, nodes₁, halloc, hfresh, hs₁⟩ :=
    hs.alloc (.branch ((t.upper t.handle).toBranch parent))
  -- The cells of the children are told apart by the half to which they belong.
  have hs₂ : nodes₁.Holds ((t.handle, .branch (t.toBranch parent)) ::ₘ
      (cellsEach (some t.handle) (t.upper right).pairs +
        ((right, .branch ((t.upper right).toBranch parent)) ::ₘ
          (cellsEach (some t.handle) (t.lower right).pairs + rest)))) := by
    apply hs₁.of_eq
    rw [Block.cells_branch, ← t.lower_append_upper right, cellsEach_append]
    simp only [← Multiset.singleton_add]
    have hsame : (t.upper t.handle).toBranch parent = (t.upper right).toBranch parent := rfl
    rw [hsame]
    abel
  obtain ⟨nodes₂, hadopt, hs₃⟩ :=
    adopt_eq (((hs₂.put (.branch ((t.lower right).toBranch parent)))).of_eq
      (add_left_comm (G := Multiset (Handle × Node K V)) {_} _ _)) right
  have hs₄ : nodes₂.Holds (Block.cells (n := n + 1) parent (t.lower right) +
      (Block.cells (n := n + 1) parent (t.upper right) + rest)) := by
    apply hs₃.of_eq
    simp only [Block.cells_branch, Block.handle_lower, Block.handle_upper,
      ← Multiset.singleton_add]
    abel
  have hlower : Block.Exact (n := n + 1) (t.lower right) :=
    fun slot hslot => he slot (List.mem_of_mem_take hslot)
  have hupper : Block.Exact (n := n + 1) (t.upper right) :=
    fun slot hslot => he slot (List.mem_of_mem_drop hslot)
  exact ⟨right, nodes₁, nodes₂, hfresh, halloc, hadopt, hs₄.of_eq (add_assoc _ _ _).symm,
    upToDate_of_exact (b := t.lower right) hs₄ hlower,
    upToDate_of_exact (b := t.upper right) (hs₄.of_eq (add_left_comm _ _ _)) hupper⟩

private theorem splitNode_branch {t : Subtree K V (n + 1)}
    (hs : nodes.Holds (t.cells parent + rest)) (he : t.Exact) :
    ∃ right nodes', right ∉ (t.cells parent + rest).map Prod.fst ∧
      splitNode nodes t.handle = .ok (right, nodes', Block.splitEvent (n := n + 1) right t) ∧
      nodes'.Holds (Block.cells (n := n + 1) parent (t.lower right) +
        Block.cells (n := n + 1) parent (t.upper right) + rest) := by
  obtain ⟨right, nodes₁, nodes₂, hfresh, halloc, hadopt, hs', hleft, hright⟩ := adopt_upper hs he
  have hgetLeft := hs'.get_of_mem
    (Multiset.mem_add.2 (.inl (Block.mem_cells_add (t.lower right) _)))
  have hgetRight := hs'.get_of_mem
    (Multiset.mem_add.2 (.inl (Multiset.mem_add.2 (.inr (Block.mem_cells_self _)))))
  rw [Block.handle_lower] at hgetLeft
  rw [Block.handle_upper] at hgetRight
  refine ⟨right, nodes₂, hfresh, ?_, hs'⟩
  unfold splitNode
  rw [hs.get_of_mem (t.mem_cells_add rest), ok_bind]
  -- Bringing the keys of each half up to date changes nothing.
  simp only [Block.node, split_toBranch t right, halloc, hadopt, ok_bind,
    Refreshes.written_maxima, refreshMaxima_of_upToDate hleft, refreshMaxima_of_upToDate hright]
  simp only [hgetLeft, hgetRight, ok_bind, Block.keyCount_node]
  rfl

/-- A block is divided in two, of which the upper one has a slot of its own. -/
theorem splitNode_eq {t : Subtree K V n} (hs : nodes.Holds (t.cells parent + rest))
    (he : t.Exact) :
    ∃ right nodes', right ∉ (t.cells parent + rest).map Prod.fst ∧
      splitNode nodes t.handle = .ok (right, nodes', t.splitEvent right) ∧
      nodes'.Holds (Block.cells (n := n) parent (t.lower right) +
        Block.cells (n := n) parent (t.upper right) + rest) := by
  -- A leaf is divided in place; a branch has children that change their parent.
  cases n with
  | zero => exact splitNode_leaf hs
  | succ n => exact splitNode_branch hs he

/-! ## The new child of a parent -/

/-- The upper half is listed directly behind the gap, in which the lower half stands. -/
theorem insertChild_halves (f : Frame K (Subtree K V n)) (t : Subtree K V n) (right : Handle)
    (k₁ : K) :
    ((f.rekey k₁).toBranch parent t.handle).insertChild (f.before.length + 1) f.key right =
      .ok (Block.toBranch parent (f.fill (t.halves right k₁ f.key))) := by
  have hkeys := insertIdx_behind (f.before.map Prod.fst) (f.after.map Prod.fst) k₁ f.key
  have hitems := insertIdx_behind (f.before.map fun slot => slot.2.handle)
    (f.after.map fun slot => slot.2.handle) t.handle right
  rw [List.length_map] at hkeys hitems
  simp [Branch.insertChild, Columns.insert, Frame.toBranch, Frame.rekey, hkeys, hitems,
    Block.toBranch, Frame.fill, Block.halves]

/-- The two halves of a block take its place in the parent. -/
theorem listSibling_eq {nodes₀ : Arena (Node K V)} {f : Frame K (Subtree K V n)}
    {above : Path K V (n + 1)} {t : Subtree K V n} {right : Handle} {k₁ : K}
    (hs₀ : nodes₀.Holds ((Path.step f above).fill t).cells)
    (hs : nodes.Holds ((t.lower right).cells (some f.handle) +
      (t.upper right).cells (some f.handle) + (Path.step f above).cells t.handle))
    (hk₁ : (t.lower right).maxKey? = some k₁) (hk : (t.upper right).maxKey? = some f.key) :
    ∃ nodes', listSibling nodes f.handle t.handle right = .ok nodes' ∧
      nodes'.Holds (above.fill (f.fill (t.halves right k₁ f.key))).cells := by
  have hleft : maxKey .emptyHalf nodes t.handle = .ok k₁ :=
    maxKey_eq (b := t.lower right) hs
      (Multiset.mem_add.2 (.inl (Block.mem_cells_add (t.lower right) _))) hk₁
  have hright : maxKey .emptyHalf nodes right = .ok f.key :=
    maxKey_eq (b := t.upper right) hs
      (Multiset.mem_add.2 (.inl (Multiset.mem_add.2 (.inr (Block.mem_cells_self _))))) hk
  -- The cached key of the old child becomes that of the lower half, and the upper half is listed
  -- behind it with the key that was there.
  have hchange : (do
      let i ← (f.toBranch above.parent t.handle).positionOf t.handle
      (← (f.toBranch above.parent t.handle).setKey i k₁).insertChild (i + 1) f.key right) =
        .ok (Block.toBranch above.parent (f.fill (t.halves right k₁ f.key))) := by
    rw [positionOf_hole hs₀, ok_bind, setKey_hole, ok_bind]
    exact insertChild_halves f t right k₁
  have hs₁ : nodes.Holds ((f.handle, .branch (f.toBranch above.parent t.handle)) ::ₘ
      (cellsEach (some f.handle) f.before + cellsEach (some f.handle) f.after +
        above.cells f.handle + ((t.lower right).cells (some f.handle) +
          (t.upper right).cells (some f.handle)))) := by
    apply hs.of_eq
    rw [Path.cells, ← Multiset.singleton_add, ← Multiset.singleton_add]
    abel
  obtain ⟨nodes', hmodify, hs'⟩ := modifyBranch_eq
    (f := fun branch => do
      let i ← branch.positionOf t.handle
      (← branch.setKey i k₁).insertChild (i + 1) f.key right) hs₁ hchange
  refine ⟨nodes', ?_, hs'.of_eq ?_⟩
  · unfold listSibling
    rw [hleft, ok_bind, hright, ok_bind]
    exact hmodify
  · rw [Path.cells_fill, Block.cells_branch]
    simp only [Frame.fill, Block.halves, cellsEach_append, cellsEach_cons, cellsEach_nil,
      ← Multiset.singleton_add]
    abel

/-- A new root is placed above the two halves of the old one. -/
theorem promoteRoot_eq (tree : Tree K V) {t : Subtree K V n} {right : Handle} {k₁ k : K}
    (hs : tree.nodes.Holds ((t.lower right).cells none + (t.upper right).cells none))
    (hk₁ : (t.lower right).maxKey? = some k₁) (hk : (t.upper right).maxKey? = some k)
    (hlower : (t.lower right).Populated) (hupper : (t.upper right).Populated) :
    ∃ root nodes, root ∉ (t.lower right).handles + (t.upper right).handles ∧
      tree.promoteRoot t.handle right =
        .ok ({ tree with nodes, root }, .promoted root (n + 2)) ∧
      ({ tree with nodes, root } : Tree K V).Shows
        ⟨n + 1, ⟨root, none, t.halves right k₁ k⟩⟩ := by
  have hleft : maxKey .emptyHalf tree.nodes t.handle = .ok k₁ :=
    maxKey_eq (b := t.lower right) hs (Block.mem_cells_add (t.lower right) _) hk₁
  have hright : maxKey .emptyHalf tree.nodes right = .ok k :=
    maxKey_eq (b := t.upper right) hs (Multiset.mem_add.2 (.inr (Block.mem_cells_self _))) hk
  obtain ⟨root, nodes₁, halloc, hfresh, hs₁⟩ :=
    hs.alloc (.branch ((Branch.empty.push k₁ t.handle).push k right))
  rw [Multiset.map_add, Block.map_fst_cells, Block.map_fst_cells] at hfresh
  -- Both halves get the new root as their parent.
  obtain ⟨nodes₂, hset₂, hs₂⟩ := setParent_eq (b := t.lower right)
    (hs₁.of_eq (by rw [← Multiset.singleton_add, add_left_comm])) (some root)
  obtain ⟨nodes₃, hset₃, hs₃⟩ := setParent_eq (b := t.upper right)
    (hs₂.of_eq (by rw [← add_assoc, add_comm])) (some root)
  have hshows : ({ tree with nodes := nodes₃, root } : Tree K V).Shows
      ⟨n + 1, ⟨root, none, t.halves right k₁ k⟩⟩ := by
    refine ⟨hs₃.of_eq ?_, rfl⟩
    show _ = Block.cells (n := n + 1) none ⟨root, none, t.halves right k₁ k⟩
    simp only [Block.cells_branch, Block.halves, cellsEach_cons, cellsEach_nil]
    have hroot : (Branch.empty.push k₁ t.handle).push k right =
        Block.toBranch none ⟨root, none, [(k₁, t.lower right), (k, t.upper right)]⟩ := rfl
    rw [hroot]
    abel
  -- The height that is recorded is found by a descent, which needs a child in each branch.
  have hpop : Block.Populated (n := n + 1) ⟨root, none, t.halves right k₁ k⟩ := by
    refine ⟨by simp [Block.halves], ?_⟩
    intro slot hslot
    rcases List.mem_cons.1 hslot with rfl | hslot
    · exact hlower
    · obtain rfl := List.mem_singleton.1 hslot
      exact hupper
  refine ⟨root, nodes₃, hfresh, ?_, hshows⟩
  unfold promoteRoot
  rw [Block.handle_lower] at hset₂
  rw [Block.handle_upper] at hset₃
  simp only [hleft, hright, ok_bind, halloc, hset₂, hset₃, height_eq hshows hpop]
  rfl

/-! ## The climb -/

section Climb

variable {tree : Tree K V} {p : Path K V n} {t : Subtree K V n}

/-- An overfull node can be divided, both halves have a last key, and the lower half stands in the
slot of the node. -/
theorem splitNode_overfull (hs : tree.Shows (p.fill t)) (ho : Overfull tree.fanout p t) :
    ∃ right nodes k₁ k, right ∉ (p.fill t).handles ∧
      splitNode tree.nodes t.handle = .ok (right, nodes, t.splitEvent right) ∧
      nodes.get t.handle = .ok (Block.node p.parent (t.lower right)) ∧
      nodes.Holds ((t.lower right).cells p.parent + (t.upper right).cells p.parent +
        p.cells t.handle) ∧
      (t.lower right).maxKey? = some k₁ ∧ (t.upper right).maxKey? = some k ∧
      t.maxKey? = some k := by
  have hcells : (p.fill t).cells = t.cells p.parent + p.cells t.handle := by
    rw [Path.cells_fill, add_comm]
  have hexact := ((p.exact_fill t).1 ho.exact).2
  obtain ⟨right, nodes, hfresh, hsplit, hs₁⟩ := splitNode_eq (hs.holds.of_eq hcells) hexact
  rw [← hcells, Layout.map_fst_cells] at hfresh
  have hmin := tree.fanout.two_le_min
  have htwo := ho.two_le
  -- The lower half has as many pairs as a node needs, so it is not empty.
  have hlower : 0 < (t.lower right).count := by
    rw [ho.count_lower]
    omega
  obtain ⟨k₁, hk₁⟩ := Option.isSome_iff_exists.1 ((Block.maxKey?_isSome _).2 hlower)
  obtain ⟨k, hk⟩ := Option.isSome_iff_exists.1 ((Block.maxKey?_isSome t).2 (by omega))
  have hget : nodes.get t.handle = .ok (Block.node p.parent (t.lower right)) :=
    hs₁.get_of_mem (Multiset.mem_add.2 (.inl (Block.mem_cells_add (t.lower right) _)))
  have hupper : (t.upper right).maxKey? = some k := by
    rw [Block.maxKey?_upper t (Nat.lt_of_lt_of_le Nat.zero_lt_two htwo), hk]
  exact ⟨right, nodes, k₁, k, hfresh, hsplit, hget, hs₁, hk₁, hupper, hk⟩

/-- The keys that stand for the new child are up to date already. -/
theorem upToDateAbove_halves {f : Frame K (Subtree K V n)} {rest : Path K V (n + 1)}
    {nodes : Arena (Node K V)} {right : Handle} {k₁ : K}
    (hs : nodes.Holds (rest.fill (f.fill (t.halves right k₁ f.key))).cells)
    (he : (rest.fill (f.fill (t.halves right k₁ f.key))).root.Exact)
    (hk : (t.upper right).maxKey? = some f.key) :
    UpToDateAbove nodes nodes.slotCount right := by
  -- The upper half stands in the gap of a frame that has the lower half before the gap.
  have hfill : f.fill (t.halves right k₁ f.key) =
      Frame.plug ⟨f.handle, f.next, f.before ++ [(k₁, t.lower right)], f.key, f.after⟩
        (t.upper right) := by
    simp [Frame.fill, Frame.plug, Block.halves]
  rw [hfill] at hs he
  generalize hg : (⟨f.handle, f.next, f.before ++ [(k₁, t.lower right)], f.key, f.after⟩ :
    Frame K (Subtree K V n)) = g at hs he
  have hpath := ((Path.step g rest).exact_fill (t.upper right)).1 he
  rw [hk] at hpath
  exact upToDateAbove_of_exact (p := .step g rest) (b := t.upper right) hs hk hpath.1 _
    (length_lt_slotCount hs)

/-- The climb from an overfull node runs to its end, and follows the relation. -/
theorem splitUpward_eq (hs : tree.Shows (p.fill t)) (ho : Overfull tree.fanout p t)
    (levels : Nat) (hlevels : p.length < levels) :
    ∃ layout events nodes root,
      splitUpward levels tree t.handle = .ok ({ tree with nodes, root }, events) ∧
      Splits tree.fanout p t layout events ∧
      ({ tree with nodes, root } : Tree K V).Shows layout := by
  -- The induction follows the path upward; the tree it is about changes with each division.
  induction p generalizing tree levels with
  | top =>
    obtain ⟨levels, rfl⟩ := Nat.exists_eq_succ_of_ne_zero (Nat.ne_zero_of_lt hlevels)
    obtain ⟨right, nodes₁, k₁, k, hfresh, hsplit, hget, hs₁, hk₁, hupper, hk⟩ :=
      splitNode_overfull hs ho
    obtain ⟨hlowerPop, hupperPop⟩ := ho.populated_halves right
    have hs₂ : nodes₁.Holds ((t.lower right).cells none + (t.upper right).cells none) :=
      hs₁.of_eq (add_zero _)
    obtain ⟨root, nodes₂, hroot, hpromote, hshows⟩ :=
      promoteRoot_eq { tree with nodes := nodes₁ } hs₂ hk₁ hupper hlowerPop hupperPop
    rw [Block.handles_halves] at hroot
    refine ⟨_, _, nodes₂, root, ?_, .root hfresh hroot hk₁ hk, hshows⟩
    unfold splitUpward
    simp only [hsplit, ok_bind, hget, Block.parent_node, Path.parent_top, hpromote]
    rfl
  | @step n f rest ih =>
    obtain ⟨levels, rfl⟩ := Nat.exists_eq_succ_of_ne_zero (Nat.ne_zero_of_lt hlevels)
    obtain ⟨right, nodes₁, k₁, k, hfresh, hsplit, hget, hs₁, hk₁, hupper, hk⟩ :=
      splitNode_overfull hs ho
    obtain rfl : k = f.key := Option.some.inj (hk.symm.trans ho.maxKey?_eq)
    obtain ⟨nodes₂, hlist, hs₂⟩ := listSibling_eq hs.holds hs₁ hk₁ hupper
    have hgetParent : nodes₂.get f.handle =
        .ok (Block.node (n := n + 1) rest.parent (f.fill (t.halves right k₁ f.key))) :=
      hs₂.get_of_mem (Path.mem_cells_fill rest _)
    unfold splitUpward
    simp only [hsplit, ok_bind, hget, Block.parent_node, Path.parent_step, hlist, hgetParent,
      Block.keyCount_node]
    have hexact := (ho.rearranges hk₁ hk).exact ho.exact
    -- Either the climb stops at a parent with room, or it goes on with the parent.
    by_cases hroom : (f.fill (t.halves right k₁ f.key)).count ≤ tree.fanout.max
    · refine ⟨_, _, nodes₂, tree.root, ?_, .fits hfresh hk₁ hk hroom, hs.fill rfl hs₂⟩
      rw [if_pos hroom, Refreshes.written_above,
        refreshAbove_of_upToDate (upToDateAbove_halves hs₂ hexact hupper)]
      rfl
    · have hfull := Nat.lt_of_not_le hroom
      have hs' : ({ tree with nodes := nodes₂ } : Tree K V).Shows
          (rest.fill (f.fill (t.halves right k₁ f.key))) := hs.fill rfl hs₂
      obtain ⟨layout, events, nodes₃, root, hclimb, hsplits, hshows⟩ :=
        ih hs' (ho.next hk₁ hk hfull) levels (Nat.lt_of_succ_lt_succ hlevels)
      refine ⟨layout, _, nodes₃, root, ?_, .overflows hfresh hk₁ hk hfull hsplits, hshows⟩
      rw [if_neg hroom]
      rw [Frame.handle_fill] at hclimb
      rw [hclimb]
      rfl

/-- An overfull node and each ancestor that becomes overfull are divided. -/
theorem resolveOverflow_eq (hs : tree.Shows (p.fill t)) (ho : Overfull tree.fanout p t) :
    ∃ layout events nodes root,
      tree.resolveOverflow t.handle = .ok ({ tree with nodes, root }, events) ∧
      Splits tree.fanout p t layout events ∧
      ({ tree with nodes, root } : Tree K V).Shows layout :=
  splitUpward_eq hs ho tree.nodes.slotCount (length_lt_slotCount hs.holds)

end Climb

end OrderedIndex.Tree
