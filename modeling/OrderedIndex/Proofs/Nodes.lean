import OrderedIndex.Proofs.Cells
import OrderedIndex.Proofs.Layout
import OrderedIndex.Tree.Maxima

/-!
# Nodes of held cells

What the operations on single nodes do to an arena that holds the cells of some subtrees: a read
answers the node of a cell, a write exchanges one cell, and a change of parent of some subtrees
exchanges the cell of the topmost block of each.
-/

namespace OrderedIndex

variable {K V A : Type} {n : Nat}

namespace Block

/-- A branch with all cached keys brought up to date. -/
def refreshed (b : Block K (Block K A)) : Block K (Block K A) :=
  ⟨b.handle, b.next, b.pairs.map fun slot => (slot.2.maxKey?.getD slot.1, slot.2)⟩

end Block

/-- Bringing cached keys up to date leaves exact ones as they are. -/
theorem map_getD_of_exactEach {slots : List (K × Subtree K V n)} (he : ExactEach slots) :
    slots.map (fun slot => (slot.2.maxKey?.getD slot.1, slot.2)) = slots := by
  conv_rhs => rw [← List.map_id slots]
  apply List.map_congr_left
  intro slot hslot
  simp [(he slot hslot).1]

namespace Tree

variable {nodes : Arena (Node K V)} {cells rest : Multiset (Handle × Node K V)} {h : Handle}
  {parent : Option Handle}

/-! ## Reading -/

theorem getLeaf_eq {leaf : Leaf K V} (hs : nodes.Holds cells) (hleaf : (h, .leaf leaf) ∈ cells) :
    getLeaf nodes h = .ok leaf := by
  unfold getLeaf
  rw [hs.get_of_mem hleaf]
  rfl

theorem getLeaf_eq_ok_iff {leaf : Leaf K V} :
    getLeaf nodes h = .ok leaf ↔ nodes.get? h = some (.leaf leaf) := by
  simp [getLeaf, bind_eq_ok_iff, Arena.get_eq_ok_iff, Node.asLeaf_eq_ok_iff]

theorem getBranch_eq {branch : Branch K} (hs : nodes.Holds cells)
    (hbranch : (h, .branch branch) ∈ cells) : getBranch nodes h = .ok branch := by
  unfold getBranch
  rw [hs.get_of_mem hbranch]
  rfl

theorem getBranch_eq_ok_iff {branch : Branch K} :
    getBranch nodes h = .ok branch ↔ nodes.get? h = some (.branch branch) := by
  simp [getBranch, bind_eq_ok_iff, Arena.get_eq_ok_iff, Node.asBranch_eq_ok_iff]

/-- The largest key of a node that has one is read, whatever would be the fault without it. -/
theorem maxKey_eq {b : Subtree K V n} {k : K} {empty : Fault} (hs : nodes.Holds cells)
    (hb : (b.handle, b.node parent) ∈ cells) (hk : b.maxKey? = some k) :
    maxKey empty nodes b.handle = .ok k := by
  unfold maxKey
  rw [hs.get_of_mem hb, ok_bind, Block.maxKey?_node, hk]
  rfl

/-- A child is listed at the position behind those before it. -/
theorem positionOf_eq {branch : Branch K} {before after : List Handle}
    (hc : branch.children = before ++ h :: after) (hnot : h ∉ before) :
    branch.positionOf h = .ok before.length := by
  have hfind : (before ++ h :: after).findIdx? (· == h) = some before.length := by
    -- The search for the handle passes over those before it, which are different.
    rw [List.findIdx?_eq_some_iff_getElem]
    refine ⟨by simp, by simp, ?_⟩
    intro j hj
    have hmem : before[j] ∈ before := List.getElem_mem _
    have hne : before[j] ≠ h := fun he => hnot (he ▸ hmem)
    simpa [List.getElem_append_left hj] using hne
  unfold Branch.positionOf
  rw [hc, hfind]
  rfl

/-! ## Writing -/

theorem modifyLeaf_eq {leaf leaf' : Leaf K V} {f : Leaf K V → Except Fault (Leaf K V)}
    (hs : nodes.Holds ((h, .leaf leaf) ::ₘ rest)) (hf : f leaf = .ok leaf') :
    ∃ nodes', modifyLeaf nodes h f = .ok nodes' ∧ nodes'.Holds ((h, .leaf leaf') ::ₘ rest) := by
  refine ⟨_, hs.modify_eq ?_⟩
  simp [Node.asLeaf, hf]

theorem modifyBranch_eq {branch branch' : Branch K} {f : Branch K → Except Fault (Branch K)}
    (hs : nodes.Holds ((h, .branch branch) ::ₘ rest)) (hf : f branch = .ok branch') :
    ∃ nodes', modifyBranch nodes h f = .ok nodes' ∧
      nodes'.Holds ((h, .branch branch') ::ₘ rest) := by
  refine ⟨_, hs.modify_eq ?_⟩
  simp [Node.asBranch, hf]

theorem setParent_eq {b : Subtree K V n} (hs : nodes.Holds (b.cells parent + rest))
    (parent' : Option Handle) :
    ∃ nodes', setParent nodes b.handle parent' = .ok nodes' ∧
      nodes'.Holds (b.cells parent' + rest) := by
  rw [Block.cells_eq, Multiset.cons_add] at hs
  obtain ⟨hset, hs'⟩ := hs.modify_eq (f := fun node => .ok (node.setParent parent'))
    (y := b.node parent') (by rw [Block.setParent_node])
  refine ⟨_, hset, hs'.of_eq ?_⟩
  rw [Block.cells_eq, Multiset.cons_add]

/-- Adoption changes the parent of each of some subtrees. -/
theorem adopt_eq {slots : List (K × Subtree K V n)}
    (hs : nodes.Holds (cellsEach parent slots + rest)) (h : Handle) :
    ∃ nodes', adopt nodes (slots.map fun slot => slot.2.handle) h = .ok nodes' ∧
      nodes'.Holds (cellsEach (some h) slots + rest) := by
  induction slots generalizing nodes rest with
  | nil => exact ⟨nodes, rfl, hs⟩
  | cons slot slots ih =>
    rw [cellsEach_cons, add_assoc] at hs
    obtain ⟨nodes₁, hset, hs₁⟩ := setParent_eq hs (some h)
    -- The subtree that is adopted already goes to the other cells, and the rest of the list
    -- follows.
    have hswap := hs₁.of_eq (add_left_comm _ _ _)
    obtain ⟨nodes₂, hadopt, hs₂⟩ := ih hswap
    refine ⟨nodes₂, ?_, ?_⟩
    · unfold adopt at hadopt ⊢
      rw [List.map_cons, List.foldlM_cons, hset, ok_bind, hadopt]
    · rw [cellsEach_cons, add_assoc]
      exact hs₂.of_eq (add_left_comm _ _ _)

/-! ## Cached keys -/

private theorem mapM_maxKey_eq (slots : List (K × Subtree K V n)) (hs : nodes.Holds cells)
    (hle : cellsEach parent slots ≤ cells) (hpos : ∀ slot ∈ slots, 0 < slot.2.count) :
    (slots.map fun slot => slot.2.handle).mapM (maxKey .emptyChild nodes) =
      .ok (slots.map fun slot => slot.2.maxKey?.getD slot.1) := by
  induction slots with
  | nil => rfl
  | cons slot slots ih =>
    rw [cellsEach_cons] at hle
    obtain ⟨k, hk⟩ := Option.isSome_iff_exists.1
      ((Block.maxKey?_isSome slot.2).2 (hpos slot (by simp)))
    -- A child that is not empty has a last key, which is what is read.
    have hmem : (slot.2.handle, slot.2.node parent) ∈ cells :=
      Multiset.mem_of_le ((Multiset.le_add_right _ _).trans hle) (Block.mem_cells_self slot.2)
    have htail := ih ((Multiset.le_add_left _ _).trans hle)
      fun slot hslot => hpos slot (List.mem_cons_of_mem _ hslot)
    simp [List.mapM_cons, maxKey_eq hs hmem hk, htail, hk]

private theorem children_le (b : Subtree K V (n + 1)) :
    cellsEach (some b.handle) b.pairs ≤ b.cells parent + rest := by
  rw [Block.cells_succ, Multiset.cons_add]
  exact (Multiset.le_add_right _ _).trans (Multiset.le_cons_self _ _)

/-- Where no child is empty, all cached keys of a branch can be brought up to date. -/
theorem refreshMaxima_eq {b : Subtree K V (n + 1)} (hs : nodes.Holds (b.cells parent + rest))
    (hpos : ∀ slot ∈ b.pairs, 0 < slot.2.count) :
    ∃ nodes', refreshMaxima nodes b.handle = .ok nodes' ∧
      nodes'.Holds (Block.cells (n := n + 1) parent b.refreshed + rest) := by
  have hkeys := mapM_maxKey_eq b.pairs hs (children_le b) hpos
  have hget : getBranch nodes b.handle = .ok (b.toBranch parent) :=
    getBranch_eq hs (b.mem_cells_add rest)
  -- Only the cell of the branch itself is exchanged; those of the children are read.
  have hs₀ : nodes.Holds ((b.handle, .branch (b.toBranch parent)) ::ₘ
      (cellsEach (some b.handle) b.pairs + rest)) := hs.of_eq (Multiset.cons_add _ _ _)
  obtain ⟨nodes', hmodify, hs'⟩ := modifyBranch_eq
    (f := fun branch => .ok (branch.setKeys (b.pairs.map fun slot => slot.2.maxKey?.getD slot.1)))
    hs₀ rfl
  refine ⟨nodes', ?_, hs'.of_eq ?_⟩
  · unfold refreshMaxima
    rw [hget, ok_bind]
    show (b.pairs.map fun slot => slot.2.handle).mapM (maxKey .emptyChild nodes) >>= _ = _
    rw [hkeys, ok_bind, hmodify]
  · rw [Block.cells_succ, Multiset.cons_add]
    simp [Block.node, Block.toBranch, Block.refreshed, Branch.setKeys, cellsEach, Function.comp_def]

/-- The keys that a branch has cached are the last ones of its children as they are stored there. -/
def UpToDate (nodes : Arena (Node K V)) (h : Handle) : Prop :=
  ∃ branch, getBranch nodes h = .ok branch ∧
    branch.children.mapM (maxKey .emptyChild nodes) = .ok branch.keys

/-- Bringing keys up to date that are so already writes what stands there. -/
theorem refreshMaxima_of_upToDate (hup : UpToDate nodes h) : refreshMaxima nodes h = .ok nodes := by
  obtain ⟨branch, hbranch, hkeys⟩ := hup
  have hget := getBranch_eq_ok_iff.1 hbranch
  unfold refreshMaxima
  rw [hbranch, ok_bind, hkeys, ok_bind]
  exact Arena.modify_eq_ok_iff.2 ⟨_, _, hget, rfl, (Arena.put_of_get? hget).symm⟩

/-- Exact cached keys are up to date already. -/
theorem upToDate_of_exact {b : Subtree K V (n + 1)}
    (hs : nodes.Holds (b.cells parent + rest)) (he : b.Exact) : UpToDate nodes b.handle := by
  have hpos : ∀ slot ∈ b.pairs, 0 < slot.2.count := fun slot hslot =>
    (Block.maxKey?_isSome _).1 (by rw [(he slot hslot).1]; rfl)
  have hkeys := mapM_maxKey_eq b.pairs hs (children_le b) hpos
  -- What is read below an exact branch are the keys that it has cached.
  have hsame : (b.pairs.map fun slot => slot.2.maxKey?.getD slot.1) = b.pairs.map Prod.fst :=
    List.map_congr_left fun slot hslot => by simp [(he slot hslot).1]
  rw [hsame] at hkeys
  exact ⟨b.toBranch parent, getBranch_eq hs (b.mem_cells_add rest), hkeys⟩

end Tree

end OrderedIndex
