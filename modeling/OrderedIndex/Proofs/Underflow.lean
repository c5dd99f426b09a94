import OrderedIndex.Proofs.Descent
import OrderedIndex.Proofs.Maxima
import OrderedIndex.Proofs.Mending
import OrderedIndex.Tree.Underflow

/-!
# Runs of the underflow climb

A short node at the end of a path below the root has a sibling.  Where one can spare a pair, the
pair is passed and the parent is brought up to date; where none can, two nodes are merged and one is
taken off the list of the parent.  So the climb runs to its end, and follows a derivation of the
relation on layouts.
-/

namespace OrderedIndex.Tree

variable {K V : Type} {n : Nat} {nodes : Arena (Node K V)} {rest : Multiset (Handle × Node K V)}
  {parent : Option Handle}

/-! ## Siblings -/

/-- The branch of a frame and the children next to its gap. -/
def siblingsIn (f : Frame K (Subtree K V n)) : Siblings :=
  ⟨f.handle, (f.beside .left).map fun slot => slot.2.handle,
    (f.beside .right).map fun slot => slot.2.handle⟩

theorem siblings_eq {f : Frame K (Subtree K V n)} {above : Path K V (n + 1)} {t : Subtree K V n}
    (hs : nodes.Holds ((Path.step f above).fill t).cells) :
    siblings nodes t.handle = .ok (some (siblingsIn f)) := by
  have hget := hs.get_of_mem (Path.mem_cells_fill (.step f above) t)
  have hbranch : getBranch nodes f.handle = .ok (f.toBranch above.parent t.handle) := by
    apply getBranch_eq hs
    rw [Path.cells_fill, Path.cells, Multiset.cons_add]
    exact Multiset.mem_cons_self _ _
  unfold siblings
  simp only [hget, ok_bind, Block.parent_node, Path.parent_step, hbranch, positionOf_hole hs]
  have hchildren : (f.toBranch above.parent t.handle).children =
      f.before.map (fun slot => slot.2.handle) ++
        t.handle :: f.after.map fun slot => slot.2.handle := rfl
  -- The child to the left is the last one before the gap, that to the right the first one behind.
  have hleft : (if f.before.length = 0 then none
      else (f.toBranch above.parent t.handle).children[f.before.length - 1]?) =
        f.before.getLast?.map fun slot => slot.2.handle := by
    rcases List.eq_nil_or_concat' f.before with hnil | ⟨before, slot, hbefore⟩
    · simp [hnil]
    · simp [hchildren, hbefore]
  have hright : (f.toBranch above.parent t.handle).children[f.before.length + 1]? =
      f.after.head?.map fun slot => slot.2.handle := by
    cases hafter : f.after with
    | nil => simp [hchildren, hafter]
    | cons slot after => simp [hchildren, hafter]
  rw [hleft, hright]
  rfl

theorem siblings_root {t : Subtree K V n}
    (hs : nodes.Holds ((Path.top : Path K V n).fill t).cells) :
    siblings nodes t.handle = .ok none := by
  unfold siblings
  rw [hs.get_of_mem (Path.mem_cells_fill .top t), ok_bind, Block.parent_node]
  rfl

/-- A sibling, if there is one, can lend if it has more pairs than it needs. -/
theorem canLend_eq {tree : Tree K V} {cells : Multiset (Handle × Node K V)}
    (hs : tree.nodes.Holds cells) (sibling : Option (K × Subtree K V n))
    (hmem : ∀ slot ∈ sibling, (slot.2.handle, slot.2.node parent) ∈ cells) :
    tree.canLend (sibling.map fun slot => slot.2.handle) =
      .ok (sibling.any fun slot => tree.fanout.min < slot.2.count) := by
  cases sibling with
  | none => rfl
  | some slot =>
    simp only [Option.map_some, canLend, hs.get_of_mem (hmem slot rfl), ok_bind,
      Block.keyCount_node, pure_eq_ok, Option.any_some]

/-- The sibling that is borrowed from stands next to the gap and has a pair to spare, and the left
one goes first; where there is none, neither sibling has. -/
theorem lender?_eq {tree : Tree K V} {f : Frame K (Subtree K V n)} {above : Path K V (n + 1)}
    {t : Subtree K V n} (hs : tree.nodes.Holds ((Path.step f above).fill t).cells) :
    (∃ side slot g, f = Frame.widen g slot side ∧ tree.fanout.min < slot.2.count ∧
      (side = .right → ∀ other ∈ g.beside .left, other.2.count ≤ tree.fanout.min) ∧
      tree.lender? (siblingsIn f) = .ok (some (side, slot.2.handle))) ∨
    (∀ side, ∀ slot ∈ f.beside side, slot.2.count ≤ tree.fanout.min) ∧
      tree.lender? (siblingsIn f) = .ok none := by
  have hleft := canLend_eq hs (f.beside .left) fun slot hslot =>
    Path.mem_cells_sibling t (List.mem_append_left _ (List.mem_of_getLast? hslot))
  have hright := canLend_eq hs (f.beside .right) fun slot hslot =>
    Path.mem_cells_sibling t (List.mem_append_right _ (List.mem_of_head? hslot))
  have hfew (side : Side)
      (hnot : ¬(f.beside side).any fun slot => tree.fanout.min < slot.2.count) :
      ∀ slot ∈ f.beside side, slot.2.count ≤ tree.fanout.min := by
    -- A sibling with more pairs than that would be one that can lend.
    intro slot hslot
    by_contra hspare
    exact hnot ((Option.any_eq_true _ _).2 ⟨slot, hslot, by simpa using hspare⟩)
  unfold lender?
  simp only [siblingsIn, hleft, hright, ok_bind, pure_eq_ok]
  -- The left sibling is asked first, the right one only if the left one has nothing to spare.
  by_cases hl : (f.beside .left).any fun slot => tree.fanout.min < slot.2.count
  · left
    obtain ⟨slot, hslot, hspare⟩ := (Option.any_eq_true _ _).1 hl
    obtain ⟨g, hg⟩ := Frame.exists_widen hslot
    refine ⟨.left, slot, g, hg, by simpa using hspare, nofun, ?_⟩
    rw [if_pos hl, hslot]
    rfl
  · by_cases hr : (f.beside .right).any fun slot => tree.fanout.min < slot.2.count
    · left
      obtain ⟨slot, hslot, hspare⟩ := (Option.any_eq_true _ _).1 hr
      obtain ⟨g, hg⟩ := Frame.exists_widen hslot
      refine ⟨.right, slot, g, hg, by simpa using hspare, fun _ => ?_, ?_⟩
      · have hother := hfew .left hl
        rwa [hg] at hother
      · rw [if_neg hl, if_pos hr, hslot]
        rfl
    · right
      refine ⟨?_, by rw [if_neg hl, if_neg hr]⟩
      intro side
      cases side with
      | left => exact hfew .left hl
      | right => exact hfew .right hr

/-- The two nodes that are merged where a node cannot borrow, from left to right. -/
def Siblings.merged (h : Handle) : Siblings → Option (Handle × Handle)
  | ⟨_, some left, _⟩ => some (left, h)
  | ⟨_, none, some right⟩ => some (h, right)
  | ⟨_, none, none⟩ => none

theorem mergeWithSibling_of_merged {beside : Siblings} {h left right : Handle}
    {calls : Refreshes K V} (hmerged : beside.merged h = some (left, right))
    (nodes : Arena (Node K V)) :
    mergeWithSibling nodes h beside calls = mergeNodes nodes left right beside.parent calls := by
  -- Only a node without any sibling is not merged with one.
  obtain ⟨parent, _ | left', _ | right'⟩ := beside <;> cases hmerged <;> rfl

/-- A node below the root that cannot borrow is merged with a sibling, the left one if there is
one. -/
theorem merged_siblingsIn {f : Frame K (Subtree K V n)} (hcount : 2 ≤ f.count)
    (t : Subtree K V n) :
    ∃ side slot g l r, f = Frame.widen g slot side ∧ (side = .right → g.beside .left = none) ∧
      side.both slot (g.key, t) = [l, r] ∧
      (siblingsIn f).merged t.handle = some (l.2.handle, r.2.handle) := by
  cases hleft : f.beside .left with
  | some slot =>
    obtain ⟨g, hg⟩ := Frame.exists_widen hleft
    refine ⟨.left, slot, g, slot, (g.key, t), hg, nofun, rfl, ?_⟩
    rw [siblingsIn, hleft]
    rfl
  | none =>
    -- A first child has a sibling to its right, as it is not alone.
    have hbefore : f.before = [] := List.getLast?_eq_none_iff.1 hleft
    obtain ⟨slot, hright⟩ : ∃ slot, f.beside .right = some slot := by
      cases hafter : f.after with
      | nil =>
        rw [Frame.count, hbefore, hafter] at hcount
        exact absurd hcount (by simp)
      | cons slot after => exact ⟨slot, by rw [Frame.beside, hafter]; rfl⟩
    obtain ⟨g, hg⟩ := Frame.exists_widen hright
    refine ⟨.right, slot, g, (g.key, t), slot, hg, fun _ => ?_, rfl, ?_⟩
    · rwa [hg] at hleft
    · rw [siblingsIn, hleft, hright]
      rfl

theorem mergeWithSibling_eq {f : Frame K (Subtree K V n)} (hcount : 2 ≤ f.count)
    (nodes : Arena (Node K V)) (t : Subtree K V n) :
    ∃ side slot g l r, f = Frame.widen g slot side ∧ (side = .right → g.beside .left = none) ∧
      side.both slot (g.key, t) = [l, r] ∧ mergeWithSibling nodes t.handle (siblingsIn f) =
        mergeNodes nodes l.2.handle r.2.handle f.handle := by
  obtain ⟨side, slot, g, l, r, hg, hfirst, hlr, hmerged⟩ := merged_siblingsIn hcount t
  exact ⟨side, slot, g, l, r, hg, hfirst, hlr, mergeWithSibling_of_merged hmerged nodes⟩

/-! ## Borrowing -/

section Pass

variable {side : Side} {pairs : List (K × V)}

theorem lend?_toLeaf {b : Block K V} {pair : K × V} {pairs : List (K × V)}
    (hb : b.pairs = side.opposite.cons pair pairs) :
    (b.toLeaf parent).lend? side = some (pair, (b.withPairs pairs).toLeaf parent) := by
  -- The pair that is lent stands at the end of the lender that is next to the node.
  cases side with
  | left =>
    simp [Leaf.lend?, Columns.lend?, Columns.pop?, Block.toLeaf, hb, Side.opposite, Side.cons,
      Block.withPairs]
  | right =>
    simp [Leaf.lend?, Columns.lend?, Columns.popFront?, Block.toLeaf, hb, Side.opposite, Side.cons,
      Block.withPairs]

theorem lend?_toBranch {b : Subtree K V (n + 1)} {pair : K × Subtree K V n}
    {pairs : List (K × Subtree K V n)} (hb : b.pairs = side.opposite.cons pair pairs) :
    (b.toBranch parent).lend? side =
      some ((pair.1, pair.2.handle), (b.withPairs pairs).toBranch parent) := by
  cases side with
  | left =>
    simp [Branch.lend?, Columns.lend?, Columns.pop?, Block.toBranch, hb, Side.opposite, Side.cons,
      Block.withPairs]
  | right =>
    simp [Branch.lend?, Columns.lend?, Columns.popFront?, Block.toBranch, hb, Side.opposite,
      Side.cons, Block.withPairs]

theorem receive_toLeaf (b : Block K V) (pair : K × V) :
    (b.toLeaf parent).receive side pair.1 pair.2 =
      (b.withPairs (side.cons pair b.pairs)).toLeaf parent := by
  cases side with
  | left => simp [Leaf.receive, Columns.receive, Columns.pushFront, Block.toLeaf, Side.cons,
      Block.withPairs]
  | right => simp [Leaf.receive, Columns.receive, Columns.push, Block.toLeaf, Side.cons,
      Block.withPairs]

theorem receive_toBranch (b : Subtree K V (n + 1)) (pair : K × Subtree K V n) :
    (b.toBranch parent).receive side pair.1 pair.2.handle =
      (b.withPairs (side.cons pair b.pairs)).toBranch parent := by
  cases side with
  | left => simp [Branch.receive, Columns.receive, Columns.pushFront, Block.toBranch, Side.cons,
      Block.withPairs]
  | right => simp [Branch.receive, Columns.receive, Columns.push, Block.toBranch, Side.cons,
      Block.withPairs]

private theorem pass_leaf {lender node : Block K V} {pair : K × V}
    (hs : nodes.Holds
      (Block.cells (n := 0) parent lender + Block.cells (n := 0) parent node + rest))
    (hpairs : lender.pairs = side.opposite.cons pair pairs) :
    ∃ nodes', pass nodes side node.handle lender.handle = .ok nodes' ∧
      nodes'.Holds (Block.cells (n := 0) parent (lender.withPairs pairs) +
        Block.cells (n := 0) parent (node.withPairs (side.cons pair node.pairs)) + rest) := by
  -- The cell of the lender is written first, then that of the leaf that gets the entry.
  have hs₁ : nodes.Holds ((lender.handle, .leaf (lender.toLeaf parent)) ::ₘ
      (Block.cells (n := 0) parent node + rest)) := by
    rw [Block.cells_leaf, add_assoc, Multiset.singleton_add] at hs
    exact hs
  have hs₂ : (nodes.put lender.handle (.leaf ((lender.withPairs pairs).toLeaf parent))).Holds
      ((node.handle, .leaf (node.toLeaf parent)) ::ₘ
        (Block.cells (n := 0) parent (lender.withPairs pairs) + rest)) := by
    apply (hs₁.put (.leaf ((lender.withPairs pairs).toLeaf parent))).of_eq
    simp only [Block.cells_leaf, Block.handle_withPairs, ← Multiset.singleton_add]
    abel
  obtain ⟨nodes₃, hmodify, hs₃⟩ := modifyLeaf_eq
    (f := fun leaf => .ok (leaf.receive side pair.1 pair.2)) hs₂
    (congrArg Except.ok (receive_toLeaf node pair))
  refine ⟨nodes₃, ?_, hs₃.of_eq ?_⟩
  · -- The lender is read and written back before the leaf is.
    unfold pass
    rw [hs₁.get_of_mem (Multiset.mem_cons_self _ _), ok_bind]
    simp only [lend?_toLeaf hpairs, orFault, ok_bind]
    exact hmodify
  · simp only [Block.cells_leaf, Block.handle_withPairs, ← Multiset.singleton_add]
    abel

/-- A branch gets the closest child of a sibling.  The keys that the two have cached are exact
already. -/
theorem receive_child {lender node : Subtree K V (n + 1)} {pair : K × Subtree K V n}
    {pairs : List (K × Subtree K V n)}
    (hs : nodes.Holds (lender.cells parent + node.cells parent + rest))
    (hpairs : lender.pairs = side.opposite.cons pair pairs) (hlender : lender.Exact)
    (hnode : node.Exact) :
    ∃ nodes₁ nodes₂,
      modifyBranch (nodes.put lender.handle (.branch ((lender.withPairs pairs).toBranch parent)))
        node.handle (fun branch => .ok (branch.receive side pair.1 pair.2.handle)) = .ok nodes₁ ∧
      setParent nodes₁ pair.2.handle (some node.handle) = .ok nodes₂ ∧
      nodes₂.Holds (Block.cells (n := n + 1) parent (lender.withPairs pairs) +
        Block.cells (n := n + 1) parent (node.withPairs (side.cons pair node.pairs)) + rest) ∧
      UpToDate nodes₂ lender.handle ∧ UpToDate nodes₂ node.handle := by
  -- The child that moves is told apart from the lender's other children.
  have hs₁ : nodes.Holds ((lender.handle, .branch (lender.toBranch parent)) ::ₘ
      (node.cells parent + (pair.2.cells (some lender.handle) +
        cellsEach (some lender.handle) pairs + rest))) := by
    apply hs.of_eq
    rw [Block.cells_branch lender, hpairs, cellsEach_side, ← Multiset.singleton_add]
    abel
  have hs₂ : (nodes.put lender.handle (.branch ((lender.withPairs pairs).toBranch parent))).Holds
      ((node.handle, .branch (node.toBranch parent)) ::ₘ
        (Block.cells (n := n + 1) parent (lender.withPairs pairs) +
          (pair.2.cells (some lender.handle) + cellsEach (some node.handle) node.pairs +
            rest))) := by
    apply (hs₁.put (.branch ((lender.withPairs pairs).toBranch parent))).of_eq
    simp only [Block.cells_branch, Block.handle_withPairs, Block.pairs_withPairs,
      ← Multiset.singleton_add]
    abel
  obtain ⟨nodes₁, hmodify, hs₃⟩ := modifyBranch_eq
    (f := fun branch => .ok (branch.receive side pair.1 pair.2.handle)) hs₂
    (congrArg Except.ok (receive_toBranch node pair))
  -- The child that moves comes first, to be adopted by its new parent.
  have hs₃' : nodes₁.Holds (pair.2.cells (some lender.handle) +
      ((node.handle, .branch ((node.withPairs (side.cons pair node.pairs)).toBranch parent)) ::ₘ
        (Block.cells (n := n + 1) parent (lender.withPairs pairs) +
          (cellsEach (some node.handle) node.pairs + rest)))) := by
    apply hs₃.of_eq
    simp only [← Multiset.singleton_add]
    abel
  obtain ⟨nodes₂, hset, hs₄⟩ := setParent_eq hs₃' (some node.handle)
  have hs₅ : nodes₂.Holds (Block.cells (n := n + 1) parent (lender.withPairs pairs) +
      (Block.cells (n := n + 1) parent (node.withPairs (side.cons pair node.pairs)) + rest)) := by
    apply hs₄.of_eq
    simp only [Block.cells_branch, Block.handle_withPairs, Block.pairs_withPairs, cellsEach_side,
      ← Multiset.singleton_add]
    abel
  -- The cached keys move along with the children, so those of both branches stay exact.
  have hlender' : Block.Exact (n := n + 1) (lender.withPairs pairs) :=
    hlender.of_subset hlender fun slot hslot => .inl (Side.mem_of_mem_kept hpairs slot hslot)
  have hnode' : Block.Exact (n := n + 1) (node.withPairs (side.cons pair node.pairs)) :=
    hlender.of_subset hnode (Side.mem_of_mem_received hpairs)
  exact ⟨nodes₁, nodes₂, hmodify, hset, hs₅.of_eq (add_assoc _ _ _).symm,
    upToDate_of_exact (b := lender.withPairs pairs) hs₅ hlender',
    upToDate_of_exact (b := node.withPairs (side.cons pair node.pairs))
      (hs₅.of_eq (add_left_comm _ _ _)) hnode'⟩

private theorem pass_branch {lender node : Subtree K V (n + 1)} {pair : K × Subtree K V n}
    {pairs : List (K × Subtree K V n)}
    (hs : nodes.Holds (lender.cells parent + node.cells parent + rest))
    (hpairs : lender.pairs = side.opposite.cons pair pairs) (hlender : lender.Exact)
    (hnode : node.Exact) :
    ∃ nodes', pass nodes side node.handle lender.handle = .ok nodes' ∧
      nodes'.Holds (Block.cells (n := n + 1) parent (lender.withPairs pairs) +
        Block.cells (n := n + 1) parent (node.withPairs (side.cons pair node.pairs)) + rest) := by
  obtain ⟨nodes₁, nodes₂, hmodify, hset, hs', hleft, hright⟩ :=
    receive_child hs hpairs hlender hnode
  refine ⟨nodes₂, ?_, hs'⟩
  unfold pass
  rw [hs.get_of_mem (Multiset.mem_add.2 (.inl (Block.mem_cells_add lender _))), ok_bind]
  simp only [Block.node, lend?_toBranch hpairs, orFault, ok_bind, hmodify, hset,
    Refreshes.written_maxima, refreshMaxima_of_upToDate hleft, refreshMaxima_of_upToDate hright]

/-- The closest pair of a sibling is passed to a node. -/
theorem pass_eq {lender node : Subtree K V n} {pair : K × Beside K V n}
    {pairs : List (K × Beside K V n)}
    (hs : nodes.Holds (lender.cells parent + node.cells parent + rest))
    (hpairs : lender.pairs = side.opposite.cons pair pairs) (hlender : lender.Exact)
    (hnode : node.Exact) :
    ∃ nodes', pass nodes side node.handle lender.handle = .ok nodes' ∧
      nodes'.Holds (Block.cells (n := n) parent (lender.withPairs pairs) +
        Block.cells (n := n) parent (node.withPairs (side.cons pair node.pairs)) + rest) := by
  -- A leaf gets an entry, which is written as it is; the child that a branch gets has a parent to
  -- change.
  cases n with
  | zero => exact pass_leaf hs hpairs
  | succ n => exact pass_branch hs hpairs hlender hnode

end Pass

/-! ## The parent -/

section Parent

variable {side : Side} {f : Frame K (Subtree K V n)} {above : Path K V (n + 1)}

/-- The cached keys of a branch are brought up to date where only those of some children are
stale. -/
theorem refreshMaxima_fill {slots slots' : List (K × Subtree K V n)}
    (hs : nodes.Holds (above.fill (f.fill slots)).cells)
    (hothers : ExactEach f.before ∧ ExactEach f.after) (hpos : ∀ slot ∈ slots, 0 < slot.2.count)
    (hslots : slots.map (fun slot => (slot.2.maxKey?.getD slot.1, slot.2)) = slots') :
    ∃ nodes', refreshMaxima nodes f.handle = .ok nodes' ∧
      nodes'.Holds (above.fill (f.fill slots')).cells := by
  -- The cached keys of the other children are exact, so they are written as they were.
  have hsame : (f.fill slots).refreshed = f.fill slots' := by
    simp only [Block.refreshed, Frame.fill, List.map_append, map_getD_of_exactEach hothers.1,
      map_getD_of_exactEach hothers.2, hslots]
  have hcount : ∀ slot ∈ (f.fill slots).pairs, 0 < slot.2.count := by
    intro slot hslot
    have hexact {others : List (K × Subtree K V n)} (he : ExactEach others)
        (hmem : slot ∈ others) : 0 < slot.2.count :=
      (Block.maxKey?_isSome slot.2).1 (by rw [(he slot hmem).1]; rfl)
    rcases List.mem_append.1 hslot with hfront | hafter
    · rcases List.mem_append.1 hfront with hbefore | hmem
      · exact hexact hothers.1 hbefore
      · exact hpos slot hmem
    · exact hexact hothers.2 hafter
  have hs' : nodes.Holds (Block.cells (n := n + 1) above.parent (f.fill slots) +
      above.cells f.handle) := by
    apply hs.of_eq
    rw [Path.cells_fill, add_comm]
    rfl
  obtain ⟨nodes', hrefresh, hs''⟩ := refreshMaxima_eq hs' hcount
  refine ⟨nodes', hrefresh, hs''.of_eq ?_⟩
  rw [hsame, Path.cells_fill, add_comm]
  rfl

/-- A node gets a pair from a sibling, and their parent is brought up to date. -/
theorem borrow_eq {slot : K × Subtree K V n} {t : Subtree K V n} {pair : K × Beside K V n}
    {pairs : List (K × Beside K V n)} {k k' : K}
    (hs : nodes.Holds (above.fill (f.fill (side.both slot (f.key, t)))).cells)
    (he : Block.Exact (n := n + 1) (f.fill (side.both slot (f.key, t))))
    (hpairs : slot.2.pairs = side.opposite.cons pair pairs)
    (hk : (t.withPairs (side.cons pair t.pairs)).maxKey? = some k)
    (hk' : (slot.2.withPairs pairs).maxKey? = some k') :
    ∃ nodes', borrow nodes side t.handle slot.2.handle f.handle =
        .ok (nodes', .borrowed side t.handle slot.2.handle (t.count + 1)) ∧
      nodes'.Holds (above.fill (f.fill (side.both (k', slot.2.withPairs pairs)
        (k, t.withPairs (side.cons pair t.pairs))))).cells := by
  obtain ⟨hboth, hothers⟩ := f.exact_fill.1 he
  rw [Path.cells_fill_slots, cellsEach_both] at hs
  obtain ⟨nodes₁, hpass, hs₁⟩ :=
    pass_eq hs hpairs (hboth slot (by simp)).2 (hboth (f.key, t) (by simp)).2
  -- The parent lists the same children under the same keys as before.
  have hs₂ : nodes₁.Holds (above.fill (f.fill (side.both (slot.1, slot.2.withPairs pairs)
      (f.key, t.withPairs (side.cons pair t.pairs))))).cells := by
    rw [Path.cells_fill_slots, cellsEach_both]
    simpa [Block.toBranch, Frame.fill] using hs₁
  -- Neither sibling is empty now: both have a last key.
  have hpos : ∀ slot' ∈ side.both (slot.1, slot.2.withPairs pairs)
      (f.key, t.withPairs (side.cons pair t.pairs)), 0 < slot'.2.count := by
    intro slot' hslot'
    rcases Side.mem_both_iff.1 hslot' with rfl | rfl
    · exact (Block.maxKey?_isSome _).1 (by rw [hk']; rfl)
    · exact (Block.maxKey?_isSome _).1 (by rw [hk]; rfl)
  obtain ⟨nodes₂, hrefresh, hs₃⟩ := refreshMaxima_fill hs₂ hothers hpos
    (by rw [Side.map_both, hk, hk'])
  have hmem : (t.handle, Block.node (some f.handle) (t.withPairs (side.cons pair t.pairs))) ∈
      (above.fill (f.fill (side.both (k', slot.2.withPairs pairs)
        (k, t.withPairs (side.cons pair t.pairs))))).cells :=
    Path.mem_cells_child above f (Side.mem_both_iff.2 (.inr rfl))
  refine ⟨nodes₂, ?_, hs₃⟩
  unfold borrow
  simp only [hpass, hrefresh, ok_bind, hs₃.get_of_mem hmem, Block.keyCount_node, pure_eq_ok]
  simp [Block.count]

end Parent

/-! ## Merging -/

section Merge

theorem mergeRight_toLeaf (l r : Block K V) (parent' : Option Handle) :
    (l.toLeaf parent).mergeRight (r.toLeaf parent') = (l.merge r).toLeaf parent := by
  simp [Leaf.mergeRight, Columns.append, Block.toLeaf, Block.merge]

theorem mergeRight_toBranch (l r : Subtree K V (n + 1)) (parent' : Option Handle) :
    (l.toBranch parent).mergeRight (r.toBranch parent') = (l.merge r).toBranch parent := by
  simp [Branch.mergeRight, Columns.append, Block.toBranch, Block.merge]

/-- A branch adopts the children of one that has left the arena.  The keys that it has cached
afterwards are exact already. -/
theorem adopt_right {l r : Subtree K V (n + 1)}
    (hs : nodes.Holds (r.below + (l.cells parent + rest))) (hl : l.Exact) (hr : r.Exact)
    (parent' : Option Handle) :
    ∃ nodes₁ nodes₂,
      adopt nodes (r.toBranch parent').children l.handle = .ok nodes₁ ∧
      modifyBranch nodes₁ l.handle (fun branch => .ok (branch.mergeRight (r.toBranch parent'))) =
        .ok nodes₂ ∧
      nodes₂.Holds (Block.cells (n := n + 1) parent (l.merge r) + rest) ∧
      UpToDate nodes₂ l.handle := by
  have hs₀ : nodes.Holds (cellsEach (some r.handle) r.pairs + (l.cells parent + rest)) := hs
  -- The children change their parent before the node takes them over.
  obtain ⟨nodes₁, hadopt, hs₁⟩ := adopt_eq hs₀ l.handle
  have hs₂ : nodes₁.Holds ((l.handle, .branch (l.toBranch parent)) ::ₘ
      (cellsEach (some l.handle) l.pairs + cellsEach (some l.handle) r.pairs + rest)) := by
    apply hs₁.of_eq
    simp only [Block.cells_branch, ← Multiset.singleton_add]
    abel
  obtain ⟨nodes₂, hmodify, hs₃⟩ := modifyBranch_eq
    (f := fun branch => .ok (branch.mergeRight (r.toBranch parent'))) hs₂
    (congrArg Except.ok (mergeRight_toBranch l r parent'))
  have hs₄ : nodes₂.Holds (Block.cells (n := n + 1) parent (l.merge r) + rest) := by
    apply hs₃.of_eq
    rw [Block.cells_branch, ← Multiset.singleton_add, ← cellsEach_append, add_assoc]
    rfl
  have hexact : Block.Exact (n := n + 1) (l.merge r) :=
    hl.of_subset hr fun _ hslot => List.mem_append.1 hslot
  exact ⟨nodes₁, nodes₂, hadopt, hmodify, hs₄, upToDate_of_exact (b := l.merge r) hs₄ hexact⟩

/-- A node takes over the pairs of one that has left the arena. -/
theorem absorb_eq {l r : Subtree K V n} (hs : nodes.Holds (r.below + (l.cells parent + rest)))
    (hl : l.Exact) (hr : r.Exact) (parent' : Option Handle) :
    ∃ nodes', absorb nodes l.handle (r.node parent') = .ok nodes' ∧
      nodes'.Holds (Block.cells (n := n) parent (l.merge r) + rest) := by
  -- A leaf that goes has nothing below it to adopt.
  cases n with
  | zero =>
    have hs₁ : nodes.Holds ((l.handle, .leaf (l.toLeaf parent)) ::ₘ rest) := by
      apply hs.of_eq
      rw [Block.cells_leaf, Multiset.singleton_add]
      exact zero_add _
    obtain ⟨nodes', hmodify, hs'⟩ := modifyLeaf_eq
      (f := fun leaf => .ok (leaf.mergeRight (r.toLeaf parent'))) hs₁
      (congrArg Except.ok (mergeRight_toLeaf l r parent'))
    refine ⟨nodes', hmodify, hs'.of_eq ?_⟩
    rw [Block.cells_leaf, Multiset.singleton_add]
    rfl
  | succ n =>
    obtain ⟨nodes₁, nodes₂, hadopt, hmodify, hs', hup⟩ := adopt_right hs hl hr parent'
    refine ⟨nodes₂, ?_, hs'⟩
    unfold absorb
    simp only [Block.node, hadopt, ok_bind, hmodify, Refreshes.written_maxima,
      refreshMaxima_of_upToDate hup]

variable {f : Frame K (Subtree K V n)} {above : Path K V (n + 1)} {l r : K × Subtree K V n}

/-- The position of the second of two children that stand side by side. -/
theorem positionOf_second (hs : nodes.Holds (above.fill (f.fill [l, r])).cells) :
    (Block.toBranch above.parent (f.fill [l, r])).positionOf r.2.handle =
      .ok (f.before.length + 1) := by
  -- The second child stands in the gap of a frame that has the first one before the gap.
  have hfill : f.fill [l, r] =
      Frame.plug ⟨f.handle, f.next, f.before ++ [l], r.1, f.after⟩ r.2 := by
    simp [Frame.fill, Frame.plug]
  rw [hfill] at hs ⊢
  have hs' : nodes.Holds ((Path.step ⟨f.handle, f.next, f.before ++ [l], r.1, f.after⟩ above).fill
      r.2).cells := hs
  rw [Frame.toBranch_plug, positionOf_hole hs', List.length_append]
  rfl

/-- The second of two children is taken off the list of their parent. -/
theorem removeChild_second : (Block.toBranch above.parent (f.fill [l, r])).removeChild
    (f.before.length + 1) = .ok ((r.1, r.2.handle),
      Block.toBranch above.parent (f.fill [(l.1, l.2.merge r.2)])) := by
  -- Both columns of the parent lose what stands at the position.
  have hkeys := eraseIdx_behind (f.before.map Prod.fst) (f.after.map Prod.fst) l.1 r.1
  have hitems := eraseIdx_behind (f.before.map fun slot => slot.2.handle)
    (f.after.map fun slot => slot.2.handle) l.2.handle r.2.handle
  rw [List.length_map] at hkeys hitems
  simp [Branch.removeChild, Columns.remove, Block.toBranch, Frame.fill, hkeys, hitems, orFault,
    Block.merge]

/-- The second of two children leaves the arena, while its own children stay there without a
parent. -/
theorem take_second (hs : nodes.Holds (above.fill (f.fill [l, r])).cells) :
    ∃ nodes', nodes.take r.2.handle = .ok (r.2.node (some f.handle), nodes') ∧
      nodes'.Holds (r.2.below + (l.2.cells (some f.handle) +
        ((f.handle, .branch (Block.toBranch above.parent (f.fill [l, r]))) ::ₘ
          (cellsEach (some f.handle) f.before + cellsEach (some f.handle) f.after +
            above.cells f.handle)))) := by
  apply Arena.Holds.take
  apply hs.of_eq
  -- Of the cells of the second child only the topmost one goes.
  rw [Path.cells_fill_slots, cellsEach_cons, cellsEach_cons, cellsEach_nil, Block.cells_eq r.2]
  simp only [← Multiset.singleton_add]
  abel

/-- Two siblings are merged, and their parent is brought up to date. -/
theorem mergeNodes_eq (hs : nodes.Holds (above.fill (f.fill [l, r])).cells)
    (he : Block.Exact (n := n + 1) (f.fill [l, r])) :
    ∃ nodes', mergeNodes nodes l.2.handle r.2.handle f.handle =
        .ok (nodes', .merged l.2.handle r.2.handle (l.2.count + r.2.count)) ∧
      nodes'.Holds (above.fill (f.fill [(r.1, l.2.merge r.2)])).cells := by
  obtain ⟨hboth, hothers⟩ := f.exact_fill.1 he
  obtain ⟨hlmax, hlexact⟩ := hboth l (by simp)
  obtain ⟨hrmax, hrexact⟩ := hboth r (by simp)
  have hrpos : 0 < r.2.count := (Block.maxKey?_isSome _).1 (by rw [hrmax]; rfl)
  have hposition := positionOf_second hs
  obtain ⟨nodes₁, htake, hs₁⟩ := take_second hs
  obtain ⟨nodes₂, habsorb, hs₂⟩ := absorb_eq hs₁ hlexact hrexact (some f.handle)
  obtain ⟨nodes₃, hmodify, hs₃⟩ := modifyBranch_eq
    (f := fun branch => do
      return (← branch.removeChild (← branch.positionOf r.2.handle)).2)
    (hs₂.of_eq (Multiset.add_cons _ _ _)) (by rw [hposition, ok_bind, removeChild_second]; rfl)
  -- The merged node is listed under the key of the left one at first, which is stale.
  have hs₄ : nodes₃.Holds (above.fill (f.fill [(l.1, l.2.merge r.2)])).cells := by
    apply hs₃.of_eq
    rw [Path.cells_fill_slots, cellsEach_cons, cellsEach_nil, add_zero, Multiset.add_cons]
  have hmax : (l.2.merge r.2).maxKey? = some r.1 := by
    rw [Block.maxKey?_merge hrpos, hrmax]
  have hslots : [(l.1, l.2.merge r.2)].map
      (fun slot => (slot.2.maxKey?.getD slot.1, slot.2)) = [(r.1, l.2.merge r.2)] := by
    simp [hmax]
  -- Its own last key takes the place of the stale one, and the merged node is not empty.
  obtain ⟨nodes₄, hrefresh, hs₅⟩ := refreshMaxima_fill hs₄ hothers
    (by simpa using Nat.add_pos_right _ hrpos) hslots
  have hmem : (l.2.handle, Block.node (n := n) (some f.handle) (l.2.merge r.2)) ∈
      (above.fill (f.fill [(r.1, l.2.merge r.2)])).cells :=
    Path.mem_cells_child above f (List.mem_singleton_self (r.1, l.2.merge r.2))
  have hunlist : unlist nodes₂ f.handle r.2.handle = .ok nodes₄ := by
    show (do
      let nodes ← modifyBranch nodes₂ f.handle fun branch => do
        return (← branch.removeChild (← branch.positionOf r.2.handle)).2
      refreshMaxima nodes f.handle) = _
    rw [hmodify, ok_bind, hrefresh]
  refine ⟨nodes₄, ?_, hs₅⟩
  unfold mergeNodes
  simp only [htake, habsorb, hunlist, ok_bind, hs₅.get_of_mem hmem, Block.keyCount_node,
    Block.count_merge, pure_eq_ok]

end Merge

/-! ## The climb -/

section Climb

variable {tree : Tree K V} {p : Path K V n} {t : Subtree K V n}

/-- The root is read in its own slot. -/
private theorem get_root (hs : tree.Shows ((Path.top : Path K V n).fill t)) :
    tree.nodes.get tree.root = .ok (t.node none) := by
  rw [hs.root]
  exact hs.holds.get_of_mem (Path.mem_cells_fill .top t)

/-- A root that is a leaf or has not just one child stays. -/
theorem collapseRoot_of_ne_one (hs : tree.Shows ((Path.top : Path K V n).fill t))
    (hmany : n ≠ 0 → t.count ≠ 1) : tree.collapseRoot = .ok (tree, []) := by
  unfold collapseRoot
  rw [get_root hs, ok_bind]
  -- A leaf has no children to count.
  cases n with
  | zero => rfl
  | succ n =>
    show (if (t.toBranch none).childCount = 1 then _ else _) = _
    rw [Block.childCount_toBranch, if_neg (hmany (Nat.succ_ne_zero n))]
    rfl

/-- At the root the climb ends, where the only child of a branch takes its place. -/
theorem collapseRoot_eq (hs : tree.Shows ((Path.top : Path K V n).fill t))
    (hshort : Short tree.fanout .top t) :
    ∃ layout events nodes root, tree.collapseRoot = .ok ({ tree with nodes, root }, events) ∧
      Mends tree.fanout .top t layout events ∧
      ({ tree with nodes, root } : Tree K V).Shows layout := by
  cases n with
  | zero =>
    have hstays := collapseRoot_of_ne_one hs fun hn => absurd rfl hn
    exact ⟨_, [], tree.nodes, tree.root, hstays, .leaf, hs⟩
  | succ n =>
    by_cases hone : t.count = 1
    · -- The root has a single child, which loses its parent as the slot of the root is released.
      obtain ⟨handle, next, pairs⟩ := t
      obtain ⟨slot, rfl⟩ := List.length_eq_one_iff.1 hone
      obtain ⟨k, c⟩ := slot
      have hs₁ : tree.nodes.Holds
          ((handle, Block.node (n := n + 1) none ⟨handle, next, [(k, c)]⟩) ::ₘ
            c.cells (some handle)) := by
        apply hs.holds.of_eq
        show Block.cells (n := n + 1) none ⟨handle, next, [(k, c)]⟩ = _
        rw [Block.cells_succ, cellsEach_cons, cellsEach_nil, add_zero]
      obtain ⟨nodes₁, hfree, hs₂⟩ := hs₁.free
      have hs₂' : nodes₁.Holds (c.cells (some handle) + 0) := hs₂.of_eq (add_zero _).symm
      obtain ⟨nodes₂, hset, hs₃⟩ := setParent_eq hs₂' none
      have hshows : ({ tree with nodes := nodes₂, root := c.handle } : Tree K V).Shows ⟨n, c⟩ :=
        ⟨hs₃.of_eq (add_zero _), rfl⟩
      have hpop : c.Populated := by
        obtain ⟨⟨hmin, -⟩, hbelow⟩ := hshort.below (k, c) (List.mem_singleton_self _)
        exact hbelow.populated (Nat.lt_of_lt_of_le (by decide) (tree.fanout.two_le_min.trans hmin))
      refine ⟨_, _, nodes₂, c.handle, ?_, .collapses, hshows⟩
      unfold collapseRoot
      rw [get_root hs, ok_bind]
      show (if (Block.toBranch none (⟨handle, next, [(k, c)]⟩ : Subtree K V (n + 1))).childCount = 1
        then _ else _) = _
      have hcount : (Block.toBranch none
        (⟨handle, next, [(k, c)]⟩ : Subtree K V (n + 1))).childCount = 1 := rfl
      have hchild : (Block.toBranch none (⟨handle, next, [(k, c)]⟩ : Subtree K V (n + 1))).child 0 =
          .ok c.handle := rfl
      have hroot : tree.root = handle := hs.root
      rw [if_pos hcount, hchild, hroot]
      simp only [ok_bind, hfree, hset, height_eq hshows hpop]
      rfl
    · have hstays := collapseRoot_of_ne_one hs fun _ => hone
      exact ⟨_, [], tree.nodes, tree.root, hstays, .branch hone, hs⟩

section Step

variable {side : Side} {g : Frame K (Subtree K V n)} {above : Path K V (n + 1)}
  {slot : K × Subtree K V n}

/-- A short node borrows from a sibling with a pair to spare. -/
private theorem borrow_mends (hs : tree.Shows ((Path.step (g.widen slot side) above).fill t))
    (hshort : Short tree.fanout (.step (g.widen slot side) above) t)
    (hfewer : t.count < tree.fanout.min) (hspare : tree.fanout.min < slot.2.count)
    (hfirst : side = .right → ∀ other ∈ g.beside .left, other.2.count ≤ tree.fanout.min) :
    ∃ layout nodes event, borrow tree.nodes side t.handle slot.2.handle g.handle =
        .ok (nodes, event) ∧
      Mends tree.fanout (.step (g.widen slot side) above) t layout [event] ∧
      ({ tree with nodes } : Tree K V).Shows layout := by
  have hne : slot.2.pairs ≠ [] := List.ne_nil_of_length_pos (Nat.zero_lt_of_lt hspare)
  obtain ⟨pair, pairs, hpairs⟩ := side.opposite.exists_cons hne
  have hnode : 0 < (t.withPairs (side.cons pair t.pairs)).count := by simp [Block.count]
  -- The lender has a pair to spare, and one more at least.
  have hlender : 0 < (slot.2.withPairs pairs).count := by
    have htwo := tree.fanout.two_le_min
    simp only [Block.count, hpairs, Side.length_cons] at hspare
    show 0 < pairs.length
    omega
  -- Both have pairs left, so both have a last key to be cached.
  obtain ⟨k, hk⟩ := Option.isSome_iff_exists.1 ((Block.maxKey?_isSome _).2 hnode)
  obtain ⟨k', hk'⟩ := Option.isSome_iff_exists.1 ((Block.maxKey?_isSome _).2 hlender)
  have hs₁ := hs.holds
  rw [Path.fill, Frame.plug_widen] at hs₁
  obtain ⟨nodes₁, hborrow, hs₂⟩ := borrow_eq hs₁ hshort.exact_parent hpairs hk hk'
  exact ⟨_, nodes₁, _, hborrow, .borrows hfewer hspare hfirst hpairs hk hk',
    hs.fill Frame.handle_widen hs₂⟩

/-- A short node and a sibling are merged. -/
theorem merge_shows {l r : K × Subtree K V n}
    (hs : tree.Shows ((Path.step (g.widen slot side) above).fill t))
    (hshort : Short tree.fanout (.step (g.widen slot side) above) t)
    (hlr : side.both slot (g.key, t) = [l, r]) :
    ∃ nodes, mergeNodes tree.nodes l.2.handle r.2.handle g.handle =
        .ok (nodes, .merged l.2.handle r.2.handle (l.2.count + r.2.count)) ∧
      ({ tree with nodes } : Tree K V).Shows (above.fill (g.fill [(r.1, l.2.merge r.2)])) := by
  -- The two siblings stand in the list of their parent in either order.
  have hs₁ := hs.holds
  rw [Path.fill, Frame.plug_widen, hlr] at hs₁
  have hexact := hshort.exact_parent
  rw [hlr] at hexact
  obtain ⟨nodes₁, hmerged, hs₂⟩ := mergeNodes_eq hs₁ hexact
  exact ⟨nodes₁, hmerged, hs.fill Frame.handle_widen hs₂⟩

end Step

/-- A climb that has come up to the root only asks whether it gives way to its child. -/
theorem mergeUpward_root (hs : tree.Shows ((Path.top : Path K V n).fill t)) (levels : Nat) :
    mergeUpward (levels + 1) tree t.handle = tree.collapseRoot := by
  unfold mergeUpward
  rw [siblings_root hs.holds]
  rfl

/-- The climb stops at a node below the root that is not short. -/
theorem mergeUpward_of_le {f : Frame K (Subtree K V n)} {above : Path K V (n + 1)}
    (hs : tree.Shows ((Path.step f above).fill t)) (hmin : tree.fanout.min ≤ t.count)
    (levels : Nat) : mergeUpward (levels + 1) tree t.handle = .ok (tree, []) := by
  have hget := hs.holds.get_of_mem (Path.mem_cells_fill (.step f above) t)
  unfold mergeUpward
  simp only [siblings_eq hs.holds, hget, ok_bind, Block.keyCount_node]
  rw [if_pos hmin]
  rfl

/-- The climb from a short node runs to its end, and follows the relation. -/
theorem mergeUpward_eq (hs : tree.Shows (p.fill t)) (hshort : Short tree.fanout p t)
    (levels : Nat) (hlevels : p.length < levels) :
    ∃ layout events nodes root,
      mergeUpward levels tree t.handle = .ok ({ tree with nodes, root }, events) ∧
      Mends tree.fanout p t layout events ∧
      ({ tree with nodes, root } : Tree K V).Shows layout := by
  -- The induction is on the path, at whose end the climb stands; the tree is another one after each
  -- merge.
  induction p generalizing tree levels with
  | top =>
    obtain ⟨levels, rfl⟩ := Nat.exists_eq_succ_of_ne_zero (Nat.ne_zero_of_lt hlevels)
    obtain ⟨layout, events, nodes₁, root, hcollapse, hmends, hshows⟩ := collapseRoot_eq hs hshort
    exact ⟨layout, events, nodes₁, root, (mergeUpward_root hs levels).trans hcollapse, hmends,
      hshows⟩
  | @step n f above ih =>
    obtain ⟨levels, rfl⟩ := Nat.exists_eq_succ_of_ne_zero (Nat.ne_zero_of_lt hlevels)
    by_cases hmin : tree.fanout.min ≤ t.count
    · exact ⟨_, [], tree.nodes, tree.root, mergeUpward_of_le hs hmin levels, .enough hmin, hs⟩
    · have hfewer := Nat.lt_of_not_le hmin
      have hget := hs.holds.get_of_mem (Path.mem_cells_fill (.step f above) t)
      unfold mergeUpward
      simp only [siblings_eq hs.holds, hget, ok_bind, Block.keyCount_node, if_neg hmin]
      rcases lender?_eq hs.holds with
        ⟨side, slot, g, rfl, hspare, hfirst, hlender⟩ | ⟨hnone, hlender⟩
      · obtain ⟨layout, nodes₁, event, hborrow, hmends, hshows⟩ :=
          borrow_mends hs hshort hfewer hspare hfirst
        have hparent : (siblingsIn (g.widen slot side)).parent = g.handle := Frame.handle_widen
        refine ⟨layout, [event], nodes₁, tree.root, ?_, hmends, hshows⟩
        rw [hlender, hparent]
        simp only [ok_bind, hborrow]
        rfl
      · -- Neither sibling can lend, so two nodes are merged, and the parent may be short now.
        obtain ⟨side, slot, g, l, r, rfl, hfirst, hlr, hmerge⟩ :=
          mergeWithSibling_eq hshort.two_le_count tree.nodes t
        have hfew : slot.2.count ≤ tree.fanout.min := hnone side slot (by simp)
        have hothers : ∀ other ∈ g.beside side.opposite, other.2.count ≤ tree.fanout.min := by
          intro other hother
          exact hnone side.opposite other (by rwa [Frame.beside_widen_opposite])
        obtain ⟨nodes₁, hmerged, hs₁⟩ := merge_shows hs hshort hlr
        obtain ⟨layout, events, nodes₂, root, hclimb, hmends, hshows⟩ :=
          ih hs₁ (hshort.next hfewer hfew hlr) levels (Nat.lt_of_succ_lt_succ hlevels)
        have hparent : (siblingsIn (g.widen slot side)).parent = g.handle := Frame.handle_widen
        refine ⟨layout, _, nodes₂, root, ?_,
          .merges hfewer hfew hothers hfirst hlr hmends, hshows⟩
        rw [Frame.handle_fill] at hclimb
        rw [Frame.handle_widen] at hmerge
        simp only [hlender, hmerge, hmerged, ok_bind, hparent, hclimb]
        rfl

/-- A tree stays as it is where the climb starts at a filled node. -/
theorem resolveUnderflow_of_admits (hs : tree.Shows (p.fill t))
    (hadmits : p.Admits tree.fanout t.count) :
    tree.resolveUnderflow t.handle = .ok (tree, []) := by
  obtain ⟨levels, hslots⟩ :=
    Nat.exists_eq_succ_of_ne_zero (Nat.ne_zero_of_lt (length_lt_slotCount hs.holds))
  unfold resolveUnderflow
  rw [hslots]
  cases p with
  | top =>
    rw [mergeUpward_root hs]
    apply collapseRoot_of_ne_one hs
    -- A filled root has two children at least if it is a branch.
    exact fun hn hone => absurd (hadmits.2 hn) (by omega)
  | step f above => exact mergeUpward_of_le hs hadmits.1 levels

/-- A short node and each ancestor that becomes short are mended. -/
theorem resolveUnderflow_eq (hs : tree.Shows (p.fill t)) (hshort : Short tree.fanout p t) :
    ∃ layout events nodes root,
      tree.resolveUnderflow t.handle = .ok ({ tree with nodes, root }, events) ∧
      Mends tree.fanout p t layout events ∧
      ({ tree with nodes, root } : Tree K V).Shows layout :=
  mergeUpward_eq hs hshort tree.nodes.slotCount (length_lt_slotCount hs.holds)

end Climb

end OrderedIndex.Tree
