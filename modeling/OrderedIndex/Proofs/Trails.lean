import OrderedIndex.Proofs.Lookups
import OrderedIndex.Proofs.Maxima
import OrderedIndex.Proofs.Mending

/-!
# Trails

The trail of a descent are the nodes that it passes, from the leaf up to where it started.  In a
layout these are the ancestors of the leaf, whatever the descent was looking for, so two descents to
one leaf have the same trail.  The trail of a descent that always takes the outermost child on one
side is the spine of the tree on this side.
-/

namespace OrderedIndex

variable {K V : Type} {n : Nat}

/-! ## The nodes that a descent passes -/

namespace Tree

/-- The nodes that a descent passes, the leaf first.  The first argument bounds their number. -/
def trail (nodes : Arena (Node K V)) (pick : Branch K → Except Fault Handle) :
    Nat → Handle → Except Fault (List Handle)
  | 0, _ => .error .endlessLinks
  | steps + 1, h => do
    match ← nodes.get h with
    | .leaf _ => return [h]
    | .branch branch => return (← trail nodes pick steps (← pick branch)) ++ [h]

/-- The child of a branch that comes outermost on one side. -/
def outermostChild : Side → Branch K → Except Fault Handle
  | .left => firstChild
  | .right => lastChild

/-- The leaf that comes outermost on one side. -/
def outermostLeaf : Side → Tree K V → Except Fault Handle
  | .left => firstLeaf
  | .right => lastLeaf

/-- The nodes from the outermost leaf on one side up to the root. -/
def spine (side : Side) (tree : Tree K V) : Except Fault (List Handle) :=
  trail tree.nodes (outermostChild side) tree.nodes.slotCount tree.root

variable {nodes : Arena (Node K V)} {pick : Branch K → Except Fault Handle} {h leaf : Handle}
  {branch : Branch K} {steps count : Nat} {way : List Handle}

theorem trail_of_leaf {content : Leaf K V} (hget : nodes.get h = .ok (.leaf content)) :
    trail nodes pick (steps + 1) h = .ok [h] := by
  rw [trail, hget]
  rfl

theorem trail_of_branch (hget : nodes.get h = .ok (.branch branch)) :
    trail nodes pick (steps + 1) h = .ok way ↔
      ∃ child below, pick branch = .ok child ∧ trail nodes pick steps child = .ok below ∧
        way = below ++ [h] := by
  rw [trail, hget]
  -- The order in which the two steps are written down is not that in which they are made.
  simp only [ok_bind, bind_eq_ok_iff, pure_eq_ok_iff]
  constructor
  · rintro ⟨child, hchild, below, hbelow, rfl⟩
    exact ⟨child, below, hchild, hbelow, rfl⟩
  · rintro ⟨child, below, hchild, hbelow, rfl⟩
    exact ⟨child, hchild, below, hbelow, rfl⟩

/-- A trail has a leaf at least. -/
theorem trail_ne_nil : trail nodes pick steps h ≠ .ok [] := by
  cases steps with
  | zero => simp [trail]
  | succ steps =>
    cases hget : nodes.get h with
    | error fault => simp [trail, hget, bind, Except.bind]
    | ok node =>
      cases node with
      | leaf content => simp [trail_of_leaf hget]
      | branch branch => simp [trail_of_branch hget]

/-- A descent ends at the first node of its trail, and counts the nodes of the trail. -/
theorem descend_eq_ok_iff : descend nodes pick steps h = .ok (leaf, count) ↔
    ∃ above, trail nodes pick steps h = .ok (leaf :: above) ∧ count = above.length + 1 := by
  -- By induction on the bound; the trail grows at its end with each level that the descent counts.
  induction steps generalizing h leaf count with
  | zero => simp [descend, trail]
  | succ steps ih =>
    unfold descend
    cases hget : nodes.get h with
    | error fault => simp [trail, hget, bind, Except.bind]
    | ok node =>
      cases node with
      | leaf content =>
        rw [trail_of_leaf hget]
        simp only [ok_bind, pure_eq_ok_iff, Prod.mk.injEq, Except.ok.injEq, List.cons.injEq]
        constructor
        · rintro ⟨rfl, rfl⟩
          exact ⟨[], ⟨rfl, rfl⟩, rfl⟩
        · rintro ⟨above, ⟨rfl, rfl⟩, rfl⟩
          exact ⟨rfl, rfl⟩
      | branch branch =>
        simp only [trail_of_branch hget, ok_bind, bind_eq_ok_iff, pure_eq_ok_iff, Prod.mk.injEq]
        constructor
        · rintro ⟨child, hchild, ⟨leaf', count'⟩, hdescend, rfl, rfl⟩
          obtain ⟨above, htrail, rfl⟩ := ih.1 hdescend
          exact ⟨above ++ [h], ⟨child, _, hchild, htrail, rfl⟩, by simp⟩
        · rintro ⟨above, ⟨child, below, hchild, htrail, hway⟩, rfl⟩
          cases below with
          -- The leaf of the trail below is the one at which the descent ends, so there has to be
          -- one.
          | nil => exact absurd htrail trail_ne_nil
          | cons first below =>
            obtain ⟨rfl, rfl⟩ := List.cons.inj hway
            exact ⟨child, hchild, _, ih.2 ⟨below, htrail, rfl⟩, rfl, by simp⟩

end Tree

/-! ## Ancestors -/

namespace Path

/-- The nodes above the end of a path, the parent first. -/
def ancestors : {n : Nat} → Path K V n → List Handle
  | _, .top => []
  | _, .step f rest => f.handle :: rest.ancestors

/-- The ancestors of a node are among the nodes above and beside it. -/
theorem ancestors_subset_handles {p : Path K V n} {h : Handle} (hmem : h ∈ p.ancestors) :
    h ∈ p.handles := by
  -- By induction up the path, of which the ancestors are the frames.
  induction p with
  | top => exact absurd hmem List.not_mem_nil
  | step f rest ih =>
    rw [handles, Multiset.mem_cons]
    rcases List.mem_cons.1 hmem with rfl | habove
    · exact .inl rfl
    · exact .inr (Multiset.mem_add.2 (.inr (ih habove)))

section Unique

variable {nodes : Arena (Node K V)} {m : Nat} {p : Path K V n} {q : Path K V m}
  {b : Subtree K V n} {c : Subtree K V m}

end Unique

end Path

namespace Tree

variable {nodes : Arena (Node K V)} {pick : Branch K → Except Fault Handle} {steps : Nat}
  {way : List Handle}

end Tree

/-! ## Spines -/

/-- The outermost element of a list on one side. -/
def Side.outermost? {α : Type} : Side → List α → Option α
  | .left, xs => xs.head?
  | .right, xs => xs.getLast?

@[simp] theorem Side.outermost?_cons {α : Type} {side : Side} {x : α} {xs : List α} :
    side.outermost? (side.cons x xs) = some x := by
  cases side with
  | left => rfl
  | right => simp [outermost?, cons]

/-- The outermost nodes of a subtree on one side, from the leaf up. -/
def Block.spine (side : Side) : {n : Nat} → Subtree K V n → List Handle
  | 0, b => [b.handle]
  | _ + 1, b => ((side.outermost? b.pairs).elim [] fun slot => spine side slot.2) ++ [b.handle]

/-- The outermost nodes of some subtrees side by side. -/
def spineEach (side : Side) (slots : List (K × Subtree K V n)) : List Handle :=
  (side.outermost? slots).elim [] fun slot => slot.2.spine side

section Spine

variable {side : Side} {front back : List (K × Subtree K V n)}
  {slots slots' : List (K × Subtree K V n)}

theorem Block.spine_succ (b : Subtree K V (n + 1)) :
    b.spine side = spineEach side b.pairs ++ [b.handle] := rfl

theorem Block.spine_ne_nil (b : Subtree K V n) : b.spine side ≠ [] := by
  cases n with
  | zero => simp [spine]
  | succ n => simp [spine_succ]

@[simp] theorem spineEach_singleton {slot : K × Subtree K V n} :
    spineEach side [slot] = slot.2.spine side := by
  cases side with
  | left => rfl
  | right => rfl

/-- The spine of a subtree depends on the outermost child only. -/
theorem Block.spine_eq {b c : Subtree K V n} (hhandle : c.handle = b.handle)
    (hsame : side.outermost? c.pairs = side.outermost? b.pairs) : c.spine side = b.spine side := by
  cases n with
  | zero => rw [spine, spine, hhandle]
  | succ n => rw [spine_succ, spine_succ, spineEach, spineEach, hsame, hhandle]

/-- Subtrees in the middle can be exchanged for others with the same spine. -/
theorem spineEach_between (hne : slots ≠ []) (hne' : slots' ≠ [])
    (hsame : spineEach side slots' = spineEach side slots) :
    spineEach side (front ++ slots' ++ back) = spineEach side (front ++ slots ++ back) := by
  obtain ⟨slot, others, rfl⟩ := side.exists_cons hne
  obtain ⟨slot', others', rfl⟩ := side.exists_cons hne'
  simp only [spineEach, Side.outermost?_cons, Option.elim_some] at hsame
  -- Either there are subtrees further out, or the spine is that of the outermost one here.
  cases side with
  | left =>
    cases front with
    | nil => exact hsame
    | cons outer front => rfl
  | right =>
    rcases List.eq_nil_or_concat' back with rfl | ⟨back, outer, rfl⟩
    · simpa [spineEach, Side.outermost?, Side.cons] using hsame
    · simp [spineEach, Side.outermost?]

/-- The spine of a tree depends on that of a subtree, and not on the cached keys. -/
theorem Path.Rekeys.spine_fill {p q : Path K V n} {b c : Subtree K V n} (hr : p.Rekeys q)
    (hsame : c.spine side = b.spine side) :
    (p.fill c).root.spine side = (q.fill b).root.spine side := by
  -- By induction up the path: of each branch the children beside the gap have stayed.
  induction hr with
  | top => exact hsame
  | step f k hrest ih =>
    apply ih
    rw [Block.spine_succ, Block.spine_succ, ← Frame.fill_singleton, ← Frame.fill_singleton]
    congr 1
    apply spineEach_between
    · exact List.cons_ne_nil _ _
    · exact List.cons_ne_nil _ _
    · simpa using hsame

/-- An edit of one leaf leaves the spines as they are. -/
theorem Path.Alike.spine_edit {q q' : Path K V 0} (ha : q'.Alike q) (leaf : Block K V)
    (pairs : List (K × V)) :
    (q'.fill (leaf.withPairs pairs)).root.spine side = (q.fill leaf).root.spine side :=
  ha.rekeys.spine_fill (b := leaf) (c := leaf.withPairs pairs) rfl

/-- The spine of a tree depends on those of some children of a branch. -/
theorem Path.spine_fill_slots {f : Frame K (Subtree K V n)} (rest : Path K V (n + 1))
    (hne : slots ≠ []) (hne' : slots' ≠ []) (hsame : spineEach side slots' = spineEach side slots) :
    (rest.fill (f.fill slots')).root.spine side = (rest.fill (f.fill slots)).root.spine side := by
  apply (Rekeys.refl rest).spine_fill
  rw [Block.spine_succ, Block.spine_succ]
  congr 1
  exact spineEach_between hne hne' hsame

end Spine

namespace Tree

/-- The outermost child of a branch is that of its block. -/
theorem outermostChild_eq {side : Side} {b : Subtree K V (n + 1)} {slot : K × Subtree K V n}
    {others : List (K × Subtree K V n)} (hpairs : b.pairs = side.cons slot others)
    (parent : Option Handle) : outermostChild side (b.toBranch parent) = .ok slot.2.handle := by
  cases side with
  | left =>
    simp [outermostChild, firstChild, Branch.child, Columns.item, Block.toBranch, hpairs, Side.cons,
      orFault]
  | right =>
    simp [outermostChild, lastChild, Branch.child, Columns.item, Branch.childCount,
      Branch.children, Block.toBranch, hpairs, Side.cons, orFault]

/-- Taking the outermost child of each branch passes the spine. -/
theorem trail_outermostChild {side : Side} {nodes : Arena (Node K V)} {p : Path K V n}
    {b : Subtree K V n} (hs : nodes.Holds (p.fill b).cells) (hpop : b.Populated) {steps : Nat}
    (hsteps : n < steps) :
    trail nodes (outermostChild side) steps b.handle = .ok (b.spine side) := by
  -- By induction on the level; no branch is without children, so there is an outermost one.
  induction n generalizing steps with
  | zero =>
    obtain ⟨steps, rfl⟩ := Nat.exists_eq_succ_of_ne_zero (Nat.ne_zero_of_lt hsteps)
    exact trail_of_leaf (hs.get_of_mem (p.mem_cells_fill b))
  | succ n ih =>
    obtain ⟨steps, rfl⟩ := Nat.exists_eq_succ_of_ne_zero (Nat.ne_zero_of_lt hsteps)
    obtain ⟨slot, others, hpairs⟩ := side.exists_cons hpop.1
    have hslot : slot ∈ b.pairs := hpairs ▸ Side.mem_cons_iff.2 (.inl rfl)
    have hbelow : trail nodes (outermostChild side) steps slot.2.handle =
        .ok (slot.2.spine side) := by
      obtain ⟨f, -, hplug⟩ := Frame.exists_plug_eq hslot
      rw [← hplug] at hs
      exact ih (p := .step f p) hs (hpop.2 slot hslot) (Nat.lt_of_succ_lt_succ hsteps)
    apply (trail_of_branch (hs.get_of_mem (p.mem_cells_fill b))).2
    refine ⟨_, _, outermostChild_eq hpairs p.parent, hbelow, ?_⟩
    rw [Block.spine_succ, spineEach, hpairs, Side.outermost?_cons]
    rfl

/-- A spine starts with the outermost leaf. -/
theorem outermostLeaf_of_spine {side : Side} {tree : Tree K V} {h : Handle} {above : List Handle}
    (hspine : tree.spine side = .ok (h :: above)) : tree.outermostLeaf side = .ok h := by
  have hdescend : descend tree.nodes (outermostChild side) tree.nodes.slotCount tree.root =
      .ok (h, above.length + 1) := descend_eq_ok_iff.2 ⟨above, hspine, rfl⟩
  cases side with
  | left =>
    show (descend tree.nodes firstChild tree.nodes.slotCount tree.root >>= _) = _
    exact bind_eq_ok_iff.2 ⟨_, hdescend, rfl⟩
  | right =>
    show (descend tree.nodes lastChild tree.nodes.slotCount tree.root >>= _) = _
    exact bind_eq_ok_iff.2 ⟨_, hdescend, rfl⟩

/-- A spine has a node on each level, and the one on the left starts with the first leaf. -/
theorem firstLeaf_of_spine {tree : Tree K V} {h : Handle} {above : List Handle}
    (hspine : tree.spine .left = .ok (h :: above)) :
    tree.firstLeaf = .ok h ∧ tree.height = .ok (above.length + 1) := by
  have hdescend : descend tree.nodes firstChild tree.nodes.slotCount tree.root =
      .ok (h, above.length + 1) := descend_eq_ok_iff.2 ⟨above, hspine, rfl⟩
  refine ⟨outermostLeaf_of_spine hspine, ?_⟩
  unfold height
  rw [hdescend]
  rfl

section Carried

variable [Ord K] {tree : Tree K V} {layout : Layout K V}

/-- The spines of a tree are those of its layout. -/
theorem Carries.spine_eq (hc : tree.Carries layout) (side : Side) :
    tree.spine side = .ok (layout.root.spine side) := by
  unfold spine
  rw [hc.shows.root]
  exact trail_outermostChild (p := .top) hc.shows.holds hc.populated
    (levels_lt_slotCount hc.shows.holds hc.populated)

end Carried

end Tree

end OrderedIndex
