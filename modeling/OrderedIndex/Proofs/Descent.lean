import OrderedIndex.Proofs.Nodes
import OrderedIndex.Proofs.Path

/-!
# Descents

A descent goes from the root of a layout to one of its leaves.  At each node on the way the layout
is the filling of a path, and what the descent has chosen so far is said about that path: which
leaves it has left to its left and to its right.  So the first leaf is the end of a path with
nothing to its left, and the leaf of a key is the end of a path with smaller keys only to its left
and larger ones only to its right.
-/

namespace OrderedIndex

variable {K V : Type} {n : Nat}

/-- The nodes of a tree are the cells of a layout. -/
structure Tree.Shows (tree : Tree K V) (layout : Layout K V) : Prop where
  holds : tree.nodes.Holds layout.cells
  root : tree.root = layout.root.handle

/-- A tree shows the layout that differs in the children of one branch, if its nodes do. -/
theorem Tree.Shows.fill {tree : Tree K V} {nodes : Arena (Node K V)}
    {f g : Frame K (Subtree K V n)} {rest : Path K V (n + 1)} {t : Subtree K V n}
    {slots : List (K × Subtree K V n)} (hs : tree.Shows ((Path.step g rest).fill t))
    (hsame : g.handle = f.handle) (hs' : nodes.Holds (rest.fill (f.fill slots)).cells) :
    ({ tree with nodes } : Tree K V).Shows (rest.fill (f.fill slots)) := by
  refine ⟨hs', ?_⟩
  calc tree.root = ((Path.step g rest).fill t).root.handle := hs.root
    _ = rest.rootHandle g.handle := Path.root_handle_fill _ _
    _ = rest.rootHandle (f.fill slots).handle := by rw [hsame, Frame.handle_fill]
    _ = (rest.fill (f.fill slots)).root.handle :=
        (Path.root_handle_fill rest (f.fill slots)).symm

/-! ## Largest keys -/

/-- The last key of an exact subtree is the last one of its entries. -/
theorem Block.Exact.getLast?_entries {b : Subtree K V n} (he : b.Exact) :
    (b.entries.map Prod.fst).getLast? = b.maxKey? := by
  induction n with
  | zero => rw [entries_zero]; rfl
  | succ n ih =>
    unfold Block.maxKey?
    rw [entries_succ]
    -- The last entry is below the last child, whose last key is the cached one.
    rcases List.eq_nil_or_concat' b.pairs with hnil | ⟨before, slot, hpairs⟩
    · simp [hnil]
    · obtain ⟨hmax, hexact⟩ := he slot (by simp [hpairs])
      have hlast : (slot.2.entries.map Prod.fst).getLast? = some slot.1 := by
        rw [ih hexact, hmax]
      have hslot : (entriesOf (leavesEach b.pairs)).map Prod.fst =
          (entriesOf (leavesEach before)).map Prod.fst ++ slot.2.entries.map Prod.fst := by
        simp [hpairs, Block.entries]
      rw [hslot, List.getLast?_append, hlast, hpairs]
      simp

section Bounds

variable [Ord K] [Std.TransOrd K] {cut : Cut K} {keys : List K} {k : K}

/-- No key is above the last one. -/
theorem Ascending.isLE_getLast (ha : Ascending keys) (hk : keys.getLast? = some k) :
    ∀ a ∈ keys, (compare a k).isLE := by
  obtain ⟨init, rfl⟩ := List.getLast?_eq_some_iff.1 hk
  intro a hmem
  -- A key is either before the last one or the last one itself.
  rcases List.mem_append.1 hmem with hinit | hlast
  · have hlt := (List.pairwise_append.1 ha).2.2 a hinit k (List.mem_singleton_self k)
    rw [hlt]
    rfl
  · obtain rfl := List.mem_singleton.1 hlast
    rw [Std.ReflOrd.compare_self]
    rfl

/-- What stands below cached keys that are below the search key is below it too. -/
theorem entries_lt_of_keys_lt {slots : List (K × Subtree K V n)} (hc : cut.Agrees)
    (he : ExactEach slots) (ha : Ascending ((entriesOf (leavesEach slots)).map Prod.fst))
    (hlt : ∀ slot ∈ slots, cut slot.1 = .lt) :
    ∀ entry ∈ entriesOf (leavesEach slots), cut entry.1 = .lt := by
  intro entry hentry
  -- The entry stands below one of the keys, and is not above it.
  obtain ⟨leaf, hleaf, hpair⟩ := List.mem_flatMap.1 hentry
  obtain ⟨slot, hslot, hmem⟩ := List.mem_flatMap.1 hleaf
  have hin : entry.1 ∈ slot.2.entries.map Prod.fst :=
    List.mem_map_of_mem (List.mem_flatMap.2 ⟨leaf, hmem, hpair⟩)
  have hsub : (slot.2.entries.map Prod.fst).Sublist
      ((entriesOf (leavesEach slots)).map Prod.fst) := by
    obtain ⟨before, after, rfl⟩ := List.append_of_mem hslot
    simp only [leavesEach_append, leavesEach_cons, entriesOf_append, List.map_append]
    exact (List.sublist_append_left _ _).trans (List.sublist_append_right _ _)
  -- Each cached key is the last one below it, and the keys there ascend as part of the whole.
  have hlast : (slot.2.entries.map Prod.fst).getLast? = some slot.1 := by
    rw [(he slot hslot).2.getLast?_entries, (he slot hslot).1]
  have hslotAsc : Ascending (slot.2.entries.map Prod.fst) := ha.sublist hsub
  exact hc.lt_of_le (hslotAsc.isLE_getLast hlast entry.1 hin) (hlt slot hslot)

end Bounds

/-! ## Any descent -/

namespace Tree

variable {layout : Layout K V} {nodes : Arena (Node K V)} {tree : Tree K V}

/-- A descent that finds a child of each branch on its way ends at a leaf, and what each choice
keeps of the way holds there. -/
theorem descend_eq (Kept : (n : Nat) → Path K V n → Subtree K V n → Prop)
    {pick : Branch K → Except Fault Handle} (hs : nodes.Holds layout.cells)
    (hpick : ∀ (n : Nat) (p : Path K V (n + 1)) (b : Subtree K V (n + 1)), p.fill b = layout →
      Kept (n + 1) p b → ∃ (f : Frame K (Subtree K V n)) (c : Subtree K V n), f.plug c = b ∧
        pick (b.toBranch p.parent) = .ok c.handle ∧ Kept n (.step f p) c)
    (p : Path K V n) (b : Subtree K V n) (hfill : p.fill b = layout) (hkept : Kept n p b)
    (steps : Nat) (hsteps : n < steps) :
    ∃ (q : Path K V 0) (leaf : Block K V), q.fill leaf = layout ∧ Kept 0 q leaf ∧
      descend nodes pick steps b.handle = .ok (leaf.handle, n + 1) := by
  subst hfill
  induction n generalizing steps with
  | zero =>
    obtain ⟨steps, rfl⟩ := Nat.exists_eq_succ_of_ne_zero (Nat.ne_zero_of_lt hsteps)
    refine ⟨p, b, rfl, hkept, ?_⟩
    unfold descend
    rw [hs.get_of_mem (p.mem_cells_fill b)]
    rfl
  | succ n ih =>
    obtain ⟨steps, rfl⟩ := Nat.exists_eq_succ_of_ne_zero (Nat.ne_zero_of_lt hsteps)
    -- The choice moves the gap one level down, and the layout is still the one that is filled in.
    obtain ⟨f, c, rfl, hchild, hkept'⟩ := hpick n p b rfl hkept
    obtain ⟨q, leaf, hq, hkeptq, hdescend⟩ :=
      ih (.step f p) c hkept' steps (Nat.lt_of_succ_lt_succ hsteps) hs hpick
    refine ⟨q, leaf, hq, hkeptq, ?_⟩
    unfold descend
    rw [hs.get_of_mem (p.mem_cells_fill (f.plug c)), ok_bind]
    show pick (Block.toBranch p.parent (f.plug c)) >>= _ = _
    rw [hchild, ok_bind, hdescend]
    rfl

/-- There are more slots than levels. -/
theorem levels_lt_slotCount (hs : nodes.Holds layout.cells) (hp : layout.root.Populated) :
    layout.levels < nodes.slotCount :=
  hp.lt_card_cells.trans_le hs.card_le_slotCount

/-! ## The first and the last leaf -/

/-- The children below a frame are populated if the branch is. -/
private theorem populated_of_plug {f : Frame K (Subtree K V n)} {c : Subtree K V n}
    (hp : Block.Populated (n := n + 1) (f.plug c)) : c.Populated :=
  hp.2 (f.key, c) (by simp [Frame.plug])

/-- Going to the first child of each branch leads to the leaf with nothing to its left. -/
theorem descend_firstChild (hs : nodes.Holds layout.cells) (hp : layout.root.Populated) :
    ∃ (q : Path K V 0) (leaf : Block K V), q.fill leaf = layout ∧ q.left = [] ∧
      descend nodes firstChild nodes.slotCount layout.root.handle =
        .ok (leaf.handle, layout.levels + 1) := by
  -- The first child of each branch has nothing before it, so nothing is added on the left.
  have hpick : ∀ (n : Nat) (p : Path K V (n + 1)) (b : Subtree K V (n + 1)), p.fill b = layout →
      b.Populated ∧ p.left = [] →
        ∃ (f : Frame K (Subtree K V n)) (c : Subtree K V n), f.plug c = b ∧
          firstChild (b.toBranch p.parent) = .ok c.handle ∧
            c.Populated ∧ (Path.step f p).left = [] := by
    intro n p ⟨handle, next, pairs⟩ _ ⟨hpop, hleft⟩
    obtain ⟨slot, after, rfl⟩ := List.exists_cons_of_ne_nil hpop.1
    refine ⟨⟨handle, next, [], slot.1, after⟩, slot.2, rfl, rfl, ?_, ?_⟩
    · exact hpop.2 slot (by simp)
    · simp [Path.left, hleft]
  obtain ⟨q, leaf, hq, ⟨-, hleft⟩, hdescend⟩ := descend_eq
    (fun _ p b => b.Populated ∧ p.left = []) hs hpick .top layout.root rfl ⟨hp, rfl⟩
    nodes.slotCount (levels_lt_slotCount hs hp)
  exact ⟨q, leaf, hq, hleft, hdescend⟩

/-- Going to the last child of each branch leads to the leaf with nothing to its right. -/
theorem descend_lastChild (hs : nodes.Holds layout.cells) (hp : layout.root.Populated) :
    ∃ (q : Path K V 0) (leaf : Block K V), q.fill leaf = layout ∧ q.right = [] ∧
      descend nodes lastChild nodes.slotCount layout.root.handle =
        .ok (leaf.handle, layout.levels + 1) := by
  -- The last child of each branch has nothing behind it, so nothing is added on the right.
  have hpick : ∀ (n : Nat) (p : Path K V (n + 1)) (b : Subtree K V (n + 1)), p.fill b = layout →
      b.Populated ∧ p.right = [] →
        ∃ (f : Frame K (Subtree K V n)) (c : Subtree K V n), f.plug c = b ∧
          lastChild (b.toBranch p.parent) = .ok c.handle ∧
            c.Populated ∧ (Path.step f p).right = [] := by
    intro n p ⟨handle, next, pairs⟩ _ ⟨hpop, hright⟩
    -- Its last child splits off from behind, so the list of children is taken apart there.
    rcases List.eq_nil_or_concat' pairs with rfl | ⟨before, slot, rfl⟩
    · exact absurd rfl hpop.1
    refine ⟨⟨handle, next, before, slot.1, []⟩, slot.2, by simp [Frame.plug], ?_,
      hpop.2 slot (by simp), ?_⟩
    · simp [lastChild, Branch.child, Columns.item, Branch.childCount, Branch.children,
        Block.toBranch, orFault]
    · simp [Path.right, hright]
  obtain ⟨q, leaf, hq, ⟨-, hright⟩, hdescend⟩ := descend_eq
    (fun _ p b => b.Populated ∧ p.right = []) hs hpick .top layout.root rfl ⟨hp, rfl⟩
    nodes.slotCount (levels_lt_slotCount hs hp)
  exact ⟨q, leaf, hq, hright, hdescend⟩

/-- The height counts the levels of branches and that of the leaves. -/
theorem height_eq (hs : tree.Shows layout) (hp : layout.root.Populated) :
    tree.height = .ok (layout.levels + 1) := by
  obtain ⟨q, leaf, -, -, hdescend⟩ := descend_firstChild hs.holds hp
  unfold height
  rw [hs.root, hdescend]
  rfl

theorem firstLeaf_eq (hs : tree.Shows layout) (hp : layout.root.Populated) :
    ∃ (q : Path K V 0) (leaf : Block K V), q.fill leaf = layout ∧ q.left = [] ∧
      tree.firstLeaf = .ok leaf.handle := by
  obtain ⟨q, leaf, hq, hleft, hdescend⟩ := descend_firstChild hs.holds hp
  refine ⟨q, leaf, hq, hleft, ?_⟩
  unfold firstLeaf
  rw [hs.root, hdescend]
  rfl

theorem lastLeaf_eq (hs : tree.Shows layout) (hp : layout.root.Populated) :
    ∃ (q : Path K V 0) (leaf : Block K V), q.fill leaf = layout ∧ q.right = [] ∧
      tree.lastLeaf = .ok leaf.handle := by
  obtain ⟨q, leaf, hq, hright, hdescend⟩ := descend_lastChild hs.holds hp
  refine ⟨q, leaf, hq, hright, ?_⟩
  unfold lastLeaf
  rw [hs.root, hdescend]
  rfl

/-! ## The leaf of a key -/

/-- A search key separates a path: what is to the left of its end is below, what is to the right
above. -/
structure Separates (cut : Cut K) (p : Path K V n) : Prop where
  left : ∀ entry ∈ entriesOf p.left, cut entry.1 = .lt
  right : ∀ entry ∈ entriesOf p.right, cut entry.1 = .gt

/-- A search key is routed to the end of a path, where a subtree stands: it separates the path, and
the subtree reaches up to the key, unless there is nothing to its right. -/
structure Routes (cut : Cut K) (p : Path K V n) (b : Subtree K V n) : Prop
    extends Separates cut p where
  reaches : p.right = [] ∨ ∃ k, b.maxKey? = some k ∧ cut k ≠ .lt

/-- The position that a branch routes a key to is that of the first child whose cached key is not
below, or of the last child. -/
theorem childFor_eq {cut : Cut K} {lower equal upper : List (K × Subtree K V n)} {handle : Handle}
    {next parent : Option Handle} (hd : cut.Divides lower equal upper) :
    childFor cut (Block.toBranch parent ⟨handle, next, lower ++ equal ++ upper⟩) =
      Branch.child (Block.toBranch parent ⟨handle, next, lower ++ equal ++ upper⟩)
        (min lower.length ((lower ++ equal ++ upper).length - 1)) := by
  have hcount : (Block.toBranch parent
      (⟨handle, next, lower ++ equal ++ upper⟩ : Subtree K V (n + 1))).childCount =
        (lower ++ equal ++ upper).length := Block.childCount_toBranch _ _
  unfold childFor Branch.route
  rw [hcount]
  show Branch.child _ (min (search cut ((lower ++ equal ++ upper).map Prod.fst)).position _) = _
  rw [position_search hd]

section Route

variable [Ord K] [Std.TransOrd K] {cut : Cut K}

/-- The child that a key is routed to has only smaller keys to its left and larger ones to its
right.  It is the first one whose cached key is not below, or the last one. -/
theorem childFor_separates (hc : cut.Agrees) (b : Subtree K V (n + 1)) (he : b.Exact)
    (ha : Ascending (b.entries.map Prod.fst)) (hne : b.pairs ≠ []) (parent : Option Handle) :
    ∃ (f : Frame K (Subtree K V n)) (c : Subtree K V n), f.plug c = b ∧
      childFor cut (b.toBranch parent) = .ok c.handle ∧
      (∀ entry ∈ entriesOf (leavesEach f.before), cut entry.1 = .lt) ∧
      (∀ entry ∈ entriesOf (leavesEach f.after), cut entry.1 = .gt) ∧
      (cut f.key ≠ .lt ∨ f.after = [] ∧ cut f.key = .lt) := by
  obtain ⟨handle, next, pairs⟩ := b
  -- The entries are ascending, and the cached keys are some of their keys in the same order.
  have hkeys : Ascending (pairs.map Prod.fst) := ha.sublist he.keys_sublist
  obtain ⟨lower, equal, upper, rfl, hd⟩ := Cut.exists_divides hc pairs hkeys
  have hexact : ExactEach (lower ++ equal ++ upper) := he
  have hasc : Ascending ((entriesOf (leavesEach (lower ++ equal ++ upper))).map Prod.fst) := ha
  rw [childFor_eq hd]
  rcases hrest : equal ++ upper with _ | ⟨slot, after⟩
  · -- All cached keys are below, so the last child is taken.
    obtain ⟨rfl, rfl⟩ := List.append_eq_nil_iff.1 hrest
    rcases List.eq_nil_or_concat' lower with rfl | ⟨before, slot, rfl⟩
    · exact absurd rfl hne
    · refine ⟨⟨handle, next, before, slot.1, []⟩, slot.2, by simp [Frame.plug], ?_, ?_, by simp,
        .inr ⟨rfl, hd.below slot (by simp)⟩⟩
      · simp [Branch.child, Columns.item, Block.toBranch, orFault]
      · simp only [List.append_nil, exactEach_append, leavesEach_append, entriesOf_append,
          List.map_append] at hexact hasc
        exact entries_lt_of_keys_lt hc hexact.1 (hasc.sublist (List.sublist_append_left _ _))
          fun slot hslot => hd.below slot (by simp [hslot])
  · -- The first key that is not below is that of the child taken.
    have hslot : cut slot.1 ≠ .lt := hd.ne_lt (by simp [hrest])
    rw [List.append_assoc, hrest, exactEach_append] at hexact
    rw [List.append_assoc, hrest, leavesEach_append, entriesOf_append, List.map_append] at hasc
    refine ⟨⟨handle, next, lower, slot.1, after⟩, slot.2, ?_, ?_, ?_, ?_, .inl hslot⟩
    · rw [List.append_assoc, hrest]
      rfl
    · have hmin : min lower.length ((lower ++ equal ++ upper).length - 1) = lower.length := by
        rw [List.append_assoc, hrest]
        simp
      rw [hmin, List.append_assoc, hrest]
      simp [Branch.child, Columns.item, Block.toBranch, orFault]
    · exact entries_lt_of_keys_lt hc hexact.1 (hasc.sublist (List.sublist_append_left _ _))
        hd.below
    · -- The cached key is the key of an entry, and what is listed behind it is above that entry.
      have hmax : slot.1 ∈ slot.2.entries.map Prod.fst := by
        have hslotExact := (exactEach_cons.1 hexact.2).1
        exact hslotExact.2.maxKey_mem hslotExact.1
      intro entry hentry
      have habove : compare slot.1 entry.1 = .lt := by
        have hright := (List.pairwise_append.1 hasc).2.1
        rw [leavesEach_cons, entriesOf_append, List.map_append] at hright
        exact (List.pairwise_append.1 hright).2.2 _ hmax _ (List.mem_map_of_mem hentry)
      exact hc.gt_of_ne_lt hslot habove

/-- A key that is routed to a branch is routed to one of its children. -/
theorem Routes.child {p : Path K V (n + 1)} {b : Subtree K V (n + 1)} (hc : cut.Agrees)
    (hr : Routes cut p b) (he : b.Exact) (ha : Ascending (b.entries.map Prod.fst))
    (hne : b.pairs ≠ []) :
    ∃ (f : Frame K (Subtree K V n)) (c : Subtree K V n), f.plug c = b ∧
      childFor cut (b.toBranch p.parent) = .ok c.handle ∧ Routes cut (.step f p) c := by
  -- To the left and right of the child is what was there before, and what its siblings hold.
  obtain ⟨f, c, rfl, hchild, hleft, hright, hkey⟩ := childFor_separates hc b he ha hne p.parent
  refine ⟨f, c, rfl, hchild, ⟨?_, ?_⟩, ?_⟩
  · intro entry hentry
    rw [Path.left, entriesOf_append] at hentry
    exact (List.mem_append.1 hentry).elim (hr.left entry) (hleft entry)
  · intro entry hentry
    rw [Path.right, entriesOf_append] at hentry
    exact (List.mem_append.1 hentry).elim (hright entry) (hr.right entry)
  · rcases hkey with hreach | ⟨hlast, hbelow⟩
    · exact .inr ⟨f.key, ((f.exact_plug c).1 he).1.1, hreach⟩
    · -- The last child has been taken although its key is below, so the branch is below as well.
      rcases hr.reaches with hnil | ⟨k, hk, hreach⟩
      · left
        rw [Path.right, hlast, hnil]
        rfl
      · rw [Frame.maxKey?_plug, Frame.maxKey?, hlast] at hk
        obtain rfl : f.key = k := by simpa using hk
        exact absurd hbelow hreach

/-- The descent for a key ends at the leaf to which the key belongs. -/
theorem findLeaf_eq (hc : cut.Agrees) (hs : tree.Shows layout) (hp : layout.root.Populated)
    (he : layout.root.Exact) (ha : Ascending (layout.entries.map Prod.fst)) :
    ∃ (q : Path K V 0) (leaf : Block K V), q.fill leaf = layout ∧ Routes cut q leaf ∧
      tree.findLeaf cut = .ok leaf.handle := by
  have hpick : ∀ (n : Nat) (p : Path K V (n + 1)) (b : Subtree K V (n + 1)), p.fill b = layout →
      b.Populated ∧ Routes cut p b →
        ∃ (f : Frame K (Subtree K V n)) (c : Subtree K V n), f.plug c = b ∧
          childFor cut (b.toBranch p.parent) = .ok c.handle ∧
            c.Populated ∧ Routes cut (Path.step f p) c := by
    -- Along the way the branch is exact and ascending because the whole layout is.
    rintro n p b hfill ⟨hpop, hroutes⟩
    subst hfill
    have hexact : b.Exact := ((p.exact_fill b).1 he).2
    have hasc : Ascending (b.entries.map Prod.fst) := by
      refine ha.sublist ?_
      simp only [Layout.entries, Path.leaves_fill, entriesOf_append, List.map_append]
      exact (List.sublist_append_right _ _).trans (List.sublist_append_left _ _)
    obtain ⟨f, c, rfl, hchild, hroutes'⟩ := hroutes.child hc hexact hasc hpop.1
    exact ⟨f, c, rfl, hchild, populated_of_plug hpop, hroutes'⟩
  -- At the root nothing is on either side yet.
  have htop : Routes cut (Path.top : Path K V layout.levels) layout.root :=
    ⟨⟨by simp [Path.left], by simp [Path.right]⟩, .inl rfl⟩
  obtain ⟨q, leaf, hq, ⟨-, hroutes⟩, hdescend⟩ := descend_eq
    (fun _ p b => b.Populated ∧ Routes cut p b) hs.holds hpick .top layout.root rfl
    ⟨hp, htop⟩ tree.nodes.slotCount (levels_lt_slotCount hs.holds hp)
  refine ⟨q, leaf, hq, hroutes, ?_⟩
  unfold findLeaf
  rw [hs.root, hdescend]
  rfl

end Route

end Tree

end OrderedIndex
