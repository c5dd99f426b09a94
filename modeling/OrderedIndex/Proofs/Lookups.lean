import OrderedIndex.Proofs.Descent
import OrderedIndex.Proofs.Reference

/-!
# Lookups

Between two operations a tree carries a sound layout.  The descent for a key lands in the leaf to
which the key belongs: the entries of the whole layout are divided by the key at a place within this
leaf.  So what a lookup answers is what the reference answers on the entries of the layout.
-/

namespace OrderedIndex

variable {K V : Type}

/-- A tree carries a layout: its nodes lay it out, it is sound, and its entries have been
counted. -/
structure Tree.Carries [Ord K] (tree : Tree K V) (layout : Layout K V) : Prop where
  shows : tree.Shows layout
  sound : layout.Sound tree.fanout
  size : tree.size = layout.entries.length

/-- A tree renders a layout: it would carry it but for the number of pairs in the blocks, which is
left open. -/
structure Tree.Renders [Ord K] (tree : Tree K V) (layout : Layout K V) : Prop where
  shows : tree.Shows layout
  exact : layout.root.Exact
  linked : Linked none layout.leaves
  ascending : Ascending (layout.entries.map Prod.fst)
  size : tree.size = layout.entries.length

theorem Layout.Filled.populated {layout : Layout K V} {fanout : Fanout}
    (hf : layout.Filled fanout) : layout.root.Populated := by
  obtain ⟨levels, root⟩ := layout
  cases levels with
  | zero => trivial
  | succ n =>
    have htwo : 2 ≤ root.count := hf.two_le (Nat.succ_ne_zero n)
    exact hf.below.populated (Nat.lt_of_lt_of_le (by decide) htwo)

theorem Path.entries_fill (q : Path K V 0) (leaf : Block K V) :
    (q.fill leaf).entries = entriesOf q.left ++ leaf.pairs ++ entriesOf q.right := by
  simp [Layout.entries, Path.leaves_fill]

/-- A filled leaf below the root has more than one entry. -/
theorem Path.eq_top_of_admits {fanout : Fanout} {count : Nat} {q : Path K V 0}
    (h : q.Admits fanout count) (hfew : count ≤ 1) : q = .top := by
  cases q with
  | top => rfl
  | step f rest =>
    have hmin := fanout.two_le_min
    have hle : fanout.min ≤ count := h.1
    omega

namespace Tree

variable {tree : Tree K V} {layout : Layout K V} {cut : Cut K} {q : Path K V 0}
  {leaf : Block K V} {lower equal upper : List (K × V)} {pair : K × V} {probe : Probe}

namespace Carries

variable [Ord K]

theorem populated (hc : tree.Carries layout) : layout.root.Populated := hc.sound.filled.populated

theorem renders (hc : tree.Carries layout) : tree.Renders layout :=
  ⟨hc.shows, hc.sound.exact, hc.sound.linked, hc.sound.ascending, hc.size⟩

theorem nodup (hc : tree.Carries layout) : layout.handles.Nodup := by
  rw [← Layout.map_fst_cells]
  exact hc.shows.holds.nodup

theorem getLeaf (hc : tree.Carries layout) (hq : q.fill leaf = layout) :
    getLeaf tree.nodes leaf.handle = .ok (leaf.toLeaf q.parent) := by
  subst hq
  exact getLeaf_eq hc.shows.holds (Path.mem_cells_fill q leaf)

end Carries

/-! ## Where a key is looked for -/

/-- The descent for a key lands in a leaf, at a place that divides all entries. -/
structure Lands (cut : Cut K) (tree : Tree K V) (layout : Layout K V) (q : Path K V 0)
    (leaf : Block K V) (lower equal upper : List (K × V)) (probe : Probe) : Prop where
  fill : q.fill leaf = layout
  pairs : leaf.pairs = lower ++ equal ++ upper
  divides : cut.Divides (entriesOf q.left ++ lower) equal (upper ++ entriesOf q.right)
  findLeaf : tree.findLeaf cut = .ok leaf.handle
  getLeaf : Tree.getLeaf tree.nodes leaf.handle = .ok (leaf.toLeaf q.parent)
  search : (leaf.toLeaf q.parent).search cut = probe

theorem Lands.entries (hl : Lands cut tree layout q leaf lower equal upper probe) :
    layout.entries = entriesOf q.left ++ lower ++ equal ++ (upper ++ entriesOf q.right) := by
  rw [← hl.fill, Path.entries_fill, hl.pairs]
  simp

/-- Without the entry of a present key, its leaf has one entry less. -/
theorem Lands.length_succ (hl : Lands cut tree layout q leaf lower [pair] upper probe) :
    (lower ++ upper).length + 1 = leaf.count := by
  simp [Block.count, hl.pairs]
  omega

/-- With an entry for an absent key, its leaf has one entry more. -/
theorem Lands.length_insert (hl : Lands cut tree layout q leaf lower [] upper probe) :
    (lower ++ [pair] ++ upper).length = leaf.count + 1 := by
  simp [Block.count, hl.pairs]
  omega

/-- A key lands at its entry if it is present, and otherwise at the place where it belongs. -/
theorem lands [Ord K] [Std.TransOrd K] (ha : cut.Agrees) (hc : tree.Carries layout) :
    (∃ q leaf lower pair upper,
      Lands cut tree layout q leaf lower [pair] upper (.found lower.length)) ∨
    ∃ q leaf lower upper, Lands cut tree layout q leaf lower [] upper (.absent lower.length) := by
  obtain ⟨q, leaf, hq, hsep, hfind⟩ :=
    findLeaf_eq ha hc.shows hc.populated hc.sound.exact hc.sound.ascending
  have hleaf := hc.getLeaf hq
  have hasc : Ascending (leaf.pairs.map Prod.fst) := by
    refine hc.sound.ascending.sublist ?_
    rw [← hq, Path.entries_fill, List.map_append, List.map_append]
    exact (List.sublist_append_right _ _).trans (List.sublist_append_left _ _)
  obtain ⟨lower, equal, upper, hpairs, hd⟩ := Cut.exists_divides ha leaf.pairs hasc
  -- The leaf is divided by the key, and all other leaves lie on one side of it.
  have hdivides : cut.Divides (entriesOf q.left ++ lower) equal (upper ++ entriesOf q.right) := by
    refine ⟨?_, hd.same, ?_, hd.length_le⟩
    · intro entry hentry
      exact (List.mem_append.1 hentry).elim (hsep.left entry) (hd.below entry)
    · intro entry hentry
      exact (List.mem_append.1 hentry).elim (hd.above entry) (hsep.right entry)
  -- The search in the leaf sees no more than its keys.
  have hsearch : (leaf.toLeaf q.parent).search cut =
      search cut ((lower ++ equal ++ upper).map Prod.fst) := by
    rw [← hpairs]
    rfl
  -- Keys ascend, so no more than one entry has the key.
  rcases hd.equal_cases with rfl | ⟨pair, rfl⟩
  · rw [search_of_not_mem hd] at hsearch
    exact .inr ⟨q, leaf, lower, upper, hq, hpairs, hdivides, hfind, hleaf, hsearch⟩
  · rw [search_of_mem hd] at hsearch
    exact .inl ⟨q, leaf, lower, pair, upper, hq, hpairs, hdivides, hfind, hleaf, hsearch⟩

/-! ## Single keys -/

theorem Lands.locate_eq (hl : Lands cut tree layout q leaf lower equal upper probe) :
    tree.locate cut = .ok (match probe with
      | .found i => some (leaf.handle, i)
      | .absent _ => none) := by
  unfold locate
  simp only [hl.findLeaf, hl.getLeaf, ok_bind, hl.search]
  cases probe with
  | found i => rfl
  | absent i => rfl

/-- The item at the place where a present key lands. -/
theorem Lands.value_eq (hl : Lands cut tree layout q leaf lower [pair] upper probe) :
    (leaf.toLeaf q.parent).value lower.length = .ok pair.2 := by
  simp [Leaf.value, Columns.item, Block.toLeaf, hl.pairs, orFault]

section Answers

variable [Ord K] [Std.TransOrd K]

theorem get?_eq (ha : cut.Agrees) (hc : tree.Carries layout) :
    tree.get? cut = .ok (Reference.find? cut layout.entries) := by
  unfold get?
  rcases lands ha hc with ⟨q, leaf, lower, pair, upper, hl⟩ | ⟨q, leaf, lower, upper, hl⟩
  · simp only [hl.locate_eq, ok_bind, hl.getLeaf, hl.value_eq, pure_eq_ok]
    rw [hl.entries, Reference.find?_of_mem hl.divides]
  · simp only [hl.locate_eq, ok_bind, pure_eq_ok]
    rw [hl.entries, Reference.find?_of_not_mem hl.divides]

theorem get_eq (ha : cut.Agrees) (hc : tree.Carries layout) :
    tree.get cut = orFault .absentKey (Reference.find? cut layout.entries) := by
  unfold get
  rw [get?_eq ha hc, ok_bind]

theorem contains_eq (ha : cut.Agrees) (hc : tree.Carries layout) :
    tree.contains cut = .ok (Reference.find? cut layout.entries).isSome := by
  unfold contains
  rcases lands ha hc with ⟨q, leaf, lower, pair, upper, hl⟩ | ⟨q, leaf, lower, upper, hl⟩
  · rw [hl.locate_eq, hl.entries, Reference.find?_of_mem hl.divides]
    rfl
  · rw [hl.locate_eq, hl.entries, Reference.find?_of_not_mem hl.divides]
    rfl

end Answers

/-! ## The two ends -/

theorem first?_eq [Ord K] (hc : tree.Carries layout) : tree.first? = .ok layout.entries.head? := by
  obtain ⟨q, leaf, hq, hleft, hfirst⟩ := firstLeaf_eq hc.shows hc.populated
  unfold first?
  simp only [hfirst, ok_bind, hc.getLeaf hq, Block.keyCount_toLeaf]
  subst hq
  rw [Path.entries_fill, hleft, entriesOf_nil, List.nil_append]
  cases hpairs : leaf.pairs with
  | nil =>
    have hzero : leaf.count = 0 := by simp [Block.count, hpairs]
    have hadmits := ((q.filled_fill leaf).1 hc.sound.filled).2.1
    rw [hzero] at hadmits
    -- Only the leaf of an empty tree has no entry.
    obtain rfl := Path.eq_top_of_admits hadmits (Nat.zero_le 1)
    simp [hzero, Path.right]
  | cons pair pairs =>
    -- The place in front is read only where there is one, so the leaf must not be empty.
    have hpos : leaf.count ≠ 0 := by simp [Block.count, hpairs]
    simp [hpos, Columns.key, Leaf.value, Columns.item, Block.toLeaf, hpairs, orFault]

theorem last?_eq [Ord K] (hc : tree.Carries layout) : tree.last? = .ok layout.entries.getLast? := by
  obtain ⟨q, leaf, hq, hright, hlast⟩ := lastLeaf_eq hc.shows hc.populated
  unfold last?
  simp only [hlast, ok_bind, hc.getLeaf hq, Block.keyCount_toLeaf]
  subst hq
  rw [Path.entries_fill, hright, entriesOf_nil, List.append_nil]
  -- The last entry is at the end of the pairs, so the leaf is taken apart from behind.
  rcases List.eq_nil_or_concat' leaf.pairs with hpairs | ⟨pairs, pair, hpairs⟩
  · have hzero : leaf.count = 0 := by simp [Block.count, hpairs]
    have hadmits := ((q.filled_fill leaf).1 hc.sound.filled).2.1
    rw [hzero] at hadmits
    obtain rfl := Path.eq_top_of_admits hadmits (Nat.zero_le 1)
    simp [hzero, hpairs, Path.left]
  · have hcount : leaf.count = pairs.length + 1 := by simp [Block.count, hpairs]
    simp [hcount, Columns.key, Leaf.value, Columns.item, Block.toLeaf, hpairs, orFault]

end Tree

end OrderedIndex
