import OrderedIndex.Proofs.Journal
import OrderedIndex.Proofs.Lookups
import OrderedIndex.Proofs.Overflow
import OrderedIndex.Proofs.Underflow
import OrderedIndex.Tree.Update

/-!
# Updates

Every update starts with an edit of one leaf, which may leave the leaf one entry too large or too
small; the climbs do the rest.  So an update of a tree that carries a layout always answers, it
answers what the reference answers on the entries of the layout, and the new tree carries a layout
again.
-/

namespace OrderedIndex

variable {K V : Type}

/-- The layout of a new tree: one leaf in the first slot, without entries. -/
def Layout.initial : Layout K V := ⟨0, ⟨⟨0⟩, none, []⟩⟩

/-! ## Edits of one leaf -/

section Edit

variable {q q' : Path K V 0} {leaf : Block K V} {pairs : List (K × V)}

theorem linked_withPairs {next : Option Handle} {front back : List (Block K V)}
    (hlinked : Linked next (front ++ [leaf] ++ back)) :
    Linked next (front ++ [leaf.withPairs pairs] ++ back) := by
  obtain ⟨hfront, hback⟩ := linked_append.1 hlinked
  obtain ⟨hleft, hleaf⟩ := linked_append.1 hfront
  exact linked_append.2 ⟨linked_append.2 ⟨hleft, hleaf⟩, hback⟩

/-- An edit of one leaf leaves each node in its slot. -/
theorem Path.Alike.handles_edit (ha : q'.Alike q) (leaf : Block K V) (pairs : List (K × V)) :
    (q'.fill (leaf.withPairs pairs)).handles = (q.fill leaf).handles := by
  rw [handles_fill, handles_fill, ha.handles]
  rfl

theorem Path.Alike.root_edit (ha : q'.Alike q) (leaf : Block K V) (pairs : List (K × V)) :
    (q'.fill (leaf.withPairs pairs)).root.handle = (q.fill leaf).root.handle := by
  rw [root_handle_fill, root_handle_fill, ha.rootHandle, Block.handle_withPairs]

/-- An edit of one leaf, after which the path above is exact again, keeps the links and exchanges
some entries. -/
structure Edited (q : Path K V 0) (leaf : Block K V) (q' : Path K V 0) (pairs : List (K × V)) :
    Prop where
  alike : q'.Alike q
  exact : q'.Exact (leaf.withPairs pairs).maxKey?

namespace Edited

theorem entries (he : Edited q leaf q' pairs) : (q'.fill (leaf.withPairs pairs)).entries =
    entriesOf q.left ++ pairs ++ entriesOf q.right := by
  rw [Path.entries_fill, he.alike.left, he.alike.right, Block.pairs_withPairs]

theorem linked (he : Edited q leaf q' pairs) (hlinked : Linked none (q.fill leaf).leaves) :
    Linked none (q'.fill (leaf.withPairs pairs)).leaves := by
  rw [Path.leaves_fill] at hlinked ⊢
  rw [he.alike.left, he.alike.right]
  exact linked_withPairs hlinked

theorem levels (he : Edited q leaf q' pairs) :
    (q'.fill (leaf.withPairs pairs)).levels = (q.fill leaf).levels := by
  rw [Path.levels_fill, Path.levels_fill, he.alike.length]

/-- An edit needs no event. -/
theorem journals {fanout : Fanout} (he : Edited q leaf q' pairs)
    (hnodup : (q.fill leaf).handles.Nodup) :
    (q.fill leaf).Journals fanout [] (q'.fill (leaf.withPairs pairs)) := by
  have hhandles := he.alike.handles_edit leaf pairs
  refine .nil hnodup ?_ hhandles
  unfold Layout.outline
  rw [hhandles, he.alike.root_edit, he.levels]

end Edited

namespace Tree

/-- A leaf can be exchanged, and the path above it be brought up to date where that is needed. -/
theorem edit_eq {nodes : Arena (Node K V)} {changed : Bool}
    (hs : nodes.Holds (q.fill leaf).cells) (he : q.Exact leaf.maxKey?)
    (hsame : changed = false → (leaf.withPairs pairs).maxKey? = leaf.maxKey?)
    (hempty : pairs = [] → q = .top) :
    ∃ nodes' q', refreshAboveIf changed
        (nodes.put leaf.handle (.leaf ((leaf.withPairs pairs).toLeaf q.parent))) leaf.handle =
          .ok nodes' ∧
      Edited q leaf q' pairs ∧ nodes'.Holds (q'.fill (leaf.withPairs pairs)).cells := by
  -- Written back first, the leaf already stands in the layout; the keys above it may be wrong.
  have hs₁ : (nodes.put leaf.handle (.leaf ((leaf.withPairs pairs).toLeaf q.parent))).Holds
      (q.fill (leaf.withPairs pairs)).cells := by
    rw [Path.cells_fill, Block.cells_leaf, add_comm, Multiset.singleton_add] at hs ⊢
    exact hs.put _
  cases changed with
  | false => exact ⟨_, q, rfl, ⟨.refl q, hsame rfl ▸ he⟩, hs₁⟩
  | true =>
    cases hmax : (leaf.withPairs pairs).maxKey? with
    | none =>
      -- Only a root can have lost its last entry.
      have hnil : pairs = [] := by simpa [Block.maxKey?, Block.withPairs] using hmax
      obtain rfl := hempty hnil
      exact ⟨_, .top, refreshAbove_root hs₁, ⟨.refl _, trivial⟩, hs₁⟩
    | some k =>
      -- The refresh finds a last key, and puts it wherever it is the last one below a branch.
      obtain ⟨nodes', hrefresh, hs₂⟩ := refreshAbove_eq hs₁ hmax
      exact ⟨nodes', q.refresh k, hrefresh, ⟨q.alike_refresh, hmax ▸ he.refresh⟩, hs₂⟩

end Tree

end Edit

theorem Path.Admits.le_max {fanout : Fanout} {n count : Nat} {p : Path K V n}
    (h : p.Admits fanout count) : count ≤ fanout.max := by
  cases p with
  | top => exact h.1
  | step f rest => exact h.2

/-- A block that was filled may lose one pair. -/
theorem Path.Admits.tolerates {fanout : Fanout} {n count : Nat} {p : Path K V n}
    (h : p.Admits fanout (count + 1)) : p.Tolerates fanout count := by
  cases p with
  | top => exact fun hn => Nat.le_of_succ_le_succ (h.2 hn)
  | step f rest => exact h.1

/-- A leaf takes one entry more if it has room. -/
theorem Path.Admits.succ {fanout : Fanout} {count : Nat} {q : Path K V 0}
    (h : q.Admits fanout count) (hroom : count + 1 ≤ fanout.max) : q.Admits fanout (count + 1) := by
  cases q with
  | top => exact ⟨hroom, fun hn => absurd rfl hn⟩
  | step f rest => exact ⟨Nat.le_succ_of_le h.1, hroom⟩

/-! ## Columns of a leaf -/

section Leaf

variable {b : Block K V} {parent : Option Handle} {lower upper : List (K × V)} {pair : K × V}

theorem insert_toLeaf (hb : b.pairs = lower ++ [] ++ upper) (k : K) (v : V) :
    (b.toLeaf parent).insert lower.length k v =
      .ok ((b.withPairs (lower ++ [(k, v)] ++ upper)).toLeaf parent) := by
  -- Keys and values are inserted alike, each between its lower and its upper part.
  have hkeys := insertIdx_between (lower.map Prod.fst) (upper.map Prod.fst) k
  have hvalues := insertIdx_between (lower.map Prod.snd) (upper.map Prod.snd) v
  rw [List.length_map] at hkeys hvalues
  simp [Leaf.insert, Columns.insert, Block.toLeaf, Block.withPairs, hb, hkeys, hvalues]

theorem remove_toLeaf (hb : b.pairs = lower ++ [pair] ++ upper) :
    (b.toLeaf parent).remove lower.length =
      .ok (pair, (b.withPairs (lower ++ upper)).toLeaf parent) := by
  have hkeys := eraseIdx_between (lower.map Prod.fst) (upper.map Prod.fst) pair.1
  have hvalues := eraseIdx_between (lower.map Prod.snd) (upper.map Prod.snd) pair.2
  rw [List.length_map] at hkeys hvalues
  simp [Leaf.remove, Columns.remove, Block.toLeaf, Block.withPairs, hb, hkeys, hvalues, orFault]

theorem replaceValue_toLeaf (hb : b.pairs = lower ++ [pair] ++ upper) (v : V) :
    (b.toLeaf parent).replaceValue lower.length v =
      .ok (pair.2, (b.withPairs (lower ++ [(pair.1, v)] ++ upper)).toLeaf parent) := by
  simp [Leaf.replaceValue, Leaf.value, Columns.item, Block.toLeaf, Block.withPairs, hb, orFault]

end Leaf

/-! ## Edits of a tree -/

/-- From one tree to another by an operation that leaves a record of events, where both carry a
layout. -/
structure Tree.Advances [Ord K] (tree : Tree K V) (layout : Layout K V) (events : List Event)
    (tree' : Tree K V) (layout' : Layout K V) : Prop where
  fanout : tree'.fanout = tree.fanout
  carries : tree'.Carries layout'
  journals : layout.Journals tree.fanout events layout'

namespace Tree

/-- A climb that rearranges a layout which a tree renders into a filled one ends with a tree that
carries it. -/
theorem Renders.carries [Ord K] {tree : Tree K V} {layout layout' : Layout K V}
    {nodes : Arena (Node K V)} {root : Handle} (hr : tree.Renders layout)
    (hshows : ({ tree with nodes, root } : Tree K V).Shows layout')
    (hrearranges : layout.Rearranges layout') (hfilled : layout'.Filled tree.fanout) :
    ({ tree with nodes, root } : Tree K V).Carries layout' := by
  -- Whatever the climb does not change is known of the layout with which it starts.
  refine ⟨hshows, ⟨hrearranges.exact hr.exact, hfilled, hrearranges.linked hr.linked, ?_⟩, ?_⟩
  · rw [hrearranges.entries]
    exact hr.ascending
  · rw [hrearranges.entries]
    exact hr.size

/-- Removal of an absent key leaves the tree as it is. -/
theorem remove_of_absent {tree : Tree K V} {layout : Layout K V} {cut : Cut K} {q : Path K V 0}
    {leaf : Block K V} {lower upper : List (K × V)}
    (hl : Lands cut tree layout q leaf lower [] upper (.absent lower.length)) :
    tree.remove cut = .ok ⟨.error .notFound, tree, []⟩ := by
  unfold remove
  simp only [hl.findLeaf, hl.getLeaf, ok_bind, hl.search, pure_eq_ok]

/-- A write under an absent key leaves the tree as it is. -/
theorem replace?_of_absent {tree : Tree K V} {layout : Layout K V} {cut : Cut K} {q : Path K V 0}
    {leaf : Block K V} {lower upper : List (K × V)}
    (hl : Lands cut tree layout q leaf lower [] upper (.absent lower.length)) (v : V) :
    tree.replace? cut v = .ok ⟨none, tree, []⟩ := by
  unfold replace?
  simp only [hl.locate_eq, ok_bind, pure_eq_ok]

section Single

variable [Ord K] {tree : Tree K V} {layout : Layout K V} {cut : Cut K} {q q' : Path K V 0}
  {leaf : Block K V} {lower upper pairs : List (K × V)} {pair : K × V} {probe : Probe}

theorem Advances.refl (hc : tree.Carries layout) : tree.Advances layout [] tree layout :=
  ⟨rfl, hc, .nil hc.nodup rfl rfl⟩

/-- An edit of one leaf has reached the nodes of a tree: they lay the edited layout out, its entries
have been counted, and their keys ascend.  Only the number of entries in the leaf may be wrong. -/
structure Staged (nodes : Arena (Node K V)) (size : Nat) (q : Path K V 0) (leaf : Block K V)
    (q' : Path K V 0) (pairs : List (K × V)) : Prop extends Edited q leaf q' pairs where
  holds : nodes.Holds (q'.fill (leaf.withPairs pairs)).cells
  size : size = (q'.fill (leaf.withPairs pairs)).entries.length
  ascending : Ascending ((q'.fill (leaf.withPairs pairs)).entries.map Prod.fst)

section Stage

variable {nodes : Arena (Node K V)} {size : Nat}

namespace Staged

theorem layout_exact (he : Staged nodes size q leaf q' pairs) :
    (q'.fill (leaf.withPairs pairs)).root.Exact :=
  (q'.exact_fill _).2 ⟨he.exact, trivial⟩

theorem shows (he : Staged nodes size q leaf q' pairs) (hc : tree.Carries (q.fill leaf)) :
    ({ tree with nodes, size } : Tree K V).Shows (q'.fill (leaf.withPairs pairs)) :=
  ⟨he.holds, hc.shows.root.trans (he.alike.root_edit leaf pairs).symm⟩

/-- The nodes besides the leaf are filled as they were. -/
theorem filled (he : Staged nodes size q leaf q' pairs) (hc : tree.Carries (q.fill leaf)) :
    q'.Filled tree.fanout :=
  (he.alike.filled _).2 ((q.filled_fill leaf).1 hc.sound.filled).1

end Staged

/-- An edited tree carries the edited layout, if the leaf is neither too large nor too small. -/
theorem Carries.edited (hc : tree.Carries (q.fill leaf)) (he : Staged nodes size q leaf q' pairs)
    (hcount : q.Admits tree.fanout pairs.length) :
    tree.Advances (q.fill leaf) [] { tree with nodes, size } (q'.fill (leaf.withPairs pairs)) := by
  -- The bounds are those of the old layout, as the two paths have the same blocks.
  have hfilled : q'.Filled tree.fanout := he.filled hc
  have hadmits : q'.Admits tree.fanout pairs.length := (he.alike.admits _ _).2 hcount
  refine ⟨rfl, ⟨he.shows hc, ⟨he.layout_exact, ?_, ?_, he.ascending⟩, he.size⟩, ?_⟩
  · exact (q'.filled_fill _).2 ⟨hfilled, hadmits, trivial⟩
  · exact he.linked hc.sound.linked
  · exact he.journals hc.nodup

/-- Behind an edit a tree renders the edited layout. -/
theorem Staged.renders (he : Staged nodes size q leaf q' pairs) (hc : tree.Carries (q.fill leaf)) :
    ({ tree with nodes, size } : Tree K V).Renders (q'.fill (leaf.withPairs pairs)) :=
  ⟨he.shows hc, he.layout_exact, he.linked hc.sound.linked, he.ascending, he.size⟩

/-- A climb that starts behind an edit, and rearranges the edited layout into a filled one, ends
with a tree that carries it. -/
theorem advances_of_climb {nodes' : Arena (Node K V)} {root : Handle} {events : List Event}
    {layout' : Layout K V} (hc : tree.Carries (q.fill leaf))
    (he : Staged nodes size q leaf q' pairs)
    (hshows : ({ tree with nodes := nodes', root, size } : Tree K V).Shows layout')
    (hrearranges : (q'.fill (leaf.withPairs pairs)).Rearranges layout')
    (hfilled : layout'.Filled tree.fanout)
    (hjournals : (q'.fill (leaf.withPairs pairs)).handles.Nodup →
      (q'.fill (leaf.withPairs pairs)).Journals tree.fanout events layout') :
    tree.Advances (q.fill leaf) events { tree with nodes := nodes', root, size } layout' ∧
      layout'.entries = (q'.fill (leaf.withPairs pairs)).entries := by
  have hedit : (q.fill leaf).Journals tree.fanout [] (q'.fill (leaf.withPairs pairs)) :=
    he.journals hc.nodup
  refine ⟨⟨rfl, ?_, ?_⟩, hrearranges.entries⟩
  · exact (he.renders hc).carries hshows hrearranges hfilled
  · exact hedit.append (hjournals hedit.nodup)

/-- An edit that leaves one entry too many in a leaf does no other harm. -/
theorem Staged.overfull (he : Staged nodes size q leaf q' pairs) (hc : tree.Carries (q.fill leaf))
    (hcount : pairs.length = tree.fanout.max + 1) :
    Overfull tree.fanout q' (leaf.withPairs pairs) :=
  ⟨hcount, trivial, he.filled hc, he.layout_exact⟩

/-- After an edit that takes one entry out of a leaf, the leaf is short by no more than that. -/
theorem Staged.short (he : Staged nodes size q leaf q' pairs) (hc : tree.Carries (q.fill leaf))
    (hcount : pairs.length + 1 = leaf.count) : Short tree.fanout q' (leaf.withPairs pairs) := by
  have hadmits : q'.Admits tree.fanout (pairs.length + 1) := by
    rw [hcount]
    exact (he.alike.admits _ _).2 ((q.filled_fill leaf).1 hc.sound.filled).2.1
  exact ⟨hadmits.tolerates, Nat.le_of_succ_le hadmits.le_max, trivial, he.filled hc,
    he.layout_exact⟩

/-- A tree in which an edit may have left a leaf too small is repaired. -/
theorem Staged.mends (he : Staged nodes size q leaf q' pairs) (hc : tree.Carries (q.fill leaf))
    (hcount : pairs.length + 1 = leaf.count) :
    ∃ layout' events nodes' root,
      (if pairs.length < tree.fanout.min then
        ({ tree with nodes, size } : Tree K V).resolveUnderflow leaf.handle
        else .ok ({ tree with nodes, size }, [])) =
          .ok ({ tree with nodes := nodes', root, size }, events) ∧
      Mends tree.fanout q' (leaf.withPairs pairs) layout' events ∧
      ({ tree with nodes := nodes', root, size } : Tree K V).Shows layout' := by
  -- Where the leaf is not short the climb is not run, and there is nothing to be mended.
  have hshort : Short tree.fanout q' (leaf.withPairs pairs) := he.short hc hcount
  by_cases hfew : pairs.length < tree.fanout.min
  · rw [if_pos hfew]
    exact resolveUnderflow_eq (he.shows hc) hshort
  · rw [if_neg hfew]
    have hmin : tree.fanout.min ≤ (leaf.withPairs pairs).count := Nat.le_of_not_lt hfew
    exact ⟨_, [], nodes, tree.root, rfl, .of_le hmin q', he.shows hc⟩

end Stage

/-! ## Single entries -/

/-- A value is written over. -/
theorem writeValue_eq (hc : tree.Carries layout)
    (hl : Lands cut tree layout q leaf lower [pair] upper probe) (v : V) :
    ∃ (tree' : Tree K V) (q' : Path K V 0),
      tree.writeValue leaf.handle lower.length v = .ok (pair.2, tree') ∧ q'.Alike q ∧
      tree.Advances layout [] tree'
        (q'.fill (leaf.withPairs (lower ++ [(pair.1, v)] ++ upper))) ∧
      (q'.fill (leaf.withPairs (lower ++ [(pair.1, v)] ++ upper))).entries =
        entriesOf q.left ++ lower ++ [(pair.1, v)] ++ (upper ++ entriesOf q.right) := by
  have hfill := hl.fill
  subst hfill
  have hkeys : (lower ++ [(pair.1, v)] ++ upper).map Prod.fst = leaf.pairs.map Prod.fst := by
    simp [hl.pairs]
  have hmax : (leaf.withPairs (lower ++ [(pair.1, v)] ++ upper)).maxKey? = leaf.maxKey? := by
    unfold Block.maxKey?
    rw [Block.pairs_withPairs, hkeys]
  obtain ⟨nodes, q', hrefresh, he, hs⟩ := edit_eq hc.shows.holds
    ((q.exact_fill leaf).1 hc.sound.exact).1 (fun _ : false = false => hmax) (by simp)
  -- The last key stays, so nothing above the leaf has been written.
  obtain rfl := Except.ok.inj hrefresh
  have hentries := he.entries
  have hadmits := ((q.filled_fill leaf).1 hc.sound.filled).2.1
  have hlength : (lower ++ [(pair.1, v)] ++ upper).length = leaf.count := by
    simp [Block.count, hl.pairs]
  have hsize : tree.size =
      (q'.fill (leaf.withPairs (lower ++ [(pair.1, v)] ++ upper))).entries.length := by
    rw [hc.size, hentries, Path.entries_fill, hl.pairs]
    simp
  -- The keys are the same ones in the same order, whatever stands beside them.
  have hasc : Ascending
      ((q'.fill (leaf.withPairs (lower ++ [(pair.1, v)] ++ upper))).entries.map Prod.fst) := by
    have hall := hc.sound.ascending
    rw [Path.entries_fill, List.map_append, List.map_append, ← hkeys] at hall
    rw [hentries, List.map_append, List.map_append]
    exact hall
  refine ⟨_, q', ?_, he.alike, hc.edited ⟨he, hs, hsize, hasc⟩ (hlength ▸ hadmits), ?_⟩
  · unfold writeValue
    simp only [hl.getLeaf, ok_bind, replaceValue_toLeaf hl.pairs, pure_eq_ok]
  · rw [hentries]
    simp

/-- An entry can be taken out of its leaf. -/
theorem stage_remove (hc : tree.Carries (q.fill leaf))
    (hl : Lands cut tree (q.fill leaf) q leaf lower [pair] upper probe) :
    ∃ nodes q' size, tree.size = size + 1 ∧
      refreshAboveIf (lower.length == (lower ++ upper).length)
        (tree.nodes.put leaf.handle (.leaf ((leaf.withPairs (lower ++ upper)).toLeaf q.parent)))
        leaf.handle = .ok nodes ∧
      Staged nodes size q leaf q' (lower ++ upper) ∧
      (q'.fill (leaf.withPairs (lower ++ upper))).entries =
        Reference.erase cut (q.fill leaf).entries := by
  -- Unless the removed entry is the last one of the leaf, the last key stays.
  have hsame : (lower.length == (lower ++ upper).length) = false →
      (leaf.withPairs (lower ++ upper)).maxKey? = leaf.maxKey? := by
    intro hflag
    cases upper with
    | nil => simp at hflag
    | cons entry upper => simp [Block.maxKey?, hl.pairs]
  -- A leaf below the root has more than the one entry.
  have hempty : lower ++ upper = [] → q = .top := by
    intro hnil
    have hadmits := ((q.filled_fill leaf).1 hc.sound.filled).2.1
    obtain ⟨rfl, rfl⟩ := List.append_eq_nil_iff.1 hnil
    have hone : leaf.count = 1 := by simp [Block.count, hl.pairs]
    exact Path.eq_top_of_admits hadmits (Nat.le_of_eq hone)
  obtain ⟨nodes, q', hrefresh, he, hs⟩ := edit_eq hc.shows.holds
    ((q.exact_fill leaf).1 hc.sound.exact).1 hsame hempty
  have hplace : (q'.fill (leaf.withPairs (lower ++ upper))).entries =
      entriesOf q.left ++ lower ++ (upper ++ entriesOf q.right) := by
    rw [he.entries]
    simp
  refine ⟨nodes, q', _, ?_, hrefresh, ⟨he, hs, rfl, ?_⟩, ?_⟩
  · rw [hc.size, hl.entries, hplace]
    simp
    omega
  · rw [hplace]
    have hall := hc.sound.ascending
    rw [hl.entries] at hall
    -- What is left of an ascending list is ascending.
    apply hall.sublist (List.Sublist.map _ _)
    exact (List.sublist_append_left _ _).append_right _
  · rw [hplace, hl.entries, Reference.erase_of_mem hl.divides]

/-- Removal takes the entry of a key that is present out of its leaf, and mends what that leaves. -/
theorem remove_of_lands (hc : tree.Carries (q.fill leaf))
    (hl : Lands cut tree (q.fill leaf) q leaf lower [pair] upper (.found lower.length)) :
    ∃ nodes size q' layout' events nodes' root,
      tree.remove cut =
        .ok ⟨.ok pair.2, { tree with nodes := nodes', root, size }, events⟩ ∧
      Staged nodes size q leaf q' (lower ++ upper) ∧
      (q'.fill (leaf.withPairs (lower ++ upper))).entries =
        Reference.erase cut (q.fill leaf).entries ∧
      Short tree.fanout q' (leaf.withPairs (lower ++ upper)) ∧
      Mends tree.fanout q' (leaf.withPairs (lower ++ upper)) layout' events ∧
      ({ tree with nodes := nodes', root, size } : Tree K V).Shows layout' := by
  obtain ⟨nodes, q', size, hsize, hrefresh, he, hentries⟩ := stage_remove hc hl
  obtain ⟨layout', events, nodes', root, hresolve, hmends, hshows⟩ := he.mends hc hl.length_succ
  refine ⟨nodes, size, q', layout', events, nodes', root, ?_, he, hentries,
    he.short hc hl.length_succ, hmends, hshows⟩
  unfold remove sizeWithoutOne
  simp only [hl.findLeaf, hl.getLeaf, ok_bind, hl.search, remove_toLeaf hl.pairs,
    Block.keyCount_toLeaf, hsize]
  rw [show (leaf.withPairs (lower ++ upper)).count = (lower ++ upper).length from rfl]
  simp only [hrefresh, ok_bind]
  -- Either the climb is run, or the tree is answered as the edit has left it.
  by_cases hfew : (lower ++ upper).length < tree.fanout.min
  · rw [if_pos hfew] at hresolve ⊢
    rw [hresolve]
    rfl
  · rw [if_neg hfew] at hresolve ⊢
    obtain ⟨htree, hevents⟩ := Prod.mk.inj (Except.ok.inj hresolve)
    rw [htree, hevents]
    rfl

/-- Removal of a present key edits its leaf, and mends what that leaves. -/
theorem remove_of_present (hc : tree.Carries (q.fill leaf))
    (hl : Lands cut tree (q.fill leaf) q leaf lower [pair] upper (.found lower.length)) :
    ∃ (outcome : Outcome K V (Except KeyError V)) (q' : Path K V 0) (layout' : Layout K V),
      tree.remove cut = .ok outcome ∧ outcome.result = .ok pair.2 ∧ q'.Alike q ∧
      tree.Advances (q.fill leaf) outcome.events outcome.tree layout' ∧
      layout'.entries = Reference.erase cut (q.fill leaf).entries ∧
      Short tree.fanout q' (leaf.withPairs (lower ++ upper)) ∧
      Mends tree.fanout q' (leaf.withPairs (lower ++ upper)) layout' outcome.events := by
  obtain ⟨nodes, size, q', layout', events, nodes', root, hremove, he, hentries, hshort, hmends,
    hshows⟩ := remove_of_lands hc hl
  -- The climb starts from the edited layout; both parts together lead from the old one to the new.
  obtain ⟨hadvances, hsame⟩ := advances_of_climb hc he hshows (hmends.rearranges hshort)
    (hmends.filled hshort) (hmends.journals hshort)
  exact ⟨_, q', layout', hremove, rfl, he.alike, hadvances, hsame.trans hentries, hshort, hmends⟩

/-- Insertion of a present key writes over its value. -/
theorem insert_of_present {k : K} (hc : tree.Carries layout)
    (hl : Lands (.of k) tree layout q leaf lower [pair] upper (.found lower.length)) (v : V) :
    ∃ (outcome : Outcome K V (Option V)) (q' : Path K V 0), tree.insert k v = .ok outcome ∧
      outcome.result = some pair.2 ∧ q'.Alike q ∧
      tree.Advances layout outcome.events outcome.tree
        (q'.fill (leaf.withPairs (lower ++ [(pair.1, v)] ++ upper))) ∧
      (q'.fill (leaf.withPairs (lower ++ [(pair.1, v)] ++ upper))).entries =
        Reference.insert k v layout.entries := by
  obtain ⟨tree', q', hwrite, halike, hadvances, hentries⟩ := writeValue_eq hc hl v
  refine ⟨⟨some pair.2, tree', []⟩, q', ?_, rfl, halike, hadvances, ?_⟩
  · unfold insert
    simp only [hl.findLeaf, hl.getLeaf, ok_bind, hl.search, hwrite, pure_eq_ok]
  · rw [hentries, hl.entries, Reference.insert_of_mem hl.divides]

/-- A write under a present key changes the value there. -/
theorem replace?_of_present (hc : tree.Carries layout)
    (hl : Lands cut tree layout q leaf lower [pair] upper (.found lower.length)) (v : V) :
    ∃ (outcome : Outcome K V (Option V)) (q' : Path K V 0), tree.replace? cut v = .ok outcome ∧
      outcome.result = some pair.2 ∧ q'.Alike q ∧
      tree.Advances layout outcome.events outcome.tree
        (q'.fill (leaf.withPairs (lower ++ [(pair.1, v)] ++ upper))) ∧
      (q'.fill (leaf.withPairs (lower ++ [(pair.1, v)] ++ upper))).entries =
        Reference.replace cut v layout.entries := by
  obtain ⟨tree', q', hwrite, halike, hadvances, hentries⟩ := writeValue_eq hc hl v
  refine ⟨⟨some pair.2, tree', []⟩, q', ?_, rfl, halike, hadvances, ?_⟩
  · unfold replace?
    simp only [hl.locate_eq, ok_bind, hwrite, pure_eq_ok]
  · rw [hentries, hl.entries, Reference.replace_of_mem hl.divides]

section Ordered

variable [Std.TransOrd K]

/-- A new entry can be put in its place in the leaf to which it belongs. -/
theorem stage_insert {k : K} (hc : tree.Carries (q.fill leaf))
    (hl : Lands (.of k) tree (q.fill leaf) q leaf lower [] upper probe) (v : V) :
    ∃ nodes q', refreshAboveIf (lower.length + 1 == (lower ++ [(k, v)] ++ upper).length)
        (tree.nodes.put leaf.handle
          (.leaf ((leaf.withPairs (lower ++ [(k, v)] ++ upper)).toLeaf q.parent))) leaf.handle =
        .ok nodes ∧
      Staged nodes (tree.size + 1) q leaf q' (lower ++ [(k, v)] ++ upper) ∧
      (q'.fill (leaf.withPairs (lower ++ [(k, v)] ++ upper))).entries =
        Reference.insert k v (q.fill leaf).entries := by
  -- Unless the new entry is the last one of the leaf, the last key stays.
  have hsame : (lower.length + 1 == (lower ++ [(k, v)] ++ upper).length) = false →
      (leaf.withPairs (lower ++ [(k, v)] ++ upper)).maxKey? = leaf.maxKey? := by
    intro hflag
    cases upper with
    | nil => simp at hflag
    | cons entry upper => simp [Block.maxKey?, hl.pairs]
  obtain ⟨nodes, q', hrefresh, he, hs⟩ := edit_eq hc.shows.holds
    ((q.exact_fill leaf).1 hc.sound.exact).1 hsame (by simp)
  have hplace : (q'.fill (leaf.withPairs (lower ++ [(k, v)] ++ upper))).entries =
      entriesOf q.left ++ lower ++ [(k, v)] ++ (upper ++ entriesOf q.right) := by
    rw [he.entries]
    simp
  -- The entry stands between those below its key and those above, and is counted.
  refine ⟨nodes, q', hrefresh, ⟨he, hs, ?_, ?_⟩, ?_⟩
  · rw [hc.size, hl.entries, hplace]
    simp
    omega
  · rw [hplace]
    exact Reference.ascending_of_divides hl.divides (hl.entries ▸ hc.sound.ascending)
  · rw [hplace, hl.entries, Reference.insert_of_not_mem hl.divides]

/-- Insertion of a new key puts the entry in its place, and goes on to divide the leaf if that was
full. -/
theorem insert_of_lands {k : K} (hc : tree.Carries (q.fill leaf))
    (hl : Lands (.of k) tree (q.fill leaf) q leaf lower [] upper (.absent lower.length)) (v : V) :
    ∃ nodes q', Staged nodes (tree.size + 1) q leaf q' (lower ++ [(k, v)] ++ upper) ∧
      (q'.fill (leaf.withPairs (lower ++ [(k, v)] ++ upper))).entries =
        Reference.insert k v (q.fill leaf).entries ∧
      tree.insert k v =
        if tree.fanout.max < leaf.count + 1 then do
          let (tree, events) ←
            ({ tree with nodes, size := tree.size + 1 } : Tree K V).resolveOverflow leaf.handle
          return ⟨none, tree, events⟩
        else .ok ⟨none, { tree with nodes, size := tree.size + 1 }, []⟩ := by
  obtain ⟨nodes, q', hrefresh, he, hentries⟩ := stage_insert hc hl v
  refine ⟨nodes, q', he, hentries, ?_⟩
  have hcount : (leaf.withPairs (lower ++ [(k, v)] ++ upper)).count = leaf.count + 1 :=
    hl.length_insert
  rw [hl.length_insert] at hrefresh
  unfold insert
  simp only [hl.findLeaf, hl.getLeaf, ok_bind, hl.search, insert_toLeaf hl.pairs,
    Block.keyCount_toLeaf, hcount, hrefresh]
  rfl

/-- Insertion of a new key into a full leaf divides it, and each ancestor that becomes overfull. -/
theorem insert_of_full {k : K} (hc : tree.Carries (q.fill leaf))
    (hl : Lands (.of k) tree (q.fill leaf) q leaf lower [] upper (.absent lower.length)) (v : V)
    (hfull : leaf.count = tree.fanout.max) :
    ∃ nodes q' layout' events nodes' root,
      tree.insert k v =
        .ok ⟨none, { tree with nodes := nodes', root, size := tree.size + 1 }, events⟩ ∧
      Staged nodes (tree.size + 1) q leaf q' (lower ++ [(k, v)] ++ upper) ∧
      (q'.fill (leaf.withPairs (lower ++ [(k, v)] ++ upper))).entries =
        Reference.insert k v (q.fill leaf).entries ∧
      Overfull tree.fanout q' (leaf.withPairs (lower ++ [(k, v)] ++ upper)) ∧
      Splits tree.fanout q' (leaf.withPairs (lower ++ [(k, v)] ++ upper)) layout' events ∧
      ({ tree with nodes := nodes', root, size := tree.size + 1 } : Tree K V).Shows layout' := by
  obtain ⟨nodes, q', he, hentries, hinsert⟩ := insert_of_lands hc hl v
  have ho : Overfull tree.fanout q' (leaf.withPairs (lower ++ [(k, v)] ++ upper)) := by
    apply he.overfull hc
    rw [hl.length_insert, hfull]
  obtain ⟨layout', events, nodes', root, hresolve, hsplits, hshows⟩ :=
    resolveOverflow_eq (he.shows hc) ho
  refine ⟨nodes, q', layout', events, nodes', root, ?_, he, hentries, ho, hsplits, hshows⟩
  rw [hinsert, if_pos (Nat.lt_succ_of_le (Nat.le_of_eq hfull.symm))]
  rw [Block.handle_withPairs] at hresolve
  rw [hresolve]
  rfl

/-- Insertion of an absent key edits the leaf to which the key belongs.  The edited layout is the
new one if there is room for the entry, and otherwise the climb that divides the leaf starts from
it. -/
theorem insert_of_absent {k : K} (hc : tree.Carries (q.fill leaf))
    (hl : Lands (.of k) tree (q.fill leaf) q leaf lower [] upper (.absent lower.length)) (v : V) :
    ∃ (outcome : Outcome K V (Option V)) (q' : Path K V 0) (layout' : Layout K V),
      tree.insert k v = .ok outcome ∧ outcome.result = none ∧ q'.Alike q ∧
      tree.Advances (q.fill leaf) outcome.events outcome.tree layout' ∧
      layout'.entries = Reference.insert k v (q.fill leaf).entries ∧
      (layout' = q'.fill (leaf.withPairs (lower ++ [(k, v)] ++ upper)) ∧ outcome.events = [] ∨
        Overfull tree.fanout q' (leaf.withPairs (lower ++ [(k, v)] ++ upper)) ∧
          Splits tree.fanout q' (leaf.withPairs (lower ++ [(k, v)] ++ upper)) layout'
            outcome.events) := by
  have hadmits := ((q.filled_fill leaf).1 hc.sound.filled).2.1
  -- A leaf that has no room is full to the bound, for it has kept it so far.
  rcases Nat.lt_or_eq_of_le hadmits.le_max with hroom | hfull
  · obtain ⟨nodes, q', he, hentries, hinsert⟩ := insert_of_lands hc hl v
    rw [if_neg (Nat.not_lt_of_le hroom)] at hinsert
    have hsucc : q.Admits tree.fanout (lower ++ [(k, v)] ++ upper).length := by
      rw [hl.length_insert]
      -- With the one entry more, a leaf with room is still within its bounds.
      exact hadmits.succ hroom
    exact ⟨_, q', _, hinsert, rfl, he.alike, hc.edited he hsucc, hentries, .inl ⟨rfl, rfl⟩⟩
  · obtain ⟨nodes, q', layout', events, nodes', root, hinsert, he, hentries, ho, hsplits,
      hshows⟩ := insert_of_full hc hl v hfull
    obtain ⟨hadvances, hsame⟩ := advances_of_climb hc he hshows (hsplits.rearranges ho)
      (hsplits.filled ho) (hsplits.journals ho)
    exact ⟨_, q', layout', hinsert, rfl, he.alike, hadvances, hsame.trans hentries,
      .inr ⟨ho, hsplits⟩⟩

/-- Insertion answers the old value and adds the entry. -/
theorem insert_eq (hc : tree.Carries layout) (k : K) (v : V) :
    ∃ outcome layout', tree.insert k v = .ok outcome ∧
      outcome.result = Reference.find? (.of k) layout.entries ∧
      tree.Advances layout outcome.events outcome.tree layout' ∧
      layout'.entries = Reference.insert k v layout.entries := by
  -- The two cases of the search are the two cases of the reference.
  rcases lands (Cut.agrees_of k) hc with
    ⟨q, leaf, lower, pair, upper, hl⟩ | ⟨q, leaf, lower, upper, hl⟩
  · obtain ⟨outcome, q', hinsert, hresult, -, hadvances, hentries⟩ := insert_of_present hc hl v
    refine ⟨outcome, _, hinsert, ?_, hadvances, hentries⟩
    rw [hresult, hl.entries, Reference.find?_of_mem hl.divides]
  · have hfill := hl.fill
    subst hfill
    obtain ⟨outcome, q', layout', hinsert, hresult, -, hadvances, hentries, -⟩ :=
      insert_of_absent hc hl v
    refine ⟨outcome, layout', hinsert, ?_, hadvances, hentries⟩
    rw [hresult, hl.entries, Reference.find?_of_not_mem hl.divides]

/-- Removal answers the value of a key that is present, and removes its entry. -/
theorem remove_eq (ha : cut.Agrees) (hc : tree.Carries layout) :
    ∃ outcome layout', tree.remove cut = .ok outcome ∧
      outcome.result = Reference.orNotFound (Reference.find? cut layout.entries) ∧
      tree.Advances layout outcome.events outcome.tree layout' ∧
      layout'.entries = Reference.erase cut layout.entries := by
  rcases lands ha hc with ⟨q, leaf, lower, pair, upper, hl⟩ | ⟨q, leaf, lower, upper, hl⟩
  · have hfill := hl.fill
    subst hfill
    obtain ⟨outcome, q', layout', hremove, hresult, -, hadvances, hentries, -, -⟩ :=
      remove_of_present hc hl
    refine ⟨outcome, layout', hremove, ?_, hadvances, hentries⟩
    rw [hresult, hl.entries, Reference.find?_of_mem hl.divides]
    rfl
  · refine ⟨_, layout, remove_of_absent hl, ?_, .refl hc, ?_⟩
    · rw [hl.entries, Reference.find?_of_not_mem hl.divides]
      rfl
    · rw [hl.entries, Reference.erase_of_not_mem hl.divides]

/-- A write under a key that is present changes the value there. -/
theorem replace?_eq (ha : cut.Agrees) (hc : tree.Carries layout) (v : V) :
    ∃ outcome layout', tree.replace? cut v = .ok outcome ∧
      outcome.result = Reference.find? cut layout.entries ∧
      tree.Advances layout outcome.events outcome.tree layout' ∧
      layout'.entries = Reference.replace cut v layout.entries := by
  rcases lands ha hc with ⟨q, leaf, lower, pair, upper, hl⟩ | ⟨q, leaf, lower, upper, hl⟩
  · obtain ⟨outcome, q', hreplace, hresult, -, hadvances, hentries⟩ := replace?_of_present hc hl v
    refine ⟨outcome, _, hreplace, ?_, hadvances, hentries⟩
    rw [hresult, hl.entries, Reference.find?_of_mem hl.divides]
  · refine ⟨_, layout, replace?_of_absent hl v, ?_, .refl hc, ?_⟩
    · rw [hl.entries, Reference.find?_of_not_mem hl.divides]
    · rw [hl.entries, Reference.replace_of_not_mem hl.divides]

theorem modify_eq (ha : cut.Agrees) (hc : tree.Carries layout) (v : V) :
    ∃ outcome layout', tree.modify cut v = .ok outcome ∧
      outcome.result = Reference.orNotFound (Reference.find? cut layout.entries) ∧
      tree.Advances layout outcome.events outcome.tree layout' ∧
      layout'.entries = Reference.replace cut v layout.entries := by
  -- A modification is a write of which the answer is read as a success or a failure.
  obtain ⟨⟨result, tree', events⟩, layout', hreplace, hresult, hadvances, hentries⟩ :=
    replace?_eq ha hc v
  refine ⟨⟨Reference.orNotFound result, tree', events⟩, layout', ?_, ?_, hadvances, hentries⟩
  · unfold modify
    rw [hreplace, ok_bind]
    cases result with
    | none => rfl
    | some old => rfl
  · exact congrArg Reference.orNotFound hresult

end Ordered

/-- Two operations in sequence. -/
theorem Advances.trans {tree tree₁ tree₂ : Tree K V} {layout layout₁ layout₂ : Layout K V}
    {events₁ events₂ : List Event} (h₁ : tree.Advances layout events₁ tree₁ layout₁)
    (h₂ : tree₁.Advances layout₁ events₂ tree₂ layout₂) :
    tree.Advances layout (events₁ ++ events₂) tree₂ layout₂ :=
  ⟨h₂.fanout.trans h₁.fanout, h₂.carries, h₁.journals.append (h₁.fanout ▸ h₂.journals)⟩

end Single

/-! ## Many entries -/

section Many

variable [Ord K] [Std.TransOrd K]

/-- Insertions one after the other answer what the reference answers one after the other. -/
theorem insertMany_eq {tree : Tree K V} {layout : Layout K V} (hc : tree.Carries layout)
    (entries : List (K × V)) :
    ∃ outcome layout', tree.insertMany entries = .ok outcome ∧
      outcome.result = Reference.displaced entries layout.entries ∧
      tree.Advances layout outcome.events outcome.tree layout' ∧
      layout'.entries = Reference.insertMany entries layout.entries := by
  -- By induction on the entries: what one insertion leaves carries a layout for the next one.
  induction entries generalizing tree layout with
  | nil => exact ⟨⟨[], tree, []⟩, layout, rfl, rfl, .refl hc, rfl⟩
  | cons entry entries ih =>
    obtain ⟨k, v⟩ := entry
    obtain ⟨one, layout₁, hone, hresult₁, hadvances₁, hentries₁⟩ := insert_eq hc k v
    obtain ⟨many, layout₂, hmany, hresult₂, hadvances₂, hentries₂⟩ := ih hadvances₁.carries
    refine ⟨{ many with result := one.result :: many.result, events := one.events ++ many.events },
      layout₂, ?_, ?_, hadvances₁.trans hadvances₂, ?_⟩
    · unfold insertMany
      rw [hone, ok_bind, hmany]
      rfl
    · rw [hentries₁] at hresult₂
      exact congrArg₂ List.cons hresult₁ hresult₂
    · rw [hentries₂, hentries₁]
      rfl

theorem extend_eq {tree : Tree K V} {layout : Layout K V} (hc : tree.Carries layout)
    (entries : List (K × V)) :
    ∃ outcome layout', tree.extend entries = .ok outcome ∧
      tree.Advances layout outcome.events outcome.tree layout' ∧
      layout'.entries = Reference.insertMany entries layout.entries := by
  obtain ⟨outcome, layout', hmany, -, hadvances, hentries⟩ := insertMany_eq hc entries
  refine ⟨⟨(), outcome.tree, outcome.events⟩, layout', ?_, hadvances, hentries⟩
  unfold extend
  rw [hmany]
  rfl

end Many

/-! ## The empty tree -/

/-- A new tree carries the initial layout. -/
theorem empty_carries [Ord K] (fanout : Fanout) :
    (Tree.empty fanout : Tree K V).Carries .initial := by
  have hs : (Arena.empty.alloc (.leaf .empty) : Handle × Arena (Node K V)).2.Holds
      (Layout.initial : Layout K V).cells := by
    -- The first slot of an empty arena is the first one that there is.
    obtain ⟨h, nodes, halloc, -, hs⟩ := Arena.Holds.empty.alloc (.leaf .empty : Node K V)
    rw [halloc]
    obtain rfl : h = ⟨0⟩ := congrArg Prod.fst halloc.symm
    exact hs
  refine ⟨⟨hs, rfl⟩, ⟨trivial, ⟨trivial, Nat.zero_le _, ?_⟩, ?_, List.Pairwise.nil⟩, rfl⟩
  · exact fun hn => absurd rfl hn
  · exact ⟨rfl, trivial⟩

end Tree

end OrderedIndex
