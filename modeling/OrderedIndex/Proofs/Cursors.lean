import OrderedIndex.Proofs.Lookups
import OrderedIndex.Tree.Traversal

/-!
# Cursors

A cursor goes from leaf to leaf along the chain.  What it still has to pass is a list of entries: at
each step the first of them stands at the place of the cursor, and the others follow from the place
behind it.  On a tree that carries a layout, a new cursor has all entries before it.
-/

namespace OrderedIndex

variable {K V : Type} {tree : Tree K V}

/-- From a place in the chain of leaves on, these entries follow. -/
inductive Follows (tree : Tree K V) : Option Handle → Nat → List (K × V) → Prop where
  /-- No entry is left to be read, so the place does not count. -/
  | done {place : Option Handle} {index : Nat} : Follows tree place index []
  /-- The entry at the place is not the last one of its leaf. -/
  | inside {b : Block K V} {parent : Option Handle} {before after : List (K × V)}
      {pair next : K × V} {entries : List (K × V)}
      (hleaf : Tree.getLeaf tree.nodes b.handle = .ok (b.toLeaf parent))
      (hpairs : b.pairs = before ++ pair :: next :: after)
      (hrest : Follows tree (some b.handle) (before.length + 1) entries) :
      Follows tree (some b.handle) before.length (pair :: entries)
  /-- The entry at the place is the last one of its leaf, and the next leaf comes. -/
  | atEnd {b : Block K V} {parent : Option Handle} {before : List (K × V)} {pair : K × V}
      {entries : List (K × V)}
      (hleaf : Tree.getLeaf tree.nodes b.handle = .ok (b.toLeaf parent))
      (hpairs : b.pairs = before ++ [pair]) (hrest : Follows tree b.next 0 entries) :
      Follows tree (some b.handle) before.length (pair :: entries)

/-- A cursor has these entries before it. -/
structure Cursor.Faces (tree : Tree K V) (cursor : Cursor) (entries : List (K × V)) : Prop where
  follows : Follows tree cursor.leaf cursor.index entries
  remaining : cursor.remaining = entries.length

/-! ## The chain -/

namespace Follows

/-- From a place in a leaf on, the entries behind it follow, and then those of the next leaf. -/
theorem of_leaf {b : Block K V} {parent : Option Handle} {entries : List (K × V)}
    (hleaf : Tree.getLeaf tree.nodes b.handle = .ok (b.toLeaf parent))
    (hrest : Follows tree b.next 0 entries) (before : List (K × V)) (pair : K × V)
    (after : List (K × V)) (hpairs : b.pairs = before ++ pair :: after) :
    Follows tree (some b.handle) before.length (pair :: after ++ entries) := by
  -- The induction moves the place through the leaf; the last step leads out of it.
  induction after generalizing before pair with
  | nil => exact .atEnd hleaf hpairs hrest
  | cons next after ih =>
    refine .inside hleaf hpairs ?_
    have htail := ih (before ++ [pair]) next (by simp [hpairs])
    rw [List.length_append] at htail
    exact htail

/-- From the first of some linked leaves on, all their entries follow. -/
theorem of_linked {leaves : List (Block K V)}
    (hget : ∀ b ∈ leaves, ∃ parent, Tree.getLeaf tree.nodes b.handle = .ok (b.toLeaf parent))
    (hne : ∀ b ∈ leaves, b.pairs ≠ []) (hlinked : Linked none leaves) :
    Follows tree (firstOr none leaves) 0 (entriesOf leaves) := by
  -- The induction starts behind the last leaf, since the link of each leaf leads to those after it.
  induction leaves with
  | nil => exact .done
  | cons b leaves ih =>
    obtain ⟨parent, hleaf⟩ := hget b (List.mem_cons_self ..)
    have htail := ih (fun c hc => hget c (List.mem_cons_of_mem _ hc))
      (fun c hc => hne c (List.mem_cons_of_mem _ hc)) hlinked.2
    rw [← hlinked.1] at htail
    obtain ⟨pair, pairs, hpairs⟩ := List.exists_cons_of_ne_nil (hne b (List.mem_cons_self ..))
    rw [entriesOf_cons, hpairs]
    exact of_leaf hleaf htail [] pair pairs hpairs

end Follows

/-! ## Steps of a cursor -/

namespace Cursor

variable {cursor : Cursor} {entries : List (K × V)}

/-- A cursor with no entry before it stays where it is. -/
theorem next_of_nil (hf : cursor.Faces tree []) : cursor.next tree = .ok (none, cursor) := by
  have hzero : cursor.remaining = 0 := hf.remaining
  unfold next
  rw [if_pos hzero]

/-- A cursor passes the first of the entries before it. -/
theorem next_of_cons {entry : K × V} (hf : cursor.Faces tree (entry :: entries)) :
    ∃ cursor' : Cursor, cursor.next tree = .ok (some entry, cursor') ∧
      cursor'.Faces tree entries := by
  obtain ⟨place, index, remaining⟩ := cursor
  obtain ⟨hfollows, hremaining⟩ := hf
  -- The count of what remains lets the cursor read, and it reads at a place that is there.
  obtain rfl : remaining = entries.length + 1 := hremaining
  have hpos : entries.length + 1 ≠ 0 := Nat.succ_ne_zero _
  unfold next
  simp only [if_neg hpos]
  cases hfollows with
  | @inside b parent before after _ following _ hleaf hpairs hrest =>
    refine ⟨⟨some b.handle, before.length + 1, entries.length⟩, ?_, hrest, rfl⟩
    simp [hleaf, Columns.key, Leaf.value, Columns.item, Block.toLeaf, hpairs, orFault,
      Columns.keyCount]
  | @atEnd b parent before _ _ hleaf hpairs hrest =>
    refine ⟨⟨b.next, 0, entries.length⟩, ?_, hrest, rfl⟩
    simp [hleaf, Columns.key, Leaf.value, Columns.item, Block.toLeaf, hpairs, orFault,
      Columns.keyCount]

/-- The next `n` entries are taken, or all that are left. -/
theorem take_eq (hf : cursor.Faces tree entries) (n : Nat) :
    ∃ cursor' : Cursor, cursor.take tree n = .ok (entries.take n, cursor') ∧
      cursor'.Faces tree (entries.drop n) := by
  induction n generalizing cursor entries with
  | zero => exact ⟨cursor, rfl, hf⟩
  | succ n ih =>
    cases entries with
    | nil =>
      refine ⟨cursor, ?_, hf⟩
      unfold take
      rw [next_of_nil hf]
      rfl
    | cons entry entries =>
      -- One step of the cursor, and the rest are taken from where it has come to.
      obtain ⟨cursor₁, hnext, hf₁⟩ := next_of_cons hf
      obtain ⟨cursor₂, htake, hf₂⟩ := ih hf₁
      refine ⟨cursor₂, ?_, hf₂⟩
      unfold take
      simp only [hnext, ok_bind, htake, pure_eq_ok, List.take_succ_cons]

theorem next_eq (hf : cursor.Faces tree entries) :
    ∃ cursor' : Cursor, cursor.next tree = .ok (entries.head?, cursor') ∧
      cursor'.Faces tree entries.tail := by
  cases entries with
  | nil => exact ⟨cursor, next_of_nil hf, hf⟩
  | cons entry entries => exact next_of_cons hf

theorem nth_eq (hf : cursor.Faces tree entries) (n : Nat) :
    ∃ cursor' : Cursor, cursor.nth tree n = .ok (entries[n]?, cursor') ∧
      cursor'.Faces tree (entries.drop (n + 1)) := by
  obtain ⟨cursor₁, htake, hf₁⟩ := take_eq hf n
  obtain ⟨cursor₂, hnext, hf₂⟩ := next_eq hf₁
  rw [List.tail_drop] at hf₂
  refine ⟨cursor₂, ?_, hf₂⟩
  unfold nth
  simp only [htake, ok_bind, hnext, List.head?_drop]

theorem rest_eq (hf : cursor.Faces tree entries) :
    ∃ cursor' : Cursor, cursor.rest tree = .ok (entries, cursor') ∧ cursor'.Faces tree [] := by
  -- A cursor remembers how many entries are left, and it takes that many.
  obtain ⟨cursor', htake, hf'⟩ := take_eq hf cursor.remaining
  rw [hf.remaining, List.take_length, ← hf.remaining] at htake
  rw [hf.remaining, List.drop_length] at hf'
  exact ⟨cursor', htake, hf'⟩

end Cursor

/-! ## Whole trees -/

/-- Leaves below the root hold as many entries as the fanout asks for. -/
theorem Block.FilledBelow.min_le_leaves {fanout : Fanout} {n : Nat} {b : Subtree K V (n + 1)}
    (hf : b.FilledBelow fanout) : ∀ leaf ∈ b.leaves, fanout.min ≤ leaf.count := by
  induction n with
  | zero =>
    -- Directly above the leaves the children are the leaves themselves.
    intro leaf hleaf
    obtain ⟨slot, hslot, hmem⟩ := List.mem_flatMap.1 hleaf
    obtain rfl := List.mem_singleton.1 hmem
    exact (hf slot hslot).1.1
  | succ n ih =>
    intro leaf hleaf
    obtain ⟨slot, hslot, hmem⟩ := List.mem_flatMap.1 hleaf
    exact ih (hf slot hslot).2 leaf hmem

theorem Block.FilledBelow.leaves_ne_nil {fanout : Fanout} {n : Nat} {b : Subtree K V (n + 1)}
    (hf : b.FilledBelow fanout) : ∀ leaf ∈ b.leaves, leaf.pairs ≠ [] := fun leaf hleaf =>
  List.ne_nil_of_length_pos
    (Nat.lt_of_lt_of_le (by decide) (fanout.two_le_min.trans (hf.min_le_leaves leaf hleaf)))

namespace Tree

variable [Ord K] {layout : Layout K V}

theorem Carries.getLeaf_of_mem (hc : tree.Carries layout) {b : Block K V} (hb : b ∈ layout.leaves) :
    ∃ parent, Tree.getLeaf tree.nodes b.handle = .ok (b.toLeaf parent) := by
  obtain ⟨parent, hmem⟩ : ∃ parent, (b.handle, Node.leaf (b.toLeaf parent)) ∈ layout.cells :=
    Block.exists_mem_cells_of_mem_leaves hb
  exact ⟨parent, getLeaf_eq hc.shows.holds hmem⟩

/-- A new cursor has all entries before it. -/
theorem start_eq (hc : tree.Carries layout) :
    ∃ cursor, Cursor.start tree = .ok cursor ∧ cursor.Faces tree layout.entries := by
  obtain ⟨q, leaf, hq, hleft, hfirst⟩ := firstLeaf_eq hc.shows hc.populated
  refine ⟨⟨some leaf.handle, 0, tree.size⟩, ?_, ?_, hc.size⟩
  · unfold Cursor.start
    rw [hfirst]
    rfl
  · -- The first leaf has nothing to its left, so the chain from there on is all there is.
    have hleaves : layout.leaves = leaf :: q.right := by
      rw [← hq, Path.leaves_fill, hleft]
      rfl
    -- The leaf of an empty tree is the only one that a cursor could not read from.
    by_cases hempty : layout.entries = []
    · rw [hempty]
      exact .done
    · have hne : ∀ b ∈ layout.leaves, b.pairs ≠ [] := by
        obtain ⟨levels, root⟩ := layout
        cases levels with
        | zero =>
          intro b hb
          obtain rfl := List.mem_singleton.1 hb
          rwa [Layout.entries, Layout.leaves, Block.leaves_zero, entriesOf_cons, entriesOf_nil,
            List.append_nil] at hempty
        | succ n => exact hc.sound.filled.below.leaves_ne_nil
      have hfollows := Follows.of_linked (fun b hb => hc.getLeaf_of_mem hb) hne hc.sound.linked
      rw [hleaves] at hfollows
      rw [Layout.entries, hleaves]
      exact hfollows

/-- The entries that are read along the chain of leaves are those of the layout. -/
theorem toList_eq (hc : tree.Carries layout) : tree.toList = .ok layout.entries := by
  obtain ⟨cursor, hstart, hf⟩ := start_eq hc
  obtain ⟨cursor', hrest, -⟩ := Cursor.rest_eq hf
  unfold toList
  simp only [hstart, ok_bind, hrest, pure_eq_ok]

theorem keys_eq (hc : tree.Carries layout) : tree.keys = .ok (layout.entries.map Prod.fst) := by
  unfold keys
  rw [toList_eq hc]
  rfl

theorem values_eq (hc : tree.Carries layout) : tree.values = .ok (layout.entries.map Prod.snd) := by
  unfold values
  rw [toList_eq hc]
  rfl

/-- Two trees are equal if their entries are. -/
theorem equal_eq_beq [BEq K] [BEq V] {other : Tree K V} {layout' : Layout K V}
    (hc : tree.Carries layout) (hc' : other.Carries layout') :
    tree.equal other = .ok (layout.entries == layout'.entries) := by
  unfold equal
  rw [toList_eq hc, toList_eq hc', hc.size, hc'.size]
  by_cases hlength : layout.entries.length = layout'.entries.length
  · rw [if_neg (not_not_intro hlength)]
    rfl
  · -- Lists of different lengths are not equal, so nothing is lost by the comparison of the sizes.
    have hne : (layout.entries == layout'.entries) = false :=
      Bool.eq_false_iff.2 fun heq => hlength (List.length_eq_of_beq heq)
    rw [if_pos hlength, hne]
    rfl

end Tree

end OrderedIndex
