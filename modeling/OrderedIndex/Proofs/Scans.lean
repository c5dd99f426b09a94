import OrderedIndex.Proofs.Structure

/-!
# Lookups as scans of the leaves

A lookup descends by cached keys and never sees the leaves beside its way.  What it finds is what a
scan finds that reads one leaf after the other along their chain: the first leaf that reaches up to
the key is the one at which the descent ends, and an entry with the key is found if any leaf holds
one, wherever that leaf stands.
-/

namespace OrderedIndex

variable {K V : Type} {n : Nat}

/-! ## Scans -/

/-- Whether the last of some keys is not below a search key. -/
def Columns.reaches {A : Type} (cut : Cut K) (columns : Columns K A) : Bool :=
  columns.maxKey?.any fun k => cut k != .lt

/-- The first of some leaves whose last key is not below a search key. -/
def scan (cut : Cut K) (leaves : List (Handle × Leaf K V)) : Option Handle :=
  (leaves.find? fun place => place.2.reaches cut).map Prod.fst

/-- At a position of a live leaf stands a key that equals a search key. -/
def Tree.StandsAt (cut : Cut K) (tree : Tree K V) (h : Handle) (i : Nat) : Prop :=
  ∃ leaf k, getLeaf tree.nodes h = .ok leaf ∧ leaf.keys[i]? = some k ∧ cut k = .eq

/-! ## The leaf of a key -/

section Leaf

variable {cut : Cut K} {q : Path K V 0} {leaf : Block K V}

/-- A scan of places with the content of some blocks is a scan of the blocks. -/
theorem scan_eq {places : List (Handle × Leaf K V)} {blocks : List (Block K V)}
    (hplaces : places.map (fun place => (place.1, place.2.toColumns)) =
      blocks.map fun b => (b.handle, b.columns)) :
    scan cut places = (blocks.find? fun b => b.columns.reaches cut).map Block.handle := by
  have hfind := congrArg
    (fun contents => (contents.find? fun content => content.2.reaches cut).map Prod.fst) hplaces
  simpa [scan, List.find?_map, Function.comp_def] using hfind

/-- A block of entries that are all below a search key does not reach up to it. -/
theorem reaches_of_lt {b : Block K V} (hlt : ∀ entry ∈ b.pairs, cut entry.1 = .lt) :
    b.columns.reaches cut = false := by
  unfold Columns.reaches Columns.maxKey?
  cases hmax : (b.pairs.map Prod.fst).getLast? with
  | none =>
    have hkeys : b.columns.keys.getLast? = none := hmax
    rw [hkeys]
    rfl
  | some k =>
    obtain ⟨entry, hentry, rfl⟩ := List.mem_map.1 (List.mem_of_getLast? hmax)
    have hkeys : b.columns.keys.getLast? = some entry.1 := hmax
    rw [hkeys, Option.any_some, hlt entry hentry]
    rfl

/-- The leaf to which a key is routed is the first one that reaches up to it, and the last one if
none does. -/
theorem Tree.Routes.scan_eq (hr : Routes cut q leaf) :
    ((q.fill leaf).leaves.find? fun b => b.columns.reaches cut) = some leaf ∨
      ((q.fill leaf).leaves.find? fun b => b.columns.reaches cut) = none ∧ q.right = [] := by
  -- All leaves to the left of the path are below the key, so the scan passes over them.
  have hleft : (q.left.find? fun b => b.columns.reaches cut) = none := by
    rw [List.find?_eq_none]
    intro b hb
    rw [reaches_of_lt fun entry hentry => hr.left entry (List.mem_flatMap.2 ⟨b, hb, hentry⟩)]
    exact Bool.false_ne_true
  rw [Path.leaves_fill, List.append_assoc, List.find?_append, hleft, Option.none_or]
  cases hreaches : leaf.columns.reaches cut with
  | true =>
    left
    exact List.find?_cons_of_pos hreaches
  | false =>
    right
    -- The leaf is below the key as well, so it has been taken for want of another one.
    rcases hr.reaches with hnil | ⟨k, hk, hne⟩
    · refine ⟨?_, hnil⟩
      rw [hnil, List.append_nil, Block.leaves_zero]
      simp [hreaches]
    · have hkeys : leaf.columns.maxKey? = some k := hk
      rw [Columns.reaches, hkeys, Option.any_some] at hreaches
      simp [hne] at hreaches

end Leaf

namespace Tree

variable {tree : Tree K V} {layout : Layout K V} {cut : Cut K}

/-- The descent for a key ends at the leaf that a scan of the chain finds. -/
theorem findLeaf_eq_scan [Ord K] [Std.TransOrd K] (ha : cut.Agrees) (hc : tree.Carries layout)
    {leaves : List (Handle × Leaf K V)}
    (hleaves : leaves.map (fun place => (place.1, place.2.toColumns)) =
      layout.leaves.map fun b => (b.handle, b.columns)) :
    ∃ last, tree.lastLeaf = .ok last ∧
      tree.findLeaf cut = .ok ((scan cut leaves).getD last) := by
  obtain ⟨q, leaf, hq, hroutes, hfind⟩ :=
    findLeaf_eq ha hc.shows hc.populated hc.sound.exact hc.sound.ascending
  obtain ⟨q', leaf', hq', hright, hlast⟩ := lastLeaf_eq hc.shows hc.populated
  refine ⟨leaf'.handle, hlast, ?_⟩
  rw [hfind, scan_eq hleaves, ← hq]
  rcases hroutes.scan_eq with hfirst | ⟨hnone, hnil⟩
  · rw [hfirst]
    rfl
  · -- Both the leaf found and the last one are the end of the list of leaves.
    have hsame : leaf = leaf' := by
      have hboth : (q.fill leaf).leaves = (q'.fill leaf').leaves := by rw [hq, hq']
      rw [Path.leaves_fill, Path.leaves_fill, hnil, hright] at hboth
      simpa using congrArg List.getLast? hboth
    rw [hnone, hsame]
    rfl

/-! ## The place of a key -/

/-- Each leaf among the cells of a subtree is one of its leaves. -/
theorem exists_mem_leaves_of_mem_cells {b : Subtree K V n} {parent : Option Handle} {h : Handle}
    {leaf : Leaf K V} (hcell : (h, Node.leaf leaf) ∈ b.cells parent) :
    ∃ c ∈ b.leaves, c.handle = h ∧ leaf.toColumns = c.columns := by
  induction n generalizing parent with
  | zero =>
    -- At the bottom there is a single cell, and it is the leaf itself.
    rw [Block.cells_leaf, Multiset.mem_singleton] at hcell
    obtain ⟨rfl, hnode⟩ := Prod.mk.inj hcell
    obtain rfl := Node.leaf.inj hnode
    exact ⟨b, List.mem_singleton_self _, rfl, rfl⟩
  | succ n ih =>
    -- The topmost block is a branch, so the cell belongs to one of the children.
    rw [Block.cells_succ, Multiset.mem_cons, mem_cellsEach] at hcell
    rcases hcell with htop | ⟨slot, hslot, hmem⟩
    · exact absurd (Prod.mk.inj htop).2 (by simp [Block.node])
    · obtain ⟨c, hc, hhandle, hcolumns⟩ := ih hmem
      exact ⟨c, List.mem_flatMap.2 ⟨slot, hslot, hc⟩, hhandle, hcolumns⟩

variable {h : Handle} {i : Nat}

/-- Where a key stands is read off the leaves of the layout. -/
theorem standsAt_iff [Ord K] (hc : tree.Carries layout) : StandsAt cut tree h i ↔
    ∃ b ∈ layout.leaves, b.handle = h ∧ ∃ k, b.columns.keys[i]? = some k ∧ cut k = .eq := by
  constructor
  · rintro ⟨leaf, k, hget, hk, heq⟩
    have hcell : (h, Node.leaf leaf) ∈ layout.cells :=
      (hc.shows.holds.get?_iff h _).1 (getLeaf_eq_ok_iff.1 hget)
    obtain ⟨b, hb, hhandle, hcolumns⟩ := exists_mem_leaves_of_mem_cells hcell
    exact ⟨b, hb, hhandle, k, hcolumns ▸ hk, heq⟩
  · rintro ⟨b, hb, rfl, k, hk, heq⟩
    obtain ⟨parent, hget⟩ := hc.getLeaf_of_mem hb
    exact ⟨b.toLeaf parent, k, hget, hk, heq⟩

section Place

variable {q : Path K V 0} {leaf : Block K V} {lower equal upper : List (K × V)} {pair : K × V}
  {probe : Probe}

/-- The entry at which a key lands stands where the descent has ended. -/
theorem Lands.standsAt (hl : Lands cut tree layout q leaf lower [pair] upper probe) :
    StandsAt cut tree leaf.handle lower.length := by
  have hsame : cut pair.1 = .eq := hl.divides.same pair (List.mem_singleton_self _)
  refine ⟨leaf.toLeaf q.parent, pair.1, hl.getLeaf, ?_, hsame⟩
  simp [Block.toLeaf, hl.pairs]

/-- A key stands nowhere but where it lands. -/
theorem Lands.eq_of_standsAt [Ord K] (hc : tree.Carries layout)
    (hl : Lands cut tree layout q leaf lower equal upper probe) (hstands : StandsAt cut tree h i) :
    ∃ pair, equal = [pair] ∧ h = leaf.handle ∧ i = lower.length := by
  obtain ⟨b, hb, rfl, k, hk, heq⟩ := (standsAt_iff hc).1 hstands
  obtain ⟨entry, hentry, rfl⟩ : ∃ entry, b.pairs[i]? = some entry ∧ entry.1 = k := by
    simpa [Block.columns] using hk
  have hin : entry ∈ b.pairs := List.mem_of_getElem? hentry
  -- Leaves to the left of the place are below the key, and those to the right above.
  have hleft : b ∉ q.left := by
    intro hside
    have hlt := hl.divides.below entry
      (List.mem_append_left _ (List.mem_flatMap.2 ⟨b, hside, hin⟩))
    exact absurd (hlt.symm.trans heq) (by decide)
  have hright : b ∉ q.right := by
    intro hside
    have hgt := hl.divides.above entry
      (List.mem_append_right _ (List.mem_flatMap.2 ⟨b, hside, hin⟩))
    exact absurd (hgt.symm.trans heq) (by decide)
  obtain rfl : b = leaf := by
    rw [← hl.fill, Path.leaves_fill, Block.leaves_zero] at hb
    simpa [hleft, hright] using hb
  rw [hl.pairs] at hentry
  obtain ⟨pair, hequal, hposition⟩ := hl.divides.inner.position hentry heq
  exact ⟨pair, hequal, rfl, hposition⟩

/-- A lookup finds the one place where a key stands, and nothing only if it stands nowhere. -/
theorem locate_eq_some_iff [Ord K] [Std.TransOrd K] (ha : cut.Agrees) (hc : tree.Carries layout) :
    ∃ found, tree.locate cut = .ok found ∧
      ∀ h i, found = some (h, i) ↔ StandsAt cut tree h i := by
  -- The key is at one place if it lands on an entry, and at none if it lands between two.
  rcases lands ha hc with ⟨q, leaf, lower, pair, upper, hl⟩ | ⟨q, leaf, lower, upper, hl⟩
  · refine ⟨some (leaf.handle, lower.length), hl.locate_eq, fun h i => ⟨?_, fun hstands => ?_⟩⟩
    · intro hsame
      obtain ⟨rfl, rfl⟩ := Prod.mk.inj (Option.some.inj hsame)
      exact hl.standsAt
    · obtain ⟨-, -, rfl, rfl⟩ := hl.eq_of_standsAt hc hstands
      rfl
  · refine ⟨none, hl.locate_eq, fun h i => ⟨fun hsame => ?_, fun hstands => ?_⟩⟩
    · exact absurd hsame (Option.some_ne_none _).symm
    · obtain ⟨pair, hempty, -, -⟩ := hl.eq_of_standsAt hc hstands
      exact absurd hempty (List.cons_ne_nil _ _).symm

end Place

/-- A key stands in some leaf if a leaf of the chain holds it. -/
theorem exists_standsAt_iff [Ord K] (hc : tree.Carries layout) {leaves : List (Handle × Leaf K V)}
    (hleaves : leaves.map (fun place => (place.1, place.2.toColumns)) =
      layout.leaves.map fun b => (b.handle, b.columns)) :
    (∃ h i, StandsAt cut tree h i) ↔ ∃ place ∈ leaves, ∃ k ∈ place.2.keys, cut k = .eq := by
  -- The contents of the chain are those of the leaves, whatever the links and parents are.
  have hcontents : leaves.map (fun place => place.2.toColumns) =
      layout.leaves.map Block.columns := by
    have hsnd := congrArg (List.map Prod.snd) hleaves
    rw [List.map_map, List.map_map] at hsnd
    exact hsnd
  have hblocks : (∃ place ∈ leaves, ∃ k ∈ place.2.keys, cut k = .eq) ↔
      ∃ b ∈ layout.leaves, ∃ k ∈ b.columns.keys, cut k = .eq := by
    have hany : (∃ columns ∈ leaves.map (fun place => place.2.toColumns),
        ∃ k ∈ columns.keys, cut k = .eq) ↔
          ∃ columns ∈ layout.leaves.map Block.columns, ∃ k ∈ columns.keys, cut k = .eq := by
      rw [hcontents]
    simpa only [List.mem_map, exists_exists_and_eq_and] using hany
  rw [hblocks]
  constructor
  · rintro ⟨h, i, hstands⟩
    obtain ⟨b, hb, -, k, hk, heq⟩ := (standsAt_iff hc).1 hstands
    exact ⟨b, hb, k, List.mem_of_getElem? hk, heq⟩
  · rintro ⟨b, hb, k, hk, heq⟩
    obtain ⟨i, hi⟩ := List.mem_iff_getElem?.1 hk
    exact ⟨b.handle, i, (standsAt_iff hc).2 ⟨b, hb, rfl, k, hi, heq⟩⟩

end Tree

/-! ## Every reachable tree -/

/-- Lookups agree with scans in every reachable tree.  For every fanout, every run of operations
from the empty tree and every key, the descent ends at the first leaf of the chain whose last key is
not below the key, or at the last leaf if there is none; and a search finds the only place where an
entry has the key, or nothing if no leaf of the chain holds one. -/
theorem run_scans [Ord K] [Std.TransOrd K] (fanout : Fanout) (operations : List (Operation K V))
    (key : SearchKey K) :
    ∃ answers session leaves last found,
      (Session.start fanout).run operations = .ok (answers, session) ∧
      session.tree.leaves = .ok leaves ∧ session.tree.lastLeaf = .ok last ∧
      session.tree.findLeaf key.cut = .ok ((scan key.cut leaves).getD last) ∧
      session.tree.locate key.cut = .ok found ∧
      (∀ h i, found = some (h, i) ↔ session.tree.StandsAt key.cut h i) ∧
      (found = none ↔ ∀ place ∈ leaves, ∀ k ∈ place.2.keys, key.cut k ≠ .eq) := by
  obtain ⟨session, layout, hrun, hs, -⟩ :=
    Session.run_eq (Session.start_carries fanout) operations
  have hc : session.tree.Carries layout := hs.tree
  obtain ⟨leaves, hleaves, hcontents⟩ := hc.leaves_eq
  obtain ⟨last, hlast, hfind⟩ := Tree.findLeaf_eq_scan key.agrees hc hcontents
  obtain ⟨found, hlocate, hplace⟩ := Tree.locate_eq_some_iff key.agrees hc
  refine ⟨_, session, leaves, last, found, hrun, hleaves, hlast, hfind, hlocate, hplace, ?_⟩
  -- The only place is the one found, so none is found exactly if there is no place.
  have hnone : found = none ↔ ¬ ∃ h i, session.tree.StandsAt key.cut h i := by
    simp [Option.eq_none_iff_forall_ne_some, ← hplace]
  rw [hnone, Tree.exists_standsAt_iff hc hcontents]
  simp

/-- A key between two leaves belongs to the second one, and is not found there. -/
theorem run_scans_between :
    ∃ (session : Session Nat Nat) (leaves : List (Handle × Leaf Nat Nat)),
      session.tree.leaves = .ok leaves ∧
      leaves.map (fun place => (place.1, place.2.keys)) = [(⟨0⟩, [10, 20]), (⟨1⟩, [30, 40])] ∧
      scan (.of 25) leaves = some ⟨1⟩ ∧ session.tree.findLeaf (.of 25) = .ok ⟨1⟩ ∧
      session.tree.locate (.of 25) = .ok none := by
  obtain ⟨answers, session, leaves, last, found, hrun, hleaves, -, hfind, hlocate, -, hnone⟩ :=
    run_scans .standard (insertTens 4) (.of 25)
  -- The chain is evaluated; what the descent and the lookup find in it comes from the theorem.
  have hchain : ((Session.start .standard).run (insertTens 4)).bind (fun r => r.2.tree.leaves) =
      .ok [(⟨0⟩, ⟨⟨[10, 20], [1, 2]⟩, some ⟨1⟩, some ⟨2⟩⟩),
        (⟨1⟩, ⟨⟨[30, 40], [3, 4]⟩, none, some ⟨2⟩⟩)] := by decide +kernel
  rw [hrun] at hchain
  obtain rfl := Except.ok.inj (hleaves.symm.trans hchain)
  obtain rfl : found = none := hnone.2 (by decide)
  exact ⟨session, _, hleaves, rfl, rfl, hfind, hlocate⟩

end OrderedIndex
