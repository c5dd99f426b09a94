import OrderedIndex.Proofs.Occupancy
import OrderedIndex.Proofs.Scans

/-!
# When the root is a leaf

A tree that fits into one node need not consist of one.  Two leaves are merged only if one of them
is short, so they stay apart as long as each has the smallest number of keys.  If the largest number
of keys in a node is odd, two smallest leaves hold more than one node can, and every tree that fits
into a node is a leaf.  If it is even, they hold exactly as many, and there is one exception.
-/

namespace OrderedIndex

variable {K V : Type} {n : Nat} {fanout : Fanout}

/-! ## Two leaves -/

namespace Block

theorem leaves_one (b : Subtree K V 1) : b.leaves = b.pairs.map Prod.snd := by
  rw [leaves_succ, leavesEach]
  exact List.flatMap_pure_eq_map _ _

theorem card_handles_one (b : Subtree K V 1) : b.handles.card = b.count + 1 := by
  have heach : ∀ slots : List (K × Subtree K V 0), (handlesEach slots).card = slots.length := by
    intro slots
    induction slots with
    | nil => rfl
    | cons slot slots ih =>
      rw [handlesEach_cons, Multiset.card_add, ih, List.length_cons, Nat.add_comm]
      rfl
  rw [handles_succ, Multiset.card_cons, heach]
  rfl

/-- If there are more entries than some number for each leaf, then one leaf has more. -/
theorem exists_lt_count (b : Subtree K V n) {m : Nat}
    (hmany : b.leaves.length * m < b.entries.length) : ∃ leaf ∈ b.leaves, m < leaf.count := by
  apply List.exists_lt_of_sum_lt (fun _ => m) count
  rw [List.map_const', List.sum_replicate, smul_eq_mul]
  rwa [entries, entriesOf, List.length_flatMap] at hmany

end Block

namespace Tree.Carries

variable [Ord K] {tree : Tree K V} {layout : Layout K V}

/-- A tree of several nodes with no more entries than two smallest leaves and one has two leaves. -/
theorem two_leaves (hc : tree.Carries layout) (hlevels : layout.levels ≠ 0)
    (hfew : tree.size ≤ 2 * tree.fanout.min + 1) :
    layout.levels = 1 ∧ layout.root.leaves.length = 2 ∧ tree.nodeCount = 3 := by
  -- Each level multiplies the entries by the smallest number, so a second level of branches would
  -- need more of them than there are.
  have htwo := tree.fanout.two_le_min
  have hpow := hc.two_mul_pow_le hlevels
  have hone : layout.levels = 1 := by
    by_contra hne
    have hsquare : tree.fanout.min ^ 2 ≤ tree.fanout.min ^ layout.levels :=
      Nat.pow_le_pow_right (by omega) (by omega)
    rw [Nat.pow_two] at hsquare
    have htwice := Nat.mul_le_mul_right tree.fanout.min htwo
    omega
  have hsize : tree.size = layout.root.entries.length := hc.size
  have hcount := hc.nodeCount_eq
  have hfilled := hc.sound.filled
  obtain ⟨levels, root⟩ := layout
  obtain rfl : levels = 1 := hone
  have hroot : 2 ≤ root.count := hfilled.two_le hlevels
  have hentries : root.count * tree.fanout.min ^ 1 ≤ root.entries.length := hfilled.below.mul_pow_le
  -- Three leaves would hold more.
  have hleaves : root.count = 2 := by
    by_contra hne
    have hthree := Nat.mul_le_mul_right tree.fanout.min (show 3 ≤ root.count by omega)
    rw [Nat.pow_one, ← hsize] at hentries
    omega
  refine ⟨rfl, ?_, ?_⟩
  · rw [Block.leaves_one, List.length_map]
    exact hleaves
  · rw [hcount]
    exact (Block.card_handles_one root).trans (congrArg (· + 1) hleaves)

end Tree.Carries

/-! ## A removal without a climb -/

/-- Where enough pairs are left, nothing is mended. -/
theorem Mends.eq_of_le {q : Path K V 0} {leaf : Block K V} {layout : Layout K V}
    {events : List Event} (hm : Mends fanout q leaf layout events)
    (hmin : fanout.min ≤ leaf.count) : layout = q.fill leaf ∧ events = [] := by
  cases hm with
  | leaf => exact ⟨rfl, rfl⟩
  | enough => exact ⟨rfl, rfl⟩
  -- The other cases start from a node that is short.
  | borrows hshort => exact absurd hmin (Nat.not_le_of_lt hshort)
  | merges hshort => exact absurd hmin (Nat.not_le_of_lt hshort)

namespace Tree

variable [Ord K] {tree : Tree K V} {layout : Layout K V} {cut : Cut K} {q : Path K V 0}
  {leaf b : Block K V} {lower upper : List (K × V)} {pair : K × V}

/-- A removal from a leaf with more than the fewest entries keeps the height. -/
theorem remove_of_spare (hc : tree.Carries layout)
    (hl : Lands cut tree layout q leaf lower [pair] upper (.found lower.length))
    (hspare : tree.fanout.min < leaf.count) :
    ∃ (outcome : Outcome K V (Except KeyError V)) (layout' : Layout K V),
      tree.remove cut = .ok outcome ∧ outcome.tree.fanout = tree.fanout ∧
      outcome.tree.Carries layout' ∧ layout'.levels = layout.levels ∧
      outcome.tree.size + 1 = tree.size := by
  have hfill := hl.fill
  subst hfill
  obtain ⟨outcome, q', layout', hremove, -, halike, hadvances, hentries, -, hmends⟩ :=
    remove_of_present hc hl
  have hleft := hl.length_succ
  -- The leaf had one entry to spare, so it still has enough of them.
  have hmin : tree.fanout.min ≤ (leaf.withPairs (lower ++ upper)).count := by
    rw [← hleft] at hspare
    exact Nat.le_of_lt_succ hspare
  obtain ⟨hlayout, -⟩ := hmends.eq_of_le hmin
  refine ⟨outcome, layout', hremove, hadvances.fanout, hadvances.carries, ?_, ?_⟩
  · rw [hlayout, Path.levels_fill, Path.levels_fill, halike.length]
  · rw [hadvances.carries.size, hc.size, hentries, hl.entries, Reference.erase_of_mem hl.divides]
    simp
    omega

/-- A stored key lands in its leaf. -/
theorem lands_of_mem [Std.TransOrd K] (hc : tree.Carries layout) (hb : b ∈ layout.leaves)
    (hpair : pair ∈ b.pairs) :
    ∃ q leaf lower pair' upper,
      Lands (.of pair.1) tree layout q leaf lower [pair'] upper (.found lower.length) ∧
      leaf.count = b.count := by
  obtain ⟨i, hi⟩ := List.mem_iff_getElem?.1 hpair
  have hkey : b.columns.keys[i]? = some pair.1 := by simp [Block.columns, hi]
  have hstands : tree.StandsAt (.of pair.1) b.handle i :=
    (standsAt_iff hc).2 ⟨b, hb, rfl, pair.1, hkey, Std.ReflOrd.compare_self⟩
  rcases lands (Cut.agrees_of pair.1) hc with
    ⟨q, leaf, lower, pair', upper, hl⟩ | ⟨q, leaf, lower, upper, hl⟩
  · refine ⟨q, leaf, lower, pair', upper, hl, ?_⟩
    -- One handle names one leaf.
    obtain ⟨-, -, hhandle, -⟩ := hl.eq_of_standsAt hc hstands
    obtain ⟨parent, hget⟩ := hc.getLeaf_of_mem hb
    rw [hhandle, hl.getLeaf] at hget
    have hcount := congrArg (fun leaf : Leaf K V => leaf.keyCount) (Except.ok.inj hget)
    simpa using hcount
  · obtain ⟨pair', hempty, -, -⟩ := hl.eq_of_standsAt hc hstands
    exact absurd hempty (List.cons_ne_nil _ _).symm

end Tree

/-! ## Every reachable tree -/

/-- A tree that fits into one node is a single leaf, with one exception.  For every fanout and every
run of operations from the empty tree with no more entries than fit into a node, the root is a leaf
unless this number of entries is even and reached, and then there may be two leaves below a root.
For every even fanout this does happen: some key of every tree that has one entry more can be
removed to that effect. -/
theorem run_root_rule [Ord K] [Std.TransOrd K] (fanout : Fanout)
    (operations : List (Operation K V)) :
    ∃ answers session height, (Session.start fanout).run operations = .ok (answers, session) ∧
      session.tree.height = .ok height ∧
      (session.tree.size ≤ fanout.max →
        height = 1 ∧ session.tree.nodeCount = 1 ∨
        Even fanout.max ∧ session.tree.size = fanout.max ∧ height = 2 ∧
          session.tree.nodeCount = 3) ∧
      (Even fanout.max → session.tree.size = fanout.max + 1 →
        ∃ (key : K) (outcome : Outcome K V (Except KeyError V)),
          session.tree.remove (.of key) = .ok outcome ∧ outcome.tree.size = fanout.max ∧
          outcome.tree.height = .ok 2 ∧ outcome.tree.nodeCount = 3) := by
  obtain ⟨session, layout, hrun, hs, -⟩ :=
    Session.run_eq (Session.start_carries fanout) operations
  have hc : session.tree.Carries layout := hs.tree
  have hfanout : session.tree.fanout = fanout := hs.fanout_eq
  refine ⟨_, session, layout.levels + 1, hrun, Tree.height_eq hc.shows hc.populated, ?_, ?_⟩
  · -- A tree of one level has a single node; any other is one of two leaves below a root.
    intro hfew
    have hmax := fanout.max_le_two_mul_min
    by_cases hlevels : layout.levels = 0
    · left
      have hheight : layout.levels + 1 = 1 := congrArg (· + 1) hlevels
      exact ⟨hheight, hc.proportioned.single hheight⟩
    · right
      obtain ⟨hone, -, hnodes⟩ := hc.two_leaves hlevels (by rw [hfanout]; omega)
      have hleast := hc.two_mul_pow_le hlevels
      rw [hone, hfanout, Nat.pow_one] at hleast
      exact ⟨⟨fanout.min, by omega⟩, by omega, congrArg (· + 1) hone, hnodes⟩
  · rintro ⟨half, heven⟩ hsize
    have hmin : 2 * fanout.min = fanout.max := by
      unfold Fanout.min
      omega
    -- There are too many entries for one node, and too few for three leaves.
    have hlevels : layout.levels ≠ 0 := by
      intro hzero
      have hfits := hc.proportioned.size_le
      rw [hzero, hfanout, Nat.zero_add, Nat.pow_one] at hfits
      omega
    obtain ⟨hone, hleaves, -⟩ := hc.two_leaves hlevels (by rw [hfanout]; omega)
    have hentries : session.tree.size = layout.root.entries.length := hc.size
    -- Two smallest leaves do not hold all entries, so one of the two leaves has more than it needs.
    obtain ⟨b, hb, hspare⟩ := layout.root.exists_lt_count (m := fanout.min) (by
      rw [hleaves]
      omega)
    obtain ⟨pair, hpair⟩ := List.exists_mem_of_length_pos (Nat.zero_lt_of_lt hspare)
    obtain ⟨q, leaf, lower, pair', upper, hl, hcount⟩ := Tree.lands_of_mem hc hb hpair
    obtain ⟨outcome, layout', hremove, hsame, hc', hheight, hfewer⟩ :=
      Tree.remove_of_spare hc hl (by rw [hfanout, hcount]; exact hspare)
    rw [hone] at hheight
    obtain ⟨-, -, hnodes⟩ := hc'.two_leaves (by omega) (by rw [hsame, hfanout]; omega)
    refine ⟨pair.1, outcome, hremove, by omega, ?_, hnodes⟩
    rw [Tree.height_eq hc'.shows hc'.populated, hheight]

/-- With four keys to a node, a tree of five entries can be brought to two leaves by one removal. -/
theorem run_root_rule_five :
    ∃ (session : Session Nat Nat) (key : Nat) (outcome : Outcome Nat Nat (Except KeyError Nat)),
      session.tree.size = 5 ∧ session.tree.remove (.of key) = .ok outcome ∧
      outcome.tree.size = 4 ∧ outcome.tree.height = .ok 2 ∧ outcome.tree.nodeCount = 3 := by
  obtain ⟨answers, session, height, hrun, -, -, hexception⟩ :=
    run_root_rule ⟨4, by decide⟩ (insertTens 5)
  have hevaluated : ((Session.start ⟨4, by decide⟩).run (insertTens 5)).map
      (fun r => r.2.tree.size) = .ok 5 := by rfl
  rw [hrun] at hevaluated
  have hsize : session.tree.size = 5 := Except.ok.inj hevaluated
  obtain ⟨key, outcome, hremove, hfour, hheight, hnodes⟩ := hexception ⟨2, rfl⟩ hsize
  exact ⟨session, key, outcome, hsize, hremove, hfour, hheight, hnodes⟩

/-- With four keys to a node, four entries can stand in two leaves below a root, although one node
has room for them. -/
theorem run_root_rule_excepted :
    ∃ (answers : List (Answer Nat Nat)) (session : Session Nat Nat),
      (Session.start ⟨4, by decide⟩).run [.insert 1 1, .insert 2 2, .insert 3 3, .insert 4 4,
        .insert 5 5, .remove (.of 5)] = .ok (answers, session) ∧
      session.tree.size ≤ session.tree.fanout.max ∧
      ¬ (session.tree.height = .ok 1 ∧ session.tree.nodeCount = 1) := by
  refine ⟨_, _, rfl, by decide +kernel, ?_⟩
  rintro ⟨-, hnodes⟩
  -- Two leaves and the root above them.
  exact absurd hnodes (by decide +kernel)

end OrderedIndex
