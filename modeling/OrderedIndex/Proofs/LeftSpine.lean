import OrderedIndex.Proofs.Operations
import OrderedIndex.Proofs.Trails

/-!
# The left spine

The first leaf of a tree, and above it the first node on each level, never change.  A division
leaves the lower half of a node in its slot, a merge releases the second of two siblings, and a
lender or a node that is merged keeps its first pair, so no climb puts another node in front.  A new
root is added on top of the spine, and a root that gives way is taken from there.  As the first leaf
of an empty tree stands in slot 0, it stands there for good.
-/

namespace OrderedIndex

variable {K V : Type} {n : Nat}

/-! ## The climbs -/

/-- The lower half of an overfull node has the first child of the whole. -/
theorem Overfull.spine_halves {fanout : Fanout} {p : Path K V n} {t : Subtree K V n}
    (ho : Overfull fanout p t) (right : Handle) (k₁ k : K) :
    spineEach .left (t.halves right k₁ k) = t.spine .left := by
  have htwo := ho.two_le
  have hfirst : (t.lower right).pairs.head? = t.pairs.head? := by
    have hpos : t.count / 2 ≠ 0 := by omega
    simp [Block.lower, List.head?_take, hpos]
  exact Block.spine_eq rfl hfirst

/-- Dividing overfull nodes leaves the left spine as it is, but may add a root. -/
theorem Splits.spine_left {fanout : Fanout} {p : Path K V n} {t : Subtree K V n}
    {layout : Layout K V} {events : List Event} (hsplits : Splits fanout p t layout events)
    (ho : Overfull fanout p t) : (p.fill t).root.spine .left <+: layout.root.spine .left := by
  have hstep {n : Nat} {f : Frame K (Subtree K V n)} {rest : Path K V (n + 1)} {t : Subtree K V n}
      {right : Handle} {k₁ : K} (ho : Overfull fanout (.step f rest) t) :
      (rest.fill (f.fill (t.halves right k₁ f.key))).root.spine .left =
        ((Path.step f rest).fill t).root.spine .left := by
    rw [Path.fill, ← Frame.fill_singleton]
    apply rest.spine_fill_slots
    · exact List.cons_ne_nil _ _
    · exact List.cons_ne_nil _ _
    · rw [ho.spine_halves, spineEach_singleton]
  induction hsplits with
  | @root n t right root k₁ k hright hroot hk₁ hk =>
    show t.spine .left <+: Block.spine .left (n := n + 1) ⟨root, none, t.halves right k₁ k⟩
    rw [Block.spine_succ, ho.spine_halves]
    exact List.prefix_append _ _
  | fits hright hk₁ hk hroom =>
    rw [hstep ho]
  | overflows hright hk₁ hk hfull hrest ih =>
    rw [← hstep ho]
    exact ih (ho.next hk₁ hk hfull)

namespace Short

variable {fanout : Fanout} {side : Side} {f : Frame K (Subtree K V n)} {rest : Path K V (n + 1)}
  {t : Subtree K V n} {slot : K × Subtree K V n}

/-- A short node is not empty. -/
theorem pairs_ne_nil (hs : Short fanout (.step f rest) t) : t.pairs ≠ [] := by
  have htwo := fanout.two_le_min
  have hnearly : fanout.min ≤ t.count + 1 := hs.tolerated
  apply List.ne_nil_of_length_pos
  show 0 < t.count
  omega

/-- Passing a pair leaves the first of two siblings and its first child in front. -/
theorem spine_borrows {pair : K × Beside K V n} {pairs : List (K × Beside K V n)} {k k' : K}
    (hs : Short fanout (.step (f.widen slot side) rest) t) (hspare : fanout.min < slot.2.count)
    (hpairs : slot.2.pairs = side.opposite.cons pair pairs) :
    spineEach .left (side.both (k', slot.2.withPairs pairs)
      (k, t.withPairs (side.cons pair t.pairs))) = spineEach .left (side.both slot (f.key, t)) := by
  cases side with
  | left =>
    -- The lender comes first, and lends its last pair but has more.
    have htwo := fanout.two_le_min
    have hcount : pairs.length + 1 = slot.2.count := by
      simp [Block.count, hpairs, Side.opposite]
    have hfirst : pairs.head? = slot.2.pairs.head? := by
      rw [hpairs, Side.opposite, Side.cons, List.head?_append_of_ne_nil]
      exact List.ne_nil_of_length_pos (by omega)
    exact Block.spine_eq rfl hfirst
  | right =>
    -- The short node comes first, and gets a pair behind those that it has.
    have hfirst : (t.pairs ++ [pair]).head? = t.pairs.head? :=
      List.head?_append_of_ne_nil _ hs.pairs_ne_nil
    exact Block.spine_eq rfl hfirst

/-- The node in which two siblings are merged has the first child of the first one. -/
theorem spine_merges {l r : K × Subtree K V n}
    (hs : Short fanout (.step (f.widen slot side) rest) t)
    (hlr : side.both slot (f.key, t) = [l, r]) :
    spineEach .left [(r.1, l.2.merge r.2)] = spineEach .left (side.both slot (f.key, t)) := by
  -- The first of the two siblings has a pair of its own, whichever of them is short.
  have hleft : l.2.pairs ≠ [] := by
    have htwo := fanout.two_le_min
    cases side with
    | left =>
      obtain ⟨rfl, rfl⟩ : slot = l ∧ (f.key, t) = r := by simpa [Side.both] using hlr
      have hmin := hs.filled_beside.1.1
      apply List.ne_nil_of_length_pos
      show 0 < slot.2.count
      omega
    | right =>
      obtain ⟨rfl, rfl⟩ : (f.key, t) = l ∧ slot = r := by simpa [Side.both] using hlr
      exact hs.pairs_ne_nil
  rw [hlr, spineEach_singleton]
  exact Block.spine_eq rfl (List.head?_append_of_ne_nil _ hleft)

end Short

/-- Mending short nodes leaves the left spine as it is, but may take the root away. -/
theorem Mends.spine_left {fanout : Fanout} {p : Path K V n} {t : Subtree K V n}
    {layout : Layout K V} {events : List Event} (hmends : Mends fanout p t layout events)
    (hs : Short fanout p t) : layout.root.spine .left <+: (p.fill t).root.spine .left := by
  have hne {n : Nat} {side : Side} {slot slot' : K × Subtree K V n} : side.both slot slot' ≠ [] :=
    List.ne_nil_of_length_pos (by rw [Side.length_both]; exact Nat.zero_lt_two)
  -- By induction on the climb: a merge hands it on to the parent, and only a root is taken away.
  induction hmends with
  | leaf => exact List.prefix_refl _
  | branch hmany => exact List.prefix_refl _
  | @collapses n handle next k c =>
    show c.spine .left <+: Block.spine .left (n := n + 1) ⟨handle, next, [(k, c)]⟩
    rw [Block.spine_succ, spineEach_singleton]
    exact List.prefix_append _ _
  | enough hmin => exact List.prefix_refl _
  | @borrows n side f rest t slot pair pairs k k' hshort hspare hfirst hpairs hk hk' =>
    rw [Path.fill, Frame.plug_widen, rest.spine_fill_slots hne hne (hs.spine_borrows hspare hpairs)]
  | @merges n side f rest t slot l r layout events hshort hfew hothers hfirst hlr hrest ih =>
    rw [Path.fill, Frame.plug_widen,
      ← rest.spine_fill_slots hne (List.cons_ne_nil _ _) (hs.spine_merges hlr)]
    exact ih (hs.next hshort hfew hlr)

/-! ## Updates -/

namespace Tree

variable [Ord K] [Std.TransOrd K] {tree : Tree K V} {layout : Layout K V} {cut : Cut K}

/-- An insertion leaves the left spine as it is, but may add a root. -/
theorem insert_spine (hc : tree.Carries layout) (k : K) (v : V) :
    ∃ outcome layout', tree.insert k v = .ok outcome ∧ outcome.tree.Carries layout' ∧
      layout.root.spine .left <+: layout'.root.spine .left := by
  rcases lands (Cut.agrees_of k) hc with
    ⟨q, leaf, lower, pair, upper, hl⟩ | ⟨q, leaf, lower, upper, hl⟩
  · have hfill := hl.fill
    subst hfill
    obtain ⟨outcome, q', hinsert, -, halike, hadvances, -⟩ := insert_of_present hc hl v
    refine ⟨outcome, _, hinsert, hadvances.carries, ?_⟩
    rw [halike.spine_edit]
  · have hfill := hl.fill
    subst hfill
    obtain ⟨outcome, q', layout', hinsert, -, halike, hadvances, -, hclimb⟩ :=
      insert_of_absent hc hl v
    refine ⟨outcome, layout', hinsert, hadvances.carries, ?_⟩
    rw [← halike.spine_edit leaf (lower ++ [(k, v)] ++ upper)]
    -- An edit of the leaf leaves the spine; the climb, if there is one, starts behind the edit.
    rcases hclimb with ⟨rfl, -⟩ | ⟨ho, hsplits⟩
    · exact List.prefix_refl _
    · exact hsplits.spine_left ho

theorem insertMany_spine (hc : tree.Carries layout) (entries : List (K × V)) :
    ∃ outcome layout', tree.insertMany entries = .ok outcome ∧ outcome.tree.Carries layout' ∧
      layout.root.spine .left <+: layout'.root.spine .left := by
  induction entries generalizing tree layout with
  | nil => exact ⟨⟨[], tree, []⟩, layout, rfl, hc, List.prefix_refl _⟩
  | cons entry entries ih =>
    obtain ⟨k, v⟩ := entry
    obtain ⟨one, layout₁, hone, hc₁, hspine₁⟩ := insert_spine hc k v
    obtain ⟨many, layout₂, hmany, hc₂, hspine₂⟩ := ih hc₁
    refine ⟨{ many with result := one.result :: many.result, events := one.events ++ many.events },
      layout₂, ?_, hc₂, hspine₁.trans hspine₂⟩
    unfold insertMany
    rw [hone, ok_bind, hmany]
    rfl

/-- A removal leaves the left spine as it is, but may take the root away. -/
theorem remove_spine (ha : cut.Agrees) (hc : tree.Carries layout) :
    ∃ outcome layout', tree.remove cut = .ok outcome ∧ outcome.tree.Carries layout' ∧
      layout'.root.spine .left <+: layout.root.spine .left := by
  rcases lands ha hc with ⟨q, leaf, lower, pair, upper, hl⟩ | ⟨q, leaf, lower, upper, hl⟩
  · have hfill := hl.fill
    subst hfill
    obtain ⟨outcome, q', layout', hremove, -, halike, hadvances, -, hshort, hmends⟩ :=
      remove_of_present hc hl
    refine ⟨outcome, layout', hremove, hadvances.carries, ?_⟩
    rw [← halike.spine_edit leaf (lower ++ upper)]
    exact hmends.spine_left hshort
  · exact ⟨_, layout, remove_of_absent hl, hc, List.prefix_refl _⟩

/-- A write under a key leaves the left spine as it is. -/
theorem replace?_spine (ha : cut.Agrees) (hc : tree.Carries layout) (v : V) :
    ∃ outcome layout', tree.replace? cut v = .ok outcome ∧ outcome.tree.Carries layout' ∧
      layout'.root.spine .left = layout.root.spine .left := by
  rcases lands ha hc with ⟨q, leaf, lower, pair, upper, hl⟩ | ⟨q, leaf, lower, upper, hl⟩
  · have hfill := hl.fill
    subst hfill
    obtain ⟨outcome, q', hreplace, -, halike, hadvances, -⟩ := replace?_of_present hc hl v
    exact ⟨outcome, _, hreplace, hadvances.carries, halike.spine_edit leaf _⟩
  · exact ⟨_, layout, replace?_of_absent hl v, hc, rfl⟩

end Tree

/-! ## Runs -/

namespace Session

variable [Ord K] [Std.TransOrd K] {session session' : Session K V} {layout : Layout K V}
  {answer : Answer K V}

/-- An operation other than a clear leaves the left spine as it is, but may add nodes on top or take
some away there. -/
theorem perform_spine {operation : Operation K V} (hc : session.tree.Carries layout)
    (hkept : operation ≠ .clear) (hperform : session.perform operation = .ok (answer, session')) :
    ∃ layout', session'.tree.Carries layout' ∧
      (layout.root.spine .left <+: layout'.root.spine .left ∨
        layout'.root.spine .left <+: layout.root.spine .left) := by
  -- An update is followed on layouts, and a question leaves the tree as it is.
  cases operation with
  | insert k v =>
    obtain ⟨outcome, layout', hinsert, hc', hspine⟩ := Tree.insert_spine hc k v
    rw [perform, hinsert, ok_bind] at hperform
    obtain ⟨-, rfl⟩ := Prod.mk.inj (pure_eq_ok_iff.1 hperform)
    exact ⟨layout', hc', .inl hspine⟩
  | extend entries =>
    obtain ⟨outcome, layout', hmany, hc', hspine⟩ := Tree.insertMany_spine hc entries
    rw [perform, Tree.extend, hmany, ok_bind] at hperform
    obtain ⟨-, rfl⟩ := Prod.mk.inj (pure_eq_ok_iff.1 hperform)
    exact ⟨layout', hc', .inl hspine⟩
  | remove key =>
    obtain ⟨outcome, layout', hremove, hc', hspine⟩ := Tree.remove_spine key.agrees hc
    rw [perform, hremove, ok_bind] at hperform
    obtain ⟨-, rfl⟩ := Prod.mk.inj (pure_eq_ok_iff.1 hperform)
    exact ⟨layout', hc', .inr hspine⟩
  | modify key v =>
    obtain ⟨⟨result, tree', events⟩, layout', hreplace, hc', hspine⟩ :=
      Tree.replace?_spine key.agrees hc v
    obtain ⟨outcome, hmodify, hanswer⟩ := bind_eq_ok_iff.1 hperform
    obtain ⟨-, rfl⟩ := Prod.mk.inj (pure_eq_ok_iff.1 hanswer)
    rw [Tree.modify, hreplace, ok_bind] at hmodify
    refine ⟨layout', ?_, .inl (hspine ▸ List.prefix_refl _)⟩
    cases result with
    | none => exact Except.ok.inj hmodify ▸ hc'
    | some old => exact Except.ok.inj hmodify ▸ hc'
  | write key v =>
    obtain ⟨outcome, layout', hreplace, hc', hspine⟩ := Tree.replace?_spine key.agrees hc v
    rw [perform, hreplace, ok_bind] at hperform
    obtain ⟨-, rfl⟩ := Prod.mk.inj (pure_eq_ok_iff.1 hperform)
    exact ⟨layout', hc', .inl (hspine ▸ List.prefix_refl _)⟩
  | clear => exact absurd rfl hkept
  | search | contains | first | last | items =>
    obtain ⟨_, -, hanswer⟩ := bind_eq_ok_iff.1 hperform
    obtain ⟨-, rfl⟩ := Prod.mk.inj (pure_eq_ok_iff.1 hanswer)
    exact ⟨layout, hc, .inl (List.prefix_refl _)⟩
  | length | isEmpty =>
    obtain ⟨-, rfl⟩ := Prod.mk.inj (pure_eq_ok_iff.1 hperform)
    exact ⟨layout, hc, .inl (List.prefix_refl _)⟩

/-- Every operation keeps the node at the foot of the left spine where it starts in slot 0: a clear
starts again with a leaf there. -/
theorem perform_foot {operation : Operation K V} (hc : session.tree.Carries layout)
    (hfoot : (layout.root.spine .left).head? = some ⟨0⟩)
    (hperform : session.perform operation = .ok (answer, session')) :
    ∃ layout', session'.tree.Carries layout' ∧
      (layout'.root.spine .left).head? = some ⟨0⟩ := by
  by_cases hclear : operation = .clear
  · subst hclear
    obtain ⟨-, rfl⟩ := Prod.mk.inj (pure_eq_ok_iff.1 hperform)
    exact ⟨.initial, Tree.empty_carries session.tree.fanout, rfl⟩
  · obtain ⟨layout', hc', hspine⟩ := perform_spine hc hclear hperform
    refine ⟨layout', hc', ?_⟩
    -- Neither spine is empty, so one can only be a prefix of the other if both have the same foot.
    obtain ⟨above, hbefore⟩ := List.head?_eq_some_iff.1 hfoot
    obtain ⟨foot, above', hafter⟩ := List.exists_cons_of_ne_nil
      (Block.spine_ne_nil layout'.root)
    rw [hbefore, hafter] at hspine
    rcases hspine with hone | hone
    · rw [hafter, (List.cons_prefix_cons.1 hone).1]
      rfl
    · rw [hafter, ← (List.cons_prefix_cons.1 hone).1]
      rfl

theorem run_foot {operations : List (Operation K V)} {answers : List (Answer K V)}
    (hc : session.tree.Carries layout) (hfoot : (layout.root.spine .left).head? = some ⟨0⟩)
    (hrun : session.run operations = .ok (answers, session')) :
    ∃ layout', session'.tree.Carries layout' ∧
      (layout'.root.spine .left).head? = some ⟨0⟩ := by
  -- By induction on the operations, each of which leaves slot 0 at the foot.
  induction operations generalizing session layout answers with
  | nil =>
    obtain ⟨-, rfl⟩ := Prod.mk.inj (Except.ok.inj hrun)
    exact ⟨layout, hc, hfoot⟩
  | cons operation operations ih =>
    obtain ⟨⟨answer, session₁⟩, hperform, hothers⟩ := bind_eq_ok_iff.1 hrun
    obtain ⟨⟨answers₁, session₂⟩, hrun₁, hlast⟩ := bind_eq_ok_iff.1 hothers
    obtain ⟨-, rfl⟩ := Prod.mk.inj (pure_eq_ok_iff.1 hlast)
    obtain ⟨layout₁, hc₁, hfoot₁⟩ := perform_foot hc hfoot hperform
    exact ih hc₁ hfoot₁ hrun₁

end Session

/-- Of two lists of which one is the beginning of the other, elements at one position are equal. -/
private theorem eq_of_prefix_or {α : Type} {xs ys : List α} {i : Nat} {x y : α}
    (hone : xs <+: ys ∨ ys <+: xs) (hx : xs[i]? = some x) (hy : ys[i]? = some y) : x = y := by
  rcases hone with ⟨rest, rfl⟩ | ⟨rest, rfl⟩
  · rw [List.getElem?_append_left (List.getElem?_eq_some_iff.1 hx).1, hx] at hy
    exact Option.some.inj hy
  · rw [List.getElem?_append_left (List.getElem?_eq_some_iff.1 hy).1, hy] at hx
    exact (Option.some.inj hx).symm

/-- The left spine is stable.  For every fanout and every run of operations, the first leaf is the
one in slot 0, which is in use.  Any further operation other than a clear leaves the first node of
each level, counted from the leaves, where there is such a level before and after it. -/
theorem run_keeps_left_spine [Ord K] [Std.TransOrd K] (fanout : Fanout)
    (operations : List (Operation K V)) :
    ∃ answers session before leaf, (Session.start fanout).run operations = .ok (answers, session) ∧
      session.tree.spine .left = .ok before ∧ session.tree.height = .ok before.length ∧
      session.tree.firstLeaf = .ok ⟨0⟩ ∧ session.tree.nodes.get? ⟨0⟩ = some (.leaf leaf) ∧
      ∀ operation, operation ≠ .clear →
        ∃ answer session' after, session.perform operation = .ok (answer, session') ∧
          session'.tree.spine .left = .ok after ∧ session'.tree.height = .ok after.length ∧
          ∀ (level : Nat) (h h' : Handle),
            before[level]? = some h → after[level]? = some h' → h = h' := by
  obtain ⟨session, layout, hrun, hs, -⟩ :=
    Session.run_eq (Session.start_carries fanout) operations
  have hc : session.tree.Carries layout := hs.tree
  -- The spine of the layout starts in slot 0, and one layout has just one spine.
  have hfoot : ∃ above, session.tree.spine .left = .ok (⟨0⟩ :: above) := by
    obtain ⟨layout₁, hc₁, hfoot⟩ :=
      Session.run_foot (Session.start_carries fanout).tree rfl hrun
    obtain ⟨above, habove⟩ := List.head?_eq_some_iff.1 hfoot
    exact ⟨above, habove ▸ hc₁.spine_eq .left⟩
  obtain ⟨above, hspine⟩ := hfoot
  obtain ⟨hfirst, hheight⟩ := Tree.firstLeaf_of_spine hspine
  obtain ⟨q, leaf, hq, -, hleaf⟩ := Tree.firstLeaf_eq hc.shows hc.populated
  have hzero : leaf.handle = ⟨0⟩ := Except.ok.inj (hleaf.symm.trans hfirst)
  refine ⟨_, session, ⟨0⟩ :: above, leaf.toLeaf q.parent, hrun, hspine, hheight, hfirst, ?_, ?_⟩
  · rw [← hzero]
    exact Tree.getLeaf_eq_ok_iff.1 (hc.getLeaf hq)
  · intro operation hkept
    obtain ⟨session', -, hperform, -⟩ := Session.perform_eq hs operation
    obtain ⟨layout', hc', hone⟩ := Session.perform_spine hc hkept hperform
    obtain ⟨foot, above', hafter⟩ := List.exists_cons_of_ne_nil
      (Block.spine_ne_nil layout'.root)
    have hspine' := hc'.spine_eq .left
    -- Both spines are read off layouts, where the one is the beginning of the other.
    rw [hafter] at hspine'
    refine ⟨_, session', foot :: above', hperform, hspine',
      (Tree.firstLeaf_of_spine hspine').2, ?_⟩
    intro level h h' hh hh'
    rw [Except.ok.inj ((hc.spine_eq .left).symm.trans hspine), hafter] at hone
    exact eq_of_prefix_or hone hh hh'

/-- With three keys to a node, four insertions make a tree of two levels.  A removal merges its two
leaves and takes the root away; the leaf that is left is the first one. -/
theorem run_keeps_left_spine_merged :
    ∃ session session' : Session Nat Nat,
      session.tree.spine .left = .ok [⟨0⟩, ⟨2⟩] ∧ session.tree.firstLeaf = .ok ⟨0⟩ ∧
      (∃ answer, session.perform (.remove (.of 10)) = .ok (answer, session')) ∧
      session'.tree.height = .ok 1 ∧ session'.tree.spine .left = .ok [⟨0⟩] := by
  obtain ⟨answers, session, before, leaf, hrun, hbefore, -, hfirst, -, hkept⟩ :=
    run_keeps_left_spine .standard (insertTens 4)
  have hne : (.remove (.of 10) : Operation Nat Nat) ≠ .clear := nofun
  obtain ⟨answer, session', after, hperform, hafter, hheight, hsame⟩ := hkept _ hne
  -- The spine before and the height afterwards are evaluated; the spine afterwards follows.
  have hspine : ((Session.start .standard).run (insertTens 4)).bind (fun r => do
      let (_, session') ← r.2.perform (.remove (.of 10))
      return (← r.2.tree.spine .left, ← session'.tree.height)) =
      .ok ([⟨0⟩, ⟨2⟩], 1) := by decide +kernel
  rw [hrun] at hspine
  have hvalues : (.ok (before, after.length) : Except Fault (List Handle × Nat)) =
      .ok ([⟨0⟩, ⟨2⟩], 1) := by
    rw [← hspine]
    show _ = session.perform (.remove (.of 10)) >>= _
    simp only [hperform, ok_bind, hbefore, hheight, pure_eq_ok]
  obtain ⟨rfl, hlength⟩ : before = [⟨0⟩, ⟨2⟩] ∧ after.length = 1 := by simpa using hvalues
  obtain ⟨h, rfl⟩ := List.length_eq_one_iff.1 hlength
  obtain rfl : ⟨0⟩ = h := hsame 0 _ _ rfl rfl
  exact ⟨session, session', hbefore, hfirst, ⟨answer, hperform⟩, hheight, hafter⟩

end OrderedIndex
