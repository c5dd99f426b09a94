import OrderedIndex.Proofs.Operations

/-!
# Refreshes that change nothing

Nodes that get or give children in the course of a climb have their cached maxima rewritten at once:
both halves of a divided branch, the two branches between which a child is passed, a branch that has
absorbed another, and what stands above the last of the new children.  But such a node moves the
cached keys of its children along with them, and the keys were exact: those above the edited leaf
have been refreshed before the climb starts, and each step of the climb leaves exact keys to the
next one.  So wherever such a node is refreshed, each key that is written stands there already.

The updates have these refreshes as an argument.  Besides carrying them out as they are written, one
can skip them, or check that they write nothing but the keys that stand there.  Updates with either
of these go through the same states as an ordered index does.  All other refreshes stay: the one
behind the edit of a leaf, those of a parent whose children have been borrowed from or merged.
-/

namespace OrderedIndex

variable {K V : Type}

namespace Refreshes

/-! ## Refreshes that are skipped or checked -/

/-- No refreshes at all. -/
def skipped : Refreshes K V := ⟨fun nodes _ => .ok nodes, fun nodes _ => .ok nodes⟩

section Checked

variable [DecidableEq K] (fault : Fault)

/-- Rewrites all cached maxima of one branch, with a fault where a key is not the one that stands
there. -/
def checkMaxima (nodes : Arena (Node K V)) (h : Handle) : Except Fault (Arena (Node K V)) := do
  let branch ← Tree.getBranch nodes h
  let keys ← branch.children.mapM (Tree.maxKey .emptyChild nodes)
  if keys = branch.keys then Tree.refreshMaxima nodes h else .error fault

/-- Rewrites the cached maximum of a node in its parent and goes on as long as it is the parent's
own maximum, with a fault where a key is not the one that stands there. -/
def checkUpward : Nat → Arena (Node K V) → Handle → Except Fault (Arena (Node K V))
  | 0, _, _ => .error .endlessLinks
  | levels + 1, nodes, child => do
    match (← nodes.get child).parent with
    | none => return nodes
    | some parent =>
      let largest ← Tree.maxKey .emptyNode nodes child
      let branch ← Tree.getBranch nodes parent
      let i ← branch.positionOf child
      if branch.keys[i]? = some largest then
        let branch ← branch.setKey i largest
        let nodes := nodes.put parent (.branch branch)
        if i + 1 = branch.childCount then checkUpward levels nodes parent else return nodes
      else .error fault

/-- The refreshes as they are written, with the given fault where one changes a key. -/
def checked : Refreshes K V :=
  ⟨checkMaxima fault, fun nodes child => checkUpward fault nodes.slotCount nodes child⟩

end Checked

/-- Does some operations in their order, with refreshes of this kind. -/
def run [Ord K] (calls : Refreshes K V) (session : Session K V)
    (operations : List (Operation K V)) : Except Fault (List (Answer K V) × Session K V) :=
  session.run operations calls

/-! ## Idle refreshes -/

/-- Refreshes that leave the nodes as they are where all keys are up to date, whatever they do
elsewhere. -/
structure Idle (calls : Refreshes K V) : Prop where
  maxima {nodes : Arena (Node K V)} {h : Handle} (hup : Tree.UpToDate nodes h) :
    calls.maxima nodes h = .ok nodes
  above {nodes : Arena (Node K V)} {child : Handle}
    (hup : Tree.UpToDateAbove nodes nodes.slotCount child) : calls.above nodes child = .ok nodes

theorem written_idle : (written : Refreshes K V).Idle :=
  ⟨Tree.refreshMaxima_of_upToDate, Tree.refreshAbove_of_upToDate⟩

theorem skipped_idle : (skipped : Refreshes K V).Idle := ⟨fun _ => rfl, fun _ => rfl⟩

section Checked

variable [DecidableEq K] {fault : Fault} {nodes nodes' : Arena (Node K V)} {h : Handle}

/-- A checked refresh of a branch answers where its keys are up to date, and changes nothing. -/
theorem checkMaxima_eq_ok_iff :
    checkMaxima fault nodes h = .ok nodes' ↔ Tree.UpToDate nodes h ∧ nodes' = nodes := by
  constructor
  · intro hcheck
    obtain ⟨branch, hbranch, hcheck⟩ := bind_eq_ok_iff.1 hcheck
    obtain ⟨keys, hkeys, hcheck⟩ := bind_eq_ok_iff.1 hcheck
    split at hcheck
    · next hsame =>
      have hup : Tree.UpToDate nodes h := ⟨branch, hbranch, hsame ▸ hkeys⟩
      rw [Tree.refreshMaxima_of_upToDate hup] at hcheck
      exact ⟨hup, (Except.ok.inj hcheck).symm⟩
    · cases hcheck
  · rintro ⟨⟨branch, hbranch, hkeys⟩, rfl⟩
    have hrefresh := Tree.refreshMaxima_of_upToDate ⟨branch, hbranch, hkeys⟩
    unfold checkMaxima
    rw [hbranch, ok_bind, hkeys, ok_bind, if_pos rfl, hrefresh]

private theorem upToDateAbove_of_checkUpward {levels : Nat}
    (hcheck : checkUpward fault levels nodes h = .ok nodes') :
    Tree.UpToDateAbove nodes levels h ∧ nodes' = nodes := by
  -- By induction on the bound: a check that passes writes a key where it stands, so the next step
  -- is made in the same nodes.
  induction levels generalizing h with
  | zero => cases hcheck
  | succ levels ih =>
    obtain ⟨node, hnode, hcheck⟩ := bind_eq_ok_iff.1 hcheck
    cases hparent : node.parent with
    | none =>
      rw [hparent] at hcheck
      exact ⟨⟨node, hnode, by simp [hparent]⟩, (pure_eq_ok_iff.1 hcheck).symm⟩
    | some parent =>
      rw [hparent] at hcheck
      obtain ⟨k, hk, hcheck⟩ := bind_eq_ok_iff.1 hcheck
      obtain ⟨branch, hbranch, hcheck⟩ := bind_eq_ok_iff.1 hcheck
      obtain ⟨i, hi, hcheck⟩ := bind_eq_ok_iff.1 hcheck
      split at hcheck
      · next hkey =>
        rw [Tree.setKey_self hkey, ok_bind,
          Arena.put_of_get? (Tree.getBranch_eq_ok_iff.1 hbranch)] at hcheck
        -- The climb goes on only where the key stands in the last slot.
        have hgoes : (i + 1 = branch.childCount → Tree.UpToDateAbove nodes levels parent) ∧
            nodes' = nodes := by
          split at hcheck
          · obtain ⟨hup, hsame⟩ := ih hcheck
            exact ⟨fun _ => hup, hsame⟩
          · next hlisted =>
            exact ⟨fun hlast => absurd hlast hlisted, (pure_eq_ok_iff.1 hcheck).symm⟩
        obtain ⟨hlast, hsame⟩ := hgoes
        refine ⟨⟨node, hnode, fun parent' hparent' => ?_⟩, hsame⟩
        obtain rfl : parent = parent' := Option.some.inj (hparent.symm.trans hparent')
        exact ⟨k, branch, i, hk, hbranch, hi, hkey, hlast⟩
      · cases hcheck

private theorem checkUpward_of_upToDate {levels : Nat} (hup : Tree.UpToDateAbove nodes levels h) :
    checkUpward fault levels nodes h = .ok nodes := by
  induction levels generalizing h with
  | zero => exact hup.elim
  | succ levels ih =>
    obtain ⟨node, hnode, habove⟩ := hup
    unfold checkUpward
    rw [hnode, ok_bind]
    cases hparent : node.parent with
    | none => rfl
    | some parent =>
      obtain ⟨k, branch, i, hk, hbranch, hi, hkey, hlast⟩ := habove parent hparent
      simp only [hk, hbranch, hi, ok_bind, pure_eq_ok, if_pos hkey, Tree.setKey_self hkey,
        Arena.put_of_get? (Tree.getBranch_eq_ok_iff.1 hbranch)]
      split
      · next hlisted => exact ih (hlast hlisted)
      · rfl

/-- A checked refresh above a node answers where the keys there are up to date, and changes
nothing. -/
theorem checkUpward_eq_ok_iff {levels : Nat} : checkUpward fault levels nodes h = .ok nodes' ↔
    Tree.UpToDateAbove nodes levels h ∧ nodes' = nodes := by
  constructor
  · exact upToDateAbove_of_checkUpward
  · rintro ⟨hup, rfl⟩
    exact checkUpward_of_upToDate hup

theorem checked_idle : (checked fault : Refreshes K V).Idle where
  maxima hup := checkMaxima_eq_ok_iff.2 ⟨hup, rfl⟩
  above hup := checkUpward_eq_ok_iff.2 ⟨hup, rfl⟩

end Checked

section Climbs

variable {calls : Refreshes K V} {n : Nat} {nodes : Arena (Node K V)}
  {rest : Multiset (Handle × Node K V)} {parent : Option Handle} {side : Side} {tree : Tree K V}
  {p : Path K V n} {t : Subtree K V n}

/-! ## Overfull nodes -/

/-- Both halves of a divided branch are up to date. -/
theorem splitNode_eq (hcalls : calls.Idle) (hs : nodes.Holds (t.cells parent + rest))
    (he : t.Exact) : Tree.splitNode nodes t.handle calls = Tree.splitNode nodes t.handle := by
  unfold Tree.splitNode
  rw [hs.get_of_mem (Block.mem_cells_add t rest), ok_bind]
  cases n with
  | zero => rfl
  | succ n =>
    -- The children bring their keys along, so each half has those that a refresh would write.
    obtain ⟨right, nodes₁, nodes₂, -, halloc, hadopt, -, hleft, hright⟩ :=
      Tree.adopt_upper hs he
    simp only [Block.node, Tree.split_toBranch t right, halloc, hadopt, ok_bind,
      hcalls.maxima hleft, hcalls.maxima hright, written_idle.maxima hleft,
      written_idle.maxima hright]

/-- The climb from an overfull node refreshes exact keys only. -/
theorem splitUpward_eq (hcalls : calls.Idle) (hs : tree.Shows (p.fill t))
    (ho : Overfull tree.fanout p t) (levels : Nat) :
    Tree.splitUpward levels tree t.handle calls = Tree.splitUpward levels tree t.handle := by
  -- By induction on the bound: the keys are exact for each step, as the one before has left them
  -- so.
  induction levels generalizing n tree with
  | zero => rfl
  | succ levels ih =>
    have hcells : (p.fill t).cells = t.cells p.parent + p.cells t.handle := by
      rw [Path.cells_fill, add_comm]
    have hsame : Tree.splitNode tree.nodes t.handle calls = Tree.splitNode tree.nodes t.handle := by
      apply splitNode_eq hcalls
      · exact hs.holds.of_eq hcells
      · exact ((p.exact_fill t).1 ho.exact).2
    obtain ⟨right, nodes₁, k₁, k, -, hsplit, hget, hs₁, hk₁, hupper, hk⟩ :=
      Tree.splitNode_overfull hs ho
    unfold Tree.splitUpward
    simp only [hsame, hsplit, ok_bind, hget, Block.parent_node]
    cases p with
    | top => rfl
    | step f above =>
      obtain rfl : k = f.key := Option.some.inj (hk.symm.trans ho.maxKey?_eq)
      obtain ⟨nodes₂, hlist, hs₂⟩ := Tree.listSibling_eq hs.holds hs₁ hk₁ hupper
      have hgetParent : nodes₂.get f.handle =
          .ok (Block.node (n := n + 1) above.parent (f.fill (t.halves right k₁ f.key))) :=
        hs₂.get_of_mem (Path.mem_cells_fill above _)
      simp only [Path.parent_step, hlist, ok_bind, hgetParent, Block.keyCount_node]
      split
      · -- The parent has room, and the last of its new children is no larger than the node was.
        have hup := Tree.upToDateAbove_halves hs₂ ((ho.rearranges hk₁ hk).exact ho.exact) hupper
        rw [hcalls.above hup, written_idle.above hup]
      · next hroom =>
        have hfull := Nat.lt_of_not_le hroom
        have hs' : ({ tree with nodes := nodes₂ } : Tree K V).Shows
            (above.fill (f.fill (t.halves right k₁ f.key))) := hs.fill rfl hs₂
        have hclimb := ih hs' (ho.next hk₁ hk hfull)
        rw [Frame.handle_fill] at hclimb
        rw [hclimb]

theorem resolveOverflow_eq (hcalls : calls.Idle) (hs : tree.Shows (p.fill t))
    (ho : Overfull tree.fanout p t) :
    tree.resolveOverflow t.handle calls = tree.resolveOverflow t.handle :=
  splitUpward_eq hcalls hs ho _

/-! ## Short nodes -/

/-- Both siblings between which a child is passed are up to date. -/
theorem pass_eq {lender node : Subtree K V n} {pair : K × Beside K V n}
    {pairs : List (K × Beside K V n)} (hcalls : calls.Idle)
    (hs : nodes.Holds (lender.cells parent + node.cells parent + rest))
    (hpairs : lender.pairs = side.opposite.cons pair pairs) (hlender : lender.Exact)
    (hnode : node.Exact) :
    Tree.pass nodes side node.handle lender.handle calls =
      Tree.pass nodes side node.handle lender.handle := by
  unfold Tree.pass
  rw [hs.get_of_mem (Multiset.mem_add.2 (.inl (Block.mem_cells_add lender _))), ok_bind]
  cases n with
  | zero => rfl
  | succ n =>
    obtain ⟨nodes₁, nodes₂, hmodify, hset, -, hleft, hright⟩ :=
      Tree.receive_child hs hpairs hlender hnode
    simp only [Block.node, Tree.lend?_toBranch hpairs, orFault, ok_bind, hmodify, hset,
      hcalls.maxima hleft, hcalls.maxima hright, written_idle.maxima hleft,
      written_idle.maxima hright]

/-- A branch that has absorbed another is up to date. -/
theorem absorb_eq {l r : Subtree K V n} (hcalls : calls.Idle)
    (hs : nodes.Holds (r.below + (l.cells parent + rest))) (hl : l.Exact) (hr : r.Exact)
    (parent' : Option Handle) : Tree.absorb nodes l.handle (r.node parent') calls =
      Tree.absorb nodes l.handle (r.node parent') := by
  cases n with
  | zero => rfl
  | succ n =>
    obtain ⟨nodes₁, nodes₂, hadopt, hmodify, -, hup⟩ := Tree.adopt_right hs hl hr parent'
    unfold Tree.absorb
    simp only [Block.node, hadopt, ok_bind, hmodify, hcalls.maxima hup, written_idle.maxima hup]

section Siblings

variable {f : Frame K (Subtree K V n)} {above : Path K V (n + 1)}

theorem borrow_eq {slot : K × Subtree K V n} {pair : K × Beside K V n}
    {pairs : List (K × Beside K V n)} (hcalls : calls.Idle)
    (hs : nodes.Holds (above.fill (f.fill (side.both slot (f.key, t)))).cells)
    (he : Block.Exact (n := n + 1) (f.fill (side.both slot (f.key, t))))
    (hpairs : slot.2.pairs = side.opposite.cons pair pairs) :
    Tree.borrow nodes side t.handle slot.2.handle f.handle calls =
      Tree.borrow nodes side t.handle slot.2.handle f.handle := by
  obtain ⟨hboth, -⟩ := f.exact_fill.1 he
  rw [Path.cells_fill_slots, cellsEach_both] at hs
  have hpass : Tree.pass nodes side t.handle slot.2.handle calls =
      Tree.pass nodes side t.handle slot.2.handle := by
    apply pass_eq hcalls hs hpairs
    · exact (hboth slot (by simp)).2
    · exact (hboth (f.key, t) (by simp)).2
  unfold Tree.borrow
  rw [hpass]

theorem mergeNodes_eq {l r : K × Subtree K V n} (hcalls : calls.Idle)
    (hs : nodes.Holds (above.fill (f.fill [l, r])).cells)
    (he : Block.Exact (n := n + 1) (f.fill [l, r])) :
    Tree.mergeNodes nodes l.2.handle r.2.handle f.handle calls =
      Tree.mergeNodes nodes l.2.handle r.2.handle f.handle := by
  obtain ⟨hboth, -⟩ := f.exact_fill.1 he
  obtain ⟨nodes₁, htake, hs₁⟩ := Tree.take_second hs
  have habsorb : Tree.absorb nodes₁ l.2.handle (r.2.node (some f.handle)) calls =
      Tree.absorb nodes₁ l.2.handle (r.2.node (some f.handle)) := by
    apply absorb_eq hcalls hs₁
    · exact (hboth l (by simp)).2
    · exact (hboth r (by simp)).2
  unfold Tree.mergeNodes
  simp only [htake, ok_bind, habsorb]

end Siblings

section Step

variable {g : Frame K (Subtree K V n)} {above : Path K V (n + 1)} {slot : K × Subtree K V n}

/-- The parent of a short node is exact, and so are the siblings between which a pair is passed. -/
private theorem borrow_of_short (hcalls : calls.Idle)
    (hs : tree.Shows ((Path.step (g.widen slot side) above).fill t))
    (hshort : Short tree.fanout (.step (g.widen slot side) above) t)
    (hspare : tree.fanout.min < slot.2.count) :
    Tree.borrow tree.nodes side t.handle slot.2.handle g.handle calls =
      Tree.borrow tree.nodes side t.handle slot.2.handle g.handle := by
  have hne : slot.2.pairs ≠ [] := List.ne_nil_of_length_pos (Nat.zero_lt_of_lt hspare)
  obtain ⟨pair, pairs, hpairs⟩ := side.opposite.exists_cons hne
  have hs₁ := hs.holds
  rw [Path.fill, Frame.plug_widen] at hs₁
  exact borrow_eq hcalls hs₁ hshort.exact_parent hpairs

private theorem merge_of_short {l r : K × Subtree K V n} (hcalls : calls.Idle)
    (hs : tree.Shows ((Path.step (g.widen slot side) above).fill t))
    (hshort : Short tree.fanout (.step (g.widen slot side) above) t)
    (hlr : side.both slot (g.key, t) = [l, r]) :
    Tree.mergeNodes tree.nodes l.2.handle r.2.handle g.handle calls =
      Tree.mergeNodes tree.nodes l.2.handle r.2.handle g.handle := by
  have hs₁ := hs.holds
  rw [Path.fill, Frame.plug_widen, hlr] at hs₁
  have hexact := hshort.exact_parent
  rw [hlr] at hexact
  exact mergeNodes_eq hcalls hs₁ hexact

end Step

/-- The climb from a short node refreshes exact keys only, but for those of the parents whose
children it borrows from or merges. -/
theorem mergeUpward_eq (hcalls : calls.Idle) (hs : tree.Shows (p.fill t))
    (hshort : Short tree.fanout p t) (levels : Nat) :
    Tree.mergeUpward levels tree t.handle calls = Tree.mergeUpward levels tree t.handle := by
  -- By induction on the bound; the climb goes on after a merge only.
  induction levels generalizing n tree with
  | zero => rfl
  | succ levels ih =>
    unfold Tree.mergeUpward
    cases p with
    | top => simp only [Tree.siblings_root hs.holds, ok_bind]
    | step f above =>
      have hget := hs.holds.get_of_mem (Path.mem_cells_fill (.step f above) t)
      simp only [Tree.siblings_eq hs.holds, hget, ok_bind, Block.keyCount_node]
      split
      · rfl
      · next hmin =>
        rcases Tree.lender?_eq hs.holds with
          ⟨side, slot, g, rfl, hspare, -, hlender⟩ | ⟨hnone, hlender⟩
        · have hparent : (Tree.siblingsIn (g.widen slot side)).parent = g.handle :=
            Frame.handle_widen
          simp only [hlender, ok_bind, hparent, borrow_of_short hcalls hs hshort hspare]
        · obtain ⟨side, slot, g, l, r, rfl, -, hlr, hpair⟩ :=
            Tree.merged_siblingsIn hshort.two_le_count t
          obtain ⟨nodes₁, hmerged, hs₁⟩ := Tree.merge_shows hs hshort hlr
          have hfew : slot.2.count ≤ tree.fanout.min := hnone side slot (by simp)
          -- Below, the merge has left exact keys to the parent, which may be short now.
          have hclimb := ih hs₁ (hshort.next (Nat.lt_of_not_le hmin) hfew hlr)
          have hparent : (Tree.siblingsIn (g.widen slot side)).parent = g.handle :=
            Frame.handle_widen
          rw [Frame.handle_fill] at hclimb
          simp only [hlender, ok_bind, Tree.mergeWithSibling_of_merged hpair, hparent,
            merge_of_short hcalls hs hshort hlr, hmerged, hclimb]

theorem resolveUnderflow_eq (hcalls : calls.Idle) (hs : tree.Shows (p.fill t))
    (hshort : Short tree.fanout p t) :
    tree.resolveUnderflow t.handle calls = tree.resolveUnderflow t.handle :=
  mergeUpward_eq hcalls hs hshort _

end Climbs

/-! ## Updates -/

section Updates

variable [Ord K] [Std.TransOrd K] {calls : Refreshes K V} {tree : Tree K V} {layout : Layout K V}

/-- An insertion refreshes the keys above its leaf before it divides the leaf. -/
theorem insert_eq (hcalls : calls.Idle) (hc : tree.Carries layout) (k : K) (v : V) :
    tree.insert k v calls = tree.insert k v := by
  unfold Tree.insert
  rcases Tree.lands (Cut.agrees_of k) hc with
    ⟨q, leaf, lower, pair, upper, hl⟩ | ⟨q, leaf, lower, upper, hl⟩
  · -- A present key is written over, without a refresh that could differ.
    simp only [hl.findLeaf, hl.getLeaf, ok_bind, hl.search]
  · have hfill := hl.fill
    subst hfill
    obtain ⟨nodes, q', hrefresh, he, -⟩ := Tree.stage_insert hc hl v
    have hcount : (leaf.withPairs (lower ++ [(k, v)] ++ upper)).count =
        (lower ++ [(k, v)] ++ upper).length := rfl
    simp only [hl.findLeaf, hl.getLeaf, ok_bind, hl.search, insert_toLeaf hl.pairs,
      Block.keyCount_toLeaf, hcount, hrefresh]
    split
    · next hfull =>
      -- The leaf was within its bounds before, so it is too large by the new entry only.
      have hmax : leaf.count ≤ tree.fanout.max :=
        ((q.filled_fill leaf).1 hc.sound.filled).2.1.le_max
      have hover : Overfull tree.fanout q' (leaf.withPairs (lower ++ [(k, v)] ++ upper)) := by
        apply he.overfull hc
        rw [hl.length_insert] at hfull ⊢
        omega
      have hclimb := resolveOverflow_eq hcalls (he.shows hc) hover
      rw [Block.handle_withPairs] at hclimb
      rw [hclimb]
    · rfl

/-- A removal refreshes the keys above its leaf before it mends the leaf. -/
theorem remove_eq {cut : Cut K} (hcalls : calls.Idle) (ha : cut.Agrees) (hc : tree.Carries layout) :
    tree.remove cut calls = tree.remove cut := by
  unfold Tree.remove
  rcases Tree.lands ha hc with ⟨q, leaf, lower, pair, upper, hl⟩ | ⟨q, leaf, lower, upper, hl⟩
  · have hfill := hl.fill
    subst hfill
    obtain ⟨nodes, q', size, hsize, hrefresh, he, -⟩ := Tree.stage_remove hc hl
    have hcount : (leaf.withPairs (lower ++ upper)).count = (lower ++ upper).length := rfl
    have hshort : Short tree.fanout q' (leaf.withPairs (lower ++ upper)) :=
      he.short hc hl.length_succ
    have hclimb := resolveUnderflow_eq hcalls (he.shows hc) hshort
    rw [Block.handle_withPairs] at hclimb
    simp only [hl.findLeaf, hl.getLeaf, ok_bind, hl.search, remove_toLeaf hl.pairs,
      Block.keyCount_toLeaf, Tree.sizeWithoutOne, hsize, hcount, hrefresh, hclimb]
  · simp only [hl.findLeaf, hl.getLeaf, ok_bind, hl.search]

theorem insertMany_eq (hcalls : calls.Idle) (hc : tree.Carries layout) (entries : List (K × V)) :
    tree.insertMany entries calls = tree.insertMany entries := by
  induction entries generalizing tree layout with
  | nil => rfl
  | cons entry entries ih =>
    obtain ⟨k, v⟩ := entry
    obtain ⟨one, layout₁, hone, -, hadvances, -⟩ := Tree.insert_eq hc k v
    unfold Tree.insertMany
    simp only [insert_eq hcalls hc, hone, ok_bind, ih hadvances.carries]

variable {fanout : Fanout} {session : Session K V}

theorem perform_eq (hcalls : calls.Idle) (hs : session.Carries fanout layout)
    (operation : Operation K V) : session.perform operation calls = session.perform operation := by
  have hc : session.tree.Carries layout := hs.tree
  cases operation with
  | insert k v => simp only [Session.perform, insert_eq hcalls hc]
  | extend entries => simp only [Session.perform, Tree.extend, insertMany_eq hcalls hc]
  | remove key => simp only [Session.perform, remove_eq hcalls key.agrees hc]
  -- All other operations make no climb.
  | _ => rfl

/-- With idle refreshes, operations in their order are those of an ordered index. -/
theorem run_eq (hcalls : calls.Idle) (hs : session.Carries fanout layout)
    (operations : List (Operation K V)) :
    calls.run session operations = session.run operations := by
  unfold run
  -- What an operation leaves carries a layout again, from which the next one starts.
  induction operations generalizing session layout with
  | nil => rfl
  | cons operation operations ih =>
    obtain ⟨session₁, layout₁, hperform, hs₁, -⟩ := Session.perform_eq hs operation
    unfold Session.run
    simp only [perform_eq hcalls hs, hperform, ok_bind, ih hs₁]

end Updates

end Refreshes

/-! ## Runs -/

/-- Moved caches are exact already.  For every fanout and every run of operations, each refresh of a
node that has got or given children in the course of a climb writes only keys that stand there: the
run answers the same, with the same nodes and events, whether such a refresh faults where it would
change a key or is skipped. -/
theorem run_spares [Ord K] [Std.TransOrd K] [DecidableEq K] (fanout : Fanout)
    (operations : List (Operation K V)) :
    ∃ answers session, (Session.start fanout).run operations = .ok (answers, session) ∧
      (∀ fault, (Refreshes.checked fault).run (.start fanout) operations =
        .ok (answers, session)) ∧
      Refreshes.skipped.run (.start fanout) operations = .ok (answers, session) := by
  obtain ⟨session, layout, hrun, -, -⟩ :=
    Session.run_eq (Session.start_carries fanout) operations
  have hsame {calls : Refreshes K V} (hcalls : calls.Idle) :=
    (Refreshes.run_eq hcalls (Session.start_carries fanout) operations).trans hrun
  exact ⟨_, session, hrun, fun _ => hsame Refreshes.checked_idle, hsame Refreshes.skipped_idle⟩

/-- The fourth division is that of a branch, which later borrows a child and then is merged. -/
theorem run_spares_moved :
    ∃ (answers : List (Answer Nat Nat)) (session : Session Nat Nat),
      (Session.start .standard).run growThenShrink = .ok (answers, session) ∧
      (∀ fault, (Refreshes.checked fault).run (.start .standard) growThenShrink =
        .ok (answers, session)) ∧
      Refreshes.skipped.run (.start .standard) growThenShrink = .ok (answers, session) ∧
      session.journal.drop 4 =
        [.split ⟨2⟩ ⟨5⟩ false 2 2, .promoted ⟨6⟩ 3, .split ⟨4⟩ ⟨7⟩ true 2 2, .merged ⟨0⟩ ⟨1⟩ 3,
          .borrowed .right ⟨2⟩ ⟨5⟩ 2, .merged ⟨0⟩ ⟨3⟩ 3, .merged ⟨2⟩ ⟨5⟩ 3, .collapsed ⟨2⟩ 2] := by
  obtain ⟨answers, session, hrun, hchecked, hskipped⟩ :=
    run_spares .standard growThenShrink
  have hjournal : ((Session.start .standard).run growThenShrink).map
      (fun result => result.2.journal.drop 4) =
        .ok [.split ⟨2⟩ ⟨5⟩ false 2 2, .promoted ⟨6⟩ 3, .split ⟨4⟩ ⟨7⟩ true 2 2, .merged ⟨0⟩ ⟨1⟩ 3,
          .borrowed .right ⟨2⟩ ⟨5⟩ 2, .merged ⟨0⟩ ⟨3⟩ 3, .merged ⟨2⟩ ⟨5⟩ 3, .collapsed ⟨2⟩ 2] := by
    decide +kernel
  rw [hrun] at hjournal
  exact ⟨answers, session, hrun, hchecked, hskipped, Except.ok.inj hjournal⟩

end OrderedIndex
