import OrderedIndex.Proofs.Structure

/-!
# The cascade of an insertion

An insertion into a full leaf divides it, and gives its parent one child more; if that was full as
well, it is divided in turn, and so on.  This is the carry of a counter: the nodes that are divided
are the full ones in sequence from the leaf on upward, as they stand before the insertion, and a
carry out of the root adds a level.  The climb finds the parent of a node only after it has changed
nodes below, so what it sees is compared with the tree of before by the path that leads up from the
leaf.
-/

namespace OrderedIndex

variable {K V : Type} {n : Nat}

/-! ## Full nodes -/

namespace Tree

/-- The nodes with exactly `max` keys from a given one on up the parent links, until a node has
another number of keys or no parent.  The first argument bounds the number of levels. -/
def fullRun (nodes : Arena (Node K V)) (max : Nat) : Nat → Handle → Except Fault (List Handle)
  | 0, _ => .error .endlessLinks
  | levels + 1, h => do
    let node ← nodes.get h
    if node.keyCount = max then
      match node.parent with
      | none => return [h]
      | some parent => return h :: (← fullRun nodes max levels parent)
    else return []

/-- The full nodes from a given one on upward. -/
def fullAbove (tree : Tree K V) (h : Handle) : Except Fault (List Handle) :=
  fullRun tree.nodes tree.fanout.max tree.nodes.slotCount h

end Tree

/-- The nodes with exactly `max` keys at the start of a way. -/
def fullNodes (max : Nat) (rungs : List Rung) : List Handle :=
  (rungs.takeWhile fun rung => rung.keys == max).map Rung.node

namespace Path

variable {p : Path K V n} {max : Nat} {hole : Handle} {count : Nat}

theorem fullNodes_rungs_eq_nil_iff :
    fullNodes max (p.rungs hole count) = [] ↔ count ≠ max := by
  obtain ⟨rung, above, hrungs, -, hkeys⟩ := exists_rungs_eq_cons p hole count
  simp [hrungs, fullNodes, List.takeWhile_cons, hkeys]

theorem fullNodes_top : fullNodes max ((top : Path K V n).rungs hole max) = [hole] := by
  simp [fullNodes, rungs]

/-- Behind a full node the run goes on with its parent. -/
theorem fullNodes_step {f : Frame K (Subtree K V n)} {rest : Path K V (n + 1)} :
    fullNodes max ((step f rest).rungs hole max) =
      hole :: fullNodes max (rest.rungs f.handle f.count) := by
  simp [fullNodes, rungs, Frame.rung]

end Path

/-- Following the parent links from the end of a path passes the full nodes along it. -/
theorem Tree.fullRun_eq {nodes : Arena (Node K V)} {p : Path K V n} {b : Subtree K V n}
    (hs : nodes.Holds (p.fill b).cells) (max levels : Nat) (hlevels : p.length < levels) :
    fullRun nodes max levels b.handle = .ok (fullNodes max (p.rungs b.handle b.count)) := by
  -- The number of levels bounds the way up, and it is never used up before the root is passed.
  induction p generalizing levels with
  | top =>
    obtain ⟨levels, rfl⟩ := Nat.exists_eq_succ_of_ne_zero (Nat.ne_zero_of_lt hlevels)
    unfold fullRun
    rw [hs.get_of_mem (Path.mem_cells_fill _ b), ok_bind, Block.keyCount_node, Block.parent_node]
    by_cases hcount : b.count = max
    · rw [if_pos hcount, hcount, Path.fullNodes_top]
      rfl
    · rw [if_neg hcount, Path.fullNodes_rungs_eq_nil_iff.2 hcount]
      rfl
  | step f rest ih =>
    obtain ⟨levels, rfl⟩ := Nat.exists_eq_succ_of_ne_zero (Nat.ne_zero_of_lt hlevels)
    -- The plugged frame is the parent, and stands at the end of the rest of the path.
    have hparent : fullRun nodes max levels f.handle =
        .ok (fullNodes max (rest.rungs f.handle f.count)) := by
      have hrest := ih hs levels (Nat.lt_of_succ_lt_succ hlevels)
      rwa [Frame.handle_plug, Frame.count_plug] at hrest
    unfold fullRun
    rw [hs.get_of_mem (Path.mem_cells_fill _ b), ok_bind, Block.keyCount_node, Block.parent_node]
    by_cases hcount : b.count = max
    · rw [if_pos hcount, hcount, Path.fullNodes_step]
      show fullRun nodes max levels f.handle >>= _ = _
      rw [hparent]
      rfl
    · rw [if_neg hcount, Path.fullNodes_rungs_eq_nil_iff.2 hcount]
      rfl

/-! ## The events of a carry -/

/-- The events of dividing some full nodes into the given halves, from the bottom up.  Only the
first node can be a leaf. -/
def divisions (fanout : Fanout) : Bool → List (Handle × Handle) → List Event
  | _, [] => []
  | leaf, (left, right) :: halves =>
    .split left right leaf fanout.min (fanout.max + 1 - fanout.min) ::
      divisions fanout false halves

/-- The event of a new root, if the carry goes through all levels of a tree. -/
def promotion (root : Handle) (height divided : Nat) : List Event :=
  if divided = height then [.promoted root (height + 1)] else []

theorem exists_split_mem_iff {fanout : Fanout} {leaf : Bool} {halves : List (Handle × Handle)}
    {root : Handle} {height divided : Nat} :
    (∃ left right leaf' leftKeys rightKeys, Event.split left right leaf' leftKeys rightKeys ∈
      divisions fanout leaf halves ++ promotion root height divided) ↔ halves ≠ [] := by
  constructor
  · rintro ⟨left, right, leaf', leftKeys, rightKeys, hmem⟩ rfl
    simp [divisions, promotion] at hmem
  · intro hne
    obtain ⟨⟨left, right⟩, halves, rfl⟩ := List.exists_cons_of_ne_nil hne
    exact ⟨left, right, leaf, _, _, List.mem_append_left _ (List.mem_cons_self ..)⟩

/-- Each division gives the left half as many keys as a node needs. -/
theorem keys_of_split_mem {fanout : Fanout} {leaf : Bool} {halves : List (Handle × Handle)}
    {root : Handle} {height divided : Nat} {left right : Handle} {leaf' : Bool}
    {leftKeys rightKeys : Nat} (hmem : Event.split left right leaf' leftKeys rightKeys ∈
      divisions fanout leaf halves ++ promotion root height divided) :
    leftKeys = fanout.min ∧ rightKeys = fanout.max + 1 - fanout.min := by
  -- Each division has the numbers of the fanout, and a new root is no division.
  induction halves generalizing leaf with
  | nil => simp [divisions, promotion] at hmem
  | cons half halves ih =>
    rw [divisions, List.cons_append] at hmem
    rcases List.mem_cons.1 hmem with hfirst | hothers
    · obtain ⟨-, -, -, hleft, hright⟩ := Event.split.inj hfirst
      exact ⟨hleft, hright⟩
    · exact ih hothers

/-- The record of the division of an overfull block. -/
theorem Overfull.splitEvent_eq {fanout : Fanout} {p : Path K V n} {t : Subtree K V n}
    (ho : Overfull fanout p t) (right : Handle) : t.splitEvent right =
      .split t.handle right (n == 0) fanout.min (fanout.max + 1 - fanout.min) := by
  rw [Block.splitEvent, ho.count_lower, ho.count_upper]

/-- A climb divides the full nodes along its path, as they were when the topmost block of the
overfull subtree had one pair less. -/
theorem Splits.events_eq {fanout : Fanout} {p : Path K V n} {t : Subtree K V n}
    {layout : Layout K V} {events : List Event} (hsplits : Splits fanout p t layout events)
    (ho : Overfull fanout p t) :
    ∃ halves, halves.map Prod.fst = fullNodes fanout.max (p.rungs t.handle fanout.max) ∧
      events = divisions fanout (n == 0) halves ++
        promotion layout.root.handle (n + p.length + 1) (n + halves.length) := by
  induction hsplits with
  | @root n t right root k₁ k hright hroot hk₁ hk =>
    refine ⟨[(t.handle, right)], ?_, ?_⟩
    · rw [Path.fullNodes_top]
      rfl
    · have hall : promotion root (n + (Path.top : Path K V n).length + 1)
          (n + [(t.handle, right)].length) = [.promoted root (n + 2)] := if_pos rfl
      rw [ho.splitEvent_eq, hall]
      rfl
  | @fits n f rest t right k₁ hright hk₁ hk hroom =>
    -- The parent has room for the new child, so it was not full and the run ends there.
    rw [Block.count_fill_halves] at hroom
    have hcount : f.count ≠ fanout.max := Nat.ne_of_lt hroom
    refine ⟨[(t.handle, right)], ?_, ?_⟩
    · rw [Path.fullNodes_step, Path.fullNodes_rungs_eq_nil_iff.2 hcount]
      rfl
    · have hlength : n + 1 ≠ n + (Path.step f rest).length + 1 := by
        rw [Path.length]
        omega
      rw [ho.splitEvent_eq, promotion, List.length_singleton, if_neg hlength]
      rfl
  | @overflows n f rest t right k₁ layout events hright hk₁ hk hfull hrest ih =>
    -- The parent has one child too many now, so it was full; what is above has not changed.
    have hcount : f.count = fanout.max := by
      have hle := ho.le_max
      rw [Block.count_fill_halves] at hfull
      omega
    obtain ⟨halves, hrun, hevents⟩ := ih (ho.next hk₁ hk hfull)
    refine ⟨(t.handle, right) :: halves, ?_, ?_⟩
    · rw [Path.fullNodes_step, hcount, List.map_cons, hrun, Frame.handle_fill]
    · have hheight : n + (Path.step f rest).length + 1 = n + 1 + rest.length + 1 := by
        rw [Path.length]
        omega
      have hdivided : n + ((t.handle, right) :: halves).length = n + 1 + halves.length := by
        rw [List.length_cons]
        omega
      rw [ho.splitEvent_eq, hevents, hheight, hdivided]
      rfl

/-! ## Every reachable tree -/

section Insertion

variable [Ord K] [Std.TransOrd K] {tree : Tree K V} {k : K} {q : Path K V 0} {leaf : Block K V}
  {lower upper : List (K × V)}

/-- An insertion divides the full nodes from the leaf of the new key on upward. -/
theorem Tree.insert_divides (hc : tree.Carries (q.fill leaf))
    (hl : Lands (.of k) tree (q.fill leaf) q leaf lower [] upper (.absent lower.length)) (v : V) :
    ∃ outcome halves, tree.insert k v = .ok outcome ∧ outcome.result = none ∧
      halves.map Prod.fst = fullNodes tree.fanout.max (q.rungs leaf.handle leaf.count) ∧
      outcome.events = divisions tree.fanout true halves ++
        promotion outcome.tree.root (q.length + 1) halves.length := by
  have hle : leaf.count ≤ tree.fanout.max := ((q.filled_fill leaf).1 hc.sound.filled).2.1.le_max
  rcases Nat.lt_or_eq_of_le hle with hroom | hfull
  · -- A leaf with room takes the entry, and nothing is divided.
    obtain ⟨nodes, q', -, -, hinsert⟩ := insert_of_lands hc hl v
    rw [if_neg (Nat.not_lt_of_le hroom)] at hinsert
    refine ⟨_, [], hinsert, rfl, ?_, ?_⟩
    · rw [Path.fullNodes_rungs_eq_nil_iff.2 (Nat.ne_of_lt hroom)]
      rfl
    · rw [promotion, List.length_nil, if_neg (Nat.succ_ne_zero _).symm]
      rfl
  · obtain ⟨nodes, q', layout', events, nodes', root, hinsert, he, -, ho, hsplits,
      hshows⟩ := insert_of_full hc hl v hfull
    obtain ⟨halves, hrun, hevents⟩ := hsplits.events_eq ho
    -- The path has other cached keys than before the insertion, but the same nodes.
    rw [he.alike.rungs, Block.handle_withPairs, ← hfull] at hrun
    rw [he.alike.length, Nat.zero_add, Nat.zero_add, ← hshows.root] at hevents
    exact ⟨_, halves, hinsert, rfl, hfull ▸ hrun, hevents⟩

end Insertion

/-- The nodes that an insertion divides are known before it starts.  For every fanout, every run of
operations from the empty tree and every key that is absent then, they are the full nodes in
sequence from the leaf of the key on upward.  Each leaves one event, in this order, and a new root
leaves a last one, exactly if all levels have been divided; there are no other events. -/
theorem run_divides [Ord K] [Std.TransOrd K] (fanout : Fanout) (operations : List (Operation K V))
    (k : K) (v : V)
    (habsent : Reference.find? (.of k) (Reference.run [] operations).2 = none) :
    ∃ answers session target leaf run height outcome halves,
      (Session.start fanout).run operations = .ok (answers, session) ∧
      session.tree.findLeaf (.of k) = .ok target ∧
      Tree.getLeaf session.tree.nodes target = .ok leaf ∧
      session.tree.fullAbove target = .ok run ∧
      session.tree.height = .ok height ∧
      session.tree.insert k v = .ok outcome ∧ outcome.result = none ∧
      halves.map Prod.fst = run ∧
      outcome.events =
        divisions fanout true halves ++ promotion outcome.tree.root height run.length ∧
      ((∃ left right leaf' leftKeys rightKeys,
        Event.split left right leaf' leftKeys rightKeys ∈ outcome.events) ↔
          leaf.keyCount = fanout.max) := by
  obtain ⟨session, layout, hrun, hs, hentries⟩ :=
    Session.run_eq (Session.start_carries fanout) operations
  have hc : session.tree.Carries layout := hs.tree
  have hfanout : session.tree.fanout = fanout := hs.fanout_eq
  have hitems : layout.entries = (Reference.run [] operations).2 := hentries
  rcases Tree.lands (Cut.agrees_of k) hc with
    ⟨q, leaf, lower, pair, upper, hl⟩ | ⟨q, leaf, lower, upper, hl⟩
  · -- A key that lands at an entry is present.
    rw [← hitems, hl.entries, Reference.find?_of_mem hl.divides] at habsent
    exact absurd habsent (Option.some_ne_none _)
  · have hfill := hl.fill
    -- The path to the leaf of the key is the one that the insertion climbs.
    subst hfill
    obtain ⟨outcome, halves, hinsert, hresult, hhalves, hevents⟩ :=
      Tree.insert_divides hc hl v
    have habove : session.tree.fullAbove leaf.handle =
        .ok (fullNodes session.tree.fanout.max (q.rungs leaf.handle leaf.count)) :=
      Tree.fullRun_eq hc.shows.holds _ _ (Tree.length_lt_slotCount hc.shows.holds)
    have hheight : session.tree.height = .ok (q.length + 1) := by
      rw [Tree.height_eq hc.shows hc.populated, Path.levels_fill, Nat.zero_add]
    have hlength : halves.length =
        (fullNodes session.tree.fanout.max (q.rungs leaf.handle leaf.count)).length := by
      rw [← hhalves, List.length_map]
    rw [hfanout] at hevents
    refine ⟨_, session, leaf.handle, _, _, _, outcome, halves, hrun, hl.findLeaf, hl.getLeaf,
      habove, hheight, hinsert, hresult, hhalves, hlength ▸ hevents, ?_⟩
    -- Something is divided exactly if the run is not empty, which the leaf alone decides.
    rw [hevents, exists_split_mem_iff, Block.keyCount_toLeaf, ← hfanout, ← not_iff_not, not_not,
      ← List.map_eq_nil_iff (f := Prod.fst), hhalves]
    exact Path.fullNodes_rungs_eq_nil_iff

/-- With three keys to a node, the last of eight insertions in ascending order divides the last leaf
and the root. -/
theorem run_divides_to_root :
    ∃ (answers : List (Answer Nat Nat)) (session : Session Nat Nat)
      (outcome : Outcome Nat Nat (Option Nat)) (halves : List (Handle × Handle)),
      (Session.start .standard).run (insertTens 7) = .ok (answers, session) ∧
      session.tree.fullAbove ⟨3⟩ = .ok [⟨3⟩, ⟨2⟩] ∧ session.tree.height = .ok 2 ∧
      session.tree.insert 80 8 = .ok outcome ∧ halves.map Prod.fst = [⟨3⟩, ⟨2⟩] ∧
      outcome.events =
        divisions .standard true halves ++ [.promoted outcome.tree.root 3] := by
  obtain ⟨answers, session, target, leaf, run, height, outcome, halves, hrun, htarget, -, habove,
    hheight, hinsert, -, hhalves, hevents, -⟩ :=
    run_divides .standard (insertTens 7) 80 8 rfl
  -- The full nodes are evaluated; that these are divided comes from the theorem.
  have hway : ((Session.start .standard).run (insertTens 7)).bind (fun r => do
      let target ← r.2.tree.findLeaf (.of 80)
      return (target, ← r.2.tree.fullAbove target, ← r.2.tree.height)) =
      .ok (⟨3⟩, [⟨3⟩, ⟨2⟩], 2) := by decide +kernel
  rw [hrun] at hway
  have hfound : (.ok (target, run, height) : Except Fault (Handle × List Handle × Nat)) =
      .ok (⟨3⟩, [⟨3⟩, ⟨2⟩], 2) := by
    rw [← hway]
    show _ = session.tree.findLeaf (.of 80) >>= _
    rw [htarget, ok_bind, habove, ok_bind, hheight]
    rfl
  obtain ⟨rfl, rfl, rfl⟩ : target = ⟨3⟩ ∧ run = [⟨3⟩, ⟨2⟩] ∧ height = 2 := by
    simpa using hfound
  exact ⟨answers, session, outcome, halves, hrun, habove, hheight, hinsert, hhalves, hevents⟩

end OrderedIndex
