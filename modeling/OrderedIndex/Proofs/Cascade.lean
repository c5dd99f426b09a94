import OrderedIndex.Proofs.Structure

/-!
# The cascade of a removal

A removal that leaves a leaf short sets off a cascade: the leaf borrows a pair or is merged with a
sibling, a merge may leave the parent short in turn, and so on up to the root.  What happens is
decided before it starts.  The nodes on the way from the leaf to the root, the numbers of their keys
and those of the siblings next to them determine all events, since a climb that has come up to a
node has not touched its siblings yet.
-/

namespace OrderedIndex

variable {K V : Type} {n : Nat}

/-! ## The way to a key -/

namespace Shape

/-- What one sees of a node from beside it. -/
def gauge (shape : Shape K V) : Handle × Nat := (shape.handle, shape.keys.length)

mutual

/-- The nodes from the leaf that holds a search key up to the topmost node, which has the given
siblings. -/
def rungsBelow (cut : Cut K) (left right : Option (Handle × Nat)) : Shape K V → Option (List Rung)
  | .leaf handle _ _ keys _ =>
    if keys.any fun k => cut k == .eq then some [⟨handle, keys.length, left, right⟩] else none
  | .branch handle _ keys children =>
    (rungsAmong cut none children).map (· ++ [⟨handle, keys.length, left, right⟩])

/-- The nodes from the leaf that holds a search key up to one of some siblings, of which the first
one stands to the right of the given one. -/
def rungsAmong (cut : Cut K) (left : Option (Handle × Nat)) :
    List (Shape K V) → Option (List Rung)
  | [] => none
  | child :: children =>
    (rungsBelow cut left (children.head?.map gauge) child).or
      (rungsAmong cut (some child.gauge) children)

end

/-- The nodes on the way from the leaf that holds a search key up to the root. -/
def rungs (cut : Cut K) (shape : Shape K V) : Option (List Rung) := shape.rungsBelow cut none none

end Shape

/-! ## The events that follow from it -/

/-- The event that mends a node that has lost a key and has too few now, where the numbers of keys
are those before.  The node borrows from a sibling that has more than `min` keys, from the left one
if both have; where neither has, it is merged with the left one, which stays, or as a first child
with the right one, which goes. -/
def Rung.mend? (min : Nat) : Rung → Option Event
  | ⟨node, keys, left, right⟩ =>
    match left.filter (min < ·.2), right.filter (min < ·.2), left, right with
    | some lender, _, _, _ => some (.borrowed .left node lender.1 keys)
    | none, some lender, _, _ => some (.borrowed .right node lender.1 keys)
    | none, none, some other, _ => some (.merged other.1 node (other.2 + (keys - 1)))
    | none, none, none, some other => some (.merged node other.1 (keys - 1 + other.2))
    | none, none, none, none => none

/-- The events of a removal from the first of some nodes on, which has lost a key, up to the root.
The nodes are seen as they were before the removal, and `height` is the height of the tree then.  A
leaf has lost the entry; a branch has lost one of two children that were merged into `survivor`.  A
root that had two children gives way to the one that is left.  Any other node is short now if it had
exactly `min` keys, and if a merge mends it, its parent has lost a key in turn. -/
def cascade (min height : Nat) : Option Handle → List Rung → List Event
  | _, [] => []
  | none, [_] => []
  | some survivor, [root] => if root.keys = 2 then [.collapsed survivor (height - 1)] else []
  | _, rung :: parent :: above =>
    if rung.keys = min then
      match rung.mend? min with
      | some (.merged survivor released keys) =>
        .merged survivor released keys :: cascade min height (some survivor) (parent :: above)
      | some event => [event]
      | none => []
    else []

/-! ## Finding the way -/

/-- No way leads into siblings that all lack the search key. -/
theorem Shape.rungsAmong_append {cut : Cut K} {before : List (Shape K V)}
    (habsent : ∀ child ∈ before, ∀ left right, child.rungsBelow cut left right = none)
    (left : Option (Handle × Nat)) (after : List (Shape K V)) :
    rungsAmong cut left (before ++ after) =
      rungsAmong cut ((before.getLast?.map gauge).or left) after := by
  -- The children before the first that is gone through only pass on who is to the left of the next.
  induction before generalizing left with
  | nil => rfl
  | cons child before ih =>
    rw [List.forall_mem_cons] at habsent
    rw [List.cons_append, rungsAmong, habsent.1, Option.none_or, ih habsent.2, List.getLast?_cons]
    cases before.getLast? with
    | none => rfl
    | some last => rfl

/-- The entries below one of some siblings are among the entries below all of them. -/
theorem entries_subset_entriesOf {slots : List (K × Subtree K V n)} {slot : K × Subtree K V n}
    (hslot : slot ∈ slots) : slot.2.entries ⊆ entriesOf (leavesEach slots) := by
  intro entry hentry
  obtain ⟨leaf, hleaf, hmem⟩ := List.mem_flatMap.1 hentry
  exact List.mem_flatMap.2 ⟨leaf, List.mem_flatMap.2 ⟨slot, hslot, hleaf⟩, hmem⟩

namespace Block

variable {cut : Cut K}

theorem gauge_shape (parent : Option Handle) (slot : K × Subtree K V n) :
    (slot.2.shape parent).gauge = gauge slot := by
  rw [Shape.gauge, handle_shape, keys_shape, List.length_map]
  rfl

/-- No way leads into a subtree that lacks the search key. -/
theorem rungsBelow_of_absent {b : Subtree K V n} (habsent : ∀ entry ∈ b.entries, cut entry.1 ≠ .eq)
    (parent : Option Handle) (left right : Option (Handle × Nat)) :
    (b.shape parent).rungsBelow cut left right = none := by
  -- The children of a branch are asked with themselves as siblings, so the induction on the level
  -- is over any parent and any siblings.
  induction n generalizing parent left right with
  | zero =>
    rw [entries_zero] at habsent
    simpa [shape, Shape.rungsBelow] using fun k v => habsent (k, v)
  | succ n ih =>
    have hchildren : ∀ child ∈ b.pairs.map fun slot => slot.2.shape (some b.handle),
        ∀ left right, child.rungsBelow cut left right = none := by
      intro child hchild
      obtain ⟨slot, hslot, rfl⟩ := List.mem_map.1 hchild
      exact ih (fun entry hentry => habsent entry (entries_subset_entriesOf hslot hentry)) _
    have hnone := Shape.rungsAmong_append hchildren none []
    rw [List.append_nil] at hnone
    rw [shape, Shape.rungsBelow, hnone]
    rfl

end Block

section Fill

variable {cut : Cut K} {t : Subtree K V n} {way : List Rung}

/-- A way that leads through a child leads on through its parent. -/
theorem Frame.rungsBelow_plug {f : Frame K (Subtree K V n)}
    (hbefore : ∀ entry ∈ entriesOf (leavesEach f.before), cut entry.1 ≠ .eq)
    (hway : ∀ parent left right, (t.shape parent).rungsBelow cut left right =
      some (way ++ [⟨t.handle, t.count, left, right⟩]))
    (parent : Option Handle) (left right : Option (Handle × Nat)) :
    (Block.shape (n := n + 1) parent (f.plug t)).rungsBelow cut left right =
      some (way ++ [f.rung t.handle t.count] ++
        [⟨(f.plug t).handle, (f.plug t).count, left, right⟩]) := by
  have habsent : ∀ child ∈ f.before.map fun slot => slot.2.shape (some f.handle),
      ∀ left right, child.rungsBelow cut left right = none := by
    intro child hchild
    obtain ⟨slot, hslot, rfl⟩ := List.mem_map.1 hchild
    exact Block.rungsBelow_of_absent
      (fun entry hentry => hbefore entry (entries_subset_entriesOf hslot hentry)) _
  -- The children before the gap lack the key, so the one in the gap is the first to be found.
  have hamong : Shape.rungsAmong cut none
      ((f.before ++ (f.key, t) :: f.after).map fun slot => slot.2.shape (some f.handle)) =
        some (way ++ [f.rung t.handle t.count]) := by
    have hleft : (f.before.map fun slot => slot.2.shape (some f.handle)).getLast?.map Shape.gauge =
        (f.beside .left).map Block.gauge := by
      rw [List.getLast?_map, Option.map_map]
      exact congrArg (Option.map · _) (funext fun slot => Block.gauge_shape _ slot)
    have hright : (f.after.map fun slot => slot.2.shape (some f.handle)).head?.map Shape.gauge =
        (f.beside .right).map Block.gauge := by
      rw [List.head?_map, Option.map_map]
      exact congrArg (Option.map · _) (funext fun slot => Block.gauge_shape _ slot)
    rw [List.map_append, Shape.rungsAmong_append habsent, List.map_cons, Shape.rungsAmong, hway,
      Option.some_or, Option.or_none, hleft, hright, Frame.rung]
  have hkeys : ((f.plug t).pairs.map Prod.fst).length = (f.plug t).count := List.length_map ..
  rw [Block.shape, Shape.rungsBelow, hkeys]
  exact congrArg (Option.map _) hamong

/-- The way to a key that stands below the end of a path goes along the path. -/
theorem Path.rungs_fill {p : Path K V n}
    (hleft : ∀ entry ∈ entriesOf p.left, cut entry.1 ≠ .eq)
    (hway : ∀ parent left right, (t.shape parent).rungsBelow cut left right =
      some (way ++ [⟨t.handle, t.count, left, right⟩])) :
    ((p.fill t).root.shape none).rungs cut = some (way ++ p.rungs t.handle t.count) := by
  -- The induction climbs: the way through a child is all that is known at the next branch.
  induction p generalizing way with
  | top => exact hway none none none
  | step f rest ih =>
    rw [Path.left, entriesOf_append, List.forall_mem_append] at hleft
    have hfill := ih hleft.1 (Frame.rungsBelow_plug hleft.2 hway)
    simpa [Path.rungs, Path.fill] using hfill

end Fill

/-! ## Following the climb -/

section Cascade

variable {min height : Nat} {survivor : Option Handle} {rung : Rung} {above : List Rung}

theorem cascade_of_ne (habove : above ≠ []) (hkeys : rung.keys ≠ min) :
    cascade min height survivor (rung :: above) = [] := by
  obtain ⟨parent, above, rfl⟩ := List.exists_cons_of_ne_nil habove
  rw [cascade, if_neg hkeys]

theorem cascade_of_borrowed {side : Side} {node lender : Handle} {keys : Nat}
    (habove : above ≠ []) (hkeys : rung.keys = min)
    (hmend : rung.mend? min = some (.borrowed side node lender keys)) :
    cascade min height survivor (rung :: above) = [.borrowed side node lender keys] := by
  obtain ⟨parent, above, rfl⟩ := List.exists_cons_of_ne_nil habove
  rw [cascade, if_pos hkeys, hmend]

theorem cascade_of_merged {stays goes : Handle} {keys : Nat} (habove : above ≠ [])
    (hkeys : rung.keys = min) (hmend : rung.mend? min = some (.merged stays goes keys)) :
    cascade min height survivor (rung :: above) =
      .merged stays goes keys :: cascade min height (some stays) above := by
  obtain ⟨parent, above, rfl⟩ := List.exists_cons_of_ne_nil habove
  rw [cascade, if_pos hkeys, hmend]

end Cascade

/-- A branch that has lost a key has the survivor among its children; a leaf has none. -/
def Block.Keeps (survivor : Option Handle) : {n : Nat} → Subtree K V n → Prop
  | 0, _ => survivor = none
  | _ + 1, b => ∃ slot ∈ b.pairs, survivor = some slot.2.handle

/-- The child in the gap of a frame survives. -/
theorem Frame.keeps_fill (f : Frame K (Subtree K V n)) (slot : K × Subtree K V n) :
    Block.Keeps (n := n + 1) (some slot.2.handle) (f.fill [slot]) :=
  ⟨slot, by simp [Frame.fill], rfl⟩

section Mend

variable {fanout : Fanout} {side : Side} {f : Frame K (Subtree K V n)} {t : Subtree K V n}
  {slot : K × Subtree K V n}

/-- A sibling lends if it has a pair to spare. -/
theorem filter_gauge_of_lt (hspare : fanout.min < slot.2.count) :
    (some (Block.gauge slot)).filter (fanout.min < ·.2) = some (Block.gauge slot) :=
  if_pos (decide_eq_true hspare)

theorem filter_gauge_of_le (sibling : Option (K × Subtree K V n))
    (hfew : ∀ other ∈ sibling, other.2.count ≤ fanout.min) :
    (sibling.map Block.gauge).filter (fanout.min < ·.2) = none := by
  cases sibling with
  | none => rfl
  | some other =>
    exact if_neg fun hspare => Nat.not_lt_of_le (hfew other rfl) (of_decide_eq_true hspare)

/-- What the climb does where a sibling lends is what the way says. -/
theorem mend?_borrows (hspare : fanout.min < slot.2.count)
    (hfirst : side = .right → ∀ other ∈ f.beside .left, other.2.count ≤ fanout.min) :
    ((f.widen slot side).rung t.handle (t.count + 1)).mend? fanout.min =
      some (.borrowed side t.handle slot.2.handle (t.count + 1)) := by
  have hlender : (f.widen slot side).beside side = some slot := Frame.beside_widen
  have hlends := filter_gauge_of_lt hspare
  -- The left sibling is asked first; on the right one also counts that the left one had none to
  -- spare.
  cases side with
  | left =>
    simp only [Rung.mend?, Frame.rung, hlender, Option.map_some, hlends]
    rfl
  | right =>
    have hother : (f.widen slot .right).beside .left = f.beside .left := rfl
    have hnone := filter_gauge_of_le (f.beside .left) (hfirst rfl)
    simp only [Rung.mend?, Frame.rung, hlender, Option.map_some, hlends, hother, hnone]
    rfl

/-- What the climb does where no sibling lends is what the way says. -/
theorem mend?_merges {l r : K × Subtree K V n} (hfew : slot.2.count ≤ fanout.min)
    (hothers : ∀ other ∈ f.beside side.opposite, other.2.count ≤ fanout.min)
    (hfirst : side = .right → f.beside .left = none)
    (hlr : side.both slot (f.key, t) = [l, r]) :
    ((f.widen slot side).rung t.handle (t.count + 1)).mend? fanout.min =
      some (.merged l.2.handle r.2.handle (l.2.count + r.2.count)) := by
  have hbeside : (f.widen slot side).beside side = some slot := Frame.beside_widen
  have hnone := filter_gauge_of_le (some slot) fun other hother => Option.some.inj hother ▸ hfew
  rw [Option.map_some] at hnone
  cases side with
  | left =>
    obtain ⟨rfl, rfl⟩ : slot = l ∧ (f.key, t) = r := by simpa [Side.both] using hlr
    have hother : (f.widen slot .left).beside .right = f.beside .right := rfl
    have hnone' := filter_gauge_of_le (f.beside .right) hothers
    simp only [Rung.mend?, Frame.rung, hbeside, Option.map_some, hnone, hother, hnone']
    rfl
  | right =>
    -- There is nothing to the left, so the node is the one that stays.
    obtain ⟨rfl, rfl⟩ : (f.key, t) = l ∧ slot = r := by simpa [Side.both] using hlr
    have hother : (f.widen slot .right).beside .left = none := hfirst rfl
    simp only [Rung.mend?, Frame.rung, hbeside, Option.map_some, Option.map_none, hnone, hother,
      Option.filter_none]
    rfl

end Mend

/-- The events of a climb are the cascade that the path determines. -/
theorem Mends.events_eq {fanout : Fanout} {p : Path K V n} {t : Subtree K V n}
    {layout : Layout K V} {events : List Event} (hmends : Mends fanout p t layout events)
    (hs : Short fanout p t) {survivor : Option Handle} (hk : t.Keeps survivor) :
    events = cascade fanout.min (n + p.length + 1) survivor (p.rungs t.handle (t.count + 1)) := by
  -- At each frame the siblings are still as they were before the removal, and so is the count of
  -- the parent but for the child that a merge has taken from it.
  induction hmends generalizing survivor with
  | leaf =>
    obtain rfl : survivor = none := hk
    rfl
  | @branch n t hmany =>
    obtain ⟨slot, -, rfl⟩ := hk
    have hne : t.count + 1 ≠ 2 := fun heq => hmany (Nat.succ.inj heq)
    exact (if_neg hne).symm
  | collapses =>
    -- A single child is the survivor that the collapsing root names.
    obtain ⟨slot, hslot, rfl⟩ := hk
    obtain rfl := List.mem_singleton.1 hslot
    rfl
  | @enough n f rest t hmin =>
    have hne : t.count + 1 ≠ fanout.min := by omega
    exact (cascade_of_ne rest.rungs_ne_nil hne).symm
  | @borrows n side f rest t slot pair pairs k k' hshort hspare hfirst hpairs hk hk' =>
    have hcount := hs.count_succ_eq hshort
    exact (cascade_of_borrowed rest.rungs_ne_nil hcount (mend?_borrows hspare hfirst)).symm
  | @merges n side f rest t slot l r layout events hshort hfew hothers hfirst hlr hrest ih =>
    have hcount := hs.count_succ_eq hshort
    have hparent : (f.fill [(r.1, l.2.merge r.2)]).count + 1 = (f.widen slot side).count := by
      rw [Frame.count_fill, Frame.count_widen]
      rfl
    have hfill := ih (hs.next hshort hfew hlr) (f.keeps_fill (r.1, l.2.merge r.2))
    have hheight : n + (Path.step (f.widen slot side) rest).length + 1 =
        n + 1 + rest.length + 1 := by
      rw [Path.length]
      omega
    rw [hparent] at hfill
    rw [hheight, Path.rungs, Frame.handle_widen,
      cascade_of_merged rest.rungs_ne_nil hcount (mend?_merges hfew hothers hfirst hlr), hfill]
    rfl

/-! ## Every reachable tree -/

section Removal

variable {tree : Tree K V} {cut : Cut K} {q : Path K V 0} {leaf : Block K V}
  {lower upper : List (K × V)} {pair : K × V}

/-- The way to a key that is present ends at the leaf in which it lands. -/
theorem Tree.Lands.rungs_eq (hl : Lands cut tree (q.fill leaf) q leaf lower [pair] upper
    (.found lower.length)) :
    ((q.fill leaf).root.shape none).rungs cut = some (q.rungs leaf.handle leaf.count) := by
  have hleft : ∀ entry ∈ entriesOf q.left, cut entry.1 ≠ .eq := by
    intro entry hentry
    rw [hl.divides.below entry (List.mem_append_left _ hentry)]
    decide
  have hpresent : (leaf.pairs.map Prod.fst).any fun k => cut k == .eq := by
    have hsame : cut pair.1 = .eq := hl.divides.same pair (List.mem_singleton_self _)
    simp [hl.pairs, hsame]
  have hway (parent : Option Handle) (left right : Option (Handle × Nat)) :
      (Block.shape (n := 0) parent leaf).rungsBelow cut left right =
        some ([] ++ [⟨leaf.handle, leaf.count, left, right⟩]) := by
    rw [Block.shape, Shape.rungsBelow, if_pos hpresent, List.length_map]
    rfl
  exact Path.rungs_fill hleft hway

/-- A removal leaves the events of the cascade. -/
theorem Tree.remove_cascades [Ord K] (hc : tree.Carries (q.fill leaf))
    (hl : Lands cut tree (q.fill leaf) q leaf lower [pair] upper (.found lower.length)) :
    ∃ outcome, tree.remove cut = .ok outcome ∧ outcome.result = .ok pair.2 ∧
      outcome.events = cascade tree.fanout.min (q.rungs leaf.handle leaf.count).length none
        (q.rungs leaf.handle leaf.count) := by
  obtain ⟨nodes, size, q', layout', events, nodes', root, hremove, he, -, hshort, hmends, -⟩ :=
    remove_of_lands hc hl
  refine ⟨_, hremove, rfl, ?_⟩
  have hcount : (leaf.withPairs (lower ++ upper)).count + 1 = leaf.count := hl.length_succ
  have hkeeps : Block.Keeps (n := 0) none (leaf.withPairs (lower ++ upper)) := rfl
  have hevents := hmends.events_eq hshort hkeeps
  -- The climb starts on a path that is as before the removal, but for the cached keys.
  rw [hcount, he.alike.rungs, he.alike.length, Nat.zero_add, Block.handle_withPairs] at hevents
  rw [Path.length_rungs]
  exact hevents

end Removal

/-- The events of a removal are determined before it starts.  For every fanout, every run of
operations from the empty tree and every key that is present then, the way from the leaf that holds
the key up to the root is found in the shape of the tree, and the removal leaves the cascade that
follows from it. -/
theorem run_cascades [Ord K] [Std.TransOrd K] (fanout : Fanout)
    (operations : List (Operation K V)) (key : SearchKey K)
    (hpresent : (Reference.find? key.cut (Reference.run [] operations).2).isSome) :
    ∃ answers session shape rungs outcome v,
      (Session.start fanout).run operations = .ok (answers, session) ∧
      session.tree.shape = .ok shape ∧ shape.rungs key.cut = some rungs ∧
      session.tree.remove key.cut = .ok outcome ∧ outcome.result = .ok v ∧
      outcome.events = cascade fanout.min rungs.length none rungs := by
  obtain ⟨session, layout, hrun, hs, hentries⟩ :=
    Session.run_eq (Session.start_carries fanout) operations
  have hc : session.tree.Carries layout := hs.tree
  have hfanout : session.tree.fanout = fanout := hs.fanout_eq
  have hitems : layout.entries = (Reference.run [] operations).2 := hentries
  rcases Tree.lands key.agrees hc with
    ⟨q, leaf, lower, pair, upper, hl⟩ | ⟨q, leaf, lower, upper, hl⟩
  · have hfill := hl.fill
    -- The layout is taken apart where the key lands, so the way and the climb are those of one
    -- path.
    subst hfill
    obtain ⟨outcome, hremove, hresult, hevents⟩ := Tree.remove_cascades hc hl
    rw [hfanout] at hevents
    exact ⟨_, session, _, _, outcome, pair.2, hrun, hc.shape_eq, hl.rungs_eq, hremove, hresult,
      hevents⟩
  · -- A key that lands between two others is not present.
    rw [← hitems, hl.entries, Reference.find?_of_not_mem hl.divides] at hpresent
    exact absurd hpresent Bool.false_ne_true

/-- With three keys to a node, the removal of the first of eight entries merges two leaves and then
two branches, after which the root has a single child. -/
theorem run_cascades_to_root :
    ∃ (answers : List (Answer Nat Nat)) (session : Session Nat Nat) (shape : Shape Nat Nat)
      (outcome : Outcome Nat Nat (Except KeyError Nat)),
      (Session.start .standard).run (insertTens 8) = .ok (answers, session) ∧
      session.tree.shape = .ok shape ∧
      shape.rungs (.of 10) = some [⟨⟨0⟩, 2, none, some (⟨1⟩, 2)⟩, ⟨⟨2⟩, 2, none, some (⟨5⟩, 2)⟩,
        ⟨⟨6⟩, 2, none, none⟩] ∧
      session.tree.remove (.of 10) = .ok outcome ∧
      outcome.events = [.merged ⟨0⟩ ⟨1⟩ 3, .merged ⟨2⟩ ⟨5⟩ 3, .collapsed ⟨2⟩ 2] := by
  obtain ⟨answers, session, shape, rungs, outcome, v, hrun, hshape, hrungs, hremove, -, hevents⟩ :=
    run_cascades .standard (insertTens 8) (.of 10) rfl
  -- The way to the key is evaluated; that the removal leaves its cascade comes from the theorem.
  have hway : ((Session.start .standard).run (insertTens 8)).bind
      (fun r => r.2.tree.shape.map (Shape.rungs (SearchKey.of 10).cut)) =
      .ok (some [⟨⟨0⟩, 2, none, some (⟨1⟩, 2)⟩, ⟨⟨2⟩, 2, none, some (⟨5⟩, 2)⟩,
        ⟨⟨6⟩, 2, none, none⟩]) := by decide +kernel
  rw [hrun] at hway
  have hmap : session.tree.shape.map (Shape.rungs (SearchKey.of 10).cut) =
      .ok (some [⟨⟨0⟩, 2, none, some (⟨1⟩, 2)⟩, ⟨⟨2⟩, 2, none, some (⟨5⟩, 2)⟩,
        ⟨⟨6⟩, 2, none, none⟩]) := hway
  rw [hshape] at hmap
  have hfound := Except.ok.inj hmap
  obtain rfl := Option.some.inj (hrungs.symm.trans hfound)
  exact ⟨answers, session, shape, outcome, hrun, hshape, hrungs, hremove, hevents⟩

end OrderedIndex
